import Mathlib

/-!
Batches of things of which some have a key and a value, where of the values of a key the first counts. The
things of a batch come in any order, so what comes first for a key is one of its rivals: its values in the
first batch that has any. `sameOutcome_iff` says when what comes first cannot be told from another order.
-/

namespace CSecureBuild.Lib.FirstCome

variable {α κ ε ω : Type} [DecidableEq κ]

/-! ### What comes first -/

/-- The entries of new keys, where some keys are known. -/
def firsts (seen : List κ) : List (κ × ε) → List (κ × ε)
  | [] => []
  | e :: es => if e.1 ∈ seen then firsts seen es else e :: firsts (e.1 :: seen) es

lemma mem_firsts {seen : List κ} {es : List (κ × ε)} {k : κ} {a : ε} :
    (k, a) ∈ firsts seen es ↔ k ∉ seen ∧ es.lookup k = some a := by
  induction es generalizing seen with
  | nil => simp [firsts]
  | cons e es ih =>
    obtain ⟨j, b⟩ := e
    by_cases hseen : j ∈ seen
    · rw [firsts, if_pos hseen, ih]
      refine and_congr_right fun hk => ?_
      have hne : k ≠ j := fun h => hk (h ▸ hseen)
      rw [List.lookup_cons, beq_eq_false_iff_ne.mpr hne]
    · rw [firsts, if_neg hseen, List.mem_cons, ih, Prod.mk.injEq]
      by_cases hk : k = j
      · subst hk
        rw [List.lookup_cons_self]
        simp [hseen, eq_comm]
      · rw [List.lookup_cons, beq_eq_false_iff_ne.mpr hk]
        simp [hk]

lemma nodup_firsts (seen : List κ) (es : List (κ × ε)) : ((firsts seen es).map Prod.fst).Nodup := by
  induction es generalizing seen with
  | nil => exact List.nodup_nil
  | cons e es ih =>
    by_cases hseen : e.1 ∈ seen
    · rw [firsts, if_pos hseen]
      exact ih seen
    · rw [firsts, if_neg hseen, List.map_cons, List.nodup_cons]
      refine ⟨fun h => ?_, ih _⟩
      obtain ⟨⟨j, b⟩, hmem, heq⟩ := List.mem_map.mp h
      obtain rfl : j = e.1 := heq
      exact (mem_firsts.mp hmem).1 List.mem_cons_self

/-! ### Rivals -/

variable (entry : α → Option (κ × ε))

/-- The value of a thing that has a key. -/
def valueFor (k : κ) (x : α) : Option ε :=
  (entry x).bind fun e => if e.1 = k then some e.2 else none

/-- The values of a key in a batch. -/
def valuesOf (k : κ) (batch : List α) : List ε := batch.filterMap (valueFor entry k)

/-- What comes first for a key. -/
def first (batches : List (List α)) (k : κ) : Option ε := (batches.flatten.filterMap entry).lookup k

/-- The values of a key in the first batch that has any. -/
def rivals (k : κ) : List (List α) → List ε
  | [] => []
  | batch :: batches => if valuesOf entry k batch = [] then rivals k batches else valuesOf entry k batch

/-- The same batches, each in another order. -/
abbrev Reordered (batches batches' : List (List α)) : Prop := List.Forall₂ List.Perm batches batches'

variable {entry} {batches batches' : List (List α)} {k : κ} {a b : ε}

lemma valueFor_eq_some {x : α} : valueFor entry k x = some a ↔ entry x = some (k, a) := by
  unfold valueFor
  rw [Option.bind_eq_some_iff]
  constructor
  · rintro ⟨⟨j, b⟩, hentry, h⟩
    obtain ⟨rfl, rfl⟩ := (Option.ite_none_right_eq_some.trans (and_congr_right' Option.some_inj)).mp h
    exact hentry
  · exact fun h => ⟨(k, a), h, if_pos rfl⟩

lemma head_valuesOf (k : κ) (batch : List α) :
    (batch.filterMap entry).lookup k = (valuesOf entry k batch).head? := by
  unfold valuesOf
  induction batch with
  | nil => rfl
  | cons x xs ih =>
    cases hentry : entry x with
    | none =>
      have hvalue : valueFor entry k x = none := by simp [valueFor, hentry]
      rw [List.filterMap_cons_none hentry, List.filterMap_cons_none hvalue]
      exact ih
    | some e =>
      obtain ⟨j, b⟩ := e
      rw [List.filterMap_cons_some hentry]
      by_cases h : k = j
      · subst h
        rw [List.lookup_cons_self, List.filterMap_cons_some (valueFor_eq_some.mpr hentry)]
        rfl
      · have hvalue : valueFor entry k x = none := by simp [valueFor, hentry, Ne.symm h]
        rw [List.lookup_cons, beq_eq_false_iff_ne.mpr h, List.filterMap_cons_none hvalue]
        exact ih

/-- **What comes first** is the first rival. -/
lemma first_eq (batches : List (List α)) (k : κ) : first entry batches k = (rivals entry k batches).head? := by
  induction batches with
  | nil => rfl
  | cons batch batches ih =>
    unfold first at ih ⊢
    rw [List.flatten_cons, List.filterMap_append, List.lookup_append, ih, head_valuesOf, rivals]
    split_ifs with h
    · rw [h]
      rfl
    · obtain ⟨a, more, heq⟩ := List.exists_cons_of_ne_nil h
      rw [heq]
      rfl

lemma mem_of_first (h : first entry batches k = some a) :
    ∃ x ∈ batches.flatten, entry x = some (k, a) := by
  obtain ⟨before, after, heq, -⟩ := List.lookup_eq_some_iff.mp h
  exact List.mem_filterMap.mp (heq ▸ List.mem_append_right before List.mem_cons_self)

lemma mem_rivals_of_first (h : first entry batches k = some a) : a ∈ rivals entry k batches := by
  rw [first_eq] at h
  exact List.mem_of_mem_head? h

variable (entry) in
lemma rivals_perm (k : κ) (h : Reordered batches batches') :
    (rivals entry k batches).Perm (rivals entry k batches') := by
  induction h with
  | nil => exact .nil
  | @cons batch batch' rest rest' hbatch _ ih =>
    have hvalues : (valuesOf entry k batch).Perm (valuesOf entry k batch') :=
      hbatch.filterMap _
    have hnil : valuesOf entry k batch = [] ↔ valuesOf entry k batch' = [] :=
      ⟨fun h => List.perm_nil.mp (h ▸ hvalues.symm), fun h => List.perm_nil.mp (h ▸ hvalues)⟩
    unfold rivals
    split_ifs with h h' h'
    · exact ih
    · exact absurd (hnil.mp h) h'
    · exact absurd (hnil.mpr h') h
    · exact hvalues

/-! ### Favourites -/

/-- The batches, with the things of some entries before the others. -/
def favour (entry : α → Option (κ × ε)) (good : κ → ε → Bool) (batches : List (List α)) :
    List (List α) :=
  let liked (x : α) : Bool := (entry x).any fun e => good e.1 e.2
  batches.map fun batch => batch.filter liked ++ batch.filter fun x => !liked x

omit [DecidableEq κ] in
lemma favour_reordered (good : κ → ε → Bool) (batches : List (List α)) :
    Reordered batches (favour entry good batches) := by
  unfold Reordered favour
  rw [List.forall₂_map_right_iff, List.forall₂_same]
  exact fun batch _ => (List.filter_append_perm _ batch).symm

lemma valuesOf_filter {p : α → Bool} {q : ε → Bool} (h : ∀ x a, entry x = some (k, a) → p x = q a)
    (batch : List α) : valuesOf entry k (batch.filter p) = (valuesOf entry k batch).filter q := by
  unfold valuesOf
  rw [List.filterMap_filter, List.filter_filterMap]
  refine List.filterMap_congr fun x _ => ?_
  cases hvalue : valueFor entry k x with
  | none => simp
  | some a => simp [h x a (valueFor_eq_some.mp hvalue), Option.filter]

lemma rivals_favour (good : κ → ε → Bool) (k : κ) (batches : List (List α)) :
    rivals entry k (favour entry good batches) =
      (rivals entry k batches).filter (good k) ++ (rivals entry k batches).filter fun a => !good k a := by
  induction batches with
  | nil => rfl
  | cons batch batches ih =>
    have hvalues : valuesOf entry k (batch.filter (fun x => (entry x).any fun e => good e.1 e.2) ++
          batch.filter fun x => !(entry x).any fun e => good e.1 e.2) =
        (valuesOf entry k batch).filter (good k) ++
          (valuesOf entry k batch).filter fun a => !good k a := by
      rw [← valuesOf_filter (q := good k), ← valuesOf_filter (q := fun a => !good k a)]
      · exact List.filterMap_append
      all_goals
        intro x a hentry
        simp [hentry]
    have hnil : (valuesOf entry k batch).filter (good k) ++
        (valuesOf entry k batch).filter (fun a => !good k a) = [] ↔ valuesOf entry k batch = [] := by
      rw [← List.length_eq_zero_iff, (List.filter_append_perm _ _).length_eq, List.length_eq_zero_iff]
    unfold favour at ih ⊢
    rw [List.map_cons, rivals, rivals, hvalues, ih]
    simp only [hnil]
    split_ifs <;> rfl

/-- **A favourite comes first.** -/
theorem first_favour (good : κ → ε → Bool) (h : ∃ a ∈ rivals entry k batches, good k a = true) :
    ∃ a, first entry (favour entry good batches) k = some a ∧ good k a = true := by
  obtain ⟨a, ha, hgood⟩ := h
  rw [first_eq, rivals_favour]
  obtain ⟨b, more, heq⟩ := List.exists_cons_of_ne_nil
    (List.ne_nil_of_mem (List.mem_filter.mpr ⟨ha, hgood⟩))
  rw [heq]
  exact ⟨b, rfl, (List.mem_filter.mp (heq ▸ List.mem_cons_self)).2⟩

/-! ### Outcomes -/

/-- A value that comes first makes everything fail. -/
def Fails (entry : α → Option (κ × ε)) (bad : ε → Bool) (batches : List (List α)) : Prop :=
  ∃ k a, first entry batches k = some a ∧ bad a = true

/-- Both fail, or neither does and what comes first looks the same. -/
structure SameOutcome (entry : α → Option (κ × ε)) (bad : ε → Bool) (look : ε → Option ω)
    (batches batches' : List (List α)) : Prop where
  fails : Fails entry bad batches ↔ Fails entry bad batches'
  looks : ¬ Fails entry bad batches →
    ∀ k, (first entry batches k).bind look = (first entry batches' k).bind look

/-- All rivals for a key look the same. -/
def Settled (entry : α → Option (κ × ε)) (bad : ε → Bool) (look : ε → Option ω)
    (batches : List (List α)) : Prop :=
  ∀ k, ∀ a ∈ rivals entry k batches, ∀ b ∈ rivals entry k batches, bad a = bad b ∧
    (bad a = false → look a = look b)

/-- All rivals for some key are bad. -/
def Doomed (entry : α → Option (κ × ε)) (bad : ε → Bool) (batches : List (List α)) : Prop :=
  ∃ k, rivals entry k batches ≠ [] ∧ ∀ a ∈ rivals entry k batches, bad a = true

lemma ne_nil_of_first (h : first entry batches k = some a) : rivals entry k batches ≠ [] :=
  List.ne_nil_of_mem (mem_rivals_of_first h)

lemma first_of_ne_nil (h : rivals entry k batches ≠ []) : ∃ a, first entry batches k = some a := by
  obtain ⟨a, more, heq⟩ := List.exists_cons_of_ne_nil h
  rw [first_eq, heq]
  exact ⟨a, rfl⟩

section

variable {bad : ε → Bool} {look : ε → Option ω}

/-- **Any rival can decide**: where no key is doomed, an order shows a rival as it looks, and nothing else
makes it fail. -/
theorem exists_order [DecidableEq ω] (look : ε → Option ω) (hspared : ¬ Doomed entry bad batches)
    (ha : a ∈ rivals entry k batches) :
    ∃ batches', Reordered batches batches' ∧ (Fails entry bad batches' ↔ bad a = true) ∧
      (first entry batches' k).bind look = look a := by
  let good (j : κ) (x : ε) : Bool :=
    if j = k then decide (bad x = bad a ∧ look x = look a) else !bad x
  have hself : good k a = true := by simp [good]
  obtain ⟨x, hx, hgood⟩ := first_favour good ⟨a, ha, hself⟩
  obtain ⟨hbad, hlook⟩ : bad x = bad a ∧ look x = look a := by simpa [good] using hgood
  refine ⟨favour entry good batches, favour_reordered good batches, ⟨?_, ?_⟩, ?_⟩
  · rintro ⟨j, y, hy, hbady⟩
    by_cases hj : j = k
    · subst hj
      cases hx.symm.trans hy
      exact hbad.symm.trans hbady
    · -- the rivals of another key are not all bad, and one that is not comes first
      have hne : rivals entry j batches ≠ [] := fun hnil => ne_nil_of_first hy <|
        List.perm_nil.mp (hnil ▸ (rivals_perm entry j (favour_reordered good batches)).symm)
      obtain ⟨c, hc, hbadc⟩ : ∃ c ∈ rivals entry j batches, bad c = false := by
        by_contra hall
        exact hspared ⟨j, hne, fun c hc => by_contra fun h => hall ⟨c, hc, by simpa using h⟩⟩
      have hlike : good j c = true := by simp [good, hj, hbadc]
      obtain ⟨z, hz, hgoodz⟩ := first_favour good ⟨c, hc, hlike⟩
      cases hz.symm.trans hy
      simp [good, hj, hbady] at hgoodz
  · exact fun hbada => ⟨k, x, hx, hbad.trans hbada⟩
  · rw [hx]
    exact hlook

lemma first_reordered (hsame : Reordered batches batches') (h : first entry batches k = some a) :
    ∃ b ∈ rivals entry k batches, first entry batches' k = some b := by
  have hperm := rivals_perm entry k hsame
  obtain ⟨b, hb⟩ : ∃ b, first entry batches' k = some b :=
    first_of_ne_nil fun hnil => ne_nil_of_first h (List.perm_nil.mp (hnil ▸ hperm))
  exact ⟨b, hperm.mem_iff.mpr (mem_rivals_of_first hb), hb⟩

lemma Reordered.symm (h : Reordered batches batches') : Reordered batches' batches :=
  (List.Forall₂.flip h).imp fun _ _ hperm => hperm.symm

lemma same_of_doomed (h : Doomed entry bad batches) (hsame : Reordered batches batches') :
    SameOutcome entry bad look batches batches' := by
  obtain ⟨k, hne, hall⟩ := h
  obtain ⟨a, ha⟩ := first_of_ne_nil hne
  obtain ⟨b, hb, hfirst⟩ := first_reordered hsame ha
  have hfails : Fails entry bad batches := ⟨k, a, ha, hall a (mem_rivals_of_first ha)⟩
  have hfails' : Fails entry bad batches' := ⟨k, b, hfirst, hall b hb⟩
  exact ⟨iff_of_true hfails hfails', fun h => absurd hfails h⟩

lemma same_of_settled (h : Settled entry bad look batches) (hsame : Reordered batches batches') :
    SameOutcome entry bad look batches batches' := by
  have hfails : Fails entry bad batches ↔ Fails entry bad batches' := by
    constructor
    · rintro ⟨k, a, ha, hbad⟩
      obtain ⟨b, hb, hfirst⟩ := first_reordered hsame ha
      exact ⟨k, b, hfirst, (h k a (mem_rivals_of_first ha) b hb).1 ▸ hbad⟩
    · rintro ⟨k, b, hb, hbad⟩
      obtain ⟨a, -, hfirst⟩ := first_reordered hsame.symm hb
      obtain ⟨b', hb', hfirst'⟩ := first_reordered hsame hfirst
      cases hfirst'.symm.trans hb
      exact ⟨k, a, hfirst, (h k a (mem_rivals_of_first hfirst) b hb').1.trans hbad⟩
  refine ⟨hfails, fun hok k => ?_⟩
  cases ha : first entry batches k with
  | none =>
    cases hb : first entry batches' k with
    | none => rfl
    | some b =>
      obtain ⟨a, -, ha'⟩ := first_reordered hsame.symm hb
      cases ha.symm.trans ha'
  | some a =>
    obtain ⟨b, hb, hfirst⟩ := first_reordered hsame ha
    have hspared : bad a = false := by
      by_contra hbad
      exact hok ⟨k, a, ha, by simpa using hbad⟩
    rw [hfirst]
    exact (h k a (mem_rivals_of_first ha) b hb).2 hspared

/-- **The order cannot be told from the outcome** exactly if it fails in every order, or all rivals for a key
look the same. -/
theorem sameOutcome_iff [DecidableEq ω] :
    (∀ batches', Reordered batches batches' → SameOutcome entry bad look batches batches') ↔
      Doomed entry bad batches ∨ Settled entry bad look batches := by
  constructor
  · intro h
    refine or_iff_not_imp_left.mpr fun hspared k a ha b hb => ?_
    obtain ⟨orderA, hsameA, hfailsA, hlookA⟩ := exists_order look hspared ha
    obtain ⟨orderB, hsameB, hfailsB, hlookB⟩ := exists_order look hspared hb
    have hbad : bad a = bad b := by
      rw [Bool.eq_iff_iff, ← hfailsA, ← hfailsB]
      exact (h orderA hsameA).fails.symm.trans (h orderB hsameB).fails
    refine ⟨hbad, fun ha => ?_⟩
    have hok : ¬ Fails entry bad batches := by
      rw [(h orderA hsameA).fails, hfailsA, ha]
      exact Bool.false_ne_true
    rw [← hlookA, ← hlookB, ← (h orderA hsameA).looks hok, (h orderB hsameB).looks hok]
  · rintro (hdoomed | hsettled) batches' hsame
    · exact same_of_doomed hdoomed hsame
    · exact same_of_settled hsettled hsame

end

end CSecureBuild.Lib.FirstCome
