import CSecureBuild.PyLib.Cells

/-!
Python's `re`: expressions, the results of matching one at a position in the order in which a
backtracking matcher finds them, and `match`, `search` and `sub` as what they make of the first result.

Texts are lists of cells. `results_map` says that matching does not look at marks, which is what lets
one follow where a rewritten text comes from.

Iterations of a repetition that match the empty text are dropped, and `sub` passes over empty matches:
no expression here depends on either.
-/

namespace CSecureBuild.PyLib.Regex

open CSecureBuild.PyLib.Cells

/-! ### Expressions -/

/-- Regular expressions. -/
inductive Re where
  | eps
  /-- A character of a class. -/
  | chr (p : Char → Bool)
  /-- A test of what is before and what is behind a position; what is before comes backwards. -/
  | look (p : List Char → List Char → Bool)
  | seq (r s : Re)
  | alt (r s : Re)
  /-- Any number of times, as often as possible or as seldom. -/
  | star (greedy : Bool) (r : Re)
  | group (n : ℕ) (r : Re)

/-- A text, character by character. -/
def Re.lit : List Char → Re
  | [] => .eps
  | c :: rest => .seq (.chr (· = c)) (Re.lit rest)

/-- The first of two that matches. -/
def Re.opt (r : Re) : Re := .alt r .eps

/-- At least once. -/
def Re.plus (greedy : Bool) (r : Re) : Re := .seq r (.star greedy r)

/-- One of some alternatives. -/
def Re.oneOf : List Re → Re
  | [] => .chr fun _ => false
  | [r] => r
  | r :: rest => .alt r (Re.oneOf rest)

/-- A position in a text: what is before it, backwards, what is behind it, and what the groups matched
so far, the latest first. -/
structure St (α : Type) where
  before : List α
  after : List α
  groups : List (ℕ × List α)

variable {α β σ : Type} [Cell α] [Cell β]

/-- What lies between two positions. -/
def St.upto (st st' : St α) : List α := st.after.take (st.after.length - st'.after.length)

/-- The results of a repetition. -/
def iter (step : St α → List (St α)) (greedy : Bool) : ℕ → St α → List (St α)
  | 0, st => [st]
  | n + 1, st =>
    let more := ((step st).filter fun st' => st'.after.length < st.after.length).flatMap
      (iter step greedy n)
    if greedy then more ++ [st] else st :: more

/-- The results of matching an expression at a position, the first one first. -/
def Re.results : Re → St α → List (St α)
  | .eps, st => [st]
  | .chr p, ⟨before, after, groups⟩ =>
    match after with
    | [] => []
    | c :: rest => if p (val c) then [⟨c :: before, rest, groups⟩] else []
  | .look p, st => if p (erase st.before) (erase st.after) then [st] else []
  | .seq r s, st => (r.results st).flatMap s.results
  | .alt r s, st => r.results st ++ s.results st
  | .star greedy r, st => iter r.results greedy st.after.length st
  | .group n r, st => (r.results st).map fun st' => { st' with groups := (n, st.upto st') :: st'.groups }

/-- A match: its text and the texts of its groups. -/
structure Match (α : Type) where
  whole : List α
  groups : List (ℕ × List α)
  deriving DecidableEq

/-- `m.group(n)`, the empty text where the group did not take part. -/
def Match.group (m : Match α) (n : ℕ) : List α := (m.groups.lookup n).getD []

/-- The match that ends at a position. -/
def St.toMatch (st st' : St α) : Match α := ⟨st.upto st', st'.groups⟩

/-- The first match at a position. -/
def Re.first (r : Re) (before after : List α) : Option (Match α) :=
  (r.results ⟨before, after, []⟩).head?.map (St.toMatch ⟨before, after, []⟩)

/-- `re.match`. -/
def Re.matchStart (r : Re) (text : List α) : Option (Match α) := r.first [] text

/-- `re.search`, from a position on. -/
def Re.searchFrom (r : Re) : List α → List α → Option (Match α)
  | before, [] => r.first before []
  | before, c :: rest =>
    match r.first before (c :: rest) with
    | some m => some m
    | none => r.searchFrom (c :: before) rest

/-- `re.search`. -/
def Re.search (r : Re) (text : List α) : Option (Match α) := r.searchFrom [] text

/-- What `sub` cuts a text into: characters that stay, and matches. -/
inductive Piece (α : Type) where
  | keep (c : α)
  | hit (m : Match α)
  deriving DecidableEq

/-- The text of a piece. -/
def Piece.text : Piece α → List α
  | .keep c => [c]
  | .hit m => m.whole

/-- A piece, with something in the place of a match. -/
def Piece.replaced (f : Match α → List α) : Piece α → List α
  | .keep c => [c]
  | .hit m => f m

/-- A match that `sub` replaces. -/
def Re.hitAt (r : Re) (before after : List α) : Option (Match α) :=
  (r.first before after).filter fun m => m.whole ≠ []

/-- The pieces of a text, with fuel for each of its characters. -/
def Re.scan (r : Re) : ℕ → List α → List α → List (Piece α)
  | _, _, [] => []
  | 0, _, _ => []
  | n + 1, before, c :: rest =>
    match r.hitAt before (c :: rest) with
    | some m =>
      .hit m :: r.scan n (m.whole.reverse ++ before) ((c :: rest).drop m.whole.length)
    | none => .keep c :: r.scan n (c :: before) rest

/-- The pieces of a text behind another. -/
def Re.piecesFrom (r : Re) (before after : List α) : List (Piece α) := r.scan after.length before after

/-- The pieces of a text. -/
def Re.pieces (r : Re) (text : List α) : List (Piece α) := r.piecesFrom [] text

/-- Putting something in the place of each match, one after another. -/
def rewrite (f : σ → Match α → σ × List α) : σ → List (Piece α) → σ × List α
  | s, [] => (s, [])
  | s, .keep c :: rest =>
    let (s, out) := rewrite f s rest
    (s, c :: out)
  | s, .hit m :: rest =>
    let (s, repl) := f s m
    let (s, out) := rewrite f s rest
    (s, repl ++ out)

/-- `re.sub` with a function that depends on the match only. -/
def Re.sub (r : Re) (f : Match α → List α) (text : List α) : List α :=
  (r.pieces text).flatMap (Piece.replaced f)

/-- `re.sub` with a function that keeps a state. -/
def Re.subState (r : Re) (f : σ → Match α → σ × List α) (s : σ) (text : List α) : σ × List α :=
  rewrite f s (r.pieces text)

/-! ### Where results lie -/

variable {st st' : St α} {r s : Re}

/-- A result consumed a text, of characters with a property. -/
def Steps (P : Char → Prop) (st st' : St α) : Prop :=
  ∃ w, st.after = w ++ st'.after ∧ st'.before = w.reverse ++ st.before ∧ (∀ c ∈ w, P (val c)) ∧
    ∀ g ∈ st'.groups, g ∈ st.groups ∨ g.2 <:+: w

variable {P : Char → Prop}

lemma Steps.refl (st : St α) : Steps P st st := ⟨[], rfl, rfl, by simp, fun g h => Or.inl h⟩

lemma Steps.trans {st₁ st₂ st₃ : St α} (h₁ : Steps P st₁ st₂) (h₂ : Steps P st₂ st₃) :
    Steps P st₁ st₃ := by
  obtain ⟨w₁, ha₁, hb₁, hp₁, hg₁⟩ := h₁
  obtain ⟨w₂, ha₂, hb₂, hp₂, hg₂⟩ := h₂
  refine ⟨w₁ ++ w₂, by simp [ha₁, ha₂], by simp [hb₁, hb₂], ?_, ?_⟩
  · intro c hc
    exact (List.mem_append.mp hc).elim (hp₁ c) (hp₂ c)
  · intro g hg
    rcases hg₂ g hg with hg | hg
    · exact (hg₁ g hg).imp id fun h => h.trans (List.prefix_append _ _).isInfix
    · exact Or.inr (hg.trans (List.suffix_append _ _).isInfix)

lemma Steps.upto (h : Steps P st st') : st.after = st.upto st' ++ st'.after ∧
    st'.before = (st.upto st').reverse ++ st.before ∧ (∀ c ∈ st.upto st', P (val c)) ∧
    ∀ g ∈ st'.groups, g ∈ st.groups ∨ g.2 <:+: st.upto st' := by
  obtain ⟨w, ha, hb, hp, hg⟩ := h
  have hw : st.upto st' = w := by
    unfold St.upto
    rw [ha, List.length_append, Nat.add_sub_cancel, List.take_left]
  rw [hw]
  exact ⟨ha, hb, hp, hg⟩

/-- Every class of an expression lies within a property. -/
def Re.Within (P : Char → Prop) : Re → Prop
  | .eps | .look _ => True
  | .chr p => ∀ c, p c = true → P c
  | .seq r s | .alt r s => r.Within P ∧ s.Within P
  | .star _ r | .group _ r => r.Within P

lemma steps_iter {step : St α → List (St α)} {greedy : Bool}
    (hstep : ∀ st, ∀ st' ∈ step st, Steps P st st') (n : ℕ) (st : St α) :
    ∀ st' ∈ iter step greedy n st, Steps P st st' := by
  induction n generalizing st with
  | zero =>
    intro st' h
    rw [List.mem_singleton.mp h]
    exact Steps.refl st
  | succ n ih =>
    have hmore : ∀ st' ∈ ((step st).filter fun st' => st'.after.length < st.after.length).flatMap
        (iter step greedy n), Steps P st st' := by
      intro st' h
      obtain ⟨mid, hmid, h⟩ := List.mem_flatMap.mp h
      exact (hstep st mid (List.mem_of_mem_filter hmid)).trans (ih mid st' h)
    intro st' h
    unfold iter at h
    cases greedy with
    | true =>
      rcases List.mem_append.mp h with h | h
      · exact hmore st' h
      · rw [List.mem_singleton.mp h]
        exact Steps.refl st
    | false =>
      rcases List.mem_cons.mp h with h | h
      · rw [h]
        exact Steps.refl st
      · exact hmore st' h

/-- **What an expression matches** lies behind the position, and in the classes of the expression. -/
theorem steps_results (hr : r.Within P) (st : St α) : ∀ st' ∈ r.results st, Steps P st st' := by
  induction r generalizing st with
  | eps =>
    intro st' h
    rw [List.mem_singleton.mp h]
    exact Steps.refl st
  | chr p =>
    obtain ⟨before, after, groups⟩ := st
    intro st' h
    cases after with
    | nil => cases h
    | cons c rest =>
      simp only [Re.results] at h
      split_ifs at h with hp
      · rw [List.mem_singleton.mp h]
        exact ⟨[c], rfl, rfl, by simpa using hr _ hp, fun g hg => Or.inl hg⟩
      · cases h
  | look p =>
    intro st' h
    simp only [Re.results] at h
    split_ifs at h with hp
    · rw [List.mem_singleton.mp h]
      exact Steps.refl st
    · cases h
  | seq r s ihr ihs =>
    intro st' h
    obtain ⟨mid, hmid, h⟩ := List.mem_flatMap.mp h
    exact (ihr hr.1 st mid hmid).trans (ihs hr.2 mid st' h)
  | alt r s ihr ihs =>
    intro st' h
    rcases List.mem_append.mp h with h | h
    · exact ihr hr.1 st st' h
    · exact ihs hr.2 st st' h
  | star greedy r ih => exact steps_iter (ih hr) _ st
  | group n r ih =>
    intro st' h
    obtain ⟨mid, hmid, rfl⟩ := List.mem_map.mp h
    obtain ⟨ha, hb, hp, hg⟩ := (ih hr st mid hmid).upto
    refine ⟨st.upto mid, ha, hb, hp, ?_⟩
    intro g hg'
    rcases List.mem_cons.mp hg' with rfl | hg'
    · exact Or.inr (List.infix_refl _)
    · exact hg g hg'

/-- **What a match is**: the text from its position on begins with it, and its groups lie in it. -/
theorem first_spec (hr : r.Within P) {before after : List α} {m : Match α}
    (h : r.first before after = some m) :
    m.whole <+: after ∧ (∀ c ∈ m.whole, P (val c)) ∧ ∀ n, m.group n <:+: m.whole := by
  obtain ⟨st', hst', rfl⟩ := Option.map_eq_some_iff.mp h
  obtain ⟨ha, -, hp, hg⟩ := (steps_results hr _ st' (List.mem_of_mem_head? hst')).upto
  refine ⟨⟨st'.after, ha.symm⟩, hp, ?_⟩
  intro n
  unfold Match.group
  cases hn : (St.toMatch ⟨before, after, []⟩ st').groups.lookup n with
  | none => exact List.nil_infix
  | some g =>
    obtain ⟨l₁, l₂, heq, -⟩ := List.lookup_eq_some_iff.mp hn
    have hmem : (n, g) ∈ st'.groups := by
      show (n, g) ∈ (St.toMatch ⟨before, after, []⟩ st').groups
      rw [heq]
      simp
    exact (hg (n, g) hmem).resolve_left List.not_mem_nil

lemma Re.within_true (r : Re) : r.Within fun _ => True := by
  induction r with
  | eps | look _ => trivial
  | chr p => exact fun _ _ => trivial
  | seq r s ihr ihs | alt r s ihr ihs => exact ⟨ihr, ihs⟩
  | star greedy r ih | group n r ih => exact ih

/-! ### Results of sequences and repetitions -/

/-- The first result. -/
def Re.head (r : Re) (st : St α) : Option (St α) := (r.results st).head?

lemma first_eq (r : Re) (before after : List α) :
    r.first before after = (r.head ⟨before, after, []⟩).map (St.toMatch ⟨before, after, []⟩) := rfl

lemma head_seq (r s : Re) (st : St α) : (Re.seq r s).head st = (r.results st).findSome? s.head :=
  List.head?_flatMap

lemma head_alt (r s : Re) (st : St α) : (Re.alt r s).head st = (r.head st).or (s.head st) :=
  List.head?_append

omit [Cell α] in
lemma iter_fuel (step : St α → List (St α)) (greedy : Bool) {n : ℕ} {st : St α}
    (h : st.after.length ≤ n) : iter step greedy n st = iter step greedy st.after.length st := by
  induction n using Nat.strong_induction_on generalizing st with
  | _ n ih =>
    -- every iteration that is kept leaves less than the fuel
    have hmore : ∀ k, k < n → st.after.length ≤ k + 1 →
        ((step st).filter fun st' => st'.after.length < st.after.length).flatMap
          (iter step greedy k) =
        ((step st).filter fun st' => st'.after.length < st.after.length).flatMap
          fun st' => iter step greedy st'.after.length st' := by
      intro k hk hst
      refine List.flatMap_congr fun st' hst' => ?_
      have hlt := (List.mem_filter.mp hst').2
      simp only [decide_eq_true_eq] at hlt
      exact ih k hk (by omega)
    cases n with
    | zero =>
      rw [Nat.le_zero.mp h]
    | succ n =>
      cases hlen : st.after.length with
      | zero =>
        unfold iter
        have hnone : ((step st).filter fun st' => st'.after.length < st.after.length) = [] := by
          simp [hlen]
        rw [hnone]
        cases greedy <;> rfl
      | succ k =>
        rw [iter, iter, hmore n (by omega) h, hmore k (by omega) (by omega)]

/-- **The results of a repetition**: those behind one more iteration, and none. -/
theorem results_star (greedy : Bool) (r : Re) (st : St α) :
    (Re.star greedy r).results st =
      let more := ((r.results st).filter fun st' => st'.after.length < st.after.length).flatMap
        (Re.star greedy r).results
      if greedy then more ++ [st] else st :: more := by
  show iter r.results greedy st.after.length st = _
  rw [← iter_fuel r.results greedy (Nat.le_succ _), iter]
  have hmore : ((r.results st).filter fun st' => st'.after.length < st.after.length).flatMap
      (iter r.results greedy st.after.length) =
      ((r.results st).filter fun st' => st'.after.length < st.after.length).flatMap
        (Re.star greedy r).results := by
    refine List.flatMap_congr fun st' hst' => ?_
    have hlt := (List.mem_filter.mp hst').2
    simp only [decide_eq_true_eq] at hlt
    exact iter_fuel r.results greedy (by omega)
  rw [hmore]

section

variable {p : Char → Bool} {before rest : List α} {groups : List (ℕ × List α)} {c : α}

lemma results_chr_cons (h : p (val c) = true) :
    (Re.chr p).results ⟨before, c :: rest, groups⟩ = [⟨c :: before, rest, groups⟩] := by
  simp [Re.results, h]

lemma results_chr_neg (h : p (val c) = false) :
    (Re.chr p).results ⟨before, c :: rest, groups⟩ = [] := by
  simp [Re.results, h]

@[simp] lemma results_chr_nil : (Re.chr p).results ⟨before, [], groups⟩ = [] := rfl

lemma results_star_chr_cons (greedy : Bool) (h : p (val c) = true) :
    (Re.star greedy (.chr p)).results ⟨before, c :: rest, groups⟩ =
      if greedy then
        (Re.star greedy (.chr p)).results ⟨c :: before, rest, groups⟩ ++ [⟨before, c :: rest, groups⟩]
      else
        ⟨before, c :: rest, groups⟩ ::
          (Re.star greedy (.chr p)).results ⟨c :: before, rest, groups⟩ := by
  rw [results_star, results_chr_cons h]
  simp

lemma results_star_chr_neg (greedy : Bool) (h : p (val c) = false) :
    (Re.star greedy (.chr p)).results ⟨before, c :: rest, groups⟩ = [⟨before, c :: rest, groups⟩] := by
  rw [results_star, results_chr_neg h]
  cases greedy <;> rfl

@[simp] lemma results_star_chr_nil (greedy : Bool) :
    (Re.star greedy (.chr p)).results ⟨before, [], groups⟩ = [⟨before, [], groups⟩] := by
  cases greedy <;> rfl

lemma head_star_chr (before after : List α) (groups : List (ℕ × List α)) :
    (Re.star true (.chr p)).head ⟨before, after, groups⟩ =
      some ⟨(after.takeWhile fun c => p (val c)).reverse ++ before,
        after.dropWhile fun c => p (val c), groups⟩ := by
  unfold Re.head
  induction after generalizing before with
  | nil => simp
  | cons c rest ih =>
    by_cases h : p (val c) = true
    · rw [results_star_chr_cons true h, if_pos rfl, List.head?_append, ih]
      simp [h]
    · rw [results_star_chr_neg true (by simpa using h)]
      simp [h]

end

/-! ### What is among the results -/

section

variable {p : Char → Bool} {before after : List α} {groups : List (ℕ × List α)}

lemma mem_seq : st' ∈ (Re.seq r s).results st ↔ ∃ mid ∈ r.results st, st' ∈ s.results mid :=
  List.mem_flatMap

lemma mem_alt : st' ∈ (Re.alt r s).results st ↔ st' ∈ r.results st ∨ st' ∈ s.results st :=
  List.mem_append

lemma mem_look {q : List Char → List Char → Bool} :
    st' ∈ (Re.look q).results st ↔ q (erase st.before) (erase st.after) = true ∧ st' = st := by
  rw [Re.results]
  split_ifs with h <;> simp [h]

lemma mem_chr : st' ∈ (Re.chr p).results ⟨before, after, groups⟩ ↔
    ∃ c rest, after = c :: rest ∧ p (val c) = true ∧ st' = ⟨c :: before, rest, groups⟩ := by
  cases after with
  | nil => simp
  | cons c rest =>
    by_cases h : p (val c) = true
    · rw [results_chr_cons h, List.mem_singleton]
      constructor
      · exact fun heq => ⟨c, rest, rfl, h, heq⟩
      · rintro ⟨d, rest', heq, -, rfl⟩
        cases heq
        rfl
    · rw [results_chr_neg (by simpa using h)]
      constructor
      · exact fun hmem => absurd hmem List.not_mem_nil
      · rintro ⟨d, rest', heq, hd, -⟩
        cases heq
        exact absurd hd h

lemma mem_lit {text : List Char} : st' ∈ (Re.lit text).results ⟨before, after, groups⟩ ↔
    ∃ w rest, after = w ++ rest ∧ erase w = text ∧ st' = ⟨w.reverse ++ before, rest, groups⟩ := by
  induction text generalizing before after with
  | nil =>
    constructor
    · exact fun h => ⟨[], after, rfl, rfl, List.mem_singleton.mp h⟩
    · rintro ⟨w, rest, rfl, hw, rfl⟩
      rw [List.map_eq_nil_iff.mp hw]
      exact List.mem_singleton_self _
  | cons c text ih =>
    rw [Re.lit, mem_seq]
    constructor
    · rintro ⟨mid, hmid, h⟩
      obtain ⟨d, rest, rfl, hd, rfl⟩ := mem_chr.mp hmid
      obtain ⟨w, rest', rfl, hw, rfl⟩ := ih.mp h
      exact ⟨d :: w, rest', rfl, by simpa using ⟨of_decide_eq_true hd, hw⟩, by simp⟩
    · rintro ⟨w, rest, rfl, hw, rfl⟩
      obtain ⟨d, w, rfl, hd, hw⟩ := List.map_eq_cons_iff.mp hw
      refine ⟨_, mem_chr.mpr ⟨d, w ++ rest, rfl, decide_eq_true hd, rfl⟩, ih.mpr ⟨w, rest, rfl, hw, ?_⟩⟩
      simp

/-- **A repetition of a class** passes over characters of it. -/
theorem mem_star_chr {greedy : Bool} : st' ∈ (Re.star greedy (.chr p)).results ⟨before, after, groups⟩ ↔
    ∃ w rest, after = w ++ rest ∧ (∀ c ∈ w, p (val c) = true) ∧
      st' = ⟨w.reverse ++ before, rest, groups⟩ := by
  induction after generalizing before with
  | nil =>
    rw [results_star_chr_nil, List.mem_singleton]
    constructor
    · exact fun h => ⟨[], [], rfl, by simp, h⟩
    · rintro ⟨w, rest, hw, -, rfl⟩
      obtain ⟨rfl, rfl⟩ := List.append_eq_nil_iff.mp hw.symm
      rfl
  | cons c rest ih =>
    by_cases h : p (val c) = true
    · -- one more character of the class, or none
      have hsplit : st' ∈ (Re.star greedy (.chr p)).results ⟨before, c :: rest, groups⟩ ↔
          st' = ⟨before, c :: rest, groups⟩ ∨
            st' ∈ (Re.star greedy (.chr p)).results ⟨c :: before, rest, groups⟩ := by
        rw [results_star_chr_cons greedy h]
        cases greedy <;> simp [or_comm]
      rw [hsplit, ih]
      constructor
      · rintro (rfl | ⟨w, rest', rfl, hw, rfl⟩)
        · exact ⟨[], c :: rest, rfl, by simp, rfl⟩
        · exact ⟨c :: w, rest', rfl, List.forall_mem_cons.mpr ⟨h, hw⟩, by simp⟩
      · rintro ⟨w, rest', heq, hw, rfl⟩
        cases w with
        | nil => exact Or.inl (by rw [heq]; rfl)
        | cons d w =>
          obtain ⟨rfl, rfl⟩ := List.cons.inj heq
          exact Or.inr ⟨w, rest', rfl, fun x hx => hw x (List.mem_cons_of_mem _ hx), by simp⟩
    · -- a character outside the class ends the run
      rw [results_star_chr_neg greedy (by simpa using h), List.mem_singleton]
      constructor
      · exact fun h => ⟨[], c :: rest, rfl, by simp, h⟩
      · rintro ⟨w, rest', heq, hw, rfl⟩
        cases w with
        | nil => rw [heq]; rfl
        | cons d w =>
          obtain ⟨rfl, -⟩ := List.cons.inj heq
          exact absurd (hw c List.mem_cons_self) h

lemma mem_star {greedy : Bool} {st : St α} : st' ∈ (Re.star greedy r).results st ↔
    st' = st ∨ ∃ mid ∈ r.results st, mid.after.length < st.after.length ∧
      st' ∈ (Re.star greedy r).results mid := by
  have hmore : (∃ mid ∈ r.results st, mid.after.length < st.after.length ∧
      st' ∈ (Re.star greedy r).results mid) ↔
      st' ∈ ((r.results st).filter fun st' => st'.after.length < st.after.length).flatMap
        (Re.star greedy r).results := by
    simp only [List.mem_flatMap, List.mem_filter, decide_eq_true_eq, and_assoc]
  rw [results_star, hmore]
  cases greedy <;> simp [or_comm]

lemma mem_group {n : ℕ} {st : St α} : st' ∈ (Re.group n r).results st ↔
    ∃ mid ∈ r.results st, st' = ⟨mid.before, mid.after, (n, st.upto mid) :: mid.groups⟩ := by
  rw [Re.results, List.mem_map]
  exact exists_congr fun mid => and_congr_right fun _ => eq_comm

omit [Cell α] in
lemma upto_append (w : List α) (before before' : List α) (groups groups' : List (ℕ × List α)) :
    St.upto ⟨before, w ++ after, groups⟩ ⟨before', after, groups'⟩ = w := by
  unfold St.upto
  rw [List.length_append, Nat.add_sub_cancel, List.take_left]

lemma first_eq_none_iff : r.first before after = none ↔ r.results ⟨before, after, []⟩ = [] := by
  unfold Re.first
  rw [Option.map_eq_none_iff, List.head?_eq_none_iff]

lemma exists_of_head_seq (h : st' ∈ (Re.seq r s).head st) : ∃ mid ∈ r.results st, st' ∈ s.head mid := by
  rw [head_seq] at h
  exact List.exists_of_findSome?_eq_some h

lemma head_seq_of_head {mid : St α} (hr : r.head st = some mid) (hs : s.head mid = some st') :
    (Re.seq r s).head st = some st' := by
  obtain ⟨rest, hrest⟩ := List.head?_eq_some_iff.mp hr
  rw [head_seq, hrest, List.findSome?_cons, hs]

lemma head_eq_none (h : r.results st = []) : r.head st = none := by
  rw [Re.head, h]
  rfl

/-- **A repetition of a class, as seldom as possible**: the first place behind it from which the rest
matches. -/
theorem head_lazy {w rest : List α} (hw : ∀ c ∈ w, p (val c) = true)
    (hnone : ∀ a b, w = a ++ b → b ≠ [] → s.head ⟨a.reverse ++ before, b ++ rest, groups⟩ = none)
    (hsome : s.head ⟨w.reverse ++ before, rest, groups⟩ = some st') :
    (Re.seq (.star false (.chr p)) s).head ⟨before, w ++ rest, groups⟩ = some st' := by
  induction w generalizing before with
  | nil =>
    rw [List.reverse_nil, List.nil_append] at hsome
    rw [List.nil_append, head_seq, results_star]
    simp only [Bool.false_eq_true, if_false, List.findSome?_cons, hsome]
  | cons c w ih =>
    have hstay : s.head ⟨before, c :: (w ++ rest), groups⟩ = none := hnone [] (c :: w) rfl (List.cons_ne_nil c w)
    have ih := @ih (c :: before) (fun x hx => hw x (List.mem_cons_of_mem _ hx))
      (fun a b hab hb => by
        have := hnone (c :: a) b (by rw [hab]; rfl) hb
        rwa [List.reverse_cons, List.append_assoc] at this)
      (by rwa [List.reverse_cons, List.append_assoc] at hsome)
    rw [head_seq] at ih ⊢
    rw [List.cons_append, results_star_chr_cons false (hw c List.mem_cons_self), if_neg (by decide),
      List.findSome?_cons, hstay]
    exact ih

/-- What is left of a run of a class, when some characters of the class were passed over. -/
lemma run_rest {w rest w₀ left : List α} (hrest : ∀ c ∈ rest.head?, p (val c) = false)
    (hw₀ : ∀ c ∈ w₀, p (val c) = true) (h : w ++ rest = w₀ ++ left) :
    ∃ w', w = w₀ ++ w' ∧ left = w' ++ rest := by
  induction w₀ generalizing w with
  | nil => exact ⟨w, rfl, h.symm⟩
  | cons c w₀ ih =>
    cases w with
    | nil =>
      have hc := hrest c (by rw [show rest = c :: (w₀ ++ left) from h]; rfl)
      rw [hw₀ c List.mem_cons_self] at hc
      cases hc
    | cons d w =>
      obtain ⟨rfl, htail⟩ := List.cons.inj h
      obtain ⟨w', rfl, hleft⟩ := ih (fun x hx => hw₀ x (List.mem_cons_of_mem _ hx)) htail
      exact ⟨w', rfl, hleft⟩

lemma head_star_run {w rest : List α} (hw : ∀ c ∈ w, p (val c) = true)
    (hrest : ∀ c ∈ rest.head?, p (val c) = false) :
    (Re.star true (.chr p)).head ⟨before, w ++ rest, groups⟩ =
      some ⟨w.reverse ++ before, rest, groups⟩ := by
  have hdrop : rest.dropWhile (fun c => p (val c)) = rest ∧ rest.takeWhile (fun c => p (val c)) = [] := by
    cases rest with
    | nil => exact ⟨rfl, rfl⟩
    | cons c rest =>
      have hc := hrest c rfl
      simp [hc]
  rw [head_star_chr, List.dropWhile_append_of_pos hw, List.takeWhile_append_of_pos hw, hdrop.1, hdrop.2,
    List.append_nil]

lemma first_of_head {w rest before' : List α}
    (h : r.head ⟨before, w ++ rest, []⟩ = some ⟨before', rest, groups⟩) :
    ∃ m, r.first before (w ++ rest) = some m ∧ m.whole = w ∧ m.groups = groups := by
  refine ⟨_, by rw [first_eq, h]; rfl, ?_, rfl⟩
  unfold St.toMatch St.upto
  rw [List.length_append, Nat.add_sub_cancel, List.take_left]

end

/-! ### Texts in texts without marks -/

section

variable {text body rest before : List Char} {groups : List (ℕ × List Char)}

lemma results_lit (text rest before : List Char) (groups : List (ℕ × List Char)) :
    (Re.lit text).results ⟨before, text ++ rest, groups⟩ =
      [⟨text.reverse ++ before, rest, groups⟩] := by
  induction text generalizing before with
  | nil => rfl
  | cons c text ih =>
    have hchr : (Re.chr (· = c)).results ⟨before, c :: (text ++ rest), groups⟩ =
        [⟨c :: before, text ++ rest, groups⟩] := results_chr_cons (by simp)
    rw [Re.lit, Re.results, List.cons_append, hchr]
    simp [ih]

lemma results_lit_none (h : ¬ text <+: rest) : (Re.lit text).results ⟨before, rest, groups⟩ = [] := by
  rw [List.eq_nil_iff_forall_not_mem]
  intro st' hst'
  obtain ⟨w, more, rfl, hw, -⟩ := mem_lit.mp hst'
  rw [erase_char] at hw
  exact h ⟨more, by rw [hw]⟩

lemma head_lit_seq (text rest before : List Char) (groups : List (ℕ × List Char)) (r : Re) :
    (Re.seq (.lit text) r).head ⟨before, text ++ rest, groups⟩ =
      r.head ⟨text.reverse ++ before, rest, groups⟩ := by
  rw [head_seq, results_lit, List.findSome?_singleton]

lemma head_lit_seq_none (h : ¬ text <+: rest) (r : Re) :
    (Re.seq (.lit text) r).head ⟨before, rest, groups⟩ = none := by
  rw [head_seq, results_lit_none h]
  rfl

/-- **Up to the first place** where a text begins. -/
theorem head_until (h : ∀ a b, body = a ++ b → b ≠ [] → ¬ text <+: b ++ text ++ rest) :
    (Re.seq (.star false (.chr fun _ => true)) (.lit text)).head ⟨before, body ++ text ++ rest, groups⟩ =
      some ⟨(body ++ text).reverse ++ before, rest, groups⟩ := by
  induction body generalizing before with
  | nil =>
    have hlit : (Re.lit text).head ⟨before, text ++ rest, groups⟩ =
        some ⟨text.reverse ++ before, rest, groups⟩ := by
      rw [Re.head, results_lit]
      rfl
    rw [List.nil_append, head_seq, results_star]
    simp only [Bool.false_eq_true, if_false, List.findSome?_cons, hlit]
  | cons c body ih =>
    have hnone : (Re.lit text).head ⟨before, c :: (body ++ text ++ rest), groups⟩ = none := by
      have hno : ¬ text <+: c :: (body ++ text ++ rest) := h [] (c :: body) rfl (List.cons_ne_nil c body)
      rw [Re.head, results_lit_none hno]
      rfl
    have ih := @ih (c :: before) fun a b hab hb => h (c :: a) b (by rw [hab]; rfl) hb
    rw [head_seq] at ih ⊢
    rw [List.cons_append, List.cons_append, results_star_chr_cons false rfl, if_neg (by decide),
      List.findSome?_cons, hnone]
    simp only
    rw [ih]
    simp

end

/-! ### What `sub` cuts a text into -/

/-- The pieces of a text, as they are found. -/
inductive Re.Cut (r : Re) : List α → List α → List (Piece α) → Prop where
  | nil (before : List α) : r.Cut before [] []
  | keep {before rest : List α} {c : α} {ps : List (Piece α)}
      (none : r.hitAt before (c :: rest) = none) (tail : r.Cut (c :: before) rest ps) :
      r.Cut before (c :: rest) (.keep c :: ps)
  | hit {before rest : List α} {m : Match α} {ps : List (Piece α)}
      (some : r.hitAt before (m.whole ++ rest) = some m)
      (tail : r.Cut (m.whole.reverse ++ before) rest ps) :
      r.Cut before (m.whole ++ rest) (.hit m :: ps)

lemma hitAt_spec {before after : List α} {m : Match α} (h : r.hitAt before after = some m) :
    r.first before after = some m ∧ m.whole ≠ [] ∧ m.whole <+: after := by
  obtain ⟨hfirst, hne⟩ := Option.filter_eq_some_iff.mp h
  exact ⟨hfirst, by simpa using hne, (first_spec r.within_true hfirst).1⟩

lemma cut_scan (r : Re) {n : ℕ} {before after : List α} (h : after.length ≤ n) :
    r.Cut before after (r.scan n before after) := by
  induction n generalizing before after with
  | zero =>
    rw [List.length_eq_zero_iff.mp (Nat.le_zero.mp h)]
    exact .nil before
  | succ n ih =>
    cases after with
    | nil => exact .nil before
    | cons c rest =>
      unfold Re.scan
      cases hhit : r.hitAt before (c :: rest) with
      | none => exact .keep hhit (ih (by simpa using h))
      | some m =>
        obtain ⟨-, hne, ⟨tail, htail⟩⟩ := hitAt_spec hhit
        have hlen := congrArg List.length htail
        have hpos := List.length_pos_iff.mpr hne
        simp only [List.length_append, List.length_cons] at hlen h
        rw [← htail] at hhit ⊢
        simp only [List.drop_left]
        exact .hit hhit (ih (by omega))

/-- **The pieces are cut as they are found.** -/
theorem cut_piecesFrom (r : Re) (before after : List α) :
    r.Cut before after (r.piecesFrom before after) := cut_scan r le_rfl

lemma Re.Cut.scan_eq {before after : List α} {ps : List (Piece α)} (h : r.Cut before after ps)
    {n : ℕ} (hn : after.length ≤ n) : r.scan n before after = ps := by
  induction h generalizing n with
  | nil before => cases n <;> rfl
  | keep hnone _ ih =>
    obtain ⟨n, rfl⟩ : ∃ k, n = k + 1 := ⟨n - 1, by simp at hn; omega⟩
    rw [Re.scan, hnone]
    simp only
    rw [ih (by simpa using hn)]
  | @hit before rest m ps hsome _ ih =>
    obtain ⟨c, w, hw⟩ := List.exists_cons_of_ne_nil (hitAt_spec hsome).2.1
    have hcons : m.whole ++ rest = c :: (w ++ rest) := by rw [hw]; rfl
    have hlen := congrArg List.length hcons
    simp only [List.length_append, List.length_cons] at hlen hn
    obtain ⟨n, rfl⟩ : ∃ k, n = k + 1 := ⟨n - 1, by omega⟩
    rw [hcons, Re.scan, ← hcons, hsome]
    simp only [List.drop_left]
    rw [ih (by omega)]

/-- Nothing is found in a text. -/
lemma Re.Cut.keeps {before w rest : List α} {ps : List (Piece α)}
    (none : ∀ a b, w = a ++ b → b ≠ [] → r.hitAt (a.reverse ++ before) (b ++ rest) = none)
    (tail : r.Cut (w.reverse ++ before) rest ps) :
    r.Cut before (w ++ rest) (w.map Piece.keep ++ ps) := by
  induction w generalizing before with
  | nil => exact tail
  | cons c w ih =>
    refine .keep (none [] (c :: w) rfl (List.cons_ne_nil c w)) (ih (fun a b hab hb => ?_) ?_)
    · simpa using none (c :: a) b (by rw [hab]; rfl) hb
    · simpa using tail

lemma Re.Cut.found {before w rest : List α} {m : Match α} {ps : List (Piece α)}
    (some : r.hitAt before (w ++ rest) = some m) (whole : m.whole = w)
    (tail : r.Cut (w.reverse ++ before) rest ps) : r.Cut before (w ++ rest) (.hit m :: ps) := by
  subst whole
  exact .hit some tail

/-- The pieces are what is found. -/
theorem Re.Cut.eq {before after : List α} {ps : List (Piece α)} (h : r.Cut before after ps) :
    r.piecesFrom before after = ps := h.scan_eq le_rfl

lemma Re.Cut.first_of_hit {before after : List α} {ps : List (Piece α)} (h : r.Cut before after ps)
    {m : Match α} (hm : .hit m ∈ ps) :
    ∃ before after, r.first before after = some m ∧ m.whole ≠ [] := by
  induction h with
  | nil before => cases hm
  | keep hnone _ ih => exact ih ((List.mem_cons.mp hm).resolve_left fun h => by cases h)
  | hit hsome _ ih =>
    rcases List.mem_cons.mp hm with heq | hm
    · cases heq
      exact ⟨_, _, (hitAt_spec hsome).1, (hitAt_spec hsome).2.1⟩
    · exact ih hm

lemma Re.Cut.place_of_hit {before after : List α} {ps : List (Piece α)} (h : r.Cut before after ps)
    {m : Match α} (hm : .hit m ∈ ps) :
    ∃ x z, after = x ++ (m.whole ++ z) ∧ r.first (x.reverse ++ before) (m.whole ++ z) = some m := by
  induction h with
  | nil before => cases hm
  | @keep before rest c ps hnone _ ih =>
    obtain ⟨x, z, rfl, hfirst⟩ := ih ((List.mem_cons.mp hm).resolve_left fun h => by cases h)
    exact ⟨c :: x, z, rfl, by simpa using hfirst⟩
  | @hit before rest n ps hsome _ ih =>
    rcases List.mem_cons.mp hm with heq | hm
    · cases heq
      exact ⟨[], rest, rfl, (hitAt_spec hsome).1⟩
    · obtain ⟨x, z, rfl, hfirst⟩ := ih hm
      exact ⟨n.whole ++ x, z, by simp, by simpa using hfirst⟩

/-- **The pieces make up the text.** -/
theorem Re.Cut.flatten {before after : List α} {ps : List (Piece α)} (h : r.Cut before after ps) :
    ps.flatMap Piece.text = after := by
  induction h with
  | nil before => rfl
  | keep hnone _ ih => simp [Piece.text, ih]
  | hit hsome _ ih => simp [Piece.text, ih]

lemma flatten_pieces (r : Re) (text : List α) : (r.pieces text).flatMap Piece.text = text :=
  (cut_piecesFrom r [] text).flatten

lemma sub_same {f : Match α → List α} {text : List α}
    (h : ∀ m, .hit m ∈ r.pieces text → f m = m.whole) : r.sub f text = text := by
  conv_rhs => rw [← flatten_pieces r text]
  refine List.flatMap_congr fun p hp => ?_
  cases p with
  | keep c => rfl
  | hit m => exact h m hp

/-! ### Where nothing is found -/

lemma searchFrom_eq_none_iff {before after : List α} :
    r.searchFrom before after = none ↔
      ∀ w rest, after = w ++ rest → r.first (w.reverse ++ before) rest = none := by
  induction after generalizing before with
  | nil =>
    constructor
    · intro h w rest hw
      obtain ⟨rfl, rfl⟩ := List.append_eq_nil_iff.mp hw.symm
      exact h
    · exact fun h => h [] [] rfl
  | cons c after ih =>
    unfold Re.searchFrom
    constructor
    · intro h w rest hw
      cases hfirst : r.first before (c :: after) with
      | some m =>
        rw [hfirst] at h
        cases h
      | none =>
        rw [hfirst] at h
        cases w with
        | nil =>
          obtain rfl : c :: after = rest := hw
          exact hfirst
        | cons d w =>
          obtain ⟨rfl, htail⟩ := List.cons.inj hw
          simpa using ih.mp h w rest htail
    · intro h
      have hhere : r.first before (c :: after) = none := h [] _ rfl
      rw [hhere]
      refine ih.mpr fun w rest hw => ?_
      simpa using h (c :: w) rest (by rw [hw]; rfl)

/-- **`search` finds nothing** exactly if there is nothing at any position. -/
theorem search_eq_none_iff {text : List α} :
    r.search text = none ↔ ∀ w rest, text = w ++ rest → r.first w.reverse rest = none := by
  unfold Re.search
  rw [searchFrom_eq_none_iff]
  simp

lemma hitAt_none {before after : List α} (h : r.first before after = none) :
    r.hitAt before after = none := by
  unfold Re.hitAt
  rw [h]
  rfl

lemma hitAt_some {before after : List α} {m : Match α} (h : r.first before after = some m)
    (hne : m.whole ≠ []) : r.hitAt before after = some m := by
  unfold Re.hitAt
  rw [h]
  simp [hne]

lemma cut_none {before after : List α}
    (h : ∀ w rest, after = w ++ rest → r.first (w.reverse ++ before) rest = none) :
    r.Cut before after (after.map Piece.keep) := by
  induction after generalizing before with
  | nil => exact .nil before
  | cons c after ih =>
    refine .keep (hitAt_none (h [] _ rfl)) (ih fun w rest hw => ?_)
    simpa using h (c :: w) rest (by rw [hw]; rfl)

/-- **A text in which nothing is found stays as it is.** -/
theorem sub_of_search_none {text : List α} (h : r.search text = none) (f : Match α → List α) :
    r.sub f text = text := by
  have hcut : r.pieces text = text.map Piece.keep :=
    (cut_none (by simpa using search_eq_none_iff.mp h)).eq
  unfold Re.sub
  rw [hcut, List.flatMap_map]
  exact List.flatMap_singleton' text

/-! ### Marks are not looked at -/

section

variable {g : α → β}

/-- A position of another text. -/
def St.map (g : α → β) (st : St α) : St β :=
  ⟨st.before.map g, st.after.map g, st.groups.map fun p => (p.1, p.2.map g)⟩

/-- A match in another text. -/
def Match.map (g : α → β) (m : Match α) : Match β :=
  ⟨m.whole.map g, m.groups.map fun p => (p.1, p.2.map g)⟩

/-- A piece of another text. -/
def Piece.map (g : α → β) : Piece α → Piece β
  | .keep c => .keep (g c)
  | .hit m => .hit (m.map g)

omit [Cell α] [Cell β] in
lemma upto_map (st st' : St α) : (st.map g).upto (st'.map g) = (st.upto st').map g := by
  simp [St.upto, St.map, List.map_take]

omit [Cell α] [Cell β] in
lemma Match.group_map (m : Match α) (n : ℕ) : (m.map g).group n = (m.group n).map g := by
  unfold Match.group Match.map
  simp only
  induction m.groups with
  | nil => rfl
  | cons p rest ih =>
    rw [List.map_cons, List.lookup_cons, List.lookup_cons]
    by_cases h : n == p.1
    · simp [h]
    · simpa [h] using ih

lemma erase_map (hg : ∀ a, val (g a) = val a) (text : List α) : erase (text.map g) = erase text := by
  simp [hg]

omit [Cell α] [Cell β] in
lemma iter_map {step : St α → List (St α)} {step' : St β → List (St β)} (greedy : Bool)
    (hstep : ∀ st, step' (st.map g) = (step st).map (St.map g)) (n : ℕ) (st : St α) :
    iter step' greedy n (st.map g) = (iter step greedy n st).map (St.map g) := by
  induction n generalizing st with
  | zero => rfl
  | succ n ih =>
    have hmore : ((step' (st.map g)).filter fun st' => st'.after.length < (st.map g).after.length).flatMap
        (iter step' greedy n) =
        (((step st).filter fun st' => st'.after.length < st.after.length).flatMap
          (iter step greedy n)).map (St.map g) := by
      rw [hstep, List.filter_map, List.flatMap_map, List.map_flatMap]
      have hlen : ((fun st' : St β => decide (st'.after.length < (st.map g).after.length)) ∘ St.map g) =
          fun st' : St α => decide (st'.after.length < st.after.length) := by
        funext st'
        simp [St.map]
      rw [hlen]
      exact List.flatMap_congr fun st' _ => ih st'
    unfold iter
    simp only [hmore]
    cases greedy <;> simp

/-- **Matching does not look at marks.** -/
theorem results_map (hg : ∀ a, val (g a) = val a) (r : Re) (st : St α) :
    r.results (st.map g) = (r.results st).map (St.map g) := by
  induction r generalizing st with
  | eps => rfl
  | chr p =>
    obtain ⟨before, after, groups⟩ := st
    cases after with
    | nil => rfl
    | cons c rest =>
      simp only [Re.results, St.map, List.map_cons, hg]
      split_ifs <;> rfl
  | look p =>
    simp only [Re.results, St.map, erase_map hg]
    split_ifs <;> rfl
  | seq r s ihr ihs =>
    simp only [Re.results]
    rw [ihr, List.flatMap_map, List.map_flatMap]
    exact List.flatMap_congr fun st' _ => ihs st'
  | alt r s ihr ihs =>
    simp only [Re.results]
    rw [ihr, ihs, List.map_append]
  | star greedy r ih =>
    simp only [Re.results]
    have hlen : (st.map g).after.length = st.after.length := by simp [St.map]
    rw [hlen]
    exact iter_map greedy ih st.after.length st
  | group n r ih =>
    simp only [Re.results]
    rw [ih, List.map_map, List.map_map]
    refine List.map_congr_left fun st' _ => ?_
    simp only [Function.comp_apply, upto_map]
    rfl

lemma first_map (hg : ∀ a, val (g a) = val a) (r : Re) (before after : List α) :
    r.first (before.map g) (after.map g) = (r.first before after).map (Match.map g) := by
  have h := results_map hg r ⟨before, after, []⟩
  unfold Re.first
  rw [show (⟨before.map g, after.map g, []⟩ : St β) = St.map g ⟨before, after, []⟩ from rfl, h,
    List.head?_map, Option.map_map, Option.map_map]
  congr 1
  funext st'
  simp only [Function.comp_apply, St.toMatch, upto_map]
  rfl

lemma hitAt_map (hg : ∀ a, val (g a) = val a) (r : Re) (before after : List α) :
    r.hitAt (before.map g) (after.map g) = (r.hitAt before after).map (Match.map g) := by
  unfold Re.hitAt
  rw [first_map hg]
  cases r.first before after with
  | none => rfl
  | some m =>
    by_cases h : m.whole = []
    · simp [Option.filter, Match.map, h]
    · simp [Option.filter, Match.map, h]

lemma Re.Cut.map (hg : ∀ a, val (g a) = val a) {before after : List α} {ps : List (Piece α)}
    (h : r.Cut before after ps) :
    r.Cut (before.map g) (after.map g) (ps.map (Piece.map g)) := by
  induction h with
  | nil before => exact .nil _
  | @keep before rest c ps hnone _ ih =>
    refine .keep ?_ ih
    have := hitAt_map hg r before (c :: rest)
    rw [hnone] at this
    exact this
  | @hit before rest m ps hsome _ ih =>
    rw [List.map_append]
    refine .hit (m := m.map g) ?_ ?_
    · have := hitAt_map hg r before (m.whole ++ rest)
      rw [hsome, List.map_append] at this
      exact this
    · simpa [Match.map] using ih

lemma pieces_map (hg : ∀ a, val (g a) = val a) (r : Re) (text : List α) :
    r.pieces (text.map g) = (r.pieces text).map (Piece.map g) :=
  ((cut_piecesFrom r [] text).map hg).eq

/-- **`sub` does not look at marks** if its function does not. -/
theorem sub_map (hg : ∀ a, val (g a) = val a) (r : Re) {f : Match α → List α} {f' : Match β → List β}
    (hf : ∀ m, f' (m.map g) = (f m).map g) (text : List α) :
    r.sub f' (text.map g) = (r.sub f text).map g := by
  unfold Re.sub
  rw [pieces_map hg, List.flatMap_map, List.map_flatMap]
  refine List.flatMap_congr fun p _ => ?_
  cases p with
  | keep c => rfl
  | hit m => exact hf m

theorem subState_map (hg : ∀ a, val (g a) = val a) (r : Re) {f : σ → Match α → σ × List α}
    {k : σ → Match β → σ × List β} (hf : ∀ s m, k s (m.map g) = ((f s m).1, (f s m).2.map g))
    (s : σ) (text : List α) :
    r.subState k s (text.map g) = ((r.subState f s text).1, (r.subState f s text).2.map g) := by
  unfold Re.subState
  rw [pieces_map hg]
  induction r.pieces text generalizing s with
  | nil => rfl
  | cons p ps ih =>
    cases p with
    | keep c =>
      simp only [List.map_cons, Piece.map, rewrite, ih]
    | hit m =>
      simp only [List.map_cons, Piece.map, rewrite, hf, ih, List.map_append]

end

end CSecureBuild.PyLib.Regex
