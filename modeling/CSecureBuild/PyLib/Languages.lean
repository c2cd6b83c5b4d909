import CSecureBuild.PyLib.Regex
import Mathlib.Computability.Language

/-!
The language of an expression, without what its tests ask of the text around it: every text that an
expression matches is in its language. Then two things that results do not depend on: what an expression
that does not look back makes of what is before it, and groups that an expression does not have.
-/

namespace CSecureBuild.PyLib.Regex

open CSecureBuild.PyLib.Cells

/-- The language of an expression. -/
def Re.lang : Re → Language Char
  | .eps | .look _ => 1
  | .chr p => {w | ∃ c, p c = true ∧ w = [c]}
  | .seq r s => r.lang * s.lang
  | .alt r s => r.lang + s.lang
  | .star _ r => KStar.kstar r.lang
  | .group _ r => r.lang

variable {r s : Re} {w : List Char}

lemma mem_lang_seq : w ∈ (Re.seq r s).lang ↔ ∃ a ∈ r.lang, ∃ b ∈ s.lang, a ++ b = w :=
  Language.mem_mul

lemma mem_lang_lit {text : List Char} : w ∈ (Re.lit text).lang ↔ w = text := by
  induction text generalizing w with
  | nil => exact Iff.rfl
  | cons c text ih =>
    rw [Re.lit, mem_lang_seq]
    constructor
    · rintro ⟨_, ⟨d, hd, rfl⟩, b, hb, rfl⟩
      rw [ih.mp hb, of_decide_eq_true hd]
      rfl
    · rintro rfl
      exact ⟨[c], ⟨c, decide_eq_true rfl, rfl⟩, text, ih.mpr rfl, rfl⟩

lemma mem_lang_star_chr {greedy : Bool} {p : Char → Bool} (h : w ∈ (Re.star greedy (.chr p)).lang) :
    ∀ c ∈ w, p c = true := by
  obtain ⟨ws, rfl, hws⟩ := Language.mem_kstar.mp h
  intro c hc
  obtain ⟨v, hv, hcv⟩ := List.mem_flatten.mp hc
  obtain ⟨d, hd, rfl⟩ := hws v hv
  rw [List.mem_singleton.mp hcv]
  exact hd

variable {α : Type} [Cell α] {st st' : St α}

/-- A result consumed a text of a language. -/
def Consumes (L : Language Char) (st st' : St α) : Prop :=
  ∃ w, st.after = w ++ st'.after ∧ erase w ∈ L

lemma Consumes.refl (st : St α) : Consumes 1 st st := ⟨[], rfl, rfl⟩

lemma Consumes.trans {L M : Language Char} {st₁ st₂ st₃ : St α} (h₁ : Consumes L st₁ st₂)
    (h₂ : Consumes M st₂ st₃) : Consumes (L * M) st₁ st₃ := by
  obtain ⟨w₁, ha₁, hw₁⟩ := h₁
  obtain ⟨w₂, ha₂, hw₂⟩ := h₂
  refine ⟨w₁ ++ w₂, by rw [ha₁, ha₂, List.append_assoc], ?_⟩
  rw [erase, List.map_append]
  exact Language.append_mem_mul hw₁ hw₂

lemma Consumes.mono {L M : Language Char} (h : Consumes L st st') (hLM : L ≤ M) : Consumes M st st' := by
  obtain ⟨w, ha, hw⟩ := h
  exact ⟨w, ha, hLM hw⟩

lemma consumes_iter {step : St α → List (St α)} {greedy : Bool} {L : Language Char}
    (hstep : ∀ st, ∀ st' ∈ step st, Consumes L st st') (n : ℕ) (st : St α) :
    ∀ st' ∈ iter step greedy n st, Consumes (KStar.kstar L) st st' := by
  induction n generalizing st with
  | zero =>
    intro st' h
    rw [List.mem_singleton.mp h]
    exact (Consumes.refl st).mono one_le_kstar
  | succ n ih =>
    intro st' h
    have hmem : st' = st ∨ ∃ mid ∈ step st, st' ∈ iter step greedy n mid := by
      unfold iter at h
      cases greedy <;> simp only [List.mem_append, List.mem_cons, List.mem_flatMap, List.mem_filter,
        if_true, if_false, Bool.false_eq_true, List.not_mem_nil, or_false] at h <;> grind
    rcases hmem with rfl | ⟨mid, hmid, h⟩
    · exact (Consumes.refl st').mono one_le_kstar
    · exact ((hstep st mid hmid).trans (ih mid st' h)).mono mul_kstar_le_kstar

/-- **What an expression matches is in its language.** -/
theorem consumes_results (r : Re) (st : St α) : ∀ st' ∈ r.results st, Consumes r.lang st st' := by
  induction r generalizing st with
  | eps =>
    intro st' h
    rw [List.mem_singleton.mp h]
    exact Consumes.refl st
  | chr p =>
    obtain ⟨before, after, groups⟩ := st
    intro st' h
    obtain ⟨c, rest, rfl, hc, rfl⟩ := mem_chr.mp h
    exact ⟨[c], rfl, val c, hc, rfl⟩
  | look p =>
    intro st' h
    rw [(mem_look.mp h).2]
    exact Consumes.refl st
  | seq r s ihr ihs =>
    intro st' h
    obtain ⟨mid, hmid, h⟩ := mem_seq.mp h
    exact (ihr st mid hmid).trans (ihs mid st' h)
  | alt r s ihr ihs =>
    intro st' h
    rcases mem_alt.mp h with h | h
    · exact (ihr st st' h).mono le_sup_left
    · exact (ihs st st' h).mono le_sup_right
  | star greedy r ih => exact consumes_iter ih _ st
  | group n r ih =>
    intro st' h
    obtain ⟨mid, hmid, rfl⟩ := mem_group.mp h
    exact ih st mid hmid

/-- What every text of the language has, a text in which the expression is found has. -/
lemma search_eq_none_of_notMem {c : Char} (hc : ∀ w ∈ r.lang, c ∈ w) {text : List α} (h : c ∉ erase text) :
    r.search text = none := by
  refine search_eq_none_iff.mpr fun front rest hrest => ?_
  refine first_eq_none_iff.mpr (List.eq_nil_iff_forall_not_mem.mpr fun st' hst' => ?_)
  obtain ⟨w, hafter, hw⟩ := consumes_results r _ st' hst'
  refine h ?_
  rw [hrest, show rest = w ++ st'.after from hafter, erase, List.map_append, List.map_append]
  exact List.mem_append_right _ (List.mem_append_left _ (hc _ hw))

/-! ### Expressions that do not look back -/

/-- No test reads what is before a position. -/
def Re.Blind : Re → Prop
  | .eps | .chr _ => True
  | .look p => ∀ before before' after, p before after = p before' after
  | .seq r s | .alt r s => r.Blind ∧ s.Blind
  | .star _ r | .group _ r => r.Blind

/-- **Expressions that do not look back** leave the same, whatever is before and whatever was matched. -/
theorem exists_result_blind (hr : r.Blind) {st₁ st₂ st₁' : St α} (hafter : st₁.after = st₂.after)
    (h : st₁' ∈ r.results st₁) : ∃ st₂' ∈ r.results st₂, st₁'.after = st₂'.after := by
  induction r generalizing st₁ st₂ st₁' with
  | eps =>
    rw [List.mem_singleton.mp h]
    exact ⟨st₂, List.mem_singleton_self _, hafter⟩
  | chr p =>
    obtain ⟨before, after, groups⟩ := st₁
    obtain ⟨before', after', groups'⟩ := st₂
    obtain ⟨c, rest, hcons, hc, rfl⟩ := mem_chr.mp h
    exact ⟨_, mem_chr.mpr ⟨c, rest, hafter.symm.trans hcons, hc, rfl⟩, rfl⟩
  | look p =>
    obtain ⟨hp, rfl⟩ := mem_look.mp h
    refine ⟨st₂, mem_look.mpr ⟨?_, rfl⟩, hafter⟩
    rw [← hafter, ← hp]
    exact hr _ _ _
  | seq r s ihr ihs =>
    obtain ⟨mid, hmid, h⟩ := mem_seq.mp h
    obtain ⟨mid₂, hmid₂, heq⟩ := ihr hr.1 hafter hmid
    obtain ⟨st₂', hst₂', heq'⟩ := ihs hr.2 heq h
    exact ⟨st₂', mem_seq.mpr ⟨mid₂, hmid₂, hst₂'⟩, heq'⟩
  | alt r s ihr ihs =>
    rcases mem_alt.mp h with h | h
    · obtain ⟨st₂', hst₂', heq⟩ := ihr hr.1 hafter h
      exact ⟨st₂', mem_alt.mpr (Or.inl hst₂'), heq⟩
    · obtain ⟨st₂', hst₂', heq⟩ := ihs hr.2 hafter h
      exact ⟨st₂', mem_alt.mpr (Or.inr hst₂'), heq⟩
  | star greedy r ih =>
    -- on what is left, which every iteration makes shorter
    induction hlen : st₁.after.length using Nat.strong_induction_on generalizing st₁ st₂ with
    | _ n ihn =>
      rcases mem_star.mp h with rfl | ⟨mid, hmid, hlt, h⟩
      · exact ⟨st₂, mem_star.mpr (Or.inl rfl), hafter⟩
      · obtain ⟨mid₂, hmid₂, heq⟩ := ih hr hafter hmid
        obtain ⟨st₂', hst₂', heq'⟩ := ihn _ (hlen ▸ hlt) heq h rfl
        refine ⟨st₂', mem_star.mpr (Or.inr ⟨mid₂, hmid₂, ?_, hst₂'⟩), heq'⟩
        rw [← heq, ← hafter]
        exact hlt
  | group n r ih =>
    obtain ⟨mid, hmid, rfl⟩ := mem_group.mp h
    obtain ⟨mid₂, hmid₂, heq⟩ := ih hr hafter hmid
    exact ⟨_, mem_group.mpr ⟨mid₂, hmid₂, rfl⟩, heq⟩

/-! ### Groups -/

/-- The numbers of the groups of an expression. -/
def Re.numbers : Re → List ℕ
  | .eps | .chr _ | .look _ => []
  | .seq r s | .alt r s => r.numbers ++ s.numbers
  | .star _ r => r.numbers
  | .group n r => n :: r.numbers

/-- **A group that an expression does not have** keeps what it matched. -/
theorem lookup_results {n : ℕ} (hn : n ∉ r.numbers) (h : st' ∈ r.results st) :
    st'.groups.lookup n = st.groups.lookup n := by
  induction r generalizing st st' with
  | eps => rw [List.mem_singleton.mp h]
  | chr p =>
    obtain ⟨before, after, groups⟩ := st
    obtain ⟨c, rest, -, -, rfl⟩ := mem_chr.mp h
    rfl
  | look p => rw [(mem_look.mp h).2]
  | seq r s ihr ihs =>
    obtain ⟨mid, hmid, h⟩ := mem_seq.mp h
    obtain ⟨hr, hs⟩ := not_or.mp fun hmem => hn (List.mem_append.mpr hmem)
    rw [ihs hs h, ihr hr hmid]
  | alt r s ihr ihs =>
    obtain ⟨hr, hs⟩ := not_or.mp fun hmem => hn (List.mem_append.mpr hmem)
    rcases mem_alt.mp h with h | h
    · exact ihr hr h
    · exact ihs hs h
  | star greedy r ih =>
    induction hlen : st.after.length using Nat.strong_induction_on generalizing st with
    | _ k ihk =>
      rcases mem_star.mp h with rfl | ⟨mid, hmid, hlt, h⟩
      · rfl
      · rw [ihk _ (hlen ▸ hlt) h rfl, ih hn hmid]
  | group k r ih =>
    obtain ⟨mid, hmid, rfl⟩ := mem_group.mp h
    obtain ⟨hne, hn⟩ := not_or.mp fun hmem => hn (List.mem_cons.mpr hmem)
    rw [List.lookup_cons, beq_eq_false_iff_ne.mpr hne]
    exact ih hn hmid

end CSecureBuild.PyLib.Regex
