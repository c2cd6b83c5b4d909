import CSecureBuild.Harness.Items
import CSecureBuild.PyLib.Languages

/-!
The names of the functions of the Juliet test suite: a name is a stem and a tail, and the stem tells a
buggy function from a fixed one.
-/

namespace CSecureBuild.Harness.JulietNames

open CSecureBuild.PyLib.Cells CSecureBuild.PyLib.Regex CSecureBuild.PyLib.Text CSecureBuild.Harness.Items

/-! ### Stems and tails -/

/-- What may follow a stem. -/
inductive Tail : List Char → Prop where
  | nil : Tail []
  | vaSink : Tail "VaSink".toList
  | vaSinkKind (c : Char) (h : c = 'B' ∨ c = 'G') : Tail ("VaSink".toList ++ [c])
  | source : Tail "Source".toList
  | sourceLetter (c : Char) (h : 'a' ≤ c ∧ c ≤ 'z') : Tail ("Source".toList ++ ['_', c])
  | sink : Tail "Sink".toList
  | sinkLetter (c : Char) (h : 'a' ≤ c ∧ c ≤ 'z') : Tail ("Sink".toList ++ ['_', c])

/-- The letters of the numbered variants. -/
def isLetter (c : Char) : Bool := 'a' ≤ c && c ≤ 'z'

/-- A name backwards, without its tail. -/
def bare : List Char → List Char
  | 'k' :: 'n' :: 'i' :: 'S' :: 'a' :: 'V' :: stem => stem
  | 'k' :: 'n' :: 'i' :: 'S' :: stem => stem
  | 'e' :: 'c' :: 'r' :: 'u' :: 'o' :: 'S' :: stem => stem
  | 'B' :: 'k' :: 'n' :: 'i' :: 'S' :: 'a' :: 'V' :: stem => stem
  | 'G' :: 'k' :: 'n' :: 'i' :: 'S' :: 'a' :: 'V' :: stem => stem
  | c :: '_' :: 'k' :: 'n' :: 'i' :: 'S' :: stem =>
    if isLetter c then stem else c :: '_' :: 'k' :: 'n' :: 'i' :: 'S' :: stem
  | c :: '_' :: 'e' :: 'c' :: 'r' :: 'u' :: 'o' :: 'S' :: stem =>
    if isLetter c then stem else c :: '_' :: 'e' :: 'c' :: 'r' :: 'u' :: 'o' :: 'S' :: stem
  | stem => stem

/-- How the stem of a buggy function ends. -/
def BadEnd (d c : Char) : Prop := d = 'a' ∧ c = 'd'

/-- How the stem of a fixed function ends. -/
def GoodEnd (u : Unicode) (d c : Char) : Prop :=
  (d = 'o' ∧ c = 'd') ∨ u.digit c = true ∨ (d = '2' ∧ (c = 'B' ∨ c = 'G'))

/-- A stem that ends in a certain way. -/
def Stem (E : Char → Char → Prop) (w : List Char) : Prop := ∃ before d c, E d c ∧ w = before ++ [d, c]

/-- A name with a stem that ends in a certain way. -/
def Named (E : Char → Char → Prop) (w : List Char) : Prop := ∃ s t, Stem E s ∧ Tail t ∧ w = s ++ t

section

variable {u : Unicode} {d c : Char}

lemma GoodEnd.not_bad (hgood : GoodEnd u d c) : ¬ BadEnd d c := by
  rintro ⟨rfl, rfl⟩
  have hdigit : u.digit 'd' = false := u.digit_ascii 'd' (by decide)
  rcases hgood with h | h | h
  · exact absurd h.1 (by decide)
  · exact absurd h (by simp [hdigit])
  · exact absurd h.1 (by decide)

lemma digit_ne (h : u.digit c = true) {x : Char} (hx : x.toNat < 128) (hx' : x.isDigit = false) : c ≠ x := by
  rintro rfl
  rw [u.digit_ascii c hx, hx'] at h
  cases h

lemma digit_not_letter (h : u.digit c = true) : isLetter c = false := by
  rw [isLetter, Bool.and_eq_false_iff]
  by_contra hc
  push Not at hc
  simp only [decide_eq_true_eq, ne_eq, Bool.not_eq_false] at hc
  have hlo : 97 ≤ c.toNat := hc.1
  have hhi : c.toNat ≤ 122 := hc.2
  rw [u.digit_ascii c (by omega), Char.isDigit_iff_toNat] at h
  have h9 : '9'.toNat = 57 := rfl
  omega

lemma bare_stem {rest : List Char} (h : BadEnd d c ∨ GoodEnd u d c) :
    bare (c :: d :: rest) = c :: d :: rest := by
  rcases h with ⟨rfl, rfl⟩ | ⟨rfl, rfl⟩ | h | ⟨rfl, rfl | rfl⟩
  · rfl
  · rfl
  · have hk : c ≠ 'k' := digit_ne h (by decide) (by decide)
    have he : c ≠ 'e' := digit_ne h (by decide) (by decide)
    have hb : c ≠ 'B' := digit_ne h (by decide) (by decide)
    have hg : c ≠ 'G' := digit_ne h (by decide) (by decide)
    have hletter : isLetter c = false := digit_not_letter h
    unfold bare
    split <;> simp_all
  · rfl
  · rfl

lemma bare_append {t rest : List Char} (ht : Tail t) (h : BadEnd d c ∨ GoodEnd u d c) :
    bare (t.reverse ++ c :: d :: rest) = c :: d :: rest := by
  cases ht with
  | nil => exact bare_stem h
  | vaSink => rfl
  | vaSinkKind k hk => rcases hk with rfl | rfl <;> rfl
  | source => rfl
  | sourceLetter k hk => simp [bare, isLetter, hk]
  | sink =>
    have ha : c ≠ 'a' := by
      rcases h with h | h | h | h
      · rw [h.2]
        decide
      · rw [h.2]
        decide
      · exact digit_ne h (by decide) (by decide)
      · rcases h.2 with h | h <;> (rw [h]; decide)
    simp [bare, ha]
  | sinkLetter k hk => simp [bare, isLetter, hk]

/-- **The stem of a name shows.** -/
lemma named_disjoint {w : List Char} (hbad : Named BadEnd w) (hgood : Named (GoodEnd u) w) : False := by
  obtain ⟨_, t, ⟨before, d, c, hend, rfl⟩, ht, rfl⟩ := hbad
  obtain ⟨_, t', ⟨before', d', c', hend', rfl⟩, ht', heq⟩ := hgood
  have hrev := congrArg (fun w => bare w.reverse) heq
  simp only [List.reverse_append, List.reverse_cons, List.reverse_nil, List.nil_append,
    List.cons_append] at hrev
  rw [bare_append (u := u) ht (Or.inl hend), bare_append ht' (Or.inr hend')] at hrev
  simp only [List.cons.injEq] at hrev
  rw [← hrev.1, ← hrev.2.1] at hend'
  exact hend'.not_bad hend

lemma named_getLast {E : Char → Char → Prop} (hE : ∀ d c, E d c → c ≠ '\n') {w : List Char}
    (h : Named E w) : w.getLast? ≠ some '\n' := by
  obtain ⟨_, t, ⟨before, d, c, hend, rfl⟩, ht, rfl⟩ := h
  have hletter : ∀ k : Char, 'a' ≤ k → k ≠ '\n' := by
    rintro _ hk rfl
    exact absurd hk (by decide)
  cases ht with
  | nil => simpa using hE d c hend
  | vaSink => simp
  | vaSinkKind k hk => rcases hk with rfl | rfl <;> simp
  | source => simp
  | sourceLetter k hk => simpa using hletter k hk.1
  | sink => simp
  | sinkLetter k hk => simpa using hletter k hk.1

/-! ### Stems -/

lemma Stem.append_left {E : Char → Char → Prop} {w : List Char} (h : Stem E w) (a : List Char) :
    Stem E (a ++ w) := by
  obtain ⟨before, d, c, hend, rfl⟩ := h
  exact ⟨a ++ before, d, c, hend, by rw [List.append_assoc]⟩

lemma Named.append_left {E : Char → Char → Prop} {w : List Char} (h : Named E w) (a : List Char) :
    Named E (a ++ w) := by
  obtain ⟨s, t, hs, ht, rfl⟩ := h
  exact ⟨a ++ s, t, hs.append_left a, ht, by rw [List.append_assoc]⟩

lemma Stem.named {E : Char → Char → Prop} {w : List Char} (h : Stem E w) : Named E w :=
  ⟨w, [], h, .nil, by rw [List.append_nil]⟩

lemma stem_bad : Stem BadEnd "bad".toList := ⟨['b'], 'a', 'd', ⟨rfl, rfl⟩, rfl⟩

lemma stem_helperBad : Stem BadEnd "helperBad".toList :=
  ⟨"helperB".toList, 'a', 'd', ⟨rfl, rfl⟩, rfl⟩

lemma stem_good : Stem (GoodEnd u) "good".toList := ⟨['g', 'o'], 'o', 'd', Or.inl ⟨rfl, rfl⟩, rfl⟩

lemma stem_helperGood : Stem (GoodEnd u) "helperGood".toList :=
  ⟨"helperGo".toList, 'o', 'd', Or.inl ⟨rfl, rfl⟩, rfl⟩

lemma Stem.digits {s w : List Char} (h : Stem (GoodEnd u) s) (hw : ∀ c ∈ w, u.digit c = true) :
    Stem (GoodEnd u) (s ++ w) := by
  induction w generalizing s with
  | nil => rwa [List.append_nil]
  | cons x w ih =>
    obtain ⟨before, d, c, -, rfl⟩ := h
    have hx : Stem (GoodEnd u) (before ++ [d, c] ++ [x]) :=
      ⟨before ++ [d], c, x, Or.inr (Or.inl (hw x List.mem_cons_self)), by simp⟩
    rw [List.append_cons]
    exact ih hx fun c hc => hw c (List.mem_cons_of_mem _ hc)

lemma stem_of_flow {s w : List Char} (hw : w = "G2B".toList ∨ w = "B2G".toList) :
    Stem (GoodEnd u) (s ++ w) := by
  rcases hw with rfl | rfl
  · exact Stem.append_left ⟨['G'], '2', 'B', Or.inr (Or.inr ⟨rfl, Or.inl rfl⟩), rfl⟩ s
  · exact Stem.append_left ⟨['B'], '2', 'G', Or.inr (Or.inr ⟨rfl, Or.inr rfl⟩), rfl⟩ s

/-! ### The languages of the parts -/

variable {w : List Char}

lemma stem_digits {s : List Char} (hs : Stem (GoodEnd u) s) (h : w ∈ (digits u).lang) :
    Stem (GoodEnd u) (s ++ w) := hs.digits (mem_lang_star_chr h)

lemma stem_flow {s : List Char} (hs : Stem (GoodEnd u) s) (h : w ∈ flow.lang) :
    Stem (GoodEnd u) (s ++ w) := by
  rcases h with (h | h) | h
  · exact stem_of_flow (Or.inl (mem_lang_lit.mp h))
  · exact stem_of_flow (Or.inr (mem_lang_lit.mp h))
  · rw [show w = [] from h, List.append_nil]
    exact hs

lemma stem_numbered {s text : List Char}
    (htext : text = "G2B".toList ∨ text = "B2G".toList)
    (h : w ∈ (Re.seq (.lit text) (digits u)).lang) : Stem (GoodEnd u) (s ++ w) := by
  obtain ⟨a, ha, b, hb, rfl⟩ := mem_lang_seq.mp h
  rw [← List.append_assoc, mem_lang_lit.mp ha]
  exact stem_digits (stem_of_flow htext) hb

lemma stem_numberedFlow {s : List Char} (hs : Stem (GoodEnd u) s) (h : w ∈ (numberedFlow u).lang) :
    Stem (GoodEnd u) (s ++ w) := by
  rcases h with (h | h) | h
  · exact stem_numbered (Or.inl rfl) h
  · exact stem_numbered (Or.inr rfl) h
  · rw [show w = [] from h, List.append_nil]
    exact hs

lemma mem_lang_letter (h : w ∈ letter.lang) : w = [] ∨ ∃ c, ('a' ≤ c ∧ c ≤ 'z') ∧ w = ['_', c] := by
  rcases h with h | h
  · obtain ⟨_, ⟨a, ha, rfl⟩, _, ⟨c, hc, rfl⟩, rfl⟩ := mem_lang_seq.mp h
    rw [Bool.and_eq_true, decide_eq_true_eq, decide_eq_true_eq] at hc
    rw [of_decide_eq_true ha]
    exact Or.inr ⟨c, hc, rfl⟩
  · exact Or.inl h

lemma tail_source (h : w ∈ letter.lang) : Tail ("Source".toList ++ w) := by
  rcases mem_lang_letter h with rfl | ⟨c, hc, rfl⟩
  · exact .source
  · exact .sourceLetter c hc

lemma tail_sink (h : w ∈ letter.lang) : Tail ("Sink".toList ++ w) := by
  rcases mem_lang_letter h with rfl | ⟨c, hc, rfl⟩
  · exact .sink
  · exact .sinkLetter c hc

lemma tail_vaSink (h : w ∈ sinkKind.lang) : Tail ("VaSink".toList ++ w) := by
  rcases h with ⟨c, hc, rfl⟩ | h
  · exact .vaSinkKind c (by simpa using hc)
  · rw [show w = [] from h]
    exact .vaSink

/-! ### The names that the patterns match -/

lemma mem_whole {parts : List Re} {st st' : St Char} (h : st' ∈ (parts.foldr .seq textEnd).results st) :
    ∃ w ∈ (parts.map Re.lang).prod, st.after = w ∨ st.after = w ++ ['\n'] := by
  induction parts generalizing st with
  | nil =>
    obtain ⟨hend, -⟩ := mem_look.mp h
    rw [erase_char, Bool.or_eq_true, decide_eq_true_eq, decide_eq_true_eq] at hend
    exact ⟨[], rfl, hend⟩
  | cons r parts ih =>
    obtain ⟨mid, hmid, h⟩ := mem_seq.mp h
    obtain ⟨w, hafter, hw⟩ := consumes_results r st mid hmid
    obtain ⟨w', hw', hend⟩ := ih h
    rw [erase_char] at hw
    refine ⟨w ++ w', Language.append_mem_mul hw hw', ?_⟩
    rw [hafter]
    exact hend.imp (by rintro h; rw [h]) fun h => by rw [h, List.append_assoc]

/-- **What a pattern for whole names matches**: a name in its language, before a newline perhaps. -/
lemma matchStart_whole {parts : List Re} {name : List Char}
    (h : ((whole parts).matchStart name).isSome = true) :
    ∃ w ∈ (parts.map Re.lang).prod, name = w ∨ name = w ++ ['\n'] := by
  obtain ⟨m, hm⟩ := Option.isSome_iff_exists.mp h
  obtain ⟨st', hst', -⟩ := Option.map_eq_some_iff.mp hm
  obtain ⟨mid, hmid, hst'⟩ := mem_seq.mp (List.mem_of_mem_head? hst')
  obtain ⟨-, rfl⟩ := mem_look.mp hmid
  exact mem_whole hst'

/-- **The name of a buggy function** has a stem in `bad`. -/
lemma named_of_bad {p : Re} (hp : p ∈ BAD_FUNCS) {name : List Char}
    (h : (p.matchStart name).isSome = true) :
    ∃ w, Named BadEnd w ∧ (name = w ∨ name = w ++ ['\n']) := by
  simp only [BAD_FUNCS, List.mem_cons, List.not_mem_nil, or_false] at hp
  rcases hp with rfl | rfl | rfl | rfl
  · obtain ⟨_, ⟨a, -, _, ⟨b, hb, _, rfl, rfl⟩, rfl⟩, hname⟩ := matchStart_whole h
    rw [mem_lang_lit.mp hb] at hname
    exact ⟨_, stem_bad.named.append_left a, hname⟩
  · obtain ⟨_, ⟨a, -, _, ⟨b, hb, _, rfl, rfl⟩, rfl⟩, hname⟩ := matchStart_whole h
    refine ⟨_, Named.append_left ?_ a, hname⟩
    simp only [List.append_nil]
    rcases hb with hb | hb
    · rw [mem_lang_lit.mp hb]
      exact stem_helperBad.named
    · obtain ⟨v, hv, kind, hkind, rfl⟩ := mem_lang_seq.mp hb
      rw [mem_lang_lit.mp hv]
      exact ⟨_, _, stem_bad, tail_vaSink hkind, rfl⟩
  · obtain ⟨_, ⟨a, -, _, ⟨b, hb, _, ⟨k, hk, _, rfl, rfl⟩, rfl⟩, rfl⟩, hname⟩ := matchStart_whole h
    rw [mem_lang_lit.mp hb] at hname
    refine ⟨_, Named.append_left ?_ a, hname⟩
    simp only [List.append_nil]
    exact ⟨_, _, stem_bad, tail_source hk, rfl⟩
  · obtain ⟨_, ⟨a, -, _, ⟨b, hb, _, ⟨k, hk, _, rfl, rfl⟩, rfl⟩, rfl⟩, hname⟩ := matchStart_whole h
    rw [mem_lang_lit.mp hb] at hname
    refine ⟨_, Named.append_left ?_ a, hname⟩
    simp only [List.append_nil]
    exact ⟨_, _, stem_bad, tail_sink hk, rfl⟩

/-- **The name of a fixed function** has a stem in `good`, with a flow and a number perhaps. -/
lemma named_of_good {p : Re} (hp : p ∈ GOOD_FUNCS u) {name : List Char}
    (h : (p.matchStart name).isSome = true) :
    ∃ w, Named (GoodEnd u) w ∧ (name = w ∨ name = w ++ ['\n']) := by
  simp only [GOOD_FUNCS, List.mem_cons, List.not_mem_nil, or_false] at hp
  rcases hp with rfl | rfl | rfl | rfl | rfl
  · -- a case for each pattern, in the order of the list
    obtain ⟨_, ⟨a, -, _, ⟨b, hb, _, rfl, rfl⟩, rfl⟩, hname⟩ := matchStart_whole h
    rw [mem_lang_lit.mp hb] at hname
    exact ⟨_, stem_good.named.append_left a, hname⟩
  · obtain ⟨_, ⟨a, ha, _, ⟨b, hb, _, rfl, rfl⟩, rfl⟩, hname⟩ := matchStart_whole h
    rw [mem_lang_lit.mp ha] at hname
    refine ⟨_, ?_, hname⟩
    simp only [List.append_nil]
    -- `good` with a number, `goodG2B` or `goodB2G` with one or none
    rcases hb with hb | hb | hb
    · obtain ⟨_, ⟨c, hc, rfl⟩, d, hd, rfl⟩ := mem_lang_seq.mp hb
      rw [← List.append_assoc]
      refine (stem_digits (stem_good.digits ?_) hd).named
      intro x hx
      rw [List.mem_singleton.mp hx]
      exact hc
    · exact (stem_numbered (Or.inl rfl) hb).named
    · exact (stem_numbered (Or.inr rfl) hb).named
  · obtain ⟨_, ⟨a, -, _, ⟨b, hb, _, rfl, rfl⟩, rfl⟩, hname⟩ := matchStart_whole h
    refine ⟨_, Named.append_left ?_ a, hname⟩
    simp only [List.append_nil]
    -- a helper, or a sink with an argument list
    rcases hb with hb | hb
    · obtain ⟨g, hg, _, hfd, rfl⟩ := mem_lang_seq.mp hb
      obtain ⟨f, hf, d, hd, rfl⟩ := mem_lang_seq.mp hfd
      rw [mem_lang_lit.mp hg, ← List.append_assoc]
      exact (stem_digits (stem_flow stem_helperGood hf) hd).named
    · obtain ⟨g, hg, _, hfdv, rfl⟩ := mem_lang_seq.mp hb
      obtain ⟨f, hf, _, hdv, rfl⟩ := mem_lang_seq.mp hfdv
      obtain ⟨d, hd, _, hvk, rfl⟩ := mem_lang_seq.mp hdv
      obtain ⟨v, hv, kind, hkind, rfl⟩ := mem_lang_seq.mp hvk
      rw [mem_lang_lit.mp hg, mem_lang_lit.mp hv, ← List.append_assoc, ← List.append_assoc]
      exact ⟨_, _, stem_digits (stem_flow stem_good hf) hd, tail_vaSink hkind, rfl⟩
  · obtain ⟨_, ⟨a, -, _, ⟨g, hg, _, ⟨f, hf, _, ⟨b, hb, _, ⟨k, hk, _, rfl, rfl⟩, rfl⟩, rfl⟩, rfl⟩, rfl⟩,
      hname⟩ := matchStart_whole h
    rw [mem_lang_lit.mp hg, mem_lang_lit.mp hb] at hname
    refine ⟨_, Named.append_left ?_ a, hname⟩
    simp only [List.append_nil]
    rw [← List.append_assoc]
    exact ⟨_, _, stem_numberedFlow stem_good hf, tail_source hk, rfl⟩
  · obtain ⟨_, ⟨a, -, _, ⟨g, hg, _, ⟨f, hf, _, ⟨b, hb, _, ⟨k, hk, _, rfl, rfl⟩, rfl⟩, rfl⟩, rfl⟩, rfl⟩,
      hname⟩ := matchStart_whole h
    rw [mem_lang_lit.mp hg, mem_lang_lit.mp hb] at hname
    refine ⟨_, Named.append_left ?_ a, hname⟩
    simp only [List.append_nil]
    rw [← List.append_assoc]
    exact ⟨_, _, stem_numberedFlow stem_good hf, tail_sink hk, rfl⟩

/-! ### Labels -/

lemma badEnd_ne_newline (d c : Char) (h : BadEnd d c) : c ≠ '\n' := by
  rw [h.2]
  decide

lemma goodEnd_ne_newline (d c : Char) (h : GoodEnd u d c) : c ≠ '\n' := by
  rcases h with h | h | ⟨-, h | h⟩
  · rw [h.2]
    decide
  · exact digit_ne h (by decide) (by decide)
  · rw [h]
    decide
  · rw [h]
    decide

/-- **No name is that of a buggy and of a fixed function.** -/
lemma not_bad_and_good (name : List Char) :
    ¬ ∃ p ∈ BAD_FUNCS, ∃ q ∈ GOOD_FUNCS u, (p.matchStart name).isSome = true ∧
      (q.matchStart name).isSome = true := by
  rintro ⟨p, hp, q, hq, hbad, hgood⟩
  obtain ⟨w, hw, hname⟩ := named_of_bad hp hbad
  obtain ⟨w', hw', hname'⟩ := named_of_good hq hgood
  have hlast := named_getLast badEnd_ne_newline hw
  have hlast' := named_getLast goodEnd_ne_newline hw'
  have hsame : w = w' := by
    rcases hname with rfl | rfl <;> rcases hname' with h | h
    · exact h
    · simp [h] at hlast
    · simp [← h] at hlast'
    · exact List.append_cancel_right h
  exact named_disjoint hw (hsame ▸ hw')

end

/-- `juliet_label`, with the patterns of fixed functions first. -/
def labelGoodFirst (u : Unicode) (name : List Char) : Option Label :=
  if (GOOD_FUNCS u).any fun p => (p.matchStart name).isSome then some .fp
  else if BAD_FUNCS.any fun p => (p.matchStart name).isSome then some .tp
  else none

/-- **The two grammars are disjoint**, so that `juliet_label` does not depend on which one is first. -/
theorem names_disjoint (u : Unicode) (name : List Char) :
    (¬ ∃ p ∈ BAD_FUNCS, ∃ q ∈ GOOD_FUNCS u, (p.matchStart name).isSome = true ∧
      (q.matchStart name).isSome = true) ∧
    julietLabel u name = labelGoodFirst u name := by
  have hdisjoint := not_bad_and_good (u := u) name
  refine ⟨hdisjoint, ?_⟩
  unfold julietLabel labelGoodFirst
  by_cases hbad : (BAD_FUNCS.any fun p => (p.matchStart name).isSome) = true
  · have hgood : ((GOOD_FUNCS u).any fun p => (p.matchStart name).isSome) = false := by
      rw [List.any_eq_false]
      intro q hq hmatch
      obtain ⟨p, hp, hmatch'⟩ := List.any_eq_true.mp hbad
      exact hdisjoint ⟨p, hp, q, hq, hmatch', hmatch⟩
    rw [hbad, hgood]
    rfl
  · rw [if_neg hbad, if_neg hbad]

end CSecureBuild.Harness.JulietNames
