import CSecureBuild.Harness.Scrub
import CSecureBuild.PyLib.Words

/-!
What the expressions of `run_eval.py` find in a text, said without matching: `NAME_WITH_LABEL` finds the
words with a label (`name_first`), `PREPROC_LABEL` lines (`directive_first`), `STRING` literals
(`string_spec`, `string_first`), and `LEAK_WORDS` a label word at a position (`leak_first`). What the first
three take away or change has a label word in it: a text without one stays as it is.
-/

namespace CSecureBuild.Harness.Patterns

open CSecureBuild.PyLib.Cells CSecureBuild.PyLib.Regex CSecureBuild.PyLib.Text CSecureBuild.PyLib.Words
open CSecureBuild.Harness.Scrub

variable {before after rest text w : List Char} {groups : List (ℕ × List Char)} {st st' : St Char}

/-- What an expression finds at a position, if its first result always leaves the same. -/
lemma first_closed {r : Re} {cond : Prop} [Decidable cond] (hafter : after = w ++ rest)
    (hhead : ∀ e ∈ r.head ⟨before, after, []⟩, cond ∧ e = ⟨w.reverse ++ before, rest, []⟩)
    (hne : cond → r.results ⟨before, after, []⟩ ≠ []) :
    r.first before after = if cond then some ⟨w, []⟩ else none := by
  rw [first_eq]
  cases he : r.head ⟨before, after, []⟩ with
  | none => rw [if_neg fun h => hne h (List.head?_eq_none_iff.mp he), Option.map_none]
  | some e =>
    obtain ⟨hcond, rfl⟩ := hhead e he
    rw [if_pos hcond, Option.map_some, St.toMatch, St.upto, hafter, List.length_append,
      Nat.add_sub_cancel, List.take_left]

/-! ### `NAME_WITH_LABEL` -/

section

variable (u : Unicode)

/-- The labels in names. -/
def nameLabels : List (List Char) :=
  ["Bad".toList, "bad".toList, "Good".toList, "good".toList, "G2B".toList, "B2G".toList]

/-- A name with a label. -/
def HasLabel (w : List Char) : Prop := ∃ l ∈ nameLabels, l <:+: w

instance (w : List Char) : Decidable (HasLabel w) := inferInstanceAs (Decidable (∃ l ∈ nameLabels, l <:+: w))

/-- A text that begins within no word. -/
def Fresh (before : List Char) : Prop := ∀ c ∈ before.head?, u.word c = false

instance (before : List Char) : Decidable (Fresh u before) :=
  inferInstanceAs (Decidable (∀ c ∈ before.head?, u.word c = false))

variable {u}

lemma word_of_label {l : List Char} (hl : l ∈ nameLabels) : ∀ c ∈ l, u.word c = true := by
  have hascii : ∀ l ∈ nameLabels, ∀ c ∈ l, c.toNat < 128 ∧ (c.isAlphanum || c = '_') = true := by
    simp [nameLabels]
  intro c hc
  obtain ⟨hlt, hword⟩ := hascii l hl c hc
  rw [u.word_ascii c hlt, hword]

lemma label_last {l : List Char} (hl : l ∈ nameLabels) :
    ∃ c front, l.reverse = c :: front ∧ u.word c = true := by
  obtain ⟨c, front, hfront⟩ : ∃ c front, l.reverse = c :: front := by
    refine List.exists_cons_of_ne_nil fun hnil => ?_
    rw [List.reverse_eq_nil_iff.mp hnil] at hl
    revert hl
    decide
  exact ⟨c, front, hfront,
    word_of_label hl c (List.mem_reverse.mp (by rw [hfront]; exact List.mem_cons_self))⟩

lemma mem_nameLabel : st' ∈ nameLabel.results ⟨before, after, groups⟩ ↔
    ∃ l ∈ nameLabels, ∃ rest, after = l ++ rest ∧ st' = ⟨l.reverse ++ before, rest, groups⟩ := by
  have hlit : ∀ l : List Char, st' ∈ (Re.lit l).results ⟨before, after, groups⟩ ↔
      ∃ rest, after = l ++ rest ∧ st' = ⟨l.reverse ++ before, rest, groups⟩ := by
    intro l
    rw [mem_lit]
    simp only [erase_char]
    constructor
    · rintro ⟨w, rest, hafter, rfl, hst⟩
      exact ⟨rest, hafter, hst⟩
    · rintro ⟨rest, hafter, hst⟩
      exact ⟨l, rest, hafter, rfl, hst⟩
  -- a label with two spellings of its first letter
  have hcap : ∀ (a b : Char) (l : List Char),
      st' ∈ (Re.seq (.chr fun c => c = a || c = b) (.lit l)).results ⟨before, after, groups⟩ ↔
        st' ∈ (Re.lit (a :: l)).results ⟨before, after, groups⟩ ∨
          st' ∈ (Re.lit (b :: l)).results ⟨before, after, groups⟩ := by
    intro a b l
    simp only [Re.lit, mem_seq, ← exists_or, ← or_and_right]
    refine exists_congr fun mid => and_congr_left fun _ => ?_
    simp only [mem_chr, Bool.or_eq_true, decide_eq_true_eq, ← exists_or]
    refine exists_congr fun c => exists_congr fun rest => ?_
    tauto
  unfold nameLabel nameLabels
  simp only [Re.oneOf, mem_alt, hcap, hlit, List.mem_cons, List.not_mem_nil, or_false, exists_eq_or_imp,
    exists_eq_left, or_assoc]
  exact Iff.rfl

lemma mem_words {greedy : Bool} : st' ∈ (Re.star greedy (.chr u.word)).results ⟨before, after, groups⟩ ↔
    ∃ w rest, after = w ++ rest ∧ (∀ c ∈ w, u.word c = true) ∧ st' = ⟨w.reverse ++ before, rest, groups⟩ :=
  mem_star_chr

lemma fresh_iff : Fresh u before ↔ before.head?.any u.word = false := by
  unfold Fresh
  cases before with
  | nil => simp
  | cons c rest => simp

lemma head_words_bound (hrun : ∀ c ∈ w, u.word c = true) (hrest : Fresh u rest) {c : Char}
    (hc : u.word c = true) :
    (Re.seq (.star true (.chr u.word)) (bound u)).head ⟨c :: before, w ++ rest, groups⟩ =
      some ⟨w.reverse ++ c :: before, rest, groups⟩ := by
  have hstar : (Re.star true (.chr u.word)).head ⟨c :: before, w ++ rest, groups⟩ =
      some ⟨w.reverse ++ c :: before, rest, groups⟩ := head_star_run hrun hrest
  have hend : (bound u).head ⟨w.reverse ++ c :: before, rest, groups⟩ =
      some ⟨w.reverse ++ c :: before, rest, groups⟩ := by
    have hlast : (erase (w.reverse ++ c :: before)).head?.any u.word = true := by
      rw [erase_char]
      cases hw : w.reverse with
      | nil => simpa using hc
      | cons d more =>
        have hd : d ∈ w := List.mem_reverse.mp (by rw [hw]; exact List.mem_cons_self)
        simpa using hrun d hd
    have hnext : (erase rest).head?.any u.word = false := by
      rw [erase_char]
      exact fresh_iff.mp hrest
    rw [Re.head, bound, Re.results, if_pos (by simp only [hlast, hnext]; decide)]
    rfl
  obtain ⟨more, hmore⟩ := List.head?_eq_some_iff.mp hstar
  rw [head_seq, hmore, List.findSome?_cons, hend]

lemma fresh_dropWhile (after : List Char) : Fresh u (after.dropWhile u.word) := by
  intro c hc
  have := List.head?_dropWhile_not u.word after
  rw [hc] at this
  simpa using this

lemma all_takeWhile (after : List Char) : ∀ c ∈ after.takeWhile u.word, u.word c = true :=
  fun _ hc => List.mem_takeWhile_imp hc

/-- Behind a label in a run of word characters, the run goes on. -/
lemma split_run {a l more : List Char} (ha : ∀ c ∈ a, u.word c = true) (hl : l ∈ nameLabels)
    (h : after = a ++ (l ++ more)) :
    ∃ b, after.takeWhile u.word = a ++ l ++ b ∧ more = b ++ after.dropWhile u.word := by
  have hal : ∀ c ∈ a ++ l, u.word c = true := fun c hc =>
    (List.mem_append.mp hc).elim (ha c) (word_of_label hl c)
  refine run_rest (fresh_dropWhile after) hal ?_
  rw [List.takeWhile_append_dropWhile, h, List.append_assoc]

lemma HasLabel.ne_nil (h : HasLabel w) : w ≠ [] := by
  rintro rfl
  revert h
  decide

lemma head_of_takeWhile_ne_nil (h : after.takeWhile u.word ≠ []) : after.head?.any u.word = true := by
  cases after with
  | nil => exact absurd rfl h
  | cons c more =>
    by_contra hc
    exact h (List.takeWhile_cons_of_neg (by simpa using hc))

lemma name_head {e : St Char} (h : e ∈ (NAME_WITH_LABEL u).head ⟨before, after, []⟩) :
    Fresh u before ∧ HasLabel (after.takeWhile u.word) ∧
      e = ⟨(after.takeWhile u.word).reverse ++ before, after.dropWhile u.word, []⟩ := by
  obtain ⟨mid, hmid, h⟩ := exists_of_head_seq h
  obtain ⟨hbound, rfl⟩ := mem_look.mp hmid
  obtain ⟨mid, hmid, h⟩ := exists_of_head_seq h
  obtain ⟨a, more, hafter, ha, rfl⟩ := mem_words.mp hmid
  obtain ⟨mid, hmid, h⟩ := exists_of_head_seq h
  obtain ⟨l, hl, more, rfl, rfl⟩ := mem_nameLabel.mp hmid
  obtain ⟨b, hrun, rfl⟩ := split_run ha hl hafter
  have hb : ∀ c ∈ b, u.word c = true := by
    intro c hc
    refine all_takeWhile after c ?_
    rw [hrun]
    exact List.mem_append_right _ hc
  obtain ⟨c, front, hfront, hc⟩ := label_last (u := u) hl
  rw [hfront, List.cons_append, head_words_bound hb (fresh_dropWhile after) hc] at h
  refine ⟨?_, ⟨l, hl, ⟨a, b, hrun.symm⟩⟩, ?_⟩
  · -- a word begins here, so none ends
    rw [fresh_iff]
    have hfirst := head_of_takeWhile_ne_nil (HasLabel.ne_nil ⟨l, hl, ⟨a, b, hrun.symm⟩⟩)
    simpa [hfirst] using hbound
  · rw [← Option.some.inj h, hrun]
    simp [hfront]

lemma name_results_ne_nil (hbefore : Fresh u before) (hlabel : HasLabel (after.takeWhile u.word)) :
    (NAME_WITH_LABEL u).results ⟨before, after, []⟩ ≠ [] := by
  obtain ⟨l, hl, ⟨a, b, hrun⟩⟩ := hlabel
  have hafter : after = a ++ (l ++ (b ++ after.dropWhile u.word)) := by
    conv_lhs => rw [← List.takeWhile_append_dropWhile (p := u.word) (l := after), ← hrun]
    simp
  have ha : ∀ c ∈ a, u.word c = true := fun c hc =>
    all_takeWhile after c (by rw [← hrun]; simp [hc])
  have hfirst := head_of_takeWhile_ne_nil (HasLabel.ne_nil ⟨l, hl, ⟨a, b, hrun⟩⟩)
  have hbound : ((erase before).head?.any u.word != (erase after).head?.any u.word) = true := by
    rw [erase_char, erase_char, hfirst, fresh_iff.mp hbefore]
    rfl
  have hb : ∀ c ∈ b, u.word c = true := fun c hc =>
    all_takeWhile after c (by rw [← hrun]; simp [hc])
  obtain ⟨c, front, hfront, hc⟩ := label_last hl
  have hlast : (Re.seq (.star true (.chr u.word)) (bound u)).head
      ⟨l.reverse ++ (a.reverse ++ before), b ++ after.dropWhile u.word, []⟩ ≠ none := by
    rw [hfront, List.cons_append, head_words_bound hb (fresh_dropWhile after) hc]
    exact Option.some_ne_none _
  obtain ⟨e, he⟩ := Option.ne_none_iff_exists'.mp hlast
  refine List.ne_nil_of_mem (a := e) (mem_seq.mpr ⟨_, mem_look.mpr ⟨hbound, rfl⟩, ?_⟩)
  refine mem_seq.mpr ⟨_, mem_words.mpr ⟨a, _, hafter, ha, rfl⟩, ?_⟩
  refine mem_seq.mpr ⟨_, mem_nameLabel.mpr ⟨l, hl, _, rfl, rfl⟩, ?_⟩
  exact List.mem_of_mem_head? he

/-- **`NAME_WITH_LABEL` finds the words with a label**, from their beginnings. -/
theorem name_first (u : Unicode) (before after : List Char) :
    (NAME_WITH_LABEL u).first before after =
      if Fresh u before ∧ HasLabel (after.takeWhile u.word) then some ⟨after.takeWhile u.word, []⟩
      else none := by
  refine first_closed List.takeWhile_append_dropWhile.symm (fun e he => ?_)
    fun h => name_results_ne_nil h.1 h.2
  obtain ⟨hbefore, hlabel, rfl⟩ := name_head he
  exact ⟨⟨hbefore, hlabel⟩, rfl⟩

/-! ### The renaming -/

/-- What `sub` makes of a token. -/
def namePieces : Tok → List (Piece Char)
  | .sep c => [.keep c]
  | .word w => if HasLabel w then [.hit ⟨w, []⟩] else w.map .keep

lemma cut_names {ts : List Tok} (hts : Valid u.word ts) {before : List Char}
    (hbefore : Fresh u before ∨ Open ts) :
    (NAME_WITH_LABEL u).Cut before (render ts) (ts.flatMap namePieces) := by
  induction ts generalizing before with
  | nil => exact .nil before
  | cons t ts ih =>
    cases t with
    | sep c =>
      have hnone : (NAME_WITH_LABEL u).first before (c :: render ts) = none := by
        rw [name_first, List.takeWhile_cons_of_neg (by simp [hts.1]), if_neg]
        exact fun h => h.2.ne_nil rfl
      refine .keep (hitAt_none hnone) (ih hts.2 (Or.inl fun d hd => ?_))
      obtain rfl : c = d := Option.some.inj hd
      exact hts.1
    | word w =>
      obtain ⟨hne, hw, hopen, hts⟩ := hts
      have hbefore := hbefore.resolve_right fun h => h w rfl
      have hrun : ∀ b, (∀ c ∈ b, u.word c = true) → (b ++ render ts).takeWhile u.word = b :=
        fun b hb => takeWhile_run hb (head_render hts hopen)
      have htail := @ih hts (w.reverse ++ before) (Or.inr hopen)
      rw [List.flatMap_cons, namePieces, render_cons, Tok.text]
      split_ifs with hlabel
      · refine .found (hitAt_some (m := ⟨w, []⟩) ?_ hne) rfl htail
        rw [name_first, hrun w hw, if_pos ⟨hbefore, hlabel⟩]
      · refine .keeps (fun a b hab hb => hitAt_none ?_) htail
        rw [name_first, hrun b fun c hc => hw c (by rw [hab]; exact List.mem_append_right _ hc), if_neg]
        rintro ⟨hfresh, hb'⟩
        cases a using List.reverseRecOn with
        | nil => exact hlabel (by rwa [hab])
        | append_singleton a c =>
          -- within a word no word begins
          have hc := hfresh c (by simp)
          rw [hw c (by rw [hab]; simp)] at hc
          cases hc

variable {σ : Type}

/-- The words with a label, renamed one after another. -/
def renameToks (f : σ → Match Char → σ × List Char) : σ → List Tok → σ × List Tok
  | s, [] => (s, [])
  | s, .sep c :: ts =>
    let (s, out) := renameToks f s ts
    (s, .sep c :: out)
  | s, .word w :: ts =>
    if HasLabel w then
      let (s, name) := f s ⟨w, []⟩
      let (s, out) := renameToks f s ts
      (s, .word name :: out)
    else
      let (s, out) := renameToks f s ts
      (s, .word w :: out)

lemma rewrite_keep (f : σ → Match Char → σ × List Char) (s : σ) (w : List Char)
    (ps : List (Piece Char)) :
    rewrite f s (w.map .keep ++ ps) = ((rewrite f s ps).1, w ++ (rewrite f s ps).2) := by
  induction w with
  | nil => rfl
  | cons c w ih => rw [List.map_cons, List.cons_append, rewrite, ih]; rfl

/-- **Renaming goes word by word.** -/
theorem name_subState (u : Unicode) (f : σ → Match Char → σ × List Char) (s : σ) (text : List Char) :
    (NAME_WITH_LABEL u).subState f s text =
      ((renameToks f s (toks u.word text)).1, render (renameToks f s (toks u.word text)).2) := by
  have hpieces : (NAME_WITH_LABEL u).pieces text = (toks u.word text).flatMap namePieces := by
    have hcut : (NAME_WITH_LABEL u).Cut [] (render (toks u.word text)) _ :=
      cut_names (valid_toks text) (Or.inl fun c hc => by cases hc)
    rw [render_toks] at hcut
    exact hcut.eq
  unfold Re.subState
  rw [hpieces]
  induction toks u.word text generalizing s with
  | nil => rfl
  | cons t ts ih =>
    cases t with
    | sep c =>
      rw [List.flatMap_cons, namePieces, List.singleton_append, rewrite, ih]
      rfl
    | word w =>
      rw [List.flatMap_cons, namePieces, renameToks]
      split_ifs with hlabel
      · rw [List.singleton_append, rewrite]
        obtain ⟨s', name⟩ := f s ⟨w, []⟩
        simp only
        rw [ih]
        rfl
      · rw [rewrite_keep, ih]
        rfl

end

/-! ### `PREPROC_LABEL` -/

/-- The label macros. -/
def HasOmit (text : List Char) : Prop := "OMITBAD".toList <:+: text ∨ "OMITGOOD".toList <:+: text

instance (text : List Char) : Decidable (HasOmit text) :=
  inferInstanceAs (Decidable ("OMITBAD".toList <:+: text ∨ "OMITGOOD".toList <:+: text))

/-- A directive with a label macro. -/
def Directive : List Char → Prop
  | [] => False
  | c :: rest => if isBlank c = true then Directive rest else c = '#' ∧ HasOmit rest

instance : DecidablePred Directive := by
  intro line
  induction line with
  | nil => exact inferInstanceAs (Decidable False)
  | cons c rest ih =>
    unfold Directive
    infer_instance

/-- The line that a text begins with. -/
def firstLine (text : List Char) : List Char := text.takeWhile fun c => c ≠ '\n'

/-- What a text has behind its first line. -/
def otherLines (text : List Char) : List Char := text.dropWhile fun c => c ≠ '\n'

/-- A text that ends where a line begins. -/
def AtLineStart (before : List Char) : Prop := ∀ c ∈ before.head?, c = '\n'

instance (before : List Char) : Decidable (AtLineStart before) :=
  inferInstanceAs (Decidable (∀ c ∈ before.head?, c = '\n'))

lemma directive_iff {line : List Char} : Directive line ↔
    ∃ a x, line = a ++ '#' :: x ∧ (∀ c ∈ a, isBlank c = true) ∧ HasOmit x := by
  induction line with
  | nil => simp [Directive]
  | cons c rest ih =>
    unfold Directive
    split_ifs with hc
    · rw [ih]
      constructor
      · rintro ⟨a, x, rfl, ha, hx⟩
        exact ⟨c :: a, x, rfl, List.forall_mem_cons.mpr ⟨hc, ha⟩, hx⟩
      · rintro ⟨a, x, heq, ha, hx⟩
        cases a with
        | nil =>
          obtain ⟨rfl, -⟩ := List.cons.inj heq
          exact absurd hc (by decide)
        | cons d a =>
          obtain ⟨rfl, rfl⟩ := List.cons.inj heq
          exact ⟨a, x, rfl, fun y hy => ha y (List.mem_cons_of_mem _ hy), hx⟩
    · constructor
      · rintro ⟨rfl, hx⟩
        exact ⟨[], rest, rfl, by simp, hx⟩
      · rintro ⟨a, x, heq, ha, hx⟩
        cases a with
        | nil =>
          obtain ⟨rfl, rfl⟩ := List.cons.inj heq
          exact ⟨rfl, hx⟩
        | cons d a =>
          obtain ⟨rfl, -⟩ := List.cons.inj heq
          exact absurd (ha c List.mem_cons_self) hc

lemma firstLine_append (text : List Char) : firstLine text ++ otherLines text = text :=
  List.takeWhile_append_dropWhile

lemma flat_firstLine (text : List Char) : ∀ c ∈ firstLine text, c ≠ '\n' :=
  fun _ hc => by simpa using List.mem_takeWhile_imp hc

lemma head_otherLines (text : List Char) : ∀ c ∈ (otherLines text).head?, c = '\n' := by
  intro c hc
  have := List.head?_dropWhile_not (fun c => decide (c ≠ '\n')) text
  unfold otherLines at hc
  rw [hc] at this
  simpa using this

lemma mem_lit_char {l : List Char} : st' ∈ (Re.lit l).results ⟨before, after, groups⟩ ↔
    ∃ rest, after = l ++ rest ∧ st' = ⟨l.reverse ++ before, rest, groups⟩ := by
  rw [mem_lit]
  simp only [erase_char]
  constructor
  · rintro ⟨w, rest, hafter, rfl, hst⟩
    exact ⟨rest, hafter, hst⟩
  · rintro ⟨rest, hafter, hst⟩
    exact ⟨l, rest, hafter, rfl, hst⟩

lemma mem_restOfLine : st' ∈ restOfLine.results ⟨before, after, groups⟩ ↔
    ∃ w rest, after = w ++ rest ∧ (∀ c ∈ w, c ≠ '\n') ∧ st' = ⟨w.reverse ++ before, rest, groups⟩ := by
  unfold restOfLine
  rw [mem_star_chr]
  simp

lemma mem_lineStart : st' ∈ lineStart.results ⟨before, after, groups⟩ ↔
    AtLineStart before ∧ st' = ⟨before, after, groups⟩ := by
  unfold lineStart AtLineStart
  rw [mem_look]
  simp only [erase_char]
  cases before with
  | nil => simp
  | cons c rest => simp

lemma mem_omit : st' ∈ (Re.alt (.lit "BAD".toList) (.lit "GOOD".toList)).results ⟨before, after, groups⟩ ↔
    ∃ g, (g = "BAD".toList ∨ g = "GOOD".toList) ∧
      ∃ rest, after = g ++ rest ∧ st' = ⟨g.reverse ++ before, rest, groups⟩ := by
  rw [mem_alt, mem_lit_char, mem_lit_char]
  constructor
  · rintro (h | h)
    · exact ⟨_, Or.inl rfl, h⟩
    · exact ⟨_, Or.inr rfl, h⟩
  · rintro ⟨g, rfl | rfl, h⟩
    · exact Or.inl h
    · exact Or.inr h

lemma head_restOfLine (text : List Char) :
    restOfLine.head ⟨before, text, groups⟩ =
      some ⟨(firstLine text).reverse ++ before, otherLines text, groups⟩ := by
  have hrun : restOfLine.head ⟨before, firstLine text ++ otherLines text, groups⟩ =
      some ⟨(firstLine text).reverse ++ before, otherLines text, groups⟩ :=
    head_star_run (fun c hc => by simpa using flat_firstLine text c hc)
      (fun c hc => by simpa using head_otherLines text c hc)
  rwa [firstLine_append] at hrun

lemma split_line {w more : List Char} (hw : ∀ c ∈ w, c ≠ '\n') (h : after = w ++ more) :
    firstLine after = w ++ firstLine more ∧ otherLines after = otherLines more := by
  unfold firstLine otherLines
  rw [h, List.takeWhile_append_of_pos fun c hc => by simpa using hw c hc,
    List.dropWhile_append_of_pos fun c hc => by simpa using hw c hc]
  exact ⟨rfl, rfl⟩

lemma directive_head {e : St Char} (h : e ∈ PREPROC_LABEL.head ⟨before, after, []⟩) :
    AtLineStart before ∧ Directive (firstLine after) ∧
      e = ⟨(firstLine after).reverse ++ before, otherLines after, []⟩ := by
  -- what each part of the expression went through
  obtain ⟨mid, hmid, h⟩ := exists_of_head_seq h
  obtain ⟨hstart, rfl⟩ := mem_lineStart.mp hmid
  obtain ⟨mid, hmid, h⟩ := exists_of_head_seq h
  obtain ⟨a, more, hafter, ha, rfl⟩ := mem_star_chr.mp hmid
  obtain ⟨mid, hmid, h⟩ := exists_of_head_seq h
  obtain ⟨c, more, rfl, hc, rfl⟩ := mem_chr.mp hmid
  obtain rfl : c = '#' := of_decide_eq_true hc
  obtain ⟨mid, hmid, h⟩ := exists_of_head_seq h
  obtain ⟨x, more, rfl, hx, rfl⟩ := mem_restOfLine.mp hmid
  obtain ⟨mid, hmid, h⟩ := exists_of_head_seq h
  obtain ⟨more, rfl, rfl⟩ := mem_lit_char.mp hmid
  obtain ⟨mid, hmid, h⟩ := exists_of_head_seq h
  obtain ⟨g, hg, more, rfl, rfl⟩ := mem_omit.mp hmid
  rw [head_restOfLine] at h
  -- no part goes over a line end
  have hflat : ∀ c ∈ a ++ '#' :: (x ++ ("OMIT".toList ++ g)), c ≠ '\n' := by
    have hletters : ∀ c ∈ "OMIT".toList ++ g, c ≠ '\n' := by
      rcases hg with rfl | rfl <;> simp
    intro c hc
    rcases List.mem_append.mp hc with hc | hc
    · rintro rfl
      exact absurd (ha _ hc) (by decide)
    · rcases List.mem_cons.mp hc with rfl | hc
      · decide
      · exact (List.mem_append.mp hc).elim (hx c) (hletters c)
  have hsplit : after = a ++ '#' :: (x ++ ("OMIT".toList ++ g)) ++ more := by
    rw [hafter]
    simp
  obtain ⟨hline, hother⟩ := split_line hflat hsplit
  refine ⟨hstart, directive_iff.mpr
    ⟨a, x ++ ("OMIT".toList ++ g) ++ firstLine more, by rw [hline]; simp, ha, ?_⟩, ?_⟩
  · rcases hg with rfl | rfl
    · exact Or.inl ⟨x, firstLine more, by simp⟩
    · exact Or.inr ⟨x, firstLine more, by simp⟩
  · rw [← Option.some.inj h, hline, hother]
    simp

lemma directive_results_ne_nil (hbefore : AtLineStart before) (hline : Directive (firstLine after)) :
    PREPROC_LABEL.results ⟨before, after, []⟩ ≠ [] := by
  obtain ⟨a, x, hfirst, ha, hx⟩ := directive_iff.mp hline
  obtain ⟨g, hg, y, z, rfl⟩ : ∃ g, (g = "BAD".toList ∨ g = "GOOD".toList) ∧
      ∃ y z, x = y ++ ("OMIT".toList ++ (g ++ z)) := by
    rcases hx with ⟨y, z, rfl⟩ | ⟨y, z, rfl⟩
    · exact ⟨_, Or.inl rfl, y, z, by simp⟩
    · exact ⟨_, Or.inr rfl, y, z, by simp⟩
  have hafter : after = a ++ '#' :: (y ++ ("OMIT".toList ++ (g ++ (z ++ otherLines after)))) := by
    conv_lhs => rw [← firstLine_append after, hfirst]
    simp
  have hy : ∀ c ∈ y, c ≠ '\n' := fun c hc => flat_firstLine after c (by rw [hfirst]; simp [hc])
  obtain ⟨e, he⟩ : ∃ e, restOfLine.head ⟨g.reverse ++ ("OMIT".toList.reverse ++
      (y.reverse ++ '#' :: (a.reverse ++ before))), z ++ otherLines after, []⟩ = some e :=
    ⟨_, head_restOfLine _⟩
  refine List.ne_nil_of_mem (a := e) (mem_seq.mpr ⟨_, mem_lineStart.mpr ⟨hbefore, rfl⟩, ?_⟩)
  refine mem_seq.mpr ⟨_, mem_star_chr.mpr ⟨a, _, hafter, ha, rfl⟩, ?_⟩
  refine mem_seq.mpr ⟨_, mem_chr.mpr ⟨'#', _, rfl, rfl, rfl⟩, ?_⟩
  refine mem_seq.mpr ⟨_, mem_restOfLine.mpr ⟨y, _, rfl, hy, rfl⟩, ?_⟩
  refine mem_seq.mpr ⟨_, mem_lit_char.mpr ⟨_, rfl, rfl⟩, ?_⟩
  exact mem_seq.mpr ⟨_, mem_omit.mpr ⟨g, hg, _, rfl, rfl⟩, List.mem_of_mem_head? he⟩

/-- **`PREPROC_LABEL` finds the lines with a label macro.** -/
theorem directive_first (before after : List Char) :
    PREPROC_LABEL.first before after =
      if AtLineStart before ∧ Directive (firstLine after) then some ⟨firstLine after, []⟩ else none := by
  refine first_closed (firstLine_append after).symm (fun e he => ?_)
    fun h => directive_results_ne_nil h.1 h.2
  obtain ⟨hstart, hline, rfl⟩ := directive_head he
  exact ⟨⟨hstart, hline⟩, rfl⟩

/-! ### `LEAK_WORDS` -/

/-- A text begins with a word, without regard to case. -/
def spells : List Char → List Char → Bool
  | [], _ => true
  | _ :: _, [] => false
  | c :: pattern, d :: text => caseless c d && spells pattern text

/-- The label words that are found anywhere. -/
def leakWords : List (List Char) :=
  ["bad".toList, "good".toList, "g2b".toList, "b2g".toList, "flaw".toList, "omit".toList,
    "incidental".toList, "benign".toList]

section

variable (u : Unicode)

/-- A label word stands at a position. -/
def leakAt (before after : List Char) : Bool :=
  leakWords.any (fun pattern => spells pattern after) ||
    (before.head?.any u.word != after.head?.any u.word) && spells "fix".toList after

/-- There is no label word in a text. -/
def Clean (text : List Char) : Prop := (LEAK_WORDS u).search text = none

instance (text : List Char) : Decidable (Clean u text) :=
  decidable_of_iff (((LEAK_WORDS u).search text).isNone = true) Option.isNone_iff_eq_none

variable {u}

lemma exists_mem_ci {pattern : List Char} :
    (∃ st', st' ∈ (ci pattern).results ⟨before, after, groups⟩) ↔ spells pattern after = true := by
  induction pattern generalizing before after with
  | nil => simp [ci, spells, Re.results]
  | cons c pattern ih =>
    rw [ci]
    cases after with
    | nil => simp [spells, mem_seq]
    | cons d text =>
      rw [spells, Bool.and_eq_true, ← @ih (d :: before) text]
      constructor
      · rintro ⟨st', h⟩
        obtain ⟨mid, hmid, h⟩ := mem_seq.mp h
        obtain ⟨e, more, heq, he, rfl⟩ := mem_chr.mp hmid
        cases heq
        exact ⟨he, st', h⟩
      · rintro ⟨hd, st', h⟩
        exact ⟨st', mem_seq.mpr ⟨_, mem_chr.mpr ⟨d, text, rfl, hd, rfl⟩, h⟩⟩

lemma exists_mem_fix : (∃ st', st' ∈ (Re.seq (bound u) (ci "fix".toList)).results ⟨before, after, groups⟩) ↔
    (before.head?.any u.word != after.head?.any u.word) = true ∧ spells "fix".toList after = true := by
  have hci : (∃ st', st' ∈ (ci "fix".toList).results ⟨before, after, groups⟩) ↔ _ := exists_mem_ci
  rw [← hci]
  constructor
  · rintro ⟨st', h⟩
    obtain ⟨mid, hmid, h⟩ := mem_seq.mp h
    obtain ⟨hbound, rfl⟩ := mem_look.mp hmid
    rw [erase_char, erase_char] at hbound
    exact ⟨hbound, st', h⟩
  · rintro ⟨hbound, st', h⟩
    exact ⟨st', mem_seq.mpr ⟨_, mem_look.mpr ⟨by rwa [erase_char, erase_char], rfl⟩, h⟩⟩

/-- **`LEAK_WORDS` finds the label words.** -/
theorem leak_first : (LEAK_WORDS u).first before after = none ↔ leakAt u before after = false := by
  have hexists : (∃ st', st' ∈ (LEAK_WORDS u).results ⟨before, after, []⟩) ↔
      leakAt u before after = true := by
    unfold LEAK_WORDS leakAt leakWords
    simp only [Re.oneOf, mem_alt, exists_or, exists_mem_ci, exists_mem_fix, List.any_cons, List.any_nil,
      Bool.or_eq_true, Bool.and_eq_true, Bool.or_false]
    -- `fix` stands in the middle of the expression
    simp only [or_assoc, or_comm, or_left_comm]
  rw [first_eq_none_iff, List.eq_nil_iff_forall_not_mem, ← not_exists, hexists, Bool.not_eq_true]

lemma spells_append {pattern : List Char} (h : spells pattern text = true) (more : List Char) :
    spells pattern (text ++ more) = true := by
  induction pattern generalizing text with
  | nil => rfl
  | cons c pattern ih =>
    cases text with
    | nil => cases h
    | cons d text =>
      rw [spells, Bool.and_eq_true] at h
      rw [List.cons_append, spells, h.1, ih h.2]
      rfl

lemma leakAt_append (h : leakAt u before after = true) (more : List Char) :
    leakAt u before (after ++ more) = true := by
  unfold leakAt at h ⊢
  rw [Bool.or_eq_true] at h ⊢
  rcases h with h | h
  · obtain ⟨pattern, hmem, hspells⟩ := List.any_eq_true.mp h
    exact Or.inl (List.any_eq_true.mpr ⟨pattern, hmem, spells_append hspells more⟩)
  · refine Or.inr ?_
    cases after with
    | nil => simp [spells] at h
    | cons c after =>
      rw [Bool.and_eq_true] at h ⊢
      exact ⟨h.1, spells_append h.2 more⟩

lemma leakAt_congr {before' : List Char} (h : before.head?.any u.word = before'.head?.any u.word)
    (after : List Char) : leakAt u before after = leakAt u before' after := by
  unfold leakAt
  rw [h]

lemma clean_iff : Clean u text ↔ ∀ a b, text = a ++ b → leakAt u a.reverse b = false := by
  unfold Clean
  rw [search_eq_none_iff]
  simp only [leak_first]

/-- A part of a text without label words has none, if no word goes on into it. -/
lemma Clean.infix {x y z : List Char} (h : Clean u (x ++ (y ++ z))) (hx : Fresh u x.reverse) :
    Clean u y := by
  rw [clean_iff] at h ⊢
  rintro a b rfl
  have hat := h (x ++ a) (b ++ z) (by simp)
  by_contra hleak
  have hmore := leakAt_append (Bool.eq_true_of_not_eq_false hleak) z
  have hsame : (x ++ a).reverse.head?.any u.word = a.reverse.head?.any u.word := by
    rw [List.reverse_append]
    cases a.reverse with
    | nil =>
      rw [List.nil_append, fresh_iff.mp hx]
      rfl
    | cons c front => rfl
  rw [leakAt_congr hsame, hmore] at hat
  cases hat

lemma spells_label {l : List Char} (hl : l ∈ nameLabels) :
    ∃ pattern ∈ leakWords, spells pattern l = true := by
  have hall : ∀ l ∈ nameLabels, ∃ pattern ∈ leakWords, spells pattern l = true := by decide
  exact hall l hl

lemma Clean.not_spells (h : Clean u text) {p l : List Char} (hp : p ∈ leakWords)
    (hl : spells p l = true) : ¬ l <:+: text := by
  rintro ⟨a, b, rfl⟩
  have hat := clean_iff.mp h a (l ++ b) (by simp)
  unfold leakAt at hat
  rw [List.any_eq_true.mpr ⟨p, hp, spells_append hl b⟩] at hat
  cases hat

lemma Clean.not_hasLabel (h : Clean u text) (hw : w <:+: text) : ¬ HasLabel w := by
  rintro ⟨l, hl, hlw⟩
  obtain ⟨pattern, hpattern, hspells⟩ := spells_label hl
  exact h.not_spells hpattern hspells (hlw.trans hw)

lemma Clean.not_hasOmit (h : Clean u text) (hw : w <:+: text) : ¬ HasOmit w := by
  have homit : ∀ l, l = "OMITBAD".toList ∨ l = "OMITGOOD".toList → ¬ l <:+: text := by
    rintro l (rfl | rfl)
    · exact h.not_spells (p := "omit".toList) (by decide) (by decide)
    · exact h.not_spells (p := "omit".toList) (by decide) (by decide)
  rintro (hl | hl)
  · exact homit _ (Or.inl rfl) (hl.trans hw)
  · exact homit _ (Or.inr rfl) (hl.trans hw)

/-! ### `STRING` -/

/-- What stands between the quotes of a literal: characters, and escapes. -/
inductive Units (quote : Char) : List Char → Prop where
  | nil : Units quote []
  | char {c : Char} {rest : List Char} (hquote : c ≠ quote) (hescape : c ≠ '\\') (hline : c ≠ '\n')
      (tail : Units quote rest) : Units quote (c :: rest)
  | escape {c : Char} {rest : List Char} (hline : c ≠ '\n') (tail : Units quote rest) :
      Units quote ('\\' :: c :: rest)

lemma Units.flat {quote : Char} {body : List Char} (h : Units quote body) : ∀ c ∈ body, c ≠ '\n' := by
  induction h with
  | nil => simp
  | char _ _ hline _ ih => exact List.forall_mem_cons.mpr ⟨hline, ih⟩
  | escape hline _ ih => exact List.forall_mem_cons.mpr ⟨by decide, List.forall_mem_cons.mpr ⟨hline, ih⟩⟩

lemma unit_char {c : Char} (hquote : c ≠ '"') (hescape : c ≠ '\\') (hline : c ≠ '\n') :
    stringUnit.results ⟨before, c :: rest, groups⟩ = [⟨c :: before, rest, groups⟩] := by
  simp [stringUnit, Re.results, hquote, hescape, hline]

lemma unit_escape {c : Char} (hline : c ≠ '\n') :
    stringUnit.results ⟨before, '\\' :: c :: rest, groups⟩ = [⟨c :: '\\' :: before, rest, groups⟩] := by
  simp [stringUnit, Re.results, hline]

lemma unit_quote : stringUnit.results ⟨before, '"' :: rest, groups⟩ = [] := by
  simp [stringUnit, Re.results]

/-- **The units of a literal** are passed over, up to the quote. -/
lemma head_units {body : List Char} (h : Units '"' body) :
    (Re.star true stringUnit).head ⟨before, body ++ '"' :: rest, groups⟩ =
      some ⟨body.reverse ++ before, '"' :: rest, groups⟩ := by
  induction h generalizing before with
  | nil =>
    rw [Re.head, results_star, List.nil_append, unit_quote]
    rfl
  | @char c body hquote hescape hline _ ih =>
    have ih := @ih (c :: before)
    rw [Re.head] at ih ⊢
    rw [results_star, List.cons_append, unit_char hquote hescape hline]
    simp only [List.filter_cons, List.length_cons, Nat.lt_succ_self, decide_true, if_true, List.filter_nil,
      List.flatMap_singleton, List.head?_append, ih]
    simp
  | @escape c body hline _ ih =>
    have ih := @ih (c :: '\\' :: before)
    rw [Re.head] at ih ⊢
    rw [results_star, List.cons_append, List.cons_append, unit_escape hline]
    have hless : (body ++ '"' :: rest).length < ('\\' :: c :: (body ++ '"' :: rest)).length := by
      simp only [List.length_cons]
      omega
    rw [List.filter_cons, if_pos (decide_eq_true hless), List.filter_nil]
    simp only [List.flatMap_singleton, List.head?_append, ih, if_true]
    simp

lemma mem_unit (h : st' ∈ stringUnit.results ⟨before, after, groups⟩) :
    ∃ w rest, after = w ++ rest ∧ (∀ body, Units '"' body → Units '"' (w ++ body)) ∧
      st' = ⟨w.reverse ++ before, rest, groups⟩ := by
  rcases mem_alt.mp h with h | h
  · obtain ⟨c, rest, rfl, hc, rfl⟩ := mem_chr.mp h
    simp only [val_char, Bool.and_eq_true, decide_eq_true_eq] at hc
    exact ⟨[c], rest, rfl, fun body hbody => .char hc.1.1 hc.1.2 hc.2 hbody, rfl⟩
  · obtain ⟨mid, hmid, h⟩ := mem_seq.mp h
    obtain ⟨c, more, rfl, hc, rfl⟩ := mem_chr.mp hmid
    obtain ⟨d, rest, rfl, hd, rfl⟩ := mem_chr.mp h
    obtain rfl : c = '\\' := of_decide_eq_true hc
    exact ⟨['\\', d], rest, rfl, fun body hbody => .escape (of_decide_eq_true hd) hbody, rfl⟩

lemma mem_units (h : st' ∈ (Re.star true stringUnit).results ⟨before, after, groups⟩) :
    ∃ body rest, after = body ++ rest ∧ Units '"' body ∧
      st' = ⟨body.reverse ++ before, rest, groups⟩ := by
  induction hlen : after.length using Nat.strong_induction_on generalizing before after with
  | _ n ih =>
    rcases mem_star.mp h with rfl | ⟨mid, hmid, hless, h⟩
    · exact ⟨[], after, rfl, .nil, rfl⟩
    · obtain ⟨w, rest, rfl, hw, rfl⟩ := mem_unit hmid
      obtain ⟨body, rest, rfl, hbody, rfl⟩ := ih rest.length (by rw [← hlen]; exact hless) h rfl
      exact ⟨w ++ body, rest, by simp, hw body hbody, by simp⟩

lemma head_quoted {body : List Char} (h : Units '"' body) :
    (Re.seq (.chr (· = '"')) (.seq (.group 2 (.star true stringUnit)) (.chr (· = '"')))).head
      ⟨before, '"' :: body ++ '"' :: rest, groups⟩ =
      some ⟨('"' :: body ++ ['"']).reverse ++ before, rest, (2, body) :: groups⟩ := by
  have hunits : (Re.star true stringUnit).head ⟨'"' :: before, body ++ '"' :: rest, groups⟩ = _ :=
    head_units h
  obtain ⟨more, hmore⟩ := List.head?_eq_some_iff.mp hunits
  rw [head_seq, List.cons_append, results_chr_cons (by rfl), List.findSome?_singleton, head_seq, Re.results,
    hmore, List.map_cons, List.findSome?_cons, upto_append, Re.head, results_chr_cons (by rfl)]
  simp

/-- **`STRING` finds a literal.** -/
theorem string_first {wide body : List Char} (hwide : wide = [] ∨ wide = ['L']) (h : Units '"' body) :
    STRING.first before (wide ++ ('"' :: body ++ '"' :: rest)) =
      some ⟨wide ++ ('"' :: body ++ ['"']), [(2, body), (1, wide)]⟩ := by
  have hhead : STRING.head ⟨before, wide ++ ('"' :: body ++ '"' :: rest), []⟩ =
      some ⟨('"' :: body ++ ['"']).reverse ++ (wide.reverse ++ before), rest, [(2, body), (1, wide)]⟩ := by
    obtain ⟨more, hmore⟩ : ∃ more, (Re.group 1 (.opt (.chr (· = 'L')))).results
        ⟨before, wide ++ ('"' :: body ++ '"' :: rest), []⟩ =
        ⟨wide.reverse ++ before, '"' :: body ++ '"' :: rest, [(1, wide)]⟩ :: more := by
      rcases hwide with rfl | rfl
      · exact ⟨[], by simp [Re.results, Re.opt, St.upto]⟩
      · exact ⟨[⟨before, 'L' :: ('"' :: body ++ '"' :: rest), [(1, [])]⟩],
          by simp [Re.results, Re.opt, St.upto]⟩
    rw [STRING, head_seq, hmore, List.findSome?_cons, head_quoted h]
  have hafter : wide ++ ('"' :: body ++ '"' :: rest) = (wide ++ ('"' :: body ++ ['"'])) ++ rest := by simp
  rw [hafter] at hhead ⊢
  obtain ⟨m, hfirst, hwhole, hgroups⟩ := first_of_head hhead
  rw [hfirst, ← hwhole, ← hgroups]

/-- **It finds nothing else.** -/
theorem string_spec {m : Match Char} (h : STRING.first before after = some m) :
    ∃ wide body rest, (wide = [] ∨ wide = ['L']) ∧ Units '"' body ∧
      after = wide ++ ('"' :: body ++ '"' :: rest) ∧
      m = ⟨wide ++ ('"' :: body ++ ['"']), [(2, body), (1, wide)]⟩ := by
  obtain ⟨e, he, rfl⟩ := Option.map_eq_some_iff.mp h
  obtain ⟨mid, hmid, he⟩ := mem_seq.mp (List.mem_of_mem_head? he)
  obtain ⟨wide, more, rfl, hwide, rfl⟩ : ∃ wide more, after = wide ++ more ∧ (wide = [] ∨ wide = ['L']) ∧
      mid = ⟨wide.reverse ++ before, more, [(1, wide)]⟩ := by
    obtain ⟨st, hst, rfl⟩ := mem_group.mp hmid
    rcases mem_alt.mp hst with hst | hst
    · obtain ⟨c, more, rfl, hc, rfl⟩ := mem_chr.mp hst
      obtain rfl : c = 'L' := of_decide_eq_true hc
      exact ⟨['L'], more, rfl, Or.inr rfl, by rw [show 'L' :: more = ['L'] ++ more from rfl, upto_append]; rfl⟩
    · obtain rfl := List.mem_singleton.mp hst
      exact ⟨[], after, rfl, Or.inl rfl, by simp [St.upto]⟩
  obtain ⟨mid, hmid, he⟩ := mem_seq.mp he
  obtain ⟨c, more, rfl, hc, rfl⟩ := mem_chr.mp hmid
  obtain rfl : c = '"' := of_decide_eq_true hc
  obtain ⟨mid, hmid, he⟩ := mem_seq.mp he
  obtain ⟨st, hst, rfl⟩ := mem_group.mp hmid
  obtain ⟨body, more, rfl, hbody, rfl⟩ := mem_units hst
  obtain ⟨c, rest, rfl, hc, rfl⟩ := mem_chr.mp he
  obtain rfl : c = '"' := of_decide_eq_true hc
  refine ⟨wide, body, rest, hwide, hbody, by simp, ?_⟩
  have hwhole : St.upto ⟨before, wide ++ ('"' :: body ++ ['"']) ++ rest, []⟩
      ⟨'"' :: (body.reverse ++ '"' :: (wide.reverse ++ before)), rest, [(2, body), (1, wide)]⟩ = _ :=
    upto_append _ _ _ _ _
  simp only [List.append_assoc, List.cons_append, List.nil_append] at hwhole
  rw [St.toMatch, upto_append, hwhole]
  simp

/-! ### Texts without label words -/

lemma part_of_mem_toks {t : Tok} (h : t ∈ toks u.word text) : t.text <:+: text := by
  obtain ⟨ts, ts', hts⟩ := List.append_of_mem h
  refine ⟨render ts, render ts', ?_⟩
  rw [← render_toks (p := u.word) text, hts]
  simp

lemma renameToks_same {σ : Type} (f : σ → Match Char → σ × List Char) (s : σ) {ts : List Tok}
    (h : ∀ w, .word w ∈ ts → ¬ HasLabel w) : renameToks f s ts = (s, ts) := by
  induction ts with
  | nil => rfl
  | cons t ts ih =>
    have ih := ih fun w hw => h w (List.mem_cons_of_mem t hw)
    cases t with
    | sep c => rw [renameToks, ih]
    | word w => rw [renameToks, if_neg (h w List.mem_cons_self), ih]

/-- **A text without label words is not renamed.** -/
theorem subState_clean {σ : Type} (f : σ → Match Char → σ × List Char) (s : σ) (h : Clean u text) :
    (NAME_WITH_LABEL u).subState f s text = (s, text) := by
  rw [name_subState, renameToks_same f s fun w hw => h.not_hasLabel (part_of_mem_toks hw), render_toks]

lemma fresh_quote (front : List Char) : Fresh u ('"' :: front) := by
  intro c hc
  obtain rfl : '"' = c := Option.some.inj hc
  rw [u.word_ascii '"' (by decide)]
  decide

lemma hit_string {m : Match Char} (h : .hit m ∈ STRING.pieces text) :
    ∃ front wide body rest, (wide = [] ∨ wide = ['L']) ∧ Units '"' body ∧
      text = front ++ (wide ++ ('"' :: body ++ '"' :: rest)) ∧
      m = ⟨wide ++ ('"' :: body ++ ['"']), [(2, body), (1, wide)]⟩ := by
  obtain ⟨front, z, rfl, hfirst⟩ := (cut_piecesFrom STRING [] text).place_of_hit h
  obtain ⟨wide, body, rest, hwide, hbody, hafter, hm⟩ := string_spec hfirst
  exact ⟨front, wide, body, rest, hwide, hbody, by rw [hafter], hm⟩

/-- **Its literals stay.** -/
theorem blankStrings_clean (h : Clean u text) : blankStrings u text = text := by
  refine sub_same fun m hm => ?_
  obtain ⟨front, wide, body, rest, -, -, rfl, rfl⟩ := hit_string hm
  have hbody : Clean u body := by
    refine Clean.infix (x := front ++ wide ++ ['"']) (z := '"' :: rest) (by simpa using h) ?_
    rw [List.reverse_append]
    exact fresh_quote _
  unfold blankString
  rw [show Match.group _ 2 = body from rfl, if_pos]
  rw [hbody]
  rfl

/-- **It keeps its directives.** -/
theorem dropDirectives_clean (h : Clean u text) : dropDirectives text = text := by
  refine sub_of_search_none (search_eq_none_iff.mpr fun w rest heq => ?_) _
  rw [directive_first, if_neg]
  rintro ⟨-, hline⟩
  obtain ⟨a, x, hfirst, -, hx⟩ := directive_iff.mp hline
  refine h.not_hasOmit (w := x) ?_ hx
  have htext : text = w ++ (firstLine rest ++ otherLines rest) := by rw [firstLine_append, heq]
  refine ⟨w ++ a ++ ['#'], otherLines rest, ?_⟩
  rw [htext, hfirst]
  simp

/-- **Without label words a text without comments is not changed any more.** -/
theorem scrubbed_clean {code : List Char} (h : Clean u (dropComments (dropOpened code))) :
    scrubbed u code = dropComments (dropOpened code) := by
  rw [scrubbed, strip, dropDirectives_clean h, blankStrings_clean h, subState_clean _ _ h]

end

end CSecureBuild.Harness.Patterns
