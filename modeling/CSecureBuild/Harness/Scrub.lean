import CSecureBuild.PyLib.Regex
import CSecureBuild.PyLib.Text

/-!
`scrub` and `numbered` of `llm-eval/harness/run_eval.py`, and `prompt_code` of `build_v2.py`: what is
taken out of a text because it gives the labels away, step by step.

The texts are lists of cells, so that the same steps can be followed with marks (`PyLib/Cells.lean`).
The generator of `prompt_code` is what its `choice` gives, call by call.
-/

namespace CSecureBuild.Harness.Scrub

open CSecureBuild.PyLib.Cells CSecureBuild.PyLib.Regex CSecureBuild.PyLib.Text

/-! ### Patterns -/

section

variable (u : Unicode)

/-- A character without regard to case: the letter `i` has four. -/
def caseless (c d : Char) : Bool :=
  d = c || d = c.toUpper || (c = 'i' && (d = '\u0130' || d = '\u0131'))

/-- A text without regard to case. -/
def ci : List Char → Re
  | [] => .eps
  | c :: rest => .seq (.chr (caseless c)) (ci rest)

/-- `\b` -/
def bound : Re :=
  .look fun before after => before.head?.any u.word != after.head?.any u.word

/-- `LEAK_WORDS` -/
def LEAK_WORDS : Re :=
  .oneOf [ci "bad".toList, ci "good".toList, ci "g2b".toList, ci "b2g".toList, ci "flaw".toList,
    .seq (bound u) (ci "fix".toList), ci "omit".toList, ci "incidental".toList, ci "benign".toList]

/-- A character of a string literal, or an escape. -/
def stringUnit : Re :=
  .alt (.chr fun c => c ≠ '"' && c ≠ '\\' && c ≠ '\n')
    (.seq (.chr (· = '\\')) (.chr (· ≠ '\n')))

/-- `STRING` -/
def STRING : Re :=
  .seq (.group 1 (.opt (.chr (· = 'L'))))
    (.seq (.chr (· = '"')) (.seq (.group 2 (.star true stringUnit)) (.chr (· = '"'))))

/-- The labels in names. -/
def nameLabel : Re :=
  .oneOf [.seq (.chr fun c => c = 'B' || c = 'b') (.lit "ad".toList),
    .seq (.chr fun c => c = 'G' || c = 'g') (.lit "ood".toList), .lit "G2B".toList, .lit "B2G".toList]

/-- `NAME_WITH_LABEL` -/
def NAME_WITH_LABEL : Re :=
  .seq (bound u) (.seq (.star true (.chr u.word))
    (.seq nameLabel (.seq (.star true (.chr u.word)) (bound u))))

end

/-- The rest of a line. -/
def restOfLine : Re := .star true (.chr (· ≠ '\n'))

/-- `COMMENT` -/
def COMMENT : Re :=
  .alt (.seq (.lit "//".toList) restOfLine)
    (.seq (.lit "/*".toList) (.seq (.star false (.chr fun _ => true)) (.lit "*/".toList)))

/-- `^`, at every line -/
def lineStart : Re := .look fun before _ => before.head?.all (· = '\n')

/-- A blank or a tabulator. -/
def isBlank (c : Char) : Bool := c = ' ' || c = '\t'

/-- `PREPROC_LABEL` -/
def PREPROC_LABEL : Re :=
  .seq lineStart (.seq (.star true (.chr isBlank)) (.seq (.chr (· = '#')) (.seq restOfLine
    (.seq (.lit "OMIT".toList) (.seq (.alt (.lit "BAD".toList) (.lit "GOOD".toList)) restOfLine)))))

/-- The blank lines that `prompt_code` trims. -/
def LEAD : Re := .star true (.seq (.star true (.chr isBlank)) (.chr (· = '\n')))

/-! ### Texts -/

section

variable {α : Type} [Cell α]

/-- `names.setdefault(key, value)` -/
def setdefault (names : List (List Char × List Char)) (key value : List Char) :
    List (List Char × List Char) × List Char :=
  match names.lookup key with
  | some name => (names, name)
  | none => (names ++ [(key, value)], value)

/-! ### The steps -/

/-- What the text begins with may be the rest of a comment: it goes up to the first terminator, if that
is before the first opening. -/
def dropOpened (code : List α) : List α :=
  match find "*/".toList code, find "/*".toList code with
  | some close, some opened =>
    if close < opened then newlines (code.take (close + 2)) ++ code.drop (close + 2) else code
  | some close, none => newlines (code.take (close + 2)) ++ code.drop (close + 2)
  | none, _ => code

/-- Comments leave their newlines. -/
def dropComments (code : List α) : List α := COMMENT.sub (fun m => newlines m.whole) code

/-- Directives with a label go. -/
def dropDirectives (code : List α) : List α := PREPROC_LABEL.sub (fun _ => []) code

/-- What stands for a string literal with a label word: one of the same length. -/
def blankString (u : Unicode) (m : Match α) : List α :=
  if ((LEAK_WORDS u).search (m.group 2)).isNone then m.whole
  else write m.whole (erase (m.group 1) ++ '"' :: List.replicate (m.group 2).length 'x' ++ ['"'])

/-- String literals with a label word are overwritten. -/
def blankStrings (u : Unicode) (code : List α) : List α := STRING.sub (blankString u) code

/-- The steps before the renaming, which `scrub` and `prompt_code` share. -/
def strip (u : Unicode) (code : List α) : List α :=
  blankStrings u (dropDirectives (dropComments (dropOpened code)))

/-! ### `scrub` -/

/-- The names that were given out, in order. -/
abbrev Names := List (List Char × List Char)

/-- `rename`: the name for a match. -/
def rename (names : Names) (m : Match α) : Names × List α :=
  let (names, name) :=
    setdefault names (erase m.whole) ("id_".toList ++ (toString (names.length + 1)).toList)
  (names, write m.whole name)

/-- What `scrub` makes of a text, before it looks at it. -/
def scrubbed (u : Unicode) (code : List α) : List α :=
  ((NAME_WITH_LABEL u).subState rename [] (strip u code)).2

/-- The text of a `LeakError`. -/
def leakMessage (hit : List Char) : List Char :=
  "label word '".toList ++ hit ++ "' survives scrubbing".toList

/-- `scrub`: the text without what gives the labels away, or the `LeakError`. -/
def scrub (u : Unicode) (code : List α) : Except (List Char) (List α) :=
  match (LEAK_WORDS u).search (scrubbed u code) with
  | some hit => .error (leakMessage (erase hit.whole))
  | none => .ok (scrubbed u code)

end

/-! ### `numbered` -/

/-- The rows of a text: the number and the text of each line. -/
def rows (code : List Char) (firstLine : ℕ) : List (ℕ × List Char) :=
  (splitlines code).zipIdx.map fun (line, i) => (firstLine + i, line)

/-- `f"{n:5d}"` -/
def width5 (n : ℕ) : List Char := (toString n).toList.leftpad 5 ' '

/-- `numbered` -/
def numbered (code : List Char) (firstLine : ℕ) : List Char :=
  List.intercalate ['\n'] ((rows code firstLine).map fun row =>
    width5 row.1 ++ "  ".toList ++ row.2)

/-! ### `prompt_code` -/

/-- `SYLLABLES` -/
def SYLLABLES : List (List Char) :=
  ["ka".toList, "lo".toList, "mi".toList, "ne".toList, "ru".toList, "ta".toList, "vo".toList,
    "ze".toList, "pi".toList, "su".toList, "de".toList, "ho".toList, "ja".toList, "we".toList,
    "ly".toList, "no".toList, "ri".toList, "te".toList, "qu".toList, "ce".toList]

/-- `CONTEXT_CHAR_CAP` -/
def CONTEXT_CHAR_CAP : ℕ := 24000

/-- What the names of `prompt_code` depend on: the calls of `rng.choice` so far, and the names that were
used and given out. -/
structure Naming where
  drawn : ℕ
  used : List (List Char)
  names : Names

section

variable (u : Unicode)

/-- `neutral_name`, with a bound on the names it tries. The generator gives a syllable for each call. -/
def neutralName (choice : ℕ → Fin SYLLABLES.length) : ℕ → Naming → Option (Naming × List Char)
  | 0, _ => none
  | tries + 1, s =>
    let syllable (k : ℕ) : List Char := SYLLABLES.get (choice k)
    let name := syllable s.drawn ++ syllable (s.drawn + 1) ++ syllable (s.drawn + 2)
    let s := { s with drawn := s.drawn + 3 }
    if name ∉ s.used ∧ ((LEAK_WORDS u).search name).isNone = true then
      some ({ s with used := s.used ++ [name] }, name)
    else neutralName choice tries s

variable {α : Type} [Cell α]

/-- The name for a match: a new one is drawn whether it is needed or not. -/
def renameNeutral (choice : ℕ → Fin SYLLABLES.length) (tries : ℕ) (s : Option Naming) (m : Match α) :
    Option Naming × List α :=
  match s.bind (neutralName u choice tries) with
  | none => (none, [])
  | some (s, fresh) =>
    let (names, name) := setdefault s.names (erase m.whole) fresh
    (some { s with names }, write m.whole name)

/-- The text of a preamble and a function. -/
def joined (preamble func : List (List α)) : List α :=
  preamble.flatten ++ Cell.plain '\n' :: func.flatten

/-- The blank lines a text begins with. -/
def lead (code : List α) : List α := ((LEAD.matchStart code).map Match.whole).getD []

/-- A text that is cut if it is too long. -/
def capped (code : List α) : List α :=
  if CONTEXT_CHAR_CAP < code.length then
    code.take CONTEXT_CHAR_CAP ++ "\n/* [truncated] */\n".toList.map Cell.plain
  else code

/-- What `prompt_code` makes of a text, before it trims it. -/
def promptText (choice : ℕ → Fin SYLLABLES.length) (tries : ℕ) (code : List α) : Option (List α) :=
  let (s, code) :=
    (NAME_WITH_LABEL u).subState (renameNeutral u choice tries) (some ⟨0, [], []⟩) (strip u code)
  s.map fun _ => code

/-- `prompt_code`: the code, and how many leading lines it lacks. -/
def promptCode (choice : ℕ → Fin SYLLABLES.length) (tries : ℕ) (preamble func : List (List α)) :
    Option (List α × ℕ) :=
  (promptText u choice tries (joined preamble func)).map fun code =>
    (capped (code.drop (lead code).length), (newlines (lead code)).length)

end

/-! ### Marks are not looked at -/

section

variable {α β : Type} [Cell α] [Cell β] {g : α → β} (u : Unicode)

lemma write_char (place text : List Char) : write place text = text := by
  cases place <;> exact List.map_id text

lemma find_map (hg : Remarks g) (pattern : List Char) (text : List α) :
    find pattern (text.map g) = find pattern text := by
  induction text with
  | nil => rfl
  | cons c rest ih => rw [List.map_cons, find, find, ih, ← List.map_cons, hg.erase_map]

lemma map_dropOpened (hg : Remarks g) (code : List α) :
    (dropOpened code).map g = dropOpened (code.map g) := by
  have hcut : ∀ k, (newlines (code.take k) ++ code.drop k).map g =
      newlines ((code.map g).take k) ++ (code.map g).drop k := fun k => by
    rw [List.map_append, hg.map_newlines, List.map_take, List.map_drop]
  unfold dropOpened
  rw [find_map hg, find_map hg]
  split
  · split_ifs
    · exact hcut _
    · rfl
  · exact hcut _
  · rfl

lemma map_dropComments (hg : Remarks g) (code : List α) :
    (dropComments code).map g = dropComments (code.map g) :=
  (sub_map hg.val COMMENT (fun m => (hg.map_newlines m.whole).symm) code).symm

lemma map_dropDirectives (hg : Remarks g) (code : List α) :
    (dropDirectives code).map g = dropDirectives (code.map g) :=
  (sub_map hg.val PREPROC_LABEL (fun _ => rfl) code).symm

lemma search_map (hg : Remarks g) (r : Re) (text : List α) :
    r.search (text.map g) = (r.search text).map (Match.map g) := by
  have hfrom : ∀ before : List α, r.searchFrom (before.map g) (text.map g) =
      (r.searchFrom before text).map (Match.map g) := by
    induction text with
    | nil => exact fun before => first_map hg.val r before []
    | cons c rest ih =>
      intro before
      have hfirst := first_map hg.val r before (c :: rest)
      simp only [List.map_cons, Re.searchFrom] at hfirst ih ⊢
      rw [hfirst]
      cases r.first before (c :: rest) with
      | some m => rfl
      | none => exact ih (c :: before)
  exact hfrom []

lemma map_blankStrings (hg : Remarks g) (code : List α) :
    (blankStrings u code).map g = blankStrings u (code.map g) := by
  refine (sub_map hg.val STRING (fun m => ?_) code).symm
  unfold blankString
  rw [Match.group_map, Match.group_map, search_map hg, Option.isNone_map]
  split_ifs
  · rfl
  · rw [hg.map_write, hg.erase_map, List.length_map]
    rfl

lemma map_strip (hg : Remarks g) (code : List α) : (strip u code).map g = strip u (code.map g) := by
  unfold strip
  rw [map_blankStrings u hg, map_dropDirectives hg, map_dropComments hg, map_dropOpened hg]

/-- **What `scrub` makes of a text does not depend on marks**: it takes them along. -/
theorem map_scrubbed (hg : Remarks g) (code : List α) :
    (scrubbed u code).map g = scrubbed u (code.map g) := by
  unfold scrubbed
  rw [← map_strip u hg, subState_map hg.val (NAME_WITH_LABEL u) (f := rename) (k := rename)]
  intro names m
  unfold rename
  have hwhole : (m.map g).whole = m.whole.map g := rfl
  simp only [hwhole, hg.erase_map, hg.map_write]

lemma map_capped (hg : Remarks g) (code : List α) : (capped code).map g = capped (code.map g) := by
  unfold capped
  rw [List.length_map]
  split_ifs
  · simp only [List.map_append, List.map_take, List.map_map, Function.comp_def, hg.plain]
  · rfl

lemma erase_newlines (text : List α) : erase (newlines text) = newlines (erase text) :=
  remarks_val.map_newlines text

lemma erase_capped (code : List α) : erase (capped code) = capped (erase code) :=
  map_capped remarks_val code

lemma erase_strip (code : List α) : erase (strip u code) = strip u (erase code) :=
  map_strip u remarks_val code

lemma erase_scrubbed (code : List α) : erase (scrubbed u code) = scrubbed u (erase code) :=
  map_scrubbed u remarks_val code

/-- **Nor does what `prompt_code` makes of it.** -/
theorem erase_promptText (choice : ℕ → Fin SYLLABLES.length) (tries : ℕ) (code : List α) :
    (promptText u choice tries code).map erase = promptText u choice tries (erase code) := by
  unfold promptText
  rw [← erase_strip, subState_map remarks_val.val (NAME_WITH_LABEL u)
    (f := renameNeutral u choice tries) (k := renameNeutral u choice tries)]
  · simp only [Option.map_map, Function.comp_def]
  · intro s m
    unfold renameNeutral
    have hwhole : erase (m.map val).whole = erase m.whole := by simp [Match.map]
    cases s.bind (neutralName u choice tries) with
    | none => rfl
    | some p =>
      simp only [hwhole]
      rw [write_char]
      simp

end

/-! ### The blank lines a text begins with -/

lemma lead_spec {α : Type} [Cell α] (code : List α) :
    code = lead code ++ code.drop (lead code).length ∧
      ∀ c ∈ lead code, isBlank (val c) = true ∨ val c = '\n' := by
  have hwithin : LEAD.Within fun c => isBlank c = true ∨ c = '\n' :=
    ⟨fun c hc => Or.inl hc, fun c hc => Or.inr (of_decide_eq_true hc)⟩
  have hpre : lead code <+: code ∧ ∀ c ∈ lead code, isBlank (val c) = true ∨ val c = '\n' := by
    unfold lead
    cases hm : LEAD.matchStart code with
    | none => exact ⟨List.nil_prefix, by simp⟩
    | some m =>
      obtain ⟨hpre, hall, -⟩ := first_spec hwithin hm
      exact ⟨hpre, hall⟩
  exact ⟨(List.prefix_iff_eq_append.mp hpre.1).symm, hpre.2⟩

lemma lead_end (code : List Char) : lead code = [] ∨ ∃ front, lead code = front ++ ['\n'] := by
  have hend : ∀ (n : ℕ) (st st' : St Char), st.after.length = n → st' ∈ LEAD.results st →
      st' = st ∨ ∃ before, st'.before = '\n' :: before := by
    intro n
    induction n using Nat.strong_induction_on with
    | _ n ih =>
      intro st st' hn h
      rcases mem_star.mp h with rfl | ⟨mid, hmid, hlt, h⟩
      · exact Or.inl rfl
      · obtain ⟨⟨before, after, groups⟩, -, hline⟩ := mem_seq.mp hmid
        obtain ⟨c, rest, -, hc, rfl⟩ := mem_chr.mp hline
        obtain rfl : c = '\n' := of_decide_eq_true hc
        rcases ih _ (hn ▸ hlt) _ _ rfl h with rfl | hmore
        · exact Or.inr ⟨before, rfl⟩
        · exact Or.inr hmore
  unfold lead Re.matchStart Re.first
  cases hst : (LEAD.results ⟨[], code, []⟩).head? with
  | none => exact Or.inl rfl
  | some st' =>
    have hmem := List.mem_of_head? hst
    have hbefore := (steps_results LEAD.within_true _ st' hmem).upto.2.1
    rw [List.append_nil] at hbefore
    rcases hend _ _ _ rfl hmem with rfl | ⟨before, hnewline⟩
    · exact Or.inl (by simp [St.toMatch, St.upto])
    · refine Or.inr ⟨before.reverse, ?_⟩
      rw [hnewline] at hbefore
      have hwhole := congrArg List.reverse hbefore
      rw [List.reverse_reverse, List.reverse_cons] at hwhole
      exact hwhole.symm

end CSecureBuild.Harness.Scrub
