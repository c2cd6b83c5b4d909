import CSecureBuild.Harness.Scrub

/-!
What `llm-eval/harness/build_items.py` and `build_v2.py` make of a source file and a finding in it: the
functions of the file, the label a function's name gives, and the context of the flagged line with its
number in it.
-/

namespace CSecureBuild.Harness.Items

open CSecureBuild.PyLib.Cells CSecureBuild.PyLib.Regex CSecureBuild.PyLib.Text
open CSecureBuild.Harness.Scrub

/-! ### Functions -/

/-- A function: its name, the first line of its signature and the line of its closing brace. -/
structure Function where
  name : List Char
  start : ℕ
  end_ : ℕ
  deriving DecidableEq

/-- `^` -/
def textStart : Re := .look fun before _ => before.isEmpty

/-- `$` -/
def textEnd : Re := .look fun _ after => after = [] || after = ['\n']

section

variable (u : Unicode)

/-- `SIGNATURE` -/
def SIGNATURE : Re :=
  .seq textStart (.seq (.chr fun c => c.isAlpha || c = '_')
    (.seq (.star false (.chr fun c => u.word c || c = ' ' || c = '\t' || c = '*'))
    (.seq (.group 1 (.plus true (.chr u.word))) (.seq (.star true (.chr u.space))
    (.seq (.chr (· = '(')) (.seq (.star true (.chr (· ≠ ';'))) (.seq (.chr (· = ')'))
    (.seq (.star true (.chr u.space))
    (.seq (.opt (.group 2 (.seq (.chr (· = '\x7b')) restOfLine))) textEnd)))))))))

/-- The words before a parenthesis that name no function. -/
def keywords : List (List Char) :=
  ["if".toList, "for".toList, "while".toList, "switch".toList]

/-- `line.rstrip()` -/
def rstrip (line : List Char) : List Char := line.rdropWhile u.space

/-- One line of `function_spans`: the functions so far, and the one that is open. -/
def spanStep (st : List Function × Option (ℕ × List Char)) (line : List Char) (n : ℕ) :
    List Function × Option (ℕ × List Char) :=
  match st with
  | (spans, none) =>
    match (SIGNATURE u).matchStart line with
    | none => (spans, none)
    | some m =>
      if m.group 1 ∈ keywords then (spans, none)
      else if '\x7b' ∈ line ∧ line.count '\x7b' = line.count '\x7d' then
        (spans ++ [⟨m.group 1, n, n⟩], none)
      else (spans, some (n, m.group 1))
  | (spans, some (start, name)) =>
    if rstrip u line = ['\x7d'] then (spans ++ [⟨name, start, n⟩], none)
    else (spans, some (start, name))

/-- `function_spans` -/
def functionSpans (text : List Char) : List Function :=
  (((splitlines text).zipIdx 1).foldl (fun st line => spanStep u st line.1 line.2) ([], none)).1

end

/-- The lines of a function lie in the lines that were read. -/
def Function.Lies (f : Function) (n : ℕ) : Prop := 1 ≤ f.start ∧ f.start ≤ f.end_ ∧ f.end_ < n

/-- What `function_spans` keeps before its `n`-th line. -/
def SpansOk (n : ℕ) (st : List Function × Option (ℕ × List Char)) : Prop :=
  (∀ f ∈ st.1, f.Lies n) ∧ ∀ p, st.2 = some p → 1 ≤ p.1 ∧ p.1 < n

lemma spansOk_step (u : Unicode) {n : ℕ} (hn : 1 ≤ n) {st : List Function × Option (ℕ × List Char)}
    (h : SpansOk n st) (line : List Char) : SpansOk (n + 1) (spanStep u st line n) := by
  obtain ⟨hspans, hopen⟩ := h
  have hspans : ∀ f ∈ st.1, f.Lies (n + 1) := fun f hf => by
    obtain ⟨h₁, h₂, h₃⟩ := hspans f hf
    exact ⟨h₁, h₂, by omega⟩
  have hadd : ∀ f : Function, f.Lies (n + 1) → ∀ g ∈ st.1 ++ [f], g.Lies (n + 1) := by
    intro f hf g hg
    rcases List.mem_append.mp hg with hg | hg
    · exact hspans g hg
    · rw [List.mem_singleton.mp hg]
      exact hf
  obtain ⟨spans, _ | ⟨start, name⟩⟩ := st
  · simp only [spanStep]
    split
    · exact ⟨hspans, fun p hp => by cases hp⟩
    · split_ifs
      · exact ⟨hspans, fun p hp => by cases hp⟩
      · exact ⟨hadd _ ⟨hn, le_rfl, Nat.lt_succ_self n⟩, fun p hp => by cases hp⟩
      · refine ⟨hspans, fun p hp => ?_⟩
        cases hp
        exact ⟨hn, Nat.lt_succ_self n⟩
  · obtain ⟨h₁, h₂⟩ := hopen (start, name) rfl
    simp only [spanStep]
    split_ifs
    · exact ⟨hadd _ ⟨h₁, h₂.le, Nat.lt_succ_self n⟩, fun p hp => by cases hp⟩
    · refine ⟨hspans, fun p hp => ?_⟩
      cases hp
      exact ⟨h₁, Nat.lt_succ_of_lt h₂⟩

/-- **The spans of a file lie in it.** -/
theorem functionSpans_lies (u : Unicode) (text : List Char) {f : Function}
    (hf : f ∈ functionSpans u text) : f.Lies ((splitlines text).length + 1) := by
  have hfold : ∀ (lines : List (List Char)) (n : ℕ) (st : List Function × Option (ℕ × List Char)),
      1 ≤ n → SpansOk n st →
      SpansOk (n + lines.length) ((lines.zipIdx n).foldl (fun st line => spanStep u st line.1 line.2) st) := by
    intro lines
    induction lines with
    | nil => exact fun _ _ _ h => h
    | cons line rest ih =>
      intro n st hn h
      rw [List.zipIdx_cons, List.foldl_cons, List.length_cons, show n + (rest.length + 1) =
        n + 1 + rest.length by omega]
      exact ih (n + 1) _ (by omega) (spansOk_step u hn h line)
  have hall := (hfold (splitlines text) 1 ([], none) le_rfl ⟨by simp, by simp⟩).1 f hf
  rwa [Nat.add_comm] at hall

/-! ### Labels -/

section

variable (u : Unicode)

/-- `(CWE.*_)?` -/
def cwe : Re := .opt (.group 1 (.seq (.lit "CWE".toList) (.seq restOfLine (.chr (· = '_')))))

/-- `(CWE.+_)?` -/
def cwe1 : Re :=
  .opt (.group 1 (.seq (.lit "CWE".toList) (.seq (.plus true (.chr (· ≠ '\n'))) (.chr (· = '_')))))

/-- `\d*` -/
def digits : Re := .star true (.chr u.digit)

/-- `[BG]?` -/
def sinkKind : Re := .opt (.chr fun c => c = 'B' || c = 'G')

/-- `(_[a-z])?` -/
def letter : Re :=
  .opt (.group 3 (.seq (.chr (· = '_')) (.chr fun c => 'a' ≤ c && c ≤ 'z')))

/-- `(G2B|B2G)?` -/
def flow : Re := .opt (.group 3 (.alt (.lit "G2B".toList) (.lit "B2G".toList)))

/-- `(G2B\d*|B2G\d*)?` -/
def numberedFlow : Re :=
  .opt (.group 2 (.alt (.seq (.lit "G2B".toList) (digits u)) (.seq (.lit "B2G".toList) (digits u))))

/-- A whole name. -/
def whole (parts : List Re) : Re := .seq textStart (parts.foldr .seq textEnd)

/-- `BAD_FUNCS` -/
def BAD_FUNCS : List Re :=
  [whole [cwe, .lit "bad".toList],
    whole [cwe1, .group 2 (.alt (.lit "helperBad".toList) (.seq (.lit "badVaSink".toList) sinkKind))],
    whole [cwe1, .lit "badSource".toList, letter],
    whole [cwe1, .lit "badSink".toList, letter]]

/-- `GOOD_FUNCS` -/
def GOOD_FUNCS : List Re :=
  [whole [cwe, .lit "good".toList],
    whole [.lit "good".toList, .group 1 (.oneOf [.plus true (.chr u.digit),
      .seq (.lit "G2B".toList) (digits u), .seq (.lit "B2G".toList) (digits u)])],
    whole [cwe1, .group 2 (.alt
      (.group 3 (.seq (.lit "helperGood".toList) (.seq flow (digits u))))
      (.group 4 (.seq (.lit "good".toList) (.seq flow (.seq (digits u)
        (.seq (.lit "VaSink".toList) sinkKind))))))],
    whole [cwe1, .lit "good".toList, numberedFlow u, .lit "Source".toList, letter],
    whole [cwe1, .lit "good".toList, numberedFlow u, .lit "Sink".toList, letter]]

/-- The labels. -/
inductive Label where
  | tp
  | fp
  deriving DecidableEq

/-- `juliet_label` -/
def julietLabel (name : List Char) : Option Label :=
  if BAD_FUNCS.any fun p => (p.matchStart name).isSome then some .tp
  else if (GOOD_FUNCS u).any fun p => (p.matchStart name).isSome then some .fp
  else none

end

/-! ### Contexts -/

section

variable {α : Type} [Cell α]

/-- `CONTEXT_LINES_ABOVE` -/
def CONTEXT_LINES_ABOVE : ℕ := 15

/-- `lines[i:j]` -/
def slice (lines : List (List α)) (i j : ℕ) : List (List α) := (lines.take j).drop i

/-- The first line of the context of a function. -/
def contextStart (func : Function) : ℕ := max 1 (func.start - CONTEXT_LINES_ABOVE)

/-- The lines of the context of a function. -/
def contextLines (lines : List (List α)) (func : Function) : List α :=
  (slice lines (contextStart func - 1) func.end_).flatten

/-- `code_context`: the function and some lines above it, and the first line. -/
def codeContext (lines : List (List α)) (func : Function) : List α × ℕ :=
  (capped (contextLines lines func), contextStart func)

/-- The first line of a function that has a label, or 0 if there is none. -/
def firstLabelled (u : Unicode) (spans : List Function) : ℕ :=
  ((spans.filter fun s => (julietLabel u s.name).isSome).map Function.start).min?.getD 0

/-- The lines before the first function that has a label. -/
def preambleOf (u : Unicode) (spans : List Function) (lines : List (List α)) : List (List α) :=
  slice lines 0 (firstLabelled u spans - 1)

/-- The lines of a function. -/
def bodyOf (lines : List (List α)) (func : Function) : List (List α) :=
  slice lines (func.start - 1) func.end_

/-- The context of a finding in `build_v2.py`, and the number of the flagged line in it. -/
def v2Context (u : Unicode) (choice : ℕ → Fin SYLLABLES.length) (tries : ℕ) (spans : List Function)
    (lines : List (List α)) (func : Function) (startLine : ℕ) : Option (List α × ℤ) :=
  (promptCode u choice tries (preambleOf u spans lines) (bodyOf lines func)).map fun (code, trimmed) =>
    let offset : ℤ := (preambleOf u spans lines).length + 1 - trimmed
    (code, offset + startLine - func.start + 1)

end

end CSecureBuild.Harness.Items
