import CSecureBuild.CLib.Numbers
import CSecureBuild.CLib.Stdio

/-!
`printf` with one string behind its format, for formats that nobody has checked.

A format is read into pieces: bytes that stand for themselves, and directives. Defined is what ISO C
and POSIX define for a `char *`: `%s` with flags, width and precision, `%p`, either of them numbered
(`%1$s`), and `%%`. Any other directive, or a second one that is not numbered, takes for its argument
what is none (`misuses`).
-/

namespace CSecureBuild.CLib.Printf

open CSecureBuild.CLib.Memory CSecureBuild.CLib.Numbers CSecureBuild.CLib.Stdio

/-- The byte of `%`. -/
abbrev percent : UInt8 := 37

/-- The flags `-`, `+`, blank, `#`, `0` and `'`. -/
def isFlag (c : UInt8) : Bool := decide (c = 45 ∨ c = 43 ∨ c = 32 ∨ c = 35 ∨ c = 48 ∨ c = 39)

/-- What may stand between `%` and its conversion: flags, digits, `$` and the point of a precision. -/
def inSpec (c : UInt8) : Bool := isFlag c || isdigit c || decide (c = 36 ∨ c = 46)

/-- A directive. -/
structure Directive where
  /-- All that stands between `%` and the conversion. -/
  text : List UInt8
  /-- The number of its argument, in front of a `$`. -/
  number : Option ℕ
  flags : List UInt8
  width : ℕ
  precision : Option ℕ
  conversion : UInt8

/-- What is printed as it stands, or asks for an argument. -/
inductive Piece where
  | byte (c : UInt8)
  | directive (d : Directive)

/-- The parts of a directive: number, flags, width, precision. -/
def readDirective (text : List UInt8) (conversion : UInt8) : Option Directive :=
  let (number, rest) := match text.dropWhile isdigit with
    | 36 :: rest => (some (decimal (text.takeWhile isdigit)), rest)
    | _ => (none, text)
  let flags := rest.takeWhile isFlag
  let rest := rest.dropWhile isFlag
  let width := decimal (rest.takeWhile isdigit)
  match rest.dropWhile isdigit with
  | [] => some ⟨text, number, flags, width, none, conversion⟩
  | 46 :: digits =>
    if digits.all isdigit then some ⟨text, number, flags, width, some (decimal digits), conversion⟩ else none
  | _ => none

/-- A format in pieces, the directive at its front read up to some text, if one is begun. -/
def readFormat : Option (List UInt8) → List UInt8 → Option (List Piece)
  | none, [] => some []
  | none, c :: format =>
    if c = percent then readFormat (some []) format else (readFormat none format).map (.byte c :: ·)
  | some _, [] => none
  | some text, c :: format =>
    if inSpec c then readFormat (some (text ++ [c])) format
    else if text = [] ∧ c = percent then (readFormat none format).map (.byte c :: ·)
    else do
      let d ← readDirective text c
      let pieces ← readFormat none format
      pure (.directive d :: pieces)

/-- The directives among some pieces. -/
def directives (pieces : List Piece) : List Directive :=
  pieces.filterMap fun
    | .byte _ => none
    | .directive d => some d

/-- A directive that takes the first argument, a `char *`, for what it is. Of the flags, `-` aligns to the
left, and `+` and the blank are for numbers and do nothing. -/
def Directive.TakesString (d : Directive) : Prop :=
  (d.number = none ∨ d.number = some 1) ∧ (∀ c ∈ d.flags, c = 45 ∨ c = 43 ∨ c = 32) ∧
    (d.conversion = 115 ∨ d.conversion = 112 ∧ d.precision = none)

instance (d : Directive) : Decidable d.TakesString := inferInstanceAs (Decidable (_ ∧ _ ∧ _))

/-- Directives for one string: each takes it, and there is one of them, or their argument is named. -/
def ForOne (ds : List Directive) : Prop :=
  (∀ d ∈ ds, d.TakesString) ∧ (ds.length ≤ 1 ∨ ∀ d ∈ ds, d.number = some 1)

instance (ds : List Directive) : Decidable (ForOne ds) := inferInstanceAs (Decidable (_ ∧ _))

/-- A format that is no format, or not one for a string alone. -/
def misuses (format : List UInt8) : Bool :=
  match readFormat none format with
  | none => true
  | some pieces => ¬ ForOne (directives pieces)

/-- What a directive prints: the string up to its precision, filled with blanks up to its width, or the
pointer. -/
def Directive.print (lib : LibC) (text : List UInt8) (d : Directive) : List UInt8 :=
  if d.conversion = 112 then lib.address d.text
  else
    let shown := match d.precision with
      | none => text
      | some n => text.take n
    if 45 ∈ d.flags then shown.rightpad d.width 32 else shown.leftpad d.width 32

/-- What some pieces print. -/
def printed (lib : LibC) (text : List UInt8) (pieces : List Piece) : List UInt8 :=
  pieces.flatMap fun
    | .byte c => [c]
    | .directive d => d.print lib text

/-- A width or a precision that no `int` can hold. -/
def Directive.TooWide (d : Directive) : Prop := intMax < d.width ∨ intMax < d.precision.getD 0

instance (d : Directive) : Decidable d.TooWide := inferInstanceAs (Decidable (_ ∨ _))

/-- `printf` of a format and one string behind it. Where an `int` cannot count what it is to print, the
call fails, and how much it prints before is up to the implementation. -/
def printf (lib : LibC) (format text : List UInt8) : Except Fault (List UInt8) :=
  match readFormat none format with
  | none => .error .badFormat
  | some pieces =>
    if ¬ ForOne (directives pieces) then .error .badFormat
    else if (∃ d ∈ directives pieces, d.TooWide) ∨ intMax < (printed lib text pieces).length then
      pure (lib.overlong format text)
    else pure (printed lib text pieces)

variable {lib : LibC} {format text : List UInt8} {fault : Fault}

/-- **Where `printf` has no defined behaviour.** -/
theorem printf_error_iff :
    printf lib format text = .error fault ↔ misuses format = true ∧ fault = .badFormat := by
  unfold printf misuses
  cases readFormat none format with
  | none => simp [eq_comm]
  | some pieces =>
    by_cases hone : ForOne (directives pieces)
    · simp only [hone, not_true_eq_false, if_false, decide_false, Bool.false_eq_true, false_and, iff_false]
      split_ifs <;> exact nofun
    · simp [hone, eq_comm]

lemma readFormat_string :
    readFormat none (ascii "%s") = some [.directive ⟨[], none, [], 0, none, 115⟩] := by
  have hformat : ascii "%s" = [percent, 115] := by decide
  simp [hformat, percent, readFormat, inSpec, isFlag, isdigit, readDirective, decimal]

lemma misuses_string : misuses (ascii "%s") = false := by
  simp [misuses, readFormat_string, ForOne, directives, Directive.TakesString]

lemma printf_string (h : (text.length : ℤ) ≤ intMax) : printf lib (ascii "%s") text = .ok text := by
  unfold printf
  simp [readFormat_string, ForOne, directives, Directive.TakesString, Directive.TooWide, printed,
    Directive.print, List.leftpad, not_lt.mpr h]

set_option maxRecDepth 10000 in
example : printf lib (ascii "%-4.2s|%%|") (ascii "abc") = .ok (ascii "ab  |%|") := by rfl

example : misuses (ascii "%1$s%1$5s") = false ∧ misuses (ascii "%s%s") = true := by decide +kernel

end CSecureBuild.CLib.Printf
