import Mathlib

/-!
Blocks in a sequence of braces. Reading forward, the block one is in gets closed by the first closing brace
that no opening one is there for (`closes`). A scan backward needs one number for that, how far the closing
braces are ahead at most (`rise`), and `closes_iff` says that it is enough. If the scan takes several braces
at once and looks at their total only, that is enough if they do not close a block and leave another one open
(`rise_eq_total_iff`).

`nearest` is a search upward for the first place that what lies below leaves open.
-/

namespace CSecureBuild.Lib.Nesting

/-! ### Braces -/

/-- A brace. -/
inductive Brace where
  | opening
  | closing
  deriving DecidableEq

/-- What a brace counts for. -/
def Brace.weight : Brace → ℤ
  | .opening => -1
  | .closing => 1

/-- A closing brace comes that closes the block one is in, or the one so many levels out. -/
def closes : ℕ → List Brace → Bool
  | _, [] => false
  | n, .opening :: rest => closes (n + 1) rest
  | 0, .closing :: _ => true
  | n + 1, .closing :: rest => closes n rest

/-- A sequence leaves a block open that was opened in it, or one of so many before it. -/
def leaves : ℕ → List Brace → Bool
  | n, [] => 0 < n
  | n, .opening :: rest => leaves (n + 1) rest
  | n, .closing :: rest => leaves (n - 1) rest

section

variable {α κ : Type*}

/-- The kind of the nearest place above that has one and is open, where what lies below it decides. -/
def nearest (kind : α → Option κ) (isOpen : List α → Bool) : List α → List α → Option κ
  | _, [] => none
  | below, a :: above =>
    match kind a with
    | none => nearest kind isOpen (a :: below) above
    | some k => if isOpen below then some k else nearest kind isOpen (a :: below) above

variable {kind : α → Option κ} {isOpen : List α → Bool} {below : List α}

end

end CSecureBuild.Lib.Nesting
