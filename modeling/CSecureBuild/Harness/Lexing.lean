import CSecureBuild.Harness.Linewise

/-!
What `COMMENT` matches (`comment_first`), and C's lexical structure. A text of C is read once from left to
right, as a list of elements (`Element`): comments, string and character literals, and other characters. The
reader does not see line splices, so an element may go over a line end behind a backslash.
-/

namespace CSecureBuild.Harness.Lexing

open CSecureBuild.PyLib.Cells CSecureBuild.PyLib.Regex CSecureBuild.PyLib.Text
open CSecureBuild.Harness.Scrub CSecureBuild.Harness.Patterns CSecureBuild.Harness.Linewise

/-! ### What `COMMENT` matches -/

section

variable {before rest body : List Char}

lemma comment_none (hline : ¬ "//".toList <+: rest) (hblock : ¬ "/*".toList <+: rest) :
    COMMENT.first before rest = none := by
  rw [first_eq, COMMENT, head_alt, head_lit_seq_none hline, head_lit_seq_none hblock]
  rfl

lemma comment_line (before : List Char) (hbody : ∀ c ∈ body, c ≠ '\n') (hrest : ∀ c ∈ rest.head?, c = '\n') :
    ∃ m, COMMENT.first before ("//".toList ++ body ++ rest) = some m ∧
      m.whole = "//".toList ++ body := by
  have hrun : restOfLine.head ⟨"//".toList.reverse ++ before, body ++ rest, []⟩ =
      some ⟨body.reverse ++ ("//".toList.reverse ++ before), rest, []⟩ :=
    head_star_run (fun c hc => by simpa using hbody c hc) fun c hc => by simpa using hrest c hc
  have hhead : COMMENT.head ⟨before, "//".toList ++ body ++ rest, []⟩ =
      some ⟨body.reverse ++ ("//".toList.reverse ++ before), rest, []⟩ := by
    rw [COMMENT, head_alt, List.append_assoc, head_lit_seq, hrun]
    rfl
  obtain ⟨m, hfirst, hwhole, -⟩ := first_of_head hhead
  exact ⟨m, hfirst, hwhole⟩

lemma comment_block (before rest : List Char) (hbody : ¬ "*/".toList <:+: body) :
    ∃ m, COMMENT.first before ("/*".toList ++ body ++ "*/".toList ++ rest) = some m ∧
      m.whole = "/*".toList ++ body ++ "*/".toList := by
  have hend : ∀ a b, body = a ++ b → b ≠ [] → ¬ "*/".toList <+: b ++ "*/".toList ++ rest := by
    rintro a b rfl hb ⟨more, hmore⟩
    match b, hb with
    | [c], _ =>
      have hslash : some '/' = some '*' := congrArg (fun l => l[1]?) hmore
      exact absurd hslash (by decide)
    | c :: d :: b, _ =>
      have htwo : c = '*' ∧ d = '/' := by
        have := congrArg (List.take 2) hmore
        simpa [eq_comm] using this
      refine hbody ⟨a, b, ?_⟩
      rw [htwo.1, htwo.2]
      simp
  have hhead : COMMENT.head ⟨before, "/*".toList ++ (body ++ "*/".toList ++ rest), []⟩ =
      some ⟨(body ++ "*/".toList).reverse ++ ("/*".toList.reverse ++ before), rest, []⟩ := by
    have hline : ¬ "//".toList <+: "/*".toList ++ (body ++ "*/".toList ++ rest) := by
      rintro ⟨more, hmore⟩
      have := congrArg (fun l => l[1]?) hmore
      simp at this
    rw [COMMENT, head_alt, head_lit_seq_none hline, head_lit_seq, head_until hend]
    rfl
  have heq : "/*".toList ++ (body ++ "*/".toList ++ rest) =
      "/*".toList ++ body ++ "*/".toList ++ rest := by simp
  rw [heq] at hhead
  obtain ⟨m, hfirst, hwhole, -⟩ := first_of_head hhead
  exact ⟨m, hfirst, hwhole⟩

lemma exists_first {pattern text : List Char} (h : pattern <:+: text) :
    ∃ front rest, text = front ++ (pattern ++ rest) ∧
      ∀ a b, front = a ++ b → b ≠ [] → ¬ pattern <+: b ++ (pattern ++ rest) := by
  induction text with
  | nil =>
    obtain rfl := List.infix_nil.mp h
    exact ⟨[], [], rfl, fun a b hab hb => absurd (List.append_eq_nil_iff.mp hab.symm).2 hb⟩
  | cons c text ih =>
    by_cases hpre : pattern <+: c :: text
    · obtain ⟨rest, hrest⟩ := hpre
      exact ⟨[], rest, hrest.symm, fun a b hab hb => absurd (List.append_eq_nil_iff.mp hab.symm).2 hb⟩
    · obtain ⟨front, rest, rfl, hfirst⟩ := ih ((List.infix_cons_iff.mp h).resolve_left hpre)
      refine ⟨c :: front, rest, rfl, fun a b hab hb => ?_⟩
      cases a with
      | nil =>
        obtain rfl : c :: front = b := hab
        exact hpre
      | cons d a => exact hfirst a b (List.cons.inj hab).2 hb

/-- `COMMENT` matches at a position. -/
def commentAt (after : List Char) : Bool :=
  "//".toList.isPrefixOf after ||
    "/*".toList.isPrefixOf after && decide ("*/".toList <:+: after.drop 2)

lemma commentAt_cons {c : Char} (hc : c ≠ '/') (after : List Char) : commentAt (c :: after) = false := by
  simp [commentAt, List.isPrefixOf, Ne.symm hc]

lemma commentAt_slash {after : List Char} (h : ∀ d ∈ after.head?, d ≠ '/' ∧ d ≠ '*') :
    commentAt ('/' :: after) = false := by
  cases after with
  | nil => rfl
  | cons d after =>
    obtain ⟨h₁, h₂⟩ := h d rfl
    simp [commentAt, List.isPrefixOf, Ne.symm h₁, Ne.symm h₂]

lemma commentAt_iff {after : List Char} : commentAt after = true ↔
    "//".toList <+: after ∨ "/*".toList <+: after ∧ "*/".toList <:+: after.drop 2 := by
  simp [commentAt, List.isPrefixOf_iff_prefix]

lemma commentAt_append {after : List Char} (h : commentAt after = true) (more : List Char) :
    commentAt (after ++ more) = true := by
  rw [commentAt_iff] at h ⊢
  refine h.imp (fun hline => hline.trans (List.prefix_append _ _)) fun ⟨hopen, hclosed⟩ => ?_
  obtain ⟨text, rfl⟩ := hopen
  exact ⟨⟨text ++ more, by simp⟩, hclosed.trans (List.prefix_append text more).isInfix⟩

/-- A comment: it goes up to the end of the line, or to the first terminator. -/
lemma comment_shape (h : commentAt rest = true) :
    (∃ body more, (∀ c ∈ body, c ≠ '\n') ∧ (∀ c ∈ more.head?, c = '\n') ∧
      rest = "//".toList ++ body ++ more) ∨
    ∃ body more, ¬ "*/".toList <:+: body ∧ rest = "/*".toList ++ body ++ "*/".toList ++ more := by
  rcases commentAt_iff.mp h with ⟨text, rfl⟩ | ⟨⟨text, rfl⟩, hclosed⟩
  · exact Or.inl ⟨firstLine text, otherLines text, flat_firstLine text, head_otherLines text, by
      rw [List.append_assoc, firstLine_append]⟩
  · obtain ⟨body, more, (hbody : text = _), hfirst⟩ := exists_first hclosed
    refine Or.inr ⟨body, more, ?_, by rw [hbody]; simp⟩
    rintro ⟨a, b, rfl⟩
    exact hfirst a ("*/".toList ++ b) (by simp) (by simp) ⟨b ++ ("*/".toList ++ more), by simp⟩

lemma comment_found (before : List Char) (h : commentAt rest = true) :
    ∃ m, COMMENT.first before rest = some m ∧ m.whole ≠ [] := by
  rcases comment_shape h with ⟨body, more, hbody, hmore, rfl⟩ | ⟨body, more, hbody, rfl⟩
  · obtain ⟨m, hm, hwhole⟩ := comment_line before hbody hmore
    exact ⟨m, hm, by simp [hwhole]⟩
  · obtain ⟨m, hm, hwhole⟩ := comment_block before more hbody
    exact ⟨m, hm, by simp [hwhole]⟩

/-- **What `COMMENT` matches**: two slashes, or an opening that is closed. -/
theorem comment_first : COMMENT.first before rest = none ↔ commentAt rest = false := by
  constructor
  · intro hnone
    by_contra hat
    obtain ⟨m, hm, -⟩ := comment_found before (Bool.eq_true_of_not_eq_false hat)
    rw [hnone] at hm
    cases hm
  · intro hat
    rw [← Bool.not_eq_true, commentAt_iff, not_or, not_and] at hat
    obtain ⟨hline, hblock⟩ := hat
    by_cases hopen : "/*".toList <+: rest
    · obtain ⟨text, rfl⟩ := hopen
      have hunclosed : ¬ "*/".toList <:+: text := hblock ⟨text, rfl⟩
      have hlazy : (Re.seq (.star false (.chr fun _ => true)) (.lit "*/".toList)).head
          ⟨"/*".toList.reverse ++ before, text, []⟩ = none := by
        rw [Re.head, List.head?_eq_none_iff, List.eq_nil_iff_forall_not_mem]
        intro st' h
        obtain ⟨mid, hmid, h⟩ := mem_seq.mp h
        obtain ⟨w, more, rfl, -, rfl⟩ := mem_star_chr.mp hmid
        obtain ⟨more, rfl, -⟩ := mem_lit_char.mp h
        exact hunclosed ⟨w, more, by simp⟩
      rw [first_eq, COMMENT, head_alt, head_lit_seq_none hline, head_lit_seq, hlazy]
      rfl
    · exact comment_none hline hopen

end

/-! ### Elements -/

/-- A text without its line splices: a backslash goes with the line end behind it. -/
def unsplice : List Char → List Char
  | [] => []
  | [c] => [c]
  | c :: d :: rest => if c = '\\' ∧ d = '\n' then unsplice rest else c :: unsplice (d :: rest)

lemma unsplice_cons {c : Char} (hc : c ≠ '\\') (rest : List Char) : unsplice (c :: rest) = c :: unsplice rest := by
  cases rest with
  | nil => rfl
  | cons d rest => exact if_neg fun h => hc h.1

lemma unsplice_flat {text : List Char} (h : '\n' ∉ text) : unsplice text = text := by
  induction text with
  | nil => rfl
  | cons c rest ih =>
    cases rest with
    | nil => rfl
    | cons d rest =>
      have hd : d ≠ '\n' := fun heq => h (by simp [heq])
      rw [unsplice, if_neg fun hsplice => hd hsplice.2, ih fun hmem => h (List.mem_cons_of_mem c hmem)]

lemma unsplice_append {w rest : List Char} (h : ∀ c ∈ rest.head?, c ≠ '\n') :
    unsplice (w ++ rest) = unsplice w ++ unsplice rest := by
  induction w using unsplice.induct with
  | case1 => rfl
  | case2 c =>
    cases rest with
    | nil => rfl
    | cons d rest => exact if_neg fun hsplice => h d rfl hsplice.2
  | case3 c d w hsplice ih =>
    rw [unsplice, if_pos hsplice]
    exact (if_pos hsplice).trans ih
  | case4 c d w hkeep ih =>
    rw [unsplice, if_neg hkeep]
    exact (if_neg hkeep).trans (congrArg (c :: ·) ih)

/-- The lexical elements of C, as far as they matter to comments. -/
inductive Element where
  /-- What stands between the two slashes of a comment. -/
  | block (inner : List Char)
  /-- What stands behind the first slash of a comment. -/
  | line (inner : List Char)
  | str (body : List Char)
  | chr (body : List Char)
  | other (c : Char)
  deriving DecidableEq

/-- The text of an element. -/
def Element.text : Element → List Char
  | .block inner => '/' :: (inner ++ ['/'])
  | .line inner => '/' :: inner
  | .str body => '"' :: (body ++ ['"'])
  | .chr body => '\x27' :: (body ++ ['\x27'])
  | .other c => [c]

/-- The element is a comment. -/
def Element.isComment : Element → Bool
  | .block _ => true
  | .line _ => true
  | _ => false

/-- The element is a literal. -/
def Element.isLiteral : Element → Bool
  | .str _ => true
  | .chr _ => true
  | _ => false

/-- The text of some elements. -/
def source (es : List Element) : List Char := es.flatMap Element.text

/-- An element is what a reader of C takes first from its text and what is behind it. -/
def Element.Fits : Element → List Char → Prop
  | .block inner, _ => ∃ body, unsplice inner = '*' :: (body ++ ['*']) ∧ ¬ "*/".toList <:+: body
  | .line inner, after => (∃ body, unsplice inner = '/' :: body ∧ '\n' ∉ body) ∧
      ∀ c ∈ after.head?, c = '\n' ∧ inner.getLast? ≠ some '\\'
  | .str body, _ => Units '"' (unsplice body)
  | .chr body, _ => Units '\x27' (unsplice body)
  | .other c, after =>
    c ≠ '"' ∧ c ≠ '\x27' ∧ (c = '/' → ∀ d ∈ (unsplice after).head?, d ≠ '/' ∧ d ≠ '*')

/-- The elements are those a reader of C takes from their text. -/
def Lexed : List Element → Prop
  | [] => True
  | e :: es => e.Fits (source es) ∧ Lexed es

/-- The text without its comments: each leaves its newlines. -/
def uncommented (es : List Element) : List Char :=
  es.flatMap fun e => if e.isComment then newlines e.text else e.text

/-- What stands between the comments. -/
def outside : List Element → List (List Char)
  | [] => [[]]
  | e :: es =>
    if e.isComment then [] :: outside es
    else
      match outside es with
      | [] => [e.text]
      | run :: runs => (e.text ++ run) :: runs

/-- There is no label word outside the comments. -/
def LabelFree (u : Unicode) (es : List Element) : Prop := ∀ run ∈ outside es, Clean u run

/-- `COMMENT` matches nowhere in a literal of some elements that have a text behind them. -/
def SeparateIn (rest : List Char) : List Element → Prop
  | [] => True
  | e :: es =>
    (e.isLiteral = true → ∀ k < e.text.length, commentAt (e.text.drop k ++ (source es ++ rest)) = false) ∧
      SeparateIn rest es

/-- `COMMENT` matches nowhere in a literal. -/
def Separate : List Element → Prop := SeparateIn []

/-- `COMMENT` does not see splices. It takes a comment as it is if its delimiters have none, and each of its
lines begins with two slashes or is empty if it is a line comment. -/
def Element.Legible : Element → Prop
  | .block inner => ∃ body, inner = '*' :: (body ++ ['*'])
  | .line inner => ∀ l ∈ lines ('/' :: inner), l = [] ∨ "//".toList <+: l
  | _ => True

lemma source_append (es fs : List Element) : source (es ++ fs) = source es ++ source fs := List.flatMap_append

lemma SeparateIn.cut {x y : List Char} {es : List Element} (h : SeparateIn (x ++ y) es) : SeparateIn x es := by
  induction es with
  | nil => trivial
  | cons e es ih =>
    refine ⟨fun hl k hk => ?_, ih h.2⟩
    have hnot := h.1 hl k hk
    by_contra hat
    have hlong := commentAt_append (Bool.eq_true_of_not_eq_false hat) y
    rw [List.append_assoc, List.append_assoc] at hlong
    rw [hlong] at hnot
    cases hnot

/-! ### A terminator before any opening -/

/-- The test of `scrub` for a text that begins in a comment: a terminator before any opening. -/
def opened (code : List Char) : Bool :=
  match find "*/".toList code, find "/*".toList code with
  | some close, some opened => close < opened
  | some _, none => true
  | none, _ => false

lemma dropOpened_of_not_opened {code : List Char} (h : opened code = false) : dropOpened code = code := by
  unfold opened at h
  unfold dropOpened
  split
  · next hclose hopened =>
    rw [hclose, hopened] at h
    rw [if_neg (of_decide_eq_false h)]
  · next hclose hopened =>
    rw [hclose, hopened] at h
    cases h
  · rfl

end CSecureBuild.Harness.Lexing
