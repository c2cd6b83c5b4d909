import CSecureBuild.Harness.Comments

/-!
How long a literal is. `scrub` and `prompt_code` put a literal in the place of one with a label word, with
as many characters between the quotes. What a literal denotes is another matter: an escape is one element, and
a character of a narrow literal is as many as it has bytes (`elements`).

`literal_length` is about the literals of a text of C: on the condition that the expressions see one as C does
(`Visible`), it says which are the literals that keep their length.
-/

namespace CSecureBuild.Harness.Literals

open CSecureBuild.PyLib.Cells CSecureBuild.PyLib.Regex CSecureBuild.PyLib.Text CSecureBuild.PyLib.Words
open CSecureBuild.Harness.Scrub CSecureBuild.Harness.Patterns CSecureBuild.Harness.Lexing
open CSecureBuild.Harness.Linewise CSecureBuild.Harness.Reading CSecureBuild.Harness.Renaming
open CSecureBuild.Harness.Comments

/-! ### What a literal denotes -/

/-- The kinds of literals. -/
inductive Width where
  | narrow
  | wide

/-- The number of elements of a character: its bytes in UTF-8, or one `wchar_t`. -/
def Width.size : Width → Char → ℕ
  | .narrow, c => c.utf8Size
  | .wide, _ => 1

/-- Where a reader of a literal is: outside an escape, behind a backslash, in an octal escape that may
have so many more digits, in a hexadecimal one, or in the number of a character, of which so many digits are to
come. -/
inductive Place where
  | outside
  | escape
  | octal (left : ℕ)
  | hex
  | code (left value : ℕ)

/-- A hexadecimal digit. -/
def isHex (c : Char) : Bool := c.isDigit || ('a' ≤ c && c ≤ 'f') || ('A' ≤ c && c ≤ 'F')

/-- The value of a hexadecimal digit. -/
def hexValue (c : Char) : ℕ :=
  if c.isDigit then c.toNat - '0'.toNat
  else if 'a' ≤ c then c.toNat - 'a'.toNat + 10 else c.toNat - 'A'.toNat + 10

/-- An octal digit. -/
def isOctal (c : Char) : Bool := '0' ≤ c && c ≤ '7'

/-- How many elements a character outside an escape adds, and where the reader is behind it. -/
def plainStep (width : Width) (c : Char) : ℕ × Place :=
  if c = '\\' then (0, .escape) else (width.size c, .outside)

/-- The same for the character behind a backslash. -/
def escapeStep (c : Char) : ℕ × Place :=
  if c = 'x' then (1, .hex)
  else if c = 'u' then (0, .code 4 0)
  else if c = 'U' then (0, .code 8 0)
  else if isOctal c then (1, .octal 2)
  else (1, .outside)

/-- The same anywhere. -/
def step (width : Width) (c : Char) : Place → ℕ × Place
  | .outside => plainStep width c
  | .escape => escapeStep c
  | .octal 0 => plainStep width c
  | .octal (left + 1) => if isOctal c then (0, .octal left) else plainStep width c
  | .hex => if isHex c then (0, .hex) else plainStep width c
  | .code 0 _ => plainStep width c
  | .code (left + 1) value =>
    if isHex c then
      if left = 0 then (width.size (Char.ofNat (16 * value + hexValue c)), .outside)
      else (0, .code left (16 * value + hexValue c))
    else plainStep width c

/-- How many elements each character of what is left of a literal adds. -/
def added (width : Width) : Place → List Char → List ℕ
  | _, [] => []
  | place, c :: rest => (step width c place).1 :: added width (step width c place).2 rest

/-- The number of elements that the text between the quotes of a literal denotes. -/
def elements (width : Width) (body : List Char) : ℕ := (added width .outside body).sum

/-- How many characters of a literal add none: those of its escapes, but one of each. -/
def spent (width : Width) (body : List Char) : ℕ := (added width .outside body).count 0

/-- How many elements its characters have beyond one. -/
def extra (width : Width) (body : List Char) : ℕ := ((added width .outside body).map (· - 1)).sum

variable {width : Width} {body rest : List Char}

lemma length_added (place : Place) (rest : List Char) : (added width place rest).length = rest.length := by
  induction rest generalizing place with
  | nil => rfl
  | cons c rest ih => exact congrArg (· + 1) (ih _)

lemma sum_count (l : List ℕ) : l.sum + l.count 0 = l.length + (l.map (· - 1)).sum := by
  induction l with
  | nil => rfl
  | cons n l ih =>
    rw [List.sum_cons, List.count_cons, List.length_cons, List.map_cons, List.sum_cons]
    cases n with
    | zero =>
      rw [if_pos (by rfl)]
      omega
    | succ n =>
      rw [if_neg (by simp)]
      omega

/-- **A literal has as many elements as characters** exactly if its escapes have as many characters too many as
its other characters have bytes. -/
theorem elements_eq_length_iff : elements width body = body.length ↔ extra width body = spent width body := by
  have h := sum_count (added width .outside body)
  rw [length_added] at h
  unfold elements extra spent
  omega

lemma size_le (width : Width) (c : Char) : width.size c ≤ 4 := by
  cases width with
  | narrow => exact c.utf8Size_le_four
  | wide => exact Nat.one_le_ofNat

/-- How many elements more than characters there may be behind a place. -/
def slack : Place → ℕ
  | .code left _ => 4 - left
  | _ => 0

lemma plainStep_le {c : Char} (hc : width.size c = 1) :
    (plainStep width c).1 + slack (plainStep width c).2 ≤ 1 := by
  unfold plainStep
  split_ifs
  · exact Nat.zero_le 1
  · exact hc.le

lemma step_le {c : Char} (hc : width.size c = 1) (place : Place) :
    (step width c place).1 + slack (step width c place).2 ≤ slack place + 1 := by
  have hplain := plainStep_le hc
  cases place with
  | outside => exact hplain
  | escape =>
    show (escapeStep c).1 + slack (escapeStep c).2 ≤ 1
    unfold escapeStep
    split_ifs <;> exact le_of_eq_of_le rfl (by decide)
  | octal left =>
    cases left with
    | zero => exact hplain
    | succ left =>
      simp only [step]
      split_ifs
      · exact Nat.zero_le _
      · exact hplain
  | hex =>
    simp only [step]
    split_ifs
    · exact Nat.zero_le _
    · exact hplain
  | code left value =>
    cases left with
    | zero => exact hplain.trans (Nat.le_add_left _ _)
    | succ left =>
      simp only [step]
      split_ifs with hhex hlast
      · have hsize := size_le width (Char.ofNat (16 * value + hexValue c))
        subst hlast
        exact hsize
      · show 0 + (4 - left) ≤ 4 - (left + 1) + 1
        omega
      · exact hplain.trans (Nat.le_add_left _ _)

lemma sum_added_le (h : ∀ c ∈ rest, width.size c = 1) (place : Place) :
    (added width place rest).sum ≤ rest.length + slack place := by
  induction rest generalizing place with
  | nil => exact Nat.zero_le _
  | cons c rest ih =>
    rw [List.forall_mem_cons] at h
    have hstep := step_le h.1 place
    have hrest := ih h.2 (step width c place).2
    rw [added, List.sum_cons, List.length_cons]
    omega

/-- If every character is one element, these are the literals without escapes. -/
theorem elements_eq_length (h : Units '"' body) (hsize : ∀ c ∈ body, width.size c = 1) :
    elements width body = body.length ↔ '\\' ∉ body := by
  unfold elements
  induction h with
  | nil => simp [added]
  | @char c rest _ hescape _ _ ih =>
    rw [List.forall_mem_cons] at hsize
    have hstep : step width c .outside = (1, .outside) := by
      show plainStep width c = _
      rw [plainStep, if_neg hescape, hsize.1]
    rw [added, hstep, List.sum_cons, List.length_cons, Nat.add_comm, Nat.add_right_cancel_iff, ih hsize.2,
      List.mem_cons, not_or]
    exact (and_iff_right (Ne.symm hescape)).symm
  | @escape c rest _ _ _ =>
    rw [List.forall_mem_cons, List.forall_mem_cons] at hsize
    have hstep : (step width c .escape).1 + slack (step width c .escape).2 ≤ 1 := step_le hsize.2.1 .escape
    have hrest := sum_added_le hsize.2.2 (step width c .escape).2
    have hsum : (added width .outside ('\\' :: c :: rest)).sum =
        (step width c .escape).1 + (added width (step width c .escape).2 rest).sum := by
      rw [added, show step width '\\' .outside = (0, .escape) from rfl, List.sum_cons, Nat.zero_add, added,
        List.sum_cons]
    refine iff_of_false ?_ fun hmem => hmem List.mem_cons_self
    rw [hsum, List.length_cons, List.length_cons]
    omega

lemma elements_crosses (width : Width) (n : ℕ) : elements width (List.replicate n 'x') = n := by
  have hstep : step width 'x' .outside = (1, .outside) := by cases width <;> rfl
  unfold elements
  induction n with
  | zero => rfl
  | succ n ih => rw [List.replicate_succ, added, hstep, List.sum_cons, ih, Nat.add_comm]

/-! ### A text up to a literal -/

/-- The quotes of a line come in pairs with a literal between them. -/
inductive Paired : List Char → Prop where
  | nil : Paired []
  | char {c : Char} {rest : List Char} (hc : c ≠ '"') (tail : Paired rest) : Paired (c :: rest)
  | literal {body rest : List Char} (hbody : Units '"' body) (tail : Paired rest) :
      Paired ('"' :: (body ++ '"' :: rest))

variable {u : Unicode} {line front seen text : List Char}

lemma Paired.overwritten {out : List Char} (h : Paired line) (tail : Overwritten u rest out) :
    ∃ shown, Overwritten u line shown ∧ Overwritten u (line ++ rest) (shown ++ out) := by
  induction h with
  | nil => exact ⟨[], .nil, tail⟩
  | @char c line hc _ ih =>
    obtain ⟨shown, halone, hboth⟩ := ih
    exact ⟨c :: shown, .char hc halone, .char hc hboth⟩
  | @literal body line hbody _ ih =>
    obtain ⟨shown, halone, hboth⟩ := ih
    refine ⟨'"' :: (shownBody u body ++ '"' :: shown), .literal hbody halone, ?_⟩
    have htext : '"' :: (body ++ '"' :: line) ++ rest = '"' :: (body ++ '"' :: (line ++ rest)) := by simp
    have hout : '"' :: (shownBody u body ++ '"' :: shown) ++ out =
        '"' :: (shownBody u body ++ '"' :: (shown ++ out)) := by simp
    rw [htext, hout]
    exact .literal hbody hboth

/-- Behind pairs of quotes a literal is overwritten. -/
lemma blankStrings_paired (h : Paired line) (hbody : Units '"' body) (rest : List Char) :
    blankStrings u (line ++ '"' :: (body ++ '"' :: rest)) =
      blankStrings u line ++ '"' :: (shownBody u body ++ '"' :: blankStrings u rest) := by
  have hliteral : Overwritten u ('"' :: (body ++ '"' :: rest))
      ('"' :: (shownBody u body ++ '"' :: blankStrings u rest)) := .literal hbody (overwritten_iff.mpr rfl)
  obtain ⟨shown, halone, hboth⟩ := h.overwritten hliteral
  rw [← overwritten_iff.mp halone]
  exact (overwritten_iff.mp hboth).symm

lemma blankStrings_line (h : '\n' ∉ line) (rest : List Char) :
    blankStrings u (line ++ '\n' :: rest) = blankStrings u line ++ '\n' :: blankStrings u rest := by
  refine eq_of_lines ?_
  rw [lines_blankStrings, lines_line h, lines_line (flat_blankStrings h), lines_blankStrings, List.map_cons]

lemma directive_append (h : Directive line) (more : List Char) : Directive (line ++ more) := by
  obtain ⟨a, x, rfl, ha, homit⟩ := directive_iff.mp h
  refine directive_iff.mpr ⟨a, x ++ more, by simp, ha, ?_⟩
  exact homit.imp (fun h => h.trans (List.prefix_append _ _).isInfix)
    fun h => h.trans (List.prefix_append _ _).isInfix

/-- **The steps behind the comments** leave what they make of the text before a literal, and the literal as it is
shown. -/
theorem strings_upto (hbody : Units '"' body) (hpaired : Paired (lastLine front))
    (hline : ¬ Directive (lastLine front ++ '"' :: (body ++ '"' :: firstLine seen))) :
    ∃ back, blankStrings u (dropDirectives (front ++ '"' :: (body ++ '"' :: seen))) =
      blankStrings u (dropDirectives front) ++ '"' :: (shownBody u body ++ '"' :: back) := by
  induction front using line_induction with
  | last line hflat =>
    rw [lastLine_last hflat] at hpaired hline
    have hwhole : '\n' ∉ line ++ '"' :: (body ++ '"' :: firstLine seen) := by
      simp only [List.mem_append, List.mem_cons, not_or]
      exact ⟨hflat, by decide, fun h => hbody.flat _ h rfl, by decide, fun h => flat_firstLine seen _ h rfl⟩
    have hshort : ¬ Directive line := fun h => hline (directive_append h _)
    have hleft : dropDirectives line = line := by rw [dropDirectives_last hflat, dropLine, if_neg hshort]
    have htext : line ++ '"' :: (body ++ '"' :: seen) =
        (line ++ '"' :: (body ++ '"' :: firstLine seen)) ++ otherLines seen := by
      conv_lhs => rw [← firstLine_append seen]
      simp
    rw [hleft, htext]
    cases hother : otherLines seen with
    | nil =>
      rw [List.append_nil, dropDirectives_last hwhole, dropLine, if_neg hline, blankStrings_paired hpaired hbody]
      exact ⟨_, rfl⟩
    | cons c more =>
      obtain rfl : c = '\n' := head_otherLines seen c (by rw [hother]; rfl)
      rw [dropDirectives_line hwhole, dropLine, if_neg hline, blankStrings_line hwhole,
        blankStrings_paired hpaired hbody]
      exact ⟨blankStrings u (firstLine seen) ++ '\n' :: blankStrings u (dropDirectives more), by simp⟩
  | step line rest hflat ih =>
    rw [lastLine_line hflat] at hpaired hline
    obtain ⟨back, hback⟩ := ih hpaired hline
    refine ⟨back, ?_⟩
    rw [List.append_assoc, List.cons_append, dropDirectives_line hflat, dropDirectives_line hflat,
      blankStrings_line (flat_dropLine hflat), blankStrings_line (flat_dropLine hflat), hback]
    simp

/-! ### Renaming up to a literal -/

section

variable {σ : Type} (f : σ → Match Char → σ × List Char)

lemma renameToks_append (s : σ) (ts us : List Tok) :
    renameToks f s (ts ++ us) =
      ((renameToks f (renameToks f s ts).1 us).1,
        (renameToks f s ts).2 ++ (renameToks f (renameToks f s ts).1 us).2) := by
  induction ts generalizing s with
  | nil => rfl
  | cons t ts ih =>
    cases t with
    | sep c => simp only [List.cons_append, renameToks, ih]
    | word w =>
      simp only [List.cons_append, renameToks]
      split_ifs
      · simp only [ih, List.cons_append]
      · simp only [ih, List.cons_append]

/-- **The renaming** leaves what it makes of the text before a literal, and a literal without label words. -/
theorem rename_upto (s : σ) (front back : List Char) (hbody : Clean u body) :
    ∃ ts more, (NAME_WITH_LABEL u).subState f s (front ++ '"' :: (body ++ '"' :: back)) =
      ((renameToks f ((NAME_WITH_LABEL u).subState f s front).1 ts).1,
        ((NAME_WITH_LABEL u).subState f s front).2 ++ '"' :: (body ++ '"' :: more)) := by
  have hquote : u.word '"' = false := not_word (by decide)
  have hsame : ∀ s : σ, renameToks f s (toks u.word body) = (s, toks u.word body) := fun s =>
    renameToks_same f s fun w hw => hbody.not_hasLabel (part_of_mem_toks hw)
  refine ⟨toks u.word back, render (renameToks f ((NAME_WITH_LABEL u).subState f s front).1 (toks u.word back)).2, ?_⟩
  simp only [name_subState, toks_append hquote, renameToks_append, renameToks, hsame, render_append, render_cons,
    render_toks, Tok.text, List.singleton_append]

end

/-! ### The literals of a text of C -/

/-- The expressions see a literal as C does: `COMMENT` takes the comments before it as they are and finds none in the
literals up to it, no line end is in it, and before it the quotes of its line come in pairs. -/
structure Visible (pre : List Element) (body : List Char) (post : List Element) : Prop where
  comments : SeenIn (source (.str body :: post)) pre
  whole : SeparateIn (source post) [.str body]
  flat : '\n' ∉ body
  paired : Paired (lastLine (uncommented pre))

/-- Its line is a directive with a label, which goes as a whole. -/
def OnDirective (pre : List Element) (body : List Char) (post : List Element) : Prop :=
  ∃ seen, Uncommented (source post) seen ∧
    Directive (lastLine (uncommented pre) ++ '"' :: (body ++ '"' :: firstLine seen))

/-- What stands for a literal: a literal right behind what is made of the text before it, in what `scrub` makes of
the text before it looks at it, and in what `prompt_code` makes of the text before it trims and cuts it. -/
structure Replaced (u : Unicode) (pre : List Element) (body : List Char) (post : List Element)
    (body' : List Char) : Prop where
  units : Units '"' body'
  scrub : scrubbed u (source pre) ++ '"' :: (body' ++ ['"']) <+: scrubbed u (source (pre ++ .str body :: post))
  prompt : ∀ choice tries out, promptText u choice tries (source (pre ++ .str body :: post)) = some out →
    ∃ front, promptText u choice tries (source pre) = some front ∧ front ++ '"' :: (body' ++ ['"']) <+: out

variable {pre post : List Element} {body' : List Char}

lemma Replaced.unique {body'' : List Char} (h : Replaced u pre body post body')
    (h' : Replaced u pre body post body'') : body' = body'' := by
  obtain ⟨rest, hrest⟩ := h.scrub
  obtain ⟨rest', hrest'⟩ := h'.scrub
  rw [List.append_assoc] at hrest hrest'
  have heq := List.append_cancel_left (hrest.trans hrest'.symm)
  have hbodies : body' ++ '"' :: rest = body'' ++ '"' :: rest' := by simpa using heq
  exact (literal_inj h.units h'.units hbodies).1

lemma Visible.units (hlex : Lexed (pre ++ .str body :: post)) (hvisible : Visible pre body post) :
    Units '"' body := by
  have hfits : Units '"' (unsplice body) := (lexed_right hlex).1
  rwa [unsplice_flat hvisible.flat] at hfits

/-- The steps before the renaming. -/
lemma strip_upto (hlex : Lexed (pre ++ .str body :: post)) (hvisible : Visible pre body post)
    (hline : ¬ OnDirective pre body post) :
    ∃ back, strip u (source (pre ++ .str body :: post)) =
      strip u (source pre) ++ '"' :: (shownBody u body ++ '"' :: back) := by
  -- without comments, the text before the literal is the beginning of the text
  have hcut : SeenIn [] pre := SeenIn.cut (x := []) hvisible.comments
  have hleft := dropComments_upto hlex (by simp) hcut .nil
  rw [List.append_nil, List.append_nil] at hleft
  have hliteral : Uncommented (source (.str body :: post)) ('"' :: (body ++ '"' :: dropComments (source post))) := by
    have h : Uncommented (source [.str body] ++ source post)
        (uncommented [.str body] ++ dropComments (source post)) :=
      uncommented_upto (lexed_right hlex) (fun c hc => hc) (by simp [Element.Legible]) hvisible.whole
        (uncommented_iff.mpr rfl)
    simpa [source, uncommented, Element.isComment, Element.text] using h
  have hboth := dropComments_upto hlex (fun c hc => hc) hvisible.comments hliteral
  rw [← source_append] at hboth
  unfold strip
  rw [hleft, hboth]
  exact strings_upto (hvisible.units hlex) hvisible.paired fun h => hline ⟨_, uncommented_iff.mpr rfl, h⟩

/-- **What stands for a visible literal** is what it shows. -/
theorem replaced_shown (hlex : Lexed (pre ++ .str body :: post)) (hvisible : Visible pre body post)
    (hline : ¬ OnDirective pre body post) : Replaced u pre body post (shownBody u body) := by
  obtain ⟨hunits, hclean⟩ := shownBody_spec (u := u) (hvisible.units hlex)
  obtain ⟨back, hback⟩ := strip_upto (u := u) hlex hvisible hline
  refine ⟨hunits, ?_, fun choice tries out hout => ?_⟩
  · obtain ⟨ts, more, hmore⟩ := rename_upto rename [] (strip u (source pre)) back hclean
    unfold scrubbed
    rw [hback, hmore]
    exact ⟨more, by simp⟩
  · obtain ⟨ts, more, hmore⟩ := rename_upto (renameNeutral u choice tries) (some ⟨0, [], []⟩)
      (strip u (source pre)) back hclean
    unfold promptText at hout ⊢
    rw [hback, hmore] at hout
    simp only [Option.map_eq_some_iff] at hout ⊢
    obtain ⟨s, hs, rfl⟩ := hout
    -- the names did not run out before the literal either
    have hsome := @good_of_renameToks _ (renameNeutral u choice tries) (· ≠ none)
      (fun _ _ => renameNeutral_none) _ ts (hs ▸ Option.some_ne_none s)
    obtain ⟨s', hs'⟩ := Option.ne_none_iff_exists'.mp hsome
    exact ⟨_, ⟨s', hs', rfl⟩, more, by simp⟩

/-- **A literal keeps its length** in a text of C, if the expressions see it as C does and it has a label word: what
stands for it has as many elements exactly if its escapes have as many characters too many as its other characters
have bytes. If each of its characters is one element, it must be without escapes. -/
theorem literal_length (u : Unicode) (hlex : Lexed (pre ++ .str body :: post)) (hvisible : Visible pre body post)
    (hline : ¬ OnDirective pre body post) (hleak : ¬ Clean u body) :
    (∃ body', Replaced u pre body post body') ∧
      ∀ body', Replaced u pre body post body' → ∀ width : Width,
        (elements width body' = elements width body ↔ extra width body = spent width body) ∧
        ((∀ c ∈ body, width.size c = 1) → (elements width body' = elements width body ↔ '\\' ∉ body)) := by
  have hreplaced := replaced_shown (u := u) hlex hvisible hline
  refine ⟨⟨_, hreplaced⟩, fun body' h width => ?_⟩
  have hlength : elements width body' = body.length := by
    rw [h.unique hreplaced, shownBody, if_neg hleak, elements_crosses]
  rw [hlength, eq_comm]
  exact ⟨elements_eq_length_iff, elements_eq_length (hvisible.units hlex)⟩

/-- What is before a literal: a comment with a quote in it, and another literal. -/
def smallBefore : List Element :=
  [.block "* \" *".toList, .other '\n', .str "a".toList, .other '+', .other 'L']

/-- A literal with an escape, and with a character of two bytes. -/
def smallBody : List Char := "bad \u00e9\\n".toList

/-- What is behind it: a literal that is seen as a comment. -/
def smallBehind : List Element := [.other ';', .str "//".toList]

/-- As a narrow literal it keeps its length. -/
theorem literal_length_small :
    ∃ body', Replaced ascii smallBefore smallBody smallBehind body' ∧
      elements .narrow body' = elements .narrow smallBody := by
  have hlex : Lexed (smallBefore ++ .str smallBody :: smallBehind) := by
    refine ⟨⟨" \" ".toList, rfl, by decide⟩, ⟨by decide, by decide, by simp⟩,
      .char (by decide) (by decide) (by decide) .nil, ⟨by decide, by decide, by simp⟩,
      ⟨by decide, by decide, by simp⟩, ?_, ⟨by decide, by decide, by simp⟩,
      .char (by decide) (by decide) (by decide) (.char (by decide) (by decide) (by decide) .nil), trivial⟩
    exact .char (by decide) (by decide) (by decide) <| .char (by decide) (by decide) (by decide) <|
      .char (by decide) (by decide) (by decide) <| .char (by decide) (by decide) (by decide) <|
      .char (by decide) (by decide) (by decide) <| .escape (by decide) .nil
  have hvisible : Visible smallBefore smallBody smallBehind := by
    refine ⟨?_, ⟨by decide +kernel, trivial⟩, by decide, ?_⟩
    · rw [SeenIn, if_neg (by decide +kernel)]
      refine ⟨?_, ?_⟩
      · simp only [smallBefore, List.forall_mem_cons]
        exact ⟨⟨" \" ".toList, rfl⟩, trivial, trivial, trivial, trivial, by simp⟩
      · exact ⟨by decide, by decide, by decide +kernel, by decide, by decide, trivial⟩
    · rw [show lastLine (uncommented smallBefore) = "\"a\"+L".toList by decide +kernel]
      exact @Paired.literal ['a'] "+L".toList (.char (by decide) (by decide) (by decide) .nil) <|
        .char (by decide) <| .char (by decide) .nil
  have hline : ¬ OnDirective smallBefore smallBody smallBehind := by
    rintro ⟨seen, -, hdirective⟩
    rw [show lastLine (uncommented smallBefore) = "\"a\"+L".toList by decide +kernel] at hdirective
    exact absurd hdirective.1 (by decide)
  obtain ⟨⟨body', h⟩, hlength⟩ := literal_length ascii hlex hvisible hline (by decide +kernel)
  exact ⟨body', h, (hlength body' h .narrow).1.mpr (by decide +kernel)⟩

-- behind a quote in a character literal a literal is no literal to `STRING`: its words are renamed
example : scrub ascii "'\"'; \"bad\";".toList = .ok "'\"'; \"id_1\";".toList := by decide +kernel

-- what seems to be a comment in a literal is taken out of it
example : scrub ascii "\"bad /* x */ y\"".toList = .ok "\"xxxxxx\"".toList := by decide +kernel

/-- **An escape makes a literal longer**: a line end that two characters stand for is two after the
rewriting. -/
theorem newline_counts_twice : ¬ ∀ (u : Unicode) (pre : List Element) (body : List Char) (post : List Element)
    (body' : List Char) (width : Width), Lexed (pre ++ .str body :: post) → ¬ Clean u body →
    Replaced u pre body post body' → elements width body' = elements width body := by
  intro h
  have hunits : Units '"' "bad\\n".toList :=
    .char (by decide) (by decide) (by decide) <| .char (by decide) (by decide) (by decide) <|
    .char (by decide) (by decide) (by decide) <| .escape (by decide) .nil
  have hlex : Lexed ([] ++ .str "bad\\n".toList :: [.other ';']) :=
    ⟨hunits, ⟨by decide, by decide, by simp⟩, trivial⟩
  have hvisible : Visible [] "bad\\n".toList [.other ';'] := by
    refine ⟨?_, ⟨by decide +kernel, trivial⟩, by decide, .nil⟩
    rw [SeenIn, if_neg (by decide +kernel)]
    exact ⟨by simp, trivial⟩
  have hline : ¬ OnDirective [] "bad\\n".toList [.other ';'] := by
    rintro ⟨seen, -, hdirective⟩
    exact absurd hdirective.1 (by decide)
  have hlength := h ascii [] _ [.other ';'] _ .narrow hlex (by decide +kernel)
    (replaced_shown hlex hvisible hline)
  revert hlength
  decide +kernel

end CSecureBuild.Harness.Literals
