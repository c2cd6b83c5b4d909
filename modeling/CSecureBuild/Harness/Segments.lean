import CSecureBuild.Harness.Comments
import CSecureBuild.Harness.Noninterference

/-!
Noninterference on the pieces of a text. A text of C is laid out in segments: code, comments, string literals,
names, and what stands on the lines of directives with a label. Two texts of the same segments that differ in
their labels are counterparts where `scrub` takes each segment for what it is (`counterpart_segments`); so the
scrubbers do not show which of the two they got (`segments_noninterference`).
-/

namespace CSecureBuild.Harness.Segments

open CSecureBuild.PyLib.Cells CSecureBuild.PyLib.Regex CSecureBuild.PyLib.Text CSecureBuild.PyLib.Words
open CSecureBuild.Harness.Scrub CSecureBuild.Harness.Patterns CSecureBuild.Harness.Linewise
open CSecureBuild.Harness.Lexing CSecureBuild.Harness.Reading CSecureBuild.Harness.Renaming
open CSecureBuild.Harness.Rescan CSecureBuild.Harness.Comments CSecureBuild.Harness.Noninterference

/-! ### Segments -/

/-- A piece of a text of C. -/
inductive Segment where
  | code (text : List Char)
  | comment (e : Element)
  | literal (wide : Bool) (body : List Char)
  | name (w : List Char)
  /-- What stands on a line that is a directive with a label. -/
  | directive (text : List Char)

namespace Segment

/-- What a literal has before its quotes. -/
def lead (wide : Bool) : List Char := if wide then ['L'] else []

/-- The text of a literal. -/
def literalText (wide : Bool) (body : List Char) : List Char := lead wide ++ '"' :: (body ++ ['"'])

/-- The text of a segment. -/
def text : Segment → List Char
  | code text => text
  | comment e => e.text
  | literal wide body => literalText wide body
  | name w => w
  | directive text => text

/-- What a segment shows: a comment leaves its newlines. -/
def seen : Segment → List Char
  | comment e => newlines e.text
  | s => s.text

/-- What a segment shows of the code: literals are empty, and there is a blank for a name and for what stands on
a directive. -/
def frame : Segment → List Char
  | code text => text
  | comment e => newlines e.text
  | literal wide _ => literalText wide []
  | name _ => [' ']
  | directive _ => [' ']

end Segment

/-- The text of some segments. -/
def source (ss : List Segment) : List Char := ss.flatMap Segment.text

/-- The text of some segments without their comments. -/
def seen (ss : List Segment) : List Char := ss.flatMap Segment.seen

/-- The code between the names and in the literals. -/
def frame (ss : List Segment) : List Char := ss.flatMap Segment.frame

/-- There is no comment delimiter in a text. -/
def Undelimited (text : List Char) : Prop :=
  ¬ "//".toList <:+: text ∧ ¬ "/*".toList <:+: text ∧ ¬ "*/".toList <:+: text

instance (text : List Char) : Decidable (Undelimited text) :=
  inferInstanceAs (Decidable (¬ "//".toList <:+: text ∧ ¬ "/*".toList <:+: text ∧ ¬ "*/".toList <:+: text))

/-- What a comment says. -/
def commentBody : Element → List Char
  | .block inner => (unsplice inner).tail.dropLast
  | .line inner => (unsplice inner).tail
  | _ => []

/-- A segment is what it is called, between a text and other segments. A name has no word character beside it,
and what is given as part of a directive is on such a line. -/
def Segment.Fits (u : Unicode) (before : List Char) (behind : List Segment) : Segment → Prop
  | .code text => '"' ∉ text ∧ '\x27' ∉ text ∧ Undelimited text
  | .comment e => e.isComment = true ∧ e.Fits (source behind) ∧ Undelimited (commentBody e)
  | .literal _ body => Units '"' (unsplice body) ∧ Undelimited body
  | .name w => IsWord u w ∧ (∀ c ∈ before.getLast?, u.word c = false) ∧
      ∀ c ∈ (Segments.seen behind).head?, u.word c = false
  | .directive text => '\n' ∉ text ∧ Directive (lastLine before ++ (text ++ firstLine (Segments.seen behind)))

/-- Each of some segments is what it is called, behind a text without comments. -/
def Laid (u : Unicode) : List Char → List Segment → Prop
  | _, [] => True
  | before, s :: ss => s.Fits u before ss ∧ Laid u (before ++ s.seen) ss

/-! ### Segments that differ in labels -/

/-- The texts of two literals: they are equal, or both have a label word, none has a label macro, and they are as
long as each other. -/
def AlikeBody (u : Unicode) (body body' : List Char) : Prop :=
  body = body' ∨ ¬ Clean u body ∧ ¬ Clean u body' ∧ body.length = body'.length ∧ ¬ HasOmit body ∧ ¬ HasOmit body'

/-- A name with a label and no label macro becomes another such name. -/
def AlikeName (u : Unicode) (ρ : List Char → List Char) (w : List Char) : Prop :=
  HasLabel w → IsWord u (ρ w) ∧ HasLabel (ρ w) ∧ ¬ HasOmit w ∧ ¬ HasOmit (ρ w)

/-- Two segments that differ in labels only. -/
inductive Alike (u : Unicode) (ρ : List Char → List Char) : Segment → Segment → Prop where
  | code (text : List Char) : Alike u ρ (.code text) (.code text)
  | comment {e e' : Element} (hlines : newlines e.text = newlines e'.text) : Alike u ρ (.comment e) (.comment e')
  | literal (wide : Bool) {body body' : List Char} (hbody : AlikeBody u body body') :
      Alike u ρ (.literal wide body) (.literal wide body')
  | name {w : List Char} (hname : AlikeName u ρ w) : Alike u ρ (.name w) (.name (newName ρ w))
  | directive (text text' : List Char) : Alike u ρ (.directive text) (.directive text')

/-- The names with a label: those given as names, and those that stay in the code. -/
def labels (u : Unicode) (ss : List Segment) : Set (List Char) :=
  {w | HasLabel w ∧ (.name w ∈ ss ∨ w ∈ words u (frame ss))}

/-- Two texts of segments that differ in labels only: each name with a label has one name, and those in the code
stay. -/
structure Differ (u : Unicode) (ρ : List Char → List Char) (ss ss' : List Segment) : Prop where
  alike : List.Forall₂ (Alike u ρ) ss ss'
  laid : Laid u [] ss
  laid' : Laid u [] ss'
  injective : Set.InjOn ρ (labels u ss)
  fixed : ∀ w ∈ words u (frame ss), HasLabel w → ρ w = w

/-! ### Segments as `scrub` takes them -/

/-- `COMMENT` matches nowhere in a text that has another one behind it. -/
def Unmatched (text behind : List Char) : Prop :=
  ∀ k < text.length, commentAt (text.drop k ++ behind) = false

instance (text behind : List Char) : Decidable (Unmatched text behind) :=
  inferInstanceAs (Decidable (∀ k < text.length, commentAt (text.drop k ++ behind) = false))

/-- `COMMENT` takes a segment for what it is, and a literal goes over no line end. -/
def Segment.Apparent (behind : List Char) : Segment → Prop
  | .comment e => e.Legible
  | .literal wide body => '\n' ∉ body ∧ Unmatched (literalText wide body) behind
  | s => Unmatched s.text behind

/-- The same for each of some segments. -/
def AllApparent : List Segment → Prop
  | [] => True
  | s :: ss => s.Apparent (source ss) ∧ AllApparent ss

/-- `scrub` takes the segments of a text for what they are. -/
def Apparent (ss : List Segment) : Prop := opened (source ss) = false ∧ AllApparent ss


/-! ### Comment removal on segments -/

variable {u : Unicode} {ρ : List Char → List Char} {ss ss' : List Segment} {before before' x x' v v' w p : List Char}

lemma uncommented_at {w rest out : List Char} (h : Unmatched w rest)
    (tail : Uncommented rest out) : Uncommented (w ++ rest) (w ++ out) := by
  refine uncommented_chars (fun a b hab hb => ?_) tail
  have hat := h a.length (by simpa [hab] using List.length_pos_iff.mpr hb)
  rwa [hab, List.drop_left] at hat

/-- **Comment removal** leaves what the segments show, if each is taken for what it is. -/
lemma uncommented_seen (hlaid : Laid u before ss) (h : AllApparent ss) : Uncommented (source ss) (seen ss) := by
  induction ss generalizing before with
  | nil => exact .nil
  | cons s ss ih =>
    obtain ⟨hfits, hlaid⟩ := hlaid
    obtain ⟨hs, h⟩ := h
    have tail := ih hlaid h
    cases s with
    | comment e => exact uncommented_comment hfits.1 hfits.2.1 (fun c hc => hc) hs tail
    | literal wide body => exact uncommented_at hs.2 tail
    | code text => exact uncommented_at hs tail
    | name w => exact uncommented_at hs tail
    | directive text => exact uncommented_at hs tail

/-! ### Rows of counterparts -/

/-- What a line ends with, and the same with other labels. -/
structure Row (u : Unicode) (ρ : List Char → List Char) (l l' : List Char) : Prop where
  relabelled : Relabelled u ρ l l'
  omits : HasOmit l ↔ HasOmit l'
  directive : Directive l ↔ Directive l'

lemma row_nil : Row u ρ [] [] := ⟨.nil, Iff.rfl, Iff.rfl⟩

lemma hasOmit_cons {c : Char} (hc : u.word c = false) (l : List Char) : HasOmit (c :: l) ↔ HasOmit l := by
  refine ⟨fun h => hasOmit_behind (a := [c]) h ?_, fun h => hasOmit_mono h (List.suffix_cons c l).isInfix⟩
  rw [List.mem_singleton]
  rintro rfl
  rw [word_O] at hc
  cases hc

lemma hasOmit_append {a b : List Char} (hb : ∀ c ∈ b.head?, u.word c = false) :
    HasOmit (a ++ b) ↔ HasOmit a ∨ HasOmit b := by
  refine ⟨fun h => hasOmit_sides h hb, fun h => ?_⟩
  rcases h with h | h
  · exact hasOmit_mono h (List.prefix_append a b).isInfix
  · exact hasOmit_mono h (List.suffix_append a b).isInfix

lemma Row.sep {c : Char} (hc : u.word c = false) (hquote : c ≠ '"') (h : Row u ρ x x') :
    Row u ρ (c :: x) (c :: x') where
  relabelled := .sep hc hquote h.relabelled
  omits := by rw [hasOmit_cons hc, hasOmit_cons hc, h.omits]
  directive := by
    unfold Directive
    rw [h.directive, h.omits]

lemma AlikeName.relabels (h : AlikeName u ρ w) : Relabels u ρ w := fun hlabel => ⟨(h hlabel).1, (h hlabel).2.1⟩

lemma AlikeName.hasOmit (h : AlikeName u ρ w) : HasOmit (newName ρ w) ↔ HasOmit w := by
  unfold newName
  split_ifs with hlabel
  · exact iff_of_false (h hlabel).2.2.2 (h hlabel).2.2.1
  · exact Iff.rfl

lemma head_relabelled (h : Relabelled u ρ x x') (hx : ∀ c ∈ x.head?, u.word c = false) :
    ∀ c ∈ x'.head?, u.word c = false := by
  cases h with
  | nil => exact hx
  | sep hc _ _ => simpa using hc
  | @word w y y' hw _ _ _ =>
    obtain ⟨c, w, rfl⟩ := List.exists_cons_of_ne_nil hw.1
    have hc := hx c rfl
    rw [hw.2 c List.mem_cons_self] at hc
    cases hc
  | dead _ _ _ => simpa using quote_not_word
  | literal _ _ _ _ => simpa using quote_not_word

lemma Row.word (hw : IsWord u w) (hname : Relabels u ρ w) (homit : HasOmit (newName ρ w) ↔ HasOmit w)
    (hx : ∀ c ∈ x.head?, u.word c = false) (h : Row u ρ x x') : Row u ρ (w ++ x) (newName ρ w ++ x') where
  relabelled := .word hw hx hname h.relabelled
  omits := by rw [hasOmit_append hx, hasOmit_append (head_relabelled h.relabelled hx), homit, h.omits]
  directive := iff_of_false (directive_word hw x) (directive_word (isWord_newName hw hname) x')

lemma hasOmit_literal (body l : List Char) :
    HasOmit ('"' :: (body ++ '"' :: l)) ↔ HasOmit body ∨ HasOmit l := by
  rw [hasOmit_cons (u := ascii) quote_not_word, hasOmit_append (u := ascii) (by simp [quote_not_word]),
    hasOmit_cons (u := ascii) quote_not_word]

lemma Row.literal {body body' : List Char} (hbody : Units '"' body) (hbody' : Units '"' body')
    (halike : AlikeBody u body body') (h : Row u ρ x x') :
    Row u ρ ('"' :: (body ++ '"' :: x)) ('"' :: (body' ++ '"' :: x')) where
  relabelled := .literal hbody hbody' (halike.imp id fun h => ⟨h.1, h.2.1, h.2.2.1⟩) h.relabelled
  omits := by
    rw [hasOmit_literal, hasOmit_literal, h.omits]
    rcases halike with rfl | ⟨-, -, -, hno, hno'⟩
    · rfl
    · rw [or_iff_right hno, or_iff_right hno']
  directive := by
    refine iff_of_false ?_ ?_ <;>
    · rw [Directive, if_neg (by decide)]
      exact fun h => absurd h.1 (by decide)

/-- Two texts have counterparts for lines, behind what their first lines begin with. -/
structure Rows (u : Unicode) (ρ : List Char → List Char) (before before' x x' : List Char) : Prop where
  first : Row u ρ (firstLine x) (firstLine x') ∨
    Directive (lastLine before ++ firstLine x) ∧ Directive (lastLine before' ++ firstLine x')
  others : List.Forall₂ (LineCounterpart u ρ) (lines x).tail (lines x').tail

lemma Row.counterpart {l l' : List Char} (h : Row u ρ l l') : LineCounterpart u ρ l l' := by
  by_cases hl : Directive l
  · exact .inl ⟨hl, h.directive.mp hl⟩
  · exact .inr ⟨hl, fun hl' => hl (h.directive.mpr hl'), h.relabelled⟩

/-- A line of two texts is over. -/
lemma Rows.counterparts (h : Rows u ρ before before' x x') (hbefore : lastLine before = [])
    (hbefore' : lastLine before' = []) : List.Forall₂ (LineCounterpart u ρ) (lines x) (lines x') := by
  rw [lines_eq x, lines_eq x']
  refine .cons ?_ h.others
  have hfirst := h.first
  rw [hbefore, hbefore'] at hfirst
  exact hfirst.elim Row.counterpart .inl

lemma Rows.newline (h : Rows u ρ (before ++ ['\n']) (before' ++ ['\n']) x x') :
    Rows u ρ before before' ('\n' :: x) ('\n' :: x') where
  first := .inl row_nil
  others := by
    rw [lines_newline, lines_newline]
    exact h.counterparts (lastLine_newline before) (lastLine_newline before')

/-- Something within a line goes before two texts. -/
lemma Rows.flat (hv : '\n' ∉ v) (hv' : '\n' ∉ v') (h : Rows u ρ (before ++ v) (before' ++ v') x x')
    (hrow : Row u ρ (firstLine x) (firstLine x') → Row u ρ (v ++ firstLine x) (v' ++ firstLine x') ∨
      Directive (lastLine before ++ (v ++ firstLine x)) ∧ Directive (lastLine before' ++ (v' ++ firstLine x'))) :
    Rows u ρ before before' (v ++ x) (v' ++ x') where
  first := by
    rw [firstLine_flat hv, firstLine_flat hv']
    have hfirst := h.first
    rw [lastLine_append hv, lastLine_append hv', List.append_assoc, List.append_assoc] at hfirst
    exact hfirst.elim hrow .inr
  others := by
    rw [tail_lines hv, tail_lines hv']
    exact h.others

lemma head_firstLine (h : ∀ c ∈ x.head?, u.word c = false) : ∀ c ∈ (firstLine x).head?, u.word c = false := by
  cases x with
  | nil => exact h
  | cons c x =>
    unfold firstLine
    rw [List.takeWhile_cons]
    split_ifs
    · exact h
    · simp

lemma Rows.literal {body body' : List Char} (hbody : Units '"' body) (hbody' : Units '"' body')
    (halike : AlikeBody u body body')
    (h : Rows u ρ (before ++ '"' :: (body ++ ['"'])) (before' ++ '"' :: (body' ++ ['"'])) x x') :
    Rows u ρ before before' ('"' :: (body ++ ['"']) ++ x) ('"' :: (body' ++ ['"']) ++ x') := by
  have hflat : ∀ {body}, Units '"' body → '\n' ∉ '"' :: (body ++ ['"']) := fun h hmem => by
    simp only [List.mem_cons, List.mem_append, List.not_mem_nil, or_false] at hmem
    rcases hmem with hc | hc | hc
    · cases hc
    · exact h.flat _ hc rfl
    · cases hc
  refine h.flat (hflat hbody) (hflat hbody') fun hrow => .inl ?_
  simpa using hrow.literal hbody hbody' halike

lemma newName_fixed (h : HasLabel w → ρ w = w) : newName ρ w = w := by
  unfold newName
  split_ifs with hlabel
  · exact h hlabel
  · rfl

/-- What goes before two texts ends with no word that goes on in them, or there is a directive. -/
def Ends (u : Unicode) (before before' p x x' : List Char) : Prop :=
  (∀ c ∈ p.getLast?, u.word c = false) ∨ (∀ c ∈ x.head?, u.word c = false) ∨
    Directive (lastLine (before ++ p) ++ firstLine x) ∧ Directive (lastLine (before' ++ p) ++ firstLine x')

lemma Ends.tail {y p : List Char} (h : Ends u before before' (y ++ p) x x') (hp : p ≠ []) :
    Ends u (before ++ y) (before' ++ y) p x x' := by
  unfold Ends at h ⊢
  rw [List.append_assoc, List.append_assoc]
  rwa [List.getLast?_append_of_ne_nil _ hp] at h

/-- A word that stays goes before two texts. -/
lemma Rows.word (hw : IsWord u w) (hfixed : HasLabel w → ρ w = w) (hends : Ends u before before' w x x')
    (h : Rows u ρ (before ++ w) (before' ++ w) x x') : Rows u ρ before before' (w ++ x) (w ++ x') := by
  have hflat : '\n' ∉ w := fun hmem => hw.ne hmem newline_not_word rfl
  have hstays : newName ρ w = w := newName_fixed hfixed
  refine h.flat hflat hflat fun hrow => ?_
  rcases hends with hlast | hhead | hdirective
  · have hc := hlast _ (List.getLast_mem_getLast? hw.1)
    rw [hw.2 _ (List.getLast_mem hw.1)] at hc
    cases hc
  · have hname : Relabels u ρ w := fun hlabel => by
      rw [hfixed hlabel]
      exact ⟨hw, hlabel⟩
    have := hrow.word hw hname (by rw [hstays]) (head_firstLine hhead)
    rw [hstays] at this
    exact .inl this
  · rw [lastLine_append hflat, lastLine_append hflat, List.append_assoc, List.append_assoc] at hdirective
    exact .inr hdirective

/-- Tokens with names that stay go before two texts. -/
lemma Rows.tokens {ts : List Tok} (hts : Valid u.word ts) (hquote : '"' ∉ render ts)
    (hfixed : ∀ w, .word w ∈ ts → HasLabel w → ρ w = w) (hends : Ends u before before' (render ts) x x')
    (h : Rows u ρ (before ++ render ts) (before' ++ render ts) x x') :
    Rows u ρ before before' (render ts ++ x) (render ts ++ x') := by
  induction ts generalizing before before' with
  | nil => simpa using h
  | cons t ts ih =>
    have hfixed' : ∀ w, .word w ∈ ts → HasLabel w → ρ w = w := fun w hw => hfixed w (List.mem_cons_of_mem t hw)
    rw [render_cons] at hquote hends h ⊢
    rw [List.mem_append, not_or] at hquote
    rw [← List.append_assoc, ← List.append_assoc] at h
    have hvalid : Valid u.word ts := by
      cases t with
      | sep c => exact hts.2
      | word w => exact hts.2.2.2
    have hrest : Rows u ρ (before ++ t.text) (before' ++ t.text) (render ts ++ x) (render ts ++ x') := by
      by_cases hnil : render ts = []
      · rw [hnil] at h ⊢
        simpa using h
      · exact ih hvalid hquote.2 hfixed' (hends.tail hnil) h
    rw [List.append_assoc, List.append_assoc]
    cases t with
    | sep c =>
      by_cases hc : c = '\n'
      · subst hc
        exact hrest.newline
      · have hflat : '\n' ∉ (Tok.sep c).text := by simpa [Tok.text] using Ne.symm hc
        have hplain : c ≠ '"' := fun hc => hquote.1 (by simp [Tok.text, hc])
        exact hrest.flat hflat hflat fun hrow => .inl (hrow.sep hts.1 hplain)
    | word w =>
      refine hrest.word ⟨hts.1, hts.2.1⟩ (hfixed w List.mem_cons_self) ?_
      by_cases hnil : render ts = []
      · rw [hnil] at hends ⊢
        simpa [Tok.text] using hends
      · refine .inr (.inl fun c hc => head_render hvalid hts.2.2.1 c ?_)
        rwa [List.head?_append_of_ne_nil _ hnil] at hc

/-- Code goes before two texts. -/
lemma Rows.code (hquote : '"' ∉ p) (hfixed : ∀ w ∈ words u p, HasLabel w → ρ w = w)
    (hends : Ends u before before' p x x') (h : Rows u ρ (before ++ p) (before' ++ p) x x') :
    Rows u ρ before before' (p ++ x) (p ++ x') := by
  have hp : render (toks u.word p) = p := render_toks p
  rw [← hp] at hquote hends h ⊢
  exact h.tokens (valid_toks p) hquote hfixed hends

lemma mem_words_append {c : Char} (hc : u.word c = false) {x y : List Char} :
    w ∈ words u (x ++ c :: y) ↔ w ∈ words u x ∨ w ∈ words u y := by
  unfold words
  simp only [Set.mem_ofPred_eq, toks_append hc]
  simp

/-- The rows of two texts of segments. What is before them ends with code, of which no word is to go on. -/
lemma rows_segments (halike : List.Forall₂ (Alike u ρ) ss ss') (hlaid : Laid u (before ++ p) ss)
    (hlaid' : Laid u (before' ++ p) ss') (happarent : AllApparent ss) (happarent' : AllApparent ss')
    (hquote : '"' ∉ p) (hfixed : ∀ w ∈ words u (p ++ frame ss), HasLabel w → ρ w = w) :
    Rows u ρ before before' (p ++ seen ss) (p ++ seen ss') := by
  induction halike generalizing before before' p with
  | nil =>
    have hrow : Rows u ρ (before ++ p) (before' ++ p) [] [] := ⟨.inl row_nil, .nil⟩
    refine hrow.code hquote ?_ (.inr (.inl fun c hc => by cases hc))
    simpa [frame] using hfixed
  | @cons s s' ss ss' hs _ ih =>
    obtain ⟨hfits, hlaid⟩ := hlaid
    obtain ⟨hfits', hlaid'⟩ := hlaid'
    obtain ⟨hs', happarent⟩ := happarent
    obtain ⟨hs'', happarent'⟩ := happarent'
    have hcons : ∀ s ss, seen (s :: ss) = s.seen ++ seen ss := fun s ss => List.flatMap_cons
    have hframe : frame (s :: ss) = s.frame ++ frame ss := List.flatMap_cons
    rw [hframe] at hfixed
    rw [hcons, hcons]
    have hblank : u.word ' ' = false := not_word (by simp)
    -- behind a segment that is no code, no word goes on
    have hfresh : ∀ {v v'}, Laid u (before ++ p ++ v) ss → Laid u (before' ++ p ++ v') ss' →
        (∀ w ∈ words u (frame ss), HasLabel w → ρ w = w) →
          Rows u ρ (before ++ p ++ v) (before' ++ p ++ v') (seen ss) (seen ss') := by
      intro v v' hlaid hlaid' hfixed
      rw [← List.append_nil (before ++ p ++ v)] at hlaid
      rw [← List.append_nil (before' ++ p ++ v')] at hlaid'
      exact ih hlaid hlaid' happarent happarent' (by simp) hfixed
    cases hs with
    | code text =>
      rw [List.append_assoc] at hlaid hlaid'
      rw [← List.append_assoc, ← List.append_assoc]
      have htext : '"' ∉ (Segment.code text).seen := hfits.1
      refine ih hlaid hlaid' happarent happarent' (by simp [hquote, htext]) ?_
      rwa [List.append_assoc]
    | @comment e e' hlines =>
      have hseen : (Segment.comment e').seen = (Segment.comment e).seen := hlines.symm
      rw [hseen] at hlaid' ⊢
      rw [List.append_assoc] at hlaid hlaid'
      rw [← List.append_assoc, ← List.append_assoc]
      have htext : '"' ∉ (Segment.comment e).seen := fun hmem => absurd (mem_newlines hmem) (by decide)
      refine ih hlaid hlaid' happarent happarent' (by simp [hquote, htext]) ?_
      rwa [List.append_assoc]
    | @literal wide body body' hbody =>
      have hunits : Units '"' body := unsplice_flat hs'.1 ▸ hfits.1
      have hunits' : Units '"' body' := unsplice_flat hs''.1 ▸ hfits'.1
      have hlead : '"' ∉ Segment.lead wide := by cases wide <;> simp [Segment.lead]
      have hquotes : ∀ body, (Segment.literal wide body).seen = Segment.lead wide ++ '"' :: (body ++ ['"']) :=
        fun _ => rfl
      have hframe : p ++ ((Segment.literal wide body).frame ++ frame ss) =
          p ++ Segment.lead wide ++ '"' :: ([] ++ '"' :: frame ss) := by
        simp [Segment.frame, Segment.literalText]
      rw [hframe] at hfixed
      have hrest := hfresh hlaid hlaid' fun w hw => hfixed w
        ((mem_words_append quote_not_word).mpr (.inr ((mem_words_append quote_not_word).mpr (.inr hw))))
      rw [hquotes, hquotes, ← List.append_assoc, ← List.append_assoc] at hrest
      have hrest := hrest.literal hunits hunits' hbody
      rw [List.append_assoc, List.append_assoc] at hrest
      have hsplit : ∀ body ss, p ++ ((Segment.literal wide body).seen ++ seen ss) =
          p ++ Segment.lead wide ++ ('"' :: (body ++ ['"']) ++ seen ss) := fun body ss => by
        rw [hquotes]
        simp
      rw [hsplit, hsplit]
      exact hrest.code (by simp [hquote, hlead])
        (fun w hw => hfixed w ((mem_words_append quote_not_word).mpr (.inl hw)))
        (.inr (.inl fun c hc => by cases hc; exact quote_not_word))
    | @name w hname =>
      have hflat : '\n' ∉ w := fun hmem => hfits.1.ne hmem newline_not_word rfl
      have hflat' : '\n' ∉ newName ρ w := fun hmem => hfits'.1.ne hmem newline_not_word rfl
      have hrest := (hfresh hlaid hlaid' fun w hw => hfixed w ((mem_words_append hblank).mpr (.inr hw))).flat hflat
        hflat' fun hrow => .inl (hrow.word hfits.1 hname.relabels hname.hasOmit (head_firstLine hfits.2.2))
      refine hrest.code hquote (fun w hw => hfixed w ((mem_words_append hblank).mpr (.inl hw))) ?_
      exact .inl fun c hc => hfits.2.1 c (List.mem_getLast?_append_of_mem_getLast? hc)
    | directive text text' =>
      have hrest := (hfresh hlaid hlaid' fun w hw => hfixed w ((mem_words_append hblank).mpr (.inr hw))).flat hfits.1
        hfits'.1 fun _ => .inr ⟨hfits.2, hfits'.2⟩
      refine hrest.code hquote (fun w hw => hfixed w ((mem_words_append hblank).mpr (.inl hw))) (.inr (.inr ?_))
      unfold Segment.seen Segment.text
      rw [firstLine_flat hfits.1, firstLine_flat hfits'.1]
      exact ⟨hfits.2, hfits'.2⟩

/-- **Segments that differ in labels** are counterparts, where they are taken for what they are. -/
theorem counterpart_segments (halike : List.Forall₂ (Alike u ρ) ss ss') (hlaid : Laid u [] ss)
    (hlaid' : Laid u [] ss') (hfixed : ∀ w ∈ words u (frame ss), HasLabel w → ρ w = w)
    (h : Apparent ss) (h' : Apparent ss') : Counterpart u ρ (source ss) (source ss') := by
  refine ⟨seen ss, seen ss', ?_, ?_, ?_⟩
  · rw [dropOpened_of_not_opened h.1]
    exact uncommented_seen hlaid h.2
  · rw [dropOpened_of_not_opened h'.1]
    exact uncommented_seen hlaid' h'.2
  · have hrows : Rows u ρ [] [] ([] ++ seen ss) ([] ++ seen ss') :=
      rows_segments halike hlaid hlaid' h.2 h'.2 (by simp) hfixed
    exact hrows.counterparts rfl rfl

/-! ### Noninterference -/

lemma Alike.congr {σ : List Char → List Char} {s s' : Segment} (h : Alike u ρ s s')
    (hsame : ∀ w, s = .name w → HasLabel w → σ w = ρ w) : Alike u σ s s' := by
  cases h with
  | code text => exact .code text
  | comment hlines => exact .comment hlines
  | literal wide hbody => exact .literal wide hbody
  | @name w hname =>
    have hnew : newName ρ w = newName σ w := by
      unfold newName
      split_ifs with hlabel
      · exact (hsame w rfl hlabel).symm
      · rfl
    rw [hnew]
    refine .name fun hlabel => ?_
    rw [hsame w rfl hlabel]
    exact hname hlabel
  | directive text text' => exact .directive text text'

lemma alike_congr {σ : List Char → List Char} (h : List.Forall₂ (Alike u ρ) ss ss')
    (hsame : ∀ w, .name w ∈ ss → HasLabel w → σ w = ρ w) : List.Forall₂ (Alike u σ) ss ss' := by
  induction h with
  | nil => exact .nil
  | @cons s s' ss ss' hs _ ih =>
    exact .cons (hs.congr fun w heq => hsame w (heq ▸ List.mem_cons_self))
      (ih fun w hw => hsame w (List.mem_cons_of_mem s hw))

/-- **The scrubbers do not show the labels** of two texts of the same segments, if both are taken for the segments
they are. -/
theorem segments_noninterference (u : Unicode) {ρ : List Char → List Char} {ss ss' : List Segment}
    (h : Differ u ρ ss ss') (happarent : Apparent ss) (happarent' : Apparent ss') :
    ShowSame u (source ss) (source ss') := by
  classical
  -- elsewhere the renaming gives no word, so that a name which is renamed is one of the labels
  let σ : List Char → List Char := fun w => if w ∈ labels u ss then ρ w else []
  have hσ : ∀ w ∈ labels u ss, σ w = ρ w := fun w hw => if_pos hw
  have hcounterpart : Counterpart u σ (source ss) (source ss') :=
    counterpart_segments (alike_congr h.alike fun w hw hlabel => hσ w ⟨hlabel, .inl hw⟩) h.laid h.laid'
      (fun w hw hlabel => (hσ w ⟨hlabel, .inr hw⟩).trans (h.fixed w hw hlabel)) happarent happarent'
  have hlabels : labelNames u (source ss) ⊆ labels u ss := by
    rintro w ⟨hw, hlabel⟩
    by_contra hno
    exact (hcounterpart.strip_eq.2 w hw hlabel).1.1 (if_neg hno)
  refine hcounterpart.showSame fun v hv w hw hvw => h.injective (hlabels hv) (hlabels hw) ?_
  rwa [← hσ v (hlabels hv), ← hσ w (hlabels hw)]

/-- A flawed line, in front of a directive. -/
def flawedLine : List Segment :=
  [.name "bad".toList, .code "(".toList, .literal true "flaw".toList, .code "); ".toList,
    .comment (.line "/ FLAW".toList), .code "\n".toList, .directive "#ifndef OMITBAD".toList]

/-- The same line without the flaw. -/
def fixedLine : List Segment :=
  [.name "goodbad".toList, .code "(".toList, .literal true "good".toList, .code "); ".toList,
    .comment (.block "* x *".toList), .code "\n".toList, .directive "#ifndef OMITGOOD".toList]

lemma units_plain {body : List Char} (h : ∀ c ∈ body, c ≠ '"' ∧ c ≠ '\\' ∧ c ≠ '\n') : Units '"' (unsplice body) := by
  rw [unsplice_flat fun hmem => (h _ hmem).2.2 rfl]
  induction body with
  | nil => exact .nil
  | cons c body ih =>
    obtain ⟨hc, h⟩ := List.forall_mem_cons.mp h
    exact .char hc.1 hc.2.1 hc.2.2 (ih h)

lemma fits_code {text : List Char} (h : '"' ∉ text ∧ '\x27' ∉ text ∧ Undelimited text) :
    Segment.Fits u before ss (.code text) := h

lemma fits_block (body : List Char) (hflat : '\n' ∉ body) (h : Undelimited body) :
    Segment.Fits u before ss (.comment (.block ('*' :: (body ++ ['*'])))) := by
  have hinner : unsplice ('*' :: (body ++ ['*'])) = '*' :: (body ++ ['*']) := unsplice_flat (by simp [hflat])
  have hsaid : commentBody (.block ('*' :: (body ++ ['*']))) = body := by
    show (unsplice _).tail.dropLast = body
    rw [hinner]
    simp
  refine ⟨rfl, ⟨body, hinner, h.2.2⟩, ?_⟩
  rwa [hsaid]

lemma laid_flawed : Laid ascii [] flawedLine :=
  ⟨⟨isWord_ascii (by decide) (by simp), by simp, fun c hc => (Option.some.inj hc : '(' = c) ▸ by decide⟩,
    fits_code (by decide), ⟨units_plain (by simp), by decide⟩, fits_code (by decide),
    ⟨rfl, ⟨⟨" FLAW".toList, by decide, by decide⟩, fun c hc => ⟨(Option.some.inj hc).symm, by decide⟩⟩, by decide⟩,
    fits_code (by decide), ⟨by decide, by decide +kernel⟩, trivial⟩

lemma laid_fixed : Laid ascii [] fixedLine :=
  ⟨⟨isWord_ascii (by decide) (by simp), by simp, fun c hc => (Option.some.inj hc : '(' = c) ▸ by decide⟩,
    fits_code (by decide), ⟨units_plain (by simp), by decide⟩, fits_code (by decide),
    fits_block " x ".toList (by decide) (by decide), fits_code (by decide), ⟨by decide, by decide +kernel⟩, trivial⟩

lemma apparent_flawed : Apparent flawedLine := by
  have hlegible : Element.Legible (.line "/ FLAW".toList) := by
    unfold Element.Legible
    decide +kernel
  refine ⟨by decide +kernel, ?_, ?_, ⟨by decide +kernel, ?_⟩, ?_, hlegible, ?_, ?_, trivial⟩
  all_goals
    show Unmatched _ _
    decide +kernel

lemma apparent_fixed : Apparent fixedLine := by
  refine ⟨by decide +kernel, ?_, ?_, ⟨by decide +kernel, ?_⟩, ?_, ⟨" x ".toList, rfl⟩, ?_, ?_, trivial⟩
  all_goals
    show Unmatched _ _
    decide +kernel

lemma differ_flawed : Differ ascii ("good".toList ++ ·) flawedLine fixedLine where
  alike := by
    have hname : newName ("good".toList ++ ·) "bad".toList = "goodbad".toList := by decide
    have hbad : Alike ascii ("good".toList ++ ·) (.name "bad".toList) (.name "goodbad".toList) :=
      hname ▸ .name fun _ => ⟨isWord_ascii (by decide) (by simp), by decide, by decide, by decide⟩
    exact .cons hbad (.cons (.code _) (.cons
      (.literal true (.inr ⟨by decide +kernel, by decide +kernel, rfl, by decide, by decide⟩))
      (.cons (.code _) (.cons (.comment (by decide)) (.cons (.code _) (.cons (.directive _ _) .nil))))))
  laid := laid_flawed
  laid' := laid_fixed
  injective := fun _ _ _ _ => List.append_cancel_left
  fixed := fun w hw hlabel => by
    have hclean : Clean ascii (frame flawedLine) := by decide +kernel
    exact absurd hlabel (Unlabelled.of_clean hclean w hw)

example : scrub ascii (source flawedLine) = .ok "id_1(L\"xxxx\"); \n".toList := by decide +kernel

theorem segments_noninterference_small : scrub ascii (source fixedLine) = scrub ascii (source flawedLine) :=
  (segments_noninterference ascii differ_flawed apparent_flawed apparent_fixed).1

/-- A product with a comment between its factors, for each of two comments. -/
def product (said : Char) : List Segment :=
  [.code "a *".toList, .comment (.block ['*', said, '*']), .code " b".toList]

lemma laid_product {said : Char} (hflat : '\n' ≠ said) (h : Undelimited [said]) : Laid ascii [] (product said) :=
  ⟨fits_code (by decide), fits_block [said] (by simpa using hflat) h, fits_code (by decide), trivial⟩

lemma differ_product : Differ ascii id (product 'x') (product 'y') where
  alike := .cons (.code _) (.cons (.comment (by decide)) (.cons (.code _) .nil))
  laid := laid_product (by decide) (by decide)
  laid' := laid_product (by decide) (by decide)
  injective := Set.injOn_id _
  fixed := fun _ _ _ => rfl

/-- **The comment in a product is shown**: the star before it is taken for the end of a comment. -/
theorem product_shows_comment : ¬ ∀ (u : Unicode) (ρ : List Char → List Char) (ss ss' : List Segment),
    Differ u ρ ss ss' → ShowSame u (source ss) (source ss') := by
  intro h
  exact absurd (h ascii id _ _ differ_product).1 (by decide +kernel)

example : scrub ascii "a */* x */ flaw".toList = scrub ascii "a */* y */ flaw".toList := by decide +kernel

end CSecureBuild.Harness.Segments
