import CSecureBuild.Harness.LabelWords
import CSecureBuild.Harness.Rescan

/-!
Comment removal against C's lexical structure. The expressions of `scrub` do not read a text as C does:
`COMMENT` looks for a comment at every position, in literals as well, it knows nothing of line splices, and
before that a terminator without an opening is taken for the end of a comment that the text begins in.

`scrub_source` says when the outcome is the one of a reader of C, and `url_is_cut` that it is not always.
-/

namespace CSecureBuild.Harness.Comments

open CSecureBuild.PyLib.Cells CSecureBuild.PyLib.Regex CSecureBuild.PyLib.Text CSecureBuild.PyLib.Words
open CSecureBuild.Harness.Scrub CSecureBuild.Harness.Patterns CSecureBuild.Harness.Lexing
open CSecureBuild.Harness.Linewise CSecureBuild.Harness.Reading CSecureBuild.Harness.Renaming
open CSecureBuild.Harness.LabelWords CSecureBuild.Harness.Rescan

variable {u : Unicode} {es fs : List Element} {text rest out w : List Char}

/-! ### What a text of C shows without its comments -/

lemma uncommented_chars (h : ∀ a b, w = a ++ b → b ≠ [] → commentAt (b ++ rest) = false)
    (tail : Uncommented rest out) : Uncommented (w ++ rest) (w ++ out) := by
  induction w with
  | nil => exact tail
  | cons c w ih =>
    refine .char (h [] (c :: w) rfl (List.cons_ne_nil c w)) (ih fun a b hab hb => ?_)
    exact h (c :: a) b (congrArg (c :: ·) hab) hb

lemma uncommented_line {line : List Char} (hflat : '\n' ∉ line) (hline : line = [] ∨ "//".toList <+: line)
    (hrest : ∀ c ∈ rest.head?, c = '\n') (tail : Uncommented rest out) : Uncommented (line ++ rest) out := by
  rcases hline with rfl | ⟨body, rfl⟩
  · exact tail
  · refine .line (fun c hc heq => hflat ?_) hrest tail
    exact List.mem_append_right _ (heq ▸ hc)

/-- Lines of which each is a comment or empty leave their newlines. -/
lemma uncommented_lines (h : ∀ l ∈ lines text, l = [] ∨ "//".toList <+: l)
    (hrest : ∀ c ∈ rest.head?, c = '\n') (tail : Uncommented rest out) :
    Uncommented (text ++ rest) (newlines text ++ out) := by
  induction text using line_induction with
  | last line hflat =>
    rw [newlines_eq_nil fun c hc heq => hflat (heq ▸ hc)]
    exact uncommented_line hflat (h line (by simp [lines_last hflat])) hrest tail
  | step line more hflat ih =>
    rw [lines_line hflat, List.forall_mem_cons] at h
    have hnewlines : newlines (line ++ '\n' :: more) = '\n' :: newlines more := by
      rw [newlines_append, newlines_eq_nil fun c hc heq => hflat (heq ▸ hc)]
      rfl
    rw [hnewlines, List.append_assoc]
    exact uncommented_line hflat h.1 (by simp) (.char (commentAt_cons (by decide) _) (ih h.2))

/-- A comment is over where `COMMENT` ends it if its delimiters have no splices. -/
lemma unspliced_block {body seen : List Char} (h : unsplice ('*' :: (body ++ ['*'])) = '*' :: (seen ++ ['*']))
    (hseen : ¬ "*/".toList <:+: seen) : ¬ "*/".toList <:+: body := by
  rw [unsplice_cons (by decide), unsplice_append (by simp)] at h
  have hbody : unsplice body = seen := List.append_cancel_right (List.cons.inj h).2
  rintro ⟨a, b, rfl⟩
  refine hseen ⟨unsplice a, unsplice b, ?_⟩
  have hends : unsplice ("*/".toList ++ b) = "*/".toList ++ unsplice b := by
    show unsplice ('*' :: '/' :: b) = _
    rw [unsplice_cons (by decide), unsplice_cons (by decide)]
    rfl
  rw [← hbody, List.append_assoc, List.append_assoc, unsplice_append (by simp), hends]

lemma head_append {x y z : List Char} (h : ∀ c ∈ y.head?, c ∈ z.head?) :
    ∀ c ∈ (x ++ y).head?, c ∈ (x ++ z).head? := by
  intro c hc
  cases x with
  | nil => exact h c hc
  | cons d x => exact hc

lemma uncommented_comment {e : Element} {after : List Char} (hcomment : e.isComment = true) (hfits : e.Fits after)
    (hrest : ∀ c ∈ rest.head?, c ∈ after.head?) (hlegible : e.Legible) (tail : Uncommented rest out) :
    Uncommented (e.text ++ rest) (newlines e.text ++ out) := by
  cases e with
  | block inner =>
    obtain ⟨body, rfl⟩ := hlegible
    obtain ⟨seen, hinner, hseen⟩ := hfits
    have hblock := Uncommented.block (unspliced_block hinner hseen) tail
    have htext : "/*".toList ++ body ++ "*/".toList = Element.text (.block ('*' :: (body ++ ['*']))) := by
      simp [Element.text]
    rwa [← newlines_block, htext] at hblock
  | line inner => exact uncommented_lines hlegible (fun c hc => (hfits.2 c (hrest c hc)).1) tail
  | str body => cases hcomment
  | chr body => cases hcomment
  | other c => cases hcomment

/-- **Comment removal** on what a text of C begins with, if `COMMENT` takes its comments as they are and finds none
in its literals. What is behind goes on as the text does, or the text ends there. -/
theorem uncommented_upto (hlex : Lexed (es ++ fs)) (hrest : ∀ c ∈ rest.head?, c ∈ (source fs).head?)
    (hlegible : ∀ e ∈ es, e.Legible) (hseparate : SeparateIn rest es) (tail : Uncommented rest out) :
    Uncommented (source es ++ rest) (uncommented es ++ out) := by
  induction es with
  | nil => exact tail
  | cons e es ih =>
    obtain ⟨hfits, hlex⟩ : e.Fits (source (es ++ fs)) ∧ Lexed (es ++ fs) := hlex
    rw [source_append] at hfits
    obtain ⟨hhere, hseparate⟩ := hseparate
    rw [List.forall_mem_cons] at hlegible
    have tail := ih hlex hlegible.2 hseparate
    have hafter : ∀ c ∈ (source es ++ rest).head?, c ∈ (source es ++ source fs).head? := head_append hrest
    have hsource : source (e :: es) ++ rest = e.text ++ (source es ++ rest) := by
      rw [source, List.flatMap_cons, List.append_assoc]
      rfl
    have hout : uncommented (e :: es) ++ out =
        (if e.isComment then newlines e.text else e.text) ++ (uncommented es ++ out) := by
      rw [uncommented, List.flatMap_cons, List.append_assoc]
      rfl
    rw [hsource, hout]
    have hliteral : e.isLiteral = true → e.isComment = false →
        Uncommented (e.text ++ (source es ++ rest))
          ((if e.isComment then newlines e.text else e.text) ++ (uncommented es ++ out)) := fun hl hc => by
      rw [hc]
      refine uncommented_chars (fun a b hab hb => ?_) tail
      have hat := hhere hl a.length (by simpa [hab] using List.length_pos_iff.mpr hb)
      rwa [hab, List.drop_left] at hat
    cases e with
    | block inner => exact uncommented_comment rfl hfits hafter hlegible.1 tail
    | line inner => exact uncommented_comment rfl hfits hafter hlegible.1 tail
    | str body => exact hliteral rfl rfl
    | chr body => exact hliteral rfl rfl
    | other c =>
      refine .char ?_ tail
      by_cases hc : c = '/'
      · subst hc
        refine commentAt_slash fun d hd => ?_
        by_contra hdelim
        -- no splice is before the second character of a delimiter
        obtain ⟨more, hmore⟩ := List.head?_eq_some_iff.mp (hafter d hd)
        have hd' : d ≠ '\\' := by
          rintro rfl
          exact hdelim (by decide)
        refine hdelim (hfits.2.2 rfl d ?_)
        rw [hmore, unsplice_cons hd']
        rfl
      · exact commentAt_cons hc _

/-- The first terminator of a text is in a line comment. Before it there are only line comments and empty lines, and
of that comment only comments and empty lines are left. -/
def Headed (es post : List Element) : Prop :=
  ∃ pre a more, es = pre ++ .line (a ++ "*/".toList ++ more) :: post ∧
    (∀ e ∈ pre, e = .other '\n' ∨ ∃ inner, e = .line inner) ∧ ¬ "*/".toList <:+: source pre ++ '/' :: a ∧
    ∀ l ∈ lines more, l = [] ∨ "//".toList <+: l

/-- `COMMENT` takes the comments as they are, and finds none in a literal. -/
def ReadableIn (rest : List Char) (es : List Element) : Prop := (∀ e ∈ es, e.Legible) ∧ SeparateIn rest es

/-- The same, with regard to the end of a comment that the text seems to begin in. -/
def SeenIn (rest : List Char) (es : List Element) : Prop :=
  if opened (source es ++ rest) = true then ∃ post, Headed es post ∧ ReadableIn rest post else ReadableIn rest es

/-- The same for a whole text. -/
def Seen : List Element → Prop := SeenIn []

lemma find_first {a : List Char} (h : ¬ "*/".toList <:+: a) (rest : List Char) :
    find "*/".toList (a ++ '*' :: '/' :: rest) = some a.length := by
  induction a with
  | nil => rfl
  | cons c a ih =>
    rw [List.cons_append, find_terminator, if_neg ?_, ih fun hin => h (List.infix_cons hin)]
    · rfl
    · rintro ⟨rfl, hslash⟩
      cases a with
      | nil => exact absurd hslash (by simp)
      | cons d a =>
        obtain rfl : d = '/' := Option.some.inj hslash
        exact h ⟨[], a, rfl⟩

lemma uncommented_newlines {nl : List Char} (h : ∀ c ∈ nl, c = '\n') (tail : Uncommented rest out) :
    Uncommented (nl ++ rest) (nl ++ out) := by
  induction nl with
  | nil => exact tail
  | cons c nl ih =>
    rw [List.forall_mem_cons] at h
    exact .char (commentAt_cons (by rw [h.1]; decide) _) (ih h.2)

lemma lexed_right (h : Lexed (es ++ fs)) : Lexed fs := by
  induction es with
  | nil => exact h
  | cons e es ih => exact ih h.2

lemma newlines_source {pre : List Element} (h : ∀ e ∈ pre, e = .other '\n' ∨ ∃ inner, e = .line inner) :
    uncommented pre = newlines (source pre) := by
  induction pre with
  | nil => rfl
  | cons e pre ih =>
    rw [List.forall_mem_cons] at h
    have hsource : source (e :: pre) = e.text ++ source pre := List.flatMap_cons
    rw [uncommented, List.flatMap_cons, ← uncommented, ih h.2, hsource, newlines_append]
    rcases h.1 with rfl | ⟨inner, rfl⟩ <;> rfl

lemma uncommented_append (es fs : List Element) :
    uncommented (es ++ fs) = uncommented es ++ uncommented fs := List.flatMap_append

/-- What is behind the first terminator does not decide whether a text seems to begin in a comment. -/
lemma opened_cut {x y : List Char} (h : opened (x ++ y) = true) (hclosed : "*/".toList <:+: x) : opened x = true := by
  induction x with
  | nil => exact absurd (List.infix_nil.mp hclosed) (by decide)
  | cons c x ih =>
    have hhead : x = [] ∨ (x ++ y).head? = x.head? := by
      cases x with
      | nil => exact Or.inl rfl
      | cons d x => exact Or.inr rfl
    rcases hhead with rfl | hhead
    · exact absurd hclosed.length_le (by simp)
    · rw [List.cons_append, opened_cons, hhead] at h
      rw [opened_cons]
      split_ifs at h ⊢ with hclose
      · rfl
      · refine ih h ((List.infix_cons_iff.mp hclosed).resolve_left ?_)
        rintro ⟨more, hmore⟩
        obtain ⟨rfl, rfl⟩ := List.cons.inj hmore
        exact hclose ⟨rfl, rfl⟩

lemma SeenIn.cut {x y : List Char} (h : SeenIn (x ++ y) es) : SeenIn x es := by
  unfold SeenIn at h ⊢
  rw [← List.append_assoc] at h
  by_cases hopened : opened (source es ++ x ++ y) = true
  · rw [if_pos hopened] at h
    obtain ⟨post, hheaded, hlegible, hseparate⟩ := h
    have hclosed : "*/".toList <:+: source es ++ x := by
      obtain ⟨pre, a, more, rfl, -⟩ := hheaded
      exact ⟨source pre ++ '/' :: a, more ++ source post ++ x, by simp [source, Element.text]⟩
    rw [if_pos (opened_cut hopened hclosed)]
    exact ⟨post, hheaded, hlegible, hseparate.cut⟩
  · rw [if_neg hopened] at h
    rw [if_neg]
    · exact ⟨h.1, h.2.cut⟩
    · intro hshort
      obtain ⟨_, _, -, hmore⟩ := dropOpened_append hshort
      exact hopened (hmore y).1

/-- **Comment removal** on what a text of C begins with, behind the end of a comment that it seems to begin in. -/
theorem dropComments_upto (hlex : Lexed (es ++ fs)) (hrest : ∀ c ∈ rest.head?, c ∈ (source fs).head?)
    (hseen : SeenIn rest es) (tail : Uncommented rest out) :
    dropComments (dropOpened (source es ++ rest)) = uncommented es ++ out := by
  unfold SeenIn at hseen
  refine (uncommented_iff.mp ?_).symm
  split_ifs at hseen with hopened
  · obtain ⟨post, ⟨pre, a, more, rfl, hpre, hfirst, hmore⟩, hlegible, hseparate⟩ := hseen
    have hlexed : Lexed (pre ++ (.line (a ++ "*/".toList ++ more) :: (post ++ fs))) := by
      rwa [← List.cons_append, ← List.append_assoc]
    obtain ⟨hfits, hlexpost⟩ := lexed_right hlexed
    have hnext : ∀ c ∈ (source post ++ rest).head?, c = '\n' := fun c hc => by
      refine (hfits.2 c ?_).1
      rw [source_append]
      exact head_append hrest c hc
    have tail := uncommented_lines hmore hnext (uncommented_upto hlexpost hrest hlegible hseparate tail)
    have hsource : source (pre ++ .line (a ++ "*/".toList ++ more) :: post) ++ rest =
        (source pre ++ '/' :: a) ++ '*' :: '/' :: (more ++ (source post ++ rest)) := by
      simp [source, Element.text]
    have hout : uncommented (pre ++ .line (a ++ "*/".toList ++ more) :: post) ++ out =
        newlines (source pre ++ '/' :: a ++ ['*', '/']) ++ (newlines more ++ (uncommented post ++ out)) := by
      rw [uncommented_append, newlines_source hpre, uncommented, List.flatMap_cons, ← uncommented]
      simp [Element.isComment, Element.text, newlines]
    rw [hsource] at hopened ⊢
    have hcut : (source pre ++ '/' :: a) ++ '*' :: '/' :: (more ++ (source post ++ rest)) =
        (source pre ++ '/' :: a ++ ['*', '/']) ++ (more ++ (source post ++ rest)) := by simp
    have hlength : (source pre ++ '/' :: a ++ ['*', '/']).length = (source pre ++ '/' :: a).length + 2 :=
      List.length_append
    rw [dropOpened_found hopened (find_first hfirst _), hout, hcut, List.take_left' hlength,
      List.drop_left' hlength]
    exact uncommented_newlines (fun c hc => mem_newlines hc) tail
  · rw [dropOpened_of_not_opened (Bool.eq_false_of_not_eq_true hopened)]
    exact uncommented_upto hlex hrest hseen.1 hseen.2 tail

/-- **Comment removal** on a text of C. -/
theorem dropComments_source (hlex : Lexed es) (hseen : Seen es) :
    dropComments (dropOpened (source es)) = uncommented es := by
  rw [← List.append_nil es] at hlex
  have h := dropComments_upto hlex (by simp) hseen .nil
  rwa [List.append_nil, List.append_nil] at h

/-! ### The label words that are left -/

/-- A word of a text stays with a label word in it: it is in no literal and no directive with a label, and is
no name with a label. -/
def LeftWord (u : Unicode) (code : List Char) : Prop :=
  ∃ text, Shown u code text ∧ ∃ w ∈ words u text, ¬ HasLabel w ∧ ¬ Clean u w

lemma clean_render (hu : Classes u) {ts : List Tok} (h : Valid u.word ts) :
    Clean u (render ts) ↔ ∀ w, .word w ∈ ts → Clean u w := by
  induction ts with
  | nil => exact iff_of_true clean_nil fun w hw => absurd hw List.not_mem_nil
  | cons t ts ih =>
    cases t with
    | sep c =>
      obtain ⟨hc, hts⟩ := h
      rw [show render (.sep c :: ts) = c :: render ts from rfl, clean_cons hu hc, ih hts]
      simp
    | word w =>
      obtain ⟨-, -, hopen, hts⟩ := h
      rw [show render (.word w :: ts) = w ++ render ts from rfl, clean_append hu (head_render hts hopen), ih hts]
      simp

lemma clean_idName (n : ℕ) : Clean u (idName n) := by
  refine clean_of_chars (by decide : harmless ("id_".toList ++ numberChars) = true) fun c hc => ?_
  exact List.mem_append.mpr ((List.mem_append.mp hc).imp id (toString_nat n c))

/-- **`scrub` refuses a text** exactly if a word is left with a label word. -/
theorem scrub_error_iff (hu : Classes u) (code : List Char) :
    (∃ error, scrub u code = .error error) ↔ LeftWord u code := by
  have hscrub : (∃ error, scrub u code = .error error) ↔ ¬ Clean u (scrubbed u code) := by
    unfold scrub Clean
    cases (LEAK_WORDS u).search (scrubbed u code) with
    | none => simp
    | some hit => simp
  rw [hscrub, scrubbed_eq_renameText, renameText, clean_render hu (valid_renamed (valid_toks _)
    fun w hw hlabel => (neutralFor_nameIn _ _ w hw hlabel).word)]
  unfold LeftWord
  simp only [shown_iff, exists_eq_left]
  rw [not_forall]
  constructor
  · rintro ⟨v, hv⟩
    obtain ⟨hmem, hnot⟩ := Classical.not_imp.mp hv
    obtain ⟨t, ht, hw⟩ := List.mem_map.mp hmem
    cases t with
    | sep c => cases hw
    | word w =>
      obtain rfl : newName _ w = v := Tok.word.inj hw
      by_cases hlabel : HasLabel w
      · rw [newName, if_pos hlabel] at hnot
        exact absurd (clean_idName _) hnot
      · rw [newName, if_neg hlabel] at hnot
        exact ⟨w, ht, hlabel, hnot⟩
  · rintro ⟨w, hw, hlabel, hnot⟩
    refine ⟨w, fun h => hnot (h ?_)⟩
    refine List.mem_map.mpr ⟨.word w, hw, ?_⟩
    rw [renamed, newName, if_neg hlabel]

/-! ### What `scrub` returns -/

/-- **Comment removal respects C's lexical structure** on every text of C whose comments are seen as they are:
`scrub` refuses it or returns it without its comments exactly if that shows no label word, or if a label word is
left that makes `scrub` refuse the text. -/
theorem scrub_source (hu : Classes u) (hlex : Lexed es) (hseen : Seen es) :
    ((∃ error, scrub u (source es) = .error error) ∨ scrub u (source es) = .ok (uncommented es)) ↔
      Clean u (uncommented es) ∨ LeftWord u (source es) := by
  have hcomments := dropComments_source hlex hseen
  rw [scrub_error_iff hu, or_comm]
  by_cases hclean : Clean u (uncommented es)
  · refine iff_of_true (Or.inl ?_) (Or.inl hclean)
    have hscrubbed : scrubbed u (source es) = uncommented es := by
      rw [scrubbed_clean (hcomments ▸ hclean), hcomments]
    exact scrub_ok_iff.mpr ⟨hscrubbed.symm, hscrubbed ▸ hclean⟩
  · refine or_congr (iff_of_false (fun hok => ?_) hclean) Iff.rfl
    obtain ⟨hout, hscrubbed⟩ := scrub_ok_iff.mp hok
    exact hclean (hout ▸ hscrubbed)

/-- A text that seems to begin in a comment, with a label word in another one. -/
def smallSource : List Element :=
  [.line "/ a */".toList, .other '\n', .str "a".toList, .block "* bad *".toList, .other ';']

theorem scrub_source_small :
    (∃ error, scrub turkish (source smallSource) = .error error) ∨
      scrub turkish (source smallSource) = .ok "\n\"a\";".toList := by
  have hlex : Lexed smallSource := by
    refine ⟨⟨⟨" a */".toList, rfl, by decide⟩, fun c hc => ?_⟩, ⟨by decide, by decide, by simp⟩,
      .char (by decide) (by decide) (by decide) .nil, ⟨" bad ".toList, rfl, by decide⟩,
      ⟨by decide, by decide, by simp⟩, trivial⟩
    obtain rfl : '\n' = c := Option.some.inj hc
    decide
  have hseen : Seen smallSource := by
    rw [Seen, SeenIn, if_pos (by decide +kernel)]
    refine ⟨[.other '\n', .str "a".toList, .block "* bad *".toList, .other ';'],
      ⟨[], "/ a ".toList, [], rfl, by simp, by decide, by decide⟩, ?_, ?_⟩
    · simp only [List.forall_mem_cons]
      exact ⟨trivial, trivial, ⟨" bad ".toList, rfl⟩, trivial, by simp⟩
    · exact ⟨by decide, by decide +kernel, by decide, by decide, trivial⟩
  exact (scrub_source classes_turkish hlex hseen).mpr (Or.inl (by decide +kernel))

-- `scrub` refuses a text where the removal of a comment makes a label word
example : scrub ascii (source [.other 'f', .other 'l', .block "**".toList, .other 'a', .other 'w']) =
    .error (leakMessage "flaw".toList) := by decide +kernel

-- what is cut out of a literal may come back behind it
example : scrub ascii "\"/*\"//*//*\"\n".toList = .ok "\"/*\"\n".toList := by decide +kernel

/-- **A text of C is not always left whole**: in a literal with a URL, the slashes are taken for a
comment. -/
theorem url_is_cut : ¬ ∀ (u : Unicode) (es : List Element), Lexed es → LabelFree u es →
    (∃ error, scrub u (source es) = .error error) ∨ scrub u (source es) = .ok (uncommented es) := by
  intro h
  have hunits : Units '"' "x://y".toList :=
    .char (by decide) (by decide) (by decide) <| .char (by decide) (by decide) (by decide) <|
    .char (by decide) (by decide) (by decide) <| .char (by decide) (by decide) (by decide) <|
    .char (by decide) (by decide) (by decide) .nil
  have hscrub : scrub ascii (source [.str "x://y".toList, .other ';']) = .ok "\"x:".toList := by
    decide +kernel
  have hlex : Lexed [.str "x://y".toList, .other ';'] :=
    ⟨hunits, ⟨by decide, by decide, by simp⟩, trivial⟩
  rcases h ascii [.str "x://y".toList, .other ';'] hlex (by unfold LabelFree; decide +kernel) with
    ⟨error, herror⟩ | hok
  · rw [hscrub] at herror
    cases herror
  · rw [hscrub] at hok
    have := Except.ok.inj hok
    revert this
    decide

end CSecureBuild.Harness.Comments
