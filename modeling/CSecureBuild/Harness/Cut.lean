import CSecureBuild.Harness.LabelWords
import CSecureBuild.Harness.Rescan

/-!
Scrubbing what `prompt_code` made, once it is cut. The part before the cut is settled (`settled_cut`), and
the notice behind it closes an opening that was left, so that what `scrub` shows is the part before the cut up
to that opening (`dropComments_notice`).
-/

namespace CSecureBuild.Harness.Cut

open CSecureBuild.PyLib.Cells CSecureBuild.PyLib.Regex CSecureBuild.PyLib.Text CSecureBuild.PyLib.Words
open CSecureBuild.Harness.Scrub CSecureBuild.Harness.Patterns CSecureBuild.Harness.Lexing
open CSecureBuild.Harness.Linewise CSecureBuild.Harness.Reading CSecureBuild.Harness.Renaming
open CSecureBuild.Harness.LabelWords CSecureBuild.Harness.Rescan

variable {u : Unicode} {text v z ends : List Char}

/-! ### A part of a settled text -/

lemma directive_front {line more : List Char} (h : Directive line) : Directive (line ++ more) := by
  induction line with
  | nil => cases h
  | cons c line ih =>
    rw [List.cons_append]
    unfold Directive at h ⊢
    split_ifs at h ⊢
    · exact ih h
    · exact ⟨h.1, hasOmit_mono h.2 (List.prefix_append line more).isInfix⟩

lemma lines_append (v z : List Char) : ∃ front last more others, lines v = front ++ [last] ∧
    lines z = more :: others ∧ lines (v ++ z) = front ++ (last ++ more) :: others := by
  induction v using line_induction with
  | last line hline =>
    obtain ⟨more, others, hz⟩ := List.exists_cons_of_ne_nil (lines_ne_nil z)
    refine ⟨[], line, more, others, lines_last hline, hz, ?_⟩
    induction z using line_induction with
    | last z hz' =>
      rw [lines_last hz'] at hz
      obtain ⟨rfl, rfl⟩ := List.cons.inj hz
      rw [lines_last (by simp [hline, hz'])]
      rfl
    | step first rest hfirst _ =>
      rw [lines_line hfirst] at hz
      obtain ⟨rfl, rfl⟩ := List.cons.inj hz
      rw [← List.append_assoc, lines_line (by simp [hline, hfirst])]
      rfl
  | step line rest hline ih =>
    obtain ⟨front, last, more, others, hrest, hz, hboth⟩ := ih
    refine ⟨line :: front, last, more, others, ?_, hz, ?_⟩
    · rw [lines_line hline, hrest]
      rfl
    · rw [List.append_assoc, List.cons_append, lines_line hline, hboth]
      rfl

lemma infix_of_mem_lines {line : List Char} (h : line ∈ lines text) : line <:+: text := by
  induction text using line_induction with
  | last text htext =>
    rw [lines_last htext, List.mem_singleton] at h
    exact h ▸ List.infix_refl line
  | step first rest hfirst ih =>
    rw [lines_line hfirst, List.mem_cons] at h
    rcases h with rfl | h
    · exact (List.prefix_append line _).isInfix
    · exact (List.infix_cons (ih h)).trans (List.suffix_append first _).isInfix

lemma undirected_cut (h : Undirected (v ++ z)) (hends : ∀ c ∈ ends, c = '\n') : Undirected (v ++ ends) := by
  obtain ⟨front, last, more, others, hv, -, hboth⟩ := lines_append v z
  obtain ⟨front', last', more', others', hv', hends', hboth'⟩ := lines_append v ends
  obtain ⟨rfl, hlast⟩ := List.append_inj' (hv.symm.trans hv') rfl
  obtain rfl := (List.cons.inj hlast).1
  have hempty : ∀ line ∈ lines ends, line = [] := by
    intro line hline
    refine List.eq_nil_iff_forall_not_mem.mpr fun c hc => ?_
    obtain rfl := hends c ((infix_of_mem_lines hline).subset hc)
    exact flat_of_mem_lines hline hc
  intro line hline
  rw [hboth', List.mem_append, List.mem_cons] at hline
  rw [hends'] at hempty
  rcases hline with hline | rfl | hline
  · exact h line (by rw [hboth]; exact List.mem_append_left _ hline)
  · rw [hempty more' List.mem_cons_self, List.append_nil]
    exact fun hlast => h (last ++ more) (by rw [hboth]; simp) (directive_front hlast)
  · rw [hempty line (List.mem_cons_of_mem _ hline)]
    exact id

lemma closes_ends (hends : ∀ c ∈ ends, c = '\n') (esc : Bool) : closes esc ends = false := by
  cases ends with
  | nil => cases esc <;> rfl
  | cons c ends =>
    obtain rfl := hends c List.mem_cons_self
    cases esc <;> rfl

lemma tidy_ends (hends : ∀ c ∈ ends, c = '\n') : Tidy u ends := by
  have hquote : '"' ∉ ends := fun h => absurd (hends _ h) (by decide)
  have := Overwritten.append hquote (.nil (u := u))
  rwa [List.append_nil] at this

lemma closes_cut (hends : ∀ c ∈ ends, c = '\n') (esc : Bool) (h : closes esc (v ++ z) = false) :
    closes esc (v ++ ends) = false := by
  induction v generalizing esc with
  | nil => exact closes_ends hends esc
  | cons c v ih =>
    cases esc with
    | true =>
      rw [List.cons_append, closes, Bool.and_eq_false_imp] at h ⊢
      exact fun hc => ih false (h hc)
    | false =>
      rw [List.cons_append, closes, Bool.and_eq_false_imp] at h ⊢
      intro hc
      rw [Bool.or_eq_false_iff] at h ⊢
      exact ⟨(h hc).1, ih _ (h hc).2⟩

/-- A literal that is cut is none, and there is none in it. -/
lemma cut_literal (hends : ∀ c ∈ ends, c = '\n') {body : List Char} (h : Units '"' body)
    (hfront : v <+: body) : closes false (v ++ ends) = false ∧ Tidy u (v ++ ends) := by
  induction h generalizing v with
  | nil =>
    rw [List.prefix_nil.mp hfront]
    exact ⟨closes_ends hends false, tidy_ends hends⟩
  | @char c body hquote hescape hline _ ih =>
    rcases List.prefix_cons_iff.mp hfront with rfl | ⟨v, rfl, hv⟩
    · exact ⟨closes_ends hends false, tidy_ends hends⟩
    · obtain ⟨hdead, htidy⟩ := ih hv
      exact ⟨by simpa [closes, hquote, hescape, hline] using hdead, .char hquote htidy⟩
  | @escape c body hline _ ih =>
    rcases List.prefix_cons_iff.mp hfront with rfl | ⟨v, rfl, hv⟩
    · exact ⟨closes_ends hends false, tidy_ends hends⟩
    · rcases List.prefix_cons_iff.mp hv with rfl | ⟨v, rfl, hrest⟩
      · exact ⟨closes_ends hends true, .char (by decide) (tidy_ends hends)⟩
      · obtain ⟨hdead, htidy⟩ := ih hrest
        refine ⟨by simpa [closes, hline] using hdead, .char (by decide) ?_⟩
        by_cases hc : c = '"'
        · subst hc
          exact .dead hdead htidy
        · exact .char hc htidy

lemma tidy_cut (hends : ∀ c ∈ ends, c = '\n') (h : Tidy u (v ++ z)) : Tidy u (v ++ ends) := by
  induction hlen : v.length using Nat.strong_induction_on generalizing v with
  | _ n ih =>
    cases v with
    | nil => exact tidy_ends hends
    | cons c v =>
      by_cases hc : c = '"'
      · subst hc
        rcases Tidy.quote h with ⟨hdead, htail⟩ | ⟨body, more, heq, hbody, hclean, htail⟩
        · exact .dead (closes_cut hends false hdead) (ih v.length (by simp [← hlen]) htail rfl)
        · rcases List.append_eq_append_iff.mp heq with ⟨a, hbody', -⟩ | ⟨a, hv, hmore⟩
          · obtain ⟨hdead, htidy⟩ := cut_literal (u := u) hends hbody (v := v) ⟨a, hbody'.symm⟩
            exact .dead hdead htidy
          · cases a with
            | nil =>
              obtain ⟨hdead, htidy⟩ := cut_literal (u := u) hends hbody (v := v) (by simp [hv])
              exact .dead hdead htidy
            | cons d a =>
              obtain ⟨rfl, rfl⟩ := List.cons.inj hmore
              have hrest := ih a.length (by simp [← hlen, hv]; omega) htail rfl
              have hsame := Overwritten.literal hbody hrest
              rw [shownBody_of_clean hclean] at hsame
              rw [hv]
              simpa [Tidy] using hsame
      · exact .char hc (ih v.length (by simp [← hlen]) (h.tail hc) rfl)

lemma unlabelled_iff : Unlabelled u text ↔ ∀ l ∈ nameLabels, ¬ l <:+: text := by
  constructor
  · intro h l hl hinfix
    have hword := word_of_label (u := u) hl
    obtain ⟨d, l, rfl⟩ := List.exists_cons_of_ne_nil (show l ≠ [] by
      rintro rfl
      revert hl
      decide)
    -- a label is one word, so that it is spelled within one
    have hfind : ∀ ts : List Tok, Valid u.word ts → d :: l <:+: render ts → ∃ w, .word w ∈ ts ∧ d :: l <:+: w := by
      intro ts hts hinfix
      induction ts with
      | nil => simp at hinfix
      | cons t ts ih =>
        cases t with
        | sep c =>
          have hc : c ∉ [d] ++ l := fun hmem => by
            have := hword c hmem
            rw [hts.1] at this
            cases this
          have hrest : d :: l <:+: render ts := by
            refine infix_of_notMem (a := [c]) ?_ hinfix
            rw [List.mem_singleton]
            rintro rfl
            exact hc (by simp)
          obtain ⟨w, hw, hlw⟩ := ih hts.2 hrest
          exact ⟨w, List.mem_cons_of_mem _ hw, hlw⟩
        | word w =>
          obtain ⟨-, -, hopen, hts⟩ := hts
          have hsides := infix_sides (a := w) hinfix fun c hc hmem => by
            have := hword c hmem
            rw [head_render hts hopen c hc] at this
            cases this
          rcases hsides with hw | hrest
          · exact ⟨w, List.mem_cons_self, hw⟩
          · obtain ⟨w', hw', hlw⟩ := ih hts hrest
            exact ⟨w', List.mem_cons_of_mem _ hw', hlw⟩
    obtain ⟨w, hw, hlw⟩ := hfind (toks u.word text) (valid_toks text) (by rwa [render_toks])
    exact h w hw ⟨d :: l, hl, hlw⟩
  · rintro h w hw ⟨l, hl, hlw⟩
    exact h l hl (hlw.trans (part_of_mem_toks hw))

lemma unlabelled_cut (h : Unlabelled u (v ++ z)) (hends : ∀ c ∈ ends, c = '\n') : Unlabelled u (v ++ ends) := by
  rw [unlabelled_iff] at h ⊢
  intro l hl hinfix
  have hnewline : '\n' ∉ l := fun hmem => by
    have := word_of_label (u := u) hl _ hmem
    rw [not_word (by simp)] at this
    cases this
  rcases infix_sides hinfix fun c hc hmem => hnewline (hends c (List.mem_of_mem_head? hc) ▸ hmem) with hv | hrest
  · exact h l hl (hv.trans (List.prefix_append v z).isInfix)
  · obtain ⟨d, l, rfl⟩ := List.exists_cons_of_ne_nil (show l ≠ [] by
      rintro rfl
      revert hl
      decide)
    exact hnewline (hends d (hrest.subset List.mem_cons_self) ▸ List.mem_cons_self)

/-- **A part of a settled text is settled**, also with newlines behind it. -/
theorem settled_cut (h : Settled u (v ++ z)) (hends : ∀ c ∈ ends, c = '\n') : Settled u (v ++ ends) where
  comments := by
    have hblocks : Blocks (v ++ z) (v ++ ends) := by
      refine Blocks.append v ?_
      cases ends with
      | nil => exact .drop z
      | cons c ends =>
        have hplain : ∀ d ∈ c :: ends, d ≠ '/' ∧ d ≠ '*' := fun d hd => by
          rw [hends d hd]
          decide
        have hblock : Blocks (z ++ []) (c :: ends ++ []) := .block z (List.cons_ne_nil c ends) hplain (.drop [])
        rwa [List.append_nil, List.append_nil] at hblock
    exact hblocks.commentFree h.comments
  directives := undirected_cut h.directives hends
  literals := tidy_cut hends h.literals
  labels := unlabelled_cut h.labels hends

/-! ### The notice -/

/-- What `prompt_code` puts behind the cut. -/
def notice : List Char := "\n/* [truncated] */\n".toList

lemma notice_eq : notice = '\n' :: ("/*".toList ++ " [truncated] ".toList ++ "*/".toList ++ ['\n']) := by
  decide +kernel

lemma capped_char (text : List Char) : capped text =
    if CONTEXT_CHAR_CAP < text.length then text.take CONTEXT_CHAR_CAP ++ notice else text := by
  unfold capped notice
  rw [show (Cell.plain : Char → Char) = id from rfl, List.map_id]

/-- What a text has before its first opening. -/
def unopened : List Char → List Char
  | [] => []
  | c :: rest => if c = '/' ∧ rest.head? = some '*' then [] else c :: unopened rest

lemma unopened_front (text : List Char) : unopened text <+: text := by
  induction text with
  | nil => exact List.nil_prefix
  | cons c rest ih =>
    unfold unopened
    split_ifs
    · exact List.nil_prefix
    · exact List.cons_prefix_cons.mpr ⟨rfl, ih⟩

lemma head_notice (c : Char) (text : List Char) (hc : c = '/' ∨ c = '*') :
    (text ++ notice).head? = some c ↔ text.head? = some c := by
  cases text with
  | nil =>
    rw [notice_eq]
    rcases hc with rfl | rfl <;> simp
  | cons d text => exact Iff.rfl

lemma opened_notice (text : List Char) : opened (text ++ notice) = opened text := by
  induction text with
  | nil => decide +kernel
  | cons c rest ih =>
    rw [List.cons_append, opened_cons, opened_cons, ih]
    simp only [head_notice _ rest (Or.inl rfl), head_notice _ rest (Or.inr rfl)]

/-- **The notice closes an opening that was left.** -/
theorem dropComments_notice (h : CommentFree text) :
    ∃ ends, (∀ c ∈ ends, c = '\n') ∧ dropComments (text ++ notice) = unopened text ++ ends := by
  have hend : Uncommented ['\n'] ['\n'] := .char (by decide) .nil
  have hseen : ∃ ends, (∀ c ∈ ends, c = '\n') ∧ Uncommented (text ++ notice) (unopened text ++ ends) := by
    induction text with
    -- the notice is a comment of its own
    | nil =>
      have hbody : ¬ "*/".toList <:+: " [truncated] ".toList := by decide +kernel
      have hlines : newlines " [truncated] ".toList = [] := by decide +kernel
      have hblock := Uncommented.block hbody hend
      rw [hlines] at hblock
      refine ⟨['\n', '\n'], by simp, ?_⟩
      rw [List.nil_append, notice_eq]
      exact .char (commentAt_cons (by decide) _) hblock
    | cons c rest ih =>
      have hat : commentAt (c :: rest) = false := h [] (c :: rest) rfl
      unfold unopened
      split_ifs with hopen
      · -- what is behind the opening goes with the notice
        obtain ⟨rfl, hhead⟩ := hopen
        obtain ⟨body, rfl⟩ := List.head?_eq_some_iff.mp hhead
        have hbody : ¬ "*/".toList <:+: body ++ '\n' :: "/* [truncated] ".toList := by
          intro hinfix
          rcases infix_sides hinfix (by simp) with hbody | hnotice
          · have hclosed : commentAt ('/' :: '*' :: body) = true := commentAt_iff.mpr (Or.inr ⟨⟨body, rfl⟩, hbody⟩)
            rw [hat] at hclosed
            cases hclosed
          · revert hnotice
            decide +kernel
        refine ⟨newlines (body ++ '\n' :: "/* [truncated] ".toList) ++ ['\n'], fun c hc => ?_, ?_⟩
        · rcases List.mem_append.mp hc with hc | hc
          · exact mem_newlines hc
          · exact List.mem_singleton.mp hc
        · have hsplit : '/' :: '*' :: body ++ notice =
              "/*".toList ++ (body ++ '\n' :: "/* [truncated] ".toList) ++ "*/".toList ++ ['\n'] := by
            simp [notice_eq]
          rw [hsplit]
          exact .block hbody hend
      · -- any other character stays, unless the notice makes a comment of it
        obtain ⟨ends, hends, htail⟩ := ih (CommentFree.tail (a := [c]) h)
        refine ⟨ends, hends, .char ?_ htail⟩
        by_cases hc : c = '/'
        · subst hc
          refine commentAt_slash fun d hd => ⟨?_, ?_⟩
          · rintro rfl
            obtain ⟨more, rfl⟩ := List.head?_eq_some_iff.mp ((head_notice _ rest (Or.inl rfl)).mp hd)
            have hline : commentAt ('/' :: '/' :: more) = true := commentAt_iff.mpr (Or.inl ⟨more, rfl⟩)
            rw [hat] at hline
            cases hline
          · rintro rfl
            exact hopen ⟨rfl, (head_notice _ rest (Or.inr rfl)).mp hd⟩
        · exact commentAt_cons hc _
  obtain ⟨ends, hends, h⟩ := hseen
  exact ⟨ends, hends, (uncommented_iff.mp h).symm⟩

/-! ### A second pass behind the cut -/

/-- What a second pass shows of a text, if there is a cut: nothing behind an opening that is left. -/
def kept (text : List Char) : List Char :=
  if CONTEXT_CHAR_CAP < text.length ∧ opened text = false then unopened (text.take CONTEXT_CHAR_CAP)
  else text.take CONTEXT_CHAR_CAP

lemma kept_of_le (h : text.length ≤ CONTEXT_CHAR_CAP) : kept text = text := by
  rw [kept, if_neg (by omega), List.take_of_length_le h]

lemma scrubbed_of_settled {code : List Char} (h : dropComments (dropOpened code) = text)
    (hsettled : Settled u text) : scrubbed u code = text := by
  have hstrip : strip u code = text := by
    rw [strip, h, dropDirectives_of_undirected hsettled.directives, ← overwritten_iff.mp hsettled.literals]
  rw [scrubbed, hstrip, name_subState, renameToks_same rename [] hsettled.labels, render_toks]

lemma commentFree_take (h : CommentFree text) (n : ℕ) : CommentFree (text.take n) := by
  have hblocks := Blocks.append (text.take n) (.drop (text.drop n))
  rw [List.take_append_drop, List.append_nil] at hblocks
  exact hblocks.commentFree h

lemma opened_take (h : opened text = false) (n : ℕ) : opened (text.take n) = false := by
  refine Bool.eq_false_of_not_eq_true fun hfront => ?_
  obtain ⟨a, b, -, hmore⟩ := dropOpened_append hfront
  have := (hmore (text.drop n)).1
  rw [List.take_append_drop, h] at this
  cases this

/-- **What a second pass shows of a text**, if no terminator is left over. -/
theorem scrubbed_capped (h : Settled u text) (hopened : opened text = false) :
    ∃ ends, (∀ c ∈ ends, c = '\n') ∧ scrubbed u (capped text) = kept text ++ ends := by
  rw [capped_char]
  by_cases hlong : CONTEXT_CHAR_CAP < text.length
  · rw [if_pos hlong, kept, if_pos ⟨hlong, hopened⟩]
    obtain ⟨ends, hends, hcomments⟩ := dropComments_notice (commentFree_take h.comments CONTEXT_CHAR_CAP)
    refine ⟨ends, hends, scrubbed_of_settled ?_ ?_⟩
    · rw [dropOpened_of_not_opened (by rw [opened_notice, opened_take hopened _]), hcomments]
    · obtain ⟨z, hz⟩ := (unopened_front (text.take CONTEXT_CHAR_CAP)).trans (List.take_prefix _ text)
      exact settled_cut (z := z) (by rwa [hz]) hends
  · rw [if_neg hlong, kept_of_le (by omega)]
    exact ⟨[], by simp, by rw [List.append_nil]; exact h.scrubbed_eq hopened⟩

/-- **A second pass finds no label word** where what is kept has none. -/
theorem clean_scrubbed_capped (hu : Classes u) (hfree : CommentFree text) (h : Clean u (kept text)) :
    Clean u (scrubbed u (capped text)) := by
  suffices hclean : Clean u (dropComments (dropOpened (capped text))) by rwa [scrubbed_clean hclean]
  have hplain : ∀ {ends : List Char}, (∀ c ∈ ends, c = '\n') → ∀ c ∈ ends, u.word c = false := fun hends c hc => by
    rw [hends c hc]
    exact not_word (by simp)
  -- the part before the cut, without what is taken for the end of a comment
  have hrest : ∀ {q : List Char}, CommentFree q → Clean u q → ∃ r, CommentFree r ∧ Clean u r ∧
      dropOpened q = r ∧ dropOpened (q ++ notice) = r ++ notice := by
    intro q hq hclean
    cases hopened : opened q with
    | true =>
      obtain ⟨a, b, rfl, hmore⟩ := dropOpened_append hopened
      refine ⟨newlines (a ++ ['*', '/']) ++ b, ?_, ?_, ?_, ?_⟩
      · rw [List.append_cons, List.append_cons] at hq
        exact commentFree_newlines (fun c hc => mem_newlines hc) hq.tail
      · rw [clean_sep hu (not_word (by simp)), clean_cons hu (not_word (by simp))] at hclean
        exact (clean_plain hu (hplain fun c hc => mem_newlines hc)).mpr hclean.2
      · have := (hmore []).2
        rwa [List.append_nil, List.append_nil] at this
      · rw [(hmore notice).2, List.append_assoc]
    | false =>
      exact ⟨q, hq, hclean, dropOpened_of_not_opened hopened,
        dropOpened_of_not_opened (by rw [opened_notice, hopened])⟩
  have hcut := commentFree_take hfree CONTEXT_CHAR_CAP
  rw [capped_char]
  unfold kept at h
  by_cases hlong : CONTEXT_CHAR_CAP < text.length
  · rw [if_pos hlong]
    split_ifs at h with hopened
    · obtain ⟨ends, hends, hcomments⟩ := dropComments_notice hcut
      rw [dropOpened_of_not_opened (by rw [opened_notice, opened_take hopened.2 _]), hcomments]
      exact (clean_append_plain hu (hplain hends)).mpr h
    · obtain ⟨r, hr, hclean, -, hdrop⟩ := hrest hcut h
      obtain ⟨ends, hends, hcomments⟩ := dropComments_notice hr
      obtain ⟨z, hz⟩ := unopened_front r
      rw [hdrop, hcomments]
      exact (clean_append_plain hu (hplain hends)).mpr (Clean.front (x := z) (by rwa [hz]))
  · rw [if_neg fun hlong' => hlong hlong'.1, List.take_of_length_le (by omega)] at h
    obtain ⟨r, hr, hclean, hdrop, -⟩ := hrest hfree h
    rwa [if_neg hlong, hdrop, dropComments_of_free hr]

end CSecureBuild.Harness.Cut
