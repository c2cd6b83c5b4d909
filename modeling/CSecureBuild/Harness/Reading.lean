import CSecureBuild.Harness.Lexing

/-!
What a text shows to a reader who passes over its comments, its directives with a label and what stands in
its literals with a label word. This is said without the expressions of `scrub`: by what a comment is, what
a line is, and where a quote begins a literal (`Shown`). `shown_iff` says that `strip` makes that text.
-/

namespace CSecureBuild.Harness.Reading

open CSecureBuild.PyLib.Cells CSecureBuild.PyLib.Regex CSecureBuild.PyLib.Text
open CSecureBuild.Harness.Scrub CSecureBuild.Harness.Patterns CSecureBuild.Harness.Lexing
open CSecureBuild.Harness.Linewise

/-! ### Comments -/

/-- What a text shows without its comments: they leave their newlines. -/
inductive Uncommented : List Char → List Char → Prop where
  | nil : Uncommented [] []
  | char {c : Char} {rest out : List Char} (hc : commentAt (c :: rest) = false)
      (tail : Uncommented rest out) : Uncommented (c :: rest) (c :: out)
  | line {body rest out : List Char} (hbody : ∀ c ∈ body, c ≠ '\n') (hrest : ∀ c ∈ rest.head?, c = '\n')
      (tail : Uncommented rest out) : Uncommented ("//".toList ++ body ++ rest) out
  | block {body rest out : List Char} (hbody : ¬ "*/".toList <:+: body) (tail : Uncommented rest out) :
      Uncommented ("/*".toList ++ body ++ "*/".toList ++ rest) (newlines body ++ out)

variable {u : Unicode} {before after text out : List Char} {m : Match Char}

lemma comment_slash (h : COMMENT.hitAt before after = some m) : after.head? = some '/' := by
  have hat : commentAt after = true := by
    by_contra hnot
    rw [hitAt_none (comment_first.mpr (Bool.eq_false_of_not_eq_true hnot))] at h
    cases h
  rcases commentAt_iff.mp hat with ⟨text, rfl⟩ | ⟨⟨text, rfl⟩, -⟩ <;> rfl

lemma commentAt_of_hitAt_none (h : COMMENT.hitAt before after = none) :
    commentAt after = false := by
  by_contra hat
  obtain ⟨m, hm, hne⟩ := comment_found before (Bool.eq_true_of_not_eq_false hat)
  rw [hitAt_some hm hne] at h
  cases h

lemma mem_newlines {text : List Char} {c : Char} (h : c ∈ newlines text) : c = '\n' := by
  simpa using (List.mem_filter.mp h).2

/-- A text in which comments begin somewhere, and one match for each. -/
lemma comment_spec (h : COMMENT.first before after = some m) :
    (∃ body rest, (∀ c ∈ body, c ≠ '\n') ∧ (∀ c ∈ rest.head?, c = '\n') ∧
      after = "//".toList ++ body ++ rest ∧ m.whole = "//".toList ++ body) ∨
    ∃ body rest, ¬ "*/".toList <:+: body ∧ after = "/*".toList ++ body ++ "*/".toList ++ rest ∧
      m.whole = "/*".toList ++ body ++ "*/".toList := by
  have hat : commentAt after = true := by
    by_contra hnot
    rw [comment_first.mpr (Bool.eq_false_of_not_eq_true hnot)] at h
    cases h
  rcases comment_shape hat with ⟨body, rest, hbody, hrest, rfl⟩ | ⟨body, rest, hbody, rfl⟩
  · obtain ⟨m', hm', hwhole⟩ := comment_line before hbody hrest
    obtain rfl : m = m' := Option.some.inj (h.symm.trans hm')
    exact Or.inl ⟨body, rest, hbody, hrest, rfl, hwhole⟩
  · obtain ⟨m', hm', hwhole⟩ := comment_block before rest hbody
    obtain rfl : m = m' := Option.some.inj (h.symm.trans hm')
    exact Or.inr ⟨body, rest, hbody, rfl, hwhole⟩

lemma newlines_line {body : List Char} (h : ∀ c ∈ body, c ≠ '\n') : newlines ("//".toList ++ body) = [] := by
  rw [newlines_append, newlines_eq_nil h]
  rfl

lemma newlines_block (body : List Char) : newlines ("/*".toList ++ body ++ "*/".toList) = newlines body := by
  have hmark : newlines "*/".toList = [] := newlines_eq_nil (by simp)
  rw [newlines_append, newlines_append, hmark, List.append_nil]
  rfl

/-- **Removing comments** leaves what a reader sees. -/
theorem uncommented_iff : Uncommented text out ↔ out = dropComments text := by
  constructor
  · intro h
    -- what is seen as a comment is what is found at its place
    have hcut : ∀ before, ∃ ps, COMMENT.Cut before text ps ∧
        ps.flatMap (Piece.replaced fun m => newlines m.whole) = out := by
      induction h with
      | nil => exact fun before => ⟨[], .nil before, rfl⟩
      | char hc _ ih =>
        intro before
        obtain ⟨ps, hps, hout⟩ := ih (_ :: before)
        exact ⟨_, .keep (hitAt_none (comment_first.mpr hc)) hps, by rw [← hout]; rfl⟩
      | @line body rest out hbody hrest _ ih =>
        intro before
        obtain ⟨m, hm, hwhole⟩ := comment_line before hbody hrest
        obtain ⟨ps, hps, hout⟩ := ih (("//".toList ++ body).reverse ++ before)
        refine ⟨_, .found (hitAt_some hm (by simp [hwhole])) hwhole hps, ?_⟩
        rw [List.flatMap_cons, Piece.replaced, hwhole, newlines_line hbody, hout, List.nil_append]
      | @block body rest out hbody _ ih =>
        intro before
        obtain ⟨m, hm, hwhole⟩ := comment_block before rest hbody
        obtain ⟨ps, hps, hout⟩ := ih (("/*".toList ++ body ++ "*/".toList).reverse ++ before)
        refine ⟨_, .found (hitAt_some hm (by simp [hwhole])) hwhole hps, ?_⟩
        rw [List.flatMap_cons, Piece.replaced, hwhole, newlines_block, hout]
    obtain ⟨ps, hps, hout⟩ := hcut []
    rw [← hout, ← hps.eq]
    rfl
  · rintro rfl
    -- and what is found is seen so
    have hcut : ∀ (before after : List Char) (ps : List (Piece Char)), COMMENT.Cut before after ps →
        Uncommented after (ps.flatMap (Piece.replaced fun m => newlines m.whole)) := by
      intro before after ps h
      induction h with
      | nil before => exact .nil
      | keep hnone _ ih => exact .char (commentAt_of_hitAt_none hnone) ih
      | @hit before rest m ps hsome _ ih =>
        rw [List.flatMap_cons, Piece.replaced]
        rcases comment_spec (hitAt_spec hsome).1 with
          ⟨body, rest', hbody, hrest, hafter, hwhole⟩ | ⟨body, rest', hbody, hafter, hwhole⟩
        · rw [hwhole] at hafter ⊢
          obtain rfl := List.append_cancel_left hafter
          rw [newlines_line hbody]
          exact .line hbody hrest ih
        · rw [hwhole] at hafter ⊢
          obtain rfl := List.append_cancel_left hafter
          rw [newlines_block]
          exact .block hbody ih
    exact hcut [] text _ (cut_piecesFrom COMMENT [] text)

/-! ### Literals -/

lemma clean_crosses (n : ℕ) : Clean u (List.replicate n 'x') := by
  rw [clean_iff]
  intro a b hab
  have hb : ∀ c ∈ b, c = 'x' := fun c hc =>
    List.eq_of_mem_replicate (by rw [hab]; exact List.mem_append_right a hc)
  have hall : ∀ pattern ∈ "fix".toList :: leakWords, pattern.head?.any (caseless · 'x') = false ∧
      pattern ≠ [] := by
    decide +kernel
  have hfirst : ∀ pattern ∈ "fix".toList :: leakWords, spells pattern b = false := by
    intro pattern hpattern
    obtain ⟨hhead, hne⟩ := hall pattern hpattern
    obtain ⟨d, more, rfl⟩ := List.exists_cons_of_ne_nil hne
    cases b with
    | nil => rfl
    | cons c b =>
      obtain rfl := hb c List.mem_cons_self
      rw [spells, show caseless d 'x' = false by simpa using hhead, Bool.false_and]
  unfold leakAt
  rw [hfirst "fix".toList List.mem_cons_self, Bool.and_false, Bool.or_false, List.any_eq_false]
  intro pattern hpattern
  simp [hfirst pattern (List.mem_cons_of_mem _ hpattern)]

lemma units_crosses (n : ℕ) : Units '"' (List.replicate n 'x') := by
  induction n with
  | zero => exact .nil
  | succ n ih => exact .char (by decide) (by decide) (by decide) ih

/-- There is the end of a literal in what is behind its first quote, or behind a backslash. -/
def closes : Bool → List Char → Bool
  | _, [] => false
  | true, c :: rest => c ≠ '\n' && closes false rest
  | false, c :: rest => c ≠ '\n' && (c = '"' || closes (c = '\\') rest)

lemma closes_units {body : List Char} (h : Units '"' body) (rest : List Char) :
    closes false (body ++ '"' :: rest) = true := by
  induction h with
  | nil => rfl
  | char hquote hescape hline _ ih => simpa [closes, hquote, hescape, hline] using ih
  | escape hline _ ih => simpa [closes, hline] using ih

lemma string_first_quote {body : List Char} (hbody : Units '"' body) (before rest : List Char) :
    STRING.first before ('"' :: (body ++ '"' :: rest)) = some ⟨'"' :: body ++ ['"'], [(2, body), (1, [])]⟩ :=
  string_first (Or.inl rfl) hbody

lemma closes_of_first_none {before rest : List Char} (h : STRING.first before ('"' :: rest) = none) :
    closes false rest = false := by
  have hunits : ∀ (esc : Bool) (rest : List Char), closes esc rest = true → ∃ body more,
      Units '"' (bif esc then '\\' :: body else body) ∧ rest = body ++ '"' :: more := by
    intro esc rest
    induction rest generalizing esc with
    | nil => exact fun h => by cases esc <;> cases h
    | cons c rest ih =>
      intro h
      cases esc with
      | true =>
        rw [closes, Bool.and_eq_true, decide_eq_true_iff] at h
        obtain ⟨body, more, hbody, rfl⟩ := ih false h.2
        exact ⟨c :: body, more, .escape h.1 hbody, rfl⟩
      | false =>
        rw [closes, Bool.and_eq_true, decide_eq_true_iff] at h
        by_cases hc : c = '"'
        · exact ⟨[], rest, .nil, by rw [hc]; rfl⟩
        · obtain ⟨body, more, hbody, rfl⟩ := ih (c = '\\') (by simpa [hc] using h.2)
          by_cases hescape : c = '\\'
          · subst hescape
            exact ⟨'\\' :: body, more, hbody, rfl⟩
          · rw [decide_eq_false hescape] at hbody
            exact ⟨c :: body, more, .char hc hescape h.1 hbody, rfl⟩
  refine Bool.eq_false_of_not_eq_true fun hcloses => ?_
  obtain ⟨body, more, (hbody : Units '"' body), rfl⟩ := hunits false rest hcloses
  rw [string_first_quote hbody] at h
  cases h

lemma first_none_of_hitAt {before rest : List Char} (h : STRING.hitAt before rest = none) :
    STRING.first before rest = none := by
  by_contra hsome
  obtain ⟨m, hm⟩ := Option.ne_none_iff_exists'.mp hsome
  obtain ⟨wide, body, more, -, -, -, rfl⟩ := string_spec hm
  rw [hitAt_some hm (by simp)] at h
  cases h

/-- What stands between the quotes of a literal: its text, or as many crosses if there is a label word. -/
def shownBody (u : Unicode) (body : List Char) : List Char :=
  if Clean u body then body else List.replicate body.length 'x'

lemma shownBody_spec {body : List Char} (hbody : Units '"' body) :
    Units '"' (shownBody u body) ∧ Clean u (shownBody u body) := by
  unfold shownBody
  split_ifs with hclean
  · exact ⟨hbody, hclean⟩
  · exact ⟨units_crosses _, clean_crosses _⟩

lemma shownBody_of_clean {body : List Char} (h : Clean u body) : shownBody u body = body := if_pos h

/-- What a text shows of its literals. -/
inductive Overwritten (u : Unicode) : List Char → List Char → Prop where
  | nil : Overwritten u [] []
  | char {c : Char} {rest out : List Char} (hc : c ≠ '"') (tail : Overwritten u rest out) :
      Overwritten u (c :: rest) (c :: out)
  | dead {rest out : List Char} (hdead : closes false rest = false) (tail : Overwritten u rest out) :
      Overwritten u ('"' :: rest) ('"' :: out)
  | literal {body rest out : List Char} (hbody : Units '"' body) (tail : Overwritten u rest out) :
      Overwritten u ('"' :: (body ++ '"' :: rest)) ('"' :: (shownBody u body ++ '"' :: out))

lemma literal_inj {body rest body' rest' : List Char} (h : Units '"' body) (h' : Units '"' body')
    (heq : body ++ '"' :: rest = body' ++ '"' :: rest') : body = body' ∧ rest = rest' := by
  have hfirst := string_first_quote h [] rest
  rw [heq, string_first_quote h'] at hfirst
  obtain rfl : body' = body := by simpa using hfirst
  exact ⟨rfl, by simpa using heq⟩

lemma Overwritten.char_inv {c : Char} {rest : List Char} (hc : c ≠ '"') (h : Overwritten u (c :: rest) out) :
    ∃ more, out = c :: more ∧ Overwritten u rest more := by
  cases h with
  | char _ tail => exact ⟨_, rfl, tail⟩
  | dead _ _ => exact absurd rfl hc
  | literal _ _ => exact absurd rfl hc

lemma Overwritten.quote_inv {rest : List Char} (h : Overwritten u ('"' :: rest) out) :
    (closes false rest = false ∧ ∃ more, out = '"' :: more ∧ Overwritten u rest more) ∨
      ∃ body rest' more, rest = body ++ '"' :: rest' ∧ Units '"' body ∧
        out = '"' :: (shownBody u body ++ '"' :: more) ∧ Overwritten u rest' more := by
  cases h with
  | char hc _ => exact absurd rfl hc
  | dead hdead tail => exact Or.inl ⟨hdead, _, rfl, tail⟩
  | literal hbody tail => exact Or.inr ⟨_, _, _, rfl, hbody, rfl, tail⟩

lemma Overwritten.unique {out' : List Char} (h : Overwritten u text out) (h' : Overwritten u text out') :
    out = out' := by
  induction h generalizing out' with
  | nil => cases h'; rfl
  | char hc _ ih =>
    obtain ⟨more, rfl, tail'⟩ := h'.char_inv hc
    rw [ih tail']
  | dead hdead _ ih =>
    rcases h'.quote_inv with ⟨-, more, rfl, tail'⟩ | ⟨body, rest', more, rfl, hbody, -, -⟩
    · rw [ih tail']
    · rw [closes_units hbody] at hdead
      cases hdead
  | literal hbody _ ih =>
    rcases h'.quote_inv with ⟨hdead, -⟩ | ⟨body', rest', more, heq, hbody', rfl, tail'⟩
    · rw [closes_units hbody] at hdead
      cases hdead
    · obtain ⟨rfl, rfl⟩ := literal_inj hbody hbody' heq
      rw [ih tail']

lemma Overwritten.append {w : List Char} (hw : '"' ∉ w) (h : Overwritten u text out) :
    Overwritten u (w ++ text) (w ++ out) := by
  induction w with
  | nil => exact h
  | cons c w ih =>
    rw [List.mem_cons, not_or] at hw
    exact .char (Ne.symm hw.1) (ih hw.2)

lemma blankString_shown (h : STRING.first before after = some m) :
    ∃ wide body, (wide = [] ∨ wide = ['L']) ∧ Units '"' body ∧ m.whole = wide ++ ('"' :: body ++ ['"']) ∧
      blankString u m = wide ++ ('"' :: shownBody u body ++ ['"']) := by
  obtain ⟨wide, body, rest, hwide, hbody, -, rfl⟩ := string_spec h
  refine ⟨wide, body, hwide, hbody, rfl, ?_⟩
  unfold blankString shownBody
  rw [show Match.group _ 2 = body from rfl, show Match.group _ 1 = wide from rfl]
  by_cases hclean : Clean u body
  · rw [if_pos hclean, if_pos (Option.isNone_iff_eq_none.mpr hclean)]
  · rw [if_neg hclean, if_neg fun h => hclean (Option.isNone_iff_eq_none.mp h), write_char, erase_char]
    simp

/-- **Overwriting literals** leaves what a reader sees of them. -/
theorem overwritten_iff : Overwritten u text out ↔ out = blankStrings u text := by
  have hcut : ∀ (before after : List Char) (ps : List (Piece Char)), STRING.Cut before after ps →
      Overwritten u after (ps.flatMap (Piece.replaced (blankString u))) := by
    intro before after ps h
    induction h with
    | nil before => exact .nil
    | @keep before rest c ps hnone _ ih =>
      by_cases hc : c = '"'
      · subst hc
        exact .dead (closes_of_first_none (first_none_of_hitAt hnone)) ih
      · exact .char hc ih
    | @hit before rest m ps hsome _ ih =>
      obtain ⟨wide, body, hwide, hbody, hwhole, hblank⟩ := blankString_shown (u := u) (hitAt_spec hsome).1
      have hflat : ∀ body rest : List Char, wide ++ ('"' :: body ++ ['"']) ++ rest =
          wide ++ '"' :: (body ++ '"' :: rest) := by
        simp
      have hquote : '"' ∉ wide := by
        rcases hwide with rfl | rfl <;> decide
      rw [List.flatMap_cons, Piece.replaced, hblank, hwhole, hflat, hflat]
      exact .append hquote (.literal hbody ih)
  have hshown : Overwritten u text (blankStrings u text) := hcut [] text _ (cut_piecesFrom STRING [] text)
  refine ⟨fun h => h.unique hshown, ?_⟩
  rintro rfl
  exact hshown

/-! ### What a text shows -/

/-- What a line shows: nothing, if it is a directive with a label. -/
def ShownLine (u : Unicode) (line out : List Char) : Prop :=
  if Directive line then out = [] else Overwritten u line out

/-- What a text shows: behind the end of a comment that it seems to begin in, it shows no comments, and of
each line what the line shows. -/
def Shown (u : Unicode) (code text : List Char) : Prop :=
  ∃ seen, Uncommented (dropOpened code) seen ∧ List.Forall₂ (ShownLine u) (lines seen) (lines text)

lemma shownLine_iff {line : List Char} : ShownLine u line out ↔ out = blankStrings u (dropLine line) := by
  unfold ShownLine dropLine
  split_ifs
  · rfl
  · exact overwritten_iff

/-- **What the steps of `scrub` leave is what a text shows**, before names are replaced. -/
theorem shown_iff {code : List Char} : Shown u code text ↔ text = strip u code := by
  have hlines : ∀ seen, List.Forall₂ (ShownLine u) (lines seen) (lines text) ↔
      text = blankStrings u (dropDirectives seen) := by
    intro seen
    have hline : ∀ a b : List (List Char), List.Forall₂ (ShownLine u) a b ↔
        b = a.map fun line => blankStrings u (dropLine line) := by
      intro a
      induction a with
      | nil => simp
      | cons line a ih => intro b; cases b <;> simp [ih, shownLine_iff]
    have hstrip : lines (blankStrings u (dropDirectives seen)) =
        (lines seen).map fun line => blankStrings u (dropLine line) := by
      rw [lines_blankStrings, lines_dropDirectives, List.map_map]
      rfl
    rw [hline, ← hstrip]
    exact ⟨eq_of_lines, congrArg lines⟩
  unfold Shown strip
  simp only [uncommented_iff, hlines, exists_eq_left]

end CSecureBuild.Harness.Reading
