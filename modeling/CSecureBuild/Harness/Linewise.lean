import CSecureBuild.Harness.Patterns

/-!
The steps of `scrub` behind the comments go line by line: no directive, literal or name reaches over a
newline. So what they make of a text is what they make of its newline-separated lines.
-/

namespace CSecureBuild.Harness.Linewise

open CSecureBuild.PyLib.Cells CSecureBuild.PyLib.Regex CSecureBuild.PyLib.Text CSecureBuild.PyLib.Words
open CSecureBuild.Harness.Scrub CSecureBuild.Harness.Patterns

/-! ### Lines -/

/-- The lines of a text, as they are separated by newlines. -/
def lines (text : List Char) : List (List Char) := text.splitOn '\n'

variable {u : Unicode} {text line rest before : List Char}

lemma lines_line (h : '\n' ∉ line) (rest : List Char) :
    lines (line ++ '\n' :: rest) = line :: lines rest := List.splitOn_append_cons_self_of_not_mem h rest

lemma lines_last (h : '\n' ∉ line) : lines line = [line] := List.splitOn_eq_singleton h

/-- A text is its last line, or a line and a text. -/
theorem line_induction {P : List Char → Prop} (last : ∀ line, '\n' ∉ line → P line)
    (step : ∀ line rest, '\n' ∉ line → P rest → P (line ++ '\n' :: rest)) (text : List Char) : P text := by
  induction hlen : text.length using Nat.strong_induction_on generalizing text with
  | _ n ih =>
    by_cases hmem : '\n' ∈ text
    · obtain ⟨line, rest, rfl, hline⟩ := List.eq_append_cons_of_mem hmem
      exact step line rest hline (ih rest.length (by simp [← hlen]; omega) rest rfl)
    · exact last text hmem

lemma flat_of_mem_lines {text line : List Char} (h : line ∈ lines text) : '\n' ∉ line := by
  induction text using line_induction with
  | last text htext =>
    rw [lines_last htext, List.mem_singleton] at h
    exact h ▸ htext
  | step first rest hfirst ih =>
    rw [lines_line hfirst, List.mem_cons] at h
    exact h.elim (fun h => h ▸ hfirst) ih

lemma lines_ne_nil (text : List Char) : lines text ≠ [] := List.splitOn_ne_nil _ _

lemma eq_of_lines {x y : List Char} (h : lines x = lines y) : x = y := by
  calc x = ['\n'].intercalate (lines x) := (List.intercalate_splitOn '\n').symm
    _ = ['\n'].intercalate (lines y) := by rw [h]
    _ = y := List.intercalate_splitOn '\n'

lemma lines_newline (text : List Char) : lines ('\n' :: text) = [] :: lines text :=
  lines_line List.not_mem_nil text

lemma firstLine_flat (h : '\n' ∉ line) (rest : List Char) : firstLine (line ++ rest) = line ++ firstLine rest :=
  (split_line (fun _ hc heq => h (heq ▸ hc)) rfl).1

lemma lines_eq (text : List Char) : lines text = firstLine text :: (lines text).tail := by
  induction text using line_induction with
  | last line h =>
    have hfirst := firstLine_flat h []
    rw [List.append_nil] at hfirst
    rw [lines_last h, hfirst]
    simp [firstLine]
  | step line rest h ih =>
    rw [lines_line h, firstLine_flat h]
    simp [firstLine]

lemma tail_lines (h : '\n' ∉ line) (rest : List Char) : (lines (line ++ rest)).tail = (lines rest).tail := by
  induction rest using line_induction with
  | last more hmore =>
    rw [lines_last hmore, lines_last (by simp [h, hmore])]
    rfl
  | step more rest hmore ih =>
    rw [← List.append_assoc, lines_line (by simp [h, hmore]), lines_line hmore]
    rfl

/-- The line that a text ends in. -/
def lastLine (text : List Char) : List Char := (lines text).getLastD []

lemma lastLine_last (h : '\n' ∉ line) : lastLine line = line := by
  unfold lastLine
  rw [lines_last h]
  rfl

lemma lastLine_line (h : '\n' ∉ line) (rest : List Char) : lastLine (line ++ '\n' :: rest) = lastLine rest := by
  unfold lastLine
  rw [lines_line h]
  cases hlines : lines rest with
  | nil => exact absurd hlines (lines_ne_nil rest)
  | cons l ls => rfl

lemma lastLine_append (h : '\n' ∉ line) (text : List Char) : lastLine (text ++ line) = lastLine text ++ line := by
  induction text using line_induction with
  | last more hmore => rw [lastLine_last hmore, lastLine_last (by simp [h, hmore])]
  | step more rest hmore ih =>
    rw [List.append_assoc, List.cons_append, lastLine_line hmore, lastLine_line hmore, ih]

lemma lastLine_newline (text : List Char) : lastLine (text ++ ['\n']) = [] := by
  induction text using line_induction with
  | last more hmore => rw [lastLine_line hmore, lastLine_last (by simp)]
  | step more rest hmore ih => rw [List.append_assoc, List.cons_append, lastLine_line hmore, ih]

/-! ### Directives -/

/-- What is left of a line: nothing, if it is a directive with a label. -/
def dropLine (line : List Char) : List Char := if Directive line then [] else line

lemma flat_dropLine (h : '\n' ∉ line) : '\n' ∉ dropLine line := by
  unfold dropLine
  split_ifs
  · exact List.not_mem_nil
  · exact h

lemma flatMap_keep {f : Match Char → List Char} (w : List Char) :
    (w.map Piece.keep).flatMap (Piece.replaced f) = w := by
  rw [List.flatMap_map]
  exact List.flatMap_singleton' w

lemma firstLine_of_flat (h : '\n' ∉ line) (hrest : ∀ c ∈ rest.head?, c = '\n') :
    firstLine (line ++ rest) = line :=
  takeWhile_run (fun c hc => decide_eq_true fun e => h (e ▸ hc)) fun c hc => by simpa using hrest c hc

lemma cut_directive (hbefore : AtLineStart before) (h : '\n' ∉ line)
    (hrest : ∀ c ∈ rest.head?, c = '\n') {ps : List (Piece Char)}
    (hps : PREPROC_LABEL.Cut (line.reverse ++ before) rest ps) :
    ∃ qs, PREPROC_LABEL.Cut before (line ++ rest) (qs ++ ps) ∧
      qs.flatMap (Piece.replaced fun _ => []) = dropLine line := by
  have hfirst : ∀ a b, line = a ++ b → firstLine (b ++ rest) = b := fun a b hab =>
    firstLine_of_flat (fun hb => h (by rw [hab]; exact List.mem_append_right a hb)) hrest
  by_cases hline : Directive line
  · have hne : line ≠ [] := by
      rintro rfl
      exact hline
    refine ⟨[.hit ⟨line, []⟩], .found (hitAt_some ?_ hne) rfl hps, by simp [Piece.replaced, dropLine, hline]⟩
    rw [directive_first, hfirst [] line rfl, if_pos ⟨hbefore, hline⟩]
  · refine ⟨line.map .keep, .keeps (fun a b hab hb => hitAt_none ?_) hps, ?_⟩
    · rw [directive_first, hfirst a b hab, if_neg]
      rintro ⟨hstart, hb⟩
      cases a using List.reverseRecOn with
      | nil => exact hline (by rwa [hab])
      | append_singleton a c =>
        -- within a line no line begins
        have hc : c = '\n' := hstart c (by simp)
        exact h (by rw [hab, hc]; simp)
    · rw [flatMap_keep, dropLine, if_neg hline]

/-- **Directives go line by line.** -/
theorem lines_dropDirectives (text : List Char) :
    lines (dropDirectives text) = (lines text).map dropLine := by
  have hcut : ∀ before, AtLineStart before → ∃ ps, PREPROC_LABEL.Cut before text ps ∧
      lines (ps.flatMap (Piece.replaced fun _ => [])) = (lines text).map dropLine := by
    induction text using line_induction with
    | last line hline =>
      intro before hbefore
      obtain ⟨qs, hqs, hout⟩ := cut_directive hbefore hline (fun c hc => by cases hc) (.nil _)
      rw [List.append_nil] at hqs
      rw [List.append_nil] at hqs
      exact ⟨qs, hqs, by rw [hout, lines_last hline, lines_last (flat_dropLine hline)]; rfl⟩
    | step line rest hline ih =>
      intro before hbefore
      obtain ⟨ps, hps, hrest⟩ := ih ('\n' :: (line.reverse ++ before)) fun c hc => (Option.some.inj hc).symm
      have hnewline : PREPROC_LABEL.Cut (line.reverse ++ before) ('\n' :: rest) (.keep '\n' :: ps) := by
        refine .keep (hitAt_none ?_) hps
        rw [directive_first, if_neg]
        exact fun h => h.2
      have hhead : ∀ c ∈ ('\n' :: rest).head?, c = '\n' := fun c hc => (Option.some.inj hc).symm
      obtain ⟨qs, hqs, hout⟩ := cut_directive hbefore hline hhead hnewline
      refine ⟨_, hqs, ?_⟩
      rw [List.flatMap_append, hout, List.flatMap_cons, Piece.replaced, List.singleton_append,
        lines_line (flat_dropLine hline), hrest, lines_line hline]
      rfl
  obtain ⟨ps, hps, hlines⟩ := hcut [] fun c hc => by cases hc
  unfold dropDirectives Re.sub
  rw [show PREPROC_LABEL.pieces text = ps from hps.eq, hlines]

lemma dropDirectives_last (h : '\n' ∉ line) : dropDirectives line = dropLine line :=
  eq_of_lines (by rw [lines_dropDirectives, lines_last h, lines_last (flat_dropLine h)]; rfl)

lemma dropDirectives_line (h : '\n' ∉ line) (rest : List Char) :
    dropDirectives (line ++ '\n' :: rest) = dropLine line ++ '\n' :: dropDirectives rest :=
  eq_of_lines (by
    rw [lines_dropDirectives, lines_line h, lines_line (flat_dropLine h), lines_dropDirectives]
    rfl)

/-! ### Literals -/

/-- A literal is found within its line, whatever is before it. -/
lemma string_first_line (h : '\n' ∉ line) (hrest : ∀ c ∈ rest.head?, c = '\n')
    (before before' : List Char) : STRING.first before (line ++ rest) = STRING.first before' line := by
  cases hline : STRING.first before' line with
  | some m =>
    obtain ⟨wide, body, more, hwide, hbody, rfl, rfl⟩ := string_spec hline
    have hsame : wide ++ ('"' :: body ++ '"' :: more) ++ rest = wide ++ ('"' :: body ++ '"' :: (more ++ rest)) := by
      simp
    rw [hsame, string_first hwide hbody]
  | none =>
    by_contra hsome
    obtain ⟨m, hm⟩ := Option.ne_none_iff_exists'.mp hsome
    obtain ⟨wide, body, more, hwide, hbody, hafter, -⟩ := string_spec hm
    -- the literal has no newline, so it lies in the line
    have hflat : ∀ c ∈ wide ++ ('"' :: body ++ ['"']), c ≠ '\n' := by
      intro c hc
      simp only [List.mem_append, List.mem_cons, List.not_mem_nil, or_false] at hc
      rcases hc with hc | (rfl | hc) | rfl
      · rcases hwide with rfl | rfl
        · cases hc
        · obtain rfl := List.mem_singleton.mp hc
          decide
      · decide
      · exact hbody.flat c hc
      · decide
    have hpre : wide ++ ('"' :: body ++ ['"']) <+: line := by
      have hall : line ++ rest = (wide ++ ('"' :: body ++ ['"'])) ++ more := by
        rw [hafter]
        simp
      rcases List.append_eq_append_iff.mp hall with ⟨a, ha, hb⟩ | ⟨a, ha, hb⟩
      · cases a with
        | nil => exact ⟨[], by rw [ha]; simp⟩
        | cons c a =>
          have hc := hrest c (by rw [hb]; rfl)
          exact absurd hc (hflat c (by rw [ha]; simp))
      · exact ⟨a, ha.symm⟩
    obtain ⟨more', rfl⟩ := hpre
    have hfirst : STRING.first before' (wide ++ ('"' :: body ++ '"' :: more')) = _ :=
      string_first hwide hbody
    rw [show wide ++ ('"' :: body ++ '"' :: more') = wide ++ ('"' :: body ++ ['"']) ++ more' by simp,
      hline] at hfirst
    cases hfirst

lemma string_cut_line {ps : List (Piece Char)} (h : '\n' ∉ line) (hps : STRING.Cut before line ps)
    (hrest : ∀ c ∈ rest.head?, c = '\n') {qs : List (Piece Char)}
    (hqs : ∀ before, STRING.Cut before rest qs) (before' : List Char) :
    STRING.Cut before' (line ++ rest) (ps ++ qs) := by
  induction hps generalizing before' with
  | nil before => exact hqs before'
  | @keep before more c ps hnone _ ih =>
    have hmore : '\n' ∉ more := fun hm => h (List.mem_cons_of_mem c hm)
    refine .keep ?_ (ih hmore _)
    unfold Re.hitAt at hnone ⊢
    have hfirst : STRING.first before' (c :: more ++ rest) = STRING.first before (c :: more) :=
      string_first_line h hrest before' before
    rw [← hfirst] at hnone
    exact hnone
  | @hit before more m ps hsome _ ih =>
    have hmore : '\n' ∉ more := fun hm => h (List.mem_append_right _ hm)
    rw [List.append_assoc]
    refine .hit ?_ (ih hmore _)
    unfold Re.hitAt at hsome ⊢
    rw [← List.append_assoc, string_first_line h hrest before' before]
    exact hsome

lemma mem_blankString {m : Match Char} {c : Char} (h : c ∈ blankString u m) :
    c ∈ m.whole ∨ c ∈ m.group 1 ∨ c = '"' ∨ c = 'x' := by
  unfold blankString at h
  split_ifs at h
  · exact Or.inl h
  · rw [write_char, erase_char] at h
    simp only [List.mem_append, List.mem_cons, List.mem_replicate, List.not_mem_nil, or_false] at h
    rcases h with (h | h | h) | h
    · exact Or.inr (Or.inl h)
    · exact Or.inr (Or.inr (Or.inl h))
    · exact Or.inr (Or.inr (Or.inr h.2))
    · exact Or.inr (Or.inr (Or.inl h))

lemma flat_blankString {m : Match Char} {before after : List Char} (h : STRING.first before after = some m) :
    '\n' ∉ blankString u m := by
  obtain ⟨wide, body, rest, hwide, hbody, -, rfl⟩ := string_spec h
  have hwide : '\n' ∉ wide := by
    rcases hwide with rfl | rfl <;> decide
  intro hmem
  have hgroup : Match.group (⟨wide ++ ('"' :: body ++ ['"']), [(2, body), (1, wide)]⟩ : Match Char) 1 = wide :=
    rfl
  rcases mem_blankString hmem with hc | hc | hc | hc
  · simp only [List.mem_append, List.mem_cons, List.not_mem_nil, or_false] at hc
    rcases hc with hc | (hc | hc) | hc
    · exact hwide hc
    · cases hc
    · exact hbody.flat _ hc rfl
    · cases hc
  · rw [hgroup] at hc
    exact hwide hc
  · cases hc
  · cases hc

lemma flat_blankStrings (h : '\n' ∉ line) : '\n' ∉ blankStrings u line := by
  have hcut : ∀ (before : List Char) (ps : List (Piece Char)), STRING.Cut before line ps →
      '\n' ∉ ps.flatMap (Piece.replaced (blankString u)) := by
    intro before ps hps
    induction hps with
    | nil before => simp
    | @keep before more c ps _ _ ih =>
      rw [List.flatMap_cons, Piece.replaced, List.singleton_append, List.mem_cons, not_or]
      exact ⟨fun e => h (e ▸ List.mem_cons_self), ih fun hm => h (List.mem_cons_of_mem c hm)⟩
    | @hit before more m ps hsome _ ih =>
      rw [List.flatMap_cons, Piece.replaced, List.mem_append, not_or]
      exact ⟨flat_blankString (hitAt_spec hsome).1, ih fun hm => h (List.mem_append_right _ hm)⟩
  exact hcut [] _ (cut_piecesFrom STRING [] line)

lemma string_newline (before rest : List Char) : STRING.first before ('\n' :: rest) = none := by
  by_contra hsome
  obtain ⟨m, hm⟩ := Option.ne_none_iff_exists'.mp hsome
  obtain ⟨wide, body, more, hwide, -, hafter, -⟩ := string_spec hm
  rcases hwide with rfl | rfl
  · cases hafter
  · cases hafter

/-- **Literals go line by line.** -/
theorem lines_blankStrings (u : Unicode) (text : List Char) :
    lines (blankStrings u text) = (lines text).map (blankStrings u) := by
  have hcut : ∃ ps, (∀ before, STRING.Cut before text ps) ∧
      lines (ps.flatMap (Piece.replaced (blankString u))) = (lines text).map (blankStrings u) := by
    induction text using line_induction with
    | last line hline =>
      refine ⟨STRING.pieces line, fun before => ?_, ?_⟩
      · have hcut : STRING.Cut before (line ++ []) (STRING.pieces line ++ []) :=
          string_cut_line hline (cut_piecesFrom STRING [] line) (fun c hc => by cases hc)
            (fun before => .nil before) before
        simpa using hcut
      · rw [show (STRING.pieces line).flatMap _ = blankStrings u line from rfl, lines_last hline,
          lines_last (flat_blankStrings hline)]
        rfl
    | step line rest hline ih =>
      obtain ⟨ps, hps, hrest⟩ := ih
      have hhead : ∀ c ∈ ('\n' :: rest).head?, c = '\n' := fun c hc => (Option.some.inj hc).symm
      have hnewline : ∀ before, STRING.Cut before ('\n' :: rest) (.keep '\n' :: ps) := fun before =>
        .keep (hitAt_none (string_newline before rest)) (hps _)
      refine ⟨_, string_cut_line hline (cut_piecesFrom STRING [] line) hhead hnewline, ?_⟩
      rw [List.flatMap_append, List.flatMap_cons, Piece.replaced, List.singleton_append,
        show (STRING.piecesFrom [] line).flatMap _ = blankStrings u line from rfl,
        lines_line (flat_blankStrings hline), hrest, lines_line hline]
      rfl
  obtain ⟨ps, hps, hlines⟩ := hcut
  have hpieces : STRING.pieces text = ps := (hps []).eq
  unfold blankStrings Re.sub
  rw [hpieces, hlines]
  rfl

end CSecureBuild.Harness.Linewise
