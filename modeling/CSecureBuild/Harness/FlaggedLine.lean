import CSecureBuild.Harness.Builder
import CSecureBuild.Harness.Functions
import CSecureBuild.Harness.LabelWords
import CSecureBuild.Harness.LineAlign
import CSecureBuild.Harness.ReadingOrder
import Mathlib.Data.List.SplitLengths

/-!
What the cap leaves of the flagged line. The source file is marked with its line numbers, and the notice of
the cut has no mark: a row of the numbered code comes from the flagged line if a character in it, or its line
end, has the mark of that line. `placed_scrubbed` says that `scrub` moves no mark to another row, and
`shows_of_ends` that the row with the number of the flagged line comes from it if the cap leaves its end.
-/

namespace CSecureBuild.Harness.FlaggedLine

open CSecureBuild.PyLib.Cells CSecureBuild.PyLib.Regex CSecureBuild.PyLib.Text CSecureBuild.Lib.Lines
open CSecureBuild.Harness.Scrub CSecureBuild.Harness.Items CSecureBuild.Harness.LineAlign
open CSecureBuild.Harness.Builder CSecureBuild.Harness.Functions CSecureBuild.Harness.Patterns
open CSecureBuild.Harness.LabelWords (clean_of_chars harmless)
open CSecureBuild.Harness.ReadingOrder (inTurn)

/-! ### Rows with their marks -/

/-- The lines of a marked text with their ends, as `splitlines` cuts it. -/
def markedRows (text : Marked) : List Marked :=
  ((splitlinesKeep (erase text)).map List.length).splitLengths text

/-- The row with the number `n` of a text that is numbered from a first line on has a mark in it. -/
def Shows (text : Marked) (first mark : ℕ) (n : ℤ) : Prop :=
  ∃ (i : ℕ) (row : Marked), (first + i : ℤ) = n ∧ (markedRows text)[i]? = some row ∧ ∃ c ∈ row, c.2 = mark

/-- A text has a mark on its `i`-th line. -/
def At (text : Marked) (i mark : ℕ) : Prop :=
  ∃ front c back, text = front ++ c :: back ∧ height front = i ∧ c.2 = mark

section

variable {text more : Marked} {T : ℕ → ℕ} {n i mark : ℕ}

/-- What `numbered` shows of a row. -/
lemma rows_markedRows (text : Marked) (first : ℕ) : rows (erase text) first =
    (markedRows text).zipIdx.map fun row => (first + row.2, dropBreak (erase row.1)) := by
  have hrows : ∀ (lines : List (List Char)) (text : Marked), erase text = lines.flatten →
      ((lines.map List.length).splitLengths text).map erase = lines := by
    intro lines
    induction lines with
    | nil => exact fun _ _ => rfl
    | cons line lines ih =>
      intro text htext
      rw [List.flatten_cons] at htext
      have htake : erase (text.take line.length) = line := by
        rw [erase, List.map_take, ← erase, htext, List.take_left]
      have hdrop : erase (text.drop line.length) = lines.flatten := by
        rw [erase, List.map_drop, ← erase, htext, List.drop_left]
      rw [List.map_cons, List.splitLengths_cons, List.map_cons, htake, ih _ hdrop]
  have hmap : (markedRows text).map erase = splitlinesKeep (erase text) :=
    hrows _ text (flatten_splitlinesKeep _).symm
  unfold rows splitlines
  rw [← hmap]
  simp only [List.zipIdx_map, List.map_map]
  rfl

lemma row_of_shows {first mark : ℕ} {number : ℤ} (h : Shows text first mark number) :
    ∃ row ∈ rows (erase text) first, (row.1 : ℤ) = number := by
  obtain ⟨i, row, hnumber, hrow, -⟩ := h
  rw [rows_markedRows]
  refine ⟨_, List.mem_map.mpr ⟨(row, i), List.mk_mem_zipIdx_iff_getElem?.mpr hrow, rfl⟩, ?_⟩
  simpa using hnumber

lemma markedRows_line {line : Marked} (hline : ∀ c ∈ erase line, isBreak c = false) {c : Char × ℕ}
    (hc : c.1 = '\n') (rest : Marked) :
    markedRows (line ++ c :: rest) = (line ++ [c]) :: markedRows rest := by
  have herase : erase (line ++ c :: rest) = erase line ++ '\n' :: erase rest := by
    rw [erase, List.map_append, List.map_cons, val_pair, hc]
  unfold markedRows
  rw [herase, splitlinesKeep_line hline, List.map_cons, List.splitLengths_cons]
  have hlength : (erase line ++ ['\n']).length = (line ++ [c]).length := by simp
  have hsplit : line ++ c :: rest = (line ++ [c]) ++ rest := by simp
  rw [hlength, hsplit, List.take_left, List.drop_left]

lemma not_newline_of_height (h : height text = 0) : ∀ c ∈ text, c.1 ≠ '\n' := by
  intro c hc heq
  have hmem : c ∈ newlines text := List.mem_filter.mpr ⟨hc, by simpa using heq⟩
  rw [List.length_eq_zero_iff.mp h] at hmem
  cases hmem

lemma at_append : At (text ++ more) i mark ↔
    At text i mark ∨ ∃ j, At more j mark ∧ i = height text + j := by
  constructor
  · rintro ⟨front, c, back, heq, rfl, hc⟩
    rcases List.append_eq_append_iff.mp heq with ⟨mid, rfl, rfl⟩ | ⟨mid, rfl, hmid⟩
    · exact Or.inr ⟨height mid, ⟨mid, c, back, rfl, rfl, hc⟩, height_append text mid⟩
    · cases mid with
      | nil =>
        obtain rfl : more = c :: back := hmid.symm
        exact Or.inr ⟨0, ⟨[], c, back, rfl, rfl, hc⟩, by simp⟩
      | cons d mid =>
        obtain ⟨rfl, rfl⟩ := List.cons.inj hmid
        exact Or.inl ⟨front, c, mid, rfl, rfl, hc⟩
  · rintro (⟨front, c, back, rfl, hi, hc⟩ | ⟨j, ⟨front, c, back, rfl, rfl, hc⟩, rfl⟩)
    · exact ⟨front, c, back ++ more, by simp, hi, hc⟩
    · exact ⟨text ++ front, c, back, by simp, height_append text front, hc⟩

lemma At.le_height (h : At text i mark) : i ≤ height text := by
  obtain ⟨front, c, back, rfl, rfl, -⟩ := h
  rw [height_append]
  exact Nat.le_add_right _ _

lemma At.le_height_line {line : Marked} {c : Char × ℕ} (h : At (line ++ [c]) i mark) : i ≤ height line := by
  obtain ⟨front, d, back, heq, rfl, -⟩ := h
  have hline := congrArg List.dropLast heq
  rw [List.dropLast_concat, List.dropLast_append_of_ne_nil (List.cons_ne_nil d back)] at hline
  rw [hline, height_append]
  exact Nat.le_add_right _ _

lemma At.mem (h : At text i mark) : ∃ c ∈ text, c.2 = mark := by
  obtain ⟨front, c, back, rfl, -, hc⟩ := h
  exact ⟨c, by simp, hc⟩

lemma exists_at {c : Char × ℕ} (hc : c ∈ text) : ∃ i, At text i c.2 := by
  obtain ⟨front, back, rfl⟩ := List.append_of_mem hc
  exact ⟨height front, front, c, back, rfl, rfl, rfl⟩

lemma At.lined (h : At text i mark) (hlined : Lined T n text) : T (n + i) = mark := by
  obtain ⟨front, c, back, rfl, rfl, rfl⟩ := h
  rw [lined_append, lined_cons] at hlined
  exact hlined.2.1.symm

lemma exists_newline (hi : i < height text) :
    ∃ front c back, text = front ++ c :: back ∧ height front = i ∧ c.1 = '\n' := by
  induction text generalizing i with
  | nil => cases hi
  | cons c rest ih =>
    rw [height_cons] at hi
    by_cases hc : c.1 = '\n'
    · rw [if_pos hc] at hi
      cases i with
      | zero => exact ⟨[], c, rest, rfl, rfl, hc⟩
      | succ i =>
        obtain ⟨front, d, back, rfl, rfl, hd⟩ := ih (Nat.lt_of_succ_lt_succ hi)
        exact ⟨c :: front, d, back, rfl, by rw [height_cons, if_pos hc], hd⟩
    · rw [if_neg hc] at hi
      obtain ⟨front, d, back, rfl, rfl, hd⟩ := ih hi
      exact ⟨c :: front, d, back, rfl, by rw [height_cons, if_neg hc], hd⟩

/-- **A mark on a line is in the row**, where a newline is the only line end. -/
lemma At.row (h : At text i mark) (hnl : NewlinesOnly (erase text)) :
    ∃ row, (markedRows text)[i]? = some row ∧ ∃ c ∈ row, c.2 = mark := by
  induction hlen : text.length using Nat.strong_induction_on generalizing text i with
  | _ len ih =>
    have hflat : ∀ line : Marked, (∀ c ∈ line, c ∈ text) → height line = 0 →
        ∀ c ∈ erase line, isBreak c = false := by
      intro line hsub hline c hc
      obtain ⟨d, hd, rfl⟩ := List.mem_map.mp hc
      by_contra hbreak
      exact not_newline_of_height hline d hd
        (hnl _ (List.mem_map_of_mem (hsub d hd)) (by simpa using hbreak))
    rcases Nat.eq_zero_or_pos (height text) with hzero | hpos
    · obtain ⟨c, hc, hmark⟩ := h.mem
      have hne : text ≠ [] := List.ne_nil_of_mem hc
      obtain rfl : i = 0 := Nat.le_zero.mp (hzero ▸ h.le_height)
      refine ⟨text, ?_, c, hc, hmark⟩
      unfold markedRows
      rw [splitlinesKeep_tail (hflat text (fun _ h => h) hzero) (by simpa using hne)]
      simp
    · obtain ⟨line, c, rest, rfl, hline, hc⟩ := exists_newline hpos
      rw [markedRows_line (hflat line (fun d hd => List.mem_append_left _ hd) hline) hc]
      rw [show line ++ c :: rest = (line ++ [c]) ++ rest by simp] at h
      rcases at_append.mp h with hat | ⟨j, hat, rfl⟩
      · obtain rfl : i = 0 := Nat.le_zero.mp (hline ▸ hat.le_height_line)
        exact ⟨_, rfl, hat.mem⟩
      · rw [height_append, hline, height_cons, if_pos hc, height_nil, Nat.zero_add, Nat.add_comm,
          List.getElem?_cons_succ]
        refine ih rest.length ?_ hat (fun d hd => hnl d ?_) rfl
        · rw [← hlen, List.length_append, List.length_cons]
          omega
        · rw [erase, List.map_append, List.map_cons]
          exact List.mem_append_right _ (List.mem_cons_of_mem _ hd)

end

/-! ### `scrub` moves no mark to another row -/

/-- The characters of a text, marked with their places from 1 on. -/
def placed (text : Marked) : Marked := text.zipIdx.map fun c => (c.1.1, c.2 + 1)

/-- The mark at a place. -/
def markAt (text : Marked) : ℕ → ℕ
  | 0 => 0
  | k + 1 => (text[k]?).elim 0 Prod.snd

/-- The line of a place, from 1 on. -/
def lineOf (text : Marked) : ℕ → ℕ
  | 0 => 0
  | k + 1 => (text[k]?).elim 0 fun _ => height (text.take k) + 1

lemma remarks_map {f : ℕ → ℕ} (hf : f 0 = 0) : Remarks (Prod.map id f : Char × ℕ → Char × ℕ) :=
  ⟨fun _ => rfl, fun _ _ => rfl, fun _ => Prod.ext rfl hf⟩

lemma height_map (f : ℕ → ℕ) (text : Marked) : height (text.map (Prod.map id f)) = height text := by
  induction text with
  | nil => rfl
  | cons c rest ih =>
    rw [List.map_cons, height_cons, height_cons, ih]
    rfl

lemma map_placed (text : Marked) : (placed text).map (Prod.map id (markAt text)) = text := by
  refine List.ext_getElem? fun k => ?_
  unfold placed
  simp only [List.getElem?_map, List.getElem?_zipIdx]
  cases hk : text[k]? with
  | none => rfl
  | some c => simp [markAt, hk]

lemma lined_placed (text : Marked) :
    Lined (· + 1) 0 ((placed text).map (Prod.map id (lineOf text))) := by
  have hfrom : ∀ front rest : Marked, text = front ++ rest → Lined (· + 1) (height front)
      ((rest.zipIdx front.length).map fun c => (c.1.1, lineOf text (c.2 + 1))) := by
    intro front rest
    induction rest generalizing front with
    | nil => exact fun _ => lined_nil
    | cons c rest ih =>
      rintro rfl
      have ih := ih (front ++ [c]) (by simp)
      rw [List.zipIdx_cons, List.map_cons, lined_cons]
      refine ⟨?_, ?_⟩
      · simp [lineOf]
      · rw [height_append, height_cons, height_nil, List.length_append, List.length_singleton] at ih
        simp only at ih ⊢
        split_ifs at ih ⊢ <;> exact ih
  have hall := hfrom [] text rfl
  unfold placed
  rw [List.map_map]
  exact hall

/-- **`scrub` moves no mark to another row.** -/
theorem placed_scrubbed {u : Unicode} {code : Marked} {i mark : ℕ} (h : At (scrubbed u code) i mark) :
    At code i mark := by
  obtain ⟨front, c, back, heq, rfl, rfl⟩ := h
  rw [← map_placed code, ← map_scrubbed u (remarks_map rfl)] at heq
  obtain ⟨before, after, hsplit, rfl, hafter⟩ := List.map_eq_append_iff.mp heq
  obtain ⟨d, after, rfl, rfl, -⟩ := List.map_eq_cons_iff.mp hafter
  -- the place of the character, and its line
  have hlined := (keeps_scrubbed u _).lined _ _ (lined_placed code)
  rw [← map_scrubbed u (remarks_map rfl), hsplit, List.map_append, List.map_cons, lined_append,
    lined_cons] at hlined
  have hline : lineOf code d.2 = 0 + height before + 1 := by
    rw [← height_map (lineOf code) before]
    exact hlined.2.1
  rw [height_map, Nat.zero_add] at *
  cases hplace : d.2 with
  | zero =>
    rw [hplace] at hline
    cases hline
  | succ k =>
    rw [hplace] at hline
    cases hk : code[k]? with
    | none =>
      rw [lineOf, hk] at hline
      cases hline
    | some e =>
      rw [lineOf, hk] at hline
      obtain ⟨hlt, hget⟩ := List.getElem?_eq_some_iff.mp hk
      refine ⟨code.take k, e, code.drop (k + 1), ?_, Nat.succ.inj hline, ?_⟩
      · rw [← hget, ← List.drop_eq_getElem_cons hlt, List.take_append_drop]
      · simp [Prod.map, hplace, markAt, hk]

/-! ### `scrub` keeps the line ends -/

lemma newlines_newlines (text : Marked) : newlines (newlines text) = newlines text := by
  unfold newlines
  rw [List.filter_filter]
  simp only [Bool.and_self]

lemma newlines_flat {text : Marked} (h : ∀ c ∈ text, c.1 ≠ '\n') : newlines text = [] :=
  newlines_eq_nil h

lemma newlines_write {place : Marked} {text : List Char} (h : ∀ c ∈ text, c ≠ '\n') :
    newlines (write place text) = [] := by
  refine newlines_eq_nil fun c hc => ?_
  have hmem : val c ∈ erase (write place text) := List.mem_map_of_mem hc
  rw [erase_write] at hmem
  exact h _ hmem

lemma newlines_rewrite {σ : Type} {f : σ → Match (Char × ℕ) → σ × Marked} {I : σ → Prop}
    {ps : List (Piece (Char × ℕ))} (h : ∀ m, .hit m ∈ ps → ∀ s, I s →
      I (f s m).1 ∧ newlines (f s m).2 = newlines m.whole) {s : σ} (hs : I s) :
    newlines (rewrite f s ps).2 = newlines (ps.flatMap Piece.text) := by
  induction ps generalizing s with
  | nil => rfl
  | cons p ps ih =>
    have ih := @ih fun m hm => h m (List.mem_cons_of_mem p hm)
    cases p with
    | keep c =>
      rw [List.flatMap_cons, newlines_append, ← ih hs]
      exact newlines_append [c] _
    | hit m =>
      obtain ⟨hnext, hends⟩ := h m List.mem_cons_self s hs
      rw [List.flatMap_cons, newlines_append, ← ih hnext, Piece.text, ← hends]
      exact newlines_append _ _

lemma newlines_subState {σ : Type} {r : Re} {f : σ → Match (Char × ℕ) → σ × Marked} {I : σ → Prop}
    (h : ∀ s before after m, I s → r.first before after = some m →
      I (f s m).1 ∧ newlines (f s m).2 = newlines m.whole) {s : σ} (hs : I s) (text : Marked) :
    newlines (r.subState f s text).2 = newlines text := by
  conv_rhs => rw [← flatten_pieces r text]
  refine newlines_rewrite (fun m hm s hs => ?_) hs
  obtain ⟨before, after, hfirst, -⟩ := (cut_piecesFrom r [] text).first_of_hit hm
  exact h s before after m hs hfirst

lemma newlines_sub {r : Re} {f : Match (Char × ℕ) → Marked}
    (h : ∀ before after m, r.first before after = some m → newlines (f m) = newlines m.whole)
    (text : Marked) : newlines (r.sub f text) = newlines text := by
  have hstate : ∀ ps : List (Piece (Char × ℕ)),
      ps.flatMap (Piece.replaced f) = (rewrite (fun (s : Unit) m => (s, f m)) () ps).2 := by
    intro ps
    induction ps with
    | nil => rfl
    | cons p ps ih =>
      rw [List.flatMap_cons, ih]
      cases p <;> rfl
  rw [Re.sub, hstate]
  exact newlines_subState (I := fun _ => True)
    (fun _ before after m _ hfirst => ⟨trivial, h before after m hfirst⟩) trivial text

lemma newlines_dropOpened (code : Marked) : newlines (dropOpened code) = newlines code := by
  have hcut : ∀ k, newlines (newlines (code.take k) ++ code.drop k) = newlines code := fun k => by
    rw [newlines_append, newlines_newlines, ← newlines_append, List.take_append_drop]
  unfold dropOpened
  split
  · split_ifs
    · exact hcut _
    · rfl
  · exact hcut _
  · rfl

lemma newlines_strip (u : Unicode) (code : Marked) : newlines (strip u code) = newlines code := by
  have hcomments : newlines (dropComments (dropOpened code)) = newlines (dropOpened code) :=
    newlines_sub (fun _ _ m _ => newlines_newlines m.whole) _
  have hdirectives : ∀ text : Marked, newlines (dropDirectives text) = newlines text :=
    newlines_sub fun _ _ _ hfirst => (newlines_flat (first_spec within_directive hfirst).2.1).symm
  have hstrings : ∀ text : Marked, newlines (blankStrings u text) = newlines text := by
    refine newlines_sub fun before after m hfirst => ?_
    obtain ⟨-, hflat, hgroup⟩ := first_spec within_string hfirst
    unfold blankString
    split_ifs
    · rfl
    · rw [newlines_flat hflat]
      have hgroup : ∀ c ∈ erase (m.group 1), c ≠ '\n' := by
        intro c hc
        obtain ⟨d, hd, rfl⟩ := List.mem_map.mp hc
        exact hflat d ((hgroup 1).subset hd)
      have hover : ∀ c ∈ '"' :: List.replicate (m.group 2).length 'x' ++ ['"'], c ≠ '\n' := by
        simp only [List.cons_append, List.mem_cons, List.mem_append, List.mem_replicate, List.not_mem_nil]
        rintro c (rfl | ⟨-, rfl⟩ | rfl | hc)
        · decide
        · decide
        · decide
        · cases hc
      refine newlines_write fun c hc => ?_
      rw [List.append_assoc] at hc
      exact (List.mem_append.mp hc).elim (hgroup c) (hover c)
  rw [strip, hstrings, hdirectives, hcomments, newlines_dropOpened]

/-- **`scrub` keeps the line ends**, with their marks. -/
theorem newlines_scrubbed (u : Unicode) (code : Marked) : newlines (scrubbed u code) = newlines code := by
  rw [scrubbed, ← newlines_strip u code]
  refine newlines_subState (I := PlainNames) (fun names before after m hnames hfirst => ?_)
    (by simp [PlainNames]) _
  obtain ⟨hnext, hname⟩ :=
    plainNames_setdefault hnames (erase m.whole) (isBreak_id (names.length + 1))
  refine ⟨hnext, ?_⟩
  rw [newlines_flat (first_spec (within_name u) hfirst).2.1]
  refine newlines_write fun c hc => ?_
  rintro rfl
  have hbreak := hname '\n' hc
  revert hbreak
  decide

/-! ### What the cap leaves -/

/-- The text has something of a line before the cap. -/
def Begins (body : Marked) (line : ℕ) : Prop := ∃ c ∈ body.take CONTEXT_CHAR_CAP, c.2 = line

/-- It has the end of the line before the cap. -/
def Ends (body : Marked) (line : ℕ) : Prop := ('\n', line) ∈ body.take CONTEXT_CHAR_CAP

instance (body : Marked) (line : ℕ) : Decidable (Ends body line) :=
  inferInstanceAs (Decidable (('\n', line) ∈ body.take CONTEXT_CHAR_CAP))

section

variable {u : Unicode} {body : Marked} {first line i : ℕ} {number : ℤ}

lemma capped_split (body : Marked) : ∃ more, capped body = body.take CONTEXT_CHAR_CAP ++ more ∧
    (∀ c ∈ more, c.2 = 0) ∧ ∀ c ∈ erase more, isBreak c = true → c = '\n' := by
  unfold capped
  split_ifs with hlong
  · refine ⟨_, rfl, fun c hc => ?_, ?_⟩
    · obtain ⟨d, -, rfl⟩ := List.mem_map.mp hc
      rfl
    · have hplain : erase ("\n/* [truncated] */\n".toList.map (Cell.plain : Char → Char × ℕ)) =
          "\n/* [truncated] */\n".toList := by decide
      have hall : "\n/* [truncated] */\n".toList.all (fun c => !isBreak c || c = '\n') = true := by decide
      rw [hplain]
      intro c hc hb
      simpa [hb] using List.all_eq_true.mp hall c hc
  · exact ⟨[], by rw [List.take_of_length_le (by omega), List.append_nil], by simp, by simp⟩

/-- A line of the source that a capped text has is a line of the text before the cap. -/
lemma at_capped (hline : line ≠ 0) (h : At (capped body) i line) :
    At (body.take CONTEXT_CHAR_CAP) i line := by
  obtain ⟨more, hmore, hmark, -⟩ := capped_split body
  rw [hmore] at h
  refine (at_append.mp h).resolve_right ?_
  rintro ⟨j, hat, -⟩
  obtain ⟨c, hc, rfl⟩ := hat.mem
  exact hline (hmark c hc)

lemma mem_of_shows {shown : Marked} (h : Shows shown first line number) : ∃ c ∈ shown, c.2 = line := by
  obtain ⟨i, row, -, hrow, c, hc, hmark⟩ := h
  refine ⟨c, ?_, hmark⟩
  have hall : shown.length ≤ ((splitlinesKeep (erase shown)).map List.length).sum := by
    rw [← List.length_flatten, flatten_splitlinesKeep, List.length_map]
  rw [← List.flatten_splitLengths _ _ hall]
  exact List.mem_flatten.mpr ⟨row, List.mem_of_getElem? hrow, hc⟩

/-- **Only a line that begins before the cap is shown.** -/
lemma begins_of_shows (hline : line ≠ 0) (h : Shows (scrubbed u (capped body)) first line number) :
    Begins body line := by
  obtain ⟨c, hc, rfl⟩ := mem_of_shows h
  obtain ⟨i, hat⟩ := exists_at hc
  exact (at_capped hline (placed_scrubbed hat)).mem

/-- **A line that ends before the cap is shown under its number**, in a text whose lines have their marks and of
which the first has number `n`. -/
theorem shows_of_ends (first : ℕ) {T : ℕ → ℕ} {n k : ℕ} (hlined : Lined T n body) (hnl : NewlinesOnly (erase body))
    (hT : ∀ j, T j = line ↔ j = k) (hline : line ≠ 0) (h : Ends body line) :
    Shows (scrubbed u (capped body)) first line (first + k - n) := by
  obtain ⟨more, hmore, -, hmorenl⟩ := capped_split body
  -- `scrub` keeps the line end
  have hend : ('\n', line) ∈ newlines (capped body) := by
    rw [hmore]
    exact List.mem_filter.mpr ⟨List.mem_append_left _ h, by simp⟩
  rw [← newlines_scrubbed u] at hend
  obtain ⟨i, hat⟩ := exists_at (List.mem_of_mem_filter hend)
  -- and it keeps it in its row
  have hbefore := at_capped hline (placed_scrubbed hat)
  rw [← List.take_append_drop CONTEXT_CHAR_CAP body, lined_append] at hlined
  have hi := (hT _).mp (hbefore.lined hlined.1)
  have hbreaks : NewlinesOnly (erase (scrubbed u (capped body))) := by
    refine Keeps.newlinesOnly (keeps_scrubbed u _) fun d hd hb => ?_
    rw [hmore, erase, List.map_append] at hd
    rcases List.mem_append.mp hd with hd | hd
    · exact hnl d (((List.take_sublist _ _).map val).subset hd) hb
    · exact hmorenl d hd hb
  obtain ⟨row, hrow, hin⟩ := hat.row hbreaks
  exact ⟨i, row, by omega, hrow, hin⟩

end

/-! ### Both builders -/

/-- What `prompt_code` caps: the text it makes of a function of a file and its preamble, marked, without the
blank lines it begins with. -/
def v2Body (u : Unicode) (choice : ℕ → Fin SYLLABLES.length) (tries : ℕ) (text : List Char)
    (func : Function) : Option Marked :=
  (promptText u choice tries (joined (preambleOf u (functionSpans u text) (markedLines text))
    (bodyOf (markedLines text) func))).map fun whole => whole.drop (lead whole).length

section

variable {u : Unicode} {work : Work} {rng : List Char → ℕ → Fin SYLLABLES.length} {tries : ℕ}

lemma enclosing_spec {spans : List Function} {line : ℕ} {func : Function}
    (h : enclosing spans line = some func) : func ∈ spans ∧ func.start ≤ line ∧ line ≤ func.end_ :=
  ⟨List.mem_of_find?_eq_some h, by simpa using List.find?_some h⟩

/-- **Where a finding becomes an item.** -/
theorem judge_kept {f : Finding} {key : List Char} {split : Split} {item : Item}
    (h : judge u work rng tries f = .reached key (.kept split item)) :
    ∃ file func trimmed, work.file f.uri = some file ∧
      enclosing (functionSpans u file.text) f.startLine = some func ∧
      (julietLabel u func.name).isSome = true ∧
      promptCode u (rng key) tries (preambleOf u (functionSpans u file.text) (splitlinesKeep file.text))
        (bodyOf (splitlinesKeep file.text) func) = some (item.codeContext, trimmed) ∧
      item.startLine =
        ((preambleOf u (functionSpans u file.text) (splitlinesKeep file.text)).length : ℤ) + 1 - trimmed +
          f.startLine - func.start + 1 := by
  unfold judge at h
  split at h
  · cases h
  -- the file, the function and its label are there
  next file hfile =>
    unfold judgeIn at h
    simp only at h
    split at h
    · cases h
    next func hfunc =>
      split at h
      · cases h
      next label hlabel =>
        split at h
        · cases h
        split at h
        · cases h
        split at h
        · cases h
        next stratum _ =>
          -- the span that `judge` looks for is the one `enclosing` finds
          have henclosing : enclosing (functionSpans u file.text) f.startLine = some func := by
            rw [← hfunc]
            unfold enclosing
            congr 1
            funext s
            exact Bool.decide_and _ _
          injection h with hkey hfate
          subst hkey
          unfold fateOf at hfate
          simp only at hfate
          split at hfate
          · cases hfate
          next code trimmed hcode =>
            split_ifs at hfate
            split at hfate
            · cases hfate
              exact ⟨file, func, trimmed, hfile, henclosing, by rw [hlabel]; rfl, hcode, rfl⟩
            · cases hfate

lemma promptCode_body {text : List Char} {func : Function} {choice : ℕ → Fin SYLLABLES.length}
    {code : List Char} {trimmed : ℕ}
    (h : promptCode u choice tries (preambleOf u (functionSpans u text) (splitlinesKeep text))
      (bodyOf (splitlinesKeep text) func) = some (code, trimmed)) :
    ∃ whole, promptText u choice tries
        (v2Lines text (firstLabelled u (functionSpans u text) - 1) func) = some whole ∧
      code = erase (capped (whole.drop (lead whole).length)) ∧
      trimmed = (newlines (lead whole)).length := by
  obtain ⟨plain, hplain, hpair⟩ := Option.map_eq_some_iff.mp h
  rw [← erase_v2Lines, ← erase_promptText] at hplain
  obtain ⟨whole, hwhole, rfl⟩ := Option.map_eq_some_iff.mp hplain
  obtain ⟨rfl, rfl⟩ := Prod.mk.inj hpair
  refine ⟨whole, hwhole, ?_, ?_⟩
  · have hdrop : erase (whole.drop (lead whole).length) = (erase whole).drop (lead whole).length := List.map_drop
    rw [erase_capped, hdrop, ← erase_lead, List.length_map]
  · rw [← erase_lead, ← erase_newlines, List.length_map]

/-- **A finding shows its flagged line** if the line ends before the cap and newlines are the only line ends of the
file, and only if it begins before the cap: for every finding in a function that `build_items.py` finds, and for
every one that `build_v2.py` keeps. The text that is cut is the context of the function there, and the stripped and
renamed text without the blank lines it begins with here. -/
theorem flagged_line_shown_iff (u : Unicode) :
    (∀ (text : List Char) (line : ℕ) (func : Function) (out : List Char),
      enclosing (functionSpans u text) line = some func →
      scrub u (codeContext (splitlinesKeep text) func).1 = .ok out →
        let body := contextLines (markedLines text) func
        let shown := scrubbed u (capped body)
        erase shown = out ∧ (Shows shown (contextStart func) line line → Begins body line) ∧
          (NewlinesOnly text → Ends body line → Shows shown (contextStart func) line line ∧
            ∃ row ∈ rows out (contextStart func), (row.1 : ℤ) = line)) ∧
    ∀ (work : Work) (rng : List Char → ℕ → Fin SYLLABLES.length) (tries : ℕ) (f : Finding)
      (key : List Char) (split : Split) (item : Item) (out : List Char),
      judge u work rng tries f = .reached key (.kept split item) →
      scrub u item.codeContext = .ok out →
        ∃ file func body, work.file f.uri = some file ∧
          enclosing (functionSpans u file.text) f.startLine = some func ∧
          v2Body u (rng key) tries file.text func = some body ∧
          let shown := scrubbed u (capped body)
          erase shown = out ∧
            (Shows shown contextStartLine f.startLine item.startLine → Begins body f.startLine) ∧
            (NewlinesOnly file.text → Ends body f.startLine →
              Shows shown contextStartLine f.startLine item.startLine ∧
                ∃ row ∈ rows out contextStartLine, (row.1 : ℤ) = item.startLine) := by
  constructor
  · intro text line func out hfunc hout
    obtain ⟨hspan, hstart, hend⟩ := enclosing_spec hfunc
    obtain ⟨hfirst, hle⟩ := contextStart_le hspan
    have hshown : erase (scrubbed u (capped (contextLines (markedLines text) func))) = out := by
      rw [erase_scrubbed, erase_capped, erase_contextLines]
      exact scrub_ok hout
    refine ⟨hshown, begins_of_shows (by omega), fun hnl hends => ?_⟩
    have hshows := shows_of_ends (u := u) (contextStart func) (k := line - contextStart func)
      (lined_contextLines hnl func) (newlinesOnly_contextLines hnl func) (fun j => by omega) (by omega) hends
    rw [show ((contextStart func : ℤ) + (line - contextStart func : ℕ) - (0 : ℕ)) = line by omega] at hshows
    exact ⟨hshows, hshown ▸ row_of_shows hshows⟩
  · intro work rng tries f key split item out hjudge hout
    obtain ⟨file, func, trimmed, hfile, hfunc, hlabel, hcode, hnumber⟩ := judge_kept hjudge
    obtain ⟨whole, hwhole, hcontext, rfl⟩ := promptCode_body hcode
    obtain ⟨hspan, hstart, hend⟩ := enclosing_spec hfunc
    obtain ⟨hone, -, hlt⟩ := functionSpans_lies u file.text hspan
    obtain ⟨hfirst, hle⟩ := firstLabelled_le hspan hlabel
    have hshown : erase (scrubbed u (capped (whole.drop (lead whole).length))) = out := by
      rw [erase_scrubbed, ← hcontext, scrub_ok hout]
    refine ⟨file, func, whole.drop (lead whole).length, hfile, hfunc, ?_, hshown, begins_of_shows (by omega),
      fun hnl hends => ?_⟩
    · exact Option.map_eq_some_iff.mpr ⟨whole, hwhole, rfl⟩
    · obtain ⟨hlined, hplain⟩ := lined_rest hnl (by omega) (by omega) hwhole
      have hp : firstLabelled u (functionSpans u file.text) - 1 < func.start := by omega
      have hmark : ∀ j, v2Mark (firstLabelled u (functionSpans u file.text) - 1) func.start j = f.startLine ↔
          j = firstLabelled u (functionSpans u file.text) - 1 + 1 + (f.startLine - func.start) := fun j =>
        ⟨(v2Mark_line hp hstart).2 j, fun hj => hj ▸ (v2Mark_line hp hstart).1⟩
      have hshows := shows_of_ends (u := u) contextStartLine hlined hplain hmark (by omega) hends
      -- the number of the item is the number of that row
      have hlen : (preambleOf u (functionSpans u file.text) (splitlinesKeep file.text)).length =
          firstLabelled u (functionSpans u file.text) - 1 := by
        have hlines : (splitlines file.text).length = (splitlinesKeep file.text).length := List.length_map _
        unfold preambleOf slice
        rw [List.drop_zero, List.length_take, min_eq_left (by omega)]
      have hitem : Shows (scrubbed u (capped (whole.drop (lead whole).length))) contextStartLine f.startLine
          item.startLine := by
        rw [hnumber, hlen]
        convert hshows using 1
        rw [contextStartLine]
        omega
      exact ⟨hitem, hshown ▸ row_of_shows hitem⟩

end

/-- A work directory with a small file. -/
def smallWork : Work where
  file _ := some
    { name := "t_01.c".toList
      dir := "121".toList
      relative := some "juliet/121/t_01.c".toList
      text := smallFile }
  split _ := some .test

/-- A finding in its fourth line. -/
def smallFinding : Finding where
  tool := "flawfinder".toList
  ruleId := "r".toList
  ruleCwes := []
  message := "m".toList
  uri := "juliet/121/t_01.c".toList
  startLine := 4
  endLine := 4

/-- In a small file both builders show the flagged line. -/
theorem flagged_line_shown_small :
    Shows (scrubbed ascii (capped (contextLines (markedLines smallFile) ⟨"bad".toList, 2, 5⟩))) 1 4 4 ∧
      ∃ (item : Item) (body : Marked), item.startLine = 5 ∧
        Shows (scrubbed ascii (capped body)) 1 4 item.startLine := by
  have hnl : NewlinesOnly smallFile := by
    have hall : smallFile.all (fun c => !isBreak c || c = '\n') = true := by decide +kernel
    intro c hc hb
    simpa [hb] using List.all_eq_true.mp hall c hc
  have hfunc : enclosing (functionSpans ascii smallFile) 4 = some ⟨"bad".toList, 2, 5⟩ := by decide +kernel
  constructor
  · refine (((flagged_line_shown_iff ascii).1 smallFile 4 ⟨"bad".toList, 2, 5⟩
      "int a;\nvoid id_1()\n\x7b\n  id_1 = 1; \n\x7d\n".toList hfunc (by decide +kernel)).2.2 hnl ?_).1
    decide +kernel
  · have hkept : ((entry ascii smallWork inTurn 9 smallFinding).bind fun e => e.2.itemFor .test .fpOfftarget).map
        (fun item => (item.startLine, item.codeContext)) =
          some (5, "int a;\n\nvoid kalomi()\n\x7b\n  kalomi = 1; \n\x7d\n".toList) := by decide +kernel
    obtain ⟨item, hitem, hpair⟩ := Option.map_eq_some_iff.mp hkept
    obtain ⟨hstart, hcode⟩ := Prod.mk.inj hpair
    obtain ⟨⟨key, fate⟩, hentry, hfate⟩ := Option.bind_eq_some_iff.mp hitem
    obtain ⟨rfl, -⟩ := itemFor_eq_some.mp hfate
    have hkey : (entry ascii smallWork inTurn 9 smallFinding).map Prod.fst = some "t_01.c:4:r".toList := by
      decide +kernel
    rw [hentry] at hkey
    obtain rfl : key = "t_01.c:4:r".toList := Option.some.inj hkey
    have hjudge := entry_eq_some.mp hentry
    obtain ⟨file, func, body, hfile, hspan, hbody, -, -, hshows⟩ :=
      (flagged_line_shown_iff ascii).2 smallWork inTurn 9 smallFinding _ .test item
        "int a;\n\nvoid kalomi()\n\x7b\n  kalomi = 1; \n\x7d\n".toList hjudge (by rw [hcode]; decide +kernel)
    obtain rfl := Option.some.inj hfile
    obtain rfl := Option.some.inj (hfunc.symm.trans hspan)
    refine ⟨item, body, hstart, (hshows hnl ?_).1⟩
    have hend : (v2Body ascii (inTurn "t_01.c:4:r".toList) 9 smallFile ⟨"bad".toList, 2, 5⟩).all
        (fun body => ('\n', 4) ∈ body.take CONTEXT_CHAR_CAP) = true := by decide +kernel
    rw [hbody] at hend
    exact of_decide_eq_true hend

/-! ### A line behind the cap -/

lemma subset_dropOpened (code : List Char) : dropOpened code ⊆ code := by
  have hcut : ∀ k, newlines (code.take k) ++ code.drop k ⊆ code := by
    intro k c hc
    rcases List.mem_append.mp hc with hc | hc
    · exact List.mem_of_mem_take (List.mem_of_mem_filter hc)
    · exact List.mem_of_mem_drop hc
  unfold dropOpened
  split
  · split_ifs
    · exact hcut _
    · exact List.Subset.refl code
  · exact hcut _
  · exact List.Subset.refl code

lemma subset_dropComments (code : List Char) : dropComments code ⊆ code := by
  intro c hc
  obtain ⟨p, hp, hc⟩ := List.mem_flatMap.mp hc
  rw [← flatten_pieces COMMENT code]
  refine List.mem_flatMap.mpr ⟨p, hp, ?_⟩
  cases p with
  | keep d => exact hc
  | hit m => exact List.mem_of_mem_filter hc

lemma scrub_of_chars {u : Unicode} {code chars : List Char}
    (hchars : harmless chars = true)
    (h : ∀ c ∈ code, c ∈ chars) : ∃ out, scrub u code = .ok out := by
  have hclean : Clean u (dropComments (dropOpened code)) :=
    clean_of_chars hchars fun c hc => h c (subset_dropOpened code (subset_dropComments _ hc))
  refine ⟨scrubbed u code, ?_⟩
  unfold scrub
  rw [scrubbed_clean hclean, show (LEAK_WORDS u).search _ = none from hclean]

/-- A file with a function, some blanks on a line of it, and a statement on the next. -/
def padded (k : ℕ) : List Char :=
  "int t()\n\x7b\n".toList ++ (List.replicate k ' ' ++ "\n x;\n\x7d\n".toList)

lemma splitlinesKeep_padded (k : ℕ) : splitlinesKeep (padded k) =
    ["int t()\n".toList, "\x7b\n".toList, List.replicate k ' ' ++ ['\n'], " x;\n".toList, "\x7d\n".toList] := by
  have hblank : ∀ c ∈ List.replicate k ' ', isBreak c = false := by
    intro c hc
    rw [List.eq_of_mem_replicate hc]
    decide
  have hrest : splitlinesKeep (List.replicate k ' ' ++ '\n' :: " x;\n\x7d\n".toList) =
      [List.replicate k ' ' ++ ['\n'], " x;\n".toList, "\x7d\n".toList] := by
    rw [splitlinesKeep_line hblank]
    rfl
  have hsignature : "int t()".toList.all (fun c => !isBreak c) = true := by decide
  have hbrace : "\x7b".toList.all (fun c => !isBreak c) = true := by decide
  have hpadded : padded k = "int t()".toList ++ '\n' :: ("\x7b".toList ++ '\n' ::
      (List.replicate k ' ' ++ '\n' :: " x;\n\x7d\n".toList)) := rfl
  rw [hpadded, splitlinesKeep_line (by simpa using hsignature), splitlinesKeep_line (by simpa using hbrace),
    hrest]
  rfl

lemma functionSpans_padded (k : ℕ) : functionSpans ascii (padded k) = [⟨"t".toList, 1, 5⟩] := by
  have hblank : rstrip ascii (dropBreak (List.replicate k ' ' ++ ['\n'])) ≠ ['\x7d'] := by
    intro h
    have hmem : '\x7d' ∈ dropBreak (List.replicate k ' ' ++ ['\n']) :=
      (List.rdropWhile_prefix _ _).subset (h ▸ List.mem_singleton_self _)
    rcases List.mem_append.mp ((List.takeWhile_prefix _).subset hmem) with hmem | hmem
    · cases List.eq_of_mem_replicate hmem
    · cases List.mem_singleton.mp hmem
  unfold functionSpans splitlines
  rw [splitlinesKeep_padded]
  have hfirst : spanStep ascii ([], none) (dropBreak "int t()\n".toList) 1 = ([], some (1, "t".toList)) := by
    decide +kernel
  have hsecond : spanStep ascii ([], some (1, "t".toList)) (dropBreak "\x7b\n".toList) 2 =
      ([], some (1, "t".toList)) := by decide +kernel
  have hthird : spanStep ascii ([], some (1, "t".toList)) (dropBreak (List.replicate k ' ' ++ ['\n'])) 3 =
      ([], some (1, "t".toList)) := if_neg hblank
  have hfourth : spanStep ascii ([], some (1, "t".toList)) (dropBreak " x;\n".toList) 4 =
      ([], some (1, "t".toList)) := by decide +kernel
  have hfifth : spanStep ascii ([], some (1, "t".toList)) (dropBreak "\x7d\n".toList) 5 =
      ([⟨"t".toList, 1, 5⟩], none) := by decide +kernel
  simp only [List.map_cons, List.map_nil, List.zipIdx_cons, List.zipIdx_nil, List.foldl_cons, List.foldl_nil,
    hfirst, hsecond, hthird, hfourth, hfifth]

lemma subset_capped (code : List Char) : capped code ⊆ code ++ "\n/* [truncated] */\n".toList := by
  unfold capped
  split_ifs
  · rw [show "\n/* [truncated] */\n".toList.map (Cell.plain : Char → Char) = "\n/* [truncated] */\n".toList
      from List.map_id _]
    exact List.append_subset.mpr ⟨fun c hc => List.mem_append_left _ (List.mem_of_mem_take hc),
      List.subset_append_right _ _⟩
  · exact List.subset_append_left _ _

lemma contextLines_padded (k : ℕ) :
    contextLines (splitlinesKeep (padded k)) ⟨"t".toList, 1, 5⟩ = padded k := by
  have hall : slice (splitlinesKeep (padded k)) (contextStart ⟨"t".toList, 1, 5⟩ - 1) 5 =
      splitlinesKeep (padded k) := by
    rw [splitlinesKeep_padded]
    rfl
  unfold contextLines
  rw [hall, flatten_splitlinesKeep]

lemma scrub_padded (k : ℕ) :
    ∃ out, scrub ascii (codeContext (splitlinesKeep (padded k)) ⟨"t".toList, 1, 5⟩).1 = .ok out := by
  have hchars : harmless (padded 1 ++ "\n/* [truncated] */\n".toList) = true := by decide
  refine scrub_of_chars hchars fun c hc => ?_
  have hmem := subset_capped _ hc
  rw [contextLines_padded] at hmem
  refine (List.mem_append.mp hmem).elim (fun hc => List.mem_append_left _ ?_) (List.mem_append_right _)
  unfold padded at hc ⊢
  simp only [List.mem_append, List.mem_replicate] at hc ⊢
  exact hc.imp id (Or.imp (fun h => ⟨Nat.one_ne_zero, h.2⟩) id)

lemma contextLines_marked (k : ℕ) : contextLines (markedLines (padded k)) ⟨"t".toList, 1, 5⟩ =
    (markFrom 1 ["int t()\n".toList, "\x7b\n".toList, List.replicate k ' ' ++ ['\n']]).flatten ++
      (markFrom 4 [" x;\n".toList, "\x7d\n".toList]).flatten := by
  have hslice : slice (markedLines (padded k)) (contextStart ⟨"t".toList, 1, 5⟩ - 1) 5 =
      markFrom 1 ["int t()\n".toList, "\x7b\n".toList, List.replicate k ' ' ++ ['\n']] ++
        markFrom 4 [" x;\n".toList, "\x7d\n".toList] := by
    unfold markedLines
    rw [splitlinesKeep_padded]
    rfl
  unfold contextLines
  rw [hslice, List.flatten_append]

/-- Where the blanks go beyond the cap, nothing of the statement is before it. -/
lemma hidden_padded {k : ℕ} (hk : CONTEXT_CHAR_CAP ≤ k) :
    ¬ ∃ c ∈ (contextLines (markedLines (padded k)) ⟨"t".toList, 1, 5⟩).take CONTEXT_CHAR_CAP, c.2 = 4 := by
  have hlength : k ≤ (markFrom 1 ["int t()\n".toList, "\x7b\n".toList,
      List.replicate k ' ' ++ ['\n']]).flatten.length := by
    simp only [markFrom, List.flatten_cons, List.flatten_nil, List.length_append, List.length_map,
      List.length_replicate]
    omega
  rw [contextLines_marked, List.take_append_of_le_length (hk.trans hlength)]
  rintro ⟨c, hc, hmark⟩
  have hmem := List.mem_of_mem_take hc
  simp only [markFrom, List.flatten_cons, List.flatten_nil, List.append_nil, List.mem_append,
    List.mem_map] at hmem
  rcases hmem with ⟨d, -, rfl⟩ | ⟨d, -, rfl⟩ | ⟨d, -, rfl⟩ <;> cases hmark

/-- **A flagged line behind the cap is not shown**, and the finding is not dropped. -/
theorem cut_line_hidden : ∃ func out,
    enclosing (functionSpans ascii (padded CONTEXT_CHAR_CAP)) 4 = some func ∧
      scrub ascii (codeContext (splitlinesKeep (padded CONTEXT_CHAR_CAP)) func).1 = .ok out ∧
      ¬ Shows (scrubbed ascii (capped (contextLines (markedLines (padded CONTEXT_CHAR_CAP)) func)))
        (contextStart func) 4 4 := by
  obtain ⟨out, hout⟩ := scrub_padded CONTEXT_CHAR_CAP
  refine ⟨⟨"t".toList, 1, 5⟩, out, ?_, hout, fun h => ?_⟩
  · rw [functionSpans_padded]
    rfl
  · exact hidden_padded le_rfl (begins_of_shows (by decide) h)

end CSecureBuild.Harness.FlaggedLine
