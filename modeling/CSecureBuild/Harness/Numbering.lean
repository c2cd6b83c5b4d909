import CSecureBuild.Harness.LineAlign
import CSecureBuild.Harness.Rescan

/-!
The numbers of the rows. `numbered` splits a text where `splitlines` does, and the tools count newlines.
What `scrub` leaves of a newline-separated line is what is left with its number as mark, and
`rows_iff` says when the rows show just that: no other line end may be left, and what is left must
have a last line if the text has one.
-/

namespace CSecureBuild.Harness.Numbering

open CSecureBuild.PyLib.Cells CSecureBuild.PyLib.Text CSecureBuild.PyLib.Words CSecureBuild.Lib.Lines
open CSecureBuild.Harness.Scrub CSecureBuild.Harness.Patterns CSecureBuild.Harness.Linewise
open CSecureBuild.Harness.LineAlign CSecureBuild.Harness.Reading CSecureBuild.Harness.Renaming
open CSecureBuild.Harness.Rescan

/-! ### Newline-separated lines -/

/-- There is nothing behind the last newline of a text. -/
def Ended (text : List Char) : Prop := ∀ c ∈ text.getLast?, c = '\n'

instance (text : List Char) : Decidable (Ended text) :=
  decidable_of_iff (text.getLast?.all (· = '\n') = true) (by simp [Ended, Option.all_eq_true])

/-- The newline-separated lines of a text, without an empty piece behind the last newline. -/
def newlineLines (text : List Char) : List (List Char) :=
  if Ended text then (lines text).dropLast else lines text

variable {text line rest : List Char}

lemma ended_append (h : rest ≠ []) (front : List Char) : Ended (front ++ rest) ↔ Ended rest := by
  unfold Ended
  rw [List.getLast?_append_of_ne_nil front h]

lemma ended_flat (h : '\n' ∉ line) : Ended line ↔ line = [] := by
  refine ⟨fun hended => ?_, ?_⟩
  · by_contra hne
    have hlast := List.getLast?_eq_some_getLast hne
    exact h ((hended _ hlast) ▸ List.getLast_mem hne)
  · rintro rfl
    exact fun c hc => by cases hc

lemma ended_line (line rest : List Char) : Ended (line ++ '\n' :: rest) ↔ Ended rest := by
  rw [ended_append (List.cons_ne_nil _ _)]
  cases rest with
  | nil => simp [Ended]
  | cons c rest => exact ended_append (List.cons_ne_nil c rest) ['\n']

lemma newlineLines_line (h : '\n' ∉ line) (rest : List Char) :
    newlineLines (line ++ '\n' :: rest) = line :: newlineLines rest := by
  unfold newlineLines
  simp only [ended_line, lines_line h, List.dropLast_cons_of_ne_nil (lines_ne_nil rest)]
  split_ifs <;> rfl

lemma newlineLines_last (h : '\n' ∉ line) : newlineLines line = if line = [] then [] else [line] := by
  unfold newlineLines
  simp only [ended_flat h, lines_last h]
  split_ifs <;> rfl

/-- Where a newline is the only line end, `splitlines` gives the newline-separated lines. -/
theorem splitlines_eq (h : NewlinesOnly text) : splitlines text = newlineLines text := by
  have hflat : ∀ {line}, '\n' ∉ line → NewlinesOnly line → ∀ c ∈ line, isBreak c = false := by
    intro line hline hnl c hc
    refine Bool.eq_false_of_not_eq_true fun hb => hline ?_
    rw [← hnl c hc hb]
    exact hc
  induction text using line_induction with
  | last line hline =>
    rw [newlineLines_last hline]
    split_ifs with hne
    · rw [hne]
      rfl
    · exact splitlines_tail (hflat hline h) hne
  | step line rest hline ih =>
    have hleft : NewlinesOnly line := fun c hc => h c (List.mem_append_left _ hc)
    have hright : NewlinesOnly rest := fun c hc => h c (List.mem_append_right _ (List.mem_cons_of_mem _ hc))
    rw [splitlines_line (hflat hline hleft), newlineLines_line hline, ih hright]

lemma mem_newlineLines {c : Char} (hc : c ∈ text) : c = '\n' ∨ ∃ line ∈ newlineLines text, c ∈ line := by
  induction text using line_induction with
  | last line hline =>
    rw [newlineLines_last hline, if_neg (List.ne_nil_of_mem hc)]
    exact Or.inr ⟨line, List.mem_singleton_self line, hc⟩
  | step line rest hline ih =>
    rw [newlineLines_line hline]
    rcases List.mem_append.mp hc with hc | hc
    · exact Or.inr ⟨line, List.mem_cons_self, hc⟩
    · rcases List.mem_cons.mp hc with hc | hc
      · exact Or.inl hc
      · exact (ih hc).imp id fun ⟨more, hmore, hc⟩ => ⟨more, List.mem_cons_of_mem line hmore, hc⟩

lemma isBreak_of_mem_splitlines (hline : line ∈ splitlines text) {c : Char} (hc : c ∈ line) :
    isBreak c = false := by
  obtain ⟨whole, -, rfl⟩ := List.mem_map.mp hline
  simpa using List.mem_takeWhile_imp hc

lemma newlinesOnly_of_lines (h : newlineLines text = splitlines text) : NewlinesOnly text := by
  intro c hc hb
  refine (mem_newlineLines hc).resolve_right ?_
  rintro ⟨line, hline, hc⟩
  rw [h] at hline
  rw [isBreak_of_mem_splitlines hline hc] at hb
  cases hb

lemma lineAt_eq (text : List Char) (i : ℕ) : lineAt i text = ((lines text)[i]?).getD [] := by
  have hplain : ∀ {line : List Char}, '\n' ∉ line → ∀ c ∈ line, c ≠ '\n' := fun h c hc e => h (e ▸ hc)
  induction text using line_induction generalizing i with
  | last line hline =>
    rw [lineAt_flat (hplain hline), lines_last hline]
    cases i <;> rfl
  | step line rest hline ih =>
    rw [lineAt_line (hplain hline), lines_line hline]
    cases i with
    | zero => rfl
    | succ i => exact ih i

lemma length_lines (text : List Char) : (lines text).length = (newlines text).length + 1 := by
  induction text using line_induction with
  | last line hline =>
    rw [lines_last hline, newlines_eq_nil fun c hc e => hline (e ▸ hc)]
    rfl
  | step line rest hline ih =>
    have hrest : newlines ('\n' :: rest) = '\n' :: newlines rest := rfl
    rw [lines_line hline, newlines_append, newlines_eq_nil fun c hc e => hline (e ▸ hc), hrest,
      List.length_cons, ih]
    rfl

/-! ### What is left of a line -/

/-- A text, each character marked with the number of newlines before it. -/
def marked : ℕ → List Char → Marked
  | _, [] => []
  | n, c :: rest => (c, n) :: marked (if c = '\n' then n + 1 else n) rest

/-- What `scrub` leaves of a newline-separated line of a text. -/
def left (u : Unicode) (code : List Char) (i : ℕ) : List Char := ofLine i (scrubbed u (marked 0 code))

lemma erase_marked (n : ℕ) (text : List Char) : erase (marked n text) = text := by
  induction text generalizing n with
  | nil => rfl
  | cons c rest ih =>
    rw [marked, erase, List.map_cons, ← erase, ih]
    rfl

lemma lined_marked (n : ℕ) (text : List Char) : Lined id n (marked n text) := by
  induction text generalizing n with
  | nil => exact lined_nil
  | cons c rest ih => exact lined_cons.mpr ⟨rfl, ih _⟩

lemma left_eq (u : Unicode) (code : List Char) (i : ℕ) : left u code i = lineAt i (scrubbed u code) := by
  have hlined := (keeps_scrubbed u (marked 0 code)).lined id 0 (lined_marked 0 code)
  have hline := ofLine_eq (i := i) hlined fun k _ hk => hk
  rw [erase_scrubbed, erase_marked] at hline
  rwa [Nat.zero_add] at hline

lemma length_lines_scrubbed (u : Unicode) (code : List Char) :
    (lines (scrubbed u code)).length = (lines code).length := by
  have hheight := (keeps_scrubbed u (marked 0 code)).height
  unfold height at hheight
  have hlen : ∀ text : Marked, (newlines text).length = (newlines (erase text)).length := by
    intro text
    rw [← erase_newlines, erase, List.length_map]
  rw [hlen, hlen, erase_scrubbed, erase_marked] at hheight
  rw [length_lines, length_lines, hheight]

/-! ### The last line -/

/-- The marks of a text that is ended say nothing of what is behind it. -/
lemma Lined.behind {T T' : ℕ → ℕ} {n : ℕ} {text : Marked} (hended : Ended (erase text))
    (hT : ∀ k, k ≠ n + height text → T k = T' k) (h : Lined T n text) : Lined T' n text := by
  induction text generalizing n with
  | nil => exact lined_nil
  | cons c rest ih =>
    rw [height_cons] at hT
    obtain ⟨hc, hrest⟩ := lined_cons.mp h
    have hmore : Ended (erase rest) := by
      by_cases hne : erase rest = []
      · rw [hne]
        exact fun d hd => by cases hd
      · exact (ended_append hne [c.1]).mp hended
    have hlt : n < n + (if c.1 = '\n' then height rest + 1 else height rest) := by
      by_contra hnot
      have hflat : c.1 ≠ '\n' ∧ height rest = 0 := by
        by_cases hnewline : c.1 = '\n'
        · rw [if_pos hnewline] at hnot
          omega
        · rw [if_neg hnewline] at hnot
          exact ⟨hnewline, by omega⟩
      have hnone : ∀ d ∈ c :: rest, d.1 ≠ '\n' := by
        refine List.forall_mem_cons.mpr ⟨hflat.1, fun d hd heq => ?_⟩
        have hmem : d ∈ newlines rest := List.mem_filter.mpr ⟨hd, by simpa using heq⟩
        rw [List.length_eq_zero_iff.mp hflat.2] at hmem
        cases hmem
      have hline : '\n' ∉ erase (c :: rest) := by
        intro hmem
        obtain ⟨d, hd, heq⟩ := List.mem_map.mp hmem
        exact hnone d hd heq
      have hempty := (ended_flat hline).mp hended
      cases hempty
    refine lined_cons.mpr ⟨hc.trans (hT n hlt.ne), ih hmore (fun k hk => hT k ?_) hrest⟩
    split_ifs at hk ⊢ <;> omega

lemma ended_of_lined {T T' : ℕ → ℕ} {n : ℕ} {text : Marked} (h : Lined T n text) (h' : Lined T' n text)
    (hT : T (n + height text) ≠ T' (n + height text)) : Ended (erase text) := by
  induction text generalizing n with
  | nil => exact fun d hd => by cases hd
  | cons c rest ih =>
    rw [height_cons] at hT
    obtain ⟨hc, hrest⟩ := lined_cons.mp h
    obtain ⟨hc', hrest'⟩ := lined_cons.mp h'
    have hmore : Ended (erase rest) := by
      refine ih hrest hrest' ?_
      split_ifs at hT ⊢
      · rwa [Nat.add_right_comm, Nat.add_assoc]
      · exact hT
    cases rest with
    | nil =>
      intro d hd
      obtain rfl : c.1 = d := Option.some.inj hd
      by_contra hne
      rw [if_neg hne, height_nil, Nat.add_zero] at hT
      exact hT (hc.symm.trans hc')
    | cons d rest => exact (ended_append (List.cons_ne_nil _ _) [c.1]).mpr hmore

/-- **A text that is ended stays so.** -/
theorem ended_scrubbed (u : Unicode) {code : List Char} (h : Ended code) : Ended (scrubbed u code) := by
  have hkeeps := keeps_scrubbed u (marked 0 code)
  have hlined := lined_marked 0 code
  have hother : Lined (fun k => if k = height (marked 0 code) then k + 1 else k) 0 (marked 0 code) := by
    refine Lined.behind (by rwa [erase_marked]) (fun k hk => ?_) hlined
    rw [Nat.zero_add] at hk
    rw [if_neg hk]
    rfl
  have hended := ended_of_lined (hkeeps.lined _ _ hlined) (hkeeps.lined _ _ hother) (by
    rw [hkeeps.height, Nat.zero_add, if_pos rfl]
    exact (Nat.lt_succ_self _).ne)
  rwa [erase_scrubbed, erase_marked] at hended

/-! ### The rows -/

lemma rows_iff_lines {out : List Char} {n : ℕ} {f : ℕ → List Char} :
    (∀ first, rows out first = (List.range n).map fun i => (first + i, f i)) ↔
      splitlines out = (List.range n).map f := by
  constructor
  · intro h
    have hrows := congrArg (List.map Prod.snd) (h 0)
    unfold rows at hrows
    simpa [List.map_map, Function.comp_def, List.zipIdx_map_fst] using hrows
  · intro h first
    unfold rows
    rw [h]
    apply List.ext_getElem?
    intro i
    by_cases hi : i < n
    · simp [hi]
    · simp [hi]

lemma map_lineAt {n : ℕ} (h : n ≤ (lines text).length) :
    ((List.range n).map fun i => lineAt i text) = (lines text).take n := by
  apply List.ext_getElem?
  intro i
  by_cases hi : i < n
  · have hlt : i < (lines text).length := hi.trans_le h
    rw [List.getElem?_map, List.getElem?_range hi, List.getElem?_take_of_lt hi, Option.map_some, lineAt_eq,
      List.getElem?_eq_getElem hlt]
    rfl
  · rw [List.getElem?_eq_none (by simpa using hi), List.getElem?_eq_none (by
      rw [List.length_take]
      omega)]

/-- **The rows of a text show what is left of its lines** exactly if a newline is the only line end that
is left, and a last line is left if there was one. -/
theorem splitlines_iff (u : Unicode) (code : List Char) :
    splitlines (scrubbed u code) = (List.range (newlineLines code).length).map (left u code) ↔
      NewlinesOnly (scrubbed u code) ∧ (Ended (scrubbed u code) → Ended code) := by
  have hlen := length_lines_scrubbed u code
  have hleft : left u code = fun i => lineAt i (scrubbed u code) := funext (left_eq u code)
  have hended : Ended code → Ended (scrubbed u code) := ended_scrubbed u
  generalize scrubbed u code = out at hlen hleft hended ⊢
  have hle : (newlineLines code).length ≤ (lines out).length := by
    unfold newlineLines
    rw [hlen]
    split_ifs
    · exact (List.length_dropLast ▸ Nat.sub_le _ _)
    · exact le_rfl
  rw [hleft, map_lineAt hle]
  by_cases hcode : Ended code
  · have hsame : (lines out).take (newlineLines code).length = newlineLines out := by
      unfold newlineLines
      rw [if_pos hcode, if_pos (hended hcode), List.length_dropLast, ← hlen, ← List.dropLast_eq_take]
    rw [hsame]
    -- a text with a newline at its end keeps it
    exact ⟨fun h => ⟨newlinesOnly_of_lines h.symm, fun _ => hcode⟩, fun h => splitlines_eq h.1⟩
  · have hsame : (lines out).take (newlineLines code).length = lines out := by
      unfold newlineLines
      rw [if_neg hcode, ← hlen, List.take_length]
    rw [hsame]
    constructor
    · intro h
      -- a line end in a line would make more rows of it
      have hnl : NewlinesOnly out := by
        intro c hc hb
        refine (mem_newlineLines hc).resolve_right ?_
        rintro ⟨line, hline, hcl⟩
        have hmem : line ∈ splitlines out := by
          rw [h]
          unfold newlineLines at hline
          split_ifs at hline
          · exact List.mem_of_mem_dropLast hline
          · exact hline
        rw [isBreak_of_mem_splitlines hmem hcl] at hb
        cases hb
      -- a newline at the end would leave a line less
      refine ⟨hnl, fun hout => ?_⟩
      rw [splitlines_eq hnl, newlineLines, if_pos hout] at h
      have hlt := congrArg List.length h
      rw [List.length_dropLast] at hlt
      have hpos := List.length_pos_iff.mpr (lines_ne_nil out)
      omega
    · rintro ⟨hnl, hout⟩
      rw [splitlines_eq hnl, newlineLines, if_neg fun h => hcode (hout h)]

/-! ### What the text shows -/

/-- A token that `scrub` does not rename. -/
def Stays : Tok → Prop
  | .sep _ => True
  | .word w => ¬ HasLabel w

/-- No line end but newlines stays of what a text shows, and it shows a last line if it has one. -/
def NewlinesLeft (u : Unicode) (code : List Char) : Prop :=
  ∀ text, Shown u code text →
    (∀ t ∈ toks u.word text, Stays t → NewlinesOnly t.text) ∧ (Ended text → Ended code)

lemma newlinesOnly_renameText {u : Unicode} {name : List Char → List Char}
    (hname : ∀ w, ∀ c ∈ name w, isBreak c = false) :
    NewlinesOnly (renameText u name text) ↔ ∀ t ∈ toks u.word text, Stays t → NewlinesOnly t.text := by
  unfold NewlinesOnly renameText render
  constructor
  · intro h t ht hstays c hc
    refine h c (List.mem_flatMap.mpr ⟨renamed name t, List.mem_map_of_mem ht, ?_⟩)
    cases t with
    | sep d => exact hc
    | word w => rwa [renamed, newName, if_neg hstays]
  · intro h c hc
    obtain ⟨t', ht', hc⟩ := List.mem_flatMap.mp hc
    obtain ⟨t, ht, rfl⟩ := List.mem_map.mp ht'
    cases t with
    | sep d => exact h (.sep d) ht trivial c hc
    | word w =>
      rw [renamed, newName] at hc
      split_ifs at hc with hlabel
      · intro hb
        rw [hname w c hc] at hb
        cases hb
      · exact h (.word w) ht hlabel c hc

lemma ended_renameText {u : Unicode} {name : List Char → List Char} (h : NeutralFor u name text) :
    Ended (renameText u name text) ↔ Ended text := by
  have hword : ∀ {w : List Char}, IsWord u w → ∀ rest, Ended (w ++ rest) ↔ rest ≠ [] ∧ Ended rest := by
    intro w hw rest
    by_cases hrest : rest = []
    · have hflat : '\n' ∉ w := fun hmem => hw.ne hmem (not_word (by simp)) rfl
      rw [hrest, List.append_nil, ended_flat hflat]
      simp [hw.1]
    · rw [ended_append hrest, and_iff_right hrest]
  refine (token_induction (P := fun x y => (y = [] ↔ x = []) ∧ (Ended y ↔ Ended x)) h ⟨Iff.rfl, Iff.rfl⟩
    (fun c x y _ ih => ⟨by simp, ?_⟩) fun w v x y hw hv _ _ _ ih => ⟨by simp [hw.1, hv.1], ?_⟩).2
  · by_cases hx : x = []
    · rw [hx, ih.1.mpr hx]
    · rw [← List.singleton_append, ended_append (mt ih.1.mp hx), ih.2, ← ended_append hx [c]]
      rfl
  · rw [hword hw, hword hv, ih.2]
    exact and_congr_left fun _ => not_congr ih.1

/-- **The rows of `numbered` are the newline-separated lines** of the text exactly if a newline is the only
line end that is left in what the text shows, and its last line, if it has one, is not emptied: row `i` has
the number of line `i` and shows what is left of it. -/
theorem rows_iff (u : Unicode) {code out : List Char} (h : scrub u code = .ok out) :
    (∀ first, rows out first =
      (List.range (newlineLines code).length).map fun i => (first + i, left u code i)) ↔
    NewlinesLeft u code := by
  obtain ⟨rfl, -⟩ := scrub_ok_iff.mp h
  rw [rows_iff_lines, splitlines_iff]
  unfold NewlinesLeft
  simp only [shown_iff, forall_eq]
  have hname := neutralFor_nameIn (u := u) (toks u.word (strip u code)) (strip u code)
  have hplain : ∀ w, ∀ c ∈ nameIn (toks u.word (strip u code)) w, isBreak c = false := fun w =>
    isBreak_id _
  rw [scrubbed_eq_renameText, ended_renameText hname, newlinesOnly_renameText hplain]

/-- Two lines, one of them a comment. -/
theorem rows_iff_two : rows "a\n\n".toList 7 =
    (List.range 2).map fun i => (7 + i, left ascii "a\n// b\n".toList i) := by
  have hscrub : scrub ascii "a\n// b\n".toList = .ok "a\n\n".toList := by decide +kernel
  have hstrip : strip ascii "a\n// b\n".toList = "a\n\n".toList := by decide +kernel
  have hlen : (newlineLines "a\n// b\n".toList).length = 2 := by decide +kernel
  have htoks : toks ascii.word "a\n\n".toList = [.word "a".toList, .sep '\n', .sep '\n'] := by
    decide +kernel
  rw [← hlen]
  refine (rows_iff ascii hscrub).mpr (fun text htext => ?_) 7
  obtain rfl := shown_iff.mp htext
  rw [hstrip, htoks]
  refine ⟨fun t ht _ => ?_, fun _ => by decide +kernel⟩
  simp only [List.mem_cons, List.not_mem_nil, or_false, or_self] at ht
  rcases ht with rfl | rfl
  · simp [NewlinesOnly, Tok.text, isBreak]
  · simp [NewlinesOnly, Tok.text]

/-- **A form feed starts a row**, and no newline-separated line. -/
theorem form_feed_starts_row : ¬ ∀ (u : Unicode) (code out : List Char), scrub u code = .ok out →
    ∀ first, rows out first =
      (List.range (newlineLines code).length).map fun i => (first + i, left u code i) := by
  intro h
  have hrows := h ascii "a\x0cb\n".toList "a\x0cb\n".toList (by decide +kernel) 1
  have hlen := congrArg List.length hrows
  rw [List.length_map, List.length_range] at hlen
  revert hlen
  decide +kernel

end CSecureBuild.Harness.Numbering
