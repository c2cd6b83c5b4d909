import CSecureBuild.Harness.Items
import CSecureBuild.Lib.Lines

/-!
The flagged line through the whole pipeline. The source file is marked with its line numbers, and the
marks go through the same steps as the text (`erase_scrubbed`): what they leave of a line is what is left
with its mark. `keeps_scrubbed` and `keeps_promptText` say that lines stay lines, and
`flagged_row_aligned` that the row with the number of the flagged line is what is left of it.
-/

namespace CSecureBuild.Harness.LineAlign

open CSecureBuild.PyLib.Cells CSecureBuild.PyLib.Regex CSecureBuild.PyLib.Text CSecureBuild.Lib.Lines
open CSecureBuild.Harness.Scrub CSecureBuild.Harness.Items

/-! ### The steps keep lines -/

lemma within_lit {P : Char → Prop} {text : List Char} (h : ∀ c ∈ text, P c) :
    (Re.lit text).Within P := by
  induction text with
  | nil => trivial
  | cons c rest ih =>
    refine ⟨fun d hd => ?_, ih fun x hx => h x (List.mem_cons_of_mem c hx)⟩
    rw [of_decide_eq_true hd]
    exact h c List.mem_cons_self

lemma word_ne_newline (u : Unicode) {c : Char} (h : u.word c = true) : c ≠ '\n' := by
  rintro rfl
  rw [u.word_ascii '\n' (by decide)] at h
  revert h
  decide

/-- What has only characters with a property that excludes the newline. -/
abbrev Flat (c : Char) : Prop := c ≠ '\n'

lemma within_restOfLine : restOfLine.Within Flat := fun c hc => by simpa using hc

lemma within_directive : PREPROC_LABEL.Within Flat := by
  refine ⟨trivial, fun c hc => ?_, fun c hc => ?_, within_restOfLine, within_lit (by simp),
    ⟨within_lit (by simp), within_lit (by simp)⟩, within_restOfLine⟩
  · rintro rfl
    revert hc
    decide
  · rintro rfl
    revert hc
    decide

lemma within_string : STRING.Within Flat := by
  refine ⟨⟨fun c hc => ?_, trivial⟩, fun c hc => ?_, ⟨fun c hc => ?_, fun c hc => ?_, fun c hc => ?_⟩,
    fun c hc => ?_⟩ <;> (rintro rfl; revert hc; decide)

lemma within_name (u : Unicode) : (NAME_WITH_LABEL u).Within Flat := by
  have hword : (Re.star true (.chr u.word)).Within Flat := fun c hc => word_ne_newline u hc
  refine ⟨trivial, hword, ?_, hword, trivial⟩
  refine ⟨⟨fun c hc => ?_, within_lit (by simp)⟩, ⟨fun c hc => ?_, within_lit (by simp)⟩,
    within_lit (by simp), within_lit (by simp)⟩ <;> (rintro rfl; revert hc; decide)

lemma keeps_dropOpened (code : Marked) : Keeps code (dropOpened code) := by
  have hcut : ∀ k, Keeps code (newlines (code.take k) ++ code.drop k) := by
    intro k
    conv_lhs => rw [← List.take_append_drop k code]
    exact (keeps_newlines _).append (Keeps.refl _)
  unfold dropOpened
  split
  · split_ifs
    · exact hcut _
    · exact Keeps.refl code
  · exact hcut _
  · exact Keeps.refl code

lemma keeps_dropComments (code : Marked) : Keeps code (dropComments code) :=
  keeps_sub (fun _ _ m _ _ => keeps_newlines m.whole) code

lemma keeps_dropDirectives (code : Marked) : Keeps code (dropDirectives code) :=
  keeps_sub (fun _ _ _ hfirst _ => keeps_nil (first_spec within_directive hfirst).2.1) code

lemma keeps_blankStrings (u : Unicode) (code : Marked) : Keeps code (blankStrings u code) := by
  refine keeps_sub (fun before after m hfirst hne => ?_) code
  obtain ⟨-, hflat, hgroup⟩ := first_spec within_string hfirst
  unfold blankString
  split_ifs
  · exact Keeps.refl m.whole
  · refine keeps_write hflat hne fun c hc => ?_
    rw [List.append_assoc] at hc
    rcases List.mem_append.mp hc with hc | hc
    · exact Or.inl (((hgroup 1).map val).subset hc)
    · refine Or.inr ?_
      rcases List.mem_cons.mp hc with rfl | hc
      · decide
      · rcases List.mem_append.mp hc with hc | hc
        · rw [List.eq_of_mem_replicate hc]
          decide
        · rw [List.mem_singleton.mp hc]
          decide

lemma keeps_strip (u : Unicode) (code : Marked) : Keeps code (strip u code) :=
  (((keeps_dropOpened code).trans (keeps_dropComments _)).trans (keeps_dropDirectives _)).trans
    (keeps_blankStrings u _)

lemma isBreak_id (n : ℕ) : ∀ c ∈ "id_".toList ++ (toString n).toList, isBreak c = false := by
  intro c hc
  rcases List.mem_append.mp hc with hc | hc
  · have hid : ∀ c ∈ "id_".toList, 32 ≤ c.toNat ∧ c.toNat < 128 := by simp
    exact isBreak_of_printable (hid c hc)
  · rw [Nat.toString_eq_repr, Nat.toList_repr] at hc
    have hdigit := Nat.isDigit_of_mem_toDigits (by decide) (by decide) hc
    have hrange : 48 ≤ c.toNat ∧ c.toNat ≤ 57 := by
      simpa [Char.isDigit, UInt32.le_iff_toNat_le] using hdigit
    exact isBreak_of_printable (by omega)

/-- The names that were given out have no line ends. -/
def PlainNames (names : Names) : Prop := ∀ p ∈ names, ∀ c ∈ p.2, isBreak c = false

lemma plainNames_setdefault {names : Names} (h : PlainNames names) (key : List Char)
    {name : List Char} (hname : ∀ c ∈ name, isBreak c = false) :
    PlainNames (setdefault names key name).1 ∧
      ∀ c ∈ (setdefault names key name).2, isBreak c = false := by
  unfold setdefault
  cases hlookup : names.lookup key with
  | some old =>
    obtain ⟨front, back, heq, -⟩ := List.lookup_eq_some_iff.mp hlookup
    exact ⟨h, h (key, old) (by rw [heq]; simp)⟩
  | none =>
    refine ⟨fun p hp => ?_, hname⟩
    rcases List.mem_append.mp hp with hp | hp
    · exact h p hp
    · rw [List.mem_singleton.mp hp]
      exact hname

/-- **`scrub` keeps lines.** -/
theorem keeps_scrubbed (u : Unicode) (code : Marked) : Keeps code (scrubbed u code) := by
  refine (keeps_strip u code).trans (keeps_subState (I := PlainNames) ?_ (by simp [PlainNames]) _)
  intro names before after m hnames hfirst hne
  have hflat := (first_spec (within_name u) hfirst).2.1
  obtain ⟨hnext, hname⟩ :=
    plainNames_setdefault hnames (erase m.whole) (isBreak_id (names.length + 1))
  exact ⟨hnext, keeps_write hflat hne fun c hc => Or.inr (hname c hc)⟩

lemma isBreak_syllables (k : Fin SYLLABLES.length) : ∀ c ∈ SYLLABLES.get k, isBreak c = false := by
  have hall : ∀ s ∈ SYLLABLES, ∀ c ∈ s, 32 ≤ c.toNat ∧ c.toNat < 128 := by simp [SYLLABLES]
  exact fun c hc => isBreak_of_printable (hall _ (List.get_mem SYLLABLES k) c hc)

lemma neutralName_spec {u : Unicode} {choice : ℕ → Fin SYLLABLES.length} {tries : ℕ} {s s' : Naming}
    {name : List Char} (h : neutralName u choice tries s = some (s', name)) :
    s'.names = s.names ∧ ∀ c ∈ name, isBreak c = false := by
  induction tries generalizing s with
  | zero => cases h
  | succ tries ih =>
    unfold neutralName at h
    simp only at h
    split_ifs at h
    · cases h
      refine ⟨rfl, fun c hc => ?_⟩
      rcases List.mem_append.mp hc with hc | hc
      · rcases List.mem_append.mp hc with hc | hc <;> exact isBreak_syllables _ c hc
      · exact isBreak_syllables _ c hc
    · exact ih (s := { s with drawn := s.drawn + 3 }) h

/-- **So does `prompt_code`.** -/
theorem keeps_promptText {u : Unicode} {choice : ℕ → Fin SYLLABLES.length} {tries : ℕ}
    {code out : Marked} (h : promptText u choice tries code = some out) : Keeps code out := by
  have hkeeps : Keeps code ((NAME_WITH_LABEL u).subState (renameNeutral u choice tries)
      (some ⟨0, [], []⟩) (strip u code)).2 := by
    refine (keeps_strip u code).trans (keeps_subState
      (I := fun s => ∀ n : Naming, s = some n → PlainNames n.names) ?_ ?_ _)
    · intro s before after m hs hfirst hne
      have hflat := (first_spec (within_name u) hfirst).2.1
      unfold renameNeutral
      cases hname : s.bind (neutralName u choice tries) with
      | none => exact ⟨fun n hn => (by cases hn), keeps_nil hflat⟩
      | some p =>
        obtain ⟨n', fresh⟩ := p
        obtain ⟨n, rfl, hn⟩ := Option.bind_eq_some_iff.mp hname
        obtain ⟨hnames, hfresh⟩ := neutralName_spec hn
        have hplain : PlainNames n'.names := by
          rw [hnames]
          exact hs n rfl
        obtain ⟨hnext, hbreak⟩ := plainNames_setdefault hplain (erase m.whole) hfresh
        refine ⟨fun n'' hn'' => ?_, keeps_write hflat hne fun c hc => Or.inr (hbreak c hc)⟩
        cases hn''
        exact hnext
    · intro n hn
      cases hn
      simp [PlainNames]
  unfold promptText at h
  obtain ⟨s, -, rfl⟩ := Option.map_eq_some_iff.mp h
  exact hkeeps

/-! ### The lines of the source file -/

/-- The lines of a source file, marked with their numbers. -/
def markedLines (text : List Char) : List Marked := markFrom 1 (splitlinesKeep text)

/-- There are no line ends but newlines. -/
def NewlinesOnly (text : List Char) : Prop := ∀ c ∈ text, isBreak c = true → c = '\n'

lemma slice_markedLines (text : List Char) (i j : ℕ) :
    slice (markedLines text) i j = markFrom (1 + i) (slice (splitlinesKeep text) i j) := by
  unfold slice markedLines
  rw [take_markFrom, drop_markFrom]

lemma map_erase_slice (text : List Char) (i j : ℕ) :
    (slice (markedLines text) i j).map erase = slice (splitlinesKeep text) i j := by
  rw [slice_markedLines, map_erase_markFrom]

lemma newlinesOnly_flatten_slice {text : List Char} (h : NewlinesOnly text) (i j : ℕ) :
    NewlinesOnly (slice (splitlinesKeep text) i j).flatten := by
  intro c hc
  refine h c ?_
  rw [← flatten_splitlinesKeep text]
  obtain ⟨line, hline, hc⟩ := List.mem_flatten.mp hc
  exact List.mem_flatten.mpr ⟨line, List.mem_of_mem_take (List.mem_of_mem_drop hline), hc⟩

lemma dropBreak_eq_filter {text line : List Char} (h : NewlinesOnly text)
    (hline : line ∈ splitlinesKeep text) : line.filter (· ≠ '\n') = dropBreak line := by
  have hsub : ∀ c ∈ line, isBreak c = true → c = '\n' := by
    intro c hc
    refine h c ?_
    rw [← flatten_splitlinesKeep text]
    exact List.mem_flatten.mpr ⟨line, hline, hc⟩
  obtain ⟨i, hi⟩ := List.getElem?_of_mem hline
  have hshape := (shaped_splitlinesKeep h).drop i
  obtain ⟨rest, hrest⟩ : ∃ rest, (splitlinesKeep text).drop i = line :: rest := by
    obtain ⟨hlt, hget⟩ := List.getElem?_eq_some_iff.mp hi
    exact ⟨_, by rw [List.drop_eq_getElem_cons hlt, hget]⟩
  rw [hrest] at hshape
  obtain ⟨w, hw, hwline⟩ := hshape.head
  have hwsub : ∀ c ∈ w, c ∈ line := by
    intro c hc
    rcases hwline with rfl | ⟨rfl, -⟩
    · exact List.mem_append_left _ hc
    · exact hc
  have hbreak : ∀ c ∈ w, isBreak c = false := by
    intro c hc
    by_contra hb
    exact hw ((hsub c (hwsub c hc) (by simpa using hb)) ▸ hc)
  have hfilter : w.filter (· ≠ '\n') = w :=
    List.filter_eq_self.mpr fun c hc => by simpa using fun heq : c = '\n' => hw (heq ▸ hc)
  rcases hwline with rfl | ⟨rfl, -⟩
  · rw [List.filter_append, hfilter, dropBreak_line hbreak]
    simp
  · rw [hfilter, dropBreak_eq hbreak]

/-- **In the lines from one to another, the marks tell the lines of the file.** -/
theorem ofLine_slice {text : List Char} (h : NewlinesOnly text) {i j l : ℕ} (hi : i < l) (hj : l ≤ j)
    (hl : l ≤ (splitlines text).length) :
    (splitlines text)[l - 1]? = some (ofLine l (slice (markedLines text) i j).flatten) := by
  have hlen : (splitlines text).length = (splitlinesKeep text).length := List.length_map _
  have hget : (splitlinesKeep text)[l - 1]? = some ((splitlinesKeep text).get ⟨l - 1, by omega⟩) :=
    List.getElem?_eq_getElem _
  have hslice : (slice (splitlinesKeep text) i j)[l - 1 - i]? =
      some ((splitlinesKeep text).get ⟨l - 1, by omega⟩) := by
    unfold slice
    rw [List.getElem?_drop, List.getElem?_take_of_lt (by omega), show i + (l - 1 - i) = l - 1 by omega]
    exact hget
  have hmark := ofLine_markFrom (s := 1 + i) (((shaped_splitlinesKeep h).take j).drop i) hslice
  rw [slice_markedLines, show l = 1 + i + (l - 1 - i) by omega]
  unfold slice at hmark ⊢
  rw [hmark, show 1 + i + (l - 1 - i) - 1 = l - 1 by omega,
    dropBreak_eq_filter h (List.get_mem _ _)]
  unfold splitlines
  rw [List.getElem?_map, hget]
  rfl

/-! ### The row of the flagged line -/

/-- Blanks and tabulators only. -/
def Blank (text : List Char) : Prop := ∀ c ∈ text, isBlank c = true

lemma Keeps.newlinesOnly {code out : Marked} (h : Keeps code out) (hcode : NewlinesOnly (erase code)) :
    NewlinesOnly (erase out) := by
  intro c hc hb
  rcases h.chars c hc with hc | hc
  · exact hcode c hc hb
  · rw [hb] at hc
    cases hc

lemma lookup_rows (code : List Char) (first i : ℕ) :
    (rows code first).lookup (first + i) = (splitlines code)[i]? := by
  have hfrom : ∀ (lines : List (List Char)) (k : ℕ),
      ((lines.zipIdx k).map fun line => (first + line.2, line.1)).lookup (first + (k + i)) = lines[i]? := by
    intro lines
    induction lines generalizing i with
    | nil => exact fun k => rfl
    | cons line rest ih =>
      intro k
      rw [List.zipIdx_cons, List.map_cons, List.lookup_cons]
      cases i with
      | zero => simp
      | succ i =>
        have hne : (first + (k + (i + 1)) == first + k) = false := by simp
        rw [hne, show k + (i + 1) = k + 1 + i by omega, ih i (k + 1)]
        simp
  have hrows := hfrom (splitlines code) 0
  rwa [Nat.zero_add] at hrows

/-- **A line of a scrubbed text is a row of it**, under the number of the line. -/
theorem ofLine_row {T : ℕ → ℕ} {n i : ℕ} {out : Marked} (h : Lined T n out)
    (hnl : NewlinesOnly (erase out)) (hT : ∀ k, T k = T (n + i) → k = n + i) (first : ℕ)
    (hne : ¬ Blank (ofLine (T (n + i)) out)) :
    (rows (erase out) first).lookup (first + i) = some (ofLine (T (n + i)) out) := by
  have hline := ofLine_eq h fun k _ => hT k
  have hrow := getElem?_splitlines hnl (i := i) (by
    intro hempty
    rw [hline, hempty] at hne
    exact hne (by simp [Blank]))
  rw [hline, lookup_rows, hrow]

lemma row_of_lined {first l : ℕ} {out : Marked} (h : Lined (fun k => first + k) 0 out)
    (hnl : NewlinesOnly (erase out)) (hl : first ≤ l) (hne : ¬ Blank (ofLine l out)) :
    (rows (erase out) first).lookup l = some (ofLine l out) := by
  obtain ⟨i, rfl⟩ : ∃ i, l = first + i := ⟨l - first, (Nat.add_sub_cancel' hl).symm⟩
  have hrow := ofLine_row (i := i) h hnl (fun k hk => Nat.add_left_cancel hk) first
  simp only [Nat.zero_add] at hrow
  exact hrow hne

lemma capped_eq {code : List Char} (h : (capped code).length ≤ CONTEXT_CHAR_CAP) : capped code = code := by
  unfold capped at h ⊢
  split_ifs at h ⊢ with hlong
  · simp only [List.length_append, List.length_take, List.length_map] at h
    have hnote : 0 < "\n/* [truncated] */\n".toList.length := by decide
    omega
  · rfl

lemma scrub_ok {u : Unicode} {code out : List Char} (h : scrub u code = .ok out) :
    scrubbed u code = out := by
  unfold scrub at h
  split at h
  · cases h
  · exact Except.ok.inj h

variable {u : Unicode} {text : List Char} {func : Function} {l : ℕ}

/-- What `scrub` leaves of the context of `build_items.py`, marked. -/
def contextLeft (u : Unicode) (text : List Char) (func : Function) : Marked :=
  scrubbed u (contextLines (markedLines text) func)

lemma erase_contextLines (text : List Char) (func : Function) :
    erase (contextLines (markedLines text) func) = contextLines (splitlinesKeep text) func := by
  unfold contextLines
  rw [erase, List.map_flatten, map_erase_slice]

lemma erase_contextLeft
    (huncut : (codeContext (splitlinesKeep text) func).1.length ≤ CONTEXT_CHAR_CAP) {out : List Char}
    (hout : scrub u (codeContext (splitlinesKeep text) func).1 = .ok out) :
    erase (contextLeft u text func) = out := by
  have hcontext : (codeContext (splitlinesKeep text) func).1 =
      contextLines (splitlinesKeep text) func := capped_eq huncut
  rw [hcontext] at hout
  unfold contextLeft
  rw [erase_scrubbed, erase_contextLines, scrub_ok hout]

lemma contextStart_le (hfunc : func ∈ functionSpans u text) :
    1 ≤ contextStart func ∧ contextStart func ≤ func.start := by
  obtain ⟨hstart, -, -⟩ := functionSpans_lies u text hfunc
  unfold contextStart
  omega

lemma lined_contextLines (hnl : NewlinesOnly text) (func : Function) :
    Lined (fun k => contextStart func + k) 0 (contextLines (markedLines text) func) := by
  have hstart : 1 ≤ contextStart func := le_max_left _ _
  unfold contextLines
  rw [slice_markedLines]
  refine lined_markFrom (((shaped_splitlinesKeep hnl).take _).drop _) fun k _ => ?_
  show contextStart func + (0 + k) = _
  omega

lemma newlinesOnly_contextLines (hnl : NewlinesOnly text) (func : Function) :
    NewlinesOnly (erase (contextLines (markedLines text) func)) := by
  rw [erase_contextLines]
  exact newlinesOnly_flatten_slice hnl _ _

/-- **The row of the flagged line in the context of `build_items.py`.** -/
theorem context_row (hnl : NewlinesOnly text) (hfunc : func ∈ functionSpans u text)
    (hl : func.start ≤ l ∧ l ≤ func.end_) (hne : ¬ Blank (ofLine l (contextLeft u text func))) :
    (rows (erase (contextLeft u text func)) (contextStart func)).lookup l =
      some (ofLine l (contextLeft u text func)) := by
  obtain ⟨hfirst, hle⟩ := contextStart_le hfunc
  have hkeeps : Keeps (contextLines (markedLines text) func) (contextLeft u text func) :=
    keeps_scrubbed u _
  have hbreaks : NewlinesOnly (erase (contextLeft u text func)) :=
    Keeps.newlinesOnly hkeeps (newlinesOnly_contextLines hnl func)
  exact row_of_lined (hkeeps.lined _ _ (lined_contextLines hnl func)) hbreaks (hle.trans hl.1) hne

lemma firstLabelled_le (hfunc : func ∈ functionSpans u text)
    (hlabel : (julietLabel u func.name).isSome = true) :
    1 ≤ firstLabelled u (functionSpans u text) ∧
      firstLabelled u (functionSpans u text) ≤ func.start := by
  have hmem : func.start ∈ ((functionSpans u text).filter fun s => (julietLabel u s.name).isSome).map
      Function.start := List.mem_map.mpr ⟨func, List.mem_filter.mpr ⟨hfunc, hlabel⟩, rfl⟩
  obtain ⟨a, ha⟩ : ∃ a, (((functionSpans u text).filter fun s => (julietLabel u s.name).isSome).map
      Function.start).min? = some a := by
    rw [← Option.isSome_iff_exists]
    exact List.isSome_min?_of_mem hmem
  obtain ⟨hmin, hle⟩ := List.min?_eq_some_iff.mp ha
  obtain ⟨f, hf, rfl⟩ := List.mem_map.mp hmin
  unfold firstLabelled
  rw [ha]
  exact ⟨(functionSpans_lies u text (List.mem_of_mem_filter hf)).1, hle _ hmem⟩

lemma lined_slice (hnl : NewlinesOnly text) {T : ℕ → ℕ} {n i j : ℕ}
    (hT : ∀ k, i + k < j → T (n + k) = 1 + i + k) :
    Lined T n (slice (markedLines text) i j).flatten := by
  rw [slice_markedLines]
  refine lined_markFrom (((shaped_splitlinesKeep hnl).take j).drop i) fun k hk => ?_
  unfold slice at hk
  rw [List.length_drop, List.length_take] at hk
  exact hT k (by omega)

lemma ofLine_preamble (hnl : NewlinesOnly text) {p : ℕ} (hl : p < l) :
    ofLine l (slice (markedLines text) 0 p).flatten = [] := by
  refine ofLine_eq_nil (n := 0) (lined_slice (T := fun k => if k < p then 1 + k else 0) hnl ?_) ?_
  · intro k hk
    simp only [Nat.zero_add] at hk ⊢
    rw [if_pos hk]
  · intro k _
    show (if k < p then 1 + k else 0) ≠ l
    split_ifs <;> omega

lemma height_preamble (hnl : NewlinesOnly text) {p : ℕ} (hp : p < (splitlines text).length) :
    height (slice (markedLines text) 0 p).flatten = p := by
  have hlines : (splitlines text).length = (splitlinesKeep text).length := List.length_map _
  rw [slice_markedLines]
  exact height_markFrom (shaped_splitlinesKeep hnl) (by omega)

/-- The marks of the text that `build_v2.py` makes: those of a preamble, the separator, and those of a
function from its first line on. -/
def v2Mark (p start k : ℕ) : ℕ := if k < p then 1 + k else if k = p then 0 else start + (k - p - 1)

/-- The text of a preamble and the lines of a function, marked. -/
def v2Lines (text : List Char) (p : ℕ) (func : Function) : Marked :=
  joined (slice (markedLines text) 0 p) (bodyOf (markedLines text) func)

lemma lined_v2Lines (hnl : NewlinesOnly text) {p : ℕ} (hp : p < (splitlines text).length)
    (hstart : 1 ≤ func.start) : Lined (v2Mark p func.start) 0 (v2Lines text p func) := by
  unfold v2Lines joined bodyOf
  rw [lined_append, height_preamble hnl hp, Nat.zero_add, lined_cons]
  refine ⟨lined_slice hnl fun k hk => ?_, ?_, lined_slice hnl fun k _ => ?_⟩
  · unfold v2Mark
    rw [if_pos (by omega)]
    omega
  · show 0 = v2Mark p func.start p
    simp [v2Mark]
  · show v2Mark p func.start (p + 1 + k) = _
    unfold v2Mark
    rw [if_neg (by omega), if_neg (by omega)]
    omega

lemma ofLine_v2Lines (hnl : NewlinesOnly text) {p : ℕ} (hp : p < func.start)
    (hl : func.start ≤ l ∧ l ≤ func.end_) (hend : func.end_ ≤ (splitlines text).length) :
    (splitlines text)[l - 1]? = some (ofLine l (v2Lines text p func)) := by
  have hsep : ofLine l (Cell.plain '\n' :: (bodyOf (markedLines text) func).flatten) =
      ofLine l (bodyOf (markedLines text) func).flatten := by
    rw [ofLine_cons, if_neg]
    exact fun h => h.2 rfl
  unfold v2Lines joined
  rw [ofLine_append, ofLine_preamble hnl (by omega), List.nil_append, hsep]
  exact ofLine_slice hnl (by omega) hl.2 (hl.2.trans hend)

lemma newlinesOnly_v2Lines (hnl : NewlinesOnly text) (p : ℕ) (func : Function) :
    NewlinesOnly (erase (v2Lines text p func)) := by
  have hslice : ∀ i j, NewlinesOnly (erase (slice (markedLines text) i j).flatten) := by
    intro i j
    rw [erase, List.map_flatten, map_erase_slice]
    exact newlinesOnly_flatten_slice hnl i j
  intro c hc hb
  unfold v2Lines joined at hc
  rw [erase, List.map_append, List.map_cons, val_plain] at hc
  rcases List.mem_append.mp hc with hc | hc
  · exact hslice _ _ c hc hb
  · rcases List.mem_cons.mp hc with hc | hc
    · exact hc
    · exact hslice _ _ c hc hb

lemma v2Mark_line {p start : ℕ} (hp : p < start) (hl : start ≤ l) :
    v2Mark p start (p + 1 + (l - start)) = l ∧ ∀ k, v2Mark p start k = l → k = p + 1 + (l - start) := by
  unfold v2Mark
  constructor
  · rw [if_neg (by omega), if_neg (by omega)]
    omega
  · intro k hk
    split_ifs at hk <;> omega

/-- What `scrub` leaves of what `prompt_code` makes of a text, marked. -/
def trimmedLeft (u : Unicode) (whole : Marked) : Marked := scrubbed u (whole.drop (lead whole).length)

/-- What `prompt_code` leaves of the text has the marks of its lines, behind those it trims. -/
lemma lined_rest (hnl : NewlinesOnly text) {p : ℕ} (hp : p < func.start)
    (hlen : func.start ≤ (splitlines text).length) {choice : ℕ → Fin SYLLABLES.length} {tries : ℕ}
    {whole : Marked} (hwhole : promptText u choice tries (v2Lines text p func) = some whole) :
    Lined (v2Mark p func.start) (newlines (lead whole)).length (whole.drop (lead whole).length) ∧
      NewlinesOnly (erase (whole.drop (lead whole).length)) := by
  have hkeeps := keeps_promptText hwhole
  constructor
  · have hlined := hkeeps.lined _ _ (lined_v2Lines hnl (by omega : p < _) (by omega))
    rw [(lead_spec whole).1, lined_append, Nat.zero_add] at hlined
    exact hlined.2
  · refine fun c hc => Keeps.newlinesOnly hkeeps (newlinesOnly_v2Lines hnl p func) c ?_
    exact ((List.drop_sublist _ _).map val).subset hc

/-- **The row of the flagged line in the context of `build_v2.py`.** -/
theorem v2_row (hnl : NewlinesOnly text) {p : ℕ} (hp : p < func.start)
    (hlen : func.start ≤ (splitlines text).length) (hl : func.start ≤ l)
    {choice : ℕ → Fin SYLLABLES.length} {tries : ℕ} {whole : Marked}
    (hwhole : promptText u choice tries (v2Lines text p func) = some whole)
    (hne : ¬ Blank (ofLine l (trimmedLeft u whole))) :
    ∃ n : ℕ, (n : ℤ) = (p : ℤ) + 1 - (newlines (lead whole)).length + l - func.start + 1 ∧
      (rows (erase (trimmedLeft u whole)) 1).lookup n = some (ofLine l (trimmedLeft u whole)) := by
  obtain ⟨hlined, hplain⟩ := lined_rest hnl hp hlen hwhole
  have hrest : Keeps (whole.drop (lead whole).length) (trimmedLeft u whole) := keeps_scrubbed u _
  have hbreaks : NewlinesOnly (erase (trimmedLeft u whole)) := Keeps.newlinesOnly hrest hplain
  have hleft := hrest.lined _ _ hlined
  obtain ⟨hmark, huniq⟩ := v2Mark_line hp hl
  generalize (newlines (lead whole)).length = trimmed at hleft ⊢
  generalize trimmedLeft u whole = left at *
  by_cases ht : trimmed ≤ p + 1 + (l - func.start)
  · obtain ⟨i, hi⟩ := Nat.le.dest ht
    rw [← hi] at hmark huniq
    have hrow := ofLine_row (i := i) hleft hbreaks (by rwa [hmark]) 1
    rw [hmark] at hrow
    exact ⟨1 + i, by omega, hrow hne⟩
  · -- a line that was trimmed has nothing left
    rw [ofLine_eq_nil hleft fun k hk hkl => ht (huniq k hkl ▸ hk)] at hne
    exact absurd (by simp [Blank]) hne

lemma erase_v2Lines (u : Unicode) (text : List Char) (func : Function) :
    erase (v2Lines text (firstLabelled u (functionSpans u text) - 1) func) =
      joined (preambleOf u (functionSpans u text) (splitlinesKeep text))
        (bodyOf (splitlinesKeep text) func) := by
  unfold v2Lines joined preambleOf bodyOf
  rw [erase, List.map_append, List.map_cons, List.map_flatten, List.map_flatten, map_erase_slice,
    map_erase_slice]
  rfl

lemma erase_lead (code : Marked) : erase (lead code) = lead (erase code) := by
  have hfirst : LEAD.first [] (erase code) = (LEAD.first [] code).map (Match.map val) :=
    first_map remarks_val.val LEAD [] code
  unfold lead Re.matchStart
  rw [hfirst]
  cases LEAD.first [] code with
  | none => rfl
  | some m => rfl

lemma erase_trimmedLeft (u : Unicode) (whole : Marked) :
    erase (trimmedLeft u whole) = scrubbed u ((erase whole).drop (lead (erase whole)).length) := by
  unfold trimmedLeft
  rw [erase_scrubbed, ← erase_lead, List.length_map, erase, List.map_drop]

/-! ### Both paths -/

/-- A text `out` was made of marked lines, and `left` is that text with its marks: the lines `given` have
the flagged line `l` of the file as it is, and unless nothing but blanks is left of it, the row of `out`
with the number `n` is what is left. -/
structure Aligned (text : List Char) (l : ℕ) (given left : Marked) (out : List Char) (first : ℕ) (n : ℤ) :
    Prop where
  line : (splitlines text)[l - 1]? = some (ofLine l given)
  marks : erase left = out
  row : ¬ Blank (ofLine l left) →
    ∃ k : ℕ, (k : ℤ) = n ∧ (rows out first).lookup k = some (ofLine l left)

/-- **The flagged line stays aligned.** For every finding in a function of a file whose only line ends are
newlines: where the context is not cut and `scrub` does not raise, the row with the number of the item is
what the steps leave of the flagged line, on the path of `build_items.py` and on that of `build_v2.py`.
What `prompt_code` trims of the line is blank. -/
theorem flagged_row_aligned (u : Unicode) {text : List Char} (hnl : NewlinesOnly text) {func : Function}
    (hfunc : func ∈ functionSpans u text) {l : ℕ} (hl : func.start ≤ l ∧ l ≤ func.end_) :
    (∀ code first out, codeContext (splitlinesKeep text) func = (code, first) →
      code.length ≤ CONTEXT_CHAR_CAP → scrub u code = .ok out →
      Aligned text l (contextLines (markedLines text) func)
        (scrubbed u (contextLines (markedLines text) func)) out first l) ∧
    (∀ choice tries code n out, (julietLabel u func.name).isSome = true →
      v2Context u choice tries (functionSpans u text) (splitlinesKeep text) func l = some (code, n) →
      code.length ≤ CONTEXT_CHAR_CAP → scrub u code = .ok out →
      ∃ whole : Marked,
        promptText u choice tries (joined (preambleOf u (functionSpans u text) (markedLines text))
          (bodyOf (markedLines text) func)) = some whole ∧
        Blank (ofLine l (lead whole)) ∧
        Aligned text l (joined (preambleOf u (functionSpans u text) (markedLines text))
          (bodyOf (markedLines text) func))
          (scrubbed u (whole.drop (lead whole).length)) out 1 n) := by
  obtain ⟨hstart, -, hend⟩ := functionSpans_lies u text hfunc
  constructor
  · -- the path of `build_items.py`
    rintro code first out hcontext huncut hout
    obtain ⟨rfl, rfl⟩ := Prod.mk.inj hcontext
    have hmarks := erase_contextLeft huncut hout
    refine ⟨?_, hmarks, fun hne => ⟨l, rfl, ?_⟩⟩
    · obtain ⟨-, hle⟩ := contextStart_le hfunc
      exact ofLine_slice hnl (by omega) hl.2 (by omega)
    · rw [← hmarks]
      exact context_row hnl hfunc hl hne
  · -- the path of `build_v2.py`, where the text before the cut is marked
    rintro choice tries code n out hlabel hcontext huncut hout
    obtain ⟨hfirst, hle⟩ := firstLabelled_le hfunc hlabel
    obtain ⟨⟨code', trimmed⟩, hprompt, hpair⟩ := Option.map_eq_some_iff.mp hcontext
    obtain ⟨rfl, rfl⟩ := Prod.mk.inj hpair
    obtain ⟨plain, hplain, hpair⟩ := Option.map_eq_some_iff.mp hprompt
    obtain ⟨rfl, rfl⟩ := Prod.mk.inj hpair
    rw [capped_eq huncut] at hout
    rw [← erase_v2Lines, ← erase_promptText] at hplain
    obtain ⟨whole, hwhole, rfl⟩ := Option.map_eq_some_iff.mp hplain
    have hmarks : erase (trimmedLeft u whole) = out := (erase_trimmedLeft u whole).trans (scrub_ok hout)
    refine ⟨whole, hwhole, ?_, ?_, hmarks, fun hne => ?_⟩
    · -- what is trimmed of the line is blank
      intro c hc
      obtain ⟨d, hd, rfl⟩ := List.mem_map.mp hc
      obtain ⟨hlead, hkept⟩ := List.mem_filter.mp hd
      rcases (lead_spec whole).2 d hlead with hblank | hnewline
      · exact hblank
      · simp [show d.1 = '\n' from hnewline] at hkept
    · exact ofLine_v2Lines hnl (by omega) hl (by omega)
    · obtain ⟨k, hk, hrow⟩ := v2_row hnl (by omega : _ < func.start) (by omega) hl.1 hwhole hne
      rw [hmarks] at hrow
      refine ⟨k, ?_, hrow⟩
      have hlen : (preambleOf u (functionSpans u text) (splitlinesKeep text)).length =
          firstLabelled u (functionSpans u text) - 1 := by
        have hlines : (splitlines text).length = (splitlinesKeep text).length := List.length_map _
        unfold preambleOf slice
        rw [List.drop_zero, List.length_take, min_eq_left (by omega)]
      rw [hk, hlen, ← erase_lead, ← erase_newlines, List.length_map]

/-- A file with a function that has a label. -/
def smallFile : List Char := "int a;\nvoid bad()\n\x7b\n  bad = 1; /* x */\n\x7d\n".toList

/-- In a small file the flagged line keeps its row on both paths, without its comment and with another
name. -/
theorem flagged_row_aligned_small :
    Aligned smallFile 4 (contextLines (markedLines smallFile) ⟨"bad".toList, 2, 5⟩)
      (scrubbed ascii (contextLines (markedLines smallFile) ⟨"bad".toList, 2, 5⟩))
      "int a;\nvoid id_1()\n\x7b\n  id_1 = 1; \n\x7d\n".toList 1 4 ∧
    ∃ whole : Marked, Aligned smallFile 4
      (joined (preambleOf ascii (functionSpans ascii smallFile) (markedLines smallFile))
        (bodyOf (markedLines smallFile) ⟨"bad".toList, 2, 5⟩))
      (scrubbed ascii (whole.drop (lead whole).length))
      "int a;\n\nvoid kalomi()\n\x7b\n  kalomi = 1; \n\x7d\n".toList 1 5 := by
  have hnl : NewlinesOnly smallFile := by
    have hall : smallFile.all (fun c => !isBreak c || c = '\n') = true := by decide +kernel
    intro c hc hb
    simpa [hb] using List.all_eq_true.mp hall c hc
  have hfunc : ⟨"bad".toList, 2, 5⟩ ∈ functionSpans ascii smallFile := by decide +kernel
  obtain ⟨hcontext, hv2⟩ := flagged_row_aligned ascii hnl hfunc (l := 4) (by decide)
  refine ⟨hcontext _ _ "int a;\nvoid id_1()\n\x7b\n  id_1 = 1; \n\x7d\n".toList rfl (by decide +kernel)
    (by decide +kernel), ?_⟩
  obtain ⟨whole, -, -, haligned⟩ := hv2 (fun k => ⟨k % 20, Nat.mod_lt k (by decide)⟩) 9
    "int a;\n\nvoid kalomi()\n\x7b\n  kalomi = 1; \n\x7d\n".toList 5
    "int a;\n\nvoid kalomi()\n\x7b\n  kalomi = 1; \n\x7d\n".toList (by decide +kernel)
    (by decide +kernel) (by decide +kernel) (by decide +kernel)
  exact ⟨whole, haligned⟩

end CSecureBuild.Harness.LineAlign
