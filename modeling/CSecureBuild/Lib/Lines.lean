import CSecureBuild.PyLib.Regex
import CSecureBuild.PyLib.Text

/-!
Following the lines of a text through rewriting. Each character is marked with a number, and the marks
are `Lined` if a character's mark depends on the number of newlines before it only. A rewriting that
`Keeps` a text leaves the marks so and the newlines as they are; `keeps_sub` says that `sub` does if
what it puts for each match does. Then the characters with a line's mark are a line of the new text
again (`ofLine_eq`), and a row of it (`getElem?_splitlines`).
-/

namespace CSecureBuild.Lib.Lines

open CSecureBuild.PyLib.Cells CSecureBuild.PyLib.Regex CSecureBuild.PyLib.Text

/-- A text with numbers as marks. -/
abbrev Marked := List (Char × ℕ)

variable {T : ℕ → ℕ} {n : ℕ} {text more m o : Marked}

/-! ### Marks by lines -/

/-- The marks of a text, from its `n`-th line on, are those of its lines. -/
def Lined (T : ℕ → ℕ) : ℕ → Marked → Prop
  | _, [] => True
  | n, c :: rest => c.2 = T n ∧ Lined T (if c.1 = '\n' then n + 1 else n) rest

/-- The number of newlines in a text. -/
def height (text : Marked) : ℕ := (newlines text).length

@[simp] lemma height_nil : height [] = 0 := rfl

lemma height_cons (c : Char × ℕ) (rest : Marked) :
    height (c :: rest) = if c.1 = '\n' then height rest + 1 else height rest := by
  unfold height newlines
  by_cases h : c.1 = '\n' <;> simp [h]

@[simp] lemma height_append (text more : Marked) : height (text ++ more) = height text + height more := by
  simp [height]

lemma height_eq_zero (h : ∀ c ∈ text, c.1 ≠ '\n') : height text = 0 := by
  unfold height
  rw [newlines_eq_nil h]
  rfl

lemma lined_nil : Lined T n [] := trivial

lemma lined_cons {c : Char × ℕ} :
    Lined T n (c :: text) ↔ c.2 = T n ∧ Lined T (if c.1 = '\n' then n + 1 else n) text := Iff.rfl

lemma lined_append : Lined T n (text ++ more) ↔ Lined T n text ∧ Lined T (n + height text) more := by
  induction text generalizing n with
  | nil => simp [Lined]
  | cons c rest ih =>
    rw [List.cons_append, Lined, Lined, ih, height_cons, and_assoc]
    split_ifs
    · rw [Nat.add_right_comm, Nat.add_assoc n]
    · rfl

lemma lined_flat (h : ∀ c ∈ text, c.1 ≠ '\n') : Lined T n text ↔ ∀ c ∈ text, c.2 = T n := by
  induction text with
  | nil => simp [Lined]
  | cons c rest ih =>
    rw [Lined, if_neg (h c List.mem_cons_self), ih fun x hx => h x (List.mem_cons_of_mem c hx),
      List.forall_mem_cons]

/-! ### Rewriting that keeps lines -/

/-- A text in the place of another: the newlines are there, the marks stay those of the lines, and no
other line ends come in. -/
structure Keeps (m o : Marked) : Prop where
  lined : ∀ T n, Lined T n m → Lined T n o
  height : height o = height m
  chars : ∀ c ∈ erase o, c ∈ erase m ∨ isBreak c = false

lemma Keeps.refl (m : Marked) : Keeps m m := ⟨fun _ _ h => h, rfl, fun _ h => Or.inl h⟩

lemma Keeps.trans {p : Marked} (h₁ : Keeps m o) (h₂ : Keeps o p) : Keeps m p :=
  ⟨fun T n h => h₂.lined T n (h₁.lined T n h), h₂.height.trans h₁.height,
    fun c hc => (h₂.chars c hc).elim (h₁.chars c) Or.inr⟩

lemma Keeps.append {m' o' : Marked} (h : Keeps m o) (h' : Keeps m' o') : Keeps (m ++ m') (o ++ o') := by
  refine ⟨fun T n hm => ?_, by rw [height_append, height_append, h.height, h'.height], fun c hc => ?_⟩
  · rw [lined_append] at hm ⊢
    rw [h.height]
    exact ⟨h.lined T n hm.1, h'.lined T _ hm.2⟩
  · simp only [erase, List.map_append, List.mem_append] at hc ⊢
    rcases hc with hc | hc
    · exact (h.chars c hc).imp Or.inl id
    · exact (h'.chars c hc).imp Or.inr id

lemma keeps_newlines (m : Marked) : Keeps m (newlines m) := by
  induction m with
  | nil => exact Keeps.refl []
  | cons c rest ih =>
    by_cases hc : c.1 = '\n'
    · have heq : newlines (c :: rest) = [c] ++ newlines rest := by simp [newlines, hc]
      rw [heq]
      exact (Keeps.refl [c]).append ih
    · have heq : newlines (c :: rest) = newlines rest := by simp [newlines, hc]
      rw [heq]
      refine ⟨fun T n h => ih.lined T n ?_, by rw [ih.height, height_cons, if_neg hc],
        fun x hx => (ih.chars x hx).imp (List.mem_cons_of_mem c.1) id⟩
      rw [Lined, if_neg hc] at h
      exact h.2

lemma keeps_nil (h : ∀ c ∈ m, c.1 ≠ '\n') : Keeps m [] :=
  ⟨fun _ _ _ => trivial, (height_eq_zero h).symm, fun _ hc => absurd hc List.not_mem_nil⟩

lemma keeps_write {w : List Char} (hm : ∀ c ∈ m, c.1 ≠ '\n') (hne : m ≠ [])
    (hw : ∀ c ∈ w, c ∈ erase m ∨ isBreak c = false) : Keeps m (write m w) := by
  have herase : erase (write m w) = w := erase_write m w
  obtain ⟨c, rest, rfl⟩ := List.exists_cons_of_ne_nil hne
  have hmem : ∀ x ∈ write (c :: rest) w, x.1 ∈ w ∧ x.2 = c.2 := by
    intro x hx
    obtain ⟨d, hd, rfl⟩ := List.mem_map.mp hx
    exact ⟨hd, rfl⟩
  have hflat : ∀ x ∈ write (c :: rest) w, x.1 ≠ '\n' := by
    intro x hx heq
    rcases hw x.1 (hmem x hx).1 with h | h
    · obtain ⟨d, hd, hdx⟩ := List.mem_map.mp h
      exact hm d hd (hdx.trans heq)
    · rw [heq] at h
      revert h
      decide
  refine ⟨fun T n h => ?_, by rw [height_eq_zero hflat, height_eq_zero hm], by rwa [herase]⟩
  rw [lined_flat hm] at h
  rw [lined_flat hflat]
  intro x hx
  rw [(hmem x hx).2]
  exact h c List.mem_cons_self

lemma keeps_flatMap {ps : List (Piece (Char × ℕ))} {f : Piece (Char × ℕ) → Marked}
    (h : ∀ p ∈ ps, Keeps p.text (f p)) : Keeps (ps.flatMap Piece.text) (ps.flatMap f) := by
  induction ps with
  | nil => exact Keeps.refl []
  | cons p ps ih =>
    rw [List.flatMap_cons, List.flatMap_cons]
    exact (h p List.mem_cons_self).append (ih fun q hq => h q (List.mem_cons_of_mem p hq))

/-- **`sub` keeps lines** if what it puts for each match does. -/
theorem keeps_sub {r : Re} {f : Match (Char × ℕ) → Marked}
    (h : ∀ before after m, r.first before after = some m → m.whole ≠ [] → Keeps m.whole (f m))
    (text : Marked) : Keeps text (r.sub f text) := by
  have hpieces : ∀ p ∈ r.pieces text, Keeps p.text (p.replaced f) := by
    intro p hp
    cases p with
    | keep c => exact Keeps.refl [c]
    | hit m =>
      obtain ⟨before, after, hfirst, hne⟩ := (cut_piecesFrom r [] text).first_of_hit hp
      exact h before after m hfirst hne
  have hkeeps := keeps_flatMap hpieces
  rw [flatten_pieces] at hkeeps
  exact hkeeps

/-- **So does `sub` with a state**, if the states that come up have what it needs. -/
theorem keeps_subState {σ : Type} {r : Re} {f : σ → Match (Char × ℕ) → σ × Marked} {I : σ → Prop}
    (h : ∀ s before after m, I s → r.first before after = some m → m.whole ≠ [] →
      I (f s m).1 ∧ Keeps m.whole (f s m).2) {s : σ} (hs : I s) (text : Marked) :
    Keeps text (r.subState f s text).2 := by
  have hall : ∀ ps : List (Piece (Char × ℕ)),
      (∀ m, .hit m ∈ ps → ∀ s, I s → I (f s m).1 ∧ Keeps m.whole (f s m).2) →
      ∀ s, I s → Keeps (ps.flatMap Piece.text) (rewrite f s ps).2 := by
    intro ps
    induction ps with
    | nil => exact fun _ s _ => Keeps.refl []
    | cons p ps ih =>
      intro hps s hs
      have ih := ih fun m hm => hps m (List.mem_cons_of_mem p hm)
      cases p with
      | keep c => exact (Keeps.refl [c]).append (ih s hs)
      | hit m =>
        obtain ⟨hnext, hkeeps⟩ := hps m List.mem_cons_self s hs
        exact hkeeps.append (ih (f s m).1 hnext)
  have hkeeps := hall (r.pieces text) (fun m hm s hs => by
    obtain ⟨before, after, hfirst, hne⟩ := (cut_piecesFrom r [] text).first_of_hit hm
    exact h s before after m hs hfirst hne) s hs
  rw [flatten_pieces] at hkeeps
  exact hkeeps

/-! ### Lines of a text -/

/-- The characters of a text with a mark, but no newline. -/
def ofLine (l : ℕ) (text : Marked) : List Char :=
  erase (text.filter fun c => c.2 = l && c.1 ≠ '\n')

/-- A line of a text, without its newline. -/
def lineAt : ℕ → List Char → List Char
  | _, [] => []
  | 0, c :: rest => if c = '\n' then [] else c :: lineAt 0 rest
  | n + 1, c :: rest => if c = '\n' then lineAt n rest else lineAt (n + 1) rest

lemma ofLine_cons (l : ℕ) (c : Char × ℕ) (rest : Marked) :
    ofLine l (c :: rest) = if c.2 = l ∧ c.1 ≠ '\n' then c.1 :: ofLine l rest else ofLine l rest := by
  unfold ofLine
  rw [List.filter_cons]
  by_cases h : c.2 = l ∧ c.1 ≠ '\n' <;> simp [h]

lemma ofLine_append (l : ℕ) (text more : Marked) :
    ofLine l (text ++ more) = ofLine l text ++ ofLine l more := by
  simp [ofLine]

/-- **The characters with a line's mark are the line**, if no other line has the mark. -/
theorem ofLine_eq {i : ℕ} (h : Lined T n text)
    (hT : ∀ k, k ≤ n + height text → T k = T (n + i) → k = n + i) :
    ofLine (T (n + i)) text = lineAt i (erase text) := by
  induction text generalizing n i with
  | nil => cases i <;> rfl
  | cons c rest ih =>
    obtain ⟨hc, hrest⟩ := h
    rw [height_cons] at hT
    rw [ofLine_cons, erase, List.map_cons, hc]
    by_cases hnl : c.1 = '\n'
    · rw [if_pos hnl] at hrest hT
      rw [if_neg (by simp [hnl])]
      cases i with
      | zero =>
        -- behind the newline there is nothing with the mark
        have hnone : ofLine (T (n + 0)) rest = [] := by
          unfold ofLine
          have hall : ∀ {k : ℕ} {t : Marked}, Lined T k t → n < k → k + height t ≤ n + (height rest + 1) →
              ∀ x ∈ t, x.2 ≠ T (n + 0) := by
            intro k t hk hlt hle
            induction t generalizing k with
            | nil => simp
            | cons x t iht =>
              rw [height_cons] at hle
              have hx : x.2 ≠ T (n + 0) := by
                intro heq
                have := hT k (by split_ifs at hle <;> omega) (hk.1.symm.trans heq)
                omega
              refine List.forall_mem_cons.mpr ⟨hx, ?_⟩
              refine iht hk.2 (by split_ifs <;> omega) (by split_ifs at hle ⊢ <;> omega)
          have hmark := hall hrest (Nat.lt_succ_self n) (by omega)
          rw [List.filter_eq_nil_iff.mpr]
          · rfl
          · intro x hx heq
            rw [Bool.and_eq_true, decide_eq_true_eq] at heq
            exact hmark x hx heq.1
        rw [hnone, lineAt, if_pos (by simpa using hnl)]
      | succ i =>
        have heq : n + (i + 1) = n + 1 + i := by omega
        rw [heq] at hT ⊢
        rw [ih hrest fun k hk hTk => hT k (by omega) hTk, lineAt, if_pos (by simpa using hnl)]
    · rw [if_neg hnl] at hrest hT
      have ih := ih hrest hT
      cases i with
      | zero =>
        rw [if_pos ⟨rfl, hnl⟩, ih, lineAt, if_neg (by simpa using hnl)]
        rfl
      | succ i =>
        have hne : T n ≠ T (n + (i + 1)) := by
          intro heq
          have := hT n (by omega) heq
          omega
        rw [if_neg (by simp [hne]), ih, lineAt, if_neg (by simpa using hnl)]

lemma ofLine_eq_nil {l : ℕ} (h : Lined T n text) (hT : ∀ k, n ≤ k → T k ≠ l) : ofLine l text = [] := by
  induction text generalizing n with
  | nil => rfl
  | cons c rest ih =>
    rw [ofLine_cons, h.1, if_neg (by simp [hT n le_rfl])]
    refine ih h.2 fun k hk => hT k ?_
    split_ifs at hk <;> omega

lemma lineAt_flat {line : List Char} (h : ∀ c ∈ line, c ≠ '\n') (i : ℕ) :
    lineAt i line = if i = 0 then line else [] := by
  induction line with
  | nil => cases i <;> rfl
  | cons c line ih =>
    have ih := ih fun x hx => h x (List.mem_cons_of_mem c hx)
    cases i with
    | zero => simp [lineAt, h c List.mem_cons_self, ih]
    | succ i => simp [lineAt, h c List.mem_cons_self, ih]

lemma lineAt_line {line : List Char} (h : ∀ c ∈ line, c ≠ '\n') (i : ℕ) (rest : List Char) :
    lineAt i (line ++ '\n' :: rest) = if i = 0 then line else lineAt (i - 1) rest := by
  induction line with
  | nil =>
    cases i with
    | zero => rfl
    | succ i => simp [lineAt]
  | cons c line ih =>
    have ih := ih fun x hx => h x (List.mem_cons_of_mem c hx)
    cases i with
    | zero => simp [lineAt, h c List.mem_cons_self, ih]
    | succ i => simp [lineAt, h c List.mem_cons_self, ih]

/-- **A line of a text is a row of it**, if the text has no line ends but newlines. -/
theorem getElem?_splitlines {text : List Char} (h : ∀ c ∈ text, isBreak c = true → c = '\n') {i : ℕ}
    (hne : lineAt i text ≠ []) : (splitlines text)[i]? = some (lineAt i text) := by
  induction hlen : text.length using Nat.strong_induction_on generalizing text i with
  | _ len ih =>
    -- the first line ends, or the text is its last line
    by_cases hnl : '\n' ∈ text
    · obtain ⟨line, rest, rfl, hmem⟩ := List.eq_append_cons_of_mem hnl
      have hl : ∀ c ∈ line, c ≠ '\n' := fun c hc heq => hmem (heq ▸ hc)
      have hbreak : ∀ c ∈ line, isBreak c = false := by
        intro c hc
        by_contra hb
        exact hl c hc (h c (List.mem_append_left _ hc) (by simpa using hb))
      rw [lineAt_line hl] at hne ⊢
      rw [splitlines_line hbreak]
      cases i with
      | zero => rfl
      | succ i =>
        rw [if_neg (by omega)] at hne ⊢
        simp only [Nat.add_sub_cancel, List.getElem?_cons_succ] at hne ⊢
        refine ih rest.length ?_ (fun c hc => h c ?_) hne rfl
        · simp only [List.length_append, List.length_cons] at hlen
          omega
        · exact List.mem_append_right _ (List.mem_cons_of_mem _ hc)
    · have hl : ∀ c ∈ text, c ≠ '\n' := fun c hc heq => hnl (heq ▸ hc)
      have hbreak : ∀ c ∈ text, isBreak c = false := by
        intro c hc
        by_contra hb
        exact hl c hc (h c hc (by simpa using hb))
      rw [lineAt_flat hl] at hne ⊢
      by_cases hi : i = 0
      · subst hi
        rw [if_pos rfl] at hne ⊢
        rw [splitlines_tail hbreak hne]
        rfl
      · rw [if_neg hi] at hne
        exact absurd rfl hne

/-! ### Marking lines -/

/-- Lines as `splitlines` gives them where a newline is the only line end: each has one, but the last
may have none. -/
def Shaped : List (List Char) → Prop
  | [] => True
  | [line] => ∃ w, '\n' ∉ w ∧ (line = w ∨ line = w ++ ['\n'])
  | line :: rest => (∃ w, '\n' ∉ w ∧ line = w ++ ['\n']) ∧ Shaped rest

/-- Lines, marked with their numbers from a first one on. -/
def markFrom : ℕ → List (List Char) → List Marked
  | _, [] => []
  | s, line :: rest => line.map (fun c => (c, s)) :: markFrom (s + 1) rest

variable {s : ℕ} {line : List Char} {lines : List (List Char)}

lemma Shaped.tail (h : Shaped (line :: lines)) : Shaped lines := by
  cases lines with
  | nil => trivial
  | cons next rest => exact h.2

lemma Shaped.head (h : Shaped (line :: lines)) :
    ∃ w, '\n' ∉ w ∧ (line = w ++ ['\n'] ∨ line = w ∧ lines = []) := by
  cases lines with
  | nil =>
    obtain ⟨w, hw, hline⟩ := h
    exact ⟨w, hw, hline.symm.imp id fun h => ⟨h, rfl⟩⟩
  | cons next rest =>
    obtain ⟨⟨w, hw, hline⟩, -⟩ := h
    exact ⟨w, hw, Or.inl hline⟩

lemma Shaped.drop (h : Shaped lines) (i : ℕ) : Shaped (lines.drop i) := by
  induction i generalizing lines with
  | zero => exact h
  | succ i ih =>
    cases lines with
    | nil => trivial
    | cons line rest => exact ih h.tail

lemma Shaped.take (h : Shaped lines) (i : ℕ) : Shaped (lines.take i) := by
  induction i generalizing lines with
  | zero => trivial
  | succ i ih =>
    cases lines with
    | nil => trivial
    | cons line rest =>
      have htail := ih h.tail
      cases rest with
      | nil => simpa using h
      | cons next rest =>
        rw [List.take_succ_cons]
        cases hrest : (next :: rest).take i with
        | nil =>
          obtain ⟨w, hw, hline⟩ := h.1
          exact ⟨w, hw, Or.inr hline⟩
        | cons a b =>
          rw [hrest] at htail
          exact ⟨h.1, htail⟩

lemma drop_markFrom (s i : ℕ) (lines : List (List Char)) :
    (markFrom s lines).drop i = markFrom (s + i) (lines.drop i) := by
  induction i generalizing s lines with
  | zero => rfl
  | succ i ih =>
    cases lines with
    | nil => rfl
    | cons line rest =>
      rw [markFrom, List.drop_succ_cons, List.drop_succ_cons, ih]
      congr 1
      omega

lemma take_markFrom (s i : ℕ) (lines : List (List Char)) :
    (markFrom s lines).take i = markFrom s (lines.take i) := by
  induction i generalizing s lines with
  | zero => rfl
  | succ i ih =>
    cases lines with
    | nil => rfl
    | cons line rest =>
      rw [markFrom, List.take_succ_cons, List.take_succ_cons, markFrom, ih]

lemma map_erase_markFrom (s : ℕ) (lines : List (List Char)) : (markFrom s lines).map erase = lines := by
  induction lines generalizing s with
  | nil => rfl
  | cons line rest ih => simp [markFrom, ih, Function.comp_def]

/-- **Marked lines are lined.** -/
theorem lined_markFrom (h : Shaped lines) (hT : ∀ k, k < lines.length → T (n + k) = s + k) :
    Lined T n (markFrom s lines).flatten := by
  induction lines generalizing n s with
  | nil => trivial
  | cons line rest ih =>
    rw [markFrom, List.flatten_cons, lined_append]
    have hmark := hT 0 (by simp)
    obtain ⟨w, hw, hline⟩ := h.head
    have hflat : ∀ c ∈ w.map fun c => (c, s), c.1 ≠ '\n' := by
      intro c hc
      obtain ⟨d, hd, rfl⟩ := List.mem_map.mp hc
      exact fun heq => hw (heq ▸ hd)
    have hw' : Lined T n (w.map fun c => (c, s)) := by
      rw [lined_flat hflat]
      intro c hc
      obtain ⟨d, -, rfl⟩ := List.mem_map.mp hc
      exact hmark.symm
    rcases hline with rfl | ⟨rfl, rfl⟩
    · rw [List.map_append, lined_append, height_append, height_eq_zero hflat]
      refine ⟨⟨hw', hmark.symm, trivial⟩, ?_⟩
      refine ih h.tail fun k hk => ?_
      have := hT (k + 1) (by simpa using hk)
      show T (n + (0 + 1) + k) = s + 1 + k
      rw [show n + (0 + 1) + k = n + (k + 1) by omega, this]
      omega
    · exact ⟨hw', trivial⟩

lemma height_markFrom (h : Shaped lines) {k : ℕ} (hk : k < lines.length) :
    height (markFrom s (lines.take k)).flatten = k := by
  induction k generalizing lines s with
  | zero => rfl
  | succ k ih =>
    cases lines with
    | nil => simp at hk
    | cons line rest =>
      have hk : k < rest.length := by simpa using hk
      obtain ⟨w, hw, hline⟩ := h.head
      rw [List.take_succ_cons, markFrom, List.flatten_cons, height_append, ih h.tail hk]
      rcases hline with rfl | ⟨-, rfl⟩
      · have hflat : ∀ c ∈ w.map fun c => (c, s), c.1 ≠ '\n' := by
          intro c hc
          obtain ⟨d, hd, rfl⟩ := List.mem_map.mp hc
          exact fun heq => hw (heq ▸ hd)
        rw [List.map_append, height_append, height_eq_zero hflat]
        show 0 + 1 + k = k + 1
        omega
      · simp at hk

/-- **The characters with a line's mark are the line.** -/
theorem ofLine_markFrom (h : Shaped lines) {i : ℕ} {line : List Char} (hi : lines[i]? = some line) :
    ofLine (s + i) (markFrom s lines).flatten = line.filter (· ≠ '\n') := by
  have hother : ∀ (l k : ℕ) (w : List Char), k ≠ l → ofLine l (w.map fun c => (c, k)) = [] := by
    intro l k w hne
    simp [ofLine, hne]
  have hlater : ∀ (lines : List (List Char)) (k l : ℕ), l < k →
      ofLine l (markFrom k lines).flatten = [] := by
    intro lines
    induction lines with
    | nil => exact fun _ _ _ => rfl
    | cons line rest ih =>
      intro k l hlt
      rw [markFrom, List.flatten_cons, ofLine_append, hother l k line (by omega), ih (k + 1) l (by omega)]
      rfl
  induction lines generalizing s i with
  | nil => simp at hi
  | cons head rest ih =>
    rw [markFrom, List.flatten_cons, ofLine_append]
    cases i with
    | zero =>
      obtain rfl : head = line := by simpa using hi
      rw [hlater rest (s + 1) (s + 0) (by omega), List.append_nil]
      unfold ofLine
      simp [List.filter_map, Function.comp_def]
    | succ i =>
      rw [hother _ s head (by omega), List.nil_append, show s + (i + 1) = s + 1 + i by omega]
      exact ih h.tail (by simpa using hi)

/-- Lines have their shape where a newline is the only line end. -/
lemma shaped_splitlinesKeep {text : List Char} (h : ∀ c ∈ text, isBreak c = true → c = '\n') :
    Shaped (splitlinesKeep text) := by
  induction hlen : text.length using Nat.strong_induction_on generalizing text with
  | _ len ih =>
    have hbreak : ∀ {w : List Char}, (∀ c ∈ w, c ∈ text) → '\n' ∉ w → ∀ c ∈ w, isBreak c = false := by
      intro w hsub hw c hc
      by_contra hb
      exact hw ((h c (hsub c hc) (by simpa using hb)) ▸ hc)
    by_cases hnl : '\n' ∈ text
    · obtain ⟨w, rest, rfl, hw⟩ := List.eq_append_cons_of_mem hnl
      rw [splitlinesKeep_line (hbreak (fun c hc => List.mem_append_left _ hc) hw)]
      have hrest := ih rest.length (by simp at hlen; omega)
        (fun c hc => h c (List.mem_append_right _ (List.mem_cons_of_mem _ hc))) rfl
      cases hlines : splitlinesKeep rest with
      | nil => exact ⟨w, hw, Or.inr rfl⟩
      | cons a b =>
        rw [hlines] at hrest
        exact ⟨⟨w, hw, rfl⟩, hrest⟩
    · by_cases hne : text = []
      · subst hne
        trivial
      · rw [splitlinesKeep_tail (hbreak (fun _ hc => hc) hnl) hne]
        exact ⟨text, hnl, Or.inl rfl⟩

-- the marks of a text that a program makes are not to be computed
attribute [irreducible] Lined

end CSecureBuild.Lib.Lines
