import CSecureBuild.Shell.Reference

/-!
The globals of the hardened shell are a window on the log of the session.

`Holding` is what the ring and the heap have to do with each other: the live copies are those the
ring points to, and whatever was released was wiped. `Window` adds the log: what the slots hold, which
flags are set, and what the truncated copy is. `recordHistory_spec` is the only place where the ring
moves; `showHistory_spec` and `recallSlot_spec` are what the builtins print.
-/

namespace CSecureBuild.Shell.Globals

open CSecureBuild.CLib.Memory CSecureBuild.Lib.Ring
open CSecureBuild.Shell.Process CSecureBuild.Shell.Hardened CSecureBuild.Shell.Reference

/-! ### Copies -/

/-- A block that holds a copy made by `strdup`: a text and its NUL, nothing more. -/
def CopyOf (heap : Heap) (p : ℕ) (text : List UInt8) : Prop :=
  heap.blocks.getD p [] = text ++ [0] ∧ (0 : UInt8) ∉ text

lemma CopyOf.text {heap : Heap} {p : ℕ} {text : List UInt8} (h : CopyOf heap p text) :
    heap.text p = text := by
  unfold Heap.text
  rw [h.1]
  exact cstring_append_nul h.2 []

/-- The ring owns the live copies, and the heap has one block for each line of the log. -/
structure Holding (heap : Heap) (history : Fin historySlots → Option ℕ) (log : List (List UInt8)) :
    Prop where
  /-- Every line of the log was copied once. -/
  made : heap.blocks.length = log.length
  /-- The live copies are those in the ring, each in one slot. -/
  owned : heap.OwnedBy history
  /-- What the ring points to are copies of lines. -/
  copies : ∀ i p, history i = some p → ∃ text, log[p]? = some text ∧ CopyOf heap p text
  /-- Whatever was released was wiped, up to the NUL and with it. -/
  wiped : ∀ r ∈ heap.releases, ∃ text, log[r.1]? = some text ∧
    r.2 = List.replicate (text.length + 1) 0

lemma holding_empty : Holding Heap.empty (fun _ => none) [] where
  made := rfl
  owned := Heap.ownedBy_empty
  copies := fun i p h => by simp at h
  wiped := fun r hr => by simp [Heap.empty] at hr

section Copies

variable {heap : Heap} {history : Fin historySlots → Option ℕ} {log : List (List UInt8)}

lemma Holding.live (h : Holding heap history log) {i : Fin historySlots} {p : ℕ}
    (hi : history i = some p) : heap.Live p := (h.owned.held p).mpr ⟨i, hi⟩

/-- `wipe_and_free` on a copy: the ledger gains one release, of zeros only. -/
lemma wipeAndFree_copy {p : ℕ} {text : List UInt8} (hp : heap.Live p)
    (hc : CopyOf heap p text) :
    ∃ h', wipeAndFree heap (some p) = .ok h' ∧
      h'.blocks = heap.blocks.set p (List.replicate (text.length + 1) 0) ∧
      h'.releases = heap.releases ++ [(p, List.replicate (text.length + 1) 0)] := by
  have hlen : (heap.blocks.getD p []).length = text.length + 1 := by rw [hc.1]; simp
  have hzero : explicitBzero (text ++ [0]) text.length = .ok (List.replicate (text.length + 1) 0) := by
    unfold explicitBzero
    rw [if_pos (by simp), List.drop_left' rfl, List.replicate_succ']
  have hsame : (List.replicate (text.length + 1) (0 : UInt8)).length = (heap.blocks.getD p []).length :=
    by rw [hlen, List.length_replicate]
  obtain ⟨h', hh, hb, hr⟩ := Heap.store_free hp hsame
  refine ⟨h', ?_, hb, hr⟩
  unfold wipeAndFree
  simp only [Heap.load_eq hp, ok_bind, hc.1, strlen_append_nul hc.2 [], hzero]
  exact hh

/-- **`wipe_and_free` on what a slot holds**: the ring lets go of it. -/
theorem wipeAndFree_slot (h : Holding heap history log) (i : Fin historySlots) :
    ∃ h', wipeAndFree heap (history i) = .ok h' ∧
      Holding h' (Function.update history i none) log ∧
      ∀ j p, j ≠ i → history j = some p → h'.blocks.getD p [] = heap.blocks.getD p [] := by
  cases hi : history i with
  | none =>
    refine ⟨heap, rfl, ?_, fun _ _ _ _ => rfl⟩
    rwa [← hi, Function.update_eq_self]
  | some p =>
    obtain ⟨text, hlog, hc⟩ := h.copies i p hi
    obtain ⟨h', hw, hb, hr⟩ := wipeAndFree_copy (h.live hi) hc
    have hlen : h'.blocks.length = heap.blocks.length := by rw [hb, List.length_set]
    have hframe : ∀ j q, j ≠ i → history j = some q →
        h'.blocks.getD q [] = heap.blocks.getD q [] := by
      intro j q hj hq
      have hpq : p ≠ q := by
        rintro rfl
        exact hj (h.owned.apart j i p hq hi)
      rw [hb]
      simp [List.getD_eq_getElem?_getD, List.getElem?_set_ne hpq]
    refine ⟨h', hw, ⟨hlen.trans h.made, h.owned.release hi hlen hr, ?_, ?_⟩, hframe⟩
    · intro j q hq
      have hj : j ≠ i := by rintro rfl; simp at hq
      rw [Function.update_of_ne hj] at hq
      obtain ⟨text, hlog, hc⟩ := h.copies j q hq
      exact ⟨text, hlog, by rw [hframe j q hj hq]; exact hc.1, hc.2⟩
    · intro r hmem
      rw [hr, List.mem_append, List.mem_singleton] at hmem
      rcases hmem with hmem | rfl
      · exact h.wiped r hmem
      · exact ⟨text, hlog, rfl⟩

/-- **A new copy** for a slot that holds none. -/
theorem acquire_slot (h : Holding heap history log) {i : Fin historySlots} (hi : history i = none)
    {text : List UInt8} (h0 : (0 : UInt8) ∉ text) :
    CopyOf (heap.alloc (text ++ [0])).2 heap.blocks.length text ∧
      Holding (heap.alloc (text ++ [0])).2 (Function.update history i (some heap.blocks.length))
        (log ++ [text]) ∧
      ∀ j p, history j = some p →
        (heap.alloc (text ++ [0])).2.blocks.getD p [] = heap.blocks.getD p [] := by
  have hblocks : (heap.alloc (text ++ [0])).2.blocks = heap.blocks ++ [text ++ [0]] := rfl
  have hcopy : CopyOf (heap.alloc (text ++ [0])).2 heap.blocks.length text := by
    refine ⟨?_, h0⟩
    rw [hblocks]
    simp [List.getD_eq_getElem?_getD]
  -- the blocks there were stay as they are
  have hframe : ∀ j p, history j = some p →
      (heap.alloc (text ++ [0])).2.blocks.getD p [] = heap.blocks.getD p [] := by
    intro j p hp
    have hlt : p < heap.blocks.length := (h.live hp).1
    rw [hblocks]
    simp [List.getD_eq_getElem?_getD, List.getElem?_append_left hlt]
  have hold : ∀ {p : ℕ} {t : List UInt8}, log[p]? = some t → (log ++ [text])[p]? = some t := by
    intro p t hp
    rw [List.getElem?_append_left (List.getElem?_eq_some_iff.mp hp).1, hp]
  refine ⟨hcopy, ⟨?_, h.owned.acquire hi _, ?_, ?_⟩, hframe⟩
  · rw [hblocks, List.length_append, List.length_append, h.made]
    rfl
  · -- the slot has the new line, the others have theirs
    intro j p hp
    by_cases hj : j = i
    · rw [hj, Function.update_self] at hp
      cases hp
      exact ⟨text, by rw [h.made]; simp, hcopy⟩
    · rw [Function.update_of_ne hj] at hp
      obtain ⟨t, hlog, hc⟩ := h.copies j p hp
      exact ⟨t, hold hlog, by rw [hframe j p hp]; exact hc.1, hc.2⟩
  · intro r hr
    obtain ⟨t, hlog, hz⟩ := h.wiped r hr
    exact ⟨t, hold hlog, hz⟩

end Copies

/-! ### The globals and the log -/

/-- **The invariant of the globals.** -/
structure Window (s : State) (log : List (List UInt8)) : Prop where
  /-- The ring is a window on the log. -/
  ring : Tracks s.historyNext (fun i => (s.history i).map s.heap.text) log
  /-- The ring owns the copies. -/
  holding : Holding s.heap s.history log
  /-- The flags say which slots are taken. -/
  used : ∀ i, s.slotUsed i ≠ 0 ↔ s.history i ≠ none
  /-- The truncated copy of the line before the last one. -/
  last : ∃ rest, s.lastCommand.bytes = historyText log ++ 0 :: rest
  /-- Lines hold no NUL. -/
  clean : ∀ line ∈ log, (0 : UInt8) ∉ line

lemma window_start : Window historyInit [] where
  ring := Tracks.nil historySlots
  holding := holding_empty
  used := fun i => by simp [historyInit]
  last := ⟨List.replicate 31 0, rfl⟩
  clean := fun line h => by simp at h

variable {s : State} {log : List (List UInt8)} {line rest : List UInt8}

lemma Window.out (hg : Window s log) (out : List Event) (forks : ℕ) :
    Window { s with out, forks } log := ⟨hg.ring, hg.holding, hg.used, hg.last, hg.clean⟩

/-- The `last_command` update: the string of the slot before the next one, cut to fit. -/
lemma keepPrevious_spec (hg : Window s log) (line : List UInt8) :
    ∃ a, keepPrevious s (s.history ⟨(s.historyNext + historySlots - 1) % historySlots,
        Nat.mod_lt _ (by decide)⟩) = .ok a ∧
      ∃ rest, a.bytes = historyText (log ++ [line]) ++ 0 :: rest := by
  have hprev := hg.ring.previous (by decide)
  have htext : historyText (log ++ [line]) = (log.getLast?.getD []).take 31 := by
    simp [historyText, historySize]
  rw [htext]
  cases hh : s.history ⟨(s.historyNext + historySlots - 1) % historySlots,
      Nat.mod_lt _ (by decide)⟩ with
  | none =>
    rw [hh] at hprev
    have hlog : log = [] := List.getLast?_eq_none_iff.mp hprev.symm
    obtain ⟨rest, hrest⟩ := hg.last
    refine ⟨s.lastCommand, rfl, rest, ?_⟩
    rw [hrest, hlog]
    rfl
  | some p =>
    obtain ⟨text, -, hc⟩ := hg.holding.copies _ p hh
    rw [hh, Option.map_some, hc.text] at hprev
    have hshort : (text.take (historySize - 1) ++ [0]).length ≤ historySize := by
      simp [historySize]
    obtain ⟨a, ha, hab⟩ := s.lastCommand.overwrite_eq hshort
    refine ⟨a, ?_, s.lastCommand.bytes.drop (text.take (historySize - 1) ++ [0]).length, ?_⟩
    · unfold keepPrevious
      simp only [Heap.load_eq (hg.holding.live hh), ok_bind, hc.1, stringOf_append_nul hc.2 []]
      exact ha
    · rw [hab, ← hprev]
      simp [historySize]

/-- **`record_history` appends to the log.** -/
theorem recordHistory_spec (hg : Window s log) (h0 : (0 : UInt8) ∉ line) (rest : List UInt8) :
    ∃ s', recordHistory s (line ++ 0 :: rest) = .ok s' ∧ Window s' (log ++ [line]) ∧
      s'.out = s.out ∧ s'.forks = s.forks := by
  have hnext : s.historyNext < historySlots := hg.ring.next_lt (by decide)
  obtain ⟨a, ha, hlast⟩ := keepPrevious_spec hg line
  obtain ⟨h₁, hw, hfree, hframe⟩ := wipeAndFree_slot hg.holding ⟨s.historyNext, hnext⟩
  obtain ⟨hcopy, hholding, hframe'⟩ := acquire_slot hfree (Function.update_self ..) h0
  rw [Function.update_idem] at hholding
  -- the other slots hold what they held
  have hkeep : ∀ j p, j ≠ (⟨s.historyNext, hnext⟩ : Fin historySlots) → s.history j = some p →
      (h₁.alloc (line ++ [0])).2.blocks.getD p [] = s.heap.blocks.getD p [] := by
    intro j p hj hp
    rw [hframe' j p (by rw [Function.update_of_ne hj, hp]), hframe j p hj hp]
  refine ⟨{ s with
      lastCommand := a
      heap := (h₁.alloc (line ++ [0])).2
      history := Function.update s.history ⟨s.historyNext, hnext⟩ (some h₁.blocks.length)
      slotUsed := Function.update s.slotUsed ⟨s.historyNext, hnext⟩ 1
      historyNext := (s.historyNext + 1) % historySlots }, ?_, ?_, rfl, rfl⟩
  · unfold recordHistory
    rw [index_eq (Nat.mod_lt _ (by decide)), ok_bind, ha, ok_bind, index_eq hnext, ok_bind, hw,
      ok_bind]
    unfold Heap.strdup
    rw [stringOf_append_nul h0]
    rfl
  constructor
  · refine hg.ring.push hnext line fun i => ?_
    by_cases hi : i = ⟨s.historyNext, hnext⟩
    · rw [if_pos hi]
      simp only [hi, Function.update_self, Option.map_some, hcopy.text]
    · rw [if_neg hi]
      simp only [Function.update_of_ne hi]
      cases hp : s.history i with
      | none => rfl
      | some p => simp only [Option.map_some, Heap.text, hkeep i p hi hp]
  · exact hholding
  · intro i
    by_cases hi : i = ⟨s.historyNext, hnext⟩
    · simp [hi]
    · simp only [Function.update_of_ne hi]
      exact hg.used i
  · exact hlast
  · intro l hl
    rcases List.mem_append.mp hl with hl | hl
    · exact hg.clean l hl
    · rw [List.mem_singleton.mp hl]
      exact h0

/-! ### The builtins -/

lemma zero_notMem_historyText (hclean : ∀ line ∈ log, (0 : UInt8) ∉ line) :
    (0 : UInt8) ∉ historyText log := by
  unfold historyText
  cases hl : log.dropLast.getLast? with
  | none => simp
  | some line =>
    have hmem : line ∈ log := List.dropLast_subset log (List.mem_of_getLast? hl)
    exact fun h => hclean line hmem (List.mem_of_mem_take h)

lemma showHistory_spec (hg : Window s log) :
    showHistory s = .ok (s.printed .history (historyText log)) := by
  obtain ⟨rest, hrest⟩ := hg.last
  unfold showHistory
  rw [hrest, stringOf_append_nul (zero_notMem_historyText hg.clean)]
  rfl

lemma recallSlot_spec (hg : Window s log) (slot : ℤ) :
    recallSlot s slot = .ok (s.printed .recall (recallText log slot)) := by
  unfold recallSlot recallText
  by_cases hr : slot < 0 ∨ slot ≥ historySlots
  · rw [if_pos hr, if_pos hr]
    rfl
  rw [if_neg hr, if_neg hr]
  have hlt : slot.toNat < historySlots := by omega
  have hring := hg.ring.slots_eq ⟨slot.toNat, hlt⟩
  simp only at hring
  rw [← hring, index_eq hlt, ok_bind]
  cases hh : s.history ⟨slot.toNat, hlt⟩ with
  | none =>
    have hfree : s.slotUsed ⟨slot.toNat, hlt⟩ = 0 := by
      by_contra h
      exact (hg.used _).mp h hh
    rw [if_pos hfree]
    rfl
  | some p =>
    obtain ⟨text, -, hc⟩ := hg.holding.copies _ p hh
    have hused : s.slotUsed ⟨slot.toNat, hlt⟩ ≠ 0 := (hg.used _).mpr (by rw [hh]; simp)
    simp only [if_neg hused, Heap.load_eq (hg.holding.live hh), ok_bind, hc.1, stringOf_append_nul hc.2 [],
      Option.map_some, hc.text, Option.getD_some, pure_eq_ok]

end CSecureBuild.Shell.Globals
