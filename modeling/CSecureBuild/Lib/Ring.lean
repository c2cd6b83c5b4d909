import Mathlib

/-!
A ring of `k` slots as a window on a log that only grows. The slot a log position goes to is the
position modulo `k`, so a slot holds the last entry of the log among the positions of one residue
class (`lastAt`). `Tracks` is what a ring and its log have to do with each other, and
`Tracks.push` says that writing the next slot and stepping on keeps it.
-/

namespace CSecureBuild.Lib.Ring

variable {α : Type} {k : ℕ}

/-- The last entry of a log at a position that is `s` modulo `k`. -/
def lastAt (k : ℕ) (log : List α) (s : ℕ) : Option α :=
  (log.zipIdx.filter fun p => p.2 % k = s).getLast?.map Prod.fst

@[simp] lemma lastAt_nil (s : ℕ) : lastAt k ([] : List α) s = none := rfl

lemma lastAt_append (log : List α) (x : α) (s : ℕ) :
    lastAt k (log ++ [x]) s = if log.length % k = s then some x else lastAt k log s := by
  unfold lastAt
  rw [List.zipIdx_append, List.filter_append]
  by_cases h : log.length % k = s
  · simp [h]
  · simp [h]

/-- A slot is empty as long as the log is too short to reach it. -/
theorem lastAt_eq_none_iff {log : List α} {s : ℕ} (hs : s < k) :
    lastAt k log s = none ↔ log.length ≤ s := by
  induction log using List.reverseRecOn with
  | nil => simp
  | append_singleton log y ih =>
    rw [lastAt_append, List.length_append, List.length_singleton]
    by_cases h : log.length % k = s
    · have := Nat.mod_le log.length k
      rw [if_pos h]
      simp only [reduceCtorEq, false_iff, not_le]
      omega
    · rw [if_neg h, ih]
      constructor
      · intro hle
        by_contra hgt
        have heq : log.length = s := by omega
        rw [heq, Nat.mod_eq_of_lt hs] at h
        exact h rfl
      · omega

/-- The slot before the next one holds the last entry of the log. -/
theorem lastAt_previous (hk : 0 < k) (log : List α) :
    lastAt k log ((log.length % k + k - 1) % k) = log.getLast? := by
  induction log using List.reverseRecOn with
  | nil => simp
  | append_singleton log y ih =>
    have hslot : ((log ++ [y]).length % k + k - 1) % k = log.length % k := by
      rw [List.length_append, List.length_singleton, Nat.add_sub_assoc hk, ← Nat.add_mod_mod,
        Nat.mod_add_mod, Nat.add_mod_mod, Nat.add_assoc, Nat.add_sub_cancel' hk, Nat.add_mod_right]
    rw [hslot, lastAt_append, if_pos rfl]
    simp

/-- A ring keeps up with a log: it writes next where the log goes on, and every slot holds what the
log says. -/
structure Tracks (next : ℕ) (slots : Fin k → Option α) (log : List α) : Prop where
  next_eq : next = log.length % k
  slots_eq : ∀ s, slots s = lastAt k log s

lemma Tracks.nil (k : ℕ) : Tracks (k := k) 0 (fun _ => none : Fin k → Option α) [] :=
  ⟨by simp, fun _ => rfl⟩

lemma Tracks.next_lt {next : ℕ} {slots : Fin k → Option α} {log : List α} (hk : 0 < k)
    (h : Tracks next slots log) : next < k := h.next_eq ▸ Nat.mod_lt _ hk

/-- **Writing the next slot is appending to the log.** -/
theorem Tracks.push {next : ℕ} {slots slots' : Fin k → Option α} {log : List α}
    (h : Tracks next slots log) (hn : next < k) (x : α)
    (hs : ∀ s, slots' s = if s = ⟨next, hn⟩ then some x else slots s) :
    Tracks ((next + 1) % k) slots' (log ++ [x]) := by
  constructor
  · rw [List.length_append, List.length_singleton, h.next_eq, Nat.mod_add_mod]
  · intro s
    rw [hs, lastAt_append, ← h.next_eq, ← h.slots_eq]
    by_cases hsn : s = ⟨next, hn⟩
    · rw [if_pos hsn, if_pos (by rw [hsn])]
    · rw [if_neg hsn, if_neg fun h0 => hsn (Fin.ext h0.symm)]

/-- The entry before the last one of a log that just grew, as the ring sees it. -/
theorem Tracks.previous {next : ℕ} {slots : Fin k → Option α} {log : List α} (hk : 0 < k)
    (h : Tracks next slots log) :
    slots ⟨(next + k - 1) % k, Nat.mod_lt _ hk⟩ = log.getLast? := by
  rw [h.slots_eq]
  simp only [h.next_eq]
  exact lastAt_previous hk log

end CSecureBuild.Lib.Ring
