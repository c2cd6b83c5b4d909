import Mathlib

/-!
The memory of a C program, as far as its defined behaviour goes: what makes a step undefined, the
text a run of bytes denotes, arrays of a fixed size, and a heap that keeps a ledger of every block
it ever handed out and of every block it took back.

An operation with undefined behaviour is a `Fault`, so a theorem that a run is `.ok` says that the
run never reads, writes or releases what it must not.
-/

namespace CSecureBuild.CLib.Memory

/-- Why the next step of a C program has no defined meaning. -/
inductive Fault where
  /-- An array or a block is accessed outside its bytes. -/
  | outOfBounds
  /-- An object is read that holds no value yet. -/
  | indeterminate
  /-- A block is used after its release. -/
  | released
  /-- A string function runs off the end of an object that holds no NUL. -/
  | unterminated
  /-- An `int` leaves its range. -/
  | signedOverflow
  /-- A format string asks for arguments it was not given. -/
  | badFormat
  /-- A text is converted to a number that its type cannot hold. -/
  | unrepresentable
  deriving DecidableEq, Repr

/-! ### Results of computations that may fault -/

section Bind

variable {ε α β γ δ : Type}

@[simp] theorem ok_bind (a : α) (f : α → Except ε β) : (Except.ok a >>= f) = f a := rfl

@[simp] theorem pure_eq_ok (a : α) : (pure a : Except ε α) = .ok a := rfl

@[simp] theorem error_bind (e : ε) (f : α → Except ε β) : (Except.error e >>= f) = .error e := rfl

theorem bind_eq_ok {x : Except ε α} {f : α → Except ε β} {b : β} (h : (x >>= f) = .ok b) :
    ∃ a, x = .ok a ∧ f a = .ok b := by
  cases x with
  | error e => cases h
  | ok a => exact ⟨a, rfl, h⟩

/-- Two computations that fault alike, or deliver related results. -/
def Related (R : α → β → Prop) : Except ε α → Except ε β → Prop
  | .ok a, .ok b => R a b
  | .error e, .error e' => e = e'
  | _, _ => False

theorem Related.bind {R : α → β → Prop} {Q : γ → δ → Prop} {x : Except ε α} {y : Except ε β}
    {f : α → Except ε γ} {g : β → Except ε δ} (hx : Related R x y)
    (hf : ∀ a b, R a b → Related Q (f a) (g b)) : Related Q (x >>= f) (y >>= g) := by
  cases x with
  | error e =>
    cases y with
    | error e' => exact hx
    | ok b => exact hx.elim
  | ok a =>
    cases y with
    | error e' => exact hx.elim
    | ok b => exact hf a b hx

theorem Related.map_eq {R : α → β → Prop} {x : Except ε α} {y : Except ε β} {f : α → γ} {g : β → γ}
    (h : Related R x y) (hf : ∀ a b, R a b → f a = g b) : x.map f = y.map g := by
  cases x with
  | error e =>
    cases y with
    | error e' => exact congrArg Except.error h
    | ok b => exact h.elim
  | ok a =>
    cases y with
    | error e' => exact h.elim
    | ok b => exact congrArg Except.ok (hf a b h)

theorem Related.error_iff {R : α → β → Prop} {x : Except ε α} {y : Except ε β} (h : Related R x y)
    (e : ε) : x = .error e ↔ y = .error e := by
  cases x <;> cases y
  · rw [show _ = _ from h, Except.error.injEq, Except.error.injEq]
  · cases h
  · cases h
  · exact iff_of_false nofun nofun

theorem Related.mono {R Q : α → β → Prop} {x : Except ε α} {y : Except ε β} (h : Related R x y)
    (hRQ : ∀ a b, R a b → Q a b) : Related Q x y := by
  cases x <;> cases y
  · exact h
  · exact h
  · exact h
  · exact hRQ _ _ h

/-- One computation, gone on with in two ways. -/
theorem Related.same {Q : γ → δ → Prop} (x : Except ε α) {f : α → Except ε γ} {g : α → Except ε δ}
    (hf : ∀ a, Related Q (f a) (g a)) : Related Q (x >>= f) (x >>= g) := by
  cases x with
  | error e => rfl
  | ok a => exact hf a

end Bind

/-! ### Strings in byte arrays -/

/-- The string an array of bytes denotes: what stands before its first NUL. -/
def cstring (bytes : List UInt8) : List UInt8 := bytes.takeWhile (· ≠ 0)

/-- `strlen`, which needs a NUL to stop at. -/
def strlen (bytes : List UInt8) : Except Fault ℕ :=
  if 0 ∈ bytes then .ok (cstring bytes).length else .error .unterminated

/-- The string of an object that must hold one. -/
def stringOf (bytes : List UInt8) : Except Fault (List UInt8) :=
  if 0 ∈ bytes then .ok (cstring bytes) else .error .unterminated

/-- `explicit_bzero` on the first `n` bytes of an object. -/
def explicitBzero (bytes : List UInt8) (n : ℕ) : Except Fault (List UInt8) :=
  if n ≤ bytes.length then .ok (List.replicate n 0 ++ bytes.drop n) else .error .outOfBounds

/-- The bytes of a string constant. -/
def ascii (s : String) : List UInt8 := s.toList.map fun c => c.toNat.toUInt8

lemma cstring_of_notMem {text : List UInt8} (h : (0 : UInt8) ∉ text) : cstring text = text := by
  refine List.takeWhile_eq_self_iff.mpr fun b hb => ?_
  simp only [ne_eq, decide_not, Bool.not_eq_eq_eq_not, Bool.not_true, decide_eq_false_iff_not]
  rintro rfl
  exact h hb

lemma cstring_append_nul {text : List UInt8} (h : (0 : UInt8) ∉ text) (rest : List UInt8) :
    cstring (text ++ 0 :: rest) = text := by
  have hall : ∀ b ∈ text, (fun b : UInt8 => decide (b ≠ 0)) b = true := by
    intro b hb
    have : b ≠ 0 := by rintro rfl; exact h hb
    simpa using this
  unfold cstring
  rw [List.takeWhile_append_of_pos hall]
  simp

/-- An array with a NUL in it is its string, a NUL, and what follows. -/
lemma exists_eq_cstring_append {bytes : List UInt8} (h : (0 : UInt8) ∈ bytes) :
    ∃ rest, bytes = cstring bytes ++ 0 :: rest := by
  induction bytes with
  | nil => simp at h
  | cons b bytes ih =>
    by_cases hb : b = 0
    · exact ⟨bytes, by simp [cstring, hb]⟩
    · have hmem : (0 : UInt8) ∈ bytes := by
        rcases List.mem_cons.mp h with h0 | h0
        · exact absurd h0.symm hb
        · exact h0
      obtain ⟨rest, hrest⟩ := ih hmem
      refine ⟨rest, ?_⟩
      have hc : cstring (b :: bytes) = b :: cstring bytes := by simp [cstring, hb]
      rw [hc, List.cons_append, ← hrest]

lemma strlen_append_nul {text : List UInt8} (h : (0 : UInt8) ∉ text) (rest : List UInt8) :
    strlen (text ++ 0 :: rest) = .ok text.length := by
  unfold strlen
  rw [if_pos (by simp), cstring_append_nul h]

lemma stringOf_append_nul {text : List UInt8} (h : (0 : UInt8) ∉ text) (rest : List UInt8) :
    stringOf (text ++ 0 :: rest) = .ok text := by
  unfold stringOf
  rw [if_pos (by simp), cstring_append_nul h]

lemma explicitBzero_length (bytes : List UInt8) :
    explicitBzero bytes bytes.length = .ok (List.replicate bytes.length 0) := by
  unfold explicitBzero
  rw [if_pos le_rfl, List.drop_length, List.append_nil]

/-! ### Arrays of a fixed size -/

/-- An array of `n` bytes. -/
structure CharArray (n : ℕ) where
  bytes : List UInt8
  size : bytes.length = n
  deriving DecidableEq

/-- A static array starts zeroed. -/
def CharArray.zeroed (n : ℕ) : CharArray n := ⟨List.replicate n 0, List.length_replicate⟩

/-- Bytes written over the start of an array. -/
def CharArray.overwrite {n : ℕ} (a : CharArray n) (src : List UInt8) : Except Fault (CharArray n) :=
  if h : src.length ≤ n then
    .ok ⟨src ++ a.bytes.drop src.length, by rw [List.length_append, List.length_drop, a.size]; omega⟩
  else .error .outOfBounds

/-- `snprintf` of one string into an array, with the size of the array. -/
def CharArray.snprintf {n : ℕ} (a : CharArray n) (text : List UInt8) : Except Fault (CharArray n) :=
  a.overwrite (text.take (n - 1) ++ [0])

/-- `strcpy` into an array. -/
def CharArray.strcpy {n : ℕ} (a : CharArray n) (text : List UInt8) : Except Fault (CharArray n) :=
  a.overwrite (text ++ [0])

/-- The index of an array of `n` entries, checked. -/
def index (n i : ℕ) : Except Fault (Fin n) := if h : i < n then .ok ⟨i, h⟩ else .error .outOfBounds

lemma index_eq {n i : ℕ} (h : i < n) : index n i = .ok ⟨i, h⟩ := dif_pos h

lemma CharArray.overwrite_eq {n : ℕ} (a : CharArray n) {src : List UInt8} (h : src.length ≤ n) :
    ∃ b, a.overwrite src = .ok b ∧ b.bytes = src ++ a.bytes.drop src.length :=
  ⟨_, dif_pos h, rfl⟩

/-! ### The heap and its ledger -/

/-- A heap. The address of a block is the number of blocks handed out before it. Blocks are never
forgotten: a released block stays in the ledger, with the bytes it held when it was released. -/
structure Heap where
  /-- Every block ever handed out, in order, with its present bytes. -/
  blocks : List (List UInt8)
  /-- Every release, in order: which block, and what it held at that moment. -/
  releases : List (ℕ × List UInt8)
  /-- No block is released twice. -/
  once : (releases.map Prod.fst).Nodup
  /-- Only blocks that were handed out are released. -/
  made : ∀ p ∈ releases.map Prod.fst, p < blocks.length

/-- The heap a program starts with. -/
def Heap.empty : Heap := ⟨[], [], List.nodup_nil, by simp⟩

/-- A block that was handed out and not taken back. -/
def Heap.Live (h : Heap) (p : ℕ) : Prop := p < h.blocks.length ∧ p ∉ h.releases.map Prod.fst

instance (h : Heap) (p : ℕ) : Decidable (h.Live p) := by unfold Heap.Live; infer_instance

/-- The bytes of a live block. -/
def Heap.load (h : Heap) (p : ℕ) : Except Fault (List UInt8) :=
  if h.Live p then .ok (h.blocks.getD p []) else .error .released

/-- New bytes for a live block, as many as it had. -/
def Heap.store (h : Heap) (p : ℕ) (bytes : List UInt8) : Except Fault Heap :=
  if h.Live p then
    if bytes.length = (h.blocks.getD p []).length then
      .ok { h with blocks := h.blocks.set p bytes, made := by simpa using h.made }
    else .error .outOfBounds
  else .error .released

/-- A new block. -/
def Heap.alloc (h : Heap) (bytes : List UInt8) : ℕ × Heap :=
  (h.blocks.length,
    { h with
      blocks := h.blocks ++ [bytes]
      made := fun p hp => by have := h.made p hp; rw [List.length_append]; omega })

/-- `free` of a non-null pointer. -/
def Heap.free (h : Heap) (p : ℕ) : Except Fault Heap :=
  if hp : h.Live p then
    .ok
      { blocks := h.blocks
        releases := h.releases ++ [(p, h.blocks.getD p [])]
        once := by
          rw [List.map_append, List.map_singleton]
          exact h.once.append (List.nodup_singleton p) (by simpa using hp.2)
        made := by
          intro q hq
          rw [List.map_append, List.mem_append] at hq
          rcases hq with hq | hq
          · exact h.made q hq
          · rw [List.map_singleton, List.mem_singleton] at hq
            exact hq ▸ hp.1 }
  else .error .released

/-- The string a block holds. -/
def Heap.text (h : Heap) (p : ℕ) : List UInt8 := cstring (h.blocks.getD p [])

/-- `strdup`: the string of `input` in a block of its own. -/
def Heap.strdup (h : Heap) (input : List UInt8) : Except Fault (ℕ × Heap) := do
  let text ← stringOf input
  pure (h.alloc (text ++ [0]))

lemma Heap.load_eq {h : Heap} {p : ℕ} (hp : h.Live p) : h.load p = .ok (h.blocks.getD p []) :=
  if_pos hp

/-- Wiping the string of a live block, then releasing it: the ledger gains one entry. -/
lemma Heap.store_free {h : Heap} {p : ℕ} {bytes : List UInt8} (hp : h.Live p)
    (hlen : bytes.length = (h.blocks.getD p []).length) :
    ∃ h', (h.store p bytes >>= fun h₁ => h₁.free p) = .ok h' ∧
      h'.blocks = h.blocks.set p bytes ∧ h'.releases = h.releases ++ [(p, bytes)] := by
  have hlt : p < h.blocks.length := hp.1
  have hlive : Heap.Live { h with blocks := h.blocks.set p bytes, made := by simpa using h.made } p :=
    ⟨by simpa using hlt, hp.2⟩
  unfold Heap.store
  rw [if_pos hp, if_pos hlen, ok_bind]
  unfold Heap.free
  rw [dif_pos hlive]
  exact ⟨_, rfl, rfl, by simp [List.getD_eq_getElem?_getD, hlt]⟩

/-! ### Who holds the live blocks -/

/-- **Ownership.** The live blocks are exactly those the holders point to, each held once. -/
structure Heap.OwnedBy {ι : Type} (h : Heap) (holder : ι → Option ℕ) : Prop where
  held : ∀ p, h.Live p ↔ ∃ i, holder i = some p
  apart : ∀ i j p, holder i = some p → holder j = some p → i = j

section Owned

variable {ι : Type} {h h' : Heap} {holder : ι → Option ℕ}

theorem Heap.ownedBy_empty : Heap.empty.OwnedBy (fun _ : ι => none) :=
  ⟨fun p => by simp [Heap.Live, Heap.empty], fun i j p hi => by simp at hi⟩

/-- No more blocks are live than there are holders. -/
theorem Heap.OwnedBy.card_le [Fintype ι] (ho : h.OwnedBy holder) (s : Finset ℕ)
    (hs : ∀ p ∈ s, h.Live p) : s.card ≤ Fintype.card ι := by
  have hpick : ∀ p : s, ∃ i, holder i = some p.1 := fun p => (ho.held p.1).mp (hs p.1 p.2)
  choose pick hpick using hpick
  have hinj : Function.Injective pick := by
    intro p q hpq
    have hq := hpick q
    rw [← hpq, hpick p] at hq
    exact Subtype.ext (Option.some.inj hq)
  simpa using Fintype.card_le_of_injective pick hinj

variable [DecidableEq ι]

/-- A released block has no holder any more, once its holder lets go. -/
theorem Heap.OwnedBy.release (ho : h.OwnedBy holder) {i : ι} {p : ℕ} {bytes : List UInt8}
    (hi : holder i = some p) (hb : h'.blocks.length = h.blocks.length)
    (hr : h'.releases = h.releases ++ [(p, bytes)]) :
    h'.OwnedBy (Function.update holder i none) := by
  have hlive : ∀ q, h'.Live q ↔ h.Live q ∧ q ≠ p := by
    intro q
    unfold Heap.Live
    rw [hb, hr, List.map_append, List.mem_append]
    simp only [List.map_cons, List.map_nil, List.mem_singleton, not_or, and_assoc, ne_eq]
  constructor
  · intro q
    rw [hlive, ho.held]
    constructor
    · rintro ⟨⟨j, hj⟩, hq⟩
      refine ⟨j, ?_⟩
      rw [Function.update_of_ne, hj]
      rintro rfl
      rw [hi] at hj
      exact hq (Option.some.inj hj).symm
    · rintro ⟨j, hj⟩
      have hji : j ≠ i := by rintro rfl; simp at hj
      rw [Function.update_of_ne hji] at hj
      refine ⟨⟨j, hj⟩, ?_⟩
      rintro rfl
      exact hji (ho.apart j i q hj hi)
  · intro j k q hj hk
    have hji : j ≠ i := by rintro rfl; simp at hj
    have hki : k ≠ i := by rintro rfl; simp at hk
    rw [Function.update_of_ne hji] at hj
    rw [Function.update_of_ne hki] at hk
    exact ho.apart j k q hj hk

/-- A new block goes to a holder that held none. -/
theorem Heap.OwnedBy.acquire (ho : h.OwnedBy holder) {i : ι} (hi : holder i = none)
    (bytes : List UInt8) :
    (h.alloc bytes).2.OwnedBy (Function.update holder i (some (h.alloc bytes).1)) := by
  -- the new block is the next one, which nobody holds yet
  have hnew : ∀ j, holder j ≠ some h.blocks.length := by
    intro j hj
    have := ((ho.held h.blocks.length).mpr ⟨j, hj⟩).1
    omega
  have hlive : ∀ q, (h.alloc bytes).2.Live q ↔ h.Live q ∨ q = h.blocks.length := by
    intro q
    unfold Heap.Live Heap.alloc
    simp only [List.length_append, List.length_singleton]
    constructor
    · rintro ⟨hq, hr⟩
      by_cases h0 : q = h.blocks.length
      · exact Or.inr h0
      · exact Or.inl ⟨by omega, hr⟩
    · rintro (⟨hq, hr⟩ | rfl)
      · exact ⟨by omega, hr⟩
      · refine ⟨by omega, fun hr => ?_⟩
        have := h.made _ hr
        omega
  -- a block is live if it is held: the old ones as before, the new one by `i`
  constructor
  · intro q
    rw [hlive, ho.held]
    constructor
    · rintro (⟨j, hj⟩ | rfl)
      · refine ⟨j, ?_⟩
        have hji : j ≠ i := by rintro rfl; rw [hi] at hj; cases hj
        rw [Function.update_of_ne hji, hj]
      · exact ⟨i, by rw [Function.update_self]; rfl⟩
    · rintro ⟨j, hj⟩
      by_cases hji : j = i
      · subst hji
        rw [Function.update_self] at hj
        exact Or.inr (Option.some.inj hj).symm
      · rw [Function.update_of_ne hji] at hj
        exact Or.inl ⟨j, hj⟩
  · -- two holders of one block: if one of them is `i`, it is the new one
    intro j k q hj hk
    by_cases hji : j = i
    · by_cases hki : k = i
      · rw [hji, hki]
      · subst hji
        rw [Function.update_self] at hj
        rw [Function.update_of_ne hki] at hk
        exact absurd (hk.trans hj.symm) (hnew k)
    · by_cases hki : k = i
      · subst hki
        rw [Function.update_self] at hk
        rw [Function.update_of_ne hji] at hj
        exact absurd (hj.trans hk.symm) (hnew j)
      · rw [Function.update_of_ne hji] at hj
        rw [Function.update_of_ne hki] at hk
        exact ho.apart j k q hj hk

end Owned

end CSecureBuild.CLib.Memory
