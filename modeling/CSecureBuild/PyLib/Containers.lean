import Mathlib

/-!
Python's `dict` as the list of its entries in the order in which the keys came, each key once,
`random.shuffle` as a permutation of positions, and comprehensions that can raise.
-/

namespace CSecureBuild.PyLib.Containers

/-! ### Entries -/

section

variable {κ β σ : Type}

/-- A loop over the values, in order, that replaces each and carries a state along. -/
def visitEntries (f : σ → β → σ × β) : σ → List (κ × β) → σ × List (κ × β)
  | s, [] => (s, [])
  | s, (k, b) :: rest =>
    let (s, b) := f s b
    let (s, rest) := visitEntries f s rest
    (s, (k, b) :: rest)

lemma keys_visitEntries (f : σ → β → σ × β) (s : σ) (entries : List (κ × β)) :
    (visitEntries f s entries).2.map Prod.fst = entries.map Prod.fst := by
  induction entries generalizing s with
  | nil => rfl
  | cons e rest ih => simp [visitEntries, ih]

/-- In a table whose keys differ, a look-up finds the entry of its key. -/
lemma lookup_eq_some_iff_mem [BEq κ] [LawfulBEq κ] {entries : List (κ × β)}
    (h : (entries.map Prod.fst).Nodup) {k : κ} {b : β} :
    entries.lookup k = some b ↔ (k, b) ∈ entries := by
  constructor
  · intro hlookup
    obtain ⟨before, after, rfl, -⟩ := List.lookup_eq_some_iff.mp hlookup
    exact List.mem_append_right before List.mem_cons_self
  · intro hmem
    obtain ⟨before, after, rfl⟩ := List.append_of_mem hmem
    refine List.lookup_eq_some_iff.mpr ⟨before, after, rfl, fun p hp => ?_⟩
    rw [List.map_append, List.map_cons, List.nodup_append] at h
    have hne : p.1 ≠ k := h.2.2 _ (List.mem_map_of_mem hp) _ List.mem_cons_self
    simpa using hne.symm

variable [DecidableEq κ]

/-- `entries[k] = f(entries[k])`, where a missing value is `b`. -/
def alterEntries (k : κ) (b : β) (f : β → β) : List (κ × β) → List (κ × β)
  | [] => [(k, f b)]
  | (j, c) :: rest => if j = k then (j, f c) :: rest else (j, c) :: alterEntries k b f rest

lemma keys_alterEntries (k : κ) (b : β) (f : β → β) (entries : List (κ × β)) :
    (alterEntries k b f entries).map Prod.fst =
      if k ∈ entries.map Prod.fst then entries.map Prod.fst else entries.map Prod.fst ++ [k] := by
  induction entries with
  | nil => rfl
  | cons e rest ih =>
    obtain ⟨j, c⟩ := e
    unfold alterEntries
    by_cases h : j = k
    · simp [h]
    · rw [if_neg h, List.map_cons, ih, List.map_cons]
      simp only [List.mem_cons, Ne.symm h, false_or]
      split_ifs <;> rfl

lemma lookup_entry (j i : κ) (c : β) (rest : List (κ × β)) :
    ((i, c) :: rest).lookup j = if j = i then some c else rest.lookup j := by
  by_cases h : j = i
  · rw [if_pos h, h, List.lookup_cons_self]
  · rw [if_neg h, List.lookup_cons, beq_eq_false_iff_ne.mpr h]

lemma alterEntries_fresh {k : κ} {entries : List (κ × β)} (h : k ∉ entries.map Prod.fst) (b : β)
    (f : β → β) : alterEntries k b f entries = entries ++ [(k, f b)] := by
  induction entries with
  | nil => rfl
  | cons e rest ih =>
    obtain ⟨j, c⟩ := e
    rw [List.map_cons, List.mem_cons, not_or] at h
    rw [alterEntries, if_neg (Ne.symm h.1), ih h.2]
    rfl

lemma lookup_alterEntries (k j : κ) (b : β) (f : β → β) (entries : List (κ × β)) :
    (alterEntries k b f entries).lookup j =
      if j = k then some (f ((entries.lookup k).getD b)) else entries.lookup j := by
  induction entries with
  | nil => rw [alterEntries, lookup_entry]; rfl
  | cons e rest ih =>
    obtain ⟨i, c⟩ := e
    unfold alterEntries
    by_cases h : i = k
    · rw [if_pos h, lookup_entry, lookup_entry, lookup_entry, if_pos h.symm, h]
      split_ifs <;> rfl
    · rw [if_neg h, lookup_entry, ih, lookup_entry, lookup_entry, if_neg (Ne.symm h)]
      by_cases hj : j = i
      · rw [if_pos hj, if_pos hj, if_neg (hj ▸ h)]
      · rw [if_neg hj, if_neg hj]

lemma lookup_visitEntries {r : β → β → Prop} {f : σ → β → σ × β} (hf : ∀ s b, r b (f s b).2)
    (s : σ) (entries : List (κ × β)) (k : κ) :
    Option.Rel r (entries.lookup k) ((visitEntries f s entries).2.lookup k) := by
  induction entries generalizing s with
  | nil => exact .none
  | cons e rest ih =>
    obtain ⟨j, b⟩ := e
    simp only [visitEntries, lookup_entry]
    split_ifs
    · exact .some (hf s b)
    · exact ih _

/-- The entries with their values changed. -/
def mapEntries {γ : Type} (g : β → γ) (entries : List (κ × β)) : List (κ × γ) :=
  entries.map fun e => (e.1, g e.2)

section

variable {γ : Type} (g : β → γ)

omit [DecidableEq κ] in
lemma keys_mapEntries (entries : List (κ × β)) :
    (mapEntries g entries).map Prod.fst = entries.map Prod.fst := by
  rw [mapEntries, List.map_map]
  rfl

lemma lookup_mapEntries (k : κ) (entries : List (κ × β)) :
    (mapEntries g entries).lookup k = (entries.lookup k).map g := by
  induction entries with
  | nil => rfl
  | cons e rest ih =>
    obtain ⟨j, b⟩ := e
    rw [mapEntries, List.map_cons, ← mapEntries, lookup_entry, lookup_entry, ih]
    split_ifs <;> rfl

lemma mapEntries_alter {f : β → β} {f' : γ → γ} (h : ∀ b, g (f b) = f' (g b)) (k : κ) (b : β)
    (entries : List (κ × β)) :
    mapEntries g (alterEntries k b f entries) = alterEntries k (g b) f' (mapEntries g entries) := by
  induction entries with
  | nil => simp [alterEntries, mapEntries, h]
  | cons e rest ih =>
    obtain ⟨j, c⟩ := e
    simp only [mapEntries, List.map_cons, alterEntries] at ih ⊢
    split_ifs
    · simp [h]
    · rw [List.map_cons, ih]

omit [DecidableEq κ] in
lemma mapEntries_visit {f : σ → β → σ × β} {f' : σ → γ → σ × γ}
    (h : ∀ s b, f' s (g b) = ((f s b).1, g (f s b).2)) (s : σ) (entries : List (κ × β)) :
    visitEntries f' s (mapEntries g entries) =
      ((visitEntries f s entries).1, mapEntries g (visitEntries f s entries).2) := by
  induction entries generalizing s with
  | nil => rfl
  | cons e rest ih =>
    obtain ⟨j, b⟩ := e
    simp only [mapEntries, List.map_cons, visitEntries] at ih ⊢
    rw [h, ih]

end

end

/-! ### Dicts -/

/-- A dict: its entries, in the order in which the keys came. -/
structure Dict (κ β : Type) where
  entries : List (κ × β)
  nodup : (entries.map Prod.fst).Nodup

namespace Dict

variable {κ β σ : Type}

/-- The empty dict. -/
def empty : Dict κ β := ⟨[], List.nodup_nil⟩

/-- The keys, in order. -/
def keys (d : Dict κ β) : List κ := d.entries.map Prod.fst

lemma keys_nodup (d : Dict κ β) : d.keys.Nodup := d.nodup

variable [DecidableEq κ]

/-- `d.get(k)` -/
def get (d : Dict κ β) (k : κ) : Option β := d.entries.lookup k

/-- `d[k] = f(d[k])` in a `defaultdict` whose values start as `b`. -/
def alter (d : Dict κ β) (k : κ) (b : β) (f : β → β) : Dict κ β where
  entries := alterEntries k b f d.entries
  nodup := by
    rw [keys_alterEntries]
    split_ifs with h
    · exact d.nodup
    · exact List.nodup_append.mpr ⟨d.nodup, List.nodup_singleton k, fun i hi j hj => by
        rw [List.mem_singleton.mp hj]
        exact fun e => h (e ▸ hi)⟩

/-- A loop over `d.values()` that replaces each and carries a state along. -/
def visit (f : σ → β → σ × β) (s : σ) (d : Dict κ β) : σ × Dict κ β :=
  ((visitEntries f s d.entries).1, ⟨(visitEntries f s d.entries).2, by
    rw [keys_visitEntries]
    exact d.nodup⟩)

omit [DecidableEq κ] in
lemma ext_entries {d d' : Dict κ β} (h : d.entries = d'.entries) : d = d' := by
  cases d
  cases d'
  cases h
  rfl

/-- A dict with its values changed. -/
def map {γ : Type} (g : β → γ) (d : Dict κ β) : Dict κ γ where
  entries := mapEntries g d.entries
  nodup := by
    rw [keys_mapEntries]
    exact d.nodup

omit [DecidableEq κ] in
@[simp] lemma keys_map {γ : Type} (g : β → γ) (d : Dict κ β) : (d.map g).keys = d.keys :=
  keys_mapEntries g d.entries

@[simp] lemma get_map {γ : Type} (g : β → γ) (d : Dict κ β) (k : κ) :
    (d.map g).get k = (d.get k).map g :=
  lookup_mapEntries g k d.entries

lemma map_alter {γ : Type} (g : β → γ) {f : β → β} {f' : γ → γ} (h : ∀ b, g (f b) = f' (g b))
    (d : Dict κ β) (k : κ) (b : β) : (d.alter k b f).map g = (d.map g).alter k (g b) f' :=
  ext_entries (mapEntries_alter g h k b d.entries)

omit [DecidableEq κ] in
lemma visit_map {γ : Type} (g : β → γ) {f : σ → β → σ × β} {f' : σ → γ → σ × γ}
    (h : ∀ s b, f' s (g b) = ((f s b).1, g (f s b).2)) (s : σ) (d : Dict κ β) :
    (d.map g).visit f' s = ((d.visit f s).1, (d.visit f s).2.map g) := by
  have hvisit := mapEntries_visit g h s d.entries
  refine Prod.ext ?_ (ext_entries ?_)
  · show (visitEntries f' s (mapEntries g d.entries)).1 = _
    rw [hvisit]
    rfl
  · show (visitEntries f' s (mapEntries g d.entries)).2 = _
    rw [hvisit]
    rfl

@[simp] lemma get_empty (k : κ) : (empty : Dict κ β).get k = none := rfl

lemma get_alter (d : Dict κ β) (k j : κ) (b : β) (f : β → β) :
    (d.alter k b f).get j = if j = k then some (f ((d.get k).getD b)) else d.get j :=
  lookup_alterEntries k j b f d.entries

lemma get_eq_some_iff {d : Dict κ β} {k : κ} {b : β} : d.get k = some b ↔ (k, b) ∈ d.entries :=
  lookup_eq_some_iff_mem d.nodup

lemma entries_alter_fresh {d : Dict κ β} {k : κ} (h : k ∉ d.keys) (b : β) (f : β → β) :
    (d.alter k b f).entries = d.entries ++ [(k, f b)] := alterEntries_fresh h b f

/-- **Dicts with the same entries**, in whatever order, are the same map. -/
lemma get_eq_of_perm {d d' : Dict κ β} (h : d.entries.Perm d'.entries) (k : κ) : d.get k = d'.get k := by
  refine Option.ext fun b => ?_
  rw [get_eq_some_iff, get_eq_some_iff]
  exact h.mem_iff

lemma mem_keys_of_get {d : Dict κ β} {k : κ} {b : β} (h : d.get k = some b) : k ∈ d.keys := by
  obtain ⟨l₁, l₂, hl, -⟩ := List.lookup_eq_some_iff.mp h
  simp [keys, hl]

lemma get_visit {r : β → β → Prop} {f : σ → β → σ × β} (hf : ∀ s b, r b (f s b).2) (s : σ)
    (d : Dict κ β) (k : κ) : Option.Rel r (d.get k) ((d.visit f s).2.get k) :=
  lookup_visitEntries hf s d.entries k

/-- `dict(items)` -/
def ofItems (items : List (κ × β)) : Dict κ β :=
  items.foldl (fun d e => d.alter e.1 e.2 fun _ => e.2) empty

lemma ofItems_concat (items : List (κ × β)) (e : κ × β) :
    ofItems (items ++ [e]) = (ofItems items).alter e.1 e.2 fun _ => e.2 := List.foldl_concat ..

/-- Of equal keys the last counts. -/
lemma get_ofItems (items : List (κ × β)) (k : κ) : (ofItems items).get k = items.reverse.lookup k := by
  induction items using List.reverseRecOn with
  | nil => rfl
  | append_singleton items e ih => rw [ofItems_concat, get_alter, ih, List.reverse_concat, lookup_entry]

lemma mem_of_get_ofItems {items : List (κ × β)} {k : κ} {b : β} (h : (ofItems items).get k = some b) :
    (k, b) ∈ items := by
  rw [get_ofItems] at h
  obtain ⟨before, after, heq, -⟩ := List.lookup_eq_some_iff.mp h
  rw [← List.mem_reverse, heq]
  exact List.mem_append_right _ List.mem_cons_self

lemma entries_ofItems {items : List (κ × β)} (h : (items.map Prod.fst).Nodup) :
    (ofItems items).entries = items := by
  induction items using List.reverseRecOn with
  | nil => rfl
  | append_singleton items e ih =>
    rw [List.map_append, List.map_singleton] at h
    obtain ⟨hitems, -, hfresh⟩ := List.nodup_append'.mp h
    have hnot : e.1 ∉ (ofItems items).keys := by
      unfold keys
      rw [ih hitems]
      exact fun hmem => hfresh hmem (List.mem_singleton_self _)
    rw [ofItems_concat, entries_alter_fresh hnot, ih hitems]

end Dict

/-! ### `shuffle` -/

/-- A seeded generator, as calls of `shuffle` use it: where the places of a list go, from the lengths of
the lists that were shuffled before. -/
abbrev Shuffle := List ℕ → (n : ℕ) → Equiv.Perm (Fin n)

section

variable {ι κ : Type} (rng : Shuffle)

/-- `rng.shuffle(xs)`, behind calls for lists of the lengths in `past`. -/
def shuffle (past : List ℕ) (xs : List ι) : List ℕ × List ι :=
  (past ++ [xs.length], List.ofFn fun i => xs.get (rng past xs.length i))

lemma shuffle_perm (past : List ℕ) (xs : List ι) : (shuffle rng past xs).2.Perm xs := by
  have h := List.ofFn_get xs
  calc (shuffle rng past xs).2.Perm (List.ofFn fun i => xs.get i) :=
        Equiv.Perm.ofFn_comp_perm (rng past xs.length) fun i => xs.get i
    _ = xs := h

lemma ofFn_get_cast {n : ℕ} (xs : List ι) (h : n = xs.length) (g : (m : ℕ) → Fin m → Fin m) :
    List.ofFn (fun i => xs.get (g xs.length i)) = List.ofFn fun i => xs.get ((g n i).cast h) := by
  subst h
  rfl

lemma shuffle_map (f : ι → κ) (past : List ℕ) (xs : List ι) :
    shuffle rng past (xs.map f) = ((shuffle rng past xs).1, (shuffle rng past xs).2.map f) := by
  refine Prod.ext (by simp [shuffle]) ?_
  simp only [shuffle]
  rw [ofFn_get_cast (xs.map f) (List.length_map f).symm fun m i => rng past m i, List.map_ofFn]
  simp [Function.comp_def]

end

/-! ### Comprehensions -/

section

variable {α β : Type} {f : α → Option β} {xs : List α}

lemma mapM_of_forall {g : α → β} (h : ∀ x ∈ xs, f x = some (g x)) : xs.mapM f = some (xs.map g) := by
  induction xs with
  | nil => rfl
  | cons x xs ih =>
    rw [List.mapM_cons, h x List.mem_cons_self, ih fun y hy => h y (List.mem_cons_of_mem x hy)]
    rfl

lemma exists_of_mem_mapM {ys : List β} (h : xs.mapM f = some ys) {y : β} (hy : y ∈ ys) : ∃ x ∈ xs, f x = some y := by
  induction xs generalizing ys with
  | nil =>
    cases h
    cases hy
  | cons x xs ih =>
    rw [List.mapM_cons] at h
    obtain ⟨z, hz, h⟩ := Option.bind_eq_some_iff.mp h
    obtain ⟨zs, hzs, h⟩ := Option.bind_eq_some_iff.mp h
    obtain rfl := Option.some.inj h
    rcases List.mem_cons.mp hy with rfl | hy
    · exact ⟨x, List.mem_cons_self, hz⟩
    · obtain ⟨x', hx', hf⟩ := ih hzs hy
      exact ⟨x', List.mem_cons_of_mem x hx', hf⟩

lemma mapM_eq_none_iff : xs.mapM f = none ↔ ∃ x ∈ xs, f x = none := by
  induction xs with
  | nil => simp
  | cons x xs ih =>
    rw [List.mapM_cons]
    cases hx : f x with
    | none => simp [hx]
    | some y => cases hxs : xs.mapM f <;> simp [hx, hxs, ← ih]

end

end CSecureBuild.PyLib.Containers
