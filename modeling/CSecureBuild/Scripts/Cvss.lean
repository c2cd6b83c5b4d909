import CSecureBuild.PyLib.Containers
import CSecureBuild.PyLib.Text

/-!
`scripts/cvss.py`: vectors of CVSS 3.1, and the base score of one. Numbers are those of any arithmetic,
since the score depends on the vector through the metrics only.
-/

namespace CSecureBuild.Scripts.Cvss

open CSecureBuild.PyLib.Containers

/-! ### The tables -/

/-- `PREFIX` -/
def PREFIX : List Char := "CVSS:3.1/".toList

/-- The values of a metric, with their weights. -/
abbrev Weights := List (List Char × Option ℚ)

/-- `WEIGHTS` -/
def WEIGHTS : List (List Char × Weights) :=
  [("AV".toList, [(['N'], some 0.85), (['A'], some 0.62), (['L'], some 0.55), (['P'], some 0.2)]),
    ("AC".toList, [(['L'], some 0.77), (['H'], some 0.44)]),
    ("PR".toList, [(['N'], some 0.85), (['L'], some 0.62), (['H'], some 0.27)]),
    ("UI".toList, [(['N'], some 0.85), (['R'], some 0.62)]),
    ("S".toList, [(['U'], none), (['C'], none)]),
    ("C".toList, [(['H'], some 0.56), (['L'], some 0.22), (['N'], some 0)]),
    ("I".toList, [(['H'], some 0.56), (['L'], some 0.22), (['N'], some 0)]),
    ("A".toList, [(['H'], some 0.56), (['L'], some 0.22), (['N'], some 0)])]

/-- `PR_SCOPE_CHANGED` -/
def PR_SCOPE_CHANGED : Weights := [(['N'], some 0.85), (['L'], some 0.68), (['H'], some 0.5)]

/-- The names of the metrics. -/
def names : List (List Char) := WEIGHTS.map Prod.fst

/-! ### `parse` -/

/-- What `parse` complains about. -/
inductive Complaint where
  | noPrefix (vector : List Char)
  | unknown (part : List Char)
  | twice (name : List Char)
  | badValue (value name : List Char)
  | missing (names : List (List Char))
  deriving DecidableEq

/-- The text of a complaint, with `repr` for what stands between quotes. -/
def Complaint.text (repr : List Char → List Char) : Complaint → List Char
  | .noPrefix vector => "expected the ".toList ++ PREFIX ++ " prefix: ".toList ++ vector
  | .unknown part => "unknown metric ".toList ++ repr part
  | .twice name => "metric ".toList ++ name ++ " given twice".toList
  | .badValue value name => "bad value ".toList ++ repr value ++ " for ".toList ++ name
  | .missing names => "missing metrics: ".toList ++ (", ".toList).intercalate names

/-- The exceptions: those that `parse` raises, a key that is not there, and a weight that is none. -/
inductive Raised where
  | valueError (complaint : Complaint)
  | keyError (name : List Char)
  | typeError
  deriving DecidableEq

/-- `d[k]` -/
def getItem {β : Type} (entries : List (List Char × β)) (k : List Char) : Except Raised β :=
  match entries.lookup k with
  | some b => .ok b
  | none => .error (.keyError k)

/-- `text.partition(c)` -/
def partition (c : Char) (text : List Char) : List Char × List Char × List Char :=
  match text.dropWhile (· ≠ c) with
  | [] => (text, [], [])
  | sep :: rest => (text.takeWhile (· ≠ c), [sep], rest)

/-- The metrics of a vector, in the order in which they came. -/
abbrev Metrics := Dict (List Char) (List Char)

/-- The body of the loop of `parse`. -/
def parsePart (metrics : Metrics) (part : List Char) : Except Raised Metrics :=
  let (name, sep, value) := partition ':' part
  if sep = [] ∨ name ∉ names then .error (.valueError (.unknown part))
  else if name ∈ metrics.keys then .error (.valueError (.twice name))
  else do
    let weights ← getItem WEIGHTS name
    if value ∉ weights.map Prod.fst then .error (.valueError (.badValue value name))
    else .ok (metrics.alter name value fun _ => value)

/-- The parts of a vector: `vector[len(PREFIX):].split("/")`. -/
def partsOf (vector : List Char) : List (List Char) := (vector.drop PREFIX.length).splitOn '/'

/-- `parse` -/
def parse (vector : List Char) : Except Raised Metrics :=
  if ¬ PREFIX <+: vector then .error (.valueError (.noPrefix vector))
  else do
    let metrics ← (partsOf vector).foldlM parsePart Dict.empty
    let missing := names.filter (· ∉ metrics.keys)
    if missing ≠ [] then .error (.valueError (.missing missing)) else .ok metrics

/-! ### `base_score` -/

/-- The numbers of the score, with what is done with them. -/
structure Arithmetic (R : Type) where
  lit : ℚ → R
  add : R → R → R
  sub : R → R → R
  mul : R → R → R
  pow : R → ℕ → R
  min : R → R → R
  nonpos : R → Bool
  /-- `round`, to the nearest integer -/
  round : R → ℤ
  /-- `math.floor` -/
  floor : R → ℤ
  /-- The quotient of two integers. -/
  quotient : ℤ → ℤ → R

section

variable {R : Type} (F : Arithmetic R)

/-- `roundup` -/
def roundup (value : R) : R :=
  let scaled := F.round (F.mul value (F.lit 100000))
  if scaled % 10000 = 0 then F.quotient scaled 100000
  else F.quotient (F.floor (F.quotient scaled 10000) + 1) 10

/-- A weight of a table as a number. -/
def weightIn (weights : Weights) (value : List Char) : Except Raised R := do
  match ← getItem weights value with
  | some q => .ok (F.lit q)
  | none => .error .typeError

/-- `WEIGHTS[name][m[name]]` -/
def weight (m : Metrics) (name : List Char) : Except Raised R := do
  let weights ← getItem WEIGHTS name
  let value ← getItem m.entries name
  weightIn F weights value

/-- `PR_SCOPE_CHANGED[m["PR"]] if changed else WEIGHTS["PR"][m["PR"]]` -/
def privileges (m : Metrics) (changed : Bool) : Except Raised R :=
  if changed then do
    let value ← getItem m.entries "PR".toList
    weightIn F PR_SCOPE_CHANGED value
  else weight F m "PR".toList

/-- `impact`, from the impact of the three losses. -/
def impactOf (changed : Bool) (iss : R) : R :=
  if changed then
    F.sub (F.mul (F.lit 7.52) (F.sub iss (F.lit 0.029)))
      (F.mul (F.lit 3.25) (F.pow (F.sub iss (F.lit 0.02)) 15))
  else F.mul (F.lit 6.42) iss

/-- `base_score`, behind the call of `parse`. -/
def scoreOf (m : Metrics) : Except Raised R := do
  let scope ← getItem m.entries "S".toList
  let changed := decide (scope = ['C'])
  let c ← weight F m "C".toList
  let i ← weight F m "I".toList
  let a ← weight F m "A".toList
  let kept := F.mul (F.mul (F.sub (F.lit 1) c) (F.sub (F.lit 1) i)) (F.sub (F.lit 1) a)
  let impact := impactOf F changed (F.sub (F.lit 1) kept)
  if F.nonpos impact then .ok (F.lit 0)
  else do
    let pr ← privileges F m changed
    let av ← weight F m "AV".toList
    let ac ← weight F m "AC".toList
    let ui ← weight F m "UI".toList
    let exploitability := F.mul (F.mul (F.mul (F.mul (F.lit 8.22) av) ac) pr) ui
    let sum := F.add impact exploitability
    .ok (roundup F (F.min (if changed then F.mul (F.lit 1.08) sum else sum) (F.lit 10)))

/-- `base_score` -/
def baseScore (vector : List Char) : Except Raised R := do
  let m ← parse vector
  scoreOf F m

end

/-! ### The grammar -/

/-- A metric as a part of a vector. -/
def renderPart (p : List Char × List Char) : List Char := p.1 ++ ':' :: p.2

/-- A vector with the metrics of a list, in its order. -/
def render (ps : List (List Char × List Char)) : List Char :=
  PREFIX ++ ['/'].intercalate (ps.map renderPart)

/-- A value that a metric may have. -/
def Allowed (p : List Char × List Char) : Prop :=
  ∃ weights, (p.1, weights) ∈ WEIGHTS ∧ p.2 ∈ weights.map Prod.fst

/-- **A base vector**: each metric once, in any order, with a value that it may have. -/
def BaseVector (v : List Char) : Prop :=
  ∃ ps : List (List Char × List Char), (ps.map Prod.fst).Perm names ∧ (∀ p ∈ ps, Allowed p) ∧ v = render ps

/-! ### Parts -/

lemma names_nodup : names.Nodup := by decide

lemma lookup_weights {name : List Char} {weights : Weights} :
    WEIGHTS.lookup name = some weights ↔ (name, weights) ∈ WEIGHTS :=
  lookup_eq_some_iff_mem names_nodup

lemma Allowed.mem_names {p : List Char × List Char} (h : Allowed p) : p.1 ∈ names := by
  obtain ⟨weights, hmem, -⟩ := h
  exact List.mem_map_of_mem hmem

lemma colon_notMem : ∀ name ∈ names, ':' ∉ name := by
  decide

lemma slash_notMem_tables :
    ∀ e ∈ WEIGHTS, '/' ∉ e.1 ∧ ∀ value ∈ e.2.map Prod.fst, '/' ∉ value := by
  decide

lemma slash_notMem {p : List Char × List Char} (h : Allowed p) : '/' ∉ renderPart p := by
  obtain ⟨weights, hmem, hvalue⟩ := h
  obtain ⟨hname, hvalues⟩ := slash_notMem_tables _ hmem
  unfold renderPart
  rw [List.mem_append, List.mem_cons, not_or, not_or]
  exact ⟨hname, by decide, hvalues _ hvalue⟩

lemma partition_eq {c : Char} {name : List Char} (h : c ∉ name) (value : List Char) :
    partition c (name ++ c :: value) = (name, [c], value) := by
  have hname : ∀ x ∈ name, decide (x ≠ c) = true := by
    intro x hx
    rw [decide_eq_true_eq]
    rintro rfl
    exact h hx
  unfold partition
  rw [List.dropWhile_append_of_pos hname, List.takeWhile_append_of_pos hname]
  simp

lemma eq_of_partition {c : Char} {text name sep value : List Char}
    (h : partition c text = (name, sep, value)) (hsep : sep ≠ []) : text = name ++ c :: value := by
  have htext := List.takeWhile_append_dropWhile (p := fun x => decide (x ≠ c)) (l := text)
  unfold partition at h
  cases hdrop : text.dropWhile (· ≠ c) with
  | nil =>
    rw [hdrop] at h
    cases h
    exact absurd rfl hsep
  | cons x rest =>
    -- what is left after the separator begins with it
    have hx : x = c := by
      have := List.head?_dropWhile_not (fun x => decide (x ≠ c)) text
      rw [hdrop] at this
      simpa using this
    rw [hdrop] at h htext
    simp only [Prod.mk.injEq] at h
    rw [← h.1, ← h.2.2]
    rw [hx] at htext
    exact htext.symm

lemma partition_renderPart {p : List Char × List Char} (h : Allowed p) :
    partition ':' (renderPart p) = (p.1, [':'], p.2) :=
  partition_eq (colon_notMem _ h.mem_names) p.2

/-! ### What the loop accepts -/

variable {m m' : Metrics} {part : List Char} {parts : List (List Char)}

lemma parsePart_eq {name sep value : List Char} {weights : Weights}
    (hpart : partition ':' part = (name, sep, value)) (hmem : (name, weights) ∈ WEIGHTS) :
    parsePart m part =
      if sep = [] then .error (.valueError (.unknown part))
      else if name ∈ m.keys then .error (.valueError (.twice name))
      else if value ∉ weights.map Prod.fst then .error (.valueError (.badValue value name))
      else .ok (m.alter name value fun _ => value) := by
  have hname : name ∈ names := List.mem_map.mpr ⟨_, hmem, rfl⟩
  have hget : getItem WEIGHTS name = .ok weights := by
    unfold getItem
    rw [lookup_weights.mpr hmem]
  unfold parsePart
  simp only [hpart, hname, not_true_eq_false, or_false, hget]
  rfl

/-- **One part is accepted** if it is a metric with a value that it may have, and not one of those so
far. -/
lemma parsePart_ok_iff :
    parsePart m part = .ok m' ↔ ∃ p, Allowed p ∧ part = renderPart p ∧ m'.entries = m.entries ++ [p] := by
  constructor
  · intro h
    obtain ⟨⟨name, sep, value⟩, hpart⟩ : ∃ t, partition ':' part = t := ⟨_, rfl⟩
    by_cases hname : name ∈ names
    · obtain ⟨⟨_, weights⟩, hmem, rfl⟩ := List.mem_map.mp hname
      rw [parsePart_eq hpart hmem] at h
      split_ifs at h with hsep hkey hvalue
      cases h
      exact ⟨(_, value), ⟨weights, hmem, hvalue⟩, eq_of_partition hpart hsep,
        Dict.entries_alter_fresh hkey _ _⟩
    · unfold parsePart at h
      simp only [hpart, hname, not_false_eq_true, or_true, if_true] at h
      cases h
  · rintro ⟨p, ⟨weights, hmem, hvalue⟩, rfl, hentries⟩
    have hkey : p.1 ∉ m.keys := by
      have hnodup := m'.nodup
      rw [hentries, List.map_append, List.map_singleton, List.nodup_append] at hnodup
      exact fun hmem => hnodup.2.2 _ hmem _ (List.mem_singleton_self _) rfl
    rw [parsePart_eq (partition_renderPart ⟨weights, hmem, hvalue⟩) hmem, if_neg (by simp), if_neg hkey,
      if_neg (not_not.mpr hvalue)]
    exact congrArg _ (Dict.ext_entries ((Dict.entries_alter_fresh hkey _ _).trans hentries.symm))

lemma parsePart_error {e : Raised} (h : parsePart m part = .error e) : ∃ c, e = .valueError c := by
  obtain ⟨⟨name, sep, value⟩, hpart⟩ : ∃ t, partition ':' part = t := ⟨_, rfl⟩
  by_cases hname : name ∈ names
  · obtain ⟨⟨_, weights⟩, hmem, rfl⟩ := List.mem_map.mp hname
    rw [parsePart_eq hpart hmem] at h
    split_ifs at h <;> (cases h; exact ⟨_, rfl⟩)
  · unfold parsePart at h
    simp only [hpart, hname, not_false_eq_true, or_true, if_true] at h
    cases h
    exact ⟨_, rfl⟩

/-- **The loop accepts** the parts that render metrics with their values, each metric once. -/
lemma parts_ok_iff : parts.foldlM parsePart m = .ok m' ↔
    ∃ ps, (∀ p ∈ ps, Allowed p) ∧ parts = ps.map renderPart ∧ m'.entries = m.entries ++ ps := by
  induction parts generalizing m with
  | nil =>
    constructor
    · intro h
      cases h
      exact ⟨[], by simp, rfl, by simp⟩
    · rintro ⟨ps, -, hps, hentries⟩
      rw [List.map_eq_nil_iff.mp hps.symm, List.append_nil] at hentries
      exact congrArg _ (Dict.ext_entries hentries.symm)
  | cons part parts ih =>
    rw [List.foldlM_cons]
    constructor
    · intro h
      cases hpart : parsePart m part with
      | error e =>
        rw [hpart] at h
        cases h
      | ok mid =>
        rw [hpart] at h
        obtain ⟨p, hp, rfl, hmid⟩ := parsePart_ok_iff.mp hpart
        obtain ⟨ps, hps, rfl, hentries⟩ := ih.mp h
        refine ⟨p :: ps, List.forall_mem_cons.mpr ⟨hp, hps⟩, rfl, ?_⟩
        rw [hentries, hmid, List.append_assoc]
        rfl
    · rintro ⟨ps, hps, heq, hentries⟩
      obtain ⟨p, ps, rfl, rfl, rfl⟩ := List.map_eq_cons_iff.mp heq.symm
      obtain ⟨hp, hps⟩ := List.forall_mem_cons.mp hps
      rw [List.append_cons] at hentries
      -- the keys of the result differ, so that the metric is not there yet
      have hnodup : ((m.entries ++ [p]).map Prod.fst).Nodup := by
        refine m'.nodup.sublist ?_
        rw [hentries]
        exact (List.sublist_append_left (m.entries ++ [p]) ps).map Prod.fst
      have hpart : parsePart m (renderPart p) = .ok ⟨m.entries ++ [p], hnodup⟩ :=
        parsePart_ok_iff.mpr ⟨p, hp, rfl, rfl⟩
      rw [hpart]
      exact ih.mpr ⟨ps, hps, rfl, hentries⟩

lemma parts_error {e : Raised} (h : parts.foldlM parsePart m = .error e) : ∃ c, e = .valueError c := by
  induction parts generalizing m with
  | nil => cases h
  | cons part parts ih =>
    rw [List.foldlM_cons] at h
    cases hpart : parsePart m part with
    | error e' =>
      rw [hpart] at h
      cases h
      exact parsePart_error hpart
    | ok mid =>
      rw [hpart] at h
      exact ih h

/-! ### What `parse` accepts -/

variable {v : List Char}

lemma partsOf_render {ps : List (List Char × List Char)} (hps : ∀ p ∈ ps, Allowed p) (hne : ps ≠ []) :
    partsOf (render ps) = ps.map renderPart := by
  unfold partsOf render
  rw [List.drop_left]
  refine List.splitOn_intercalate '/' ?_ (by simpa using hne)
  intro part hpart
  obtain ⟨p, hp, rfl⟩ := List.mem_map.mp hpart
  exact slash_notMem (hps p hp)

/-- Metrics of which each came with a value that it may have are complete if no name is missing. -/
lemma missing_eq_nil {m : Metrics} (h : ∀ p ∈ m.entries, Allowed p) :
    names.filter (· ∉ m.keys) = [] ↔ m.keys.Perm names := by
  rw [List.filter_eq_nil_iff]
  simp only [decide_eq_true_eq, not_not]
  constructor
  · intro hall
    refine (List.perm_ext_iff_of_nodup m.keys_nodup names_nodup).mpr fun name => ⟨fun hname => ?_, hall name⟩
    obtain ⟨p, hp, rfl⟩ := List.mem_map.mp hname
    exact (h p hp).mem_names
  · exact fun hperm name hname => hperm.mem_iff.mpr hname

lemma parse_of_loop {m : Metrics} (hv : PREFIX <+: v)
    (hloop : (partsOf v).foldlM parsePart Dict.empty = .ok m) :
    parse v = if names.filter (· ∉ m.keys) ≠ [] then
      .error (.valueError (.missing (names.filter (· ∉ m.keys)))) else .ok m := by
  unfold parse
  rw [if_neg (not_not.mpr hv), hloop]
  rfl

/-- **`parse` accepts** the vectors that render metrics with their values, and returns these. -/
lemma parse_ok_iff {m : Metrics} : parse v = .ok m ↔
    m.keys.Perm names ∧ (∀ p ∈ m.entries, Allowed p) ∧ v = render m.entries := by
  constructor
  · intro h
    have hprefix : PREFIX <+: v := by
      by_contra hno
      rw [parse, if_pos hno] at h
      cases h
    cases hloop : (partsOf v).foldlM parsePart Dict.empty with
    | error e =>
      rw [parse, if_neg (not_not.mpr hprefix), hloop] at h
      cases h
    | ok mid =>
      rw [parse_of_loop hprefix hloop] at h
      split_ifs at h with hmissing
      cases h
      obtain ⟨ps, hps, hparts, hentries⟩ := parts_ok_iff.mp hloop
      have hentries : m.entries = ps := hentries
      obtain ⟨rest, rfl⟩ := hprefix
      rw [partsOf, List.drop_left] at hparts
      refine ⟨(missing_eq_nil (hentries ▸ hps)).mp (not_not.mp hmissing), hentries ▸ hps, ?_⟩
      rw [render, hentries, ← hparts, List.intercalate_splitOn]
  · rintro ⟨hperm, hall, rfl⟩
    have hne : m.entries ≠ [] := by
      intro hnil
      have hkeys : m.keys = [] := by rw [Dict.keys, hnil, List.map_nil]
      rw [hkeys] at hperm
      exact absurd hperm.symm.eq_nil (by decide)
    have hloop : (partsOf (render m.entries)).foldlM parsePart Dict.empty = .ok m :=
      parts_ok_iff.mpr ⟨m.entries, hall, partsOf_render hall hne, rfl⟩
    have hprefix : PREFIX <+: render m.entries := List.prefix_append _ _
    rw [parse_of_loop hprefix hloop, if_neg]
    exact not_not.mpr ((missing_eq_nil hall).mpr hperm)

lemma exists_parse_iff : (∃ m, parse v = .ok m) ↔ BaseVector v := by
  constructor
  · rintro ⟨m, hm⟩
    exact ⟨m.entries, parse_ok_iff.mp hm⟩
  · rintro ⟨ps, hperm, hall, hv⟩
    exact ⟨⟨ps, hperm.nodup_iff.mpr names_nodup⟩, parse_ok_iff.mpr ⟨hperm, hall, hv⟩⟩

/-- **Whatever `parse` raises is a `ValueError`.** -/
lemma parse_error {e : Raised} (h : parse v = .error e) : ∃ c, e = .valueError c := by
  by_cases hprefix : PREFIX <+: v
  · cases hloop : (partsOf v).foldlM parsePart Dict.empty with
    | error e' =>
      rw [parse, if_neg (not_not.mpr hprefix), hloop] at h
      cases h
      exact parts_error hloop
    | ok m =>
      rw [parse_of_loop hprefix hloop] at h
      split_ifs at h
      cases h
      exact ⟨_, rfl⟩
  · rw [parse, if_pos hprefix] at h
    cases h
    exact ⟨_, rfl⟩

lemma partsOf_of_parse {m : Metrics} (h : parse v = .ok m) : partsOf v = m.entries.map renderPart := by
  obtain ⟨hperm, hall, rfl⟩ := parse_ok_iff.mp h
  refine partsOf_render hall fun hnil => ?_
  rw [Dict.keys, hnil] at hperm
  exact absurd hperm.symm.eq_nil (by decide)

/-! ### The order of the metrics -/

/-- What a part says. -/
def readPart (part : List Char) : List Char × List Char :=
  ((partition ':' part).1, (partition ':' part).2.2)

lemma readPart_renderPart {p : List Char × List Char} (h : Allowed p) : readPart (renderPart p) = p := by
  rw [readPart, partition_renderPart h]

lemma entries_of_parse {m : Metrics} (h : parse v = .ok m) : m.entries = (partsOf v).map readPart := by
  rw [partsOf_of_parse h, List.map_map]
  refine (List.map_id _).symm.trans (List.map_congr_left fun p hp => ?_)
  exact (readPart_renderPart ((parse_ok_iff.mp h).2.1 p hp)).symm

lemma get_of_perm {v' : List Char} {m m' : Metrics} (h : parse v = .ok m) (h' : parse v' = .ok m')
    (hperm : (partsOf v).Perm (partsOf v')) (name : List Char) : m.get name = m'.get name := by
  refine Dict.get_eq_of_perm ?_ name
  rw [entries_of_parse h, entries_of_parse h']
  exact hperm.map readPart

section

variable {R : Type} (F : Arithmetic R)

lemma lookup_eq_get (m : Metrics) (name : List Char) : m.entries.lookup name = m.get name :=
  Option.ext fun _ => (lookup_eq_some_iff_mem m.nodup).trans Dict.get_eq_some_iff.symm

lemma getItem_congr {m m' : Metrics} (h : ∀ name, m.get name = m'.get name) (name : List Char) :
    getItem m.entries name = getItem m'.entries name := by
  unfold getItem
  rw [lookup_eq_get, lookup_eq_get, h]

/-- **The score depends on the map only.** -/
lemma scoreOf_congr {m m' : Metrics} (h : ∀ name, m.get name = m'.get name) : scoreOf F m = scoreOf F m' := by
  have hweight : ∀ name, weight F m name = weight F m' name := fun name => by
    unfold weight
    rw [getItem_congr h]
  have hprivileges : ∀ changed, privileges F m changed = privileges F m' changed := fun changed => by
    unfold privileges
    rw [getItem_congr h, hweight]
  unfold scoreOf
  simp only [getItem_congr h, hweight, hprivileges]

/-! ### The score of a base vector -/

variable {m : Metrics}

lemma getItem_of_mem {β : Type} {entries : List (List Char × β)} (h : (entries.map Prod.fst).Nodup)
    {name : List Char} {b : β} (hmem : (name, b) ∈ entries) : getItem entries name = .ok b := by
  unfold getItem
  rw [(lookup_eq_some_iff_mem h).mpr hmem]

lemma exists_value (hperm : m.keys.Perm names) (hall : ∀ p ∈ m.entries, Allowed p) {name : List Char}
    {weights : Weights} (hmem : (name, weights) ∈ WEIGHTS) :
    ∃ value ∈ weights.map Prod.fst, getItem m.entries name = .ok value := by
  have hname : name ∈ m.keys := hperm.mem_iff.mpr (List.mem_map.mpr ⟨_, hmem, rfl⟩)
  obtain ⟨⟨_, value⟩, hp, rfl⟩ := List.mem_map.mp hname
  obtain ⟨weights', hmem', hvalue⟩ := hall _ hp
  have hsame : weights' = weights :=
    Option.some.inj ((lookup_weights.mpr hmem').symm.trans (lookup_weights.mpr hmem))
  exact ⟨value, hsame ▸ hvalue, getItem_of_mem m.nodup hp⟩

/-- The values of a table of weights all have one. -/
def Weighted (weights : Weights) : Prop :=
  (weights.map Prod.fst).Nodup ∧ ∀ e ∈ weights, e.2.isSome = true

lemma weightIn_ok {weights : Weights} (hw : Weighted weights) {value : List Char}
    (hvalue : value ∈ weights.map Prod.fst) : ∃ w, weightIn F weights value = .ok w := by
  obtain ⟨⟨_, q⟩, he, rfl⟩ := List.mem_map.mp hvalue
  obtain ⟨q, rfl⟩ := Option.isSome_iff_exists.mp (hw.2 _ he)
  refine ⟨F.lit q, ?_⟩
  unfold weightIn
  rw [getItem_of_mem hw.1 he]
  rfl

lemma weighted_tables : Weighted PR_SCOPE_CHANGED ∧ ∀ e ∈ WEIGHTS, e.1 ≠ "S".toList → Weighted e.2 := by
  unfold Weighted
  decide

lemma weight_ok (hperm : m.keys.Perm names) (hall : ∀ p ∈ m.entries, Allowed p) {name : List Char}
    (hname : name ∈ names) (hscope : name ≠ "S".toList) : ∃ w, weight F m name = .ok w := by
  obtain ⟨⟨_, weights⟩, hmem, rfl⟩ := List.mem_map.mp hname
  obtain ⟨value, hvalue, hget⟩ := exists_value hperm hall hmem
  obtain ⟨w, hw⟩ := weightIn_ok F (weighted_tables.2 _ hmem hscope) hvalue
  refine ⟨w, ?_⟩
  unfold weight
  rw [getItem_of_mem names_nodup hmem, hget]
  exact hw

lemma privileges_ok (hperm : m.keys.Perm names) (hall : ∀ p ∈ m.entries, Allowed p) (changed : Bool) :
    ∃ w, privileges F m changed = .ok w := by
  unfold privileges
  cases changed with
  | false => exact weight_ok F hperm hall (by decide) (by decide)
  | true =>
    have hmem : ("PR".toList, [(['N'], some 0.85), (['L'], some 0.62), (['H'], some 0.27)]) ∈ WEIGHTS := by
      simp [WEIGHTS]
    obtain ⟨value, hvalue, hget⟩ := exists_value hperm hall hmem
    obtain ⟨w, hw⟩ := weightIn_ok F weighted_tables.1 hvalue
    refine ⟨w, ?_⟩
    rw [if_pos rfl, hget]
    exact hw

/-- **A base vector has a score.** -/
lemma scoreOf_ok (hperm : m.keys.Perm names) (hall : ∀ p ∈ m.entries, Allowed p) :
    ∃ score, scoreOf F m = .ok score := by
  have hmem : ("S".toList, [(['U'], none), (['C'], none)]) ∈ WEIGHTS := by simp [WEIGHTS]
  obtain ⟨scope, -, hscope⟩ := exists_value hperm hall hmem
  obtain ⟨c, hc⟩ := weight_ok F hperm hall (show "C".toList ∈ names by decide) (by decide)
  obtain ⟨i, hi⟩ := weight_ok F hperm hall (show "I".toList ∈ names by decide) (by decide)
  obtain ⟨a, ha⟩ := weight_ok F hperm hall (show "A".toList ∈ names by decide) (by decide)
  obtain ⟨av, hav⟩ := weight_ok F hperm hall (show "AV".toList ∈ names by decide) (by decide)
  obtain ⟨ac, hac⟩ := weight_ok F hperm hall (show "AC".toList ∈ names by decide) (by decide)
  obtain ⟨ui, hui⟩ := weight_ok F hperm hall (show "UI".toList ∈ names by decide) (by decide)
  obtain ⟨pr, hpr⟩ := privileges_ok F hperm hall (decide (scope = ['C']))
  have hbind : ∀ {β γ : Type} (b : β) (f : β → Except Raised γ), (Except.ok b >>= f) = f b :=
    fun _ _ => rfl
  unfold scoreOf
  simp only [hscope, hc, hi, ha, hav, hac, hui, hpr, hbind]
  split_ifs <;> exact ⟨_, rfl⟩

end

/-- **`parse` accepts exactly the base vectors**, and raises a `ValueError` for every other string. The
map that it returns renders to the vector, part by part, and neither the map nor the score depends on the
order of the parts. -/
theorem parse_exact {R : Type} (F : Arithmetic R) :
    (∀ v, (∃ m, parse v = .ok m) ↔ BaseVector v) ∧
    (∀ v, ¬ BaseVector v → ∃ c, parse v = .error (.valueError c)) ∧
    (∀ v m, parse v = .ok m → partsOf v = m.entries.map renderPart ∧ render m.entries = v) ∧
    ∀ v v' m m', parse v = .ok m → parse v' = .ok m' → (partsOf v).Perm (partsOf v') →
      (∀ name, m.get name = m'.get name) ∧
      ∃ score, baseScore F v = .ok score ∧ baseScore F v' = .ok score := by
  refine ⟨fun v => exists_parse_iff, fun v hv => ?_,
    fun v m hm => ⟨partsOf_of_parse hm, (parse_ok_iff.mp hm).2.2.symm⟩, fun v v' m m' hm hm' hperm => ?_⟩
  · cases hparse : parse v with
    | ok m => exact absurd (exists_parse_iff.mp ⟨m, hparse⟩) hv
    | error e =>
      obtain ⟨c, rfl⟩ := parse_error hparse
      exact ⟨c, rfl⟩
  · have hget := get_of_perm hm hm' hperm
    obtain ⟨hkeys, hall, -⟩ := parse_ok_iff.mp hm
    obtain ⟨score, hscore⟩ := scoreOf_ok F hkeys hall
    refine ⟨hget, score, ?_, ?_⟩
    · rw [baseScore, hm]
      exact hscore
    · rw [baseScore, hm']
      exact (scoreOf_congr F hget).symm.trans hscore

end CSecureBuild.Scripts.Cvss
