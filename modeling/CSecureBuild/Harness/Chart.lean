import CSecureBuild.Harness.Stats

/-!
The numbers that `llm-eval/harness/chart_v2.py` plots, before formatting, and those that `stats.main` puts in
its report, from the same two files. The chart takes the latencies of every record and the report those of
the records of its items: the numbers are the same where the other records have none, and only there.
-/

namespace CSecureBuild.Harness.Chart

open CSecureBuild.PyLib.Containers CSecureBuild.Harness.Stats

variable {κ : Type} [DecidableEq κ]

/-! ### The chart -/

/-- What both publish of a run. -/
structure Published where
  balanced : Option ℚ
  kept : Option ℚ
  dismissed : Option ℚ
  lost : ℕ
  real : ℕ
  medianSeconds : Option ℚ
  totalMinutes : Option ℚ
  deriving DecidableEq

/-- `{r["id"]: r for r in load(path)}` -/
def byId (records : List (κ × Record)) : Dict κ Record :=
  records.foldl (fun res r => res.alter r.1 r.2 fun _ => r.2) Dict.empty

/-- `metrics`: it raises if a label has no item. -/
def metrics (items : List (Item κ)) (res : Dict κ Record) : Option Published :=
  let tp := labelled "TP" items
  let fp := labelled "FP" items
  let kept := countVerdict res "TP" tp
  let dismissed := countVerdict res "FP" fp
  let lat := latencies res
  if tp = [] ∨ fp = [] then none
  else some
    { balanced := some (50 * ((kept : ℚ) / tp.length + (dismissed : ℚ) / fp.length))
      kept := some (100 * (kept : ℚ) / tp.length)
      dismissed := some (100 * (dismissed : ℚ) / fp.length)
      lost := countVerdict res "FP" tp
      real := tp.length
      medianSeconds := median lat
      totalMinutes := minutes lat }

/-- `complete_runs`, for one file: every item has a record. -/
def completeRun (items : List (Item κ)) (records : List (κ × Record)) : Option (Dict κ Record) :=
  if ∀ i ∈ items, i.id ∈ (byId records).keys then some (byId records) else none

/-! ### The report -/

/-- The Juliet items. -/
def juliet (items : List (Item κ)) : List (Item κ) := items.filter fun i => i.source = "juliet".toList

/-- `{k: v for k, v in res.items() if k in ids}` -/
def known (items : List (Item κ)) (res : Dict κ Record) : Dict κ Record where
  entries := res.entries.filter fun e => e.1 ∈ items.map Item.id
  nodup := res.nodup.sublist (List.filter_sublist.map Prod.fst)

/-- What `stats.main` publishes of a run. -/
def report (items : List (Item κ)) (records : List (κ × Record)) : Published :=
  let first := row (juliet items) (known (juliet items) (byId records))
  let filter := filterRow (juliet items) (byId records)
  { balanced := first.balanced
    kept := first.kept
    dismissed := first.dismissed
    lost := filter.missed
    real := filter.tp
    medianSeconds := first.medianSeconds
    totalMinutes := first.totalMinutes }

/-! ### The verdicts -/

section

variable {items : List (Item κ)} {res : Dict κ Record}

omit [DecidableEq κ] in
lemma juliet_eq (h : ∀ i ∈ items, i.source = "juliet".toList) : juliet items = items :=
  List.filter_eq_self.mpr fun i hi => by simpa using h i hi

lemma get_known {k : κ} (hk : k ∈ items.map Item.id) : (known items res).get k = res.get k := by
  refine Option.ext fun r => ?_
  rw [Dict.get_eq_some_iff, Dict.get_eq_some_iff, known, List.mem_filter]
  exact and_iff_left (by simpa using hk)

lemma countVerdict_known {some_ : List (Item κ)} (hsub : some_ ⊆ items) (verdict : String) :
    countVerdict (known items res) verdict some_ = countVerdict res verdict some_ := by
  refine List.countP_congr fun i hi => ?_
  unfold verdictOf
  rw [get_known (List.mem_map_of_mem (hsub hi))]

omit [DecidableEq κ] in
lemma labelled_subset (label : String) (items : List (Item κ)) : labelled label items ⊆ items :=
  List.filter_subset_self items

end

/-! ### The latencies -/

/-- The latency of an entry, unless it is zero. -/
def latencyOf (e : κ × Record) : Option ℚ := e.2.latency.filter (· ≠ 0)

/-- No record but those of the items has a latency that is not zero. -/
def NoSurplus (items : List (Item κ)) (res : Dict κ Record) : Prop :=
  ∀ e ∈ res.entries, e.1 ∉ items.map Item.id → latencyOf e = none

instance (items : List (Item κ)) (res : Dict κ Record) : Decidable (NoSurplus items res) :=
  inferInstanceAs (Decidable (∀ e ∈ res.entries, e.1 ∉ items.map Item.id → latencyOf e = none))

/-- No latency is negative. -/
def NonNegative (res : Dict κ Record) : Prop := ∀ e ∈ res.entries, ∀ x, e.2.latency = some x → 0 ≤ x

section

variable {items : List (Item κ)} {res : Dict κ Record}

omit [DecidableEq κ] in
lemma latencies_eq (res : Dict κ Record) : latencies res = res.entries.filterMap latencyOf := by
  unfold latencies values
  rw [List.filterMap_map, List.filter_filterMap]
  rfl

lemma latencies_known (h : NoSurplus items res) : latencies (known items res) = latencies res := by
  rw [latencies_eq, latencies_eq, known, List.filterMap_filter]
  refine List.filterMap_congr fun e he => ?_
  split_ifs with hmem
  · rfl
  · exact (h e he (by simpa using hmem)).symm

/-- The latencies of the records of no item. -/
def surplus (items : List (Item κ)) (res : Dict κ Record) : List ℚ :=
  (res.entries.filter fun e => e.1 ∉ items.map Item.id).filterMap latencyOf

lemma surplus_eq_nil : surplus items res = [] ↔ NoSurplus items res := by
  unfold surplus NoSurplus
  rw [List.filterMap_eq_nil_iff]
  simp only [List.mem_filter, decide_eq_true_eq, and_imp]

/-- **The latencies are those of the items and those of the others.** -/
lemma latencies_perm (items : List (Item κ)) (res : Dict κ Record) :
    (latencies (known items res) ++ surplus items res).Perm (latencies res) := by
  have hperm := (List.filter_append_perm (fun e : κ × Record => e.1 ∈ items.map Item.id) res.entries).filterMap
    latencyOf
  rw [List.filterMap_append] at hperm
  rw [latencies_eq, latencies_eq]
  simpa only [surplus, known, decide_not] using hperm

lemma surplus_pos (h : NonNegative res) : ∀ x ∈ surplus items res, 0 < x := by
  intro x hx
  obtain ⟨e, he, hlatency⟩ := List.mem_filterMap.mp hx
  obtain ⟨hsome, hne⟩ := Option.filter_eq_some_iff.mp hlatency
  have hnonneg := h e (List.mem_of_mem_filter he) x hsome
  exact lt_of_le_of_ne hnonneg (Ne.symm (by simpa using hne))

/-- The time that others add shows in the total. -/
lemma noSurplus_of_minutes (h : NonNegative res)
    (hsame : minutes (latencies res) = minutes (latencies (known items res))) : NoSurplus items res := by
  have hperm := latencies_perm items res
  rw [← surplus_eq_nil]
  by_contra hne
  have hpos : 0 < (surplus items res).sum := List.sum_pos _ (surplus_pos h) hne
  have hsum := hperm.sum_eq
  rw [List.sum_append] at hsum
  have hall : latencies res ≠ [] := by
    intro hnil
    rw [hnil, List.perm_nil, List.append_eq_nil_iff] at hperm
    exact hne hperm.2
  unfold minutes at hsame
  rw [if_neg hall] at hsame
  split_ifs at hsame
  have heq : (latencies res).sum / 60 = (latencies (known items res)).sum / 60 := Option.some.inj hsame
  linarith

end

/-! ### Both -/

/-- The numbers of a complete run, with the latencies that are taken. -/
def published (items : List (Item κ)) (res : Dict κ Record) (lat : List ℚ) : Published :=
  let tp := labelled "TP" items
  let fp := labelled "FP" items
  let kept := countVerdict res "TP" tp
  let dismissed := countVerdict res "FP" fp
  { balanced := some (50 * ((kept : ℚ) / tp.length + (dismissed : ℚ) / fp.length))
    kept := some (100 * (kept : ℚ) / tp.length)
    dismissed := some (100 * (dismissed : ℚ) / fp.length)
    lost := countVerdict res "FP" tp
    real := tp.length
    medianSeconds := median lat
    totalMinutes := minutes lat }

section

variable {items : List (Item κ)} {records : List (κ × Record)} {res : Dict κ Record}

lemma metrics_eq (htp : labelled "TP" items ≠ []) (hfp : labelled "FP" items ≠ []) :
    metrics items res = some (published items res (latencies res)) :=
  if_neg (not_or.mpr ⟨htp, hfp⟩)

lemma pct_pos {num den : ℕ} (h : 0 < den) : pct num den = some (100 * (num : ℚ) / den) := if_neg h.ne'

lemma report_eq (hjuliet : ∀ i ∈ items, i.source = "juliet".toList) (htp : labelled "TP" items ≠ [])
    (hfp : labelled "FP" items ≠ []) (hcomplete : completeRun items records = some res) :
    report items records = published items res (latencies (known items res)) := by
  obtain ⟨hall, hres⟩ := Option.ite_none_right_eq_some.mp hcomplete
  obtain rfl : byId records = res := Option.some.inj hres
  have hanswered : (items.filter fun i => i.id ∈ (byId records).keys) = items :=
    List.filter_eq_self.mpr fun i hi => by simpa using hall i hi
  unfold report row filterRow published
  simp only [juliet_eq hjuliet, hanswered, countVerdict_known (labelled_subset _ items),
    pct_pos (List.length_pos_iff.mpr htp), pct_pos (List.length_pos_iff.mpr hfp), htp, hfp, or_self, if_false]

end

/-- **The chart and the report publish the same numbers** of a complete run on Juliet items with both labels,
but for the times: these are the same if no record but those of the items has a latency, and, if no latency is
negative, only then. -/
theorem chart_eq_report_iff {items : List (Item κ)} {records : List (κ × Record)} {res : Dict κ Record}
    (hjuliet : ∀ i ∈ items, i.source = "juliet".toList) (htp : labelled "TP" items ≠ [])
    (hfp : labelled "FP" items ≠ []) (hcomplete : completeRun items records = some res) :
    ∃ chart, metrics items res = some chart ∧
      { chart with
        medianSeconds := (report items records).medianSeconds
        totalMinutes := (report items records).totalMinutes } = report items records ∧
      (NoSurplus items res → chart = report items records) ∧
      (NonNegative res → (chart = report items records ↔ NoSurplus items res)) := by
  rw [report_eq hjuliet htp hfp hcomplete]
  have hsame : NoSurplus items res →
      published items res (latencies res) = published items res (latencies (known items res)) :=
    fun h => by rw [latencies_known h]
  refine ⟨_, metrics_eq htp hfp, rfl, hsame, fun hnonneg => ⟨fun heq => ?_, hsame⟩⟩
  exact noSurplus_of_minutes hnonneg (congrArg Published.totalMinutes heq)

/-- An item of each label. -/
def twoItems : List (Item ℕ) :=
  [⟨1, "TP".toList, "juliet".toList⟩, ⟨2, "FP".toList, "juliet".toList⟩]

/-- A record with a verdict and a latency. -/
def answer (verdict : String) (latency : ℚ) : Record := ⟨some verdict.toList, some latency, none, none⟩

/-- Records of the items. -/
def twoRecords : List (ℕ × Record) := [(1, answer "TP" 2), (2, answer "FP" 3)]

theorem chart_eq_report_iff_small : ∃ chart, metrics twoItems (byId twoRecords) = some chart ∧
    chart = report twoItems twoRecords := by
  have hcomplete : completeRun twoItems twoRecords = some (byId twoRecords) := if_pos (by decide)
  obtain ⟨chart, hchart, -, hsame, -⟩ := chart_eq_report_iff (by decide) (by decide) (by decide) hcomplete
  exact ⟨chart, hchart, hsame (by decide)⟩

/-- **A record of no item counts in the chart**, and changes the total. -/
theorem surplus_counts : ∃ res chart, completeRun twoItems ((3, answer "TP" 60) :: twoRecords) = some res ∧
    metrics twoItems res = some chart ∧
    chart.totalMinutes ≠ (report twoItems ((3, answer "TP" 60) :: twoRecords)).totalMinutes :=
  ⟨byId ((3, answer "TP" 60) :: twoRecords), _, if_pos (by decide), rfl, by decide +kernel⟩

end CSecureBuild.Harness.Chart
