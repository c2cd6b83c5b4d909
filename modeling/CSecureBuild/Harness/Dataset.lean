import CSecureBuild.Harness.Prompt
import CSecureBuild.Lib.Rounding

/-!
The v2 data as a whole: `cmd_sample` of `llm-eval/harness/build_v2.py`, which splits the families of the Juliet
suite (`sample_shares`), and what `cmd_items` makes of the work directory. No look-up of `cmd_items` can fail on
such a directory (`items_of_sample`); what is written has every key once, and no family in both parts
(`data_split`); and each label is backed by the name of the function and the marker that `marker_above` finds
(`label_backed`).
-/

namespace CSecureBuild.Harness.Dataset

open CSecureBuild.PyLib.Cells CSecureBuild.PyLib.Text CSecureBuild.PyLib.Containers
open CSecureBuild.Lib.Rounding CSecureBuild.Lib.FirstCome CSecureBuild.Harness.Scrub
open CSecureBuild.Harness.Items CSecureBuild.Harness.Markers CSecureBuild.Harness.Select
open CSecureBuild.Harness.Builder CSecureBuild.Harness.ReadingOrder CSecureBuild.Harness.Prompt
open CSecureBuild.Harness.LabelWords (turkish)

/-! ### `cmd_sample` -/

/-- `JULIET_DIRS`: the CWEs, with their directories. -/
def JULIET_DIRS : List (List Char × List Char) :=
  [("121".toList, "CWE121_Stack_Based_Buffer_Overflow".toList),
    ("122".toList, "CWE122_Heap_Based_Buffer_Overflow".toList),
    ("134".toList, "CWE134_Uncontrolled_Format_String".toList),
    ("190".toList, "CWE190_Integer_Overflow".toList), ("415".toList, "CWE415_Double_Free".toList),
    ("416".toList, "CWE416_Use_After_Free".toList), ("78".toList, "CWE78_OS_Command_Injection".toList)]

/-- A C file of the suite. -/
structure JulietFile where
  name : List Char
  text : List Char

/-- The suite: the C files below each directory, in the order of their paths. -/
abbrev Suite := List Char → List JulietFile

/-- The files of a directory that are taken. -/
def filesOf (suite : Suite) (dirname : List Char) : List JulietFile :=
  (suite dirname).filter fun p => (find "w32".toList p.name).isNone && (FLOW.search p.name).isSome

/-- `sorted({family(p) for p in files})` -/
def families (files : List JulietFile) : List (List Char) := sorted (files.map fun p => family p.name).dedup

/-- `max(1, round(n * TEST_SHARE))` -/
def testShare (n : ℕ) : ℕ := max 1 (roundEven ((n : ℚ) / 4)).toNat

/-- What `cmd_sample` leaves: `split.json`, and the files in the directory of each CWE. -/
structure Sample where
  split : Dict (List Char) Split
  files : List Char → Dict (List Char) (List Char)

/-- The part of a family, by its place among the shuffled ones. -/
def partOf (nTest i : ℕ) : Split := if i < nTest then .test else .train

/-- `split[fam] = …`, for the families of a CWE. -/
def assign (split : Dict (List Char) Split) (fams : List (List Char)) : Dict (List Char) Split :=
  fams.zipIdx.foldl (fun split p => split.alter p.1 (partOf (testShare fams.length) p.2)
    fun _ => partOf (testShare fams.length) p.2) split

/-- The copies of some files, of which the last with a name stays. -/
def copies (files : List JulietFile) : Dict (List Char) (List Char) :=
  Dict.ofItems (files.map fun p => (p.name, p.text))

/-- The body of the loop of `cmd_sample`. -/
def sampleDir (suite : Suite) (rng : List Char → Shuffle) (s : Sample) (d : List Char × List Char) : Sample where
  split := assign s.split (shuffle (rng d.1) [] (families (filesOf suite d.2))).2
  files := Function.update s.files d.1 (copies (filesOf suite d.2))

/-- `cmd_sample` -/
def cmdSample (suite : Suite) (rng : List Char → Shuffle) : Sample :=
  JULIET_DIRS.foldl (sampleDir suite rng) ⟨Dict.empty, fun _ => Dict.empty⟩

/-- Where the URI of a report leads: a name in the directory of a CWE, and the path there from the work
directory. There is none if the URI is absolute and the work directory is no part of it as it is written: then
`relative_to` raises. -/
structure Target where
  cwe : List Char
  name : List Char
  relative : Option (List Char)

/-- The work directory with a sample. A URI leads to a name in the directory of a CWE, or to nothing. -/
def Sample.work (s : Sample) (resolve : List Char → Option Target) : Work where
  file uri := (resolve uri).bind fun target => ((s.files target.cwe).get target.name).map fun text =>
    { name := target.name
      dir := target.cwe
      relative := target.relative
      text }
  split := s.split.get

/-! ### What is written -/

/-- An item with its id. -/
structure Row where
  id : List Char
  item : Item

/-- The label of an item. -/
def labelOf (it : Item) : Label := if it.stratum = .tp then .tp else .fp

/-- `f"t2-{i:03d}"` -/
def testId (i : ℕ) : List Char := "t2-".toList ++ (toString i).toList.leftpad 3 '0'

/-- The rows of `test.jsonl`. -/
def testRows (test : List Item) : List Row := test.zipIdx.map fun p => ⟨testId (p.2 + 1), p.1⟩

/-- The rows of `train.jsonl`; `digest` gives the first digits of the hash of a key. -/
def trainRows (digest : List Char → List Char) (train : List Item) : List Row :=
  train.map fun it => ⟨"tr-".toList ++ digest it.key, it⟩

/-! ### The split -/

section

variable {split : Dict (List Char) Split} {fams : List (List Char)} {fam : List Char}

/-- Assigning parts to some families, of which each comes once. -/
lemma get_assign_from {n k : ℕ} (hnodup : fams.Nodup) :
    ((fams.zipIdx k).foldl (fun split p => split.alter p.1 (partOf n p.2) fun _ => partOf n p.2) split).get fam =
      if fam ∈ fams then some (partOf n (fams.idxOf fam + k)) else split.get fam := by
  induction fams generalizing split k with
  | nil => simp
  | cons f fams ih =>
    obtain ⟨hf, hnodup⟩ := List.nodup_cons.mp hnodup
    rw [List.zipIdx_cons, List.foldl_cons, ih hnodup, Dict.get_alter]
    by_cases hmem : fam ∈ fams
    · have hne : f ≠ fam := fun h => hf (h ▸ hmem)
      rw [if_pos hmem, if_pos (List.mem_cons_of_mem _ hmem), List.idxOf_cons_ne _ hne]
      congr 2
      omega
    · rw [if_neg hmem]
      by_cases heq : fam = f
      · rw [if_pos heq, if_pos (by simp [heq]), heq, List.idxOf_cons_self, Nat.zero_add]
      · rw [if_neg heq, if_neg (by simp [heq, hmem])]

lemma get_assign (hnodup : fams.Nodup) : (assign split fams).get fam =
    if fam ∈ fams then some (partOf (testShare fams.length) (fams.idxOf fam)) else split.get fam :=
  get_assign_from hnodup

variable {suite : Suite} {rng : List Char → Shuffle} {s : Sample} {d : List Char × List Char}

lemma nodup_families (files : List JulietFile) : (families files).Nodup :=
  (List.nodup_dedup _).perm (List.mergeSort_perm _ _).symm

lemma mem_families {files : List JulietFile} : fam ∈ families files ↔ ∃ p ∈ files, family p.name = fam := by
  unfold families
  rw [mem_sorted, List.mem_dedup, List.mem_map]

lemma get_copies {files : List JulietFile} {name : List Char} :
    ((copies files).get name).isSome = true ↔ ∃ p ∈ files, p.name = name := by
  simp [copies, Dict.get_ofItems, eq_comm (a := name)]

/-- What holds between the directories: the files are those of directories that were read, with the number of
a flow, and each has a part. -/
structure Sample.Sound (s : Sample) (dirs : List (List Char × List Char)) : Prop where
  dir : ∀ cwe name, ((s.files cwe).get name).isSome = true → cwe ∈ dirs.map Prod.fst
  flow : ∀ cwe name, ((s.files cwe).get name).isSome = true → (FLOW.search name).isSome = true
  part : ∀ cwe name, ((s.files cwe).get name).isSome = true → (s.split.get (family name)).isSome = true

lemma mem_shuffled {rng : Shuffle} {files : List JulietFile} :
    fam ∈ (shuffle rng [] (families files)).2 ↔ ∃ p ∈ files, family p.name = fam :=
  (shuffle_perm rng [] _).mem_iff.trans mem_families

lemma nodup_shuffled (rng : Shuffle) (files : List JulietFile) : (shuffle rng [] (families files)).2.Nodup :=
  (shuffle_perm rng [] _).nodup_iff.mpr (nodup_families files)

lemma mem_filesOf {dirname : List Char} {p : JulietFile} (h : p ∈ filesOf suite dirname) :
    (FLOW.search p.name).isSome = true := by
  have := (List.mem_filter.mp h).2
  rw [Bool.and_eq_true] at this
  exact this.2

/-- **One directory**: its files are copied, and every family of theirs gets a part. -/
lemma sound_sampleDir {dirs : List (List Char × List Char)} (h : s.Sound dirs) :
    (sampleDir suite rng s d).Sound (dirs ++ [d]) := by
  have hkept : ∀ fam, (s.split.get fam).isSome = true → ((sampleDir suite rng s d).split.get fam).isSome = true := by
    intro fam hfam
    unfold sampleDir
    rw [get_assign (nodup_shuffled _ _)]
    split_ifs
    · rfl
    · exact hfam
  have hfiles : ∀ cwe name, (((sampleDir suite rng s d).files cwe).get name).isSome = true →
      (cwe = d.1 ∧ ∃ p ∈ filesOf suite d.2, p.name = name) ∨ ((s.files cwe).get name).isSome = true := by
    intro cwe name hname
    by_cases hcwe : cwe = d.1
    · subst hcwe
      simp only [sampleDir, Function.update_self] at hname
      exact .inl ⟨rfl, get_copies.mp hname⟩
    · simp only [sampleDir, Function.update_of_ne hcwe] at hname
      exact .inr hname
  refine ⟨fun cwe name hname => ?_, fun cwe name hname => ?_, fun cwe name hname => ?_⟩
  · rw [List.map_append, List.mem_append]
    rcases hfiles cwe name hname with ⟨rfl, -⟩ | hold
    · exact .inr (List.mem_singleton_self _)
    · exact .inl (h.dir cwe name hold)
  · rcases hfiles cwe name hname with ⟨-, p, hp, rfl⟩ | hold
    · exact mem_filesOf hp
    · exact h.flow cwe name hold
  · rcases hfiles cwe name hname with ⟨-, p, hp, rfl⟩ | hold
    · simp only [sampleDir]
      rw [get_assign (nodup_shuffled _ _), if_pos (mem_shuffled.mpr ⟨p, hp, rfl⟩)]
      rfl
    · exact hkept _ (h.part cwe name hold)

/-- **A sample** has files of the suite only, each of which has a part. -/
theorem sound_cmdSample (suite : Suite) (rng : List Char → Shuffle) : (cmdSample suite rng).Sound JULIET_DIRS := by
  have hrun : ∀ (todo done : List (List Char × List Char)) (s : Sample), s.Sound done →
      (todo.foldl (sampleDir suite rng) s).Sound (done ++ todo) := by
    intro todo
    induction todo with
    | nil => exact fun done s h => by simpa using h
    | cons d todo ih =>
      intro done s h
      have hstep : (sampleDir suite rng s d).Sound (done ++ [d]) := sound_sampleDir h
      have := ih (done ++ [d]) _ hstep
      rwa [List.append_assoc, List.singleton_append] at this
  exact hrun JULIET_DIRS [] _ ⟨by simp, by simp, by simp⟩

lemma countP_idxOf_lt {names : List (List Char)} (hnodup : names.Nodup) (n : ℕ) :
    names.countP (fun name => names.idxOf name < n) = min n names.length := by
  have hdisjoint : List.Disjoint (names.take n) (names.drop n) :=
    List.disjoint_of_nodup_append (by rwa [List.take_append_drop])
  have htake : (names.take n).countP (fun name => names.idxOf name < n) = (names.take n).length := by
    rw [List.countP_eq_length]
    intro name hname
    simpa using (List.mem_take_iff_idxOf_lt (List.mem_of_mem_take hname)).mp hname
  have hdrop : (names.drop n).countP (fun name => names.idxOf name < n) = 0 := by
    rw [List.countP_eq_zero]
    intro name hname hlt
    exact hdisjoint ((List.mem_take_iff_idxOf_lt (List.mem_of_mem_drop hname)).mpr (by simpa using hlt)) hname
  calc names.countP (fun name => names.idxOf name < n)
      = (names.take n ++ names.drop n).countP (fun name => names.idxOf name < n) := by rw [List.take_append_drop]
    _ = (names.take n).length := by rw [List.countP_append, htake, hdrop, Nat.add_zero]
    _ = min n names.length := List.length_take

lemma one_le_testShare (n : ℕ) : 1 ≤ testShare n := le_max_left _ _

/-- A quarter, rounded. -/
lemma testShare_near {n : ℕ} (hn : 2 ≤ n) : n ≤ 4 * testShare n + 2 ∧ 4 * testShare n ≤ n + 2 := by
  have hround := abs_le.mp (abs_roundEven_sub_le ((n : ℚ) / 4))
  have hpos : 0 ≤ roundEven ((n : ℚ) / 4) :=
    (Int.floor_nonneg.mpr (by positivity)).trans (floor_le_roundEven _)
  have hcast : ((roundEven ((n : ℚ) / 4)).toNat : ℚ) = roundEven ((n : ℚ) / 4) := by
    exact_mod_cast Int.toNat_of_nonneg hpos
  have hlow : (n : ℚ) ≤ 4 * (roundEven ((n : ℚ) / 4)).toNat + 2 := by
    rw [hcast]
    linarith
  have hhigh : 4 * ((roundEven ((n : ℚ) / 4)).toNat : ℚ) ≤ n + 2 := by
    rw [hcast]
    linarith
  have hlow' : n ≤ 4 * (roundEven ((n : ℚ) / 4)).toNat + 2 := by exact_mod_cast hlow
  have hhigh' : 4 * (roundEven ((n : ℚ) / 4)).toNat ≤ n + 2 := by exact_mod_cast hhigh
  unfold testShare
  omega

/-- The families of the directories are told apart. -/
def Apart (suite : Suite) : Prop := JULIET_DIRS.Pairwise fun d d' =>
  List.Disjoint (families (filesOf suite d.2)) (families (filesOf suite d'.2))

/-- **The part of a family** is what its directory gave it, where no later one has the family. -/
lemma get_cmdSample (hapart : Apart suite) (hd : d ∈ JULIET_DIRS) (hfam : fam ∈ families (filesOf suite d.2)) :
    (cmdSample suite rng).split.get fam =
      some (partOf (testShare (families (filesOf suite d.2)).length)
        ((shuffle (rng d.1) [] (families (filesOf suite d.2))).2.idxOf fam)) := by
  have hlater : ∀ (todo : List (List Char × List Char)) (s : Sample),
      (∀ d' ∈ todo, fam ∉ families (filesOf suite d'.2)) →
      (todo.foldl (sampleDir suite rng) s).split.get fam = s.split.get fam := by
    intro todo
    induction todo with
    | nil => exact fun s _ => rfl
    | cons d' todo ih =>
      intro s h
      rw [List.foldl_cons, ih _ fun d'' hd'' => h d'' (List.mem_cons_of_mem _ hd'')]
      simp only [sampleDir]
      rw [get_assign (nodup_shuffled _ _), if_neg]
      rw [mem_shuffled, ← mem_families]
      exact h d' List.mem_cons_self
  obtain ⟨done, todo, hdirs⟩ := List.append_of_mem hd
  have hnot : ∀ d' ∈ todo, fam ∉ families (filesOf suite d'.2) := by
    intro d' hd' hfam'
    unfold Apart at hapart
    rw [hdirs] at hapart
    exact (List.pairwise_cons.mp (List.pairwise_append.mp hapart).2.1).1 d' hd' hfam hfam'
  unfold cmdSample
  rw [hdirs, List.foldl_append, List.foldl_cons, hlater todo _ hnot]
  simp only [sampleDir]
  rw [get_assign (nodup_shuffled _ _), if_pos (mem_shuffled.mpr (mem_families.mp hfam)),
    (shuffle_perm _ _ _).length_eq]

/-- **The shares of a sample**: in a directory whose families no other has, as many families as its test share
says are for the test. There is one at least, and one that is not if there are two families; and it is a quarter
of them, rounded. -/
theorem sample_shares (suite : Suite) (rng : List Char → Shuffle) (hapart : Apart suite)
    (d : List Char × List Char) (hd : d ∈ JULIET_DIRS) :
    let fams := families (filesOf suite d.2)
    let split := (cmdSample suite rng).split.get
    let nTest := fams.countP fun fam => split fam = some .test
    (∀ fam ∈ fams, split fam = some .test ∨ split fam = some .train) ∧
      (fams ≠ [] → 1 ≤ nTest) ∧
      (2 ≤ fams.length → nTest < fams.length ∧ fams.length ≤ 4 * nTest + 2 ∧ 4 * nTest ≤ fams.length + 2) := by
  intro fams split nTest
  have hsplit : ∀ fam ∈ fams, split fam = some (partOf (testShare fams.length)
      ((shuffle (rng d.1) [] fams).2.idxOf fam)) := fun fam hfam => get_cmdSample hapart hd hfam
  have hperm : (shuffle (rng d.1) [] fams).2.Perm fams := shuffle_perm _ _ _
  have hcount : nTest = min (testShare fams.length) fams.length := by
    calc nTest
        = fams.countP fun fam => (shuffle (rng d.1) [] fams).2.idxOf fam < testShare fams.length := by
          refine List.countP_congr fun fam hfam => ?_
          rw [hsplit fam hfam]
          unfold partOf
          split_ifs with hlt <;> simp [hlt]
      _ = (shuffle (rng d.1) [] fams).2.countP
            fun fam => (shuffle (rng d.1) [] fams).2.idxOf fam < testShare fams.length :=
          (hperm.countP_eq _).symm
      _ = min (testShare fams.length) fams.length := by
          rw [countP_idxOf_lt (nodup_shuffled _ _), hperm.length_eq]
  refine ⟨fun fam hfam => ?_, fun hne => ?_, fun htwo => ?_⟩
  · rw [hsplit fam hfam]
    unfold partOf
    split_ifs <;> simp
  · have := List.length_pos_iff.mpr hne
    have := one_le_testShare fams.length
    omega
  · have := testShare_near htwo
    omega

/-- A suite with two files of one family and one of another. -/
def smallSuite : Suite := fun dirname =>
  if dirname = "CWE121_Stack_Based_Buffer_Overflow".toList then
    [⟨"a_01.c".toList, []⟩, ⟨"a_02.c".toList, []⟩, ⟨"b_01.c".toList, []⟩]
  else []

lemma families_smallSuite : families (filesOf smallSuite "CWE121_Stack_Based_Buffer_Overflow".toList) =
    ["a".toList, "b".toList] := by
  have hnames : ((filesOf smallSuite "CWE121_Stack_Based_Buffer_Overflow".toList).map fun p => family p.name).dedup =
      ["a".toList, "b".toList] := by decide +kernel
  unfold families sorted
  rw [hnames]
  exact List.mergeSort_of_pairwise (by decide)

lemma apart_smallSuite : Apart smallSuite := by
  have hempty : ∀ d ∈ JULIET_DIRS.tail, smallSuite d.2 = [] := by
    have hothers : "CWE121_Stack_Based_Buffer_Overflow".toList ∉ JULIET_DIRS.tail.map Prod.snd := by decide +kernel
    intro d hd
    refine if_neg fun h : d.2 = _ => hothers ?_
    rw [← h]
    exact List.mem_map_of_mem hd
  unfold Apart
  refine List.pairwise_iff_forall_sublist.mpr fun {d d'} hsub fam _ hfam => ?_
  have hd' : d' ∈ JULIET_DIRS.tail := hsub.tail.subset (List.mem_singleton_self _)
  obtain ⟨p, hp, -⟩ := mem_families.mp hfam
  have := (List.mem_filter.mp hp).1
  rw [hempty d' hd'] at this
  cases this

/-- Of two families one is for the test. -/
theorem sample_shares_two :
    (families (filesOf smallSuite "CWE121_Stack_Based_Buffer_Overflow".toList)).countP
      (fun fam => (cmdSample smallSuite fun _ _ _ => Equiv.refl _).split.get fam = some .test) = 1 := by
  obtain ⟨-, hone, htwo⟩ := sample_shares smallSuite (fun _ _ _ => Equiv.refl _)
    apart_smallSuite ("121".toList, "CWE121_Stack_Based_Buffer_Overflow".toList) (by decide)
  have hlen : (families (filesOf smallSuite "CWE121_Stack_Based_Buffer_Overflow".toList)).length = 2 := by
    rw [families_smallSuite]
    rfl
  have hlower := hone (by rw [families_smallSuite]; exact List.cons_ne_nil _ _)
  have hupper := (htwo hlen.ge).1
  rw [hlen] at hupper
  exact le_antisymm (Nat.le_of_lt_succ hupper) hlower

end

/-! ### What becomes of a finding -/

section

variable {u : Unicode} {work : Work} {rng : List Char → ℕ → Fin SYLLABLES.length} {tries : ℕ}

/-- The line of a finding is in a function that is in no split flow, whose name has a label, in a file of a
CWE; and this is the marker above it, and what kind of finding it is. -/
structure Judged (u : Unicode) (work : Work) (f : Finding) (file : SourceFile) (func : Function) (label : Label)
    (inFamily : Bool) (marker : Option (List Char)) (stratum : Stratum) : Prop where
  found : work.file f.uri = some file
  mem : func ∈ functionSpans u file.text
  line : func.start ≤ f.startLine ∧ f.startLine ≤ func.end_
  name : julietLabel u func.name = some label
  whole : splitFlow u func.name (bodyOf (splitlinesKeep file.text) func) = false
  target : ∃ target, TARGET_FAMILY.lookup file.dir = some target ∧ inFamily = f.ruleCwes.any (· ∈ target)
  above : marker = markerAbove u (splitlinesKeep file.text) (f.startLine - 1) (func.start - 1)
  kind : classify u label inFamily marker ((splitlinesKeep file.text).getD (f.startLine - 1) []) = some stratum

/-- **What gets as far** was judged. -/
lemma judged_of_reached {f : Finding} {key : List Char} {fate : Fate}
    (h : judge u work rng tries f = .reached key fate) :
    ∃ file func label inFamily marker stratum, Judged u work f file func label inFamily marker stratum ∧
      key = keyOf file f ∧ fate = fateOf u work rng tries file func stratum f := by
  unfold judge at h
  split at h
  · cases h
  next file hfile =>
    unfold judgeIn at h
    simp only at h
    split at h
    · cases h
    next func hfunc =>
      split at h
      · cases h
      next label hlabel =>
        split at h
        · cases h
        next hwhole =>
          split at h
          · cases h
          next target htarget =>
            split at h
            · cases h
            next stratum hstratum =>
              cases h
              have hline := List.find?_some hfunc
              rw [Bool.and_eq_true, decide_eq_true_eq, decide_eq_true_eq] at hline
              exact ⟨file, func, label, _, _, stratum, ⟨hfile, List.mem_of_find?_eq_some hfunc, hline, hlabel,
                by simpa using hwhole, ⟨target, htarget, rfl⟩, rfl, hstratum⟩, rfl, rfl⟩

lemma kept_of_fateOf {file : SourceFile} {func : Function} {stratum : Stratum} {f : Finding} {part : Split}
    {item : Item} (h : fateOf u work rng tries file func stratum f = .kept part item) :
    work.split item.family = some part ∧ item.stratum = stratum ∧ item.cwe = file.dir ∧
      item.family = family file.name := by
  unfold fateOf at h
  simp only at h
  split at h
  · cases h
  split_ifs at h
  split at h
  next hsplit _ =>
    cases h
    exact ⟨hsplit, rfl, rfl, rfl⟩
  · cases h

/-- The look-ups of a finding that is judged do not fail, and a name is found whenever one is drawn. -/
def Found (u : Unicode) (work : Work) (rng : List Char → ℕ → Fin SYLLABLES.length) (tries : ℕ)
    (f : Finding) : Prop :=
  ∀ file, work.file f.uri = some file → (TARGET_FAMILY.lookup file.dir).isSome = true ∧
    (work.split (family file.name)).isSome = true ∧ file.relative.isSome = true ∧
    ∀ func ∈ functionSpans u file.text, promptCode u (rng (keyOf file f)) tries
      (preambleOf u (functionSpans u file.text) (splitlinesKeep file.text))
      (bodyOf (splitlinesKeep file.text) func) ≠ none

lemma judge_ne_raises {f : Finding} (h : Found u work rng tries f) : judge u work rng tries f ≠ .raises := by
  intro hraises
  unfold judge at hraises
  split at hraises
  · cases hraises
  next file hfile =>
    unfold judgeIn at hraises
    simp only at hraises
    split at hraises
    · cases hraises
    split at hraises
    · cases hraises
    split at hraises
    · cases hraises
    split at hraises
    next hnone =>
      have := (h file hfile).1
      rw [hnone] at this
      cases this
    · split at hraises <;> cases hraises

lemma fate_ne_fails {f : Finding} (h : Found u work rng tries f) {key : List Char} {fate : Fate}
    (hreached : judge u work rng tries f = .reached key fate) : fate.isFailure = false := by
  obtain ⟨file, func, label, inFamily, marker, stratum, hjudged, -, hfate⟩ := judged_of_reached hreached
  obtain ⟨-, hsplit, hrelative, hdraws⟩ := h file hjudged.found
  obtain ⟨part, hpart⟩ := Option.isSome_iff_exists.mp hsplit
  obtain ⟨path, hpath⟩ := Option.isSome_iff_exists.mp hrelative
  obtain ⟨⟨code, trimmed⟩, hcode⟩ := Option.ne_none_iff_exists'.mp (hdraws func hjudged.mem)
  rw [hfate]
  unfold fateOf
  simp only [hcode, hpart, hpath]
  split_ifs <;> rfl

/-! ### The selection -/

/-- What is picked for a stratum. -/
def pickedOf (seeded : Shuffle) (share : ℕ → ℕ) (pools : Pools) (q : Stratum × ℕ) : List Item :=
  (select Item.slot seeded share (pools .test q.1) q.2).getD []

/-- A choice of items from a pool: within the quota and the caps, and if the quota is not reached, nothing that
was left out could be added. -/
structure Choice (cap quota : ℕ) (pool picked : List Item) : Prop where
  length_le : picked.length ≤ quota
  subset : ∀ it ∈ picked, it ∈ pool
  nodup : picked.Nodup
  rule_le : ∀ rule, ofRule Item.slot picked rule ≤ cap
  family_le : ∀ fam, ofFamily Item.slot picked fam ≤ MAX_PER_FAMILY
  maximal : picked.length < quota → ∀ it ∈ pool, it ∉ picked → Blocked Item.slot cap picked it

lemma select_choice (seeded : Shuffle) (share : ℕ → ℕ) {pool : List Item} (quota : ℕ)
    (hkeys : ((pool.map Item.slot).map Slot.key).Nodup) :
    ∃ picked, select Item.slot seeded share pool quota = some picked ∧
      Choice (max 1 (share quota)) quota pool picked := by
  have hstart := kept_start Item.slot (max 1 (share quota)) seeded ((hkeys.of_map Slot.key).of_map Item.slot)
  obtain ⟨s, hrun, hkept, hlen, -, hmax⟩ := rounds_spec quota 0 _ (Nat.sub_le _ _) hstart
    (Nat.zero_le _) (Or.inl fun _ => ⟨le_rfl, Or.inl le_rfl⟩)
  exact ⟨s.picked, hrun, hlen, hkept.picked_subset, hkept.picked_nodup, hkept.rule_le, hkept.family_le,
    fun hlt it hit hnot => (hmax hlt _ it hit rfl).resolve_left hnot⟩

/-- **The selection does not fail** on pools with distinct keys. -/
lemma testItems_eq {seeded : Shuffle} {share : ℕ → ℕ} {pools : Pools}
    (hkeys : ∀ stratum, (((pools .test stratum).map Item.slot).map Slot.key).Nodup) :
    testItems seeded share pools = some (TEST_QUOTA.flatMap (pickedOf seeded share pools)) ∧
      ∀ q ∈ TEST_QUOTA, Choice (max 1 (share q.2)) q.2 (pools .test q.1) (pickedOf seeded share pools q) := by
  have hpick : ∀ q : Stratum × ℕ, select Item.slot seeded share (pools .test q.1) q.2 =
      some (pickedOf seeded share pools q) ∧
      Choice (max 1 (share q.2)) q.2 (pools .test q.1) (pickedOf seeded share pools q) := by
    intro q
    obtain ⟨picked, hpicked, hchoice⟩ := select_choice seeded share q.2 (hkeys q.1)
    unfold pickedOf
    rw [hpicked]
    exact ⟨rfl, hchoice⟩
  refine ⟨?_, fun q _ => (hpick q).2⟩
  unfold testItems
  rw [mapM_of_forall fun q _ => (hpick q).1]
  rfl

variable {seeded : Shuffle} {share : ℕ → ℕ} {reports : List (List Finding)} {test train : List Item}

/-- **When nothing fails**: if every finding is found, so are the items. -/
lemma cmdItems_eq (h : ∀ f ∈ reports.flatten, Found u work rng tries f) :
    cmdItems u work rng tries seeded share reports =
      some (TEST_QUOTA.flatMap (pickedOf seeded share (keptPools u work rng tries reports)),
        trainItems (keptPools u work rng tries reports)) := by
  have hraises : ¬ RaisesAt u work rng tries reports.flatten := fun ⟨f, hf, hraises⟩ =>
    judge_ne_raises (h f hf) hraises
  have hfails : ¬ Fails (entry u work rng tries) Fate.isFailure reports := by
    rintro ⟨key, fate, hfirst, hbad⟩
    obtain ⟨f, hf, hentry⟩ := mem_of_first hfirst
    rw [fate_ne_fails (h f hf) (entry_eq_some.mp hentry)] at hbad
    cases hbad
  unfold cmdItems
  rw [poolsOf_keep hraises hfails, Option.bind_eq_bind, Option.bind_some,
    (testItems_eq (nodup_keys u work rng tries reports .test)).1]
  rfl

lemma isSome_lookup_of_dir {cwe : List Char} (h : cwe ∈ JULIET_DIRS.map Prod.fst) :
    (TARGET_FAMILY.lookup cwe).isSome = true := by
  have hall : ∀ cwe ∈ JULIET_DIRS.map Prod.fst, (TARGET_FAMILY.lookup cwe).isSome = true := by decide
  exact hall cwe h

lemma file_work {s : Sample} {resolve : List Char → Option Target} {uri text : List Char} {target : Target}
    (hresolve : resolve uri = some target) (htext : (s.files target.cwe).get target.name = some text) :
    (s.work resolve).file uri =
      some { name := target.name, dir := target.cwe, relative := target.relative, text } := by
  simp [Sample.work, hresolve, htext]

/-- A finding in a sample is found, if its path leads there from the work directory. -/
lemma found_of_sound {s : Sample} (hsound : s.Sound JULIET_DIRS) {resolve : List Char → Option Target}
    {f : Finding} (hbelow : ∀ target, resolve f.uri = some target → target.relative.isSome = true)
    (hdraws : ∀ file, (s.work resolve).file f.uri = some file → ∀ func ∈ functionSpans u file.text,
      promptCode u (rng (keyOf file f)) tries
        (preambleOf u (functionSpans u file.text) (splitlinesKeep file.text))
        (bodyOf (splitlinesKeep file.text) func) ≠ none) : Found u (s.work resolve) rng tries f := by
  intro file hfile
  obtain ⟨target, htarget, hmap⟩ := Option.bind_eq_some_iff.mp hfile
  obtain ⟨text, htext, hmake⟩ := Option.map_eq_some_iff.mp hmap
  have hthere : ((s.files target.cwe).get target.name).isSome = true := by rw [htext]; rfl
  obtain ⟨hdir, hname, hpath⟩ :
      file.dir = target.cwe ∧ file.name = target.name ∧ file.relative = target.relative := by
    subst hmake
    exact ⟨rfl, rfl, rfl⟩
  rw [hdir, hname, hpath]
  exact ⟨isSome_lookup_of_dir (hsound.dir _ _ hthere), hsound.part _ _ hthere, hbelow target htarget,
    hdraws file hfile⟩

end

/-! ### The run as a whole -/

/-- **The items of a sample**: the work directory that `cmd_sample` makes has what `cmd_items` looks up, so that
it ends with the items as long as names are drawn and no URI leads to a file on a path outside the directory. -/
theorem items_of_sample (u : Unicode) (suite : Suite) (order : List Char → Shuffle)
    (resolve : List Char → Option Target)
    (rng : List Char → ℕ → Fin SYLLABLES.length) (tries : ℕ) (seeded : Shuffle) (share : ℕ → ℕ)
    (reports : List (List Finding))
    (hbelow : ∀ f ∈ reports.flatten, ∀ target, resolve f.uri = some target → target.relative.isSome = true)
    (hdraws : ∀ f ∈ reports.flatten, ∀ file, ((cmdSample suite order).work resolve).file f.uri = some file →
      ∀ func ∈ functionSpans u file.text, promptCode u (rng (keyOf file f)) tries
        (preambleOf u (functionSpans u file.text) (splitlinesKeep file.text))
        (bodyOf (splitlinesKeep file.text) func) ≠ none) :
    ∃ test train, cmdItems u ((cmdSample suite order).work resolve) rng tries seeded share reports =
      some (test, train) :=
  ⟨_, _, cmdItems_eq fun f hf => found_of_sound (sound_cmdSample suite order) (hbelow f hf) (hdraws f hf)⟩

/-- A bad function with a marker. -/
def flawed : List Char := "void bad()\n\x7b\n  /* FLAW */\n  bad = 1;\n\x7d\n".toList

/-- A suite with a file of each of two families. -/
def twoFamilies : Suite := fun dirname =>
  if dirname = "CWE121_Stack_Based_Buffer_Overflow".toList then
    [⟨"a_01.c".toList, flawed⟩, ⟨"b_01.c".toList, namesOnly⟩]
  else []

/-- A finding in each file, of which the first has a rule for the CWE. -/
def inBoth : List Finding :=
  [{ finding with uri := "a_01.c".toList, ruleCwes := ["121".toList] }, { finding with uri := "b_01.c".toList }]

/-- Findings in two files of a sample. -/
theorem items_of_sample_two : ∃ test train, cmdItems turkish
    ((cmdSample twoFamilies fun _ _ _ => Equiv.refl _).work fun uri => some ⟨"121".toList, uri, some uri⟩)
    inTurn 9 (fun _ _ => Equiv.refl _) (· / 5) [inBoth] = some (test, train) := by
  have hfiles : ∀ f ∈ inBoth, ((cmdSample twoFamilies fun _ _ _ => Equiv.refl _).files "121".toList).get f.uri =
      some (if f.uri = "a_01.c".toList then flawed else namesOnly) := by decide +kernel
  have hspans : functionSpans turkish flawed = [⟨"bad".toList, 1, 5⟩] ∧
      functionSpans turkish namesOnly = [⟨"bad".toList, 2, 5⟩] := by decide +kernel
  refine items_of_sample turkish twoFamilies _ _ inTurn 9 _ _ [inBoth] (fun f _ target h => ?_)
    fun f hf file hfile func hfunc => ?_
  · obtain rfl := Option.some.inj h
    rfl
  have hmem : f ∈ inBoth := by simpa using hf
  rw [file_work rfl (hfiles f hmem)] at hfile
  obtain rfl := Option.some.inj hfile
  rcases List.mem_pair.mp hmem with rfl | rfl
  · obtain rfl : func = ⟨"bad".toList, 1, 5⟩ := by
      rw [← List.mem_singleton, ← hspans.1]
      exact hfunc
    decide +kernel
  · obtain rfl : func = ⟨"bad".toList, 2, 5⟩ := by
      rw [← List.mem_singleton, ← hspans.2]
      exact hfunc
    decide +kernel

section

variable {u : Unicode} {work : Work} {rng : List Char → ℕ → Fin SYLLABLES.length} {tries : ℕ}
  {seeded : Shuffle} {share : ℕ → ℕ} {reports : List (List Finding)} {test train : List Item}

/-- What a run writes, from the pools. -/
lemma cmdItems_shelves (h : cmdItems u work rng tries seeded share reports = some (test, train)) :
    test = TEST_QUOTA.flatMap (pickedOf seeded share (keptPools u work rng tries reports)) ∧
      train = trainItems (keptPools u work rng tries reports) := by
  obtain ⟨pools, hpools, h⟩ := Option.bind_eq_some_iff.mp h
  obtain ⟨picked, hpicked, h⟩ := Option.bind_eq_some_iff.mp h
  obtain ⟨rfl, rfl⟩ := Prod.mk.inj (Option.some.inj h)
  rw [pools_eq hpools] at hpicked ⊢
  rw [(testItems_eq (nodup_keys u work rng tries reports .test)).1] at hpicked
  exact ⟨(Option.some.inj hpicked).symm, rfl⟩

/-- What is kept for a pool is the first with its key, and its family is in the part. -/
lemma of_mem_keptPools {part : Split} {stratum : Stratum} {item : Item}
    (h : item ∈ keptPools u work rng tries reports part stratum) :
    first (entry u work rng tries) reports item.key = some (.kept part item) ∧ item.stratum = stratum ∧
      work.split item.family = some part := by
  obtain ⟨key, fate, hfirst, hfate⟩ := mem_keptPools.mp h
  obtain ⟨rfl, hstratum⟩ := itemFor_eq_some.mp hfate
  obtain ⟨f, hf, hentry⟩ := mem_of_first hfirst
  obtain ⟨file, func, label, inFamily, marker, stratum', -, -, hkept⟩ := judged_of_reached (entry_eq_some.mp hentry)
  rw [key_of_entry hentry]
  exact ⟨hfirst, hstratum.symm, (kept_of_fateOf hkept.symm).1⟩

lemma pickedOf_choice (q : Stratum × ℕ) (hq : q ∈ TEST_QUOTA) :
    Choice (max 1 (share q.2)) q.2 (keptPools u work rng tries reports .test q.1)
      (pickedOf seeded share (keptPools u work rng tries reports) q) :=
  (testItems_eq (nodup_keys u work rng tries reports .test)).2 q hq

lemma mem_test (h : test = TEST_QUOTA.flatMap (pickedOf seeded share (keptPools u work rng tries reports)))
    {item : Item} (hitem : item ∈ test) : item ∈ keptPools u work rng tries reports .test item.stratum := by
  rw [h] at hitem
  obtain ⟨q, hq, hpicked⟩ := List.mem_flatMap.mp hitem
  have hmem := (pickedOf_choice q hq).subset item hpicked
  rwa [(of_mem_keptPools hmem).2.1]

lemma mem_train {item : Item} : item ∈ trainItems (keptPools u work rng tries reports) ↔
    item ∈ keptPools u work rng tries reports .train item.stratum := by
  unfold trainItems
  simp only [List.mem_append]
  constructor
  · rintro (((hmem | hmem) | hmem) | hmem)
    all_goals
      have := (of_mem_keptPools hmem).2.1
      rwa [this]
  · intro hmem
    cases hstratum : item.stratum <;> rw [hstratum] at hmem <;> simp [hmem]

lemma parts_of_run (h : cmdItems u work rng tries seeded share reports = some (test, train)) :
    (∀ item ∈ test, work.split item.family = some .test) ∧
      ∀ item ∈ train, work.split item.family = some .train := by
  obtain ⟨htest, htrain⟩ := cmdItems_shelves h
  exact ⟨fun item hitem => (of_mem_keptPools (mem_test htest hitem)).2.2,
    fun item hitem => (of_mem_keptPools (mem_train.mp (htrain ▸ hitem))).2.2⟩

lemma family_ne_of_run (h : cmdItems u work rng tries seeded share reports = some (test, train)) {item item' : Item}
    (hitem : item ∈ test) (hitem' : item' ∈ train) : item.family ≠ item'.family := by
  intro hfamily
  have := (parts_of_run h).1 item hitem
  rw [hfamily, (parts_of_run h).2 item' hitem'] at this
  cases this

lemma eq_of_key {part part' : Split} {stratum stratum' : Stratum} {item item' : Item}
    (h : item ∈ keptPools u work rng tries reports part stratum)
    (h' : item' ∈ keptPools u work rng tries reports part' stratum') (hkey : item.key = item'.key) :
    part = part' ∧ item = item' := by
  have hfirst := (of_mem_keptPools h).1
  rw [hkey, (of_mem_keptPools h').1] at hfirst
  obtain ⟨hpart, hitem⟩ := Fate.kept.inj (Option.some.inj hfirst)
  exact ⟨hpart.symm, hitem.symm⟩

lemma trainItems_eq (pools : Pools) :
    trainItems pools = [Stratum.fpOfftarget, .fpOther, .fpPaired, .tp].flatMap (pools .train) := by
  simp [trainItems]

lemma nodup_pool (part : Split) (stratum : Stratum) : (keptPools u work rng tries reports part stratum).Nodup :=
  ((nodup_keys u work rng tries reports part stratum).of_map Slot.key).of_map Item.slot

lemma nodup_shelves {α : Type} {part : Split} (stratum : α → Stratum) {shelf : α → List Item} {qs : List α}
    (hqs : qs.Pairwise fun q q' => stratum q ≠ stratum q') (hnodup : ∀ q ∈ qs, (shelf q).Nodup)
    (hsub : ∀ q ∈ qs, ∀ item ∈ shelf q, item ∈ keptPools u work rng tries reports part (stratum q)) :
    (qs.flatMap shelf).Nodup := by
  refine List.nodup_flatMap.mpr ⟨hnodup, hqs.imp_of_mem fun {q q'} hq hq' hne item hmem hmem' => hne ?_⟩
  rw [← (of_mem_keptPools (hsub q hq item hmem)).2.1, (of_mem_keptPools (hsub q' hq' item hmem')).2.1]

lemma nodup_keys_run (htest : test = TEST_QUOTA.flatMap (pickedOf seeded share (keptPools u work rng tries reports)))
    (htrain : train = trainItems (keptPools u work rng tries reports)) : ((test ++ train).map Item.key).Nodup := by
  have hnodup_test : test.Nodup := by
    rw [htest]
    exact nodup_shelves Prod.fst (by decide) (fun q hq => (pickedOf_choice q hq).nodup)
      fun q hq => (pickedOf_choice q hq).subset
  have hnodup_train : train.Nodup := by
    rw [htrain, trainItems_eq]
    exact nodup_shelves id (by decide) (fun stratum _ => nodup_pool .train stratum)
      fun stratum _ item hmem => hmem
  have hpart : ∀ item ∈ test ++ train, ∃ part, item ∈ keptPools u work rng tries reports part item.stratum := by
    intro item hitem
    rcases List.mem_append.mp hitem with hitem | hitem
    · exact ⟨.test, mem_test htest hitem⟩
    · exact ⟨.train, mem_train.mp (htrain ▸ hitem)⟩
  have hdisjoint : List.Disjoint test train := by
    intro item hmem hmem'
    have := (eq_of_key (mem_test htest hmem) (mem_train.mp (htrain ▸ hmem')) rfl).1
    cases this
  refine List.Nodup.map_on ?_ (List.nodup_append'.mpr ⟨hnodup_test, hnodup_train, hdisjoint⟩)
  intro item hitem item' hitem' hkey
  obtain ⟨part, hmem⟩ := hpart item hitem
  obtain ⟨part', hmem'⟩ := hpart item' hitem'
  exact (eq_of_key hmem hmem' hkey).2

lemma filter_test (q : Stratum × ℕ) (hq : q ∈ TEST_QUOTA) :
    ((TEST_QUOTA.flatMap (pickedOf seeded share (keptPools u work rng tries reports))).filter
      fun item => item.stratum = q.1) = pickedOf seeded share (keptPools u work rng tries reports) q := by
  have hstratum : ∀ q ∈ TEST_QUOTA, ∀ item ∈ pickedOf seeded share (keptPools u work rng tries reports) q,
      item.stratum = q.1 := fun q hq item hmem => (of_mem_keptPools ((pickedOf_choice q hq).subset item hmem)).2.1
  have hone : ∀ q' ∈ TEST_QUOTA, ((pickedOf seeded share (keptPools u work rng tries reports) q').filter
      fun item => item.stratum = q.1) =
        if q' = q then pickedOf seeded share (keptPools u work rng tries reports) q else [] := by
    intro q' hq'
    split_ifs with heq
    · subst heq
      exact List.filter_eq_self.mpr fun item hmem => by simpa using hstratum q' hq' item hmem
    · refine List.filter_eq_nil_iff.mpr fun item hmem => ?_
      have hinj : ∀ q ∈ TEST_QUOTA, ∀ q' ∈ TEST_QUOTA, q.1 = q'.1 → q = q' := by decide
      rw [hstratum q' hq' item hmem, decide_eq_true_eq]
      exact fun hfst => heq (hinj q' hq' q hq hfst)
  rw [List.filter_flatMap, List.flatMap_congr hone]
  have hq' : q = (.tp, 50) ∨ q = (.fpPaired, 35) ∨ q = (.fpOther, 15) ∨ q = (.fpOfftarget, 20) := by
    simpa [TEST_QUOTA] using hq
  rcases hq' with rfl | rfl | rfl | rfl <;> simp [TEST_QUOTA]

/-! ### The ids -/

lemma length_test (htest : test = TEST_QUOTA.flatMap (pickedOf seeded share (keptPools u work rng tries reports))) :
    test.length ≤ 120 := by
  rw [htest, List.length_flatMap]
  calc (TEST_QUOTA.map fun q => (pickedOf seeded share (keptPools u work rng tries reports) q).length).sum
      ≤ (TEST_QUOTA.map Prod.snd).sum := List.sum_le_sum fun q hq => (pickedOf_choice q hq).length_le
    _ = 120 := rfl

lemma ids_testRows (test : List Item) :
    (testRows test).map Row.id = (List.range test.length).map fun i => testId (i + 1) := by
  unfold testRows
  have hid : (Row.id ∘ fun p : Item × ℕ => ⟨testId (p.2 + 1), p.1⟩) = (fun i => testId (i + 1)) ∘ Prod.snd := rfl
  rw [List.map_map, hid, ← List.map_map, List.zipIdx_eq_zip_range', List.map_snd_zip (by simp),
    ← List.range_eq_range']

lemma nodup_ids (h : test.length ≤ 120) : ((testRows test).map Row.id).Nodup := by
  have hall : ((List.range 120).map fun i => testId (i + 1)).Nodup := by decide +kernel
  rw [ids_testRows]
  exact hall.sublist ((List.range_sublist.mpr h).map _)

end

/-! ### The data as a whole -/

/-- **The split of the data**: no key comes twice; an item is in the part of its family, so that no family is in
both; `train.jsonl` has every item that its part keeps, and `test.jsonl` for each stratum a choice of those that
its part keeps, within the quota and the caps, to which nothing could be added below the quota; and the ids are
told apart, but for the hashes. -/
theorem data_split (u : Unicode) (work : Work) (rng : List Char → ℕ → Fin SYLLABLES.length) (tries : ℕ)
    (seeded : Shuffle) (share : ℕ → ℕ) (reports : List (List Finding)) (digest : List Char → List Char)
    (test train : List Item) (h : cmdItems u work rng tries seeded share reports = some (test, train)) :
    ((test ++ train).map Item.key).Nodup ∧
      (∀ item ∈ test, work.split item.family = some .test) ∧
      (∀ item ∈ train, work.split item.family = some .train) ∧
      (∀ item ∈ test, ∀ item' ∈ train, item.family ≠ item'.family) ∧
      (∀ item, item ∈ train ↔ first (entry u work rng tries) reports item.key = some (.kept .train item)) ∧
      (∀ q ∈ TEST_QUOTA, ∃ pool : List Item, (∀ item, item ∈ pool ↔ item.stratum = q.1 ∧
          first (entry u work rng tries) reports item.key = some (.kept .test item)) ∧
        Choice (max 1 (share q.2)) q.2 pool (test.filter fun item => item.stratum = q.1)) ∧
      ((testRows test).map Row.id).Nodup ∧
      ∀ row ∈ testRows test, ∀ row' ∈ trainRows digest train, row.id ≠ row'.id := by
  obtain ⟨htest, htrain⟩ := cmdItems_shelves h
  -- the items of a pool are the kept ones of a part and a stratum
  have hpool : ∀ {part : Split} {item : Item},
      item ∈ keptPools u work rng tries reports part item.stratum ↔
        first (entry u work rng tries) reports item.key = some (.kept part item) := fun {part item} =>
    ⟨fun hmem => (of_mem_keptPools hmem).1,
      fun hfirst => mem_keptPools.mpr ⟨_, _, hfirst, itemFor_eq_some.mpr ⟨rfl, rfl⟩⟩⟩
  refine ⟨nodup_keys_run htest htrain, (parts_of_run h).1, (parts_of_run h).2,
    fun item hitem item' hitem' => family_ne_of_run h hitem hitem', fun item => ?_,
    fun q hq => ⟨keptPools u work rng tries reports .test q.1, fun item => ?_, ?_⟩,
    nodup_ids (length_test htest), fun row hrow row' hrow' => ?_⟩
  · -- the training takes every item that is kept for it
    rw [htrain, mem_train, hpool]
  · constructor
    · intro hmem
      obtain ⟨hfirst, hstratum, -⟩ := of_mem_keptPools hmem
      exact ⟨hstratum, hfirst⟩
    · rintro ⟨hstratum, hfirst⟩
      rw [← hstratum]
      exact hpool.mpr hfirst
  · -- the test takes what was picked for each quota
    rw [htest, filter_test q hq]
    exact pickedOf_choice q hq
  · -- the ids of the two parts begin differently
    obtain ⟨p, -, rfl⟩ := List.mem_map.mp hrow
    obtain ⟨item, -, rfl⟩ := List.mem_map.mp hrow'
    have hne : ∀ a b : List Char, "t2-".toList ++ a ≠ "tr-".toList ++ b := by simp
    exact hne _ _

/-- The files of two families, of which the first is for the test. -/
def twoWork : Work where
  file uri := ((copies (twoFamilies "CWE121_Stack_Based_Buffer_Overflow".toList)).get uri).map fun text =>
    { name := uri
      dir := "121".toList
      relative := some uri
      text }
  split fam := some (if fam = "a".toList then .test else .train)

/-- What `cmd_items` makes of them. -/
def twoRun : Option (List Item × List Item) :=
  cmdItems turkish twoWork inTurn 9 (fun _ _ => Equiv.refl _) (· / 5) [inBoth]

lemma twoRun_eq : twoRun.map (fun p => (p.1.map fun it => (it.key, labelOf it),
    p.2.map fun it => (it.key, labelOf it))) =
      some ([("a_01.c:4:r".toList, .tp)], [("b_01.c:4:r".toList, .fp)]) := by decide +kernel

lemma exists_twoRun : ∃ item item', twoRun = some ([item], [item']) ∧ labelOf item = .tp ∧ labelOf item' = .fp := by
  obtain ⟨⟨test, train⟩, hrun, hitems⟩ := Option.map_eq_some_iff.mp twoRun_eq
  obtain ⟨htest, htrain⟩ := Prod.mk.inj hitems
  obtain ⟨item, rfl, hitem⟩ := List.map_eq_singleton_iff.mp htest
  obtain ⟨item', rfl, hitem'⟩ := List.map_eq_singleton_iff.mp htrain
  exact ⟨item, item', hrun, (Prod.mk.inj hitem).2, (Prod.mk.inj hitem').2⟩

/-- The items of two families. -/
theorem data_split_two : ∃ item item', twoRun = some ([item], [item']) ∧ item.key ≠ item'.key ∧
    item.family ≠ item'.family ∧ twoWork.split item.family = some .test ∧
    twoWork.split item'.family = some .train := by
  obtain ⟨item, item', hrun, -, -⟩ := exists_twoRun
  obtain ⟨hkeys, htest, htrain, hfamilies, -⟩ := data_split turkish twoWork inTurn 9 (fun _ _ => Equiv.refl _)
    (· / 5) [inBoth] id [item] [item'] hrun
  exact ⟨item, item', hrun, by simpa using hkeys, hfamilies item (by simp) item' (by simp), htest item (by simp),
    htrain item' (by simp)⟩

lemma classify_backed {u : Unicode} {label : Label} {inFamily : Bool} {marker : Option (List Char)} {line : List Char}
    {stratum : Stratum} (h : classify u label inFamily marker line = some stratum) :
    marker ≠ some "INCIDENTAL".toList ∧ (stratum = .tp ↔ label = .tp ∧ inFamily = true ∧ isFlaw marker = true) ∧
      (label = .tp → ((ARRAY_DECL u).matchStart line).isSome = false) ∧
      (label = .tp → stratum ≠ .tp → inFamily = false ∧ isFlaw marker = false) := by
  unfold classify at h
  split_ifs at h with hincidental harray hfamily hoff htp hflaw hpaired
  all_goals
    cases h
    simp_all
  exact fun hbad => Bool.eq_false_iff.mpr fun hflaw => hoff hflaw hbad

/-- **What backs a label**: an item comes from a finding in a function whose name has a label, and has the label
of a flaw exactly if the function is a bad one, the rule is of the family of the CWE, and the marker that
`marker_above` finds names a flaw. It finds that of an incidental flaw for no item, and no line of a bad function
is the declaration of an array; where a bad function gives a false positive, neither the rule nor the marker
fit. -/
theorem label_backed (u : Unicode) (work : Work) (rng : List Char → ℕ → Fin SYLLABLES.length) (tries : ℕ)
    (seeded : Shuffle) (share : ℕ → ℕ) (reports : List (List Finding)) (test train : List Item)
    (h : cmdItems u work rng tries seeded share reports = some (test, train)) (item : Item)
    (hitem : item ∈ test ++ train) :
    ∃ f ∈ reports.flatten, ∃ file func label inFamily marker,
      Judged u work f file func label inFamily marker item.stratum ∧
      item.key = keyOf file f ∧ item.cwe = file.dir ∧ item.family = family file.name ∧
      marker ≠ some "INCIDENTAL".toList ∧
      (labelOf item = .tp ↔ label = .tp ∧ inFamily = true ∧ isFlaw marker = true) ∧
      (label = .tp → ((ARRAY_DECL u).matchStart
        ((splitlinesKeep file.text).getD (f.startLine - 1) [])).isSome = false) ∧
      (label = .tp → labelOf item = .fp → inFamily = false ∧ isFlaw marker = false) := by
  obtain ⟨f, hf, key, part, hjudge⟩ := item_of_run h hitem
  obtain ⟨file, func, label, inFamily, marker, stratum, hjudged, -, hfate⟩ := judged_of_reached hjudge
  obtain ⟨-, hstratum, hcwe, hfamily⟩ := kept_of_fateOf hfate.symm
  obtain ⟨-, hkey, -⟩ := fateOf_kept hfate.symm
  rw [← hstratum] at hjudged
  obtain ⟨hincidental, hflaw, harray, hother⟩ := classify_backed hjudged.kind
  have htp : labelOf item = .tp ↔ item.stratum = .tp := by
    unfold labelOf
    split_ifs with hkind <;> simp [hkind]
  refine ⟨f, hf, file, func, label, inFamily, marker, hjudged, hkey, hcwe, hfamily, hincidental, htp.trans hflaw,
    harray, fun hbad hlabel => hother hbad fun hkind => ?_⟩
  rw [htp.mpr hkind] at hlabel
  cases hlabel

/-- Of two items one has the label of a flaw, and all that it takes; for the other nothing fits. -/
theorem label_backed_two : ∃ item item', twoRun = some ([item], [item']) ∧
    (∃ f ∈ inBoth, ∃ file func marker,
      Judged turkish twoWork f file func .tp true marker item.stratum ∧ isFlaw marker = true) ∧
    ∃ f ∈ inBoth, ∃ file func label inFamily marker,
      Judged turkish twoWork f file func label inFamily marker item'.stratum ∧
      (label = .tp → inFamily = false ∧ isFlaw marker = false) := by
  obtain ⟨item, item', hrun, hlabel, hlabel'⟩ := exists_twoRun
  have hbacked := label_backed turkish twoWork inTurn 9 (fun _ _ => Equiv.refl _) (· / 5) [inBoth]
    [item] [item'] hrun
  refine ⟨item, item', hrun, ?_, ?_⟩
  · obtain ⟨f, hf, file, func, label, inFamily, marker, hjudged, -, -, -, -, htp, -⟩ := hbacked item (by simp)
    obtain ⟨rfl, rfl, hflaw⟩ := htp.mp hlabel
    exact ⟨f, by simpa using hf, file, func, marker, hjudged, hflaw⟩
  · obtain ⟨f, hf, file, func, label, inFamily, marker, hjudged, -, -, -, -, -, -, hother⟩ :=
      hbacked item' (by simp)
    exact ⟨f, by simpa using hf, file, func, label, inFamily, marker, hjudged, fun hbad => hother hbad hlabel'⟩

end CSecureBuild.Harness.Dataset
