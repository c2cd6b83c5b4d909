import CSecureBuild.PyLib.Text

/-!
A file of records, one on each line, that is only appended to, by a program that can be stopped
between any two characters. What is left then is whole lines and a tail, and the next record goes behind
the tail, on its line. A `Codec` says what a reader needs to tell records from what stopping leaves:
neither the beginning of a record nor a record behind a beginning reads as one.

`Log.sublist_names` says that appending, cut off anywhere, puts no record into the file twice, and
`Log.once_iff` that a program which appends what it finds missing leaves each record once exactly if the
last line was ended before, or nothing was missing.
-/

namespace CSecureBuild.Lib.LineLog

open CSecureBuild.PyLib.Text

/-! ### Records on lines -/

/-- How records are written on lines, and what is read of a line: the name of a record. -/
structure Codec (R I : Type) where
  enc : R → List Char
  name : R → I
  read : List Char → Option I
  /-- The character every record begins with. -/
  first : Char
  enc_first : ∀ r, (enc r).head? = some first
  enc_line : ∀ r, ∀ c ∈ enc r, isBreak c = false
  read_enc : ∀ r, read (enc r) = some (name r)
  /-- The beginning of a record reads as none. -/
  read_prefix : ∀ r p, p <+: enc r → p ≠ enc r → read p = none
  /-- Nor does what begins as a record and goes on with another one. -/
  read_glued : ∀ r p front, p <+: enc r → p ≠ [] → read (first :: front ++ p) = none

variable {R I : Type} {C : Codec R I}

/-- The text of a line that began with a record. -/
structure Entry (C : Codec R I) where
  text : List Char
  begun : text.head? = some C.first
  line : ∀ c ∈ text, isBreak c = false

/-- A record in full. -/
def Entry.whole (r : R) : Entry C := ⟨C.enc r, C.enc_first r, C.enc_line r⟩

/-- The beginning of a record. -/
def Entry.torn (r : R) {p : List Char} (hp : p <+: C.enc r) (hne : p ≠ []) : Entry C where
  text := p
  begun := by
    obtain ⟨rest, hrest⟩ := hp
    obtain ⟨c, p, rfl⟩ := List.exists_cons_of_ne_nil hne
    have := C.enc_first r
    rw [← hrest] at this
    exact this
  line := fun c hc => C.enc_line r c (hp.subset hc)

/-- The beginning of a record behind what is on the line. -/
def Entry.glue (e : Entry C) (r : R) {p : List Char} (hp : p <+: C.enc r) : Entry C where
  text := e.text ++ p
  begun := by rw [List.head?_append, e.begun]; rfl
  line := fun c hc => (List.mem_append.mp hc).elim (e.line c) fun h => C.enc_line r c (hp.subset h)

lemma Entry.ne_nil (e : Entry C) : e.text ≠ [] := by
  intro h
  have := e.begun
  rw [h] at this
  cases this

lemma Entry.read_glue (e : Entry C) (r : R) {p : List Char} (hp : p <+: C.enc r) (hne : p ≠ []) :
    C.read (e.glue r hp).text = none := by
  obtain ⟨front, hfront⟩ : ∃ front, e.text = C.first :: front := by
    obtain ⟨c, front, h⟩ := List.exists_cons_of_ne_nil e.ne_nil
    have hc := e.begun
    rw [h] at hc
    exact ⟨front, by rw [h, Option.some.inj hc]⟩
  show C.read (e.text ++ p) = none
  rw [hfront]
  exact C.read_glued r p front hp hne

/-! ### Logs -/

/-- A file: the lines that are ended, and what is behind them. -/
structure Log (C : Codec R I) where
  lines : List (Entry C)
  tail : Option (Entry C)

namespace Log

/-- The text of a file. -/
def text (log : Log C) : List Char :=
  (log.lines.flatMap fun e => e.text ++ ['\n']) ++ (log.tail.map Entry.text).getD []

/-- The names of the records that can be read. -/
def names (log : Log C) : List I :=
  (log.lines ++ log.tail.toList).filterMap fun e => C.read e.text

/-- The empty file. -/
def empty : Log C := ⟨[], none⟩

@[simp] lemma text_empty : (empty : Log C).text = [] := rfl

@[simp] lemma names_empty : (empty : Log C).names = [] := rfl

/-- Ending the last line with a record. -/
def add (log : Log C) (r : R) : Log C :=
  match log.tail with
  | none => ⟨log.lines ++ [.whole r], none⟩
  | some e => ⟨log.lines ++ [e.glue r (List.prefix_refl _)], none⟩

/-- Beginning a record. -/
def tear (log : Log C) (r : R) {p : List Char} (hp : p <+: C.enc r) (hne : p ≠ []) : Log C :=
  match log.tail with
  | none => ⟨log.lines, some (.torn r hp hne)⟩
  | some e => ⟨log.lines, some (e.glue r hp)⟩

/-- The lines of records. -/
def linesOf (rs : List R) : List Char := rs.flatMap fun r => C.enc r ++ ['\n']

variable {log : Log C}

/-- **The lines of a file are its entries.** -/
theorem splitlines_text (log : Log C) :
    splitlines log.text = (log.lines ++ log.tail.toList).map Entry.text := by
  obtain ⟨lines, tail⟩ := log
  unfold text
  induction lines with
  | nil =>
    cases tail with
    | none => rfl
    | some e => exact splitlines_tail e.line e.ne_nil
  | cons e lines ih =>
    simp only [List.flatMap_cons, List.append_assoc, List.cons_append, List.nil_append,
      List.map_cons] at ih ⊢
    rw [splitlines_line e.line, ih]

lemma filterMap_read (log : Log C) : (splitlines log.text).filterMap C.read = log.names := by
  rw [splitlines_text, List.filterMap_map]
  rfl

lemma text_add (log : Log C) (r : R) : (log.add r).text = log.text ++ (C.enc r ++ ['\n']) := by
  obtain ⟨lines, _ | e⟩ := log
  · simp [add, text, Entry.whole]
  · simp [add, text, Entry.glue]

lemma text_tear (log : Log C) (r : R) {p : List Char} (hp : p <+: C.enc r) (hne : p ≠ []) :
    (log.tear r hp hne).text = log.text ++ p := by
  obtain ⟨lines, _ | e⟩ := log
  · simp [tear, text, Entry.torn]
  · simp [tear, text, Entry.glue]

/-- A file is ended exactly if its text is. -/
lemma tail_eq_none_iff : log.tail = none ↔ log.text = [] ∨ log.text.getLast? = some '\n' := by
  obtain ⟨lines, _ | e⟩ := log
  · refine iff_of_true rfl ?_
    cases h : lines.reverse with
    | nil => exact Or.inl (by simp [text, List.reverse_eq_nil_iff.mp h])
    | cons e rest =>
      right
      rw [List.reverse_eq_cons_iff.mp h]
      simp [text]
  · refine iff_of_false (by simp) ?_
    have hne := e.ne_nil
    rintro (h | h)
    · simp [text, hne] at h
    · simp only [text, Option.map_some, Option.getD_some] at h
      rw [List.getLast?_append_of_ne_nil _ hne] at h
      have := e.line '\n' (List.mem_of_getLast? h)
      revert this
      decide

/-! ### What appending does to the records -/

lemma names_add_none (h : log.tail = none) (r : R) : (log.add r).names = log.names ++ [C.name r] := by
  obtain ⟨lines, _ | e⟩ := log
  · simp [add, names, Entry.whole, C.read_enc]
  · cases h

lemma enc_ne_nil (r : R) : C.enc r ≠ [] := (Entry.whole r : Entry C).ne_nil

lemma names_add_some {e : Entry C} (h : log.tail = some e) (r : R) :
    (log.add r).names = log.lines.filterMap fun e => C.read e.text := by
  obtain ⟨lines, _ | e'⟩ := log
  · cases h
  · simp [add, names, e'.read_glue r (List.prefix_refl _) (enc_ne_nil r)]

lemma sublist_add (log : Log C) (r : R) : (log.add r).names.Sublist (log.names ++ [C.name r]) := by
  cases h : log.tail with
  | none => rw [names_add_none h]
  | some e =>
    rw [names_add_some h]
    unfold names
    rw [List.filterMap_append]
    exact ((List.sublist_append_left _ _).trans (List.sublist_append_left _ _))

lemma sublist_tear (log : Log C) (r : R) {p : List Char} (hp : p <+: C.enc r) (hne : p ≠ []) :
    (log.tear r hp hne).names.Sublist (log.names ++ [C.name r]) := by
  obtain ⟨lines, _ | e⟩ := log
  · by_cases hfull : p = C.enc r
    · subst hfull
      simp [tear, names, Entry.torn, C.read_enc]
    · simp [tear, names, Entry.torn, C.read_prefix r p hp hfull]
  · have : (tear ⟨lines, some e⟩ r hp hne).names = lines.filterMap fun e => C.read e.text := by
      simp [tear, names, e.read_glue r hp hne]
    rw [this]
    unfold names
    rw [List.filterMap_append]
    exact (List.sublist_append_left _ _).trans (List.sublist_append_left _ _)

/-- **Appending records, cut off anywhere**, leaves a file in which each record that can be read was
there before or is one of those, and none is there twice. -/
theorem sublist_names (log : Log C) (rs : List R) (k : ℕ) :
    ∃ log' : Log C, log'.text = log.text ++ (linesOf (C := C) rs).take k ∧
      log'.names.Sublist (log.names ++ rs.map C.name) := by
  induction rs generalizing log k with
  | nil => exact ⟨log, by simp [linesOf], by simp⟩
  | cons r rs ih =>
    have hlines : linesOf (C := C) (r :: rs) = C.enc r ++ ('\n' :: linesOf (C := C) rs) := by
      simp [linesOf]
    have hgrow : (log.names ++ [C.name r]).Sublist (log.names ++ (r :: rs).map C.name) := by
      refine List.Sublist.append_left ?_ _
      simp
    rcases Nat.lt_or_ge (C.enc r).length k with hk | hk
    · -- the line is there in full
      obtain ⟨j, rfl⟩ : ∃ j, k = (C.enc r).length + (j + 1) := ⟨k - (C.enc r).length - 1, by omega⟩
      obtain ⟨log', htext, hnames⟩ := ih (log.add r) j
      refine ⟨log', ?_, ?_⟩
      · rw [htext, text_add, hlines, List.take_length_add_append, List.take_succ_cons]
        simp
      · refine hnames.trans ?_
        rw [List.map_cons, ← List.singleton_append, ← List.append_assoc]
        exact (sublist_add log r).append_right _
    · have htake : (linesOf (C := C) (r :: rs)).take k = (C.enc r).take k := by
        rw [hlines, List.take_append_of_le_length hk]
      rw [htake]
      by_cases hne : (C.enc r).take k = []
      · exact ⟨log, by simp [hne], List.sublist_append_left _ _⟩
      · exact ⟨log.tear r (List.take_prefix k _) hne, text_tear log r _ hne,
          (sublist_tear log r _ hne).trans hgrow⟩

/-- Appending records in full. -/
def addAll (log : Log C) (rs : List R) : Log C := rs.foldl add log

lemma text_addAll (log : Log C) (rs : List R) :
    (log.addAll rs).text = log.text ++ linesOf (C := C) rs := by
  induction rs generalizing log with
  | nil => simp [addAll, linesOf]
  | cons r rs ih =>
    have := ih (log.add r)
    rw [text_add] at this
    show ((log.add r).addAll rs).text = _
    rw [this]
    simp [linesOf]

lemma sublist_addAll (log : Log C) (rs : List R) :
    (log.addAll rs).names.Sublist (log.names ++ rs.map C.name) := by
  induction rs generalizing log with
  | nil => simp [addAll]
  | cons r rs ih =>
    have hone := (sublist_add log r).append_right (rs.map C.name)
    rw [List.append_assoc] at hone
    exact (ih (log.add r)).trans hone

lemma tail_add (log : Log C) (r : R) : (log.add r).tail = none := by
  obtain ⟨lines, _ | e⟩ := log <;> rfl

lemma names_addAll (h : log.tail = none) (rs : List R) :
    (log.addAll rs).names = log.names ++ rs.map C.name := by
  induction rs generalizing log with
  | nil => simp [addAll]
  | cons r rs ih =>
    have := ih (tail_add log r)
    rw [names_add_none h] at this
    show ((log.add r).addAll rs).names = _
    rw [this]
    simp

lemma sublist_lines (log : Log C) :
    (log.lines.filterMap fun e => C.read e.text).Sublist log.names := by
  unfold names
  rw [List.filterMap_append]
  exact List.sublist_append_left _ _

variable [BEq I] [LawfulBEq I]

/-- **A program that appends what it finds missing leaves each record once** exactly if the last line was
ended before, or nothing was missing. -/
theorem once_iff {wanted : List I} (hwanted : wanted.Nodup) (hnames : log.names.Nodup) {rs : List R}
    (hrs : rs.map C.name = wanted.filter fun i => i ∉ log.names) :
    (∀ i ∈ wanted, (log.addAll rs).names.count i = 1) ↔ log.tail = none ∨ rs = [] := by
  have hmissing : ∀ i ∈ rs.map C.name, i ∈ wanted ∧ i ∉ log.names := by
    intro i hi
    rw [hrs] at hi
    simpa using hi
  have hnodup : (rs.map C.name).Nodup := by
    rw [hrs]
    exact hwanted.filter _
  constructor
  · intro h
    cases htail : log.tail with
    | none => exact Or.inl rfl
    | some e =>
      -- the first record went behind the tail, where it cannot be read
      right
      by_contra hne
      obtain ⟨r, rs, rfl⟩ := List.exists_cons_of_ne_nil hne
      have hr := hmissing (C.name r) (by simp)
      have hcount := h (C.name r) hr.1
      have hall : ((log.add r).addAll rs).names =
          (log.lines.filterMap fun e => C.read e.text) ++ rs.map C.name := by
        rw [names_addAll (tail_add log r), names_add_some htail]
      have hmem : C.name r ∈ ((log.add r).addAll rs).names := by
        refine List.count_pos_iff.mp ?_
        show 0 < (log.addAll (r :: rs)).names.count (C.name r)
        omega
      rw [hall, List.mem_append] at hmem
      rcases hmem with hmem | hmem
      · exact hr.2 ((sublist_lines log).subset hmem)
      · exact (List.nodup_cons.mp hnodup).1 hmem
  · intro h i hi
    have hall : (log.addAll rs).names = log.names ++ rs.map C.name := by
      rcases h with h | rfl
      · exact names_addAll h rs
      · simp [addAll]
    rw [hall]
    refine List.count_eq_one_of_mem ?_ ?_
    · exact List.nodup_append.mpr ⟨hnames, hnodup, fun a ha b hb heq =>
        (hmissing b hb).2 (heq ▸ ha)⟩
    · by_cases hin : i ∈ log.names
      · exact List.mem_append_left _ hin
      · refine List.mem_append_right _ ?_
        rw [hrs]
        simp [hi, hin]

end Log

end CSecureBuild.Lib.LineLog
