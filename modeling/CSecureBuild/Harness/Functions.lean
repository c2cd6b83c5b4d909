import CSecureBuild.Harness.Items
import CSecureBuild.PyLib.Languages
import CSecureBuild.PyLib.Words

/-!
`function_spans` on files in the layout that it is written for: definitions whose signature is one line
and whose closing brace stands alone, with other lines between them.

`Header.name_of_signature` is what `SIGNATURE` takes for the name, `scan_open` what follows a line that the scan
took for a signature, and `scan_pieces` a whole file.
-/

namespace CSecureBuild.Harness.Functions

open CSecureBuild.PyLib.Cells CSecureBuild.PyLib.Regex CSecureBuild.PyLib.Text CSecureBuild.PyLib.Words
open CSecureBuild.Harness.Scrub CSecureBuild.Harness.Items

/-- `enclosing` -/
def enclosing (spans : List Function) (line : ℕ) : Option Function :=
  spans.find? fun f => f.start ≤ line ∧ line ≤ f.end_

/-- A run of the loop of `function_spans` over some lines, of which the first has number `n`. -/
def scan (u : Unicode) (n : ℕ) (st : List Function × Option (ℕ × List Char)) (lines : List (List Char)) :
    List Function × Option (ℕ × List Char) :=
  (lines.zipIdx n).foldl (fun st line => spanStep u st line.1 line.2) st

section

variable {u : Unicode} {n : ℕ} {st : List Function × Option (ℕ × List Char)}

@[simp] lemma scan_nil : scan u n st [] = st := rfl

@[simp] lemma scan_cons (line : List Char) (lines : List (List Char)) :
    scan u n st (line :: lines) = scan u (n + 1) (spanStep u st line n) lines := rfl

lemma scan_append (lines more : List (List Char)) :
    scan u n st (lines ++ more) = scan u (n + lines.length) (scan u n st lines) more := by
  induction lines generalizing n st with
  | nil => rfl
  | cons line lines ih =>
    rw [List.cons_append, scan_cons, ih, scan_cons, List.length_cons, Nat.add_right_comm n 1,
      Nat.add_assoc n]

/-! ### Order -/

/-- The spans so far end one before the other, and before the line that comes next or the function that is
open. -/
structure Ordered (n : ℕ) (st : List Function × Option (ℕ × List Char)) : Prop where
  apart : st.1.Pairwise fun f g => f.end_ < g.start
  ended : ∀ f ∈ st.1, f.end_ < n
  open_ : ∀ p, st.2 = some p → p.1 < n ∧ ∀ f ∈ st.1, f.end_ < p.1

lemma Ordered.step (h : Ordered n st) (line : List Char) : Ordered (n + 1) (spanStep u st line n) := by
  obtain ⟨spans, opened⟩ := st
  obtain ⟨hapart, hended, hopen⟩ := h
  have hlater : ∀ f ∈ spans, f.end_ < n + 1 := fun f hf => Nat.lt_succ_of_lt (hended f hf)
  -- a span that ends in this line comes behind all the others
  have hadd : ∀ f : Function, f.end_ = n → (∀ g ∈ spans, g.end_ < f.start) →
      Ordered (n + 1) (spans ++ [f], none) := by
    intro f hf hbefore
    refine ⟨?_, ?_, fun p hp => by cases hp⟩
    · refine List.pairwise_append.mpr ⟨hapart, List.pairwise_singleton _ _, fun g hg k hk => ?_⟩
      rw [List.mem_singleton.mp hk]
      exact hbefore g hg
    · intro g hg
      rcases List.mem_append.mp hg with hg | hg
      · exact hlater g hg
      · rw [List.mem_singleton.mp hg, hf]
        exact Nat.lt_succ_self n
  cases opened with
  -- outside of a definition: the line begins none, a whole one, or one that stays open
  | none =>
    simp only [spanStep]
    split
    · exact ⟨hapart, hlater, fun p hp => by cases hp⟩
    · split_ifs
      · exact ⟨hapart, hlater, fun p hp => by cases hp⟩
      · exact hadd _ rfl hended
      · refine ⟨hapart, hlater, fun p hp => ?_⟩
        cases hp
        exact ⟨Nat.lt_succ_self n, hended⟩
  | some p =>
    -- in a definition: the line ends it or not
    obtain ⟨start, name⟩ := p
    obtain ⟨hstart, hbefore⟩ := hopen (start, name) rfl
    simp only [spanStep]
    split_ifs
    · exact hadd _ rfl hbefore
    · refine ⟨hapart, hlater, fun p hp => ?_⟩
      cases hp
      exact ⟨Nat.lt_succ_of_lt hstart, hbefore⟩

lemma Ordered.scan (h : Ordered n st) (lines : List (List Char)) :
    Ordered (n + lines.length) (scan u n st lines) := by
  induction lines generalizing n st with
  | nil => exact h
  | cons line lines ih =>
    rw [scan_cons, List.length_cons, Nat.add_comm lines.length, ← Nat.add_assoc]
    exact ih (h.step line)

/-- **The spans of a file come one after the other.** -/
theorem functionSpans_apart (text : List Char) :
    (functionSpans u text).Pairwise fun f g => f.end_ < g.start :=
  (Ordered.scan (n := 1) ⟨List.Pairwise.nil, by simp, by simp⟩ (splitlines text)).apart

/-- In spans that come one after the other, a line lies in one of them at most, and `enclosing` finds it. -/
lemma enclosing_eq {spans : List Function} (h : spans.Pairwise fun f g => f.end_ < g.start) {f : Function}
    (hf : f ∈ spans) {line : ℕ} (hline : f.start ≤ line ∧ line ≤ f.end_) : enclosing spans line = some f := by
  unfold enclosing
  induction spans with
  | nil => cases hf
  | cons g spans ih =>
    obtain ⟨hg, hspans⟩ := List.pairwise_cons.mp h
    rcases List.mem_cons.mp hf with rfl | hf
    · rw [List.find?_cons_of_pos (by simpa using hline)]
    · have hlt := hg f hf
      rw [List.find?_cons_of_neg (by simp only [decide_eq_true_eq]; omega)]
      exact ih hspans hf

end

/-! ### Signatures -/

section

variable (u : Unicode)

/-- What `SIGNATURE` asks for behind an opening parenthesis. -/
def afterParen : Re :=
  .seq (.star true (.chr (· ≠ ';'))) (.seq (.chr (· = ')')) (.seq (.star true (.chr u.space))
    (.seq (.opt (.group 2 (.seq (.chr (· = '\x7b')) restOfLine))) textEnd)))

/-- What `SIGNATURE` asks for from the name on. -/
def fromName : Re :=
  .seq (.group 1 (.plus true (.chr u.word))) (.seq (.star true (.chr u.space))
    (.seq (.chr (· = '(')) (afterParen u)))

/-- The characters of a return type. -/
def typeChar (c : Char) : Bool := u.word c || c = ' ' || c = '\t' || c = '*'

lemma signature_eq : SIGNATURE u = .seq textStart (.seq (.chr fun c => c.isAlpha || c = '_')
    (.seq (.star false (.chr (typeChar u))) (fromName u))) := rfl

/-- The word right before the first parenthesis of a line, without the first character of the line. -/
def wordBefore (line : List Char) : List Char :=
  ((line.takeWhile (· ≠ '(')).tail.rdropWhile u.space).rtakeWhile u.word

/-- **A signature on one line**, as `SIGNATURE` takes it apart: what is before a word that begins behind the first
character, the word, and what follows from the first parenthesis on. -/
structure Header where
  initial : Char
  type : List Char
  name : List Char
  gap : List Char
  rest : List Char
  initial_ok : (initial.isAlpha || initial = '_') = true
  type_ok : ∀ c ∈ type, typeChar u c = true
  type_end : ∀ c ∈ type.getLast?, u.word c = false
  name_ne : name ≠ []
  name_ok : ∀ c ∈ name, u.word c = true ∧ u.space c = false
  gap_ok : ∀ c ∈ gap, u.space c = true ∧ u.word c = false

end

section

variable {u : Unicode}

/-- The line of a signature. -/
def Header.line (h : Header u) : List Char :=
  h.initial :: (h.type ++ (h.name ++ (h.gap ++ '(' :: h.rest)))

lemma word_paren : u.word '(' = false := u.word_ascii '(' (by decide)

lemma space_paren : u.space '(' = false := u.space_ascii '(' (by decide)

lemma typeChar_paren : typeChar u '(' = false := by simp [typeChar, word_paren]

lemma append_cons_inj {c : Char} {a b r s : List Char} (ha : c ∉ a) (hb : c ∉ b)
    (h : a ++ c :: r = b ++ c :: s) : a = b ∧ r = s := by
  induction a generalizing b with
  | nil =>
    cases b with
    | nil => exact ⟨rfl, (List.cons.inj h).2⟩
    | cons d b => exact absurd (List.mem_cons.mpr (Or.inl (List.cons.inj h).1)) hb
  | cons x a ih =>
    cases b with
    | nil => exact absurd (List.mem_cons.mpr (Or.inl (List.cons.inj h).1.symm)) ha
    | cons d b =>
      obtain ⟨rfl, htail⟩ := List.cons.inj h
      obtain ⟨rfl, hr⟩ := ih (fun hc => ha (List.mem_cons_of_mem _ hc))
        (fun hc => hb (List.mem_cons_of_mem _ hc)) htail
      exact ⟨rfl, hr⟩

lemma mem_fromName {st st' : St Char} (h : st' ∈ (fromName u).results st) :
    ∃ word gap rest before groups, st.after = word ++ (gap ++ '(' :: rest) ∧ word ≠ [] ∧
      (∀ c ∈ word, u.word c = true) ∧ (∀ c ∈ gap, u.space c = true) ∧
      st' ∈ (afterParen u).results ⟨before, rest, groups⟩ := by
  obtain ⟨before, after, groups⟩ := st
  obtain ⟨mid, hmid, h⟩ := mem_seq.mp h
  obtain ⟨named, hnamed, rfl⟩ := mem_group.mp hmid
  obtain ⟨one, hone, hnamed⟩ := mem_seq.mp hnamed
  obtain ⟨c, left, rfl, hc, rfl⟩ := mem_chr.mp hone
  obtain ⟨word, left, rfl, hword, rfl⟩ := mem_star_chr.mp hnamed
  obtain ⟨spaced, hspaced, h⟩ := mem_seq.mp h
  obtain ⟨gap, left, rfl, hgap, rfl⟩ := mem_star_chr.mp hspaced
  obtain ⟨paren, hparen, h⟩ := mem_seq.mp h
  obtain ⟨d, rest, rfl, hd, rfl⟩ := mem_chr.mp hparen
  rw [show d = '(' from of_decide_eq_true hd] at h
  refine ⟨c :: word, gap, rest, _, _, ?_, List.cons_ne_nil _ _, List.forall_mem_cons.mpr ⟨hc, hword⟩,
    hgap, h⟩
  rw [show d = '(' from of_decide_eq_true hd]
  rfl

lemma paren_free {word gap : List Char} (hword : ∀ c ∈ word, u.word c = true)
    (hgap : ∀ c ∈ gap, u.space c = true) : '(' ∉ word ++ gap := by
  intro hmem
  rcases List.mem_append.mp hmem with hmem | hmem
  · have := hword _ hmem
    rw [word_paren] at this
    cases this
  · have := hgap _ hmem
    rw [space_paren] at this
    cases this

lemma word_gap_stop {word gap before more : List Char} {mark c : Char}
    (h : before ++ mark :: c :: more = word ++ gap) (hword : ∀ x ∈ word, u.word x = true)
    (hgap : ∀ x ∈ gap, u.space x = true) (hmark : u.word mark = false) (hc : u.space c = false) : False := by
  have hspace : c ∉ gap := fun hmem => by
    rw [hgap c hmem] at hc
    cases hc
  rcases List.append_eq_append_iff.mp h with ⟨t, rfl, ht⟩ | ⟨t, rfl, rfl⟩
  · cases t with
    | nil =>
      rw [List.nil_append] at ht
      exact hspace (by simp [← ht])
    | cons x t =>
      obtain ⟨rfl, -⟩ := List.cons.inj ht
      rw [hword mark (by simp)] at hmark
      cases hmark
  · exact hspace (by simp)

variable (h : Header u)

lemma Header.paren_notMem : '(' ∉ h.type ∧ '(' ∉ h.name ++ h.gap := by
  refine ⟨fun hmem => ?_, paren_free (fun c hc => (h.name_ok c hc).1) fun c hc => (h.gap_ok c hc).1⟩
  have hparen := h.type_ok _ hmem
  rw [typeChar_paren] at hparen
  cases hparen

/-- What a match from inside the return type would go through, or one from the name on. -/
lemma Header.through {b before : List Char} {groups : List (ℕ × List Char)} (hb : '(' ∉ b) {st' : St Char}
    (hst' : st' ∈ (fromName u).results ⟨before, b ++ '(' :: h.rest, groups⟩) :
    ∃ word gap before' groups', b = word ++ gap ∧ word ≠ [] ∧ (∀ c ∈ word, u.word c = true) ∧
      (∀ c ∈ gap, u.space c = true) ∧ st' ∈ (afterParen u).results ⟨before', h.rest, groups'⟩ := by
  obtain ⟨word, gap, rest, before', groups', hafter, hne, hword, hgap, hparen⟩ := mem_fromName hst'
  rw [show word ++ (gap ++ '(' :: rest) = word ++ gap ++ '(' :: rest by rw [List.append_assoc]] at hafter
  obtain ⟨rfl, hrest⟩ := append_cons_inj hb (paren_free hword hgap) hafter
  rw [← hrest] at hparen
  exact ⟨word, gap, before', groups', rfl, hne, hword, hgap, hparen⟩

lemma Header.not_inside {a b before : List Char} {groups : List (ℕ × List Char)}
    (hab : h.type = a ++ b) (hb : b ≠ []) :
    (fromName u).head ⟨before, b ++ (h.name ++ (h.gap ++ '(' :: h.rest)), groups⟩ = none := by
  refine head_eq_none (List.eq_nil_iff_forall_not_mem.mpr fun st' hst' => ?_)
  rw [show b ++ (h.name ++ (h.gap ++ '(' :: h.rest)) = b ++ (h.name ++ h.gap) ++ '(' :: h.rest by simp] at hst'
  obtain ⟨hparen, hparen'⟩ := h.paren_notMem
  have hnone : '(' ∉ b ++ (h.name ++ h.gap) := by
    rw [hab] at hparen
    simp only [List.mem_append, not_or] at hparen hparen' ⊢
    exact ⟨hparen.2, hparen'⟩
  obtain ⟨word, gap, -, -, heq, -, hword, hgap, -⟩ := h.through hnone hst'
  -- what is left of it ends in a character that no word has
  obtain ⟨mark, hmark⟩ : ∃ mark, b.getLast? = some mark := ⟨_, List.getLast?_eq_some_getLast hb⟩
  have hword' : u.word mark = false := h.type_end mark (by
    rw [hab, List.getLast?_append_of_ne_nil _ hb]
    exact hmark)
  obtain ⟨b', rfl⟩ := List.getLast?_eq_some_iff.mp hmark
  obtain ⟨c, name, hname⟩ := List.exists_cons_of_ne_nil h.name_ne
  rw [hname, List.append_assoc] at heq
  exact word_gap_stop heq hword hgap hword' (h.name_ok c (by simp [hname])).2

lemma blind_afterParen : (afterParen u).Blind := by
  simp [afterParen, Re.Blind, Re.opt, restOfLine, textEnd]

lemma head_group {k : ℕ} {r : Re} {st mid : St Char} (hr : r.head st = some mid) :
    (Re.group k r).head st = some ⟨mid.before, mid.after, (k, st.upto mid) :: mid.groups⟩ := by
  rw [Re.head, Re.results, List.head?_map, ← Re.head, hr]
  rfl

lemma Header.head_fromName (before : List Char) {before' : List Char} {groups' : List (ℕ × List Char)}
    {st' : St Char}
    (hst' : st' ∈ (afterParen u).results ⟨before', h.rest, groups'⟩) :
    ∃ st'', (fromName u).head ⟨before, h.name ++ (h.gap ++ '(' :: h.rest), []⟩ = some st'' ∧
      st''.groups.lookup 1 = some h.name := by
  obtain ⟨c, word, hname⟩ := List.exists_cons_of_ne_nil h.name_ne
  have hword : ∀ x ∈ c :: word, u.word x = true := fun x hx => (h.name_ok x (hname ▸ hx)).1
  have hstop : ∀ x ∈ (h.gap ++ '(' :: h.rest).head?, u.word x = false := by
    intro x hx
    cases hgap : h.gap with
    | nil =>
      rw [hgap] at hx
      cases hx
      exact word_paren
    | cons y gap =>
      rw [hgap] at hx
      cases hx
      exact (h.gap_ok _ (by simp [hgap])).2
  have hplus : (Re.plus true (.chr u.word)).head ⟨before, h.name ++ (h.gap ++ '(' :: h.rest), []⟩ =
      some ⟨h.name.reverse ++ before, h.gap ++ '(' :: h.rest, []⟩ := by
    rw [hname, List.reverse_cons, List.append_assoc]
    have hone : (Re.chr u.word).head ⟨before, c :: (word ++ (h.gap ++ '(' :: h.rest)), []⟩ =
        some ⟨c :: before, word ++ (h.gap ++ '(' :: h.rest), []⟩ := by
      rw [Re.head, results_chr_cons (hword c List.mem_cons_self)]
      rfl
    exact head_seq_of_head hone
      (head_star_run (fun x hx => hword x (List.mem_cons_of_mem _ hx)) hstop)
  have hgroup := head_group (k := 1) hplus
  rw [upto_append] at hgroup
  have hgap : (Re.star true (.chr u.space)).head
      ⟨h.name.reverse ++ before, h.gap ++ '(' :: h.rest, [(1, h.name)]⟩ =
      some ⟨h.gap.reverse ++ (h.name.reverse ++ before), '(' :: h.rest, [(1, h.name)]⟩ :=
    head_star_run (fun x hx => (h.gap_ok x hx).1) fun x hx => by
      cases hx
      exact space_paren
  have hparen : (Re.chr (· = '(')).head
      ⟨h.gap.reverse ++ (h.name.reverse ++ before), '(' :: h.rest, [(1, h.name)]⟩ =
      some ⟨'(' :: (h.gap.reverse ++ (h.name.reverse ++ before)), h.rest, [(1, h.name)]⟩ := rfl
  -- what follows the parenthesis does not depend on the way to it
  obtain ⟨found, hfound, -⟩ : ∃ found ∈ (afterParen u).results
      ⟨'(' :: (h.gap.reverse ++ (h.name.reverse ++ before)), h.rest, [(1, h.name)]⟩,
      st'.after = found.after := by
    refine exists_result_blind blind_afterParen ?_ hst'
    rfl
  obtain ⟨last, hlast⟩ := Option.isSome_iff_exists.mp
    (List.isSome_head?.mpr (List.ne_nil_of_mem hfound))
  refine ⟨last, head_seq_of_head hgroup (head_seq_of_head hgap (head_seq_of_head hparen hlast)), ?_⟩
  have hnumber : 1 ∉ (afterParen u).numbers := by
    simp [afterParen, Re.numbers, Re.opt, restOfLine, textEnd]
  rw [lookup_results hnumber (List.mem_of_mem_head? hlast), List.lookup_cons_self]

lemma exists_parts {line : List Char} (hmatch : ((SIGNATURE u).matchStart line).isSome = true) :
    ∃ c typed word gap rest before groups, ∃ st' : St Char,
      line = c :: (typed ++ (word ++ (gap ++ '(' :: rest))) ∧ (c.isAlpha || c = '_') = true ∧
      (∀ x ∈ typed, typeChar u x = true) ∧ word ≠ [] ∧ (∀ x ∈ word, u.word x = true) ∧
      (∀ x ∈ gap, u.space x = true) ∧ st' ∈ (afterParen u).results ⟨before, rest, groups⟩ := by
  have hresult : ∃ st', st' ∈ (SIGNATURE u).results ⟨[], line, []⟩ := by
    obtain ⟨m, hm⟩ := Option.isSome_iff_exists.mp hmatch
    obtain ⟨st', hst', -⟩ := Option.map_eq_some_iff.mp hm
    exact ⟨st', List.mem_of_mem_head? hst'⟩
  obtain ⟨st', hst'⟩ := hresult
  rw [signature_eq] at hst'
  obtain ⟨start, hstart, hst'⟩ := mem_seq.mp hst'
  obtain ⟨-, rfl⟩ := mem_look.mp hstart
  obtain ⟨one, hone, hst'⟩ := mem_seq.mp hst'
  obtain ⟨c, left, hline, hc, rfl⟩ := mem_chr.mp hone
  obtain ⟨passed, hpassed, hst'⟩ := mem_seq.mp hst'
  obtain ⟨typed, left', rfl, htyped, rfl⟩ := mem_star_chr.mp hpassed
  obtain ⟨word, gap, rest, before, groups, hafter, hne, hword, hgap, hparen⟩ := mem_fromName hst'
  refine ⟨c, typed, word, gap, rest, before, groups, st', ?_, hc, htyped, hne, hword, hgap, hparen⟩
  rw [show left' = word ++ (gap ++ '(' :: rest) from hafter] at hline
  exact hline

/-- There is no parenthesis before the one behind the name. -/
lemma parts_paren {typed word gap : List Char} (htyped : ∀ x ∈ typed, typeChar u x = true)
    (hword : ∀ x ∈ word, u.word x = true) (hgap : ∀ x ∈ gap, u.space x = true) : '(' ∉ typed ++ (word ++ gap) := by
  intro hmem
  rcases List.mem_append.mp hmem with hmem | hmem
  · have := htyped _ hmem
    rw [typeChar_paren] at this
    cases this
  · exact paren_free hword hgap hmem

/-- **What `SIGNATURE` takes for the name** is the word before the parenthesis. -/
theorem Header.name_of_signature (hmatch : ((SIGNATURE u).matchStart h.line).isSome = true) :
    ∃ m, (SIGNATURE u).matchStart h.line = some m ∧ m.group 1 = h.name := by
  obtain ⟨c, typed, word, gap, rest, before, groups, st', hline, -, htyped, -, hword, hgap, hparen⟩ :=
    exists_parts hmatch
  have hsame : h.type ++ (h.name ++ h.gap) ++ '(' :: h.rest = typed ++ (word ++ gap) ++ '(' :: rest := by
    simpa using (List.cons.inj hline).2
  have hrest : h.rest = rest := by
    refine (append_cons_inj ?_ (parts_paren htyped hword hgap) hsame).2
    rw [List.mem_append, not_or]
    exact h.paren_notMem
  rw [← hrest] at hparen
  obtain ⟨last, hlast, hlookup⟩ := h.head_fromName (h.type.reverse ++ [h.initial]) hparen
  have hlazy : (Re.seq (.star false (.chr (typeChar u))) (fromName u)).head
      ⟨[h.initial], h.type ++ (h.name ++ (h.gap ++ '(' :: h.rest)), []⟩ = some last :=
    head_lazy h.type_ok (fun a b hab hb => h.not_inside hab hb) hlast
  have hinitial : (Re.chr fun c => c.isAlpha || c = '_').head ⟨[], h.line, []⟩ =
      some ⟨[h.initial], h.type ++ (h.name ++ (h.gap ++ '(' :: h.rest)), []⟩ := by
    rw [Header.line, Re.head, results_chr_cons h.initial_ok]
    rfl
  have hhead : (SIGNATURE u).head ⟨[], h.line, []⟩ = some last := by
    rw [signature_eq]
    exact head_seq_of_head rfl (head_seq_of_head hinitial hlazy)
  refine ⟨St.toMatch ⟨[], h.line, []⟩ last, ?_, ?_⟩
  · rw [Re.matchStart, first_eq, hhead]
    rfl
  · show (last.groups.lookup 1).getD [] = h.name
    rw [hlookup]
    rfl

lemma rdropWhile_run {p : Char → Bool} {w gap : List Char} (hgap : ∀ c ∈ gap, p c = true)
    (hw : ∀ c ∈ w.getLast?, p c = false) : (w ++ gap).rdropWhile p = w := by
  have hdrop : (w ++ gap).rdropWhile p = w.rdropWhile p := by
    unfold List.rdropWhile
    rw [List.reverse_append, List.dropWhile_append_of_pos (by simpa using hgap)]
  rw [hdrop, List.rdropWhile_eq_self_iff]
  intro hne
  rw [hw _ (List.getLast?_eq_some_getLast hne)]
  exact Bool.false_ne_true

lemma rtakeWhile_run {p : Char → Bool} {type name : List Char} (hname : ∀ c ∈ name, p c = true) :
    (type ++ name).rtakeWhile p = type.rtakeWhile p ++ name := by
  unfold List.rtakeWhile
  rw [List.reverse_append, List.takeWhile_append_of_pos (by simpa using hname), List.reverse_append,
    List.reverse_reverse]

lemma rdropWhile_append_rtakeWhile {p : Char → Bool} (text : List Char) :
    text.rdropWhile p ++ text.rtakeWhile p = text := by
  unfold List.rdropWhile List.rtakeWhile
  rw [← List.reverse_append, List.takeWhile_append_dropWhile, List.reverse_reverse]

/-- **Each line that `SIGNATURE` matches** is taken apart so, if none of its characters is both a letter and a
blank. -/
theorem exists_header {line : List Char} (hmatch : ((SIGNATURE u).matchStart line).isSome = true)
    (hplain : ∀ c ∈ line, u.word c = true → u.space c = false) :
    ∃ h : Header u, h.line = line ∧ h.name = wordBefore u line := by
  obtain ⟨c, typed, word, gap, rest, -, -, -, rfl, hc, htyped, hne, hword, hgap, -⟩ := exists_parts hmatch
  have hname : ∀ x ∈ typed.rtakeWhile u.word ++ word, u.word x = true ∧ u.space x = false := by
    intro x hx
    have hletter : u.word x = true := (List.mem_append.mp hx).elim List.mem_rtakeWhile_imp (hword x)
    refine ⟨hletter, hplain x ?_ hletter⟩
    rcases List.mem_append.mp hx with hx | hx
    · simp [(List.rtakeWhile_suffix u.word typed).subset hx]
    · simp [hx]
  -- the type ends where the letters of the name begin
  refine ⟨{
    initial := c
    type := typed.rdropWhile u.word
    name := typed.rtakeWhile u.word ++ word
    gap, rest
    initial_ok := hc
    type_ok := fun x hx => htyped x ((List.rdropWhile_prefix u.word typed).subset hx)
    type_end := fun x hx => ?_
    name_ne := by simp [hne]
    name_ok := hname
    gap_ok := fun x hx => ⟨hgap x hx, ?_⟩ }, ?_, ?_⟩
  · obtain ⟨hne, rfl⟩ := List.mem_getLast?_eq_getLast hx
    exact Bool.eq_false_of_not_eq_true (List.rdropWhile_last_not _ _ hne)
  · refine Bool.eq_false_of_not_eq_true fun hletter => ?_
    have := hplain x (by simp [hx]) hletter
    rw [hgap x hx] at this
    cases this
  · rw [Header.line, List.append_assoc, ← List.append_assoc _ (typed.rtakeWhile u.word),
      rdropWhile_append_rtakeWhile]
  · -- what is before the first parenthesis is the type, the name and the gap
    have hbefore : (c :: (typed ++ (word ++ (gap ++ '(' :: rest)))).takeWhile (· ≠ '(') =
        c :: (typed ++ word ++ gap) := by
      have hfree := parts_paren htyped hword hgap
      have hbehind : ∀ x ∈ c :: (typed ++ word ++ gap), (decide (x ≠ '(')) = true := by
        intro x hx
        rw [decide_eq_true_eq]
        rintro rfl
        rw [List.append_assoc] at hx
        rcases List.mem_cons.mp hx with rfl | hx
        · revert hc
          decide
        · exact hfree hx
      have hsplit : c :: (typed ++ (word ++ (gap ++ '(' :: rest))) =
          (c :: (typed ++ word ++ gap)) ++ '(' :: rest := by
        simp
      rw [hsplit, List.takeWhile_append_of_pos hbehind, List.takeWhile_cons_of_neg (by simp), List.append_nil]
    unfold wordBefore
    rw [hbefore, List.tail_cons, rdropWhile_run hgap, rtakeWhile_run hword]
    intro x hx
    rw [List.getLast?_append_of_ne_nil _ hne] at hx
    exact (hname x (List.mem_append_right _ (List.mem_of_mem_getLast? hx))).2

end

/-! ### Files -/

/-- A line that has as many closing braces as opening ones, and has some. -/
def OneLine (line : List Char) : Prop := '\x7b' ∈ line ∧ line.count '\x7b' = line.count '\x7d'

instance (line : List Char) : Decidable (OneLine line) := by
  unfold OneLine
  infer_instance

section

variable (u : Unicode)

/-- A closing brace alone, at the left margin. -/
def Alone (line : List Char) : Prop := rstrip u line = ['\x7d']

instance (line : List Char) : Decidable (Alone u line) := by
  unfold Alone
  infer_instance

/-- A line that begins with a word. -/
def BeginsWith (word line : List Char) : Prop :=
  ∃ rest, line = word ++ rest ∧ ∀ c ∈ rest.head?, u.word c = false

/-- The line that a function begins with: `SIGNATURE` matches it. The name is the one that it declares, a word of
the line and no keyword. No character of it is both a letter and a blank, as none is in Python. -/
structure Signature where
  line : List Char
  name : List Char
  matched : ((SIGNATURE u).matchStart line).isSome = true
  declared : .word name ∈ toks u.word line
  no_keyword : name ∉ keywords
  plain : ∀ c ∈ line, u.word c = true → u.space c = false

/-- **What a file consists of**: definitions on one line, definitions that end in a lone closing brace,
and other lines, which no signature matches or which begin with a keyword. -/
inductive Piece where
  | oneLine (signature : Signature u) (h : OneLine signature.line)
  | block (signature : Signature u) (h : ¬ OneLine signature.line) (body : List (List Char))
    (hbody : ∀ line ∈ body, ¬ Alone u line) (close : List Char) (hclose : Alone u close)
  | other (line : List Char)
    (h : (SIGNATURE u).matchStart line = none ∨ ∃ word ∈ keywords, BeginsWith u word line)

/-- A line that `function_spans` takes for a signature. -/
def Taken (line : List Char) : Prop := ∃ m, (SIGNATURE u).matchStart line = some m ∧ m.group 1 ∉ keywords

end

section

variable {u : Unicode}

/-- The lines of a piece. -/
def Piece.lines : Piece u → List (List Char)
  | .oneLine signature _ => [signature.line]
  | .block signature _ body _ close _ => signature.line :: (body ++ [close])
  | .other line _ => [line]

/-- The definitions among some pieces, of which the first begins in line `n`. -/
def definitions : ℕ → List (Piece u) → List Function
  | _, [] => []
  | n, .oneLine signature _ :: ps => ⟨signature.name, n, n⟩ :: definitions (n + 1) ps
  | n, .block signature _ body _ _ _ :: ps =>
    ⟨signature.name, n, n + body.length + 1⟩ :: definitions (n + body.length + 2) ps
  | n, .other _ _ :: ps => definitions (n + 1) ps

/-- A line that neither is a definition nor closes one. -/
def Piece.Silent : Piece u → Prop
  | .other line _ => ¬ Alone u line
  | _ => False

/-- **No line between definitions is taken for a signature**, except for a last one, behind which
there is no definition and no lone closing brace; and the name of each definition before that is the word right
before the first parenthesis. -/
def Quiet : List (Piece u) → Prop
  | [] => True
  | .other line _ :: ps =>
    (Taken u line → ¬ OneLine line ∧ ∀ p ∈ ps, p.Silent) ∧ (¬ Taken u line → Quiet ps)
  | .oneLine signature _ :: ps => wordBefore u signature.line = signature.name ∧ Quiet ps
  | .block signature _ _ _ _ _ :: ps => wordBefore u signature.line = signature.name ∧ Quiet ps

/-! ### Lines -/

variable {n : ℕ} {spans : List Function} {line : List Char}

lemma step_untaken (h : ¬ Taken u line) : spanStep u (spans, none) line n = (spans, none) := by
  simp only [spanStep]
  split
  · rfl
  · rename_i m hm
    rw [if_pos (by
      by_contra hkeyword
      exact h ⟨m, hm, hkeyword⟩)]

lemma step_taken {m : Match Char} (hm : (SIGNATURE u).matchStart line = some m) (hname : m.group 1 ∉ keywords) :
    spanStep u (spans, none) line n =
      if OneLine line then (spans ++ [⟨m.group 1, n, n⟩], none) else (spans, some (n, m.group 1)) := by
  simp only [spanStep, hm, if_neg hname]
  rfl

lemma Signature.exists_match (s : Signature u) :
    ∃ m, (SIGNATURE u).matchStart s.line = some m ∧ m.group 1 = wordBefore u s.line := by
  obtain ⟨h, hline, hname⟩ := exists_header s.matched s.plain
  obtain ⟨m, hm, hgroup⟩ := h.name_of_signature (by rw [hline]; exact s.matched)
  exact ⟨m, hline ▸ hm, hgroup.trans hname⟩

lemma Signature.step (s : Signature u) : spanStep u (spans, none) s.line n =
    if wordBefore u s.line ∈ keywords then (spans, none)
    else if OneLine s.line then (spans ++ [⟨wordBefore u s.line, n, n⟩], none)
    else (spans, some (n, wordBefore u s.line)) := by
  obtain ⟨m, hm, hname⟩ := s.exists_match
  rw [← hname]
  split_ifs with hkeyword hone
  · refine step_untaken fun ⟨m', hm', hno⟩ => hno ?_
    rwa [← Option.some.inj (hm.symm.trans hm')]
  · rw [step_taken hm hkeyword, if_pos hone]
  · rw [step_taken hm hkeyword, if_neg hone]

lemma Signature.step_named (s : Signature u) (h : wordBefore u s.line = s.name) :
    spanStep u (spans, none) s.line n =
      if OneLine s.line then (spans ++ [⟨s.name, n, n⟩], none) else (spans, some (n, s.name)) := by
  rw [s.step, h, if_neg s.no_keyword]

lemma scan_body {start : ℕ} {name : List Char} {lines : List (List Char)}
    (h : ∀ line ∈ lines, ¬ Alone u line) :
    scan u n (spans, some (start, name)) lines = (spans, some (start, name)) := by
  induction lines generalizing n with
  | nil => rfl
  | cons line lines ih =>
    obtain ⟨hline, hlines⟩ := List.forall_mem_cons.mp h
    rw [scan_cons, show spanStep u (spans, some (start, name)) line n = (spans, some (start, name)) from
      if_neg hline]
    exact ih hlines

lemma kept_spans (st : List Function × Option (ℕ × List Char)) (lines : List (List Char)) :
    st.1 <+: (scan u n st lines).1 := by
  induction lines generalizing n st with
  | nil => exact List.prefix_refl _
  | cons line lines ih =>
    refine List.IsPrefix.trans ?_ (ih (spanStep u st line n))
    obtain ⟨spans, _ | ⟨start, name⟩⟩ := st
    · simp only [spanStep]
      split
      · exact List.prefix_refl _
      · split_ifs
        · exact List.prefix_refl _
        · exact List.prefix_append _ _
        · exact List.prefix_refl _
    · simp only [spanStep]
      split_ifs
      · exact List.prefix_append _ _
      · exact List.prefix_refl _

/-- **A function that is open** ends at the first lone closing brace, if there is one. -/
lemma scan_open {start : ℕ} {name : List Char} {lines : List (List Char)}
    (h : ∃ line ∈ lines, Alone u line) :
    ∃ k, spans ++ [⟨name, start, k⟩] <+: (scan u n (spans, some (start, name)) lines).1 := by
  induction lines generalizing n with
  | nil =>
    obtain ⟨line, hline, -⟩ := h
    cases hline
  | cons line lines ih =>
    rw [scan_cons]
    by_cases hline : Alone u line
    · refine ⟨n, ?_⟩
      rw [show spanStep u (spans, some (start, name)) line n = (spans ++ [⟨name, start, n⟩], none) from
        if_pos hline]
      exact kept_spans (spans ++ [⟨name, start, n⟩], none) lines
    · rw [show spanStep u (spans, some (start, name)) line n = (spans, some (start, name)) from
        if_neg hline]
      obtain ⟨other, hother, halone⟩ := h
      rcases List.mem_cons.mp hother with rfl | hother
      · exact absurd halone hline
      · exact ih ⟨other, hother, halone⟩

/-! ### Pieces -/

lemma le_start_definitions {ps : List (Piece u)} {f : Function} (hf : f ∈ definitions n ps) : n ≤ f.start := by
  induction ps generalizing n with
  | nil => cases hf
  | cons p ps ih =>
    cases p with
    | oneLine signature h =>
      rcases List.mem_cons.mp hf with rfl | hf
      · exact le_rfl
      · exact Nat.le_of_succ_le (ih hf)
    | block signature h body hbody close hclose =>
      rcases List.mem_cons.mp hf with rfl | hf
      · exact le_rfl
      · have := ih hf
        omega
    | other line h => exact Nat.le_of_succ_le (ih hf)

lemma silent_iff {ps : List (Piece u)} : (∀ p ∈ ps, p.Silent) ↔
    (∀ line ∈ ps.flatMap Piece.lines, ¬ Alone u line) ∧ definitions n ps = [] := by
  induction ps generalizing n with
  | nil => simp [definitions]
  | cons p ps ih =>
    rw [List.forall_mem_cons, List.flatMap_cons]
    cases p with
    | oneLine signature h => simp [Piece.Silent, definitions]
    | block signature h body hbody close hclose => simp [Piece.Silent, definitions]
    | other line h =>
      rw [ih (n := n + 1)]
      simp only [Piece.Silent, Piece.lines, List.singleton_append, List.forall_mem_cons, definitions,
        and_assoc]

lemma scan_block (s : Signature u) (hname : wordBefore u s.line = s.name) (hs : ¬ OneLine s.line)
    {body : List (List Char)} (hbody : ∀ line ∈ body, ¬ Alone u line) {close : List Char} (hclose : Alone u close) :
    scan u n (spans, none) (s.line :: (body ++ [close])) =
      (spans ++ [⟨s.name, n, n + body.length + 1⟩], none) := by
  rw [scan_cons, s.step_named hname, if_neg hs, scan_append, scan_body hbody, scan_cons, scan_nil,
    Nat.add_right_comm n 1]
  exact if_pos hclose

lemma le_start_scan {m : ℕ} {p : List Function × Option (ℕ × List Char)}
    (hopen : ∀ o, p.2 = some o → m ≤ o.1) (hm : m ≤ n) (lines : List (List Char)) :
    ∃ more, (scan u n p lines).1 = p.1 ++ more ∧ ∀ f ∈ more, m ≤ f.start := by
  induction lines generalizing n p with
  | nil => exact ⟨[], by simp, by simp⟩
  | cons line lines ih =>
    rw [scan_cons]
    obtain ⟨spans, opened⟩ := p
    have hnext : ∃ found, (spanStep u (spans, opened) line n).1 = spans ++ found ∧ (∀ f ∈ found, m ≤ f.start) ∧
        ∀ o, (spanStep u (spans, opened) line n).2 = some o → m ≤ o.1 := by
      cases opened with
      | none =>
        simp only [spanStep]
        split
        · exact ⟨[], by simp, by simp, by simp⟩
        · split_ifs
          · exact ⟨[], by simp, by simp, by simp⟩
          · exact ⟨[_], rfl, by simpa using hm, by simp⟩
          · refine ⟨[], by simp, by simp, fun o ho => ?_⟩
            cases ho
            exact hm
      | some o =>
        simp only [spanStep]
        split_ifs
        · exact ⟨[_], rfl, by simpa using hopen o rfl, by simp⟩
        · exact ⟨[], by simp, by simp, hopen⟩
    obtain ⟨found, hfound, hstart, hstill⟩ := hnext
    obtain ⟨more, hmore, hlater⟩ := ih hstill (Nat.le_succ_of_le hm)
    refine ⟨found ++ more, by rw [hmore, hfound, List.append_assoc], fun f hf => ?_⟩
    exact (List.mem_append.mp hf).elim (hstart f) (hlater f)

/-- **A definition with another name is not found**: no span in its place has its name. -/
lemma scan_misnamed (s : Signature u) (hname : wordBefore u s.line ≠ s.name) (k : ℕ) (lines : List (List Char))
    (more : List Function) :
    (scan u n (spans, none) (s.line :: lines)).1 ≠ spans ++ ⟨s.name, n, k⟩ :: more := by
  have hother : ∀ {found : List Function} {k' : ℕ}, spans ++ [⟨wordBefore u s.line, n, k'⟩] <+: found →
      found ≠ spans ++ ⟨s.name, n, k⟩ :: more := by
    rintro found k' ⟨behind, rfl⟩ heq
    rw [List.append_assoc] at heq
    have hhead := (List.cons.inj (List.append_cancel_left heq)).1
    exact hname (congrArg Function.name hhead)
  rw [scan_cons, s.step]
  split_ifs with hkeyword hone
  · -- its line is passed over, and every later span begins later
    obtain ⟨found, hfound, hstart⟩ := le_start_scan (u := u) (m := n + 1) (p := (spans, none))
      (by simp) le_rfl lines
    rw [hfound]
    intro heq
    have hlater := hstart ⟨s.name, n, k⟩ (by simp [List.append_cancel_left heq])
    have hle : n + 1 ≤ n := hlater
    omega
  · exact hother (kept_spans (spans ++ [⟨wordBefore u s.line, n, n⟩], none) lines)
  · by_cases halone : ∃ line ∈ lines, Alone u line
    · obtain ⟨k', hprefix⟩ := scan_open (u := u) (n := n + 1) halone
      exact hother hprefix
    · push Not at halone
      rw [scan_body halone]
      intro heq
      have hlength := congrArg List.length heq
      simp only [List.length_append, List.length_cons] at hlength
      omega

/-- **The scan of a file** finds its definitions if and only if they are named by the words before the parentheses
and no other line is taken for a signature. -/
theorem scan_pieces (ps : List (Piece u)) (n : ℕ) (spans : List Function) :
    (scan u n (spans, none) (ps.flatMap Piece.lines)).1 = spans ++ definitions n ps ↔ Quiet ps := by
  induction ps generalizing n spans with
  | nil => simp [definitions, Quiet]
  | cons p ps ih =>
    rw [List.flatMap_cons]
    cases p with
    | oneLine s hs =>
      rw [Piece.lines, List.singleton_append, definitions, Quiet]
      by_cases hname : wordBefore u s.line = s.name
      · rw [and_iff_right hname, scan_cons, s.step_named hname, if_pos hs]
        have ih := ih (n + 1) (spans ++ [⟨s.name, n, n⟩])
        rw [List.append_assoc] at ih
        exact ih
      · -- a span with another name is not among the definitions
        exact iff_of_false (scan_misnamed s hname n _ _) fun hquiet => hname hquiet.1
    | block s hs body hbody close hclose =>
      rw [Piece.lines, definitions, Quiet]
      by_cases hname : wordBefore u s.line = s.name
      · rw [and_iff_right hname, scan_append, scan_block s hname hs hbody hclose]
        -- the scan goes on behind the closing line
        have hlength : n + (s.line :: (body ++ [close])).length = n + body.length + 2 := by
          simp only [List.length_cons, List.length_append, List.length_nil]
          omega
        have ih := ih (n + body.length + 2) (spans ++ [⟨s.name, n, n + body.length + 1⟩])
        rw [List.append_assoc] at ih
        rw [hlength]
        exact ih
      · exact iff_of_false (scan_misnamed s hname _ _ _) fun hquiet => hname hquiet.1
    | other line h =>
      rw [Piece.lines, List.singleton_append, scan_cons, definitions, Quiet]
      by_cases htaken : Taken u line
      · simp only [htaken, not_true_eq_false, false_implies, and_true, true_implies]
        obtain ⟨m, hm, hname⟩ := htaken
        rw [step_taken hm hname]
        by_cases hone : OneLine line
        · -- a span that begins in this line, where no definition begins
          rw [if_pos hone]
          refine iff_of_false (fun heq => ?_) fun hquiet => hquiet.1 hone
          obtain ⟨more, hmore⟩ := kept_spans (u := u) (n := n + 1) (spans ++ [⟨m.group 1, n, n⟩], none)
            (ps.flatMap Piece.lines)
          rw [← hmore, List.append_assoc] at heq
          have hmem : (⟨m.group 1, n, n⟩ : Function) ∈ definitions (n + 1) ps := by
            rw [← List.append_cancel_left heq]
            exact List.mem_cons_self
          have hle : n + 1 ≤ n := le_start_definitions hmem
          omega
        · rw [if_neg hone]
          by_cases halone : ∃ line ∈ ps.flatMap Piece.lines, Alone u line
          · refine iff_of_false (fun heq => ?_) fun hquiet => ?_
            · obtain ⟨k, more, hmore⟩ := scan_open (u := u) (n := n + 1) halone
              rw [← hmore, List.append_assoc] at heq
              have hmem : (⟨m.group 1, n, k⟩ : Function) ∈ definitions (n + 1) ps := by
                rw [← List.append_cancel_left heq]
                exact List.mem_cons_self
              have hle : n + 1 ≤ n := le_start_definitions hmem
              omega
            · obtain ⟨line, hline, hclose⟩ := halone
              exact ((silent_iff (n := n)).mp hquiet.2).1 line hline hclose
          · push Not at halone
            rw [scan_body halone, List.self_eq_append_right, silent_iff (n := n + 1)]
            exact ⟨fun hnil => ⟨hone, halone, hnil⟩, fun hquiet => hquiet.2.2⟩
      · -- a line that begins no span
        rw [step_untaken htaken]
        simp only [htaken, false_implies, true_and, not_false_eq_true, true_implies]
        exact ih (n + 1) spans

/-- **`function_spans`**: the spans lie in the file, one after the other, so that a line is in one of them
at most, which is what `enclosing` returns; and those of a file in the layout that the docstring names are its
definitions, if and only if each is named by the word right before the first parenthesis of its line and no other
line is taken for a signature. -/
theorem functionSpans_iff (u : Unicode) (text : List Char) :
    (∀ f ∈ functionSpans u text, 1 ≤ f.start ∧ f.start ≤ f.end_ ∧ f.end_ ≤ (splitlines text).length) ∧
    ((functionSpans u text).Pairwise fun f g => f.end_ < g.start) ∧
    (∀ line f, enclosing (functionSpans u text) line = some f ↔
      f ∈ functionSpans u text ∧ f.start ≤ line ∧ line ≤ f.end_) ∧
    ∀ ps : List (Piece u), splitlines text = ps.flatMap Piece.lines →
      (functionSpans u text = definitions 1 ps ↔ Quiet ps) := by
  have hapart := functionSpans_apart (u := u) text
  refine ⟨fun f hf => ?_, hapart, fun line f => ⟨fun hfind => ?_, fun h => enclosing_eq hapart h.1 h.2⟩,
    fun ps hps => ?_⟩
  · obtain ⟨hone, hle, hlt⟩ := functionSpans_lies u text hf
    exact ⟨hone, hle, Nat.lt_succ_iff.mp hlt⟩
  · exact ⟨List.mem_of_find?_eq_some hfind, by simpa using List.find?_some hfind⟩
  · have hscan := scan_pieces ps 1 []
    rw [List.nil_append, ← hps] at hscan
    exact hscan

end

lemma plain_of_all {line : List Char} (h : line.all (fun c => !(ascii.word c && ascii.space c)) = true) :
    ∀ c ∈ line, ascii.word c = true → ascii.space c = false := by
  intro c hc hword
  have := List.all_eq_true.mp h c hc
  simpa [hword] using this

/-- A function without arguments. -/
def badSignature : Signature ascii where
  line := "void bad(void)".toList
  name := "bad".toList
  matched := by decide +kernel
  declared := by decide +kernel
  no_keyword := by decide
  plain := plain_of_all (by decide +kernel)

/-- A function with an attribute. -/
def attributeSignature : Signature ascii where
  line := "static void __attribute__((noinline)) bad(void)".toList
  name := "bad".toList
  matched := by decide +kernel
  declared := by decide +kernel
  no_keyword := by decide
  plain := plain_of_all (by decide +kernel)

-- the attribute is taken for the name
example : wordBefore ascii badSignature.line = badSignature.name ∧
    wordBefore ascii attributeSignature.line = "__attribute__".toList := by decide +kernel

/-- A control line, and a function on three lines behind it. -/
def controlFile : List (Piece ascii) :=
  [.other "if (DEBUG)".toList (.inr ⟨"if".toList, by decide, " (DEBUG)".toList, rfl, by simp [ascii]⟩),
    .block badSignature (by decide) [['\x7b']] (by decide) ['\x7d'] (by decide)]

/-- **A control line is taken for a function**: `SIGNATURE` matches `if (DEBUG)` with the name `f`, so that
the function behind it is lost. -/
theorem control_line_taken :
    splitlines "if (DEBUG)\nvoid bad(void)\n\x7b\n\x7d\n".toList = controlFile.flatMap Piece.lines ∧
    functionSpans ascii "if (DEBUG)\nvoid bad(void)\n\x7b\n\x7d\n".toList = [⟨['f'], 1, 4⟩] ∧
    definitions 1 controlFile = [⟨"bad".toList, 2, 4⟩] ∧
    functionSpans ascii "if (DEBUG)\nvoid bad(void)\n\x7b\n\x7d\n".toList ≠ definitions 1 controlFile := by
  refine ⟨?_, ?_, ?_, ?_⟩ <;> decide +kernel

end CSecureBuild.Harness.Functions
