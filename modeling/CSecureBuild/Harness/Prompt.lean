import CSecureBuild.Harness.Cut
import CSecureBuild.Harness.Functions
import CSecureBuild.Harness.LineAlign
import CSecureBuild.Harness.ReadingOrder

/-!
`build_messages` of `llm-eval/harness/run_eval.py` on the items of `build_v2.py`: when `scrub` refuses the code
of an item, and which label words the user message has besides the name of the tool.

The names of `prompt_code` are drawn, but which are drawn does not count (`twins_part`): they are as long as each
other and have no label word.
-/

namespace CSecureBuild.Harness.Prompt

open CSecureBuild.PyLib.Cells CSecureBuild.PyLib.Regex CSecureBuild.PyLib.Text CSecureBuild.PyLib.Words
open CSecureBuild.Harness.Scrub CSecureBuild.Harness.Patterns CSecureBuild.Harness.Lexing
open CSecureBuild.Harness.Reading CSecureBuild.Harness.Renaming CSecureBuild.Harness.LabelWords
open CSecureBuild.Harness.Rescan CSecureBuild.Harness.Cut CSecureBuild.Harness.Builder
open CSecureBuild.Harness.Items CSecureBuild.Harness.Select CSecureBuild.Lib.FirstCome
open CSecureBuild.PyLib.Containers (Shuffle)
open CSecureBuild.Harness.ReadingOrder (nodup_keys inTurn)
open CSecureBuild.Harness.Functions (enclosing)

variable {u : Unicode} {x y w : List Char}

/-! ### The blank lines a text begins with -/

/-- The lines that `LEAD` takes, one by one. -/
inductive Leads : List Char → List Char → Prop where
  | stop {blanks rest : List Char} (hblanks : ∀ c ∈ blanks, isBlank c = true)
      (hrest : ∀ c ∈ rest.head?, isBlank c = false ∧ c ≠ '\n') : Leads (blanks ++ rest) []
  | line {blanks rest lead : List Char} (hblanks : ∀ c ∈ blanks, isBlank c = true) (tail : Leads rest lead) :
      Leads (blanks ++ '\n' :: rest) (blanks ++ '\n' :: lead)

lemma results_line {blanks rest : List Char} (hblanks : ∀ c ∈ blanks, isBlank c = true)
    (hrest : ∀ c ∈ rest.head?, isBlank c = false) (before : List Char) (groups : List (ℕ × List Char)) :
    (Re.seq (.star true (.chr isBlank)) (.chr (· = '\n'))).results ⟨before, blanks ++ rest, groups⟩ =
      (Re.chr (· = '\n')).results ⟨blanks.reverse ++ before, rest, groups⟩ := by
  induction blanks generalizing before with
  | nil =>
    have hstar : (Re.star true (.chr isBlank)).results ⟨before, rest, groups⟩ = [⟨before, rest, groups⟩] := by
      cases rest with
      | nil => exact results_star_chr_nil true
      | cons c rest => exact results_star_chr_neg true (hrest c rfl)
    rw [List.nil_append, Re.results, hstar, List.flatMap_singleton]
    rfl
  | cons c blanks ih =>
    have hc := hblanks c List.mem_cons_self
    have hnewline : (Re.chr (· = '\n')).results ⟨before, c :: (blanks ++ rest), groups⟩ = [] := by
      refine results_chr_neg (decide_eq_false ?_)
      rintro rfl
      cases hc
    have ih := ih (fun d hd => hblanks d (List.mem_cons_of_mem c hd)) (c :: before)
    rw [Re.results] at ih
    rw [List.cons_append, Re.results, results_star_chr_cons true hc, if_pos rfl, List.flatMap_append,
      List.flatMap_singleton, hnewline, List.append_nil, ih]
    simp

lemma lead_eq {text blank : List Char} (h : Leads text blank) : lead text = blank := by
  have hhead : ∀ before groups, ∃ rest, text = blank ++ rest ∧
      LEAD.head ⟨before, text, groups⟩ = some ⟨blank.reverse ++ before, rest, groups⟩ := by
    induction h with
    | @stop blanks rest hblanks hrest =>
      intro before groups
      refine ⟨blanks ++ rest, rfl, ?_⟩
      rw [LEAD, Re.head, results_star, results_line hblanks fun c hc => (hrest c hc).1]
      have hnone : (Re.chr (· = '\n')).results ⟨blanks.reverse ++ before, rest, groups⟩ = [] := by
        cases rest with
        | nil => rfl
        | cons c rest => exact results_chr_neg (decide_eq_false (hrest c rfl).2)
      rw [hnone]
      rfl
    | @line blanks rest blank hblanks _ ih =>
      intro before groups
      obtain ⟨rest, rfl, hrest⟩ := ih ('\n' :: (blanks.reverse ++ before)) groups
      refine ⟨rest, by simp, ?_⟩
      rw [LEAD, Re.head, results_star, results_line hblanks (by simp [isBlank]), results_chr_cons (by simp)]
      have hless : (blank ++ rest).length < (blanks ++ '\n' :: (blank ++ rest)).length := by
        simp only [List.length_append, List.length_cons]
        omega
      simp only [List.filter_cons, decide_eq_true hless, List.filter_nil, if_true, List.flatMap_singleton,
        List.head?_append]
      rw [LEAD, Re.head] at hrest
      rw [hrest]
      simp
  obtain ⟨rest, rfl, hrest⟩ := hhead [] []
  unfold lead Re.matchStart
  obtain ⟨m, hm, hwhole, -⟩ := first_of_head hrest
  rw [hm]
  exact hwhole

lemma exists_leads (text : List Char) : ∃ blank, Leads text blank := by
  induction hlen : text.length using Nat.strong_induction_on generalizing text with
  | _ n ih =>
    have hblanks : ∀ c ∈ text.takeWhile isBlank, isBlank c = true := fun c hc => (List.mem_takeWhile_imp hc)
    have hsplit := (List.takeWhile_append_dropWhile (p := isBlank) (l := text))
    cases hrest : text.dropWhile isBlank with
    | nil =>
      rw [hrest] at hsplit
      exact ⟨[], hsplit ▸ .stop hblanks (by simp)⟩
    | cons c rest =>
      have hc : isBlank c = false := by
        have := List.head?_dropWhile_not isBlank text
        rw [hrest] at this
        simpa using this
      rw [hrest] at hsplit
      by_cases hline : c = '\n'
      · subst hline
        have hshort := congrArg List.length hsplit
        simp only [List.length_append, List.length_cons] at hshort
        obtain ⟨blank, hblank⟩ := ih rest.length (by omega) rest rfl
        rw [← hsplit]
        exact ⟨_, .line hblanks hblank⟩
      · exact ⟨[], hsplit ▸ .stop hblanks (by simpa using ⟨hc, hline⟩)⟩

/-! ### Texts with other names -/

/-- Texts that differ in some words, which have no label word and are as long in both. -/
inductive Twins (u : Unicode) : List Char → List Char → Prop where
  | nil : Twins u [] []
  | sep {c : Char} {x y : List Char} (hc : u.word c = false) (tail : Twins u x y) : Twins u (c :: x) (c :: y)
  | word {w v x y : List Char} (hw : IsWord u w) (hv : IsWord u v) (hlen : w.length = v.length)
      (hclean : w = v ∨ Clean u w ∧ Clean u v) (hx : ∀ c ∈ x.head?, u.word c = false)
      (hy : ∀ c ∈ y.head?, u.word c = false) (tail : Twins u x y) : Twins u (w ++ x) (v ++ y)

lemma Twins.clean_iff (hu : Classes u) (h : Twins u x y) : Clean u x ↔ Clean u y := by
  induction h with
  | nil => exact Iff.rfl
  | sep hc _ ih => rw [clean_cons hu hc, clean_cons hu hc, ih]
  | word _ _ _ hclean hx hy _ ih =>
    rw [clean_append hu hx, clean_append hu hy, ih]
    rcases hclean with rfl | ⟨hw, hv⟩
    · exact Iff.rfl
    · rw [and_iff_right hw, and_iff_right hv]

lemma Twins.length_eq (h : Twins u x y) : x.length = y.length := by
  induction h with
  | nil => rfl
  | sep _ _ ih => rw [List.length_cons, List.length_cons, ih]
  | word _ _ hlen _ _ _ _ ih => rw [List.length_append, List.length_append, hlen, ih]

lemma head_take_word {n : ℕ} (h : ∀ c ∈ x.head?, u.word c = false) : ∀ c ∈ (x.take n).head?, u.word c = false := by
  intro c hc
  cases n with
  | zero => cases hc
  | succ n =>
    cases x with
    | nil => cases hc
    | cons d x => exact h c hc

lemma Twins.take (h : Twins u x y) (n : ℕ) : Twins u (x.take n) (y.take n) := by
  induction h generalizing n with
  | nil => rw [List.take_nil]; exact .nil
  | sep hc _ ih =>
    cases n with
    | zero => exact .nil
    | succ n => exact .sep hc (ih n)
  | @word w v x y hw hv hlen hclean hx hy _ ih =>
    rw [List.take_append, List.take_append, hlen]
    rcases Nat.eq_zero_or_pos n with rfl | hn
    · simpa using Twins.nil
    · have hword : ∀ {w}, IsWord u w → IsWord u (w.take n) := fun hw =>
        ⟨by simp [hw.1, Nat.pos_iff_ne_zero.mp hn], fun c hc => hw.2 c (List.mem_of_mem_take hc)⟩
      have hfront : ∀ {w}, Clean u w → Clean u (w.take n) := fun {w} hw =>
        Clean.front (x := w.drop n) (by rwa [List.take_append_drop])
      exact .word (hword hw) (hword hv) (by simp [hlen])
        (hclean.imp (congrArg _) fun h => ⟨hfront h.1, hfront h.2⟩) (head_take_word hx) (head_take_word hy) (ih _)

lemma unopened_append {w : List Char} (hw : '/' ∉ w) (x : List Char) : unopened (w ++ x) = w ++ unopened x := by
  induction w with
  | nil => rfl
  | cons c w ih =>
    rw [List.mem_cons, not_or] at hw
    rw [List.cons_append, unopened, if_neg fun h => hw.1 h.1.symm, ih hw.2]
    rfl

lemma Twins.head_iff (h : Twins u x y) {c : Char} (hc : u.word c = false) :
    x.head? = some c ↔ y.head? = some c := by
  cases h with
  | nil => exact Iff.rfl
  | sep _ _ => exact Iff.rfl
  | word hw hv _ _ _ _ _ => exact iff_of_false (hw.head _ hc) (hv.head _ hc)

lemma Twins.unopened (h : Twins u x y) : Twins u (unopened x) (unopened y) := by
  have hhead : ∀ {x : List Char}, (∀ c ∈ x.head?, u.word c = false) →
      ∀ c ∈ (Cut.unopened x).head?, u.word c = false := by
    intro x hx c hc
    obtain ⟨z, hz⟩ := unopened_front x
    refine hx c ?_
    rw [← hz, List.head?_append, Option.mem_def.mp hc]
    rfl
  induction h with
  | nil => exact .nil
  | @sep c x y hc tail ih =>
    have hstar : x.head? = some '*' ↔ y.head? = some '*' := tail.head_iff (not_word (by simp))
    unfold Cut.unopened
    simp only [hstar]
    split_ifs
    · exact .nil
    · exact .sep hc ih
  | word hw hv hlen hclean hx hy _ ih =>
    rw [unopened_append fun h => (hw.plain _ h).1 rfl, unopened_append fun h => (hv.plain _ h).1 rfl]
    exact .word hw hv hlen hclean (hhead hx) (hhead hy) ih

lemma Twins.opened_eq (h : Twins u x y) : opened x = opened y := by
  induction h with
  | nil => rfl
  | @sep c x y _ tail ih =>
    have hslash : x.head? = some '/' ↔ y.head? = some '/' := tail.head_iff (not_word (by simp))
    have hstar : x.head? = some '*' ↔ y.head? = some '*' := tail.head_iff (not_word (by simp))
    rw [opened_cons, opened_cons, ih]
    simp only [hslash, hstar]
  | word hw hv _ _ _ _ _ ih => rw [opened_append hw.plain, opened_append hv.plain, ih]

lemma Twins.behind (hw : ∀ c ∈ w, u.word c = false) (h : Twins u (w ++ x) y) : ∃ z, y = w ++ z ∧ Twins u x z := by
  induction w generalizing y with
  | nil => exact ⟨y, rfl, h⟩
  | cons c w ih =>
    generalize htext : c :: w ++ x = text at h
    cases h with
    | nil => cases htext
    | sep _ tail =>
      obtain ⟨rfl, rfl⟩ := List.cons.inj htext
      obtain ⟨z, rfl, hz⟩ := ih (fun d hd => hw d (List.mem_cons_of_mem c hd)) tail
      exact ⟨z, rfl, hz⟩
    | @word v _ x' _ hword _ _ _ _ _ _ =>
      have hhead : (v ++ x').head? ≠ some c := hword.head x' (hw c List.mem_cons_self)
      rw [← htext] at hhead
      exact absurd rfl hhead

lemma not_word_blank {c : Char} (hc : isBlank c = true) : u.word c = false := by
  unfold isBlank at hc
  simp only [Bool.or_eq_true, decide_eq_true_eq] at hc
  exact not_word (by rcases hc with rfl | rfl <;> simp)

lemma Leads.twins {blank : List Char} (h : Leads x blank) (hxy : Twins u x y) : Leads y blank := by
  induction h generalizing y with
  | @stop blanks rest hblanks hrest =>
    obtain ⟨z, rfl, hz⟩ := hxy.behind fun c hc => not_word_blank (hblanks c hc)
    refine .stop hblanks fun c hc => ⟨Bool.eq_false_of_not_eq_true fun hblank => ?_, ?_⟩
    · have := (hrest c ((hz.head_iff (not_word_blank hblank)).mpr hc)).1
      rw [hblank] at this
      cases this
    · rintro rfl
      exact (hrest _ ((hz.head_iff (not_word (by simp))).mpr hc)).2 rfl
  | @line blanks rest blank hblanks _ ih =>
    obtain ⟨z, rfl, hz⟩ := hxy.behind fun c hc => not_word_blank (hblanks c hc)
    obtain ⟨z, rfl, htail⟩ := hz.behind (w := ['\n']) fun c hc => not_word (by simp [List.mem_singleton.mp hc])
    exact .line hblanks (ih htail)

/-- The part of a text that a second pass shows, behind the blank lines it begins with. -/
def part (text : List Char) : List Char := kept (text.drop (lead text).length)

/-- **Which names were drawn does not count.** -/
theorem twins_part (h : Twins u x y) : Twins u (part x) (part y) := by
  obtain ⟨blank, hblank⟩ := exists_leads x
  obtain ⟨hsplit, hall⟩ := lead_spec x
  rw [lead_eq hblank] at hsplit hall
  have hplain : ∀ c ∈ blank, u.word c = false := by
    intro c hc
    rcases hall c hc with hc | (rfl : c = '\n')
    · exact not_word_blank hc
    · exact not_word (by simp)
  have hy := lead_eq (hblank.twins h)
  rw [hsplit] at h
  obtain ⟨z, rfl, hz⟩ := h.behind hplain
  unfold part
  rw [lead_eq hblank, hy, List.drop_left]
  unfold kept
  rw [hz.length_eq, hz.opened_eq]
  split_ifs
  · exact (hz.take _).unopened
  · exact hz.take _

/-! ### The code of an item -/

/-- A name as `neutral_name` gives them: three syllables of two letters, without a label word. -/
structure Short (u : Unicode) (name : List Char) : Prop where
  word : IsWord u name
  clean : Clean u name
  length : name.length = 6

/-- The words of a text with a label get such names. -/
def ShortFor (u : Unicode) (name : List Char → List Char) (text : List Char) : Prop :=
  ∀ w, .word w ∈ toks u.word text → HasLabel w → Short u (name w)

lemma twins_renameText {name name' : List Char → List Char} {text : List Char} (h : ShortFor u name text)
    (h' : ShortFor u name' text) : Twins u (renameText u name text) (renameText u name' text) := by
  have hrun : ∀ ts : List Tok, Valid u.word ts → (∀ w, .word w ∈ ts → HasLabel w → Short u (name w)) →
      (∀ w, .word w ∈ ts → HasLabel w → Short u (name' w)) →
      Twins u (render (ts.map (renamed name))) (render (ts.map (renamed name'))) := by
    intro ts
    induction ts with
    | nil => exact fun _ _ _ => .nil
    | cons t ts ih =>
      intro hvalid h h'
      have hts := fun w hw => h w (List.mem_cons_of_mem t hw)
      have hts' := fun w hw => h' w (List.mem_cons_of_mem t hw)
      cases t with
      | sep c => exact .sep hvalid.1 (ih hvalid.2 hts hts')
      | word w =>
        obtain ⟨hne, hw, hopen, hvalid⟩ := hvalid
        have hhead : ∀ {name : List Char → List Char}, (∀ w, .word w ∈ ts → HasLabel w → Short u (name w)) →
            ∀ c ∈ (render (ts.map (renamed name))).head?, u.word c = false := fun hts =>
          head_render (valid_renamed hvalid fun w hw hlabel => (hts w hw hlabel).word) (open_renamed hopen)
        have htail := ih hvalid hts hts'
        simp only [List.map_cons, render_cons, renamed, Tok.text, newName]
        split_ifs with hlabel
        · have hname := h w List.mem_cons_self hlabel
          have hname' := h' w List.mem_cons_self hlabel
          exact .word hname.word hname'.word (hname.length.trans hname'.length.symm)
            (Or.inr ⟨hname.clean, hname'.clean⟩) (hhead hts) (hhead hts') htail
        · exact .word ⟨hne, hw⟩ ⟨hne, hw⟩ rfl (Or.inl rfl) (hhead hts) (hhead hts') htail
  exact hrun (toks u.word text) (valid_toks text) h h'

section

variable {choice : ℕ → Fin SYLLABLES.length} {tries : ℕ}

lemma neutralName_short {s s' : Naming} {name : List Char} (h : neutralName u choice tries s = some (s', name)) :
    Short u name := by
  induction tries generalizing s with
  | zero => cases h
  | succ tries ih =>
    rw [neutralName] at h
    simp only at h
    split_ifs at h with hname
    · cases h
      refine ⟨((isWord_syllable _).append (isWord_syllable _)).append (isWord_syllable _),
        Option.isNone_iff_eq_none.mp hname.2, ?_⟩
      have htwo : ∀ k, (SYLLABLES.get k).length = 2 := by decide
      simp only [List.length_append, htwo]
    · exact ih h

lemma drawn_short {n : ℕ} {s : Naming} (h : drawn u choice tries n = some s) : ∀ name ∈ s.used, Short u name := by
  induction n generalizing s with
  | zero =>
    cases h
    simp
  | succ n ih =>
    rw [drawn] at h
    obtain ⟨s₀, hs₀, h⟩ := Option.bind_eq_some_iff.mp h
    obtain ⟨⟨s₁, name⟩, hname, rfl⟩ := Option.map_eq_some_iff.mp h
    rw [(neutralName_spec hname).1]
    intro v hv
    rcases List.mem_append.mp hv with hv | hv
    · exact ih hs₀ v hv
    · exact List.mem_singleton.mp hv ▸ neutralName_short hname

/-- Everything `prompt_code` makes is a text with such names. -/
lemma prompt_short {code out : List Char} (h : promptText u choice tries code = some out) :
    ∃ name, ShortFor u name (strip u code) ∧ out = renameText u name (strip u code) := by
  unfold promptText at h
  generalize strip u code = text at h ⊢
  generalize hrun : (NAME_WITH_LABEL u).subState (renameNeutral u choice tries) (some ⟨0, [], []⟩) text = p at h
  obtain ⟨state, code⟩ := p
  obtain ⟨s, rfl, rfl⟩ := Option.map_eq_some_iff.mp h
  obtain ⟨htext, s', hs', hdrawn, -⟩ := prompt_text hrun
  refine ⟨_, fun w hw hlabel => ?_, htext⟩
  have hshort := drawn_short hdrawn
  rw [(drawn_used hdrawn).1] at hshort
  have hmem := mem_labelled.mpr ⟨hw, hlabel⟩
  exact hshort _ (List.mem_map_of_mem (List.mem_range.mpr (List.idxOf_lt_length_of_mem hmem)))

end

/-- A name of that kind. -/
def sixLetters : List Char := "xxxxxx".toList

lemma short_sixLetters : Short u sixLetters where
  word := isWord_ascii (by decide) (by simp [sixLetters])
  clean := clean_crosses 6
  length := rfl

/-- What is shown of the text of an item: its part before the cut, without comments, label directives and label
strings, and with other names for those with a label. -/
def shownPart (u : Unicode) (text : List Char) : List Char := part (renameText u (fun _ => sixLetters) text)

/-- The text of an item shows no label word. -/
def Silent (u : Unicode) (code : List Char) : Prop := ∃ text, Shown u code text ∧ Clean u (shownPart u text)

lemma silent_iff {code : List Char} : Silent u code ↔ Clean u (shownPart u (strip u code)) := by
  unfold Silent
  simp [shown_iff]

/-- **`scrub` does not refuse what `prompt_code` made** if the text shows no label word, and if no terminator is
left over only then. -/
theorem scrub_prompt (hu : Classes u) {choice : ℕ → Fin SYLLABLES.length} {tries trimmed : ℕ}
    {preamble func : List (List Char)} {code : List Char}
    (h : promptCode u choice tries preamble func = some (code, trimmed)) :
    (Silent u (joined preamble func) → scrub u code = .ok (scrubbed u code)) ∧
      (¬ LeftOver u (joined preamble func) → ∀ out, scrub u code = .ok out → Silent u (joined preamble func)) := by
  obtain ⟨text, htext, hpair⟩ := Option.map_eq_some_iff.mp h
  obtain ⟨rfl, -⟩ := Prod.mk.inj hpair
  obtain ⟨hsettled, hopened⟩ := uncut_settled htext
  obtain ⟨name, hname, rfl⟩ := prompt_short htext
  have hpart : Clean u (shownPart u (strip u (joined preamble func))) ↔
      Clean u (part (renameText u name (strip u (joined preamble func)))) :=
    ((twins_part (twins_renameText (fun _ _ _ => short_sixLetters) hname)).clean_iff hu)
  rw [silent_iff, hpart]
  constructor
  · intro hclean
    exact scrub_ok_iff.mpr ⟨rfl, clean_scrubbed_capped hu hsettled.comments hclean⟩
  · intro hleft out hout
    rw [not_leftOver, ← hopened] at hleft
    obtain ⟨ends, -, hscrubbed⟩ := scrubbed_capped hsettled hleft
    have hclean := (scrub_ok_iff.mp hout).2
    rw [hscrubbed] at hclean
    exact Clean.front hclean

/-! ### The message -/

/-- `text.replace(old, "")`, with a number of characters that are passed over. -/
def removeFrom (old : List Char) : ℕ → List Char → List Char
  | _, [] => []
  | skip + 1, _ :: rest => removeFrom old skip rest
  | 0, c :: rest =>
    if old ≠ [] ∧ old.isPrefixOf (c :: rest) = true then removeFrom old (old.length - 1) rest
    else c :: removeFrom old 0 rest

/-- `text.replace(old, "")` -/
def removed (old text : List Char) : List Char := removeFrom old 0 text

/-- The lines of `USER_TEMPLATE` behind those of the tool and the rule. -/
def behindRule (message : List Char) (startLine endLine : ℤ) (code : List Char) : List Char :=
  "Message: ".toList ++ message ++ "\nFlagged lines: ".toList ++ (toString startLine).toList ++ '-' ::
    (toString endLine).toList ++ " (numbered below)\n\n```c\n".toList ++ code ++ "\n```".toList

/-- `USER_TEMPLATE.format(…)` -/
def userMessage (tool ruleId message : List Char) (startLine endLine : ℤ) (code : List Char) : List Char :=
  "Tool: ".toList ++ tool ++ "\nRule: ".toList ++ ruleId ++ '\n' :: behindRule message startLine endLine code

/-- A message of the request: a role and a content. -/
structure Message where
  role : List Char
  content : List Char

/-- `build_messages`, with what `system_prompt` gives. -/
def buildMessages (u : Unicode) (system : List Char) (item : Item) : Except (List Char) (List Message) := do
  let code ← scrub u item.codeContext
  let user := userMessage item.tool item.ruleId item.message item.startLine item.endLine
    (numbered code contextStartLine)
  return [⟨"system".toList, system⟩, ⟨"user".toList, user⟩]

/-! ### What the removal leaves -/

section

variable {old text a b : List Char}

lemma removeFrom_drop (old : List Char) (skip : ℕ) (text : List Char) :
    removeFrom old skip text = removed old (text.drop skip) := by
  induction skip generalizing text with
  | zero => rfl
  | succ skip ih =>
    cases text with
    | nil => rfl
    | cons c rest => exact ih rest

lemma removed_found (h : old ≠ []) (rest : List Char) : removed old (old ++ rest) = removed old rest := by
  obtain ⟨c, more, rfl⟩ := List.exists_cons_of_ne_nil h
  have hfound : (c :: more).isPrefixOf (c :: (more ++ rest)) = true :=
    List.isPrefixOf_iff_prefix.mpr ⟨rest, rfl⟩
  show removeFrom _ 0 (c :: (more ++ rest)) = _
  rw [removeFrom, if_pos ⟨h, hfound⟩, removeFrom_drop]
  simp

lemma removed_cons {c : Char} (h : old = [] ∨ ¬ old <+: c :: text) :
    removed old (c :: text) = c :: removed old text := by
  show removeFrom old 0 (c :: text) = _
  rw [removeFrom, if_neg]
  · rfl
  · rintro ⟨hne, hfound⟩
    exact h.elim hne fun hno => hno (List.isPrefixOf_iff_prefix.mp hfound)

lemma removed_subset (old text : List Char) : removed old text ⊆ text := by
  induction hlen : text.length using Nat.strong_induction_on generalizing text with
  | _ n ih =>
    cases text with
    | nil => exact fun _ h => h
    | cons c rest =>
      by_cases h : old = [] ∨ ¬ old <+: c :: rest
      · rw [removed_cons h]
        exact List.cons_subset_cons c (ih rest.length (by simp [← hlen]) rest rfl)
      · obtain ⟨hne, ⟨more, hmore⟩⟩ := not_or.mp h |>.imp_right not_not.mp
        have hlen' := congrArg List.length hmore
        have hpos := List.length_pos_iff.mpr hne
        simp only [List.length_append, List.length_cons] at hlen' hlen
        rw [← hmore, removed_found hne]
        exact List.Subset.trans (ih more.length (by omega) more rfl) (List.subset_append_right old more)

lemma removed_of_not_infix (h : ¬ old <:+: text) : removed old text = text := by
  induction text with
  | nil => rfl
  | cons c rest ih =>
    rw [List.infix_cons_iff, not_or] at h
    rw [removed_cons (Or.inr h.1), ih h.2]

/-- A name without a newline is found within lines. -/
lemma removed_line (h : '\n' ∉ old) (a b : List Char) :
    removed old (a ++ '\n' :: b) = removed old a ++ '\n' :: removed old b := by
  induction hlen : a.length using Nat.strong_induction_on generalizing a with
  | _ n ih =>
    cases a with
    | nil =>
      refine removed_cons ?_
      cases old with
      | nil => exact Or.inl rfl
      | cons c old =>
        refine Or.inr fun hfound => h ?_
        rw [(List.cons_prefix_cons.mp hfound).1]
        exact List.mem_cons_self
    | cons c a =>
      rw [List.cons_append]
      by_cases hstay : old = [] ∨ ¬ old <+: c :: a
      · have hno : old = [] ∨ ¬ old <+: c :: (a ++ '\n' :: b) := by
          refine hstay.imp_right fun hno ⟨z, hz⟩ => ?_
          rw [← List.cons_append] at hz
          rcases List.append_eq_append_iff.mp hz with ⟨a', ha, -⟩ | ⟨d, hold, hd⟩
          · exact hno ⟨a', ha.symm⟩
          · cases d with
            | nil => exact hno (by rw [hold, List.append_nil])
            | cons e d =>
              obtain ⟨rfl, -⟩ := List.cons.inj hd
              exact h (by rw [hold]; simp)
        rw [removed_cons hstay, removed_cons hno, ih a.length (by simp [← hlen]) a rfl]
        rfl
      · obtain ⟨hne, ⟨more, hmore⟩⟩ := not_or.mp hstay |>.imp_right not_not.mp
        have hlen' := congrArg List.length hmore
        have hpos := List.length_pos_iff.mpr hne
        simp only [List.length_append, List.length_cons] at hlen' hlen
        rw [← List.cons_append, ← hmore, List.append_assoc, removed_found hne, removed_found hne,
          ih more.length (by omega) more rfl]

lemma subset_of_repeats {y : List Char} (hy : y ≠ []) (h : y ++ a = a ++ b) : b ⊆ y := by
  induction hlen : a.length using Nat.strong_induction_on generalizing a with
  | _ n ih =>
    rcases List.append_eq_append_iff.mp h with ⟨a', rfl, hrest⟩ | ⟨c, rfl, rfl⟩
    · have hpos := List.length_pos_iff.mpr hy
      simp only [List.length_append] at hlen
      exact ih a'.length (by omega) hrest rfl
    · intro d hd
      rcases List.mem_append.mp hd with hd | hd
      · exact List.mem_append_right _ hd
      · exact List.mem_append_left _ hd

/-- Removing a name behind a text leaves nothing of it that the text does not have. -/
lemma removed_behind (old x : List Char) : removed old (x ++ old) ⊆ x := by
  induction x with
  | nil =>
    cases old with
    | nil => exact fun _ h => h
    | cons c old =>
      have := removed_found (List.cons_ne_nil c old) []
      rw [List.append_nil] at this
      rw [List.nil_append, this]
      exact fun _ h => h
  | cons c x ih =>
    by_cases hstay : old = [] ∨ ¬ old <+: c :: (x ++ old)
    · rw [List.cons_append, removed_cons hstay]
      exact List.cons_subset_cons c ih
    · obtain ⟨hne, ⟨more, hmore⟩⟩ := not_or.mp hstay |>.imp_right not_not.mp
      rw [← List.cons_append] at hmore
      rw [← hmore, removed_found hne]
      exact List.Subset.trans (removed_subset old more) (subset_of_repeats (List.cons_ne_nil c x) hmore.symm)

end

/-! ### Label words in the message -/

lemma toString_int (n : ℤ) : ∀ c ∈ (toString n).toList, c ∈ numberChars := by
  cases n with
  | ofNat n => exact toString_nat n
  | negSucc n =>
    intro c hc
    have hneg : (toString (Int.negSucc n)).toList = '-' :: (toString (n + 1)).toList := by
      show ("-" ++ Nat.repr (n + 1)).toList = _
      rw [String.toList_append]
      rfl
    rw [hneg] at hc
    rcases List.mem_cons.mp hc with rfl | hc
    · decide
    · exact toString_nat _ c hc

lemma clean_line {text line : List Char} (hu : Classes u) (h : Clean u text) (hline : line ∈ splitlines text) :
    Clean u line := by
  obtain ⟨whole, hwhole, rfl⟩ := List.mem_map.mp hline
  suffices hclean : Clean u whole by
    obtain ⟨z, hz⟩ := List.takeWhile_prefix (fun c => !isBreak c) (l := whole)
    exact Clean.front (x := z) (by rwa [dropBreak, hz])
  clear hline
  induction hlen : text.length using Nat.strong_induction_on generalizing text with
  | _ n ih =>
    by_cases hne : text = []
    · rw [hne] at hwhole
      cases hwhole
    · obtain ⟨first, rest, rfl, hlines, hfirst, hend⟩ := splitlinesKeep_first hne
      have hpos := List.length_pos_iff.mpr hfirst
      rw [List.length_append] at hlen
      have hboth : Clean u first ∧ Clean u rest := by
        rcases hend with rfl | ⟨front, c, rfl, hc⟩
        · rw [List.append_nil] at h
          exact ⟨h, clean_nil⟩
        · rw [List.append_assoc, List.singleton_append, clean_sep hu (hu.breaks c hc)] at h
          exact ⟨(clean_sep hu (hu.breaks c hc)).mpr ⟨h.1, clean_nil⟩, h.2⟩
      rw [hlines] at hwhole
      rcases List.mem_cons.mp hwhole with rfl | hwhole
      · exact hboth.1
      · exact ih rest.length (by omega) hboth.2 hwhole rfl

lemma clean_intercalate {texts : List (List Char)} (hu : Classes u) (h : ∀ text ∈ texts, Clean u text) :
    Clean u (['\n'].intercalate texts) := by
  have hnewline : u.word '\n' = false := not_word (by simp)
  induction texts with
  | nil => exact clean_nil
  | cons text texts ih =>
    have htexts := ih fun t ht => h t (List.mem_cons_of_mem _ ht)
    cases texts with
    | nil =>
      rw [List.intercalate_singleton]
      exact h text List.mem_cons_self
    | cons next texts =>
      rw [List.intercalate_cons_cons, List.append_assoc, List.singleton_append, clean_sep hu hnewline]
      exact ⟨h text List.mem_cons_self, htexts⟩

lemma clean_numbered {code : List Char} (hu : Classes u) (h : Clean u code) (n : ℕ) : Clean u (numbered code n) := by
  refine clean_intercalate hu fun row hrow => ?_
  obtain ⟨⟨k, line⟩, hmem, rfl⟩ := List.mem_map.mp hrow
  obtain ⟨⟨line', i⟩, hzip, heq⟩ := List.mem_map.mp hmem
  cases heq
  have hline : line ∈ splitlines code := List.fst_mem_of_mem_zipIdx hzip
  have hspace : u.word ' ' = false := not_word (by simp)
  have hnumber : Clean u (width5 (n + i)) := by
    refine clean_of_chars (by decide +kernel : harmless (' ' :: numberChars) = true) fun c hc => ?_
    rw [width5, List.leftpad, List.mem_append] at hc
    rcases hc with hc | hc
    · exact List.mem_cons.mpr (Or.inl (List.eq_of_mem_replicate hc))
    · exact List.mem_cons_of_mem _ (toString_nat _ c hc)
  have hrow : width5 (n + i) ++ "  ".toList ++ line = width5 (n + i) ++ ' ' :: ' ' :: line := by simp
  rw [hrow, clean_sep hu hspace, clean_cons hu hspace]
  exact ⟨hnumber, clean_line hu h hline⟩

lemma clean_harmless {text : List Char} (h : harmless text = true) : Clean u text :=
  clean_of_chars h fun _ hc => hc

lemma clean_int (n : ℤ) : Clean u (toString n).toList := clean_of_chars (by decide +kernel) (toString_int n)

lemma clean_field (hu : Classes u) {field text : List Char} {c : Char} (h : harmless field = true)
    (hlast : field.getLast? = some c) (hc : u.word c = false) : Clean u (field ++ text) ↔ Clean u text := by
  have hclean : Clean u field := clean_harmless h
  obtain ⟨front, rfl⟩ := List.getLast?_eq_some_iff.mp hlast
  rw [List.append_assoc, List.singleton_append, clean_sep hu hc]
  exact and_iff_right (Clean.front hclean)

lemma clean_value (hu : Classes u) {value field text : List Char} {c : Char} (hhead : field.head? = some c)
    (hc : u.word c = false) : Clean u (value ++ (field ++ text)) ↔ Clean u value ∧ Clean u (field ++ text) := by
  refine clean_append hu fun d hd => ?_
  rw [List.head?_append, hhead] at hd
  exact Option.some.inj hd ▸ hc

lemma clean_behindRule {message code : List Char} (hu : Classes u) (hmessage : Clean u message)
    (hcode : Clean u code) (startLine endLine : ℤ) : Clean u (behindRule message startLine endLine code) := by
  have hspace : u.word ' ' = false := not_word (by simp)
  have hnewline : u.word '\n' = false := not_word (by simp)
  have hdash : u.word '-' = false := by
    rw [u.word_ascii '-' (by decide)]
    decide
  have hend : Clean u (code ++ ("\n```".toList ++ [])) :=
    (clean_value hu (c := '\n') (by decide +kernel) hnewline).mpr
      ⟨hcode, by rw [List.append_nil]; exact clean_harmless (by decide +kernel)⟩
  unfold behindRule
  rw [← List.append_nil "\n```".toList]
  simp only [List.append_assoc, List.cons_append]
  rw [clean_field hu (c := ' ') (by decide +kernel) (by decide +kernel) hspace,
    clean_value hu (c := '\n') (by decide +kernel) hnewline,
    clean_field hu (c := ' ') (by decide +kernel) (by decide +kernel) hspace,
    clean_sep hu hdash, clean_value hu (c := ' ') (by decide +kernel) hspace,
    clean_field hu (c := '\n') (by decide +kernel) (by decide +kernel) hnewline]
  exact ⟨hmessage, clean_int _, clean_int _, hend⟩

/-- A name has a label word that is found anywhere. -/
def telling (name : List Char) : Bool := name.tails.any fun rest => leakWords.any fun pattern => spells pattern rest

lemma telling_not_infix {name text : List Char} (h : telling name = true) (htext : Clean u text) :
    ¬ name <:+: text := by
  obtain ⟨rest, hrest, hany⟩ := List.any_eq_true.mp h
  obtain ⟨pattern, hpattern, hspells⟩ := List.any_eq_true.mp hany
  have hsuffix := (List.mem_tails _ _).mp hrest
  exact fun hinfix => htext.not_spells hpattern hspells (hsuffix.isInfix.trans hinfix)

/-- **Besides the code, the rule decides**, for the name of a tool in a single line that has a label word, or
else does not stand in the lines behind the rule. -/
theorem message_clean_iff (hu : Classes u) {tool ruleId message code : List Char} {startLine endLine : ℤ}
    (hmessage : Clean u message) (hcode : Clean u code) (hline : '\n' ∉ tool)
    (hname : telling tool = true ∨ ¬ tool <:+: behindRule message startLine endLine code) :
    Clean u (removed tool (userMessage tool ruleId message startLine endLine code)) ↔
      Clean u (removed tool ("Rule: ".toList ++ ruleId)) := by
  have hnewline : u.word '\n' = false := not_word (by simp)
  have hbehind := clean_behindRule hu hmessage hcode startLine endLine
  have hnot : ¬ tool <:+: behindRule message startLine endLine code :=
    hname.elim (fun h => telling_not_infix h hbehind) id
  have hfirst : Clean u (removed tool ("Tool: ".toList ++ tool)) :=
    clean_of_chars (by decide +kernel : harmless "Tool: ".toList = true) (removed_behind tool _)
  have hjoin : ∀ first field rule rest : List Char, field = '\n' :: rule →
      first ++ field ++ ruleId ++ '\n' :: rest = first ++ '\n' :: ((rule ++ ruleId) ++ '\n' :: rest) := by
    rintro first field rule rest rfl
    simp only [List.append_assoc, List.cons_append]
  have hlines : userMessage tool ruleId message startLine endLine code = ("Tool: ".toList ++ tool) ++ '\n' ::
      (("Rule: ".toList ++ ruleId) ++ '\n' :: behindRule message startLine endLine code) :=
    hjoin _ _ _ _ (by decide +kernel)
  rw [hlines, removed_line hline, removed_line hline, clean_sep hu hnewline, clean_sep hu hnewline,
    and_iff_right hfirst, removed_of_not_infix hnot, and_iff_left hbehind]

/-! ### The items of a run -/

/-- The item can be shown: `build_messages` does not raise, and without the name of the tool the user message
has no label word. -/
def Presentable (u : Unicode) (item : Item) : Prop :=
  ∀ system, ∃ user, buildMessages u system item = .ok [⟨"system".toList, system⟩, ⟨"user".toList, user⟩] ∧
    Clean u (removed item.tool user)

/-- The name of the tool stands in a single line, and has a label word or stands in no line of the user message
behind the rule. -/
def NamedApart (u : Unicode) (item : Item) : Prop :=
  '\n' ∉ item.tool ∧ (telling item.tool = true ∨ ∀ code, scrub u item.codeContext = .ok code →
    ¬ item.tool <:+: behindRule item.message item.startLine item.endLine (numbered code contextStartLine))

section

variable {work : Work} {rng : List Char → ℕ → Fin SYLLABLES.length} {tries : ℕ}

lemma pools_eq {reports : List (List Finding)} {pools : Pools} (h : poolsOf u work rng tries reports = some pools) :
    pools = keptPools u work rng tries reports := by
  have hspared : ¬ (RaisesAt u work rng tries reports.flatten ∨
      Fails (entry u work rng tries) Fate.isFailure reports) := by
    intro hfails
    rw [poolsOf_fail hfails] at h
    cases h
  obtain ⟨hraises, hfails⟩ := not_or.mp hspared
  exact (Option.some.inj ((poolsOf_keep hraises hfails).symm.trans h)).symm

lemma mem_of_mapM {α β : Type} {pick : α → Option (List β)} {xs : List α} {outs : List (List β)}
    (h : xs.mapM pick = some outs) {b : β} (hb : b ∈ outs.flatten) :
    ∃ a ∈ xs, ∃ out, pick a = some out ∧ b ∈ out := by
  induction xs generalizing outs with
  | nil =>
    cases h
    cases hb
  | cons a xs ih =>
    rw [List.mapM_cons] at h
    obtain ⟨out, hout, h⟩ := Option.bind_eq_some_iff.mp h
    obtain ⟨rest, hrest, h⟩ := Option.bind_eq_some_iff.mp h
    obtain rfl := Option.some.inj h
    rcases List.mem_append.mp hb with hb | hb
    · exact ⟨a, List.mem_cons_self, out, hout, hb⟩
    · obtain ⟨a', ha', hmore⟩ := ih hrest hb
      exact ⟨a', List.mem_cons_of_mem a ha', hmore⟩

/-- **Every item comes from a finding.** -/
theorem item_of_run {seeded : Shuffle} {share : ℕ → ℕ} {reports : List (List Finding)} {test train : List Item}
    (h : cmdItems u work rng tries seeded share reports = some (test, train)) {item : Item}
    (hitem : item ∈ test ++ train) :
    ∃ f ∈ reports.flatten, ∃ key split, judge u work rng tries f = .reached key (.kept split item) := by
  obtain ⟨pools, hpools, h⟩ := Option.bind_eq_some_iff.mp h
  obtain ⟨picked, hpicked, h⟩ := Option.bind_eq_some_iff.mp h
  obtain ⟨rfl, rfl⟩ := Prod.mk.inj (Option.some.inj h)
  have hpool : ∃ part stratum, item ∈ pools part stratum := by
    rcases List.mem_append.mp hitem with hitem | hitem
    · obtain ⟨outs, houts, rfl⟩ := Option.map_eq_some_iff.mp hpicked
      obtain ⟨⟨stratum, quota⟩, -, out, hout, hmem⟩ := mem_of_mapM houts hitem
      have hkeys := nodup_keys u work rng tries reports .test stratum
      rw [List.map_map, ← pools_eq hpools] at hkeys
      exact ⟨.test, stratum, picked_subset hkeys hout item hmem⟩
    · unfold trainItems at hitem
      simp only [List.mem_append] at hitem
      rcases hitem with ((hitem | hitem) | hitem) | hitem
      all_goals exact ⟨.train, _, hitem⟩
  obtain ⟨part, stratum, hmem⟩ := hpool
  rw [pools_eq hpools] at hmem
  obtain ⟨key, fate, hfirst, hfate⟩ := mem_keptPools.mp hmem
  obtain ⟨rfl, -⟩ := itemFor_eq_some.mp hfate
  obtain ⟨f, hf, hentry⟩ := mem_of_first hfirst
  exact ⟨f, hf, key, part, entry_eq_some.mp hentry⟩

/-- The text from which the code of an item is made: the preamble of a file and a function. -/
def sourceOf (u : Unicode) (file : SourceFile) (func : Function) : List Char :=
  joined (preambleOf u (functionSpans u file.text) (splitlinesKeep file.text))
    (bodyOf (splitlinesKeep file.text) func)

/-- **An item can be shown** if the text of the function it was made of, the one around the flagged line, shows no
label word, and the rule has none besides the name of the tool; and if no terminator is left over in the text, only
then. -/
theorem presentable_iff (u : Unicode) (hu : Classes u) (work : Work) (rng : List Char → ℕ → Fin SYLLABLES.length)
    (tries : ℕ) (seeded : Shuffle) (share : ℕ → ℕ) (reports : List (List Finding)) (test train : List Item)
    (h : cmdItems u work rng tries seeded share reports = some (test, train)) (item : Item)
    (hitem : item ∈ test ++ train) :
    ∃ f ∈ reports.flatten, ∃ file func, work.file f.uri = some file ∧
      enclosing (functionSpans u file.text) f.startLine = some func ∧
      item.key = keyOf file f ∧ item.tool = f.tool ∧ item.ruleId = f.ruleId ∧ item.message = f.message ∧
      (∃ trimmed, promptCode u (rng item.key) tries
        (preambleOf u (functionSpans u file.text) (splitlinesKeep file.text))
        (bodyOf (splitlinesKeep file.text) func) = some (item.codeContext, trimmed)) ∧
      let wordless := Silent u (sourceOf u file func) ∧ Clean u (removed f.tool ("Rule: ".toList ++ f.ruleId))
      NamedApart u item → (wordless → Presentable u item) ∧
        (¬ LeftOver u (sourceOf u file func) → Presentable u item → wordless) := by
  obtain ⟨f, hf, key, split, hjudge⟩ := item_of_run h hitem
  obtain ⟨file, func, stratum, hfile, hfunc, -, hfate⟩ := judge_reached hjudge
  obtain ⟨hmessage, hkey, htool, hrule, hsame, trimmed, hcode⟩ := fateOf_kept hfate.symm
  obtain ⟨haccepts, hsilent⟩ := scrub_prompt hu hcode
  have hclean : Clean u item.message := by
    rw [hsame]
    exact Option.isNone_iff_eq_none.mp (by simpa using hmessage)
  have hfunc : enclosing (functionSpans u file.text) f.startLine = some func := by
    simpa [enclosing, Bool.decide_and] using hfunc
  refine ⟨f, hf, file, func, hfile, hfunc, hkey, htool, hrule, hsame, ⟨trimmed, by rw [hkey]; exact hcode⟩, ?_⟩
  rw [← htool, ← hrule]
  rintro wordless ⟨hline, hname⟩
  -- the message has no label word exactly if the rule has none
  have hrest : ∀ {code : List Char}, scrub u item.codeContext = .ok code →
      (Clean u (removed item.tool (userMessage item.tool item.ruleId item.message item.startLine item.endLine
        (numbered code contextStartLine))) ↔ Clean u (removed item.tool ("Rule: ".toList ++ item.ruleId))) := by
    intro code hok
    obtain ⟨rfl, hcode⟩ := scrub_ok_iff.mp hok
    exact message_clean_iff hu hclean (clean_numbered hu hcode _) hline (hname.imp_right fun h => h _ hok)
  constructor
  · rintro ⟨hshown, hwords⟩ system
    have hok := haccepts hshown
    exact ⟨_, by rw [buildMessages, hok]; rfl, (hrest hok).mpr hwords⟩
  · intro hleft hpresentable
    obtain ⟨user, hbuild, huser⟩ := hpresentable []
    unfold buildMessages at hbuild
    cases hok : scrub u item.codeContext with
    | error message =>
      rw [hok] at hbuild
      cases hbuild
    | ok code =>
      rw [hok] at hbuild
      obtain rfl : userMessage item.tool item.ruleId item.message item.startLine item.endLine
          (numbered code contextStartLine) = user := by
        have hlist := Except.ok.inj hbuild
        simpa using hlist
      exact ⟨hsilent hleft code hok, (hrest hok).mp huser⟩

end

/-- A work directory with one file. -/
def workWith (text : List Char) : Work where
  file _ := some
    { name := "t_01.c".toList
      dir := "121".toList
      relative := some "juliet/121/t_01.c".toList
      text }
  split _ := some .train

/-- A finding in its fourth line. -/
def finding : Finding where
  tool := "Flawfinder".toList
  ruleId := "r".toList
  ruleCwes := []
  message := "m".toList
  uri := "juliet/121/t_01.c".toList
  startLine := 4
  endLine := 4

/-- What `cmd_items` makes of this finding. -/
def itemsOf (text : List Char) : Option (List Item × List Item) :=
  cmdItems turkish (workWith text) inTurn 9 (fun _ _ => Equiv.refl _) (· / 5) [[finding]]

/-- A function whose names have a label. -/
def namesOnly : List Char := "int a;\nvoid bad()\n\x7b\n  bad = 1; /* FLAW */\n\x7d\n".toList

/-- A function with a word that no step removes. -/
def withFlaw : List Char := "int a;\nvoid bad()\n\x7b\n  flaw = 1;\n\x7d\n".toList

lemma items_namesOnly : (itemsOf namesOnly).map (fun p => (p.1 ++ p.2).map Item.codeContext) =
    some ["int a;\n\nvoid kalomi()\n\x7b\n  kalomi = 1; \n\x7d\n".toList] := by decide +kernel

lemma items_withFlaw : (itemsOf withFlaw).map (fun p => (p.1 ++ p.2).map Item.codeContext) =
    some ["int a;\n\nvoid kalomi()\n\x7b\n  flaw = 1;\n\x7d\n".toList] := by decide +kernel

/-- An item with names only can be shown. -/
theorem presentable_iff_small : ∃ test train item, itemsOf namesOnly = some (test, train) ∧ item ∈ test ++ train ∧
    Presentable turkish item := by
  obtain ⟨⟨test, train⟩, hrun, hitems⟩ := Option.map_eq_some_iff.mp items_namesOnly
  obtain ⟨item, hitem, -⟩ := List.map_eq_singleton_iff.mp hitems
  have hmem : item ∈ test ++ train := by
    rw [hitem]
    exact List.mem_singleton_self item
  refine ⟨test, train, item, hrun, hmem, ?_⟩
  obtain ⟨f, hf, file, func, hfile, hfunc, -, htool, -, -, -, hiff⟩ := presentable_iff turkish classes_turkish
    (workWith namesOnly) inTurn 9 (fun _ _ => Equiv.refl _) (· / 5) [[finding]] test train hrun item hmem
  obtain rfl : f = finding := by simpa using hf
  obtain rfl := Option.some.inj hfile
  have hspans : functionSpans turkish namesOnly = [⟨"bad".toList, 2, 5⟩] := by decide +kernel
  obtain rfl : func = ⟨"bad".toList, 2, 5⟩ := by
    rw [← List.mem_singleton, ← hspans]
    exact List.mem_of_find?_eq_some hfunc
  refine (hiff ⟨?_, Or.inl ?_⟩).1 ⟨silent_iff.mpr ?_, ?_⟩
  · rw [htool]
    decide +kernel
  · rw [htool]
    decide +kernel
  · decide +kernel
  · decide +kernel

/-- **A label word that is no name with a label stays**: `cmd_items` writes the item, and `scrub` refuses it. -/
theorem flaw_is_refused : ¬ ∀ (u : Unicode), Classes u → ∀ (work : Work) (rng : List Char → ℕ → Fin SYLLABLES.length)
    (tries : ℕ) (seeded : Shuffle) (share : ℕ → ℕ) (reports : List (List Finding)) (test train : List Item),
    cmdItems u work rng tries seeded share reports = some (test, train) → ∀ item ∈ test ++ train,
      Presentable u item := by
  intro h
  obtain ⟨⟨test, train⟩, hrun, hitems⟩ := Option.map_eq_some_iff.mp items_withFlaw
  obtain ⟨item, hitem, hcode⟩ := List.map_eq_singleton_iff.mp hitems
  have hmem : item ∈ test ++ train := by
    rw [hitem]
    exact List.mem_singleton_self item
  obtain ⟨user, hbuild, -⟩ := h turkish classes_turkish _ _ _ _ _ _ test train hrun item hmem []
  unfold buildMessages at hbuild
  have hrefused : scrub turkish "int a;\n\nvoid kalomi()\n\x7b\n  flaw = 1;\n\x7d\n".toList =
      .error (leakMessage "flaw".toList) := by decide +kernel
  rw [hcode, hrefused] at hbuild
  cases hbuild

end CSecureBuild.Harness.Prompt
