import CSecureBuild.Harness.Reading
import CSecureBuild.Harness.Renaming

/-!
Scrubbing twice. What the steps of `scrub` leave has no comment, no directive with a label, no literal with
a label word and no name with a label (`settled_renameText`), so a second pass could only do something at
its beginning, where a terminator without an opening is taken for the end of a comment. `scrub_again_iff`
says when it does not.
-/

namespace CSecureBuild.Harness.Rescan

open CSecureBuild.PyLib.Cells CSecureBuild.PyLib.Regex CSecureBuild.PyLib.Text CSecureBuild.PyLib.Words
open CSecureBuild.Harness.Scrub CSecureBuild.Harness.Patterns CSecureBuild.Harness.Lexing
open CSecureBuild.Harness.Linewise CSecureBuild.Harness.Reading CSecureBuild.Harness.Renaming

/-! ### No comment is left -/

/-- There is no comment in a text. -/
def CommentFree (text : List Char) : Prop := ∀ a b, text = a ++ b → commentAt b = false

lemma commentFree_nil : CommentFree [] := by
  intro a b h
  rw [(List.append_eq_nil_iff.mp h.symm).2]
  rfl

lemma CommentFree.tail {a b : List Char} (h : CommentFree (a ++ b)) : CommentFree b :=
  fun x y hxy => h (a ++ x) y (by rw [hxy, List.append_assoc])

lemma commentFree_cons {c : Char} {text : List Char} (h : commentAt (c :: text) = false)
    (htext : CommentFree text) : CommentFree (c :: text) := by
  intro a b hab
  cases a with
  | nil =>
    obtain rfl : c :: text = b := hab
    exact h
  | cons d a => exact htext a b (List.cons.inj hab).2

lemma search_comment {text : List Char} (h : CommentFree text) : COMMENT.search text = none :=
  search_eq_none_iff.mpr fun w rest hw => comment_first.mpr (h w rest hw)

lemma dropComments_of_free {text : List Char} (h : CommentFree text) : dropComments text = text :=
  sub_of_search_none (search_comment h) _

/-- What is left of some pieces without their comments. -/
def uncommentedPieces (ps : List (Piece Char)) : List Char :=
  ps.flatMap (Piece.replaced fun m => newlines m.whole)

variable {before after : List Char} {ps : List (Piece Char)}

lemma uncommentedPieces_keep (c : Char) (ps : List (Piece Char)) :
    uncommentedPieces (.keep c :: ps) = c :: uncommentedPieces ps := rfl

lemma uncommentedPieces_hit (m : Match Char) (ps : List (Piece Char)) :
    uncommentedPieces (.hit m :: ps) = newlines m.whole ++ uncommentedPieces ps := rfl

lemma head_uncommented (h : COMMENT.Cut before after ps) (hslash : after.head? ≠ some '/') :
    (uncommentedPieces ps).head? = after.head? := by
  cases h with
  | nil => rfl
  | keep _ _ => rfl
  | hit hsome _ => exact absurd (comment_slash hsome) hslash

lemma infix_of_notMem {c : Char} {l a b : List Char} (hc : c ∉ a) (h : c :: l <:+: a ++ b) :
    c :: l <:+: b := by
  induction a with
  | nil => exact h
  | cons d a ih =>
    rw [List.mem_cons, not_or] at hc
    rcases List.infix_cons_iff.mp h with ⟨more, hmore⟩ | h
    · exact absurd (List.cons.inj hmore).1 hc.1
    · exact ih hc.2 h

/-- No terminator comes about. -/
lemma unclosed_uncommented (h : COMMENT.Cut before after ps) (hafter : ¬ "*/".toList <:+: after) :
    ¬ "*/".toList <:+: uncommentedPieces ps := by
  induction h with
  | nil before => exact hafter
  | @keep before rest c ps _ tail ih =>
    rw [List.infix_cons_iff, not_or] at hafter
    rw [uncommentedPieces_keep, List.infix_cons_iff, not_or]
    refine ⟨?_, ih hafter.2⟩
    rintro ⟨more, hmore⟩
    obtain ⟨rfl, hout⟩ : '*' = c ∧ '/' :: more = uncommentedPieces ps := List.cons.inj hmore
    refine hafter.1 ?_
    by_cases hslash : rest.head? = some '/'
    · obtain ⟨rest', rfl⟩ := List.head?_eq_some_iff.mp hslash
      exact ⟨rest', rfl⟩
    · have hhead := head_uncommented tail hslash
      rw [← hout] at hhead
      exact absurd hhead.symm hslash
  | @hit before rest m ps _ _ ih =>
    rw [uncommentedPieces_hit]
    intro hinfix
    refine ih (fun h => hafter (h.trans (List.suffix_append _ _).isInfix)) (infix_of_notMem ?_ hinfix)
    intro hmem
    exact absurd (mem_newlines hmem) (by decide)

lemma cut_keep {c : Char} {rest : List Char} (hc : c ≠ '/') (h : COMMENT.Cut before (c :: rest) ps) :
    ∃ qs, ps = .keep c :: qs ∧ COMMENT.Cut (c :: before) rest qs := by
  generalize hafter : c :: rest = after at h
  cases h with
  | nil => cases hafter
  | keep _ tail =>
    cases hafter
    exact ⟨_, rfl, tail⟩
  | hit hsome _ =>
    have hslash := comment_slash hsome
    rw [← hafter] at hslash
    exact absurd (Option.some.inj hslash) hc

lemma commentFree_newlines {w text : List Char} (hw : ∀ c ∈ w, c = '\n') (h : CommentFree text) :
    CommentFree (w ++ text) := by
  induction w with
  | nil => exact h
  | cons c w ih =>
    obtain rfl := hw c List.mem_cons_self
    exact commentFree_cons (commentAt_cons (by decide) _) (ih fun d hd => hw d (List.mem_cons_of_mem _ hd))

lemma commentFree_uncommented (h : COMMENT.Cut before after ps) : CommentFree (uncommentedPieces ps) := by
  induction h with
  | nil before => exact commentFree_nil
  | @keep before rest c ps hnone tail ih =>
    rw [uncommentedPieces_keep]
    refine commentFree_cons ?_ ih
    have hat : ¬ commentAt (c :: rest) = true := by simp [commentAt_of_hitAt_none hnone]
    by_cases hc : c = '/'
    · subst hc
      have hslash : rest.head? ≠ some '/' := by
        intro hslash
        obtain ⟨rest', rfl⟩ := List.head?_eq_some_iff.mp hslash
        exact hat (commentAt_iff.mpr (Or.inl ⟨rest', rfl⟩))
      by_cases hstar : rest.head? = some '*'
      · -- an opening without a terminator behind it, so none comes about
        obtain ⟨rest', rfl⟩ := List.head?_eq_some_iff.mp hstar
        obtain ⟨qs, rfl, htail⟩ := cut_keep (by decide) tail
        have hunclosed := unclosed_uncommented htail fun h =>
          hat (commentAt_iff.mpr (Or.inr ⟨⟨rest', rfl⟩, h⟩))
        rw [uncommentedPieces_keep]
        refine Bool.eq_false_of_not_eq_true fun h => ?_
        rcases commentAt_iff.mp h with ⟨more, hmore⟩ | ⟨-, h⟩
        · cases hmore
        · exact hunclosed h
      · refine commentAt_slash fun d hd => ?_
        rw [head_uncommented tail hslash] at hd
        exact ⟨fun e => hslash (e ▸ hd), fun e => hstar (e ▸ hd)⟩
    · exact commentAt_cons hc _
  | @hit before rest m ps _ _ ih =>
    rw [uncommentedPieces_hit]
    exact commentFree_newlines (fun c hc => mem_newlines hc) ih

/-- **Without its comments a text has no comment.** -/
theorem commentFree_dropComments (code : List Char) : CommentFree (dropComments code) :=
  commentFree_uncommented (cut_piecesFrom COMMENT [] code)

/-! ### Blocks -/

/-- A text in which blocks were put for blocks: what is put there is not empty and has no slash or star, or
the end falls away. -/
inductive Blocks : List Char → List Char → Prop where
  | drop (a : List Char) : Blocks a []
  | same (c : Char) {x y : List Char} (tail : Blocks x y) : Blocks (c :: x) (c :: y)
  | block (a : List Char) {b x y : List Char} (hne : b ≠ []) (hplain : ∀ c ∈ b, c ≠ '/' ∧ c ≠ '*')
      (tail : Blocks x y) : Blocks (a ++ x) (b ++ y)

lemma Blocks.refl (x : List Char) : Blocks x x := by
  induction x with
  | nil => exact .drop []
  | cons c x ih => exact .same c ih

lemma Blocks.append {x y : List Char} (w : List Char) (h : Blocks x y) : Blocks (w ++ x) (w ++ y) := by
  induction w with
  | nil => exact h
  | cons c w ih => exact .same c ih

/-- A slash or a star that comes first came first. -/
lemma Blocks.head {x y : List Char} (h : Blocks x y) {d : Char} (hd : d = '/' ∨ d = '*')
    (hy : y.head? = some d) : ∃ x' y', x = d :: x' ∧ y = d :: y' ∧ Blocks x' y' := by
  cases h with
  | drop a => cases hy
  | same c tail =>
    obtain rfl : c = d := Option.some.inj hy
    exact ⟨_, _, rfl, rfl, tail⟩
  | @block a b x y hne hplain tail =>
    obtain ⟨c, b, rfl⟩ := List.exists_cons_of_ne_nil hne
    obtain rfl : c = d := Option.some.inj hy
    obtain ⟨h₁, h₂⟩ := hplain c List.mem_cons_self
    exact absurd hd (by simp [h₁, h₂])

lemma Blocks.pair {x y : List Char} (h : Blocks x y) {c d : Char} (hc : c = '/' ∨ c = '*')
    (hd : d = '/' ∨ d = '*') (hy : [c, d] <:+: y) : [c, d] <:+: x := by
  induction h with
  | drop a => exact absurd hy (by simp)
  | @same e x y tail ih =>
    rcases List.infix_cons_iff.mp hy with ⟨more, hmore⟩ | hy
    · obtain ⟨rfl, rfl⟩ : c = e ∧ d :: more = y := List.cons.inj hmore
      obtain ⟨x', -, rfl, -, -⟩ := tail.head hd rfl
      exact ⟨[], x', rfl⟩
    · exact List.infix_cons (ih hy)
  | @block a b x y hne hplain tail ih =>
    have hb : c ∉ b := fun hmem => absurd hc (by simp [hplain c hmem])
    exact (ih (infix_of_notMem hb hy)).trans (List.suffix_append a x).isInfix

/-- There is a comment in a text from an opening to a terminator. -/
def HasBlock (text : List Char) : Prop := ∃ a b, text = a ++ '/' :: '*' :: b ∧ "*/".toList <:+: b

lemma Blocks.hasBlock {x y : List Char} (h : Blocks x y) (hy : HasBlock y) : HasBlock x := by
  induction h with
  | drop a =>
    obtain ⟨p, q, heq, -⟩ := hy
    simp at heq
  | @same e x y tail ih =>
    obtain ⟨p, q, heq, hq⟩ := hy
    cases p with
    | nil =>
      obtain ⟨rfl, rfl⟩ := List.cons.inj heq
      obtain ⟨x', y', rfl, hy', tail'⟩ := tail.head (Or.inr rfl) rfl
      obtain ⟨-, rfl⟩ := List.cons.inj hy'
      exact ⟨[], x', rfl, tail'.pair (Or.inr rfl) (Or.inl rfl) hq⟩
    | cons f p =>
      obtain ⟨rfl, rfl⟩ := List.cons.inj heq
      obtain ⟨p', q', rfl, hq'⟩ := ih ⟨p, q, rfl, hq⟩
      exact ⟨_ :: p', q', rfl, hq'⟩
  | @block a b x y hne hplain tail ih =>
    obtain ⟨p, q, heq, hq⟩ := hy
    have hy' : HasBlock y := by
      rcases List.append_eq_append_iff.mp heq with ⟨p', hp, hy⟩ | ⟨b', hb, hq'⟩
      · exact ⟨p', q, hy, hq⟩
      · cases b' with
        | nil => exact ⟨[], q, hq'.symm, hq⟩
        | cons c b' =>
          obtain ⟨rfl, -⟩ := List.cons.inj hq'
          exact absurd rfl (hplain '/' (by rw [hb]; simp)).1
    obtain ⟨p', q', rfl, hq'⟩ := ih hy'
    exact ⟨a ++ p', q', by simp, hq'⟩

lemma commentFree_iff {text : List Char} :
    CommentFree text ↔ ¬ "//".toList <:+: text ∧ ¬ HasBlock text := by
  constructor
  · intro h
    refine ⟨?_, ?_⟩
    · rintro ⟨a, b, rfl⟩
      have hat : commentAt ("//".toList ++ b) = true := commentAt_iff.mpr (Or.inl ⟨b, rfl⟩)
      rw [h a _ (by simp)] at hat
      cases hat
    · rintro ⟨a, b, rfl, hb⟩
      have hat : commentAt ('/' :: '*' :: b) = true := commentAt_iff.mpr (Or.inr ⟨⟨b, rfl⟩, hb⟩)
      rw [h a _ rfl] at hat
      cases hat
  · rintro ⟨hline, hblock⟩ a b rfl
    refine Bool.eq_false_of_not_eq_true fun hat => ?_
    rcases commentAt_iff.mp hat with ⟨more, rfl⟩ | ⟨⟨more, rfl⟩, hclosed⟩
    · exact hline ⟨a, more, by simp⟩
    · exact hblock ⟨a, more, rfl, hclosed⟩

/-- **Blocks for blocks make no comment.** -/
theorem Blocks.commentFree {x y : List Char} (h : Blocks x y) (hx : CommentFree x) : CommentFree y := by
  rw [commentFree_iff] at hx ⊢
  exact ⟨fun hy => hx.1 (h.pair (Or.inl rfl) (Or.inl rfl) hy), fun hy => hx.2 (h.hasBlock hy)⟩

/-! ### What the steps put in -/

section

variable {u : Unicode}

lemma blocks_dropDirectives (text : List Char) : Blocks text (dropDirectives text) := by
  induction text using line_induction with
  | last line hline =>
    rw [dropDirectives_last hline, dropLine]
    split_ifs
    · exact .drop line
    · exact Blocks.refl line
  | step line rest hline ih =>
    rw [dropDirectives_line hline, dropLine]
    split_ifs
    · have hblock : Blocks (line ++ ['\n'] ++ rest) (['\n'] ++ dropDirectives rest) :=
        .block (line ++ ['\n']) (by simp) (by simp) ih
      rwa [List.append_assoc] at hblock
    · exact Blocks.append line (.same '\n' ih)

lemma blocks_blankStrings {text out : List Char} (h : Overwritten u text out) : Blocks text out := by
  induction h with
  | nil => exact .drop []
  | char _ _ ih => exact .same _ ih
  | dead _ _ ih => exact .same _ ih
  | @literal body rest out _ _ ih =>
    refine .same '"' ?_
    unfold shownBody
    split_ifs
    · exact Blocks.append body (.same '"' ih)
    · cases body with
      | nil => exact .same '"' ih
      | cons c body =>
        refine .block (c :: body) (by simp) (fun d hd => ?_) (.same '"' ih)
        rw [List.eq_of_mem_replicate hd]
        decide

/-- A text with other names for its words with a label. -/
def renameText (u : Unicode) (name : List Char → List Char) (text : List Char) : List Char :=
  render ((toks u.word text).map (renamed name))

/-- The words of a text with a label get neutral names. -/
def NeutralFor (u : Unicode) (name : List Char → List Char) (text : List Char) : Prop :=
  ∀ w, .word w ∈ toks u.word text → HasLabel w → Neutral u (name w)

/-! ### The beginning of a second pass -/

lemma pair_isPrefixOf {a b c : Char} {rest : List Char} :
    [a, b].isPrefixOf (c :: rest) = true ↔ c = a ∧ rest.head? = some b := by
  cases rest with
  | nil => simp
  | cons d rest =>
    simp only [List.isPrefixOf, Bool.and_true, Bool.and_eq_true, beq_iff_eq, List.head?_cons,
      Option.some.injEq]
    exact and_congr eq_comm eq_comm

lemma find_terminator (c : Char) (rest : List Char) : find "*/".toList (c :: rest) =
    if c = '*' ∧ rest.head? = some '/' then some 0 else (find "*/".toList rest).map (· + 1) := by
  simp only [find, erase_char]
  exact if_congr pair_isPrefixOf rfl rfl

/-- What comes first decides: a terminator, or an opening. -/
lemma opened_cons (c : Char) (rest : List Char) :
    opened (c :: rest) = if c = '*' ∧ rest.head? = some '/' then true
      else if c = '/' ∧ rest.head? = some '*' then false else opened rest := by
  have hopen : find "/*".toList (c :: rest) =
      if c = '/' ∧ rest.head? = some '*' then some 0 else (find "/*".toList rest).map (· + 1) := by
    simp only [find, erase_char]
    exact if_congr pair_isPrefixOf rfl rfl
  unfold opened
  rw [find_terminator, hopen]
  by_cases h₁ : c = '*' ∧ rest.head? = some '/'
  · have h₂ : ¬ (c = '/' ∧ rest.head? = some '*') := by
      rw [h₁.1]
      exact fun h => absurd h.1 (by decide)
    rw [if_pos h₁, if_neg h₂, if_pos h₁]
    cases find "/*".toList rest <;> simp
  · rw [if_neg h₁, if_neg h₁]
    by_cases h₂ : c = '/' ∧ rest.head? = some '*'
    · rw [if_pos h₂, if_pos h₂]
      cases find "*/".toList rest <;> simp
    · rw [if_neg h₂, if_neg h₂]
      cases find "*/".toList rest <;> cases find "/*".toList rest <;> simp

lemma opened_append {w : List Char} (hw : ∀ c ∈ w, c ≠ '/' ∧ c ≠ '*') (rest : List Char) :
    opened (w ++ rest) = opened rest := by
  induction w with
  | nil => rfl
  | cons c w ih =>
    obtain ⟨h₁, h₂⟩ := hw c List.mem_cons_self
    rw [List.cons_append, opened_cons, if_neg fun h => h₂ h.1, if_neg fun h => h₁ h.1,
      ih fun d hd => hw d (List.mem_cons_of_mem c hd)]

/-- Where the test succeeds, the text up to the first terminator goes. -/
lemma dropOpened_found {code : List Char} {close : ℕ} (h : opened code = true)
    (hfound : find "*/".toList code = some close) :
    dropOpened code = newlines (code.take (close + 2)) ++ code.drop (close + 2) := by
  cases hopen : find "/*".toList code with
  | none => simp only [dropOpened, hfound, hopen]
  | some start =>
    simp only [opened, hfound, hopen, decide_eq_true_eq] at h
    simp only [dropOpened, hfound, hopen, if_pos h]

lemma dropOpened_append {code : List Char} (h : opened code = true) :
    ∃ a b, code = a ++ '*' :: '/' :: b ∧ ∀ more, opened (code ++ more) = true ∧
      dropOpened (code ++ more) = newlines (a ++ ['*', '/']) ++ (b ++ more) := by
  have hfind : ∃ a b, code = a ++ '*' :: '/' :: b ∧ ∀ more, opened (code ++ more) = true ∧
      find "*/".toList (code ++ more) = some a.length := by
    induction code with
    | nil => cases h
    | cons c rest ih =>
      rw [opened_cons] at h
      by_cases hclose : c = '*' ∧ rest.head? = some '/'
      · obtain ⟨rfl, hhead⟩ := hclose
        obtain ⟨b, rfl⟩ := List.head?_eq_some_iff.mp hhead
        exact ⟨[], b, rfl, fun more => ⟨by simp [opened_cons], by simp [find]⟩⟩
      · rw [if_neg hclose] at h
        split_ifs at h with hopen
        obtain ⟨a, b, rfl, hmore⟩ := ih h
        have hhead : ∀ more, (a ++ '*' :: '/' :: b ++ more).head? = (a ++ '*' :: '/' :: b).head? := fun more => by
          cases a <;> rfl
        refine ⟨c :: a, b, rfl, fun more => ?_⟩
        obtain ⟨hopened, hfound⟩ := hmore more
        constructor
        · rw [List.cons_append, opened_cons, hhead, if_neg hclose, if_neg hopen, hopened]
        · rw [List.cons_append]
          rw [find_terminator, hhead, if_neg hclose, hfound]
          rfl
  obtain ⟨a, b, rfl, hfind⟩ := hfind
  refine ⟨a, b, rfl, fun more => ⟨(hfind more).1, ?_⟩⟩
  have hsplit : a ++ '*' :: '/' :: b ++ more = (a ++ ['*', '/']) ++ (b ++ more) := by simp
  rw [dropOpened_found (hfind more).1 (hfind more).2, hsplit, List.take_left' (by simp),
    List.drop_left' (by simp)]

lemma dropOpened_of_opened {code : List Char} (h : opened code = true) :
    ∃ a b, code = a ++ '*' :: '/' :: b ∧ dropOpened code = newlines (a ++ ['*', '/']) ++ b := by
  obtain ⟨a, b, hab, hmore⟩ := dropOpened_append h
  refine ⟨a, b, hab, ?_⟩
  have := (hmore []).2
  rwa [List.append_nil, List.append_nil] at this

/-! ### Renaming -/

variable {name : List Char → List Char}

lemma renameText_append {c : Char} (hc : u.word c = false) (x y : List Char) :
    renameText u name (x ++ c :: y) = renameText u name x ++ c :: renameText u name y := by
  unfold renameText
  rw [toks_append hc, List.map_append, render_append]
  rfl

lemma NeutralFor.append {c : Char} (hc : u.word c = false) {x y : List Char} :
    NeutralFor u name (x ++ c :: y) ↔ NeutralFor u name x ∧ NeutralFor u name y := by
  unfold NeutralFor
  rw [toks_append hc]
  constructor
  · exact fun h => ⟨fun w hw => h w (List.mem_append_left _ hw), fun w hw =>
      h w (List.mem_append_right _ (List.mem_cons_of_mem _ hw))⟩
  · rintro ⟨hx, hy⟩ w hw
    rcases List.mem_append.mp hw with hw | hw
    · exact hx w hw
    · exact hy w ((List.mem_cons.mp hw).resolve_left fun h => by cases h)

lemma open_renamed {ts : List Tok} (h : Open ts) : Open (ts.map (renamed name)) := by
  intro v hv
  cases ts with
  | nil => cases hv
  | cons t ts =>
    cases t with
    | sep c => cases hv
    | word w => exact h w rfl

/-- Renaming token by token: what holds of nothing, and is kept by a character between words and by a
word before other text, holds of a text. -/
theorem token_induction {P : List Char → List Char → Prop} {text : List Char}
    (h : NeutralFor u name text) (nil : P [] [])
    (sep : ∀ c x y, u.word c = false → P x y → P (c :: x) (c :: y))
    (word : ∀ w v x y, IsWord u w → IsWord u v → (HasOmit v → HasOmit w) →
      (∀ c ∈ x.head?, u.word c = false) → (∀ c ∈ y.head?, u.word c = false) →
      P x y → P (w ++ x) (v ++ y)) : P text (renameText u name text) := by
  have hrun : ∀ ts : List Tok, Valid u.word ts →
      (∀ w, .word w ∈ ts → HasLabel w → Neutral u (name w)) →
      P (render ts) (render (ts.map (renamed name))) := by
    intro ts
    induction ts with
    | nil => exact fun _ _ => nil
    | cons t ts ih =>
      intro hvalid hname
      have hname' := fun w hw => hname w (List.mem_cons_of_mem t hw)
      cases t with
      | sep c => exact sep c _ _ hvalid.1 (ih hvalid.2 hname')
      | word w =>
        obtain ⟨hne, hw, hopen, hvalid⟩ := hvalid
        have hvalid' : Valid u.word (ts.map (renamed name)) :=
          valid_renamed hvalid fun w hw hlabel => (hname' w hw hlabel).word
        have hnew : IsWord u (newName name w) ∧ (HasOmit (newName name w) → HasOmit w) := by
          unfold newName
          split_ifs with hlabel
          · obtain ⟨h₁, -, h₃⟩ := hname w List.mem_cons_self hlabel
            exact ⟨h₁, fun h => absurd h h₃⟩
          · exact ⟨⟨hne, hw⟩, id⟩
        exact word w _ _ _ ⟨hne, hw⟩ hnew.1 hnew.2 (head_render hvalid hopen)
          (head_render hvalid' (open_renamed hopen)) (ih hvalid hname')
  have hall := hrun (toks u.word text) (valid_toks text) h
  rwa [render_toks] at hall

variable {text : List Char} (h : NeutralFor u name text)
include h

lemma blocks_renameText : Blocks text (renameText u name text) :=
  token_induction h (.drop []) (fun c _ _ _ ih => .same c ih)
    fun w _ _ _ _ hv _ _ _ ih => .block w hv.1 hv.plain ih

/-- **Renaming does not move the terminators and openings.** -/
lemma opened_renameText : opened (renameText u name text) = opened text := by
  refine (token_induction (P := fun x y => opened y = opened x ∧ (y.head? = some '/' ↔ x.head? = some '/') ∧
    (y.head? = some '*' ↔ x.head? = some '*')) h ⟨rfl, Iff.rfl, Iff.rfl⟩
    (fun c x y _ ih => ⟨?_, Iff.rfl, Iff.rfl⟩) fun w v x y hw hv _ _ _ ih => ⟨?_, ?_, ?_⟩).1
  · rw [opened_cons, opened_cons, ih.1]
    simp only [ih.2.1, ih.2.2]
  · rw [opened_append hv.plain, opened_append hw.plain, ih.1]
  · exact iff_of_false (hv.head y (not_word (by simp))) (hw.head x (not_word (by simp)))
  · exact iff_of_false (hv.head y (not_word (by simp))) (hw.head x (not_word (by simp)))

omit h

/-! ### No directive comes about -/

/-- A text that goes over no border lies on one of its sides. -/
lemma infix_sides {l a b : List Char} (h : l <:+: a ++ b) (hb : ∀ c ∈ b.head?, c ∉ l) :
    l <:+: a ∨ l <:+: b := by
  rcases List.infix_append_iff_ne_nil.mp h with h | h | ⟨x, y, hx, hy, rfl, hxa, hyb⟩
  · exact Or.inl h
  · exact Or.inr h
  · obtain ⟨c, y, rfl⟩ := List.exists_cons_of_ne_nil hy
    obtain ⟨more, rfl⟩ := hyb
    exact absurd (List.mem_append_right x List.mem_cons_self) (hb c rfl)

lemma mem_macros {l : List Char} (hl : l = "OMITBAD".toList ∨ l = "OMITGOOD".toList) :
    (∀ c ∈ l, u.word c = true) ∧ 'L' ∉ l ∧ 'x' ∉ l := by
  have hall : ∀ l ∈ ["OMITBAD".toList, "OMITGOOD".toList],
      (∀ c ∈ l, c.toNat < 128 ∧ (c.isAlphanum || c = '_') = true) ∧ 'L' ∉ l ∧ 'x' ∉ l := by
    simp
  obtain ⟨hword, hrest⟩ := hall l (by simpa using hl)
  exact ⟨fun c hc => by rw [u.word_ascii c (hword c hc).1, (hword c hc).2], hrest⟩

lemma hasOmit_iff {text : List Char} :
    HasOmit text ↔ ∃ l, (l = "OMITBAD".toList ∨ l = "OMITGOOD".toList) ∧ l <:+: text := by
  unfold HasOmit
  simp

lemma hasOmit_sides {a b : List Char} (h : HasOmit (a ++ b)) (hb : ∀ c ∈ b.head?, u.word c = false) :
    HasOmit a ∨ HasOmit b := by
  obtain ⟨l, hl, h⟩ := hasOmit_iff.mp h
  refine (infix_sides h fun c hc hmem => ?_).imp (fun h => hasOmit_iff.mpr ⟨l, hl, h⟩)
    fun h => hasOmit_iff.mpr ⟨l, hl, h⟩
  have := (mem_macros (u := u) hl).1 c hmem
  rw [hb c hc] at this
  cases this

lemma hasOmit_behind {a b : List Char} (h : HasOmit (a ++ b)) (ha : 'O' ∉ a) : HasOmit b :=
  h.imp (infix_of_notMem ha) (infix_of_notMem ha)

lemma hasOmit_mono {a b : List Char} (h : HasOmit a) (hab : a <:+: b) : HasOmit b :=
  h.imp (fun h => h.trans hab) fun h => h.trans hab

lemma word_O : u.word 'O' = true := by
  rw [u.word_ascii 'O' (by decide)]
  decide

lemma directive_word {w : List Char} (hw : IsWord u w) (rest : List Char) : ¬ Directive (w ++ rest) := by
  obtain ⟨c, w, rfl⟩ := List.exists_cons_of_ne_nil hw.1
  have hc := fun d (hd : u.word d = false) => hw.ne List.mem_cons_self hd
  rw [List.cons_append, Directive, if_neg]
  · exact fun h => hc '#' (not_word (by simp)) h.1
  · unfold isBlank
    simp [hc ' ' (not_word (by simp)), hc '\t' (not_word (by simp))]

include h

lemma directive_renameText (hline : Directive (renameText u name text)) : Directive text := by
  refine (token_induction (P := fun x y => (Directive y → Directive x) ∧ (HasOmit y → HasOmit x)) h
    ⟨id, id⟩ (fun c x y hc ih => ⟨fun hy => ?_, fun hy => ?_⟩)
    fun w v x y hw hv hwv _ hy ih => ⟨fun hvy => ?_, fun hvy => ?_⟩).1 hline
  · unfold Directive at hy ⊢
    split_ifs at hy ⊢
    · exact ih.1 hy
    · exact ⟨hy.1, ih.2 hy.2⟩
  · have hO : 'O' ∉ [c] := by
      rw [List.mem_singleton]
      rintro rfl
      rw [word_O] at hc
      cases hc
    exact hasOmit_mono (ih.2 (hasOmit_behind hy hO)) (List.suffix_cons c x).isInfix
  · exact absurd hvy (directive_word hv y)
  · rcases hasOmit_sides hvy hy with hv | hy
    · exact hasOmit_mono (hwv hv) (List.prefix_append w x).isInfix
    · exact hasOmit_mono (ih.2 hy) (List.suffix_append w x).isInfix

lemma count_renameText {c : Char} (hc : u.word c = false) :
    (renameText u name text).count c = text.count c := by
  refine token_induction (P := fun x y => y.count c = x.count c) h rfl
    (fun d x y _ ih => ?_) fun w v x y hw hv _ _ _ ih => ?_
  · rw [List.count_cons, List.count_cons, ih]
  · have hnone : ∀ {w}, IsWord u w → w.count c = 0 := fun hw =>
      List.count_eq_zero.mpr fun hmem => hw.ne hmem hc rfl
    rw [List.count_append, List.count_append, hnone hv, hnone hw, ih]

lemma mem_renameText {c : Char} (hc : u.word c = false) : c ∈ renameText u name text ↔ c ∈ text := by
  rw [← List.count_pos_iff, count_renameText h hc, List.count_pos_iff]

lemma lines_renameText : lines (renameText u name text) = (lines text).map (renameText u name) := by
  have hnewline : u.word '\n' = false := not_word (by simp)
  have hflat : ∀ {line}, '\n' ∉ line → NeutralFor u name line → '\n' ∉ renameText u name line :=
    fun hline hname hmem => hline ((mem_renameText hname hnewline).mp hmem)
  induction text using line_induction with
  | last line hline => rw [lines_last hline, lines_last (hflat hline h)]; rfl
  | step line rest hline ih =>
    obtain ⟨hthis, hrest⟩ := (NeutralFor.append hnewline).mp h
    rw [renameText_append hnewline, lines_line (hflat hline hthis), lines_line hline, ih hrest]
    rfl

omit h

lemma directive_blankStrings {line out : List Char} (h : Overwritten u line out) (hline : Directive out) :
    Directive line := by
  have hall : (∀ l : List Char, '"' ∉ l → l <+: out → l <+: line) ∧ (HasOmit out → HasOmit line) ∧
      (Directive out → Directive line) := by
    clear hline
    -- a character that stays: a macro that begins at it has no quote
    have hkeep : ∀ (c : Char) (rest out : List Char), ((∀ l : List Char, '"' ∉ l → l <+: out → l <+: rest) ∧
        (HasOmit out → HasOmit rest) ∧ (Directive out → Directive rest)) →
        (∀ l : List Char, '"' ∉ l → l <+: c :: out → l <+: c :: rest) ∧
        (HasOmit (c :: out) → HasOmit (c :: rest)) ∧ (Directive (c :: out) → Directive (c :: rest)) := by
      intro c rest out ⟨ihpre, ihomit, ihdir⟩
      have hpre : ∀ l : List Char, '"' ∉ l → l <+: c :: out → l <+: c :: rest := by
        intro l hquote hl
        cases l with
        | nil => exact List.nil_prefix
        | cons d l =>
          rw [List.cons_prefix_cons] at hl ⊢
          exact ⟨hl.1, ihpre l (fun hm => hquote (List.mem_cons_of_mem d hm)) hl.2⟩
      refine ⟨hpre, fun h => ?_, fun h => ?_⟩
      · obtain ⟨l, hl, h⟩ := hasOmit_iff.mp h
        rcases List.infix_cons_iff.mp h with h | h
        · have hquote : '"' ∉ l := fun hm => by
            have := (mem_macros (u := u) hl).1 _ hm
            rw [not_word (by simp)] at this
            cases this
          exact hasOmit_iff.mpr ⟨l, hl, (hpre l hquote h).isInfix⟩
        · exact hasOmit_mono (ihomit (hasOmit_iff.mpr ⟨l, hl, h⟩)) (List.suffix_cons c rest).isInfix
      · unfold Directive at h ⊢
        split_ifs at h ⊢
        · exact ihdir h
        · exact ⟨h.1, ihomit h.2⟩
    induction h with
    | nil => exact ⟨fun l _ h => h, id, id⟩
    | char _ _ ih => exact hkeep _ _ _ ih
    | dead _ _ ih => exact hkeep _ _ _ ih
    -- what a literal shows has no macro, and a directive does not begin with a quote
    | @literal body rest out hbody _ ih =>
      refine ⟨fun l hquote hl => ?_, fun h => ?_, fun h => ?_⟩
      · cases l with
        | nil => exact List.nil_prefix
        | cons d l =>
          rw [List.cons_prefix_cons] at hl
          exact absurd (hl.1 ▸ List.mem_cons_self) hquote
      · have hbehind := hasOmit_behind (a := ['"']) h (by decide)
        rcases hasOmit_sides (u := u) hbehind (by simpa using not_word (by simp)) with h | h
        · exact absurd h ((shownBody_spec hbody).2.not_hasOmit (List.infix_refl _))
        · have hrest := ih.2.1 (hasOmit_behind (a := ['"']) h (by decide))
          exact hasOmit_mono hrest ⟨'"' :: (body ++ ['"']), [], by simp⟩
      · rw [Directive] at h
        exact absurd h (by simp [isBlank])
  exact hall.2.2 hline

/-- No line is a directive with a label. -/
def Undirected (text : List Char) : Prop := ∀ line ∈ lines text, ¬ Directive line

lemma dropDirectives_of_undirected (h : Undirected text) : dropDirectives text = text := by
  apply eq_of_lines
  have hkept : ∀ line ∈ lines text, dropLine line = id line := fun line hline => if_neg (h line hline)
  rw [lines_dropDirectives, List.map_congr_left hkept, List.map_id]

lemma undirected_dropDirectives (text : List Char) : Undirected (dropDirectives text) := by
  intro line hline
  rw [lines_dropDirectives] at hline
  obtain ⟨first, -, rfl⟩ := List.mem_map.mp hline
  unfold dropLine
  split_ifs with hfirst
  · exact id
  · exact hfirst

lemma Undirected.blankStrings (h : Undirected text) : Undirected (blankStrings u text) := by
  intro line hline
  rw [lines_blankStrings] at hline
  obtain ⟨first, hfirst, rfl⟩ := List.mem_map.mp hline
  exact fun hdirective => h first hfirst (directive_blankStrings (overwritten_iff.mpr rfl) hdirective)

lemma NeutralFor.line {line : List Char} (h : NeutralFor u name text) (hline : line ∈ lines text) :
    NeutralFor u name line := by
  induction text using line_induction with
  | last text htext =>
    rw [lines_last htext, List.mem_singleton] at hline
    exact hline ▸ h
  | step first rest hfirst ih =>
    obtain ⟨hthis, hrest⟩ := (NeutralFor.append (not_word (by simp))).mp h
    rw [lines_line hfirst, List.mem_cons] at hline
    exact hline.elim (fun e => e ▸ hthis) (ih hrest)

lemma Undirected.renameText (hname : NeutralFor u name text) (h : Undirected text) :
    Undirected (renameText u name text) := by
  intro line hline
  rw [lines_renameText hname] at hline
  obtain ⟨first, hfirst, rfl⟩ := List.mem_map.mp hline
  exact fun hdirective => h first hfirst (directive_renameText (hname.line hfirst) hdirective)

/-! ### No literal comes about -/

/-- There is nothing to overwrite in a text. -/
def Tidy (u : Unicode) (text : List Char) : Prop := Overwritten u text text

lemma Tidy.tail {c : Char} {rest : List Char} (hc : c ≠ '"') (h : Tidy u (c :: rest)) : Tidy u rest := by
  obtain ⟨more, heq, tail⟩ := Overwritten.char_inv hc h
  obtain rfl := (List.cons.inj heq).2
  exact tail

lemma Tidy.behind {w rest : List Char} (hw : '"' ∉ w) (h : Tidy u (w ++ rest)) : Tidy u rest := by
  induction w with
  | nil => exact h
  | cons c w ih =>
    rw [List.mem_cons, not_or] at hw
    exact ih hw.2 (h.tail (Ne.symm hw.1))

/-- A quote in a tidy text begins no literal, or one without a label word. -/
lemma Tidy.quote {rest : List Char} (h : Tidy u ('"' :: rest)) :
    closes false rest = false ∧ Tidy u rest ∨
      ∃ body more, rest = body ++ '"' :: more ∧ Units '"' body ∧ Clean u body ∧ Tidy u more := by
  rcases Overwritten.quote_inv h with ⟨hdead, more, heq, tail⟩ | ⟨body, rest', more, rfl, hbody, heq, tail⟩
  · obtain rfl := (List.cons.inj heq).2
    exact Or.inl ⟨hdead, tail⟩
  · obtain ⟨hunits, hclean⟩ := shownBody_spec (u := u) hbody
    obtain ⟨hsame, rfl⟩ := literal_inj hbody hunits (List.cons.inj heq).2
    rw [← hsame] at hclean
    exact Or.inr ⟨body, rest', rfl, hbody, hclean, tail⟩

lemma closes_overwritten {text out : List Char} (h : Overwritten u text out) (esc : Bool)
    (htext : closes esc text = false) : closes esc out = false := by
  have hkeep : ∀ (c : Char) (rest out : List Char),
      (∀ esc, closes esc rest = false → closes esc out = false) →
      ∀ esc, closes esc (c :: rest) = false → closes esc (c :: out) = false := by
    intro c rest out ih esc h
    cases esc with
    | true =>
      rw [closes, Bool.and_eq_false_imp] at h ⊢
      exact fun hc => ih false (h hc)
    | false =>
      rw [closes, Bool.and_eq_false_imp] at h ⊢
      intro hc
      rw [Bool.or_eq_false_iff] at h ⊢
      exact ⟨(h hc).1, ih _ (h hc).2⟩
  induction h generalizing esc with
  | nil => exact htext
  | char _ _ ih => exact hkeep _ _ _ ih esc htext
  | dead _ _ ih => exact hkeep _ _ _ ih esc htext
  | @literal body rest out hbody _ _ =>
    -- a literal was found, so there is an end
    have hend := closes_units hbody rest
    cases esc <;> simp [closes, hend] at htext

/-- **The literals are tidy** once those with a label word are overwritten. -/
theorem tidy_overwritten {text out : List Char} (h : Overwritten u text out) : Tidy u out := by
  induction h with
  | nil => exact .nil
  | char hc _ ih => exact .char hc ih
  | dead hdead tail ih => exact .dead (closes_overwritten tail false hdead) ih
  | literal hbody _ ih =>
    obtain ⟨hunits, hclean⟩ := shownBody_spec (u := u) hbody
    have hsame := Overwritten.literal (u := u) hunits ih
    rwa [shownBody_of_clean hclean] at hsame

lemma closes_word {w : List Char} (hw : IsWord u w) (esc : Bool) (rest : List Char) :
    closes esc (w ++ rest) = closes false rest := by
  have hplain : ∀ {c}, c ∈ w → c ≠ '\n' ∧ c ≠ '"' ∧ c ≠ '\\' := fun hc =>
    ⟨hw.ne hc (not_word (by simp)), hw.ne hc (not_word (by simp)), hw.ne hc (not_word (by simp))⟩
  obtain ⟨c, w, rfl⟩ := List.exists_cons_of_ne_nil hw.1
  have hrun : closes false (w ++ rest) = closes false rest := by
    have hw' := fun d (hd : d ∈ w) => hplain (List.mem_cons_of_mem c hd)
    clear hw hplain
    induction w with
    | nil => rfl
    | cons d w ih =>
      obtain ⟨h₁, h₂, h₃⟩ := hw' d List.mem_cons_self
      simpa [closes, h₁, h₂, h₃] using ih fun e he => hw' e (List.mem_cons_of_mem d he)
  obtain ⟨h₁, h₂, h₃⟩ := hplain List.mem_cons_self
  cases esc <;> simpa [closes, h₁, h₂, h₃] using hrun

lemma closes_renameText (h : NeutralFor u name text) (esc : Bool) :
    closes esc (renameText u name text) = closes esc text := by
  refine token_induction (P := fun x y => ∀ esc, closes esc y = closes esc x) h (fun _ => rfl)
    (fun c x y _ ih esc => ?_) (fun w v x y hw hv _ _ _ ih esc => ?_) esc
  · cases esc <;> simp only [closes, ih]
  · rw [closes_word hv, closes_word hw, ih]

/-- The words of a text have no label. -/
def Unlabelled (u : Unicode) (text : List Char) : Prop := ∀ w, .word w ∈ toks u.word text → ¬ HasLabel w

lemma renameText_of_unlabelled (h : Unlabelled u text) : renameText u name text = text := by
  have hsame : ∀ t ∈ toks u.word text, renamed name t = id t := by
    intro t ht
    cases t with
    | sep c => rfl
    | word w => rw [renamed, newName, if_neg (h w ht)]; rfl
  rw [renameText, List.map_congr_left hsame, List.map_id, render_toks]

lemma unlabelled_renameText (h : NeutralFor u name text) : Unlabelled u (renameText u name text) := by
  intro v hv
  unfold renameText at hv
  rw [toks_render (valid_renamed (valid_toks text) fun w hw hlabel => (h w hw hlabel).word)] at hv
  obtain ⟨t, ht, heq⟩ := List.mem_map.mp hv
  cases t with
  | sep c => cases heq
  | word w =>
    obtain rfl : newName name w = v := Tok.word.inj heq
    unfold newName
    split_ifs with hlabel
    · exact (h w ht hlabel).label
    · exact hlabel

lemma Unlabelled.of_clean (h : Clean u text) : Unlabelled u text := fun _ hw =>
  h.not_hasLabel (part_of_mem_toks hw)

/-- Renaming makes no literal with a label word. -/
theorem Tidy.renameText (hname : NeutralFor u name text) (h : Tidy u text) : Tidy u (renameText u name text) := by
  have hquote : u.word '"' = false := not_word (by simp)
  induction hlen : text.length using Nat.strong_induction_on generalizing text with
  | _ n ih =>
    by_cases hmem : '"' ∈ text
    · obtain ⟨w, rest, rfl, hw⟩ := List.eq_append_cons_of_mem hmem
      obtain ⟨hleft, hright⟩ := (NeutralFor.append hquote).mp hname
      rw [renameText_append hquote]
      refine .append (mt (mem_renameText hleft hquote).mp hw) ?_
      have hshort : rest.length < n := by
        rw [← hlen, List.length_append, List.length_cons]
        omega
      rcases (h.behind hw).quote with ⟨hdead, tail⟩ | ⟨body, more, rfl, hbody, hclean, tail⟩
      · exact .dead (by rw [closes_renameText hright, hdead]) (ih _ hshort hright tail rfl)
      · rw [renameText_append hquote, renameText_of_unlabelled (.of_clean hclean)]
        have hmore := ((NeutralFor.append hquote).mp hright).2
        have hlonger : more.length < (body ++ '"' :: more).length := by
          rw [List.length_append, List.length_cons]
          omega
        have hsame := Overwritten.literal hbody (ih _ (lt_trans hlonger hshort) hmore tail rfl)
        rwa [shownBody_of_clean hclean] at hsame
    · have hnone := mt (mem_renameText hname hquote).mp hmem
      have hall : Overwritten u (Rescan.renameText u name text ++ []) (Rescan.renameText u name text ++ []) :=
        .append hnone .nil
      rwa [List.append_nil] at hall

/-! ### A second pass -/

/-- A text in which the steps of `scrub` behind the first find nothing. -/
structure Settled (u : Unicode) (text : List Char) : Prop where
  comments : CommentFree text
  directives : Undirected text
  literals : Tidy u text
  labels : Unlabelled u text

/-- **What the steps leave is settled.** -/
theorem settled_renameText {code : List Char} (h : NeutralFor u name (strip u code)) :
    Settled u (renameText u name (strip u code)) where
  comments := (blocks_renameText h).commentFree ((blocks_blankStrings (overwritten_iff.mpr rfl)).commentFree
    ((blocks_dropDirectives _).commentFree (commentFree_dropComments _)))
  directives := ((undirected_dropDirectives _).blankStrings).renameText h
  literals := (tidy_overwritten (overwritten_iff.mpr rfl)).renameText h
  labels := unlabelled_renameText h

lemma Settled.behind {w rest : List Char} (hw : ∀ c ∈ w, isBlank c = true ∨ c = '\n')
    (hend : w = [] ∨ ∃ front, w = front ++ ['\n']) (h : Settled u (w ++ rest)) : Settled u rest := by
  rcases hend with rfl | ⟨front, rfl⟩
  · exact h
  · have hquote : '"' ∉ front ++ ['\n'] := fun hmem => by simpa [isBlank] using hw '"' hmem
    have hflat : front ++ ['\n'] ++ rest = front ++ '\n' :: rest := by simp
    refine ⟨h.comments.tail, fun line hline => h.directives line ?_, h.literals.behind hquote,
      fun v hv => h.labels v ?_⟩
    · rw [hflat, lines, List.splitOn_append_cons_self]
      exact List.mem_append_right _ hline
    · rw [hflat, toks_append (not_word (by simp))]
      exact List.mem_append_right _ (List.mem_cons_of_mem _ hv)

/-- **A second pass leaves a settled text** unless it takes a terminator for the end of a comment. -/
theorem Settled.scrubbed_eq (h : Settled u text) (hopened : opened text = false) : scrubbed u text = text := by
  have hstrip : strip u text = text := by
    unfold strip
    rw [dropOpened_of_not_opened hopened, dropComments_of_free h.comments,
      dropDirectives_of_undirected h.directives, ← overwritten_iff.mp h.literals]
  unfold scrubbed
  rw [hstrip, name_subState, renameToks_same rename [] h.labels, render_toks]

lemma count_sub_le {r : Re} {f : Match Char → List Char} (c : Char)
    (hf : ∀ before after m, r.first before after = some m → (f m).count c ≤ m.whole.count c) (text : List Char) :
    (r.sub f text).count c ≤ text.count c := by
  have hcut : ∀ (before after : List Char) (ps : List (Piece Char)), r.Cut before after ps →
      (ps.flatMap (Piece.replaced f)).count c ≤ after.count c := by
    intro before after ps hps
    induction hps with
    | nil before => exact le_rfl
    | @keep before rest d ps _ _ ih =>
      rw [List.flatMap_cons, Piece.replaced, List.singleton_append, List.count_cons, List.count_cons]
      exact Nat.add_le_add_right ih _
    | hit hsome _ ih =>
      rw [List.flatMap_cons, Piece.replaced, List.count_append, List.count_append]
      exact Nat.add_le_add (hf _ _ _ (hitAt_spec hsome).1) ih
  exact hcut [] text _ (cut_piecesFrom r [] text)

lemma count_overwritten {text out : List Char} (h : Overwritten u text out) : out.count '/' ≤ text.count '/' := by
  induction h with
  | nil => exact le_rfl
  | char _ _ ih =>
    rw [List.count_cons, List.count_cons]
    exact Nat.add_le_add_right ih _
  | dead _ _ ih =>
    rw [List.count_cons, List.count_cons]
    exact Nat.add_le_add_right ih _
  | @literal body rest out _ _ ih =>
    have hbody : (shownBody u body).count '/' ≤ body.count '/' := by
      unfold shownBody
      split_ifs
      · exact le_rfl
      · rw [List.count_replicate]
        exact Nat.zero_le _
    simp only [List.count_append, List.count_cons]
    omega

/-- No step makes a slash. -/
lemma count_strip_le (code : List Char) : (strip u code).count '/' ≤ (dropOpened code).count '/' := by
  calc (strip u code).count '/'
      ≤ (dropDirectives (dropComments (dropOpened code))).count '/' :=
        count_overwritten (overwritten_iff.mpr rfl)
    _ ≤ (dropComments (dropOpened code)).count '/' :=
        count_sub_le '/' (fun _ _ _ _ => Nat.zero_le _) _
    _ ≤ (dropOpened code).count '/' :=
        count_sub_le '/' (fun _ _ m _ => List.filter_sublist.count_le '/') _

lemma neutralFor_nameIn (ts : List Tok) (text : List Char) : NeutralFor u (nameIn ts) text :=
  fun _ _ _ => neutral_idName u _

lemma scrubbed_eq_renameText (code : List Char) :
    scrubbed u code = renameText u (nameIn (toks u.word (strip u code))) (strip u code) := by
  rw [scrubbed, name_subState, rename_text]
  rfl

/-- **What is taken for the end of a comment goes**, and with it a slash. -/
theorem scrubbed_ne (h : opened text = true) : scrubbed u text ≠ text := by
  intro hsame
  obtain ⟨a, b, htext, hdrop⟩ := dropOpened_of_opened h
  have hcount : text.count '/' ≤ (dropOpened text).count '/' := by
    calc text.count '/' = (scrubbed u text).count '/' := by rw [hsame]
      _ = (strip u text).count '/' := by
        rw [scrubbed_eq_renameText, count_renameText (neutralFor_nameIn _ _) (not_word (by simp))]
      _ ≤ (dropOpened text).count '/' := count_strip_le text
  have hnone : (newlines (a ++ ['*', '/'])).count '/' = 0 :=
    List.count_eq_zero.mpr fun hmem => absurd (mem_newlines hmem) (by decide)
  rw [hdrop, htext, List.count_append, List.count_append, hnone] at hcount
  rw [List.count_cons_of_ne (by decide), List.count_cons_self] at hcount
  omega

lemma scrub_ok_iff {code out : List Char} :
    scrub u code = .ok out ↔ out = scrubbed u code ∧ Clean u (scrubbed u code) := by
  unfold scrub Clean
  cases hsearch : (LEAK_WORDS u).search (scrubbed u code) with
  | none => simp [eq_comm]
  | some hit => simp

lemma Settled.scrubbed_iff (h : Settled u text) : scrubbed u text = text ↔ opened text = false := by
  refine ⟨fun hsame => ?_, h.scrubbed_eq⟩
  exact Bool.eq_false_of_not_eq_true fun hopened => scrubbed_ne hopened hsame

/-- Everything `prompt_code` makes is a renamed text. -/
lemma prompt_renameText {choice : ℕ → Fin SYLLABLES.length} {tries : ℕ} {code out : List Char}
    (h : promptText u choice tries code = some out) :
    ∃ name, NeutralFor u name (strip u code) ∧ out = renameText u name (strip u code) := by
  unfold promptText at h
  generalize strip u code = text at h ⊢
  generalize hrun : (NAME_WITH_LABEL u).subState (renameNeutral u choice tries) (some ⟨0, [], []⟩) text = p at h
  obtain ⟨state, code⟩ := p
  obtain ⟨s, rfl, rfl⟩ := Option.map_eq_some_iff.mp h
  obtain ⟨htext, hdrawn⟩ := prompt_text hrun
  exact ⟨_, fun w hw hlabel => (promptName_spec hdrawn).1 w (mem_labelled.mpr ⟨hw, hlabel⟩), htext⟩

lemma uncut_settled {choice : ℕ → Fin SYLLABLES.length} {tries : ℕ} {code text : List Char}
    (h : promptText u choice tries code = some text) :
    Settled u (text.drop (lead text).length) ∧
      opened (text.drop (lead text).length) = opened (strip u code) := by
  obtain ⟨name, hname, rfl⟩ := prompt_renameText h
  have hsettled := settled_renameText hname
  have hopened := opened_renameText hname
  generalize renameText u name (strip u code) = text at hsettled hopened ⊢
  obtain ⟨hsplit, hblank⟩ := lead_spec text
  have hplain : ∀ c ∈ lead text, c ≠ '/' ∧ c ≠ '*' := by
    intro c hc
    rcases hblank c hc with hb | (rfl : c = '\n')
    · constructor <;>
      · rintro rfl
        cases hb
    · decide
  constructor
  · rw [hsplit] at hsettled
    exact hsettled.behind hblank (lead_end text)
  · rw [← hopened]
    conv_rhs => rw [hsplit]
    exact (opened_append hplain _).symm

/-- A terminator is left over in a text: in what the text shows, it stands before any opening. -/
def LeftOver (u : Unicode) (code : List Char) : Prop := ∃ text, Shown u code text ∧ opened text = true

lemma not_leftOver {code : List Char} : ¬ LeftOver u code ↔ opened (strip u code) = false := by
  unfold LeftOver
  simp [shown_iff]

/-- **Scrubbing twice** is scrubbing once exactly where no terminator is left over: for every text that
`scrub` accepts, and for everything `prompt_code` makes, before it is cut. -/
theorem scrub_again_iff (u : Unicode) :
    (∀ code out : List Char, scrub u code = .ok out → (scrub u out = .ok out ↔ ¬ LeftOver u code)) ∧
    ∀ (choice : ℕ → Fin SYLLABLES.length) (tries : ℕ) (preamble func : List (List Char)) (text : List Char),
      promptText u choice tries (joined preamble func) = some text →
      let uncut := text.drop (lead text).length
      promptCode u choice tries preamble func = some (capped uncut, (newlines (lead text)).length) ∧
        ∀ out, scrub u uncut = .ok out → (out = uncut ↔ ¬ LeftOver u (joined preamble func)) := by
  constructor
  · intro code out h
    obtain ⟨rfl, hclean⟩ := scrub_ok_iff.mp h
    have hname := neutralFor_nameIn (u := u) (toks u.word (strip u code)) (strip u code)
    have hsettled := settled_renameText hname
    rw [not_leftOver, ← opened_renameText hname]
    rw [scrubbed_eq_renameText] at hclean ⊢
    rw [← hsettled.scrubbed_iff, scrub_ok_iff]
    exact ⟨fun hagain => hagain.1.symm, fun hsame => ⟨hsame.symm, hsame.symm ▸ hclean⟩⟩
  · intro choice tries preamble func text h
    refine ⟨by rw [promptCode, h]; rfl, fun out hout => ?_⟩
    obtain ⟨hsettled, hopened⟩ := uncut_settled h
    rw [(scrub_ok_iff.mp hout).1, not_leftOver, ← hopened]
    exact hsettled.scrubbed_iff

/-- A text in which nothing is left to find, and one that `prompt_code` makes. -/
theorem scrub_again_small :
    scrub ascii "int id_1; ".toList = .ok "int id_1; ".toList ∧
      (scrub ascii "kakaka;".toList = .ok "kakaka;".toList →
        "kakaka;".toList = "\nkakaka;".toList.drop (lead "\nkakaka;".toList).length) := by
  constructor
  · exact ((scrub_again_iff ascii).1 "int bad; /* bad */".toList "int id_1; ".toList (by decide +kernel)).mpr
      (not_leftOver.mpr (by decide +kernel))
  · have hdrop : "\nkakaka;".toList.drop (lead "\nkakaka;".toList).length = "kakaka;".toList := by
      decide +kernel
    have hprompt := (scrub_again_iff ascii).2 (fun _ => ⟨0, by decide⟩) 1 [] ["bad;".toList]
      "\nkakaka;".toList (by decide +kernel)
    exact fun h => (hprompt.2 "kakaka;".toList (by rwa [hdrop])).mpr (not_leftOver.mpr (by decide +kernel))

/-- **A terminator in a literal is taken for the end of a comment** once the comment before it is gone. -/
theorem terminator_is_left : ¬ ∀ (u : Unicode) (code out : List Char), scrub u code = .ok out →
    scrub u out = .ok out := by
  intro h
  have hagain := h ascii "/* c */ f(\"*/\");".toList " f(\"*/\");".toList (by decide +kernel)
  have hcut : scrub ascii " f(\"*/\");".toList = .ok "\");".toList := by decide +kernel
  rw [hcut] at hagain
  have := Except.ok.inj hagain
  revert this
  decide

end

end CSecureBuild.Harness.Rescan
