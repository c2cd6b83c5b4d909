import CSecureBuild.CLib.Numerals
import CSecureBuild.Shell.Hardened

/-!
What `parse_input` leaves behind. The line buffer is the part already cut (`done`), the text still
to be cut, its NUL and the rest of the buffer; a turn of the loop moves the border between the first
two behind the next token. The strings already pointed to end before that border, so the turns that
follow leave them alone. And what `parse_int` accepts: the numerals of an `int`, and nothing else.
-/

namespace CSecureBuild.Shell.Parsing

open CSecureBuild.CLib.Memory CSecureBuild.CLib.Tokens CSecureBuild.CLib.Stdio CSecureBuild.CLib.Numbers
open CSecureBuild.Shell.Process CSecureBuild.Shell.Hardened

variable {done text tail : List UInt8} {args : Args} {argCount : ℕ}

/-- The loop ends at the NUL with a null pointer behind the pointers it wrote. -/
lemma parseLoop_nil (h : tokens blank text = []) (hc : argCount < maxArgs) :
    parseLoop (done ++ text ++ 0 :: tail) args argCount done.length =
      .ok (true, done ++ text ++ 0 :: tail, Function.update args ⟨argCount, hc⟩ .null) := by
  unfold parseLoop
  rw [strtokR_none blank_zero done tail h]
  simp only [index_eq hc, ok_bind, pure_eq_ok]

lemma readEntry_token {front tok behind : List UInt8} (h0 : (0 : UInt8) ∉ tok)
    (hc : argCount < maxArgs) (ha : args ⟨argCount, hc⟩ = .pointer front.length) :
    readEntry (front ++ tok ++ 0 :: behind) args argCount = .ok (some tok) := by
  unfold readEntry
  rw [index_eq hc, ok_bind, ha]
  have hdrop : (front ++ tok ++ 0 :: behind).drop front.length = tok ++ 0 :: behind := by
    rw [List.append_assoc, List.drop_left' rfl]
  simp only [hdrop, stringOf_append_nul h0, ok_bind, pure_eq_ok]

/-- The buffer the finished loop leaves: `text` is overwritten, nothing else. -/
structure Parsed (done text tail : List UInt8) (args : Args) (argCount : ℕ)
    (r : Bool × List UInt8 × Args) : Prop where
  fits : r.1 = true
  buffer : ∃ text', text'.length = text.length ∧ r.2.1 = done ++ text' ++ 0 :: tail
  holds : Holds r.2.1 r.2.2 argCount (tokens blank text)
  frame : ∀ j : Fin maxArgs, (j : ℕ) < argCount → r.2.2 j = args j

/-- **`parse_input` on a line that fits**: the array holds the tokens of the line. -/
theorem parseLoop_fits (done tail : List UInt8) (args : Args) (argCount : ℕ)
    (h0 : (0 : UInt8) ∉ text) (hn : argCount + (tokens blank text).length ≤ maxArgs - 1) :
    ∃ r, parseLoop (done ++ text ++ 0 :: tail) args argCount done.length = .ok r ∧
      Parsed done text tail args argCount r := by
  -- by induction on the tokens that are left, the border behind the last one moving with them
  induction htoks : tokens blank text generalizing done text args argCount with
  | nil =>
    rw [htoks] at hn
    have hc : argCount < maxArgs := by simp only [List.length_nil, maxArgs] at hn ⊢; omega
    refine ⟨_, parseLoop_nil htoks hc, rfl, ⟨text, rfl, rfl⟩, ?_, ?_⟩
    · rw [htoks]
      show readEntry _ _ _ = _
      unfold readEntry
      rw [index_eq hc, ok_bind]
      simp only [Function.update_self, pure_eq_ok]
    · intro j hj
      exact Function.update_of_ne (fun h => by rw [h] at hj; simp at hj) _ _
  | cons tok toks ih =>
    obtain ⟨blanks, sep, rest, htext, -, hsep, hrest, hcall⟩ :=
      strtokR_some blank_zero h0 done tail htoks
    rw [htoks] at hn
    have hc : argCount < maxArgs := by simp only [List.length_cons, maxArgs] at hn ⊢; omega
    have hroom : argCount ≠ maxArgs - 1 := by simp only [List.length_cons, maxArgs] at hn ⊢; omega
    have htok0 : (0 : UInt8) ∉ tok := fun h => h0 (mem_of_mem_tokens (by rw [htoks]; simp) h)
    have hrest0 : (0 : UInt8) ∉ rest := fun h => h0 (by rw [htext]; simp [h])
    set done' := done ++ blanks ++ tok ++ sep.map fun _ => 0 with hdone'
    set args' := Function.update args ⟨argCount, hc⟩ (.pointer (done ++ blanks).length) with hargs'
    obtain ⟨r, hr, hfits, ⟨rest', hlen, hbuf⟩, hholds, hframe⟩ :
        ∃ r, parseLoop (done' ++ rest ++ 0 :: tail) args' (argCount + 1) done'.length = .ok r ∧
          Parsed done' rest tail args' (argCount + 1) r :=
      ih done' args' (argCount + 1) hrest0
        (by rw [hrest]; simp only [List.length_cons] at hn; omega) hrest
    refine ⟨r, ?_, hfits, ⟨blanks ++ tok ++ sep.map (fun _ => 0) ++ rest', ?_, ?_⟩, ?_, ?_⟩
    · unfold parseLoop
      rw [hcall]
      have hborder : (done ++ blanks ++ tok ++ sep).length = done'.length := by
        simp only [hdone', List.length_append, List.length_map]
      simp only [if_neg hroom, dif_pos hc]
      rw [hborder]
      exact hr
    · rw [htext]
      simp only [List.length_append, List.length_map, hlen]
    · rw [hbuf]
      simp only [hdone', List.append_assoc]
    · rw [htoks]
      refine ⟨?_, hrest ▸ hholds⟩
      have ha : r.2.2 ⟨argCount, hc⟩ = .pointer (done ++ blanks).length := by
        rw [hframe ⟨argCount, hc⟩ (Nat.lt_succ_self _), hargs', Function.update_self]
      -- a NUL stands behind the token: the one put there, or the one that ends the line
      obtain ⟨behind, hbehind⟩ : ∃ behind, sep.map (fun _ => (0 : UInt8)) ++ rest' ++ 0 :: tail =
          0 :: behind := by
        rcases hsep with ⟨rfl, rfl⟩ | ⟨d, rfl⟩
        · exact ⟨tail, by simp [List.length_eq_zero_iff.mp hlen]⟩
        · exact ⟨rest' ++ 0 :: tail, by simp⟩
      have hbuf' : r.2.1 = done ++ blanks ++ tok ++ 0 :: behind := by
        rw [hbuf, ← hbehind]
        simp only [hdone', List.append_assoc]
      rw [hbuf']
      exact readEntry_token htok0 hc ha
    · intro j hj
      rw [hframe j (by omega)]
      exact Function.update_of_ne (fun h => by rw [h] at hj; simp at hj) _ _

/-- `parse_input` refuses a line with more tokens than there are entries, and still writes none
beyond the array. -/
theorem parseLoop_refuses (done tail : List UInt8) (args : Args) (argCount : ℕ)
    (h0 : (0 : UInt8) ∉ text) (hc : argCount ≤ maxArgs - 1)
    (hn : maxArgs - 1 < argCount + (tokens blank text).length) :
    ∃ buffer args', parseLoop (done ++ text ++ 0 :: tail) args argCount done.length =
      .ok (false, buffer, args') ∧ buffer.length = (done ++ text ++ 0 :: tail).length := by
  induction htoks : tokens blank text generalizing done text args argCount with
  | nil =>
    rw [htoks, List.length_nil] at hn
    omega
  | cons tok toks ih =>
    obtain ⟨blanks, sep, rest, htext, -, hsep, hrest, hcall⟩ :=
      strtokR_some blank_zero h0 done tail htoks
    have hlen : (done ++ blanks ++ tok ++ sep.map (fun _ => (0 : UInt8)) ++ rest ++ 0 :: tail).length
        = (done ++ text ++ 0 :: tail).length := by
      rw [htext]
      simp only [List.length_append, List.length_map]
      omega
    unfold parseLoop
    rw [hcall]
    simp only
    by_cases hroom : argCount = maxArgs - 1
    · rw [if_pos hroom]
      exact ⟨_, _, rfl, hlen⟩
    · rw [htoks, List.length_cons] at hn
      have hc' : argCount < maxArgs := by omega
      have hrest0 : (0 : UInt8) ∉ rest := fun h => h0 (by rw [htext]; simp [h])
      have hborder : (done ++ blanks ++ tok ++ sep).length =
          (done ++ blanks ++ tok ++ sep.map fun _ => 0).length := by
        simp only [List.length_append, List.length_map]
      rw [if_neg hroom, dif_pos hc', hborder, ← hlen]
      exact ih _ _ _ hrest0 (by omega) (by rw [hrest]; omega) hrest

/-! ### `parse_int` -/

section Numbers

variable {lib : LibC} {v out : ℤ}

/-- A text denotes an `int`. -/
def DenotesInt (text : List UInt8) (v : ℤ) : Prop := Denotes text v ∧ intMin ≤ v ∧ v ≤ intMax

lemma int_within_long (long64 : Bool) : longMin long64 ≤ intMin ∧ intMax ≤ longMax long64 := by
  cases long64 <;> decide

lemma parseInt_accepts (h : DenotesInt text v) : parseInt lib text out = (true, v) := by
  obtain ⟨hv, hlo, hhi⟩ := h
  obtain ⟨hmin, hmax⟩ := int_within_long lib.long64
  obtain ⟨hne, hstrtol⟩ := strtol_of_denotes hv lib.long64
  have hlength : text.length ≠ 0 := by rwa [ne_eq, List.length_eq_zero_iff]
  have hfits : strtol lib.long64 text = ⟨v, text.length, false⟩ := by
    rw [hstrtol, if_neg (by omega), if_neg (by omega)]
  unfold parseInt
  simp only [hfits, hlength, ne_eq, not_true_eq_false, Bool.false_eq_true, false_or]
  rw [if_neg (by omega)]

lemma parseInt_rejects (h : ∀ v, ¬ DenotesInt text v) : parseInt lib text out = (false, out) := by
  unfold parseInt
  refine if_pos ?_
  by_cases hd : ∃ v, Denotes text v
  · obtain ⟨v, hv⟩ := hd
    have hrange : ¬ (intMin ≤ v ∧ v ≤ intMax) := fun hr => h v ⟨hv, hr⟩
    obtain ⟨-, hstrtol⟩ := strtol_of_denotes hv lib.long64
    rw [hstrtol]
    split_ifs
    · exact Or.inr (Or.inr (Or.inl rfl))
    · exact Or.inr (Or.inr (Or.inl rfl))
    · refine Or.inr (Or.inr (Or.inr ?_))
      show v < intMin ∨ v > intMax
      omega
  · rcases strtol_of_not_denotes (not_exists.mp hd) lib.long64 with h0 | hstop
    · exact Or.inl h0
    · exact Or.inr (Or.inl hstop)

lemma parseInt_iff : (parseInt lib text out).1 = true ↔ ∃ v, DenotesInt text v := by
  by_cases h : ∃ v, DenotesInt text v
  · obtain ⟨v, hv⟩ := h
    rw [parseInt_accepts hv]
    exact ⟨fun _ => ⟨v, hv⟩, fun _ => rfl⟩
  · rw [parseInt_rejects (not_exists.mp h)]
    exact ⟨fun hfalse => absurd hfalse Bool.false_ne_true, fun hex => absurd hex h⟩

end Numbers

end CSecureBuild.Shell.Parsing
