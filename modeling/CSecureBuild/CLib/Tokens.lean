import CSecureBuild.CLib.Memory

/-!
`strtok_r`, which cuts a string into tokens in place: every call skips the delimiters in front of a
token, overwrites the delimiter behind it with a NUL, and saves where to go on. A call on the string
and a later call on a null pointer do the same from the start and from the saved position, so there
is one function of the position.

`strtokR_none` and `strtokR_some` say what a call does to a buffer whose text from the position on
has no token, and to one whose text has one. `tokens` is what the calls deliver together: the
maximal runs of bytes that are no delimiters, in order.
-/

namespace CSecureBuild.CLib.Tokens

open CSecureBuild.CLib.Memory

/-- The maximal runs of non-delimiters of a text, in order. -/
def tokens (delim : UInt8 → Bool) (text : List UInt8) : List (List UInt8) :=
  (text.splitOnP delim).filter (· ≠ [])

/-- `strtok_r` from the position `pos` of a buffer: where the token starts, if there is one, the
buffer with the end of the token marked, and the position to go on from. -/
def strtokR (delim : UInt8 → Bool) (buf : List UInt8) (pos : ℕ) :
    Except Fault (Option ℕ × List UInt8 × ℕ) :=
  let start := pos + ((buf.drop pos).takeWhile delim).length
  match buf[start]? with
  | none => .error .unterminated
  | some c =>
    if c = 0 then .ok (none, buf, start)
    else
      let stop := start + ((buf.drop start).takeWhile fun c => !delim c && decide (c ≠ 0)).length
      match buf[stop]? with
      | none => .error .unterminated
      | some d =>
        if d = 0 then .ok (some start, buf, stop)
        else .ok (some start, buf.set stop 0, stop + 1)

variable {delim : UInt8 → Bool}

/-! ### The tokens of a text -/

lemma tokens_nil : tokens delim [] = [] := by simp [tokens]

lemma tokens_cons_delim {d : UInt8} (hd : delim d = true) (text : List UInt8) :
    tokens delim (d :: text) = tokens delim text := by
  simp [tokens, List.splitOnP_cons_eq_if_modifyHead, hd]

lemma tokens_delims {blanks : List UInt8} (hb : ∀ c ∈ blanks, delim c = true) (text : List UInt8) :
    tokens delim (blanks ++ text) = tokens delim text := by
  induction blanks with
  | nil => rfl
  | cons c blanks ih =>
    rw [List.cons_append, tokens_cons_delim (hb c (by simp))]
    exact ih fun c' hc' => hb c' (List.mem_cons_of_mem _ hc')

lemma tokens_word {tok : List UInt8} (ht : ∀ c ∈ tok, delim c = false) (hne : tok ≠ []) :
    tokens delim tok = [tok] := by
  unfold tokens
  rw [List.splitOnP_eq_singleton ht]
  simp [hne]

lemma tokens_word_delim {tok : List UInt8} (ht : ∀ c ∈ tok, delim c = false) (hne : tok ≠ [])
    {d : UInt8} (hd : delim d = true) (rest : List UInt8) :
    tokens delim (tok ++ d :: rest) = tok :: tokens delim rest := by
  unfold tokens
  rw [List.splitOnP_append_cons_of_forall_mem ht d hd]
  simp [hne]

/-- A text is delimiters only, or it has a first token. -/
lemma text_cases (delim : UInt8 → Bool) (text : List UInt8) :
    (∀ c ∈ text, delim c = true) ∨
      ∃ blanks tok sep rest, text = blanks ++ tok ++ sep ++ rest ∧
        (∀ c ∈ blanks, delim c = true) ∧ (∀ c ∈ tok, delim c = false) ∧ tok ≠ [] ∧
        (sep = [] ∧ rest = [] ∨ ∃ d, delim d = true ∧ sep = [d]) := by
  have hsplit := List.takeWhile_append_dropWhile (p := delim) (l := text)
  have hblank : ∀ c ∈ text.takeWhile delim, delim c = true := fun c hc => List.mem_takeWhile_imp hc
  cases hword : text.dropWhile delim with
  | nil =>
    -- nothing but delimiters
    left
    rw [hword, List.append_nil] at hsplit
    rw [← hsplit]
    exact hblank
  | cons c more =>
    right
    have hc : delim c = false := by
      have := List.head?_dropWhile_not delim text
      rw [hword] at this
      simpa using this
    have hsplit' := List.takeWhile_append_dropWhile (p := fun c => !delim c) (l := c :: more)
    have hhead : (c :: more).takeWhile (fun c => !delim c) ≠ [] := by simp [hc]
    have htok : ∀ c' ∈ (c :: more).takeWhile (fun c => !delim c), delim c' = false := by
      intro c' hc'
      have := List.mem_takeWhile_imp hc'
      simpa using this
    cases hrest : (c :: more).dropWhile (fun c => !delim c) with
    | nil =>
      -- the token ends the text
      refine ⟨text.takeWhile delim, (c :: more).takeWhile (fun c => !delim c), [], [], ?_, hblank,
        htok, hhead, Or.inl ⟨rfl, rfl⟩⟩
      rw [hrest] at hsplit'
      simp only [List.append_nil] at hsplit' ⊢
      rw [hsplit', ← hword, hsplit]
    | cons d rest =>
      -- a delimiter ends the token
      have hd : delim d = true := by
        have := List.head?_dropWhile_not (fun c => !delim c) (c :: more)
        rw [hrest] at this
        simpa using this
      refine ⟨text.takeWhile delim, (c :: more).takeWhile (fun c => !delim c), [d], rest, ?_, hblank,
        htok, hhead, Or.inr ⟨d, hd, rfl⟩⟩
      rw [hrest] at hsplit'
      rw [List.append_assoc, List.append_assoc, List.singleton_append, hsplit', ← hword, hsplit]

/-- The first token of a text, and the tokens of what follows. -/
lemma tokens_split {blanks tok sep rest : List UInt8} (hb : ∀ c ∈ blanks, delim c = true)
    (ht : ∀ c ∈ tok, delim c = false) (hne : tok ≠ [])
    (hsep : sep = [] ∧ rest = [] ∨ ∃ d, delim d = true ∧ sep = [d]) :
    tokens delim (blanks ++ tok ++ sep ++ rest) = tok :: tokens delim rest := by
  rw [List.append_assoc, List.append_assoc, tokens_delims hb]
  rcases hsep with ⟨rfl, rfl⟩ | ⟨d, hd, rfl⟩
  · rw [List.append_nil, List.append_nil, tokens_word ht hne, tokens_nil]
  · exact tokens_word_delim ht hne hd rest

lemma tokens_eq_nil_iff {text : List UInt8} : tokens delim text = [] ↔ ∀ c ∈ text, delim c = true := by
  constructor
  · intro h
    rcases text_cases delim text with hall | ⟨blanks, tok, sep, rest, rfl, hb, ht, hne, hsep⟩
    · exact hall
    · rw [tokens_split hb ht hne hsep] at h
      cases h
  · intro h
    have := tokens_delims h []
    rwa [List.append_nil, tokens_nil] at this

lemma mem_of_mem_tokens {text tok : List UInt8} (h : tok ∈ tokens delim text) {c : UInt8}
    (hc : c ∈ tok) : c ∈ text := by
  induction hn : text.length using Nat.strong_induction_on generalizing text with
  | _ n ih =>
    rcases text_cases delim text with hall | ⟨blanks, tok', sep, rest, rfl, hb, ht, hne, hsep⟩
    · rw [tokens_eq_nil_iff.mpr hall] at h
      cases h
    · rw [tokens_split hb ht hne hsep] at h
      rcases List.mem_cons.mp h with rfl | h
      · simp [hc]
      · have hlen : rest.length < n := by
          rw [← hn]
          have := List.length_pos_iff.mpr hne
          simp only [List.length_append]
          omega
        have := ih rest.length hlen h rfl
        simp [this]

lemma length_tokens_le (text : List UInt8) : (tokens delim text).length ≤ text.length := by
  induction hn : text.length using Nat.strong_induction_on generalizing text with
  | _ n ih =>
    rcases text_cases delim text with hall | ⟨blanks, tok, sep, rest, rfl, hb, ht, hne, hsep⟩
    · rw [tokens_eq_nil_iff.mpr hall]
      exact Nat.zero_le n
    · have hpos := List.length_pos_iff.mpr hne
      simp only [List.length_append] at hn
      have hrest := ih rest.length (by omega) rest rfl
      rw [tokens_split hb ht hne hsep, List.length_cons]
      omega

/-! ### What a call of `strtok_r` does -/

section Call

variable (hz : delim 0 = false) {text : List UInt8} (h0 : (0 : UInt8) ∉ text)

include hz in
/-- A call where no token is left finds the NUL and changes nothing. -/
theorem strtokR_none (done tail : List UInt8) (h : tokens delim text = []) :
    strtokR delim (done ++ text ++ 0 :: tail) done.length =
      .ok (none, done ++ text ++ 0 :: tail, (done ++ text).length) := by
  have hall := tokens_eq_nil_iff.mp h
  have hskip : ((done ++ text ++ 0 :: tail).drop done.length).takeWhile delim = text := by
    rw [List.append_assoc, List.drop_left' rfl, List.takeWhile_append_of_pos hall]
    simp [hz]
  unfold strtokR
  simp only [hskip]
  rw [← List.length_append]
  simp

include hz h0 in
/-- A call where a token is left delivers its start and puts a NUL behind it. -/
theorem strtokR_some (done tail : List UInt8) {tok : List UInt8} {toks : List (List UInt8)}
    (h : tokens delim text = tok :: toks) :
    ∃ blanks sep rest, text = blanks ++ tok ++ sep ++ rest ∧ tok ≠ [] ∧
      (sep = [] ∧ rest = [] ∨ ∃ d, sep = [d]) ∧ tokens delim rest = toks ∧
      strtokR delim (done ++ text ++ 0 :: tail) done.length =
        .ok (some (done ++ blanks).length,
          done ++ blanks ++ tok ++ sep.map (fun _ => 0) ++ rest ++ 0 :: tail,
          (done ++ blanks ++ tok ++ sep).length) := by
  rcases text_cases delim text with hall | ⟨blanks, tok', sep, rest, htext, hb, ht, hne, hsep⟩
  · rw [tokens_eq_nil_iff.mpr hall] at h
    cases h
  rw [htext, tokens_split hb ht hne hsep] at h
  obtain ⟨rfl, rfl⟩ := List.cons.inj h
  refine ⟨blanks, sep, rest, htext, hne, ?_, rfl, ?_⟩
  · rcases hsep with hsep | ⟨d, -, hd⟩
    · exact Or.inl hsep
    · exact Or.inr ⟨d, hd⟩
  obtain ⟨c, word, rfl⟩ := List.exists_cons_of_ne_nil hne
  have hc : delim c = false := ht c (by simp)
  have hc0 : c ≠ 0 := by
    rintro rfl
    exact h0 (by rw [htext]; simp)
  have hword : ∀ x ∈ c :: word, (fun x => !delim x && decide (x ≠ 0)) x = true := by
    intro x hx
    have hx0 : x ≠ 0 := by
      rintro rfl
      exact h0 (by rw [htext]; simp only [List.mem_append]; simp [hx])
    simp [ht x hx, hx0]
  have hskip : ((done ++ text ++ 0 :: tail).drop done.length).takeWhile delim = blanks := by
    rw [List.append_assoc, List.drop_left' rfl, htext]
    simp only [List.append_assoc]
    rw [List.takeWhile_append_of_pos hb]
    simp [hc]
  -- the byte behind the token is the delimiter, or the NUL that ends the text
  obtain ⟨d, more, hd, hend⟩ : ∃ d more, (delim d = true ∨ d = 0) ∧
      sep ++ rest ++ 0 :: tail = d :: more := by
    rcases hsep with ⟨rfl, rfl⟩ | ⟨d, hd, rfl⟩
    · exact ⟨0, tail, Or.inr rfl, by simp⟩
    · exact ⟨d, rest ++ 0 :: tail, Or.inl hd, by simp⟩
  have hbuf : done ++ text ++ 0 :: tail = (done ++ blanks) ++ ((c :: word) ++ d :: more) := by
    rw [htext, ← hend]; simp only [List.append_assoc]
  have hstop : (((done ++ text ++ 0 :: tail).drop (done ++ blanks).length).takeWhile
      fun x => !delim x && decide (x ≠ 0)) = c :: word := by
    rw [hbuf, List.drop_left' rfl, List.takeWhile_append_of_pos hword]
    rcases hd with hd | rfl <;> simp [*]
  unfold strtokR
  simp only [hskip]
  rw [← List.length_append]
  have hget : (done ++ text ++ 0 :: tail)[(done ++ blanks).length]? = some c := by
    rw [hbuf]; simp
  rw [hget]
  simp only [hc0, if_false, hstop]
  have hstart : (done ++ blanks).length + (c :: word).length = (done ++ blanks ++ (c :: word)).length :=
    by simp only [List.length_append]
  rw [hstart]
  have hget' : (done ++ text ++ 0 :: tail)[(done ++ blanks ++ (c :: word)).length]? = some d := by
    rw [hbuf, ← List.append_assoc (done ++ blanks)]; simp
  rw [hget']
  rcases hsep with ⟨rfl, rfl⟩ | ⟨d', hd', rfl⟩
  · have hd0 : d = 0 := by simpa using (List.cons.inj hend).1.symm
    simp only [hd0, if_true]
    rw [htext]
    simp
  · have hdd : d = d' := by simpa using (List.cons.inj hend).1.symm
    have hd0 : d ≠ 0 := by
      rintro rfl
      rw [← hdd, hz] at hd'
      cases hd'
    simp only [hd0, if_false]
    congr 2
    refine Prod.ext ?_ (by simp; omega)
    rw [htext]
    simp

end Call

end CSecureBuild.CLib.Tokens
