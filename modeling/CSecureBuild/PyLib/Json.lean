import Mathlib

/-!
`json.loads` and `json.dumps` as a machine that reads a text character by character, with a stack of
the objects and arrays it is in. Reading that way, what a text that breaks off leaves behind is a
state, and what more text makes of it is a run from that state.

A JSON value is represented by the text `json.dumps` gives it (`Value`), so nesting needs no tree:
`run_within` says that a value is read the same way whatever it stands in. An object is a list of
members; `loads_dumps` says that it is read back, and `loads_glued` that an object behind one that broke
off is not.
-/

namespace CSecureBuild.PyLib.Json

/-! ### The machine -/

/-- The literals, those of Python's own included. -/
inductive Literal where
  | null
  | yes
  | no
  | nan
  | infinity
  deriving DecidableEq

/-- The text of a literal. -/
def Literal.text : Literal → List Char
  | .null => ['n', 'u', 'l', 'l']
  | .yes => ['t', 'r', 'u', 'e']
  | .no => ['f', 'a', 'l', 's', 'e']
  | .nan => ['N', 'a', 'N']
  | .infinity => ['I', 'n', 'f', 'i', 'n', 'i', 't', 'y']

/-- What the machine expects next. -/
inductive Mode where
  | value
  /-- Behind `[`. -/
  | item
  /-- Behind an opening brace. -/
  | firstKey
  | key
  | colon
  /-- Behind a value. -/
  | after
  /-- In a string, which is a key or not. -/
  | string (key : Bool)
  | escape (key : Bool)
  /-- The digits that are left of a `\u` escape, one less. -/
  | hex (key : Bool) (left : ℕ)
  | minus
  | zero
  | int
  | dot
  | frac
  | exp
  | expSign
  | expInt
  /-- In a literal, at a position. -/
  | word (literal : Literal) (position : ℕ)
  | fail
  deriving DecidableEq

/-- What a value can stand in. -/
inductive Frame where
  | obj
  | arr
  deriving DecidableEq

/-- What comes behind a comma. -/
def Frame.next : Frame → Mode
  | .obj => .key
  | .arr => .value

/-- The closing bracket. -/
def Frame.close : Frame → Char
  | .obj => '}'
  | .arr => ']'

/-- A state: what is expected, and the open objects and arrays, the innermost first. -/
abbrev State := Mode × List Frame

/-- White space between tokens. -/
def isSpace (c : Char) : Bool := c = ' ' || c = '\t' || c = '\n' || c = '\r'

/-- The digits of a `\u` escape. -/
def isHex (c : Char) : Bool :=
  c.isDigit || ('a' ≤ c && c ≤ 'f') || ('A' ≤ c && c ≤ 'F')

/-- The first characters of a value: what is expected behind them, and what they open. -/
def openings : List (Char × State) :=
  [('"', .string false, []), ('{', .firstKey, [.obj]), ('[', .item, [.arr]), ('-', .minus, []),
    ('0', .zero, []), ('1', .int, []), ('2', .int, []), ('3', .int, []), ('4', .int, []),
    ('5', .int, []), ('6', .int, []), ('7', .int, []), ('8', .int, []), ('9', .int, []),
    ('n', .word .null 1, []), ('t', .word .yes 1, []), ('f', .word .no 1, []),
    ('N', .word .nan 1, []), ('I', .word .infinity 1, [])]

/-- What a character opens where a value starts. -/
def opening (c : Char) : State := (openings.lookup c).getD (.fail, [])

/-- Where a value starts. -/
def stepValue (stay : Mode) (stack : List Frame) (c : Char) : State :=
  if isSpace c then (stay, stack) else ((opening c).1, (opening c).2 ++ stack)

/-- Where a key starts. -/
def stepKey (stay : Mode) (stack : List Frame) (c : Char) : State :=
  if isSpace c then (stay, stack) else if c = '"' then (.string true, stack) else (.fail, stack)

/-- Behind a value. -/
def stepAfter : List Frame → Char → State
  | [], c => if isSpace c then (.after, []) else (.fail, [])
  | frame :: rest, c =>
    if isSpace c then (.after, frame :: rest)
    else if c = ',' then (frame.next, frame :: rest)
    else if c = frame.close then (.after, rest)
    else (.fail, frame :: rest)

/-- Inside a token, and at a colon: where a character leads, if it goes on there. -/
def inner : Mode → Char → Option Mode
  | .colon, c => if isSpace c then some .colon else if c = ':' then some .value else none
  | .string key, c =>
    if c = '"' then some (if key then .colon else .after)
    else if c = '\\' then some (.escape key)
    else if c.toNat < 32 then none
    else some (.string key)
  | .escape key, c =>
    if c ∈ ['"', '\\', '/', 'b', 'f', 'n', 'r', 't'] then some (.string key)
    else if c = 'u' then some (.hex key 3)
    else none
  | .hex key 0, c => if isHex c then some (.string key) else none
  | .hex key (left + 1), c => if isHex c then some (.hex key left) else none
  | .minus, c =>
    if c = '0' then some .zero
    else if c = 'I' then some (.word .infinity 1)
    else if c.isDigit then some .int
    else none
  | .zero, c => if c = '.' then some .dot else if c = 'e' ∨ c = 'E' then some .exp else none
  | .int, c =>
    if c.isDigit then some .int
    else if c = '.' then some .dot
    else if c = 'e' ∨ c = 'E' then some .exp
    else none
  | .dot, c => if c.isDigit then some .frac else none
  | .frac, c => if c.isDigit then some .frac else if c = 'e' ∨ c = 'E' then some .exp else none
  | .exp, c => if c.isDigit then some .expInt else if c = '+' ∨ c = '-' then some .expSign else none
  | .expSign, c => if c.isDigit then some .expInt else none
  | .expInt, c => if c.isDigit then some .expInt else none
  | .word literal position, c =>
    if literal.text[position]? = some c then
      some (if position + 1 = literal.text.length then .after else .word literal (position + 1))
    else none
  | _, _ => none

/-- A value is complete here, whatever comes next. -/
def Mode.ends : Mode → Bool
  | .after | .zero | .int | .frac | .expInt => true
  | _ => false

/-- One character. -/
def step : State → Char → State
  | (.value, stack), c => stepValue .value stack c
  | (.item, stack), c => if c = ']' then (.after, stack.tail) else stepValue .item stack c
  | (.firstKey, stack), c => if c = '}' then (.after, stack.tail) else stepKey .firstKey stack c
  | (.key, stack), c => stepKey .key stack c
  | (mode, stack), c =>
    match inner mode c with
    | some mode => (mode, stack)
    | none => if mode.ends then stepAfter stack c else (.fail, stack)

/-- A run over a text. -/
def run (st : State) (text : List Char) : State := text.foldl step st

/-- The text read so far is one JSON value, and white space around it. -/
def accepts (st : State) : Bool := st.1.ends && st.2.isEmpty

variable {st : State} {text more : List Char} {stack rest : List Frame} {m m' : Mode} {c : Char}

@[simp] lemma run_nil (st : State) : run st [] = st := rfl

@[simp] lemma run_cons (st : State) (c : Char) (text : List Char) :
    run st (c :: text) = run (step st c) text := rfl

lemma run_append (st : State) (text more : List Char) :
    run st (text ++ more) = run (run st text) more := List.foldl_append

lemma run_fail (stack : List Frame) (text : List Char) : run (.fail, stack) text = (.fail, stack) := by
  induction text with
  | nil => rfl
  | cons c text ih => exact ih

/-! ### A value is read the same way whatever it stands in -/

/-- The modes of a machine that is in no object and no array. -/
def Mode.outer : Mode → Bool
  | .item | .firstKey | .key | .colon => false
  | .string inKey | .escape inKey | .hex inKey _ => !inKey
  | _ => true

/-- A state that can come up. -/
def Ok (st : State) : Prop := st.2 = [] → st.1.outer = true

lemma ok_of_ne_nil (h : stack ≠ []) : Ok (m, stack) := fun h0 => absurd h0 h

lemma ok_opening (c : Char) : Ok (opening c) := by
  have hall : ∀ p ∈ openings, p.2.2 = [] → p.2.1.outer = true := by decide
  unfold opening
  cases h : openings.lookup c with
  | none => exact fun _ => rfl
  | some st =>
    obtain ⟨front, back, heq, -⟩ := List.lookup_eq_some_iff.mp h
    exact hall (c, st) (by rw [heq]; simp)

lemma ok_stepAfter (stack : List Frame) (c : Char) : Ok (stepAfter stack c) := by
  unfold stepAfter
  split <;> split_ifs <;> first | exact fun _ => rfl | exact ok_of_ne_nil (by simp)

lemma ok_stepValue {stay : Mode} (h : Ok (stay, stack)) (c : Char) : Ok (stepValue stay stack c) := by
  unfold stepValue
  split_ifs
  · exact h
  · intro h0
    exact ok_opening c (List.append_eq_nil_iff.mp h0).1

lemma ok_stepKey {stay : Mode} (h : stack ≠ []) (c : Char) : Ok (stepKey stay stack c) := by
  unfold stepKey
  split_ifs <;> exact ok_of_ne_nil h

lemma outer_inner (h : inner m c = some m') (hm : m.outer = true) : m'.outer = true := by
  cases m with
  | value | item | firstKey | key | after | fail => cases h
  | colon => cases hm
  | string key =>
    obtain rfl : key = false := by simpa [Mode.outer] using hm
    simp only [inner, Bool.false_eq_true, if_false] at h
    split_ifs at h <;> cases h <;> rfl
  | escape key =>
    obtain rfl : key = false := by simpa [Mode.outer] using hm
    simp only [inner] at h
    split_ifs at h <;> cases h <;> rfl
  | hex key left =>
    obtain rfl : key = false := by simpa [Mode.outer] using hm
    cases left <;> simp only [inner] at h <;> split_ifs at h <;> cases h <;> rfl
  | word literal position =>
    simp only [inner] at h
    split_ifs at h <;> cases h <;> rfl
  | minus | zero | int | dot | frac | exp | expSign | expInt =>
    simp only [inner] at h
    split_ifs at h <;> cases h <;> rfl

/-- A step of a mode that neither starts a value nor a key. -/
lemma step_inner (h : m ≠ .value ∧ m ≠ .item ∧ m ≠ .firstKey ∧ m ≠ .key) (c : Char) :
    step (m, stack) c = match inner m c with
      | some m => (m, stack)
      | none => if m.ends then stepAfter stack c else (.fail, stack) := by
  obtain ⟨h₁, h₂, h₃, h₄⟩ := h
  cases m <;> first | rfl | contradiction

lemma ok_step (h : Ok st) (c : Char) : Ok (step st c) := by
  obtain ⟨m, stack⟩ := st
  have hne : m.outer = false → stack ≠ [] := fun hm h0 => by simp [h h0] at hm
  by_cases hm : m ≠ .value ∧ m ≠ .item ∧ m ≠ .firstKey ∧ m ≠ .key
  · rw [step_inner hm]
    cases hi : inner m c with
    | some m' => exact fun h0 => outer_inner hi (h h0)
    | none =>
      simp only
      split_ifs
      · exact ok_stepAfter stack c
      · exact fun _ => rfl
  · have hm : m = .value ∨ m = .item ∨ m = .firstKey ∨ m = .key := by tauto
    rcases hm with rfl | rfl | rfl | rfl <;> unfold step
    · exact ok_stepValue h c
    · simp only
      split_ifs
      · exact fun _ => rfl
      · exact ok_stepValue h c
    · simp only
      split_ifs
      · exact fun _ => rfl
      · exact ok_stepKey (hne rfl) c
    · exact ok_stepKey (hne rfl) c

/-- A state inside some more objects and arrays. -/
def within (st : State) (rest : List Frame) : State := (st.1, st.2 ++ rest)

lemma stepAfter_within (h : (stepAfter stack c).1 ≠ .fail) (rest : List Frame) :
    stepAfter (stack ++ rest) c = within (stepAfter stack c) rest := by
  cases stack with
  | nil =>
    unfold stepAfter at h ⊢
    by_cases hs : isSpace c = true
    · cases rest <;> simp [hs, within]
    · simp [hs] at h
  | cons frame stack =>
    simp only [List.cons_append, stepAfter]
    split_ifs <;> rfl

lemma step_within (h : Ok st) (hf : (step st c).1 ≠ .fail) (rest : List Frame) :
    step (within st rest) c = within (step st c) rest := by
  obtain ⟨m, stack⟩ := st
  have hne : m.outer = false → stack ≠ [] := fun hm h0 => by simp [h h0] at hm
  have htail : m.outer = false → (stack ++ rest).tail = stack.tail ++ rest := by
    intro hm
    obtain ⟨frame, stack, rfl⟩ := List.exists_cons_of_ne_nil (hne hm)
    rfl
  have hvalue : ∀ stay : Mode, stepValue stay (stack ++ rest) c =
      within (stepValue stay stack c) rest := by
    intro stay
    unfold stepValue within
    split_ifs
    · rfl
    · rw [List.append_assoc]
  have hkey : ∀ stay : Mode, stepKey stay (stack ++ rest) c =
      within (stepKey stay stack c) rest := by
    intro stay
    unfold stepKey within
    split_ifs <;> rfl
  unfold within
  simp only
  by_cases hm : m ≠ .value ∧ m ≠ .item ∧ m ≠ .firstKey ∧ m ≠ .key
  · -- inside a word or a string the stack is not looked at, but at its end
    rw [step_inner hm] at hf ⊢
    rw [step_inner hm]
    cases hi : inner m c with
    | some m' => rfl
    | none =>
      rw [hi] at hf
      simp only at hf ⊢
      split_ifs at hf ⊢ with hend
      · exact stepAfter_within hf rest
      · exact absurd rfl hf
  · -- where a value or a key starts, or a container ends
    have hm : m = .value ∨ m = .item ∨ m = .firstKey ∨ m = .key := by tauto
    rcases hm with rfl | rfl | rfl | rfl <;> unfold step
    · exact hvalue _
    · simp only
      split_ifs
      · rw [htail rfl]
      · exact hvalue _
    · simp only
      split_ifs
      · rw [htail rfl]
      · exact hkey _
    · exact hkey _

/-- **A text is read the same way inside more objects and arrays**, if it is read without failing. -/
theorem run_within (h : Ok st) (hf : (run st text).1 ≠ .fail) (rest : List Frame) :
    run (within st rest) text = within (run st text) rest := by
  induction text generalizing st with
  | nil => rfl
  | cons c text ih =>
    have hstep : (step st c).1 ≠ .fail := by
      intro h0
      obtain ⟨stack, hs⟩ : ∃ stack, step st c = (.fail, stack) := ⟨_, Prod.ext h0 rfl⟩
      rw [run_cons, hs, run_fail] at hf
      exact hf rfl
    rw [run_cons, step_within h hstep, run_cons]
    exact ih (ok_step h c) hf

/-! ### Values and members -/

/-- A text without the white space around it. -/
def trim (text : List Char) : List Char := (text.dropWhile isSpace).rdropWhile isSpace

/-- A JSON value, as the text `json.dumps` gives it: ASCII on one line. -/
structure Value where
  text : List Char
  /-- The machine reads it, and nothing is missing. -/
  read : accepts (run (.value, []) text) = true
  tight : trim text = text
  printable : ∀ c ∈ text, 32 ≤ c.toNat ∧ c.toNat < 128

/-- A key that `json.dumps` writes as it is. -/
structure Key where
  name : List Char
  nonempty : name ≠ []
  /-- Small letters and underscores. -/
  plain : ∀ c ∈ name, 95 ≤ c.toNat ∧ c.toNat ≤ 122

/-- A dictionary: its keys are strings, and it remembers their order. -/
abbrev Members := List (Key × Value)

/-- The text of a key. -/
def Key.quoted (k : Key) : List Char := '"' :: k.name ++ ['"']

/-- A member of an object. -/
def memberText (m : Key × Value) : List Char := m.1.quoted ++ ':' :: ' ' :: m.2.text

/-- `json.dumps` of a dictionary. -/
def dumps (ms : Members) : List Char :=
  '{' :: List.intercalate [',', ' '] (ms.map memberText) ++ ['}']

/-- What a character marks at the top level of an object. -/
inductive Mark where
  | open
  | colon
  | comma
  | close
  | plain

/-- What a step from one state to the next marks. -/
def mark (st st' : State) : Mark :=
  if st.2 = [] then (if st'.2 = [.obj] then .open else .plain)
  else if st'.2 = [] then .close
  else if st.1 = .colon ∧ st.2 = [.obj] ∧ st'.1 = .value then .colon
  else if st'.1 = .key ∧ st'.2 = [.obj] ∧ st.1 ≠ .key then .comma
  else .plain

/-- A reader of an object: the state of the machine, what is read of a member so far, and the members
before it. -/
structure Reader where
  st : State
  /-- The value is being read. -/
  inValue : Bool
  key : List Char
  value : List Char
  members : List (List Char × List Char)

/-- The member that was being read is over. -/
def Reader.emit (r : Reader) : List (List Char × List Char) :=
  if r.inValue then r.members ++ [(trim r.key, trim r.value)] else r.members

/-- One character. -/
def Reader.step (r : Reader) (c : Char) : Reader :=
  let st := Json.step r.st c
  match mark r.st st with
  | .open => { r with st }
  | .colon => { r with st, inValue := true }
  | .comma => ⟨st, false, [], [], r.emit⟩
  | .close => { r with st, inValue := false, members := r.emit }
  | .plain =>
    if r.inValue then { r with st, value := r.value ++ [c] } else { r with st, key := r.key ++ [c] }

/-- Reading a text. -/
def Reader.read (r : Reader) (text : List Char) : Reader := text.foldl Reader.step r

/-- What `json.loads` makes of a text: nothing, a dictionary, or a value that is none. -/
inductive Loaded where
  | failed
  | object (members : List (List Char × List Char))
  | scalar

/-- `json.loads`, with the values of a dictionary left as texts. -/
def loads (text : List Char) : Loaded :=
  if accepts (run (.value, []) text) = true then
    if (text.dropWhile isSpace).head? = some '{' then
      .object (Reader.read ⟨(.value, []), false, [], [], []⟩ text).members
    else .scalar
  else .failed

/-- The value of a key in a dictionary that was read: the last one, if there are more. -/
def get (members : List (List Char × List Char)) (name : List Char) : Option (List Char) :=
  members.reverse.lookup ('"' :: name ++ ['"'])

/-! ### Objects -/

lemma run_ne_fail {st : State} {text : List Char} (h : (run st text).1 ≠ .fail) : st.1 ≠ .fail := by
  intro h0
  obtain ⟨m, stack⟩ := st
  obtain rfl : m = .fail := h0
  rw [run_fail] at h
  exact h rfl

lemma ends_ne_fail (h : m.ends = true) : m ≠ .fail := by
  rintro rfl
  cases h

lemma Value.run (v : Value) : ∃ m : Mode, m.ends = true ∧ Json.run (.value, []) v.text = (m, []) := by
  have h := v.read
  unfold accepts at h
  rw [Bool.and_eq_true, List.isEmpty_iff] at h
  exact ⟨_, h.1, Prod.ext rfl h.2⟩

/-- A value is read the same way wherever it stands. -/
lemma Value.run_within (v : Value) (stack : List Frame) :
    ∃ m : Mode, m.ends = true ∧ Json.run (.value, stack) v.text = (m, stack) := by
  obtain ⟨m, hm, hrun⟩ := v.run
  refine ⟨m, hm, ?_⟩
  have hf : (Json.run (.value, []) v.text).1 ≠ .fail := by
    rw [hrun]
    exact ends_ne_fail hm
  have := Json.run_within (fun _ => rfl) hf stack
  rw [hrun] at this
  simpa [within] using this

lemma step_ends (hm : m.ends = true) (h : c = ',' ∨ c = '}' ∨ c = ']' ∨ c = '{' ∨ c = ' ') :
    step (m, stack) c = stepAfter stack c := by
  cases m with
  | after => rfl
  | zero | int | frac | expInt => rcases h with rfl | rfl | rfl | rfl | rfl <;> rfl
  | _ => cases hm

lemma plain_ne (h : 95 ≤ c.toNat ∧ c.toNat ≤ 122) :
    c ≠ '"' ∧ c ≠ '\\' ∧ ¬ c.toNat < 32 ∧ isSpace c = false ∧ c ≠ ':' ∧ c ≠ ',' ∧ c ≠ '}' ∧ c ≠ ']' := by
  refine ⟨?_, ?_, by omega, ?_, ?_, ?_, ?_, ?_⟩
  case refine_3 =>
    simp only [isSpace, Bool.or_eq_false_iff, decide_eq_false_iff_not]
    refine ⟨⟨⟨?_, ?_⟩, ?_⟩, ?_⟩ <;> (rintro rfl; revert h; decide)
  all_goals (rintro rfl; revert h; decide)

lemma step_plain (h : 95 ≤ c.toNat ∧ c.toNat ≤ 122) (stack : List Frame) :
    step (.string true, stack) c = (.string true, stack) := by
  obtain ⟨h₁, h₂, h₃, -⟩ := plain_ne h
  simp [step, inner, h₁, h₂, h₃]

/-! ### Reading an object back -/

variable {r : Reader}

lemma read_append (r : Reader) (text more : List Char) :
    r.read (text ++ more) = (r.read text).read more := List.foldl_append

lemma read_value (h : Ok st) (hf : (run st text).1 ≠ .fail) (hr : r.st = within st [.obj])
    (hv : r.inValue = true) :
    r.read text = { r with st := within (run st text) [.obj], value := r.value ++ text } := by
  induction text generalizing st r with
  | nil =>
    obtain ⟨rst, inValue, key, value, members⟩ := r
    obtain rfl : rst = within st [.obj] := hr
    simp [Reader.read]
  | cons c text ih =>
    have hstep : (step st c).1 ≠ .fail := run_ne_fail hf
    have hok := ok_step h c
    have hst : step r.st c = within (step st c) [.obj] := by rw [hr, step_within h hstep]
    -- outside all objects but this one, nothing ends a member
    have hmark : mark r.st (step r.st c) = .plain := by
      rw [hst, hr]
      unfold mark within
      simp only [List.append_eq_nil_iff, List.cons_ne_nil, and_false, if_false]
      rw [if_neg, if_neg]
      · rintro ⟨hk, hs, -⟩
        have := hok (by simpa using hs)
        rw [hk] at this
        cases this
      · rintro ⟨hk, hs, -⟩
        have := h (by simpa using hs)
        rw [hk] at this
        cases this
    have hone : r.step c = { r with st := within (step st c) [.obj], value := r.value ++ [c] } := by
      unfold Reader.step
      simp only [hmark, hv, if_true]
      rw [hst]
    have hrest := ih hok hf (r := { r with
      st := within (step st c) [.obj]
      value := r.value ++ [c] }) rfl hv
    show (r.step c).read text = _
    rw [hone, hrest]
    simp

lemma read_quoted (k : Key) {m : Mode} (hm : m = .firstKey ∨ m = .key) (pre : List Char)
    (members : List (List Char × List Char)) :
    (⟨(m, [.obj]), false, pre, [], members⟩ : Reader).read k.quoted =
      ⟨(.colon, [.obj]), false, pre ++ k.quoted, [], members⟩ := by
  have hopen : (⟨(m, [.obj]), false, pre, [], members⟩ : Reader).step '"' =
      ⟨(.string true, [.obj]), false, pre ++ ['"'], [], members⟩ := by
    rcases hm with rfl | rfl <;> rfl
  have hname : ∀ (name pre : List Char), (∀ c ∈ name, 95 ≤ c.toNat ∧ c.toNat ≤ 122) →
      (⟨(.string true, [.obj]), false, pre, [], members⟩ : Reader).read name =
        ⟨(.string true, [.obj]), false, pre ++ name, [], members⟩ := by
    intro name
    induction name with
    | nil => intro pre _; simp [Reader.read]
    | cons c name ih =>
      intro pre hp
      have hone : (⟨(.string true, [.obj]), false, pre, [], members⟩ : Reader).step c =
          ⟨(.string true, [.obj]), false, pre ++ [c], [], members⟩ := by
        unfold Reader.step
        simp only [step_plain (hp c (by simp))]
        rfl
      show (Reader.step _ c).read name = _
      rw [hone, ih _ fun x hx => hp x (List.mem_cons_of_mem c hx)]
      simp
  have hclose : ∀ pre : List Char,
      (⟨(.string true, [.obj]), false, pre, [], members⟩ : Reader).read ['"'] =
        ⟨(.colon, [.obj]), false, pre ++ ['"'], [], members⟩ := fun pre => rfl
  unfold Key.quoted
  rw [List.cons_append]
  show (Reader.step _ '"').read _ = _
  rw [hopen, read_append, hname _ _ k.plain, hclose]
  simp

lemma read_member (kv : Key × Value) {m : Mode} (hm : m = .firstKey ∨ m = .key) (pre : List Char)
    (members : List (List Char × List Char)) :
    ∃ m' : Mode, m'.ends = true ∧
      (⟨(m, [.obj]), false, pre, [], members⟩ : Reader).read (memberText kv) =
        ⟨(m', [.obj]), true, pre ++ kv.1.quoted, ' ' :: kv.2.text, members⟩ := by
  obtain ⟨k, v⟩ := kv
  obtain ⟨m', hm', hrun⟩ := v.run
  refine ⟨m', hm', ?_⟩
  have hcolon : (⟨(.colon, [.obj]), false, pre ++ k.quoted, [], members⟩ : Reader).read [':', ' '] =
      ⟨(.value, [.obj]), true, pre ++ k.quoted, [' '], members⟩ := rfl
  unfold memberText
  rw [read_append, read_quoted k hm]
  show Reader.read _ ([':', ' '] ++ v.text) = _
  rw [read_append, hcolon, read_value (fun _ => rfl : Ok (.value, []))
    (by rw [hrun]; exact ends_ne_fail hm') rfl rfl, hrun]
  rfl

lemma trim_space (text : List Char) : trim (' ' :: text) = trim text := rfl

lemma trim_quoted (k : Key) {pre : List Char} (hp : ∀ c ∈ pre, isSpace c = true) :
    trim (pre ++ k.quoted) = k.quoted := by
  have h1 : (pre ++ k.quoted).dropWhile isSpace = k.quoted := by
    rw [List.dropWhile_append_of_pos hp]
    rfl
  unfold trim
  rw [h1]
  unfold Key.quoted
  rw [List.rdropWhile_concat_neg]
  decide

/-- The members of a dictionary, as they are read back. -/
def entries (ms : Members) : List (List Char × List Char) :=
  ms.map fun kv => (kv.1.quoted, kv.2.text)

/-- **The members of an object are read back.** -/
theorem read_members {ms : Members} (hne : ms ≠ []) {m : Mode} (hm : m = .firstKey ∨ m = .key)
    {pre : List Char} (hp : ∀ c ∈ pre, isSpace c = true) (members : List (List Char × List Char)) :
    ∃ key value, (⟨(m, [.obj]), false, pre, [], members⟩ : Reader).read
        (List.intercalate [',', ' '] (ms.map memberText) ++ ['}']) =
      ⟨(.after, []), false, key, value, members ++ entries ms⟩ := by
  induction ms generalizing m pre members with
  | nil => exact absurd rfl hne
  | cons kv ms ih =>
    obtain ⟨m', hm', hread⟩ := read_member kv hm pre members
    have hentry : (⟨(m', [.obj]), true, pre ++ kv.1.quoted, ' ' :: kv.2.text, members⟩ : Reader).emit
        = members ++ [(kv.1.quoted, kv.2.text)] := by
      simp only [Reader.emit, if_true, trim_quoted kv.1 hp, trim_space, kv.2.tight]
    cases ms with
    | nil =>
      -- the brace behind the last member
      refine ⟨pre ++ kv.1.quoted, ' ' :: kv.2.text, ?_⟩
      have hbody : List.intercalate [',', ' '] (List.map memberText [kv]) = memberText kv := by
        simp [List.intercalate]
      rw [hbody, read_append, hread]
      show Reader.step _ '}' = _
      unfold Reader.step
      rw [step_ends hm' (by simp)]
      show (⟨_, _, _, _, Reader.emit _⟩ : Reader) = _
      rw [hentry]
      rfl
    | cons kv' ms =>
      -- a comma, and the next member
      obtain ⟨key, value, hrest⟩ := ih (by simp) (Or.inr rfl)
        (by simp [isSpace] : ∀ c ∈ [' '], isSpace c = true) (members ++ [(kv.1.quoted, kv.2.text)])
      refine ⟨key, value, ?_⟩
      have hbody : List.intercalate [',', ' '] (List.map memberText (kv :: kv' :: ms)) =
          memberText kv ++ ([',', ' '] ++
            List.intercalate [',', ' '] (List.map memberText (kv' :: ms))) := by
        simp [List.intercalate]
      have hcomma : (⟨(m', [.obj]), true, pre ++ kv.1.quoted, ' ' :: kv.2.text, members⟩ :
          Reader).read [',', ' '] =
          ⟨(.key, [.obj]), false, [' '], [], members ++ [(kv.1.quoted, kv.2.text)]⟩ := by
        rw [← hentry]
        show (Reader.step _ ',').step ' ' = _
        have hstep : (⟨(m', [.obj]), true, pre ++ kv.1.quoted, ' ' :: kv.2.text, members⟩ :
            Reader).step ',' = ⟨(.key, [.obj]), false, [], [], Reader.emit
              ⟨(m', [.obj]), true, pre ++ kv.1.quoted, ' ' :: kv.2.text, members⟩⟩ := by
          unfold Reader.step
          rw [step_ends hm' (by simp)]
          cases m' <;> first | rfl | cases hm'
        rw [hstep]
        rfl
      rw [hbody, List.append_assoc, List.append_assoc, read_append, hread, read_append, hcomma,
        hrest]
      simp [entries]

lemma read_st (r : Reader) (text : List Char) : (r.read text).st = run r.st text := by
  induction text generalizing r with
  | nil => rfl
  | cons c text ih =>
    show ((r.step c).read text).st = run (step r.st c) text
    rw [ih]
    congr 1
    unfold Reader.step
    simp only
    split <;> first | rfl | (split_ifs <;> rfl)

/-- Reading an object from its first brace. -/
lemma read_dumps {ms : Members} (hne : ms ≠ []) :
    ∃ key value, (⟨(.value, []), false, [], [], []⟩ : Reader).read (dumps ms) =
      ⟨(.after, []), false, key, value, entries ms⟩ := by
  obtain ⟨key, value, h⟩ := read_members hne (Or.inl rfl)
    (by simp : ∀ c ∈ ([] : List Char), isSpace c = true) []
  exact ⟨key, value, h⟩

lemma run_dumps {ms : Members} (hne : ms ≠ []) : run (.value, []) (dumps ms) = (.after, []) := by
  obtain ⟨key, value, h⟩ := read_dumps hne
  have := read_st ⟨(.value, []), false, [], [], []⟩ (dumps ms)
  rw [h] at this
  exact this.symm

/-- **`json.loads` reads back what `json.dumps` wrote.** -/
theorem loads_dumps {ms : Members} (hne : ms ≠ []) : loads (dumps ms) = .object (entries ms) := by
  obtain ⟨key, value, h⟩ := read_dumps hne
  have hbrace : ((dumps ms).dropWhile isSpace).head? = some '{' := rfl
  unfold loads
  rw [run_dumps hne, if_pos (by rfl : accepts (.after, []) = true), if_pos hbrace, h]

lemma mem_intercalate {sep : List Char} {parts : List (List Char)}
    (h : c ∈ List.intercalate sep parts) : c ∈ sep ∨ ∃ part ∈ parts, c ∈ part := by
  induction parts with
  | nil => cases h
  | cons part parts ih =>
    cases parts with
    | nil =>
      rw [List.intercalate_singleton] at h
      exact Or.inr ⟨part, List.mem_singleton_self part, h⟩
    | cons part' parts =>
      rw [List.intercalate_cons_cons, List.mem_append, List.mem_append] at h
      rcases h with (h | h) | h
      · exact Or.inr ⟨part, List.mem_cons_self, h⟩
      · exact Or.inl h
      · rcases ih h with h | ⟨p, hp, h⟩
        · exact Or.inl h
        · exact Or.inr ⟨p, List.mem_cons_of_mem part hp, h⟩

lemma printable_dumps (ms : Members) : ∀ c ∈ dumps ms, 32 ≤ c.toNat ∧ c.toNat < 128 := by
  have hsome : ∀ d ∈ ['{', '}', ',', ' ', ':', '"'], 32 ≤ d.toNat ∧ d.toNat < 128 := by
    simp
  intro c hc
  unfold dumps at hc
  rcases List.mem_append.mp hc with hc | hc
  · rcases List.mem_cons.mp hc with hc | hc
    · exact hsome c (by rw [hc]; decide)
    rcases mem_intercalate hc with hc | ⟨part, hpart, hc⟩
    · rcases List.mem_cons.mp hc with hc | hc
      · exact hsome c (by rw [hc]; decide)
      · exact hsome c (by rw [List.mem_singleton.mp hc]; decide)
    obtain ⟨⟨k, v⟩, -, rfl⟩ := List.mem_map.mp hpart
    unfold memberText Key.quoted at hc
    rcases List.mem_append.mp hc with hc | hc
    · rcases List.mem_append.mp hc with hc | hc
      · rcases List.mem_cons.mp hc with hc | hc
        · exact hsome c (by rw [hc]; decide)
        · have := k.plain c hc
          omega
      · exact hsome c (by rw [List.mem_singleton.mp hc]; decide)
    · rcases List.mem_cons.mp hc with hc | hc
      · exact hsome c (by rw [hc]; decide)
      rcases List.mem_cons.mp hc with hc | hc
      · exact hsome c (by rw [hc]; decide)
      · exact v.printable c hc
  · exact hsome c (by rw [List.mem_singleton.mp hc]; decide)

/-! ### Objects that break off -/

/-- A state behind an opening brace, whatever came after it. -/
def Begun (st : State) : Prop := st.1 = .fail ∨ st.2 ≠ [] ∨ st.1 = .after

lemma begun_stepAfter (stack : List Frame) (c : Char) : Begun (stepAfter stack c) := by
  unfold stepAfter Begun
  split <;> split_ifs <;> simp

lemma begun_step (h : Begun st) (c : Char) : Begun (step st c) := by
  obtain ⟨m, stack⟩ := st
  by_cases hf : m = .fail
  · subst hf
    exact Or.inl rfl
  by_cases hs : stack = []
  · have hm : m = .after := by
      rcases h with h | h | h
      · exact absurd h hf
      · exact absurd hs h
      · exact h
    -- behind a value outside of all containers
    subst hm
    exact begun_stepAfter stack c
  -- in a container the step stays there, or ends with it
  have hstay : ∀ m : Mode, Begun (m, stack) := fun _ => Or.inr (Or.inl hs)
  by_cases hm : m ≠ .value ∧ m ≠ .item ∧ m ≠ .firstKey ∧ m ≠ .key
  · rw [step_inner hm]
    cases inner m c with
    | some m' => exact hstay m'
    | none =>
      simp only
      split_ifs
      · exact begun_stepAfter stack c
      · exact Or.inl rfl
  · have hvalue : ∀ stay : Mode, Begun (stepValue stay stack c) := by
      intro stay
      unfold stepValue
      split_ifs
      · exact hstay stay
      · exact Or.inr (Or.inl (by simp [hs]))
    have hkey : ∀ stay : Mode, Begun (stepKey stay stack c) := by
      intro stay
      unfold stepKey
      split_ifs <;> exact hstay _
    have hm : m = .value ∨ m = .item ∨ m = .firstKey ∨ m = .key := by tauto
    rcases hm with rfl | rfl | rfl | rfl <;> unfold step
    · exact hvalue _
    · simp only
      split_ifs
      · exact Or.inr (Or.inr rfl)
      · exact hvalue _
    · simp only
      split_ifs
      · exact Or.inr (Or.inr rfl)
      · exact hkey _
    · exact hkey _

lemma begun_run (h : Begun st) (text : List Char) : Begun (run st text) := by
  induction text generalizing st with
  | nil => exact h
  | cons c text ih => exact ih (begun_step h c)

lemma begun_brace (text : List Char) : Begun (run (.value, []) ('{' :: text)) :=
  begun_run (Or.inr (Or.inl (by decide)) : Begun (.firstKey, [.obj])) text

lemma not_accepts_fail (stack : List Frame) (text : List Char) :
    accepts (run (.fail, stack) text) = false := by
  rw [run_fail]
  rfl

/-- Behind a value outside all objects, only white space can come. -/
lemma isSpace_of_run_after (h : accepts (run (.after, []) text) = true) :
    ∀ c ∈ text, isSpace c = true := by
  induction text with
  | nil => simp
  | cons c text ih =>
    have hc : isSpace c = true := by
      by_contra hs
      rw [run_cons] at h
      have hstep : step (.after, []) c = (.fail, []) := by
        show stepAfter [] c = _
        simp [stepAfter, hs]
      rw [hstep, not_accepts_fail] at h
      cases h
    have hstep : step (.after, []) c = (.after, []) := by
      show stepAfter [] c = _
      simp [stepAfter, hc]
    rw [run_cons, hstep] at h
    intro x hx
    rcases List.mem_cons.mp hx with rfl | hx
    · exact hc
    · exact ih h x hx

/-- **An object that breaks off is not read.** -/
theorem not_accepts_prefix {ms : Members} {p : List Char} (hp : p <+: dumps ms)
    (hne : p ≠ dumps ms) (hms : ms ≠ []) : accepts (run (.value, []) p) = false := by
  obtain ⟨rest, hrest⟩ := hp
  cases p with
  | nil => rfl
  | cons c p =>
    have hc : c = '{' := (List.cons.inj hrest).1
    subst hc
    by_contra hacc
    rw [Bool.not_eq_false] at hacc
    have hempty : (run (.value, []) ('{' :: p)).2 = [] := by
      unfold accepts at hacc
      rw [Bool.and_eq_true, List.isEmpty_iff] at hacc
      exact hacc.2
    have hafter : run (.value, []) ('{' :: p) = (.after, []) := by
      refine Prod.ext ?_ hempty
      rcases begun_brace p with h | h | h
      · unfold accepts at hacc
        rw [h] at hacc
        cases hacc
      · exact absurd hempty h
      · exact h
    have hrun := run_dumps hms
    rw [← hrest, run_append, hafter] at hrun
    have hspace := isSpace_of_run_after (by rw [hrun]; rfl)
    have hrest0 : rest ≠ [] := by
      rintro rfl
      rw [List.append_nil] at hrest
      exact hne hrest
    -- the brace at the end of an object is no white space
    have hlast : rest.getLast? = some '}' := by
      have h := congrArg List.getLast? hrest
      rw [List.getLast?_append_of_ne_nil _ hrest0] at h
      rw [h]
      exact List.getLast?_concat
    have := hspace '}' (List.mem_of_getLast? hlast)
    revert this
    decide

lemma stepAfter_fail {frame : Frame} (hs : isSpace c = false) (hcomma : c ≠ ',')
    (hclose : c ≠ frame.close) (rest : List Frame) :
    stepAfter (frame :: rest) c = (.fail, frame :: rest) := by
  simp [stepAfter, hs, hcomma, hclose]

lemma step_brace {m : Mode} (hs : stack ≠ []) (hm : m ≠ .value ∧ m ≠ .item) :
    (step (m, stack) '{').1 = .fail ∨ ∃ key, step (m, stack) '{' = (.string key, stack) := by
  obtain ⟨frame, rest, rfl⟩ := List.exists_cons_of_ne_nil hs
  have hafter : stepAfter (frame :: rest) '{' = (.fail, frame :: rest) :=
    stepAfter_fail (by decide) (by decide) (by cases frame <;> decide) rest
  cases m with
  | value => exact absurd rfl hm.1
  | item => exact absurd rfl hm.2
  | string key => exact Or.inr ⟨key, rfl⟩
  | after | zero | int | frac | expInt => exact Or.inl (congrArg Prod.fst hafter)
  | word literal position =>
    have hnone : literal.text[position]? ≠ some '{' := by
      intro h
      have hmem := List.mem_of_getElem? h
      revert hmem
      cases literal <;> decide
    refine Or.inl ?_
    simp [step, inner, hnone, Mode.ends]
  | hex key left => cases left <;> exact Or.inl rfl
  | _ => exact Or.inl rfl

lemma dumps_cons (kv : Key × Value) (ms : Members) :
    ∃ c rest, (95 ≤ c.toNat ∧ c.toNat ≤ 122) ∧ dumps (kv :: ms) = '{' :: '"' :: c :: rest := by
  obtain ⟨c, name, hname⟩ := List.exists_cons_of_ne_nil kv.1.nonempty
  refine ⟨c, ?_⟩
  unfold dumps
  cases ms <;> simp [List.intercalate, memberText, Key.quoted, hname,
    kv.1.plain c (by simp [hname])]

/-- **An object does not start where no value does**: its beginnings close nothing. -/
lemma run_spoiled {m : Mode} (hs : stack ≠ []) (hm : m ≠ .value ∧ m ≠ .item) {ms : Members}
    (hms : ms ≠ []) {p : List Char} (hp : p <+: dumps ms) :
    (run (m, stack) p).1 = .fail ∨ (run (m, stack) p).2 ≠ [] := by
  have hfail : ∀ {st : State} (text : List Char), st.1 = .fail → (run st text).1 = .fail := by
    intro st text h
    by_contra hne
    exact run_ne_fail hne h
  obtain ⟨kv, ms, rfl⟩ := List.exists_cons_of_ne_nil hms
  obtain ⟨c, rest, hc, hrest⟩ := dumps_cons kv ms
  obtain ⟨-, -, -, hspace, hcolon, hcomma, hbrace, hbracket⟩ := plain_ne hc
  obtain ⟨frame, outer, rfl⟩ := List.exists_cons_of_ne_nil hs
  rw [hrest] at hp
  cases p with
  | nil => exact Or.inr hs
  | cons c₁ p =>
    obtain ⟨rfl, hp₁⟩ := List.cons_prefix_cons.mp hp
    rw [run_cons]
    rcases step_brace hs hm with h | ⟨inKey, h⟩
    · exact Or.inl (hfail _ h)
    rw [h]
    cases p with
    | nil => exact Or.inr hs
    | cons c₂ p =>
      obtain ⟨rfl, hp₂⟩ := List.cons_prefix_cons.mp hp₁
      -- the quote of the key ends the string, and the first letter of the key cannot come behind it
      rw [run_cons]
      cases p with
      | nil => cases inKey <;> exact Or.inr hs
      | cons c₃ p =>
        obtain ⟨rfl, -⟩ := List.cons_prefix_cons.mp hp₂
        rw [run_cons]
        refine Or.inl (hfail _ ?_)
        cases inKey with
        | true =>
          show (step (.colon, frame :: outer) c₃).1 = .fail
          simp [step, inner, hspace, hcolon, Mode.ends]
        | false =>
          show (stepAfter (frame :: outer) c₃).1 = .fail
          rw [stepAfter_fail hspace hcomma (by cases frame <;> assumption)]

/-- **An object behind one that broke off is not read**, nor is any beginning of it. -/
theorem not_accepts_glued (front : List Char) {ms : Members} (hms : ms ≠ []) {p : List Char}
    (hp : p <+: dumps ms) (hne : p ≠ []) :
    accepts (run (.value, []) ('{' :: front ++ p)) = false := by
  have hfail : ∀ {st : State}, st.1 = .fail ∨ st.2 ≠ [] → accepts st = false := by
    rintro ⟨m, stack⟩ (h | h)
    · obtain rfl : m = .fail := h
      rfl
    · simp [accepts, show stack ≠ [] from h]
  rw [run_append]
  obtain ⟨m, stack, hst⟩ : ∃ m stack, run (.value, []) ('{' :: front) = (m, stack) := ⟨_, _, rfl⟩
  have hbegun := begun_brace front
  rw [hst] at hbegun ⊢
  by_cases hs : stack = []
  · subst hs
    obtain ⟨c, p, rfl⟩ := List.exists_cons_of_ne_nil hne
    obtain ⟨rest, hrest⟩ := hp
    obtain rfl : c = '{' := (List.cons.inj hrest).1
    rcases hbegun with h | h | h
    · obtain rfl : m = .fail := h
      exact not_accepts_fail [] _
    · exact absurd rfl h
    · obtain rfl : m = .after := h
      exact not_accepts_fail [] _
  by_cases hm : m ≠ .value ∧ m ≠ .item
  · exact hfail (run_spoiled hs hm hms hp)
  -- the object is read as a value of what broke off, which goes on
  have hread : (run (.value, []) p).1 ≠ .fail := by
    obtain ⟨rest, hrest⟩ := hp
    have hrun := run_dumps hms
    rw [← hrest, run_append] at hrun
    have hne : (run (run (.value, []) p) rest).1 ≠ .fail := by
      rw [hrun]
      exact fun h => by cases h
    exact run_ne_fail hne
  have hrun := run_within (fun _ => rfl : Ok (.value, [])) hread stack
  have hvalue : (run (m, stack) p).2 = (run (.value, []) p).2 ++ stack := by
    have hm : m = .value ∨ m = .item := by tauto
    rcases hm with rfl | rfl
    · exact congrArg Prod.snd hrun
    · obtain ⟨c, p, rfl⟩ := List.exists_cons_of_ne_nil hne
      obtain ⟨rest, hrest⟩ := hp
      obtain rfl : c = '{' := (List.cons.inj hrest).1
      exact congrArg Prod.snd hrun
  exact hfail (Or.inr (by rw [hvalue]; simp [hs]))

/-- What is read of an object in full, and what is not read at all. -/
theorem loads_glued (front : List Char) {ms : Members} (hms : ms ≠ []) {p : List Char}
    (hp : p <+: dumps ms) (hne : p ≠ []) : loads ('{' :: front ++ p) = .failed := by
  unfold loads
  rw [if_neg (by rw [not_accepts_glued front hms hp hne]; exact Bool.false_ne_true)]

theorem loads_prefix {ms : Members} {p : List Char} (hp : p <+: dumps ms) (hne : p ≠ dumps ms)
    (hms : ms ≠ []) : loads p = .failed := by
  unfold loads
  rw [if_neg (by rw [ not_accepts_prefix hp hne hms]; exact Bool.false_ne_true)]

/-! ### Members by their keys -/

lemma get_head {k : Key} (v : Value) {ms : Members} (h : ∀ kv ∈ ms, kv.1.name ≠ k.name) :
    get (entries ((k, v) :: ms)) k.name = some v.text := by
  have hnone : (entries ms).reverse.lookup k.quoted = none := by
    rw [List.lookup_eq_none_iff]
    intro p hp
    obtain ⟨kv, hkv, rfl⟩ := List.mem_map.mp (List.mem_reverse.mp hp)
    rw [bne_iff_ne]
    intro heq
    exact h kv hkv (List.append_cancel_right (List.cons.inj heq).2).symm
  unfold get
  rw [entries, List.map_cons, List.reverse_cons, List.lookup_append]
  show ((entries ms).reverse.lookup k.quoted).or ([(k.quoted, v.text)].lookup k.quoted) = _
  rw [hnone, List.lookup_cons_self]
  rfl

end CSecureBuild.PyLib.Json
