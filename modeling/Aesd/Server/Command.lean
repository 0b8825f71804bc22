import Aesd.Driver
/-!
# The seek command

`findCommand` of the server: whether the chunks received are a seek command, and
which. Each buffer is parsed up to its first newline, so a message whose only
newline is in its last chunk is parsed as if it had come in one piece, and what
follows the newline does not matter.
-/

namespace Aesd

/-- `"AESDCHAR_IOCSEEKTO:"` -/
def AESDCHAR_IOCSEEKTO_CMD : List UInt8 :=
  ['A', 'E', 'S', 'D', 'C', 'H', 'A', 'R', '_', 'I', 'O', 'C', 'S', 'E', 'E', 'K', 'T', 'O', ':'].map
    fun c => c.toNat.toUInt8

/-- The local variables of `findCommand`; the numbers are `uint32_t`. -/
structure Parse where
  i : Nat
  commandFound : Bool
  writeCmdFound : Bool
  writeCmd : Nat
  writeCmdOffset : Nat
  deriving DecidableEq

namespace Parse

def start : Parse := ⟨0, false, false, 0, 0⟩

/-- `n * 10 + (b - '0')` -/
def digit (n : Nat) (b : UInt8) : Nat := (n * 10 + (b.toNat - '0'.toNat)) % 2 ^ 32

/-- One byte; `none` where the source returns false. -/
def byte (command : List UInt8) (st : Parse) (b : UInt8) : Option Parse :=
  if st.commandFound = false then
    if command.getD st.i 0 ≠ b then none
    else some { st with i := st.i + 1, commandFound := st.i + 1 = command.length }
  else if b.toNat = ','.toNat then some { st with writeCmdFound := true }
  else if b.toNat < '0'.toNat ∨ b.toNat > '9'.toNat then none
  else if st.writeCmdFound = false then some { st with writeCmd := digit st.writeCmd b }
  else some { st with writeCmdOffset := digit st.writeCmdOffset b }

/-- The bytes of one buffer, up to a newline. -/
def buffer (command : List UInt8) (st : Parse) : List UInt8 → Option Parse
  | [] => some st
  | b :: bs =>
    if b = newline then some st
    else
      match st.byte command b with
      | none => none
      | some st => buffer command st bs

/-- The buffers of the list. -/
def list (command : List UInt8) (st : Parse) : List (List UInt8) → Option Parse
  | [] => some st
  | head :: next =>
    match st.buffer command head with
    | none => none
    | some st => list command st next

end Parse

/-- `findCommand`: the request, where the source returns true. -/
def findCommand (head : List (List UInt8)) (command : List UInt8) : Option AesdSeekto :=
  if head = [] then none
  else
    match Parse.start.list command head with
    | none => none
    | some st => if st.writeCmdFound = false then none else some ⟨st.writeCmd, st.writeCmdOffset⟩

/-! ## Chunks -/

section Chunks

variable (command : List UInt8) (st : Parse)

theorem Parse.buffer_append {bs : List UInt8} (h : newline ∉ bs) (bs' : List UInt8) :
    st.buffer command (bs ++ bs') = (st.buffer command bs).bind (·.buffer command bs') := by
  induction bs generalizing st with
  | nil => rfl
  | cons b bs ih =>
    rw [List.mem_cons, not_or] at h
    rw [List.cons_append, buffer, buffer, if_neg (Ne.symm h.1), if_neg (Ne.symm h.1)]
    cases st.byte command b with
    | none => rfl
    | some st => exact ih st h.2

/-- The newline and what follows it do not matter. -/
theorem Parse.buffer_line {bs : List UInt8} (h : newline ∉ bs) (bs' : List UInt8) :
    st.buffer command (bs ++ newline :: bs') = st.buffer command bs := by
  rw [buffer_append command st h]
  cases st.buffer command bs with
  | none => rfl
  | some st => simp [buffer]

/-- Chunks of which only the last may have a newline are parsed as one. -/
theorem Parse.list_eq {cs : List (List UInt8)} (h : ∀ c ∈ cs, newline ∉ c) (last : List UInt8) :
    st.list command (cs ++ [last]) = st.buffer command (cs.flatten ++ last) := by
  induction cs generalizing st with
  | nil =>
    simp only [List.nil_append, list, List.flatten_nil]
    cases st.buffer command last <;> rfl
  | cons c cs ih =>
    rw [List.cons_append, list, List.flatten_cons, List.append_assoc,
      buffer_append command st (h c List.mem_cons_self)]
    cases st.buffer command c with
    | none => rfl
    | some st => exact ih st fun c hc => h c (List.mem_cons_of_mem _ hc)

/-- Only the last chunk may have a newline. -/
def Collected (chunks : List (List UInt8)) : Prop := ∀ c ∈ chunks.dropLast, newline ∉ c

/-- The command found does not depend on how the message was cut. -/
theorem findCommand_flatten {chunks : List (List UInt8)} (hne : chunks ≠ []) (h : Collected chunks) :
    findCommand chunks command = findCommand [chunks.flatten] command := by
  have hsplit : chunks = chunks.dropLast ++ [chunks.getLast hne] := (List.dropLast_append_getLast hne).symm
  have hlist : Parse.start.list command chunks = Parse.start.list command [chunks.flatten] := by
    have hone := @Parse.list_eq command Parse.start [] (by simp) chunks.flatten
    have hall := Parse.list_eq command Parse.start h (chunks.getLast hne)
    rw [← hsplit] at hall
    rw [List.nil_append, List.flatten_nil, List.nil_append] at hone
    rw [hall, hone]
    congr 1
    conv_rhs => rw [hsplit, List.flatten_append, List.flatten_singleton]
  simp only [findCommand, hne, hlist, List.cons_ne_nil, if_false]

/-- Nor on what follows the newline. -/
theorem findCommand_line {bs : List UInt8} (h : newline ∉ bs) (bs' : List UInt8) :
    findCommand [bs ++ newline :: bs'] command = findCommand [bs] command := by
  simp only [findCommand, List.cons_ne_nil, if_false, Parse.list, Parse.buffer_line command _ h]

end Chunks

/-! ## Numbers -/

/-- A string of decimal digits. -/
def Numeral (ds : List UInt8) : Prop := ds ≠ [] ∧ ∀ b ∈ ds, '0'.toNat ≤ b.toNat ∧ b.toNat ≤ '9'.toNat

/-- The number it stands for. -/
def numeralValue (ds : List UInt8) : Nat := ds.foldl (fun n b => n * 10 + (b.toNat - '0'.toNat)) 0

section Numbers

variable {xs ys : List UInt8}

/-- The number is computed modulo `2 ^ 32`. -/
theorem foldl_digit (ds : List UInt8) (n : Nat) :
    ds.foldl Parse.digit (n % 2 ^ 32) = (ds.foldl (fun n b => n * 10 + (b.toNat - '0'.toNat)) n) % 2 ^ 32 := by
  induction ds generalizing n with
  | nil => rfl
  | cons b bs ih =>
    rw [List.foldl_cons, List.foldl_cons, ← ih]
    congr 1
    unfold Parse.digit
    omega

theorem Numeral.foldl_digit (hv : numeralValue xs < 2 ^ 32) : xs.foldl Parse.digit 0 = numeralValue xs := by
  have h := Aesd.foldl_digit xs 0
  rw [Nat.zero_mod] at h
  rw [h]
  exact Nat.mod_eq_of_lt hv

/-- Decimal digits, or none. -/
def Digits (ds : List UInt8) : Prop := ∀ b ∈ ds, '0'.toNat ≤ b.toNat ∧ b.toNat ≤ '9'.toNat

def comma : UInt8 := 44

/-- Decimal digits and commas, or none. -/
def Fields (ds : List UInt8) : Prop := ∀ b ∈ ds, b = comma ∨ ('0'.toNat ≤ b.toNat ∧ b.toNat ≤ '9'.toNat)

theorem Digits.newline_not_mem (h : Digits xs) : newline ∉ xs := by
  intro hn
  exact absurd (h _ hn).1 (by decide)

theorem Digits.comma_not_mem (h : Digits xs) : comma ∉ xs := by
  intro hn
  exact absurd (h _ hn).1 (by decide)

theorem Fields.newline_not_mem (h : Fields xs) : newline ∉ xs := by
  intro hn
  rcases h _ hn with hc | hd
  · exact absurd hc (by decide)
  · exact absurd hd.1 (by decide)

theorem Digits.fields (h : Digits xs) : Fields xs := fun b hb => .inr (h b hb)

/-- Behind the command text, a byte is a comma, a digit or an error. -/
theorem Parse.byte_found {st : Parse} (hst : st.commandFound = true) (command : List UInt8) (b : UInt8) :
    st.byte command b =
      if b = comma then some { st with writeCmdFound := true }
      else if '0'.toNat ≤ b.toNat ∧ b.toNat ≤ '9'.toNat then
        some (if st.writeCmdFound = false then { st with writeCmd := digit st.writeCmd b }
          else { st with writeCmdOffset := digit st.writeCmdOffset b })
      else none := by
  have hcomma : b.toNat = ','.toNat ↔ b = comma := by
    rw [show ','.toNat = comma.toNat from rfl, UInt8.toNat_inj]
  rw [Parse.byte, if_neg (by simp [hst])]
  by_cases hc : b = comma
  · rw [if_pos (hcomma.2 hc), if_pos hc]
  rw [if_neg (mt hcomma.1 hc), if_neg hc]
  by_cases hd : '0'.toNat ≤ b.toNat ∧ b.toNat ≤ '9'.toNat
  · rw [if_neg (by omega), if_pos hd]
    split <;> rfl
  · rw [if_pos (by omega), if_neg hd]

/-- The digits before the comma. -/
theorem Parse.buffer_writeCmd (command : List UInt8) {st : Parse} (hst : st.commandFound = true)
    (hf : st.writeCmdFound = false) (h : Digits xs) :
    st.buffer command xs = some { st with writeCmd := xs.foldl digit st.writeCmd } := by
  induction xs generalizing st with
  | nil => rfl
  | cons b bs ih =>
    have hd := h b List.mem_cons_self
    have hne : b ≠ newline := fun he => h.newline_not_mem (he ▸ List.mem_cons_self)
    have hnc : b ≠ comma := fun he => h.comma_not_mem (he ▸ List.mem_cons_self)
    rw [buffer, if_neg hne, byte_found hst, if_neg hnc, if_pos hd, if_pos hf]
    exact ih hst hf fun b hb => h b (List.mem_cons_of_mem _ hb)

/-- What is behind the first comma: digits, and commas that are skipped. -/
theorem Parse.buffer_writeCmdOffset (command : List UInt8) {st st' : Parse} (hst : st.commandFound = true)
    (hf : st.writeCmdFound = true) (hn : newline ∉ ys) :
    st.buffer command ys = some st' ↔ Fields ys ∧
      st' = { st with writeCmdOffset := (ys.filter (· ≠ comma)).foldl digit st.writeCmdOffset } := by
  induction ys generalizing st with
  | nil =>
    rw [buffer, Option.some.injEq]
    exact ⟨fun h => ⟨nofun, h.symm⟩, fun h => h.2.symm⟩
  | cons b bs ih =>
    rw [List.mem_cons, not_or] at hn
    rw [buffer, if_neg (Ne.symm hn.1), byte_found hst, Fields, List.forall_mem_cons]
    by_cases hc : b = comma
    · have hsame : { st with writeCmdFound := true } = st := by rw [← hf]
      rw [if_pos hc, List.filter_cons_of_neg (by simpa using hc), hsame]
      simp only [hc, true_or, true_and]
      exact ih hst hf hn.2
    · by_cases hd : '0'.toNat ≤ b.toNat ∧ b.toNat ≤ '9'.toNat
      · rw [if_neg hc, if_pos hd, if_neg (by simp [hf]), List.filter_cons_of_pos (by simpa using hc), List.foldl_cons]
        simp only [hc, hd, false_or, and_self, true_and]
        exact ih hst hf hn.2
      · rw [if_neg hc, if_neg hd]
        simp only [hc, hd, or_self, false_and, reduceCtorEq]

theorem Parse.buffer_command :
    Parse.start.buffer AESDCHAR_IOCSEEKTO_CMD AESDCHAR_IOCSEEKTO_CMD = some ⟨19, true, false, 0, 0⟩ := by
  decide +kernel

/-- The parser behind the digits of the first number. -/
theorem Parse.start_writeCmd (h : Digits xs) :
    Parse.start.buffer AESDCHAR_IOCSEEKTO_CMD (AESDCHAR_IOCSEEKTO_CMD ++ xs) =
      some ⟨19, true, false, xs.foldl digit 0, 0⟩ := by
  rw [buffer_append _ _ (by decide +kernel), buffer_command, Option.bind_some, buffer_writeCmd _ rfl rfl h]

/-- The parser behind the comma. -/
theorem Parse.start_comma (h : Digits xs) :
    Parse.start.buffer AESDCHAR_IOCSEEKTO_CMD (AESDCHAR_IOCSEEKTO_CMD ++ (xs ++ [44])) =
      some ⟨19, true, true, xs.foldl digit 0, 0⟩ := by
  have hn : newline ∉ AESDCHAR_IOCSEEKTO_CMD ++ xs := by
    rw [List.mem_append, not_or]
    exact ⟨by decide +kernel, h.newline_not_mem⟩
  rw [← List.append_assoc, buffer_append _ _ hn, start_writeCmd h, Option.bind_some]
  rfl

/-- The parser behind digits and commas that follow. -/
theorem Parse.start_writeCmdOffset (hx : Digits xs) (hy : Fields ys) :
    Parse.start.buffer AESDCHAR_IOCSEEKTO_CMD (AESDCHAR_IOCSEEKTO_CMD ++ (xs ++ [44] ++ ys)) =
      some ⟨19, true, true, xs.foldl digit 0, (ys.filter (· ≠ comma)).foldl digit 0⟩ := by
  have hn : newline ∉ AESDCHAR_IOCSEEKTO_CMD ++ (xs ++ [44]) := by
    simp only [List.mem_append, List.mem_singleton, not_or]
    exact ⟨by decide +kernel, hx.newline_not_mem, by decide⟩
  rw [← List.append_assoc, buffer_append _ _ hn, start_comma hx, Option.bind_some]
  exact (buffer_writeCmdOffset _ rfl rfl hy.newline_not_mem).2 ⟨hy, rfl⟩

theorem Digits.filter_eq (h : Digits ys) : ys.filter (· ≠ comma) = ys := by
  rw [List.filter_eq_self]
  intro b hb
  have hne : b ≠ comma := fun he => h.comma_not_mem (he ▸ hb)
  simpa using hne

/-- A seek command, without its newline. -/
def seekCommand (xs ys : List UInt8) : List UInt8 := AESDCHAR_IOCSEEKTO_CMD ++ (xs ++ [44] ++ ys)

theorem newline_not_mem_seekCommand (hx : Digits xs) (hy : Fields ys) : newline ∉ seekCommand xs ys := by
  simp only [seekCommand, List.mem_append, List.mem_singleton, not_or]
  exact ⟨by decide +kernel, ⟨hx.newline_not_mem, by decide⟩, hy.newline_not_mem⟩

/-- What the parser makes of a command text with digits, a comma, and digits and commas. -/
theorem findCommand_fields (hx : Digits xs) (hy : Fields ys) :
    findCommand [seekCommand xs ys] AESDCHAR_IOCSEEKTO_CMD =
      some ⟨xs.foldl Parse.digit 0, (ys.filter (· ≠ comma)).foldl Parse.digit 0⟩ := by
  simp only [findCommand, List.cons_ne_nil, if_false, Parse.list, seekCommand, Parse.start_writeCmdOffset hx hy]
  rfl

/-- What the parser makes of a seek command whose numbers fit. -/
theorem findCommand_seekCommand (hx : Numeral xs) (hy : Numeral ys) (hvx : numeralValue xs < 2 ^ 32)
    (hvy : numeralValue ys < 2 ^ 32) (rest : List UInt8) :
    findCommand [seekCommand xs ys ++ newline :: rest] AESDCHAR_IOCSEEKTO_CMD =
      some ⟨numeralValue xs, numeralValue ys⟩ := by
  have hdx : Digits xs := hx.2
  have hdy : Digits ys := hy.2
  rw [findCommand_line _ (newline_not_mem_seekCommand hdx hdy.fields), findCommand_fields hdx hdy.fields,
    hdy.filter_eq, Numeral.foldl_digit hvx, Numeral.foldl_digit hvy]

end Numbers

example : findCommand [AESDCHAR_IOCSEEKTO_CMD ++ [49], [44, 50, newline]] AESDCHAR_IOCSEEKTO_CMD = some ⟨1, 2⟩ := by
  decide +kernel

end Aesd
