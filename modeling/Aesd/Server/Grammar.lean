import Aesd.Server.Connection
/-!
# What the parser accepts

The seek command as a client is to send it, and the messages `findCommand` takes
for one. Every command in the right form is recognised, however its numbers are
padded and its bytes are cut into chunks. But the parser only insists on the
command text, on digits and on a comma: it also takes numbers without digits, a
second comma, numbers of more than 32 bits and a line without its end.
-/

namespace Aesd

/-- `findCommand` with its out-parameter: what it returns, and `*seekto` afterwards. -/
def findCommandInto (head : List (List UInt8)) (command : List UInt8) (seekto : AesdSeekto) : Bool × AesdSeekto :=
  if head = [] then (false, seekto)
  else
    match Parse.start.list command head with
    | none => (false, seekto)
    | some st =>
      if st.writeCmdFound = false then (false, seekto)
      else (true, { writeCmd := st.writeCmd, writeCmdOffset := st.writeCmdOffset })

/-- The out-parameter is set where the function returns true, and left alone otherwise. -/
theorem findCommandInto_eq (head : List (List UInt8)) (command : List UInt8) (seekto : AesdSeekto) :
    findCommandInto head command seekto =
      ((findCommand head command).isSome, (findCommand head command).getD seekto) := by
  unfold findCommandInto findCommand
  by_cases hne : head = []
  · rw [if_pos hne, if_pos hne]; rfl
  · rw [if_neg hne, if_neg hne]
    cases Parse.start.list command head with
    | none => rfl
    | some st =>
      cases hf : st.writeCmdFound
      · simp only [hf, if_true]; rfl
      · simp only [hf, Bool.true_eq_false, if_false]; rfl

/-- A message cut in two ways into chunks of which only the last may have a
newline: the function returns the same and finds the same numbers. Where it
returns false it leaves the out-parameter alone. -/
theorem findCommand_chunks (command : List UInt8) {chunks chunks' : List (List UInt8)} (hne : chunks ≠ [])
    (hne' : chunks' ≠ []) (h : Collected chunks) (h' : Collected chunks') (heq : chunks.flatten = chunks'.flatten)
    (seekto seekto' : AesdSeekto) :
    (findCommandInto chunks command seekto).1 = (findCommandInto chunks' command seekto').1 ∧
      ((findCommandInto chunks command seekto).1 = true →
        (findCommandInto chunks command seekto).2 = (findCommandInto chunks' command seekto').2) ∧
      ((findCommandInto chunks command seekto).1 = false →
        (findCommandInto chunks command seekto).2 = seekto ∧ (findCommandInto chunks' command seekto').2 = seekto') := by
  have hsame : findCommand chunks command = findCommand chunks' command := by
    rw [findCommand_flatten command hne h, findCommand_flatten command hne' h', heq]
  rw [findCommandInto_eq, findCommandInto_eq, hsame]
  cases findCommand chunks' command with
  | none => exact ⟨rfl, nofun, fun _ => ⟨rfl, rfl⟩⟩
  | some found => exact ⟨rfl, fun _ => rfl, nofun⟩

/-- A command in one chunk, and with a cut in its first number and an empty chunk. -/
theorem findCommand_chunks_cut :
    (findCommandInto [AESDCHAR_IOCSEEKTO_CMD ++ [49, 50, 44, 51, newline]] AESDCHAR_IOCSEEKTO_CMD ⟨7, 7⟩).1 =
      (findCommandInto [AESDCHAR_IOCSEEKTO_CMD ++ [49], [], [50, 44, 51, newline]] AESDCHAR_IOCSEEKTO_CMD ⟨8, 8⟩).1 :=
  (findCommand_chunks AESDCHAR_IOCSEEKTO_CMD (List.cons_ne_nil _ _) (List.cons_ne_nil _ _)
    (by unfold Collected; decide +kernel) (by unfold Collected; decide +kernel) (by decide +kernel) ⟨7, 7⟩ ⟨8, 8⟩).1

/-! ## Formatted numbers -/

/-- `%u` with leading zeros. -/
def formatted (zeros n : Nat) : List UInt8 := List.replicate zeros 48 ++ (Nat.toDigits 10 n).map fun c => c.toNat.toUInt8

section Formatted

theorem toUInt8_digit {c : Char} (h : c.isDigit = true) : c.toNat.toUInt8.toNat = c.toNat := by
  have h9 := (Char.isDigit_iff_toNat.1 h).2
  have : '9'.toNat = 57 := rfl
  simp only [Nat.toUInt8, UInt8.toNat_ofNat']
  omega

theorem formatted_numeral (zeros n : Nat) : Numeral (formatted zeros n) := by
  constructor
  · simp [formatted, Nat.toDigits_ne_nil]
  · intro b hb
    rcases List.mem_append.1 hb with hb | hb
    · rw [List.eq_of_mem_replicate hb]
      decide
    · obtain ⟨c, hc, rfl⟩ := List.mem_map.1 hb
      have hdigit := Nat.isDigit_of_mem_toDigits (by decide) (by decide) hc
      rw [toUInt8_digit hdigit]
      exact Char.isDigit_iff_toNat.1 hdigit

theorem numeralValue_formatted (zeros n : Nat) : numeralValue (formatted zeros n) = n := by
  have hzeros : (List.replicate zeros (48 : UInt8)).foldl (fun n b => n * 10 + (b.toNat - '0'.toNat)) 0 = 0 := by
    induction zeros with
    | zero => rfl
    | succ zeros ih => rw [List.replicate_succ, List.foldl_cons]; exact ih
  have hdigits : ∀ (cs : List Char) (m : Nat), (∀ c ∈ cs, c.isDigit = true) →
      (cs.map fun c => c.toNat.toUInt8).foldl (fun n b => n * 10 + (b.toNat - '0'.toNat)) m = Nat.ofDigitChars 10 cs m := by
    intro cs
    induction cs with
    | nil => exact fun m _ => rfl
    | cons c cs ih =>
      intro m hcs
      rw [List.map_cons, List.foldl_cons, ih _ fun d hd => hcs d (List.mem_cons_of_mem _ hd), Nat.ofDigitChars_cons,
        toUInt8_digit (hcs c List.mem_cons_self), Nat.mul_comm m 10]
  rw [numeralValue, formatted, List.foldl_append, hzeros,
    hdigits _ _ fun c hc => Nat.isDigit_of_mem_toDigits (by decide) (by decide) hc]
  exact Nat.ofDigitChars_ten_toDigits

/-- A number is no smaller than one its digits begin with. -/
theorem le_foldl_digits (ds : List UInt8) (n : Nat) : n ≤ ds.foldl (fun n b => n * 10 + (b.toNat - '0'.toNat)) n := by
  induction ds generalizing n with
  | nil => exact Nat.le_refl _
  | cons b ds ih =>
    rw [List.foldl_cons]
    have := ih (n * 10 + (b.toNat - '0'.toNat))
    omega

/-- If a number fits, no multiply-add on the way to it wraps. -/
theorem digit_exact {ds pre : List UInt8} {b : UInt8} (hv : numeralValue ds < 2 ^ 32) (hpre : pre ++ [b] <+: ds) :
    Parse.digit (pre.foldl Parse.digit 0) b = pre.foldl Parse.digit 0 * 10 + (b.toNat - '0'.toNat) := by
  obtain ⟨post, rfl⟩ := hpre
  have hle : numeralValue pre * 10 + (b.toNat - '0'.toNat) < 2 ^ 32 := by
    rw [numeralValue, List.foldl_append, List.foldl_append] at hv
    exact Nat.lt_of_le_of_lt (le_foldl_digits post _) hv
  rw [Numeral.foldl_digit (show numeralValue pre < 2 ^ 32 by omega), Parse.digit]
  exact Nat.mod_eq_of_lt hle

end Formatted

/-- Each digit of `ds`, read behind `text`, changes a number of the parser to what
it stands for with that digit; `st` is the parser with this number. -/
def ReadsExactly (text ds : List UInt8) (st : Nat → Parse) : Prop :=
  ∀ pre b, pre ++ [b] <+: ds → ∃ n, Parse.start.buffer AESDCHAR_IOCSEEKTO_CMD (text ++ pre) = some (st n) ∧
    (st n).byte AESDCHAR_IOCSEEKTO_CMD b = some (st (n * 10 + (b.toNat - '0'.toNat)))

theorem readsExactly_writeCmd {xs : List UInt8} (hx : Digits xs) (hv : numeralValue xs < 2 ^ 32) :
    ReadsExactly AESDCHAR_IOCSEEKTO_CMD xs fun n => ⟨19, true, false, n, 0⟩ := by
  intro pre b hpre
  have hsub : ∀ a ∈ pre ++ [b], a ∈ xs := fun a ha => hpre.subset ha
  have hb := hx b (hsub b (by simp))
  have hnc : b ≠ comma := fun he => hx.comma_not_mem (he ▸ hsub b (by simp))
  refine ⟨_, Parse.start_writeCmd fun a ha => hx a (hsub a (List.mem_append_left _ ha)), ?_⟩
  rw [Parse.byte_found rfl, if_neg hnc, if_pos hb, ← digit_exact hv hpre]
  rfl

theorem readsExactly_writeCmdOffset {xs ys : List UInt8} (hx : Digits xs) (hy : Digits ys)
    (hv : numeralValue ys < 2 ^ 32) :
    ReadsExactly (AESDCHAR_IOCSEEKTO_CMD ++ (xs ++ [44])) ys fun n => ⟨19, true, true, xs.foldl Parse.digit 0, n⟩ := by
  intro pre b hpre
  have hsub : ∀ a ∈ pre ++ [b], a ∈ ys := fun a ha => hpre.subset ha
  have hb := hy b (hsub b (by simp))
  have hnc : b ≠ comma := fun he => hy.comma_not_mem (he ▸ hsub b (by simp))
  have hp : Digits pre := fun a ha => hy a (hsub a (List.mem_append_left _ ha))
  refine ⟨pre.foldl Parse.digit 0, ?_, ?_⟩
  · rw [List.append_assoc, Parse.start_writeCmdOffset hx hp.fields, hp.filter_eq]
  · rw [Parse.byte_found rfl, if_neg hnc, if_pos hb, ← digit_exact hv hpre]
    rfl

/-- Two numbers that fit into 32 bits, with any leading zeros, in a message cut
into any chunks and with any bytes behind its newline: the function finds them,
and no digit makes a number wrap. -/
theorem findCommand_formatted {x y : Nat} (hx : x < 2 ^ 32) (hy : y < 2 ^ 32) (zx zy : Nat) (rest : List UInt8)
    {chunks : List (List UInt8)} (hcut : chunks.flatten = seekCommand (formatted zx x) (formatted zy y) ++ newline :: rest)
    (hc : Collected chunks) (seekto : AesdSeekto) :
    findCommandInto chunks AESDCHAR_IOCSEEKTO_CMD seekto = (true, ⟨x, y⟩) ∧
      ReadsExactly AESDCHAR_IOCSEEKTO_CMD (formatted zx x) (fun n => ⟨19, true, false, n, 0⟩) ∧
      ReadsExactly (AESDCHAR_IOCSEEKTO_CMD ++ (formatted zx x ++ [44])) (formatted zy y)
        (fun n => ⟨19, true, true, x, n⟩) := by
  have hvx : numeralValue (formatted zx x) < 2 ^ 32 := by rw [numeralValue_formatted]; exact hx
  have hvy : numeralValue (formatted zy y) < 2 ^ 32 := by rw [numeralValue_formatted]; exact hy
  have hne : chunks ≠ [] := by
    rintro rfl
    simp at hcut
  refine ⟨?_, readsExactly_writeCmd (formatted_numeral zx x).2 hvx, ?_⟩
  · rw [findCommandInto_eq, findCommand_flatten _ hne hc, hcut, findCommand_seekCommand (formatted_numeral zx x)
      (formatted_numeral zy y) hvx hvy, numeralValue_formatted, numeralValue_formatted]
    rfl
  · have hread := readsExactly_writeCmdOffset (formatted_numeral zx x).2 (formatted_numeral zy y).2 hvy
    rw [Numeral.foldl_digit hvx, numeralValue_formatted] at hread
    exact hread

theorem findCommand_formatted_largest :
    findCommandInto [seekCommand (formatted 0 4294967295) (formatted 2 0) ++ [newline]] AESDCHAR_IOCSEEKTO_CMD ⟨7, 7⟩ =
      (true, ⟨4294967295, 0⟩) :=
  (findCommand_formatted (by decide) (by decide) 0 2 [] (List.flatten_singleton ..) (by simp [Collected]) ⟨7, 7⟩).1

/-! ## What is accepted -/

section Accepted

variable {command bs : List UInt8} {st st' : Parse}

/-- A parser that has seen the command text and then a comma has seen digits in
front of it, and digits and commas behind it. -/
theorem Parse.fields_of_buffer (hst : st.commandFound = true) (hf : st.writeCmdFound = false) (hn : newline ∉ bs)
    (h : st.buffer command bs = some st') (hf' : st'.writeCmdFound = true) :
    ∃ xs ys, bs = xs ++ [comma] ++ ys ∧ Digits xs ∧ Fields ys := by
  induction bs generalizing st with
  | nil =>
    obtain rfl := Option.some.inj h
    rw [hf] at hf'
    cases hf'
  | cons b bs ih =>
    rw [List.mem_cons, not_or] at hn
    rw [buffer, if_neg (Ne.symm hn.1), byte_found hst] at h
    by_cases hc : b = comma
    · rw [if_pos hc] at h
      have hrest : Parse.buffer command { st with writeCmdFound := true } bs = some st' := h
      obtain ⟨hys, -⟩ := (buffer_writeCmdOffset command (by exact hst) (by rfl) hn.2).1 hrest
      exact ⟨[], bs, by rw [hc]; rfl, List.forall_mem_nil _, hys⟩
    · by_cases hd : '0'.toNat ≤ b.toNat ∧ b.toNat ≤ '9'.toNat
      · rw [if_neg hc, if_pos hd, if_pos hf] at h
        have hrest : Parse.buffer command { st with writeCmd := digit st.writeCmd b } bs = some st' := h
        obtain ⟨xs, ys, rfl, hxs, hys⟩ := ih (by exact hst) (by exact hf) hn.2 hrest
        refine ⟨b :: xs, ys, rfl, ?_, hys⟩
        rw [Digits, List.forall_mem_cons]
        exact ⟨hd, hxs⟩
      · rw [if_neg hc, if_neg hd] at h
        cases h

theorem Parse.command_of_buffer {i : Nat} (hi : i < command.length) (hn : newline ∉ bs)
    (h : Parse.buffer command ⟨i, false, false, 0, 0⟩ bs = some st') (hf' : st'.writeCmdFound = true) :
    ∃ rest, bs = command.drop i ++ rest ∧ Parse.buffer command ⟨command.length, true, false, 0, 0⟩ rest = some st' := by
  induction bs generalizing i with
  | nil =>
    obtain rfl := Option.some.inj h
    cases hf'
  | cons b bs ih =>
    rw [List.mem_cons, not_or] at hn
    rw [buffer, if_neg (Ne.symm hn.1), byte, if_pos rfl] at h
    have hdrop := List.drop_eq_getElem_cons hi
    by_cases hb : command.getD i 0 ≠ b
    · rw [if_pos hb] at h
      cases h
    rw [if_neg hb] at h
    have hget : command[i] = b := by
      rw [Decidable.not_not, List.getD_eq_getElem?_getD, List.getElem?_eq_getElem hi] at hb
      exact hb
    rw [hdrop, hget]
    by_cases hlast : i + 1 = command.length
    · simp only [hlast, decide_true] at h
      refine ⟨bs, ?_, h⟩
      rw [hlast, List.drop_length]
      rfl
    · simp only [hlast, decide_false] at h
      obtain ⟨rest, rfl, hrest⟩ := ih (by omega) hn.2 h
      exact ⟨rest, rfl, hrest⟩

/-- A line is taken for a seek command if it is the command text and then digits,
a comma, and digits and commas. -/
theorem findCommand_isSome_iff (hn : newline ∉ bs) :
    (findCommand [bs] AESDCHAR_IOCSEEKTO_CMD).isSome ↔ ∃ xs ys, bs = seekCommand xs ys ∧ Digits xs ∧ Fields ys := by
  constructor
  · intro h
    obtain ⟨seekto, h⟩ := Option.isSome_iff_exists.1 h
    simp only [findCommand, List.cons_ne_nil, if_false, Parse.list] at h
    cases hbuf : Parse.start.buffer AESDCHAR_IOCSEEKTO_CMD bs with
    | none =>
      rw [hbuf] at h
      cases h
    | some st =>
      rw [hbuf] at h
      cases hf : st.writeCmdFound with
      | false =>
        simp only [hf, if_true] at h
        cases h
      | true =>
        obtain ⟨rest, rfl, hrest⟩ := Parse.command_of_buffer (i := 0) (by decide) hn hbuf hf
        rw [List.drop_zero, List.mem_append, not_or] at hn
        obtain ⟨xs, ys, rfl, hxs, hys⟩ := Parse.fields_of_buffer rfl rfl hn.2 hrest hf
        exact ⟨xs, ys, rfl, hxs, hys⟩
  · rintro ⟨xs, ys, rfl, hxs, hys⟩
    rw [findCommand_fields hxs hys]
    rfl

/-- A seek command is the command of no other two numbers. -/
theorem seekCommand_inj {xs ys xs' ys' : List UInt8} (hx : Digits xs) (hy : Digits ys)
    (h : seekCommand xs ys = seekCommand xs' ys') : xs = xs' ∧ ys = ys' := by
  have hbody : xs ++ comma :: ys = xs' ++ comma :: ys' := by
    have := List.append_cancel_left h
    simpa [comma] using this
  obtain ⟨hxs, -, hys⟩ := (List.append_cons_inj_of_notMem hx.comma_not_mem hy.comma_not_mem).1 hbody
  exact ⟨hxs, hys⟩

end Accepted

/-! ## Soundness -/

/-- The bytes are a seek command to `seekto`, with its newline and what follows it. -/
def SeekMessage (bytes : List UInt8) (seekto : AesdSeekto) : Prop :=
  ∃ xs ys rest, bytes = seekCommand xs ys ++ newline :: rest ∧ Numeral xs ∧ Numeral ys ∧
    numeralValue xs < 2 ^ 32 ∧ numeralValue ys < 2 ^ 32 ∧ seekto = ⟨numeralValue xs, numeralValue ys⟩

/-- Only seek commands are taken for one, with the numbers they name; any other
message goes on to the loop that writes it to the device. -/
def ParsesSoundly (chunks : List (List UInt8)) : Prop :=
  (∀ seekto, findCommand chunks AESDCHAR_IOCSEEKTO_CMD = some seekto → SeekMessage chunks.flatten seekto) ∧
    ((∀ seekto, ¬ SeekMessage chunks.flatten seekto) → findCommand chunks AESDCHAR_IOCSEEKTO_CMD = none ∧
      ∀ fileFd stage, (Conn.mk chunks fileFd stage).command = Conn.copyLoop fileFd chunks)

/-- The first line of the message, or all of it, is the command text and then
digits, a comma, and digits and commas; but there is no newline, a number has no
digits, there is a second comma, or a number does not fit into 32 bits. -/
def NearMiss (bytes : List UInt8) : Prop :=
  ∃ xs ys, bytes.takeWhile (· ≠ newline) = seekCommand xs ys ∧ Digits xs ∧ Fields ys ∧
    (newline ∉ bytes ∨ xs = [] ∨ ys = [] ∨ comma ∈ ys ∨ 2 ^ 32 ≤ numeralValue xs ∨ 2 ^ 32 ≤ numeralValue ys)

section Sound

variable {bytes : List UInt8}

theorem first_line (bytes : List UInt8) : newline ∉ bytes.takeWhile (· ≠ newline) ∧
    ((newline ∉ bytes ∧ bytes = bytes.takeWhile (· ≠ newline)) ∨
      ∃ rest, bytes = bytes.takeWhile (· ≠ newline) ++ newline :: rest) := by
  have hn : newline ∉ bytes.takeWhile (· ≠ newline) := fun h => by simpa using List.mem_takeWhile_imp h
  refine ⟨hn, ?_⟩
  have hsplit := (List.takeWhile_append_dropWhile (p := (· ≠ newline)) (l := bytes)).symm
  cases hd : bytes.dropWhile (· ≠ newline) with
  | nil =>
    rw [hd, List.append_nil] at hsplit
    exact .inl ⟨by rw [hsplit]; exact hn, hsplit⟩
  | cons b rest =>
    have hb : b = newline := by
      have h := List.head?_dropWhile_not (· ≠ newline) bytes
      rw [hd] at h
      simpa using h
    rw [hd, hb] at hsplit
    exact .inr ⟨rest, hsplit⟩

/-- The parser sees the first line. -/
theorem findCommand_first_line (bytes : List UInt8) (command : List UInt8) :
    findCommand [bytes] command = findCommand [bytes.takeWhile (· ≠ newline)] command := by
  obtain ⟨hn, ⟨-, heq⟩ | ⟨rest, heq⟩⟩ := first_line bytes
  · rw [← heq]
  · conv_lhs => rw [heq]
    exact findCommand_line command hn rest

theorem SeekMessage.first_line {seekto : AesdSeekto} (h : SeekMessage bytes seekto) :
    ∃ xs ys, bytes.takeWhile (· ≠ newline) = seekCommand xs ys ∧ newline ∈ bytes ∧ Numeral xs ∧ Numeral ys ∧
      numeralValue xs < 2 ^ 32 ∧ numeralValue ys < 2 ^ 32 := by
  obtain ⟨xs, ys, rest, rfl, hx, hy, hvx, hvy, -⟩ := h
  have hdx : Digits xs := hx.2
  have hdy : Digits ys := hy.2
  refine ⟨xs, ys, ?_, by simp, hx, hy, hvx, hvy⟩
  rw [List.takeWhile_append_of_pos, List.takeWhile_cons_of_neg (by simp), List.append_nil]
  intro b hb
  have hne : b ≠ newline := fun he => newline_not_mem_seekCommand hdx hdy.fields (he ▸ hb)
  simpa using hne

theorem seekMessage_of_not_nearMiss (hnm : ¬ NearMiss bytes) {seekto : AesdSeekto}
    (h : findCommand [bytes] AESDCHAR_IOCSEEKTO_CMD = some seekto) : SeekMessage bytes seekto := by
  rw [findCommand_first_line] at h
  obtain ⟨hn, hrest⟩ := first_line bytes
  obtain ⟨xs, ys, hline, hxs, hys⟩ := (findCommand_isSome_iff hn).1 (by rw [h]; rfl)
  have hok : ¬ (newline ∉ bytes ∨ xs = [] ∨ ys = [] ∨ comma ∈ ys ∨ 2 ^ 32 ≤ numeralValue xs ∨ 2 ^ 32 ≤ numeralValue ys) :=
    fun hbad => hnm ⟨xs, ys, hline, hxs, hys, hbad⟩
  simp only [not_or, Nat.not_le, Decidable.not_not] at hok
  obtain ⟨hin, hx, hy, hcomma, hvx, hvy⟩ := hok
  have hdy : Digits ys := fun b hb => (hys b hb).resolve_left fun he => hcomma (he ▸ hb)
  rw [hline, findCommand_fields hxs hys, hdy.filter_eq, Numeral.foldl_digit hvx, Numeral.foldl_digit hvy,
    Option.some.injEq] at h
  rcases hrest with ⟨hno, -⟩ | ⟨rest, heq⟩
  · exact absurd hin hno
  · rw [hline] at heq
    exact ⟨xs, ys, rest, heq, ⟨hx, hxs⟩, ⟨hy, hdy⟩, hvx, hvy, h.symm⟩

/-- A near miss is no seek command, but the parser takes it for one. -/
theorem NearMiss.accepted (h : NearMiss bytes) :
    (findCommand [bytes] AESDCHAR_IOCSEEKTO_CMD).isSome ∧ ∀ seekto, ¬ SeekMessage bytes seekto := by
  obtain ⟨xs, ys, hline, hxs, hys, hbad⟩ := h
  constructor
  · rw [findCommand_first_line, hline, findCommand_fields hxs hys]
    rfl
  · intro seekto hseek
    obtain ⟨xs', ys', hline', hin, hx', hy', hvx, hvy⟩ := hseek.first_line
    have hdy' : Digits ys' := hy'.2
    obtain ⟨rfl, rfl⟩ := seekCommand_inj hx'.2 hy'.2 (hline'.symm.trans hline)
    rcases hbad with hno | hx | hy | hc | hx | hy
    · exact hno hin
    · exact hx'.1 hx
    · exact hy'.1 hy
    · exact hdy'.comma_not_mem hc
    · omega
    · omega

end Sound

/-- The parser is sound on a message, whichever way it is cut into chunks, if and
only if the message is no near miss. -/
theorem parses_soundly_iff {chunks : List (List UInt8)} (hc : Collected chunks) :
    ParsesSoundly chunks ↔ ¬ NearMiss chunks.flatten := by
  have hone : findCommand chunks AESDCHAR_IOCSEEKTO_CMD = findCommand [chunks.flatten] AESDCHAR_IOCSEEKTO_CMD := by
    by_cases hne : chunks = []
    · subst hne
      decide +kernel
    · exact findCommand_flatten _ hne hc
  constructor
  · rintro ⟨hsound, -⟩ hnm
    obtain ⟨hsome, hno⟩ := hnm.accepted
    obtain ⟨seekto, h⟩ := Option.isSome_iff_exists.1 hsome
    exact hno seekto (hsound seekto (hone.trans h))
  · intro hnm
    have hsound : ∀ seekto, findCommand chunks AESDCHAR_IOCSEEKTO_CMD = some seekto → SeekMessage chunks.flatten seekto :=
      fun seekto h => seekMessage_of_not_nearMiss hnm (hone.symm.trans h)
    refine ⟨hsound, ?_⟩
    intro hno
    have hnone : findCommand chunks AESDCHAR_IOCSEEKTO_CMD = none :=
      Option.eq_none_iff_forall_ne_some.2 fun seekto h => hno seekto (hsound seekto h)
    refine ⟨hnone, ?_⟩
    intro fileFd stage
    simp only [Conn.command, hnone]

/-- A command with a padded number, cut in two, and with a byte behind its newline. -/
theorem parses_soundly_padded :
    ParsesSoundly [AESDCHAR_IOCSEEKTO_CMD ++ formatted 1 1, [44] ++ formatted 0 2 ++ [newline, 65]] := by
  have hseek : SeekMessage [AESDCHAR_IOCSEEKTO_CMD ++ formatted 1 1, [44] ++ formatted 0 2 ++ [newline, 65]].flatten ⟨1, 2⟩ :=
    ⟨formatted 1 1, formatted 0 2, [65], by decide +kernel, formatted_numeral 1 1, formatted_numeral 0 2,
      by decide +kernel, by decide +kernel, by decide +kernel⟩
  refine (parses_soundly_iff ?_).2 fun hnm => hnm.accepted.2 _ hseek
  unfold Collected
  decide +kernel

/-- A second comma is skipped, and the digits around it make one number. -/
theorem second_comma_accepted :
    findCommand [seekCommand [49] [50, 44, 51] ++ [newline]] AESDCHAR_IOCSEEKTO_CMD = some ⟨1, 23⟩ ∧
      Collected [seekCommand [49] [50, 44, 51] ++ [newline]] ∧
      ¬ ParsesSoundly [seekCommand [49] [50, 44, 51] ++ [newline]] := by
  have hfound : findCommand [seekCommand [49] [50, 44, 51] ++ [newline]] AESDCHAR_IOCSEEKTO_CMD = some ⟨1, 23⟩ := by
    decide +kernel
  refine ⟨hfound, by simp [Collected], ?_⟩
  intro h
  have hnm : NearMiss [seekCommand [49] [50, 44, 51] ++ [newline]].flatten :=
    ⟨[49], [50, 44, 51], by decide +kernel, by unfold Digits; decide +kernel, by unfold Fields; decide +kernel,
      .inr (.inr (.inr (.inl (by decide))))⟩
  exact hnm.accepted.2 _ (h.1 _ hfound)

end Aesd
