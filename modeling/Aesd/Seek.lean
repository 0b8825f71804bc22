import Aesd.Device
/-!
# Seeking to an entry

Which requests `AESDCHAR_IOCSEEKTO` accepts. The walk stops at the entry asked
for, but both of its checks let one value too many through: the entry behind the
newest one, and the offset behind an entry's last byte. So the seek does what
`aesd_ioctl.h` documents except at these fence posts, and past the end of a full
ring it goes to a position that `aesd_llseek` refuses.
-/

namespace Aesd

open SysLib

/-- The sizes of the stored entries. -/
def Sys.sizes (s : Sys) : List Nat := (ringCells s).map List.length

/-- The request names a byte of a stored entry. -/
def Designates (sizes : List Nat) (seekto : AesdSeekto) : Prop :=
  ∃ size, sizes[seekto.writeCmd]? = some size ∧ seekto.writeCmdOffset < size

/-- The size of the slot behind the newest entry: in a full ring it is the oldest
entry, otherwise it is blank. -/
def behind (sizes : List Nat) : Nat := if sizes.length = maxWriteOperationsSupported then sizes.headD 0 else 0

/-- The request names the byte behind an entry, or the entry behind the newest one. -/
def FencePost (sizes : List Nat) (seekto : AesdSeekto) : Prop :=
  sizes[seekto.writeCmd]? = some seekto.writeCmdOffset ∨
    (sizes ≠ [] ∧ seekto.writeCmd = sizes.length ∧ seekto.writeCmdOffset ≤ behind sizes)

/-- The request names the entry behind the newest one of a full ring, and there
not the first byte. -/
def PastEnd (sizes : List Nat) (seekto : AesdSeekto) : Prop :=
  sizes.length = maxWriteOperationsSupported ∧ seekto.writeCmd = sizes.length ∧ 0 < seekto.writeCmdOffset

/-- The position of a byte of an entry. -/
def entryPos (sizes : List Nat) (seekto : AesdSeekto) : Nat :=
  (sizes.take seekto.writeCmd).sum + seekto.writeCmdOffset

section Sizes

variable {sizes : List Nat} {seekto : AesdSeekto}

theorem accepts_iff : ¬ (sizes.length = 0 ∨ sizes.length < seekto.writeCmd ∨
      sizes.getD seekto.writeCmd (behind sizes) < seekto.writeCmdOffset) ↔
    Designates sizes seekto ∨ FencePost sizes seekto := by
  unfold Designates FencePost
  rcases Nat.lt_trichotomy seekto.writeCmd sizes.length with hlt | heq | hgt
  · have hget : sizes[seekto.writeCmd]? = some sizes[seekto.writeCmd] := List.getElem?_eq_getElem hlt
    simp only [List.getD_eq_getElem?_getD, hget, Option.getD_some, Option.some.injEq, exists_eq_left']
    constructor
    · intro h
      omega
    · intro h
      rcases h with h | h | ⟨-, h, -⟩ <;> omega
  · have hget : sizes[seekto.writeCmd]? = none := List.getElem?_eq_none (Nat.le_of_eq heq.symm)
    have hne : sizes ≠ [] ↔ sizes.length ≠ 0 := not_congr List.length_eq_zero_iff.symm
    simp only [List.getD_eq_getElem?_getD, hget, Option.getD_none, hne, reduceCtorEq, false_and, exists_false, false_or]
    omega
  · have hget : sizes[seekto.writeCmd]? = none := List.getElem?_eq_none (Nat.le_of_lt hgt)
    simp only [hget, reduceCtorEq, false_and, exists_false, false_or]
    constructor
    · exact fun h => absurd (.inr (.inl hgt)) h
    · exact fun ⟨_, h, _⟩ => by omega

theorem Designates.not_fencePost (h : Designates sizes seekto) : ¬ FencePost sizes seekto := by
  obtain ⟨size, hget, hlt⟩ := h
  rintro (hf | ⟨-, hf, -⟩)
  · rw [hget, Option.some.injEq] at hf
    omega
  · rw [hf, List.getElem?_eq_none (Nat.le_refl _)] at hget
    cases hget

theorem Designates.entryPos_lt (h : Designates sizes seekto) : entryPos sizes seekto < sizes.sum := by
  obtain ⟨size, hget, hlt⟩ := h
  obtain ⟨hi, hsize⟩ := List.getElem?_eq_some_iff.1 hget
  have hsum := List.sum_take_add_sum_drop sizes seekto.writeCmd
  rw [List.drop_eq_getElem_cons hi, List.sum_cons, hsize] at hsum
  unfold entryPos
  omega

/-- A request that is accepted goes at most one entry's size past the end. -/
theorem entryPos_le {m : Nat} (hm : ∀ n ∈ sizes, n ≤ m) (h : Designates sizes seekto ∨ FencePost sizes seekto) :
    entryPos sizes seekto ≤ sizes.sum + m := by
  rcases h with h | h | ⟨-, heq, hle⟩
  · exact (Nat.le_of_lt h.entryPos_lt).trans (Nat.le_add_right _ _)
  · obtain ⟨hi, hsize⟩ := List.getElem?_eq_some_iff.1 h
    have hsum := List.sum_take_add_sum_drop sizes seekto.writeCmd
    rw [List.drop_eq_getElem_cons hi, List.sum_cons, hsize] at hsum
    unfold entryPos
    omega
  · have hbehind : behind sizes ≤ m := by
      unfold behind
      cases sizes with
      | nil => simp
      | cons n ns =>
        have := hm n List.mem_cons_self
        split
        · exact this
        · omega
    rw [entryPos, heq, List.take_length]
    omega

theorem entryPos_le_iff (h : Designates sizes seekto ∨ FencePost sizes seekto) :
    entryPos sizes seekto ≤ sizes.sum ↔ ¬ PastEnd sizes seekto := by
  unfold PastEnd
  have hinside : ∀ {i : Nat}, sizes[seekto.writeCmd]? = some i → ¬ seekto.writeCmd = sizes.length := by
    intro i hget heq
    rw [heq, List.getElem?_eq_none (Nat.le_refl _)] at hget
    cases hget
  rcases h with h | h | ⟨-, heq, hle⟩
  · obtain ⟨_, hget, -⟩ := id h
    exact iff_of_true (Nat.le_of_lt h.entryPos_lt) fun hp => hinside hget hp.2.1
  · refine iff_of_true ?_ fun hp => hinside h hp.2.1
    obtain ⟨hi, hsize⟩ := List.getElem?_eq_some_iff.1 h
    have hsum := List.sum_take_add_sum_drop sizes seekto.writeCmd
    rw [List.drop_eq_getElem_cons hi, List.sum_cons, hsize] at hsum
    unfold entryPos
    omega
  · rw [entryPos, heq, List.take_length]
    unfold behind at hle
    split at hle <;> omega

end Sizes

theorem seekFpos_def (sizes : List Nat) (seekto : AesdSeekto) :
    CircularBuffer.seekFpos sizes seekto.writeCmd seekto.writeCmdOffset =
      if sizes.length = 0 ∨ sizes.length < seekto.writeCmd ∨
        sizes.getD seekto.writeCmd (behind sizes) < seekto.writeCmdOffset then sizeTMax
      else entryPos sizes seekto % sizeTMod := rfl

/-! ## The call -/

section Call

variable {k : Kernel} {s : Sys} {ring rest : List (Nat × List Cell)} {pend : List Cell} {o : Outcome} {f : File}

theorem Owns.sizes_sum (h : Owns k s ring pend rest) : s.sizes.sum = (contents ring).length := by
  rw [Sys.sizes, h.ringCells, contents, List.length_flatten]

theorem Owns.entryPos_lt (h : Owns k s ring pend rest) {seekto : AesdSeekto}
    (hok : Designates s.sizes seekto ∨ FencePost s.sizes seekto) : entryPos s.sizes seekto < 2 ^ 63 := by
  have hsmall : ∀ n ∈ s.sizes, n ≤ k.kmallocMaxSize := by
    rw [Sys.sizes, h.ringCells]
    exact h.sizes_small
  have hpos := entryPos_le hsmall hok
  have hk := k.kmallocMaxSize_le
  have hle := h.contents_le
  rw [← h.sizes_sum] at hle
  omega

theorem seek_place (h : Owns k s ring pend rest) (seekto : AesdSeekto) :
    ((Designates s.sizes seekto ∨ FencePost s.sizes seekto) → (device s).place seekto = entryPos s.sizes seekto) ∧
      (¬ (Designates s.sizes seekto ∨ FencePost s.sizes seekto) → (device s).place seekto = -1) := by
  have hsizes : (device s).log.entries.map List.length = s.sizes := rfl
  rw [Device.place, hsizes]
  constructor
  · intro hok
    have hpos := h.entryPos_lt hok
    rw [seekFpos_def, if_neg (accepts_iff.2 hok), Nat.mod_eq_of_lt (show entryPos s.sizes seekto < sizeTMod by
      simp only [sizeTMod]; omega)]
    exact toLoffT_of_lt (by omega) (show ((entryPos s.sizes seekto : Nat) : Int) < 2 ^ 63 by omega)
  · intro hbad
    rw [seekFpos_def, if_pos (Decidable.not_not.1 (mt accepts_iff.1 hbad))]
    decide

theorem seek_returns (h : Holds k s ring pend rest) (hl : s.dev.lock = false) (hi : o.interrupted = false)
    (hu : o.uncopied = 0) (hf : f.privateData = true) (seekto : AesdSeekto) :
    ∃ r, Call.exec k o (some f) (.ioctl AESDCHAR_IOCSEEKTO seekto) s = .ok r ∧ r.sys = s ∧
      ((Designates s.sizes seekto ∨ FencePost s.sizes seekto) → r.ret = some 0 ∧ r.fPos = entryPos s.sizes seekto) ∧
      (¬ (Designates s.sizes seekto ∨ FencePost s.sizes seekto) → r.ret = some (-EINVAL) ∧ r.fPos = f.fPos) := by
  obtain ⟨r, he⟩ := exec_total h ⟨some f, .ioctl AESDCHAR_IOCSEEKTO seekto, o⟩
  have hsys := ioctl_quiet h hl he
  have hdev := exec_device h he
  have ha : Invocation.accept k ⟨some f, .ioctl AESDCHAR_IOCSEEKTO seekto, o⟩ = .ok f := by
    simp [Invocation.accept, hf, hu]
  rw [Device.exec_locked ha hi hl] at hdev
  simp only [Device.locked, Left.finish, Return.reply, Prod.mk.injEq, Reply.mk.injEq] at hdev
  obtain ⟨⟨hret, -, hpos⟩, -⟩ := hdev
  obtain ⟨hgo, hstay⟩ := seek_place h.toOwns seekto
  refine ⟨r, he, hsys, ?_, ?_⟩
  · intro hok
    rw [← hret, ← hpos, hgo hok, ioctlFinish, if_neg (by omega)]
    exact ⟨rfl, rfl⟩
  · intro hbad
    rw [← hret, ← hpos, hstay hbad, ioctlFinish, if_pos rfl]
    exact ⟨rfl, rfl⟩

theorem seek_success {i : Invocation} {seekto : AesdSeekto} {r : Return} (h : Holds k s ring pend rest)
    (hc : i.call = .ioctl AESDCHAR_IOCSEEKTO seekto) (he : i.exec k s = .ok r) (hret : r.ret = some 0) :
    r.sys = s ∧ s.dev.lock = false ∧ (Designates s.sizes seekto ∨ FencePost s.sizes seekto) ∧
      r.fPos = entryPos s.sizes seekto := by
  have hdev := exec_device h he
  have hreply : (Device.exec k i (device s)).1.ret = some 0 := by rw [hdev]; exact hret
  cases ha : i.accept k with
  | error e =>
    rw [Device.exec_refused ha] at hreply
    have hpos := Invocation.accept_error ha
    have : -e = 0 := Option.some.inj hreply
    omega
  | ok f =>
  cases hi : i.interrupted with
  | true => rw [Device.exec_interrupted ha hi] at hreply; cases hreply
  | false =>
  cases hl : s.dev.lock with
  | true => rw [Device.exec_blocked ha hi hl] at hreply; cases hreply
  | false =>
    obtain ⟨filp, c, o⟩ := i
    obtain rfl : filp = some f := Invocation.accept_file ha
    obtain rfl : c = .ioctl AESDCHAR_IOCSEEKTO seekto := hc
    have hchecks : f.privateData = true ∧ o.uncopied = 0 := by
      simp only [Invocation.accept, ne_eq, not_true_eq_false, if_false] at ha
      split at ha
      · cases ha
      · rename_i hpd
        split at ha
        · cases ha
        · exact ⟨by simpa using hpd, by omega⟩
    obtain ⟨r', he', hsys, hok, hbad⟩ := seek_returns h hl hi hchecks.2 hchecks.1 seekto
    obtain rfl : r' = r := Except.ok.inj (he'.symm.trans he)
    by_cases hacc : Designates s.sizes seekto ∨ FencePost s.sizes seekto
    · exact ⟨hsys, rfl, hacc, (hok hacc).2⟩
    · rw [(hbad hacc).1] at hret
      cases hret

/-- A position that is not negative, on `aesd_llseek` with `SEEK_SET`. -/
theorem llseek_set (h : Holds k s ring pend rest) (hl : s.dev.lock = false) (hi : o.interrupted = false)
    (hf : f.privateData = true) (hpos : 0 ≤ f.fPos) :
    (aesdLlseek o (some f) f.fPos SEEK_SET s).ret = some f.fPos ↔ toSizeT f.fPos ≤ s.sizes.sum := by
  have hm : mutexLockInterruptible o s = .acquired := (lock_acquired_iff o s).2 ⟨hi, hl⟩
  have hlen : llseekSection (s.setLock true) = s.sizes.sum := h.getLength.trans h.sizes_sum.symm
  have hpd : ¬ f.privateData = false := by simp [hf]
  simp only [aesdLlseek, if_neg hpd, hm, hlen, llseekFinish, if_true]
  constructor
  · intro heq
    by_contra hgt
    rw [if_pos (.inr (Nat.not_le.1 hgt))] at heq
    have : (-EINVAL : Int) = f.fPos := Option.some.inj heq
    simp only [EINVAL] at this
    omega
  · intro hle
    rw [if_neg (by rintro (h | h) <;> omega)]

end Call

/-! ## The two promises -/

/-- The seek as `aesd_ioctl.h` has it: a byte of a stored entry is accepted and
sought to, and any other request is refused and changes nothing. -/
def SeekExact (s : Sys) (f : File) (seekto : AesdSeekto) (r : Return) : Prop :=
  (r.ret = some 0 ↔ Designates s.sizes seekto) ∧
    (Designates s.sizes seekto → r.fPos = entryPos s.sizes seekto) ∧
    (¬ Designates s.sizes seekto → r.ret = some (-EINVAL) ∧ r.fPos = f.fPos) ∧
    ringCells r.sys = ringCells s

/-- In every reachable state, a seek whose user copy and lock succeed does what
it should if and only if the request is not a fence post. -/
theorem seek_exact_iff (k : Kernel) (is : List Invocation) :
    ∃ evs s, runCalls k is aesdInitModule = .ok (evs, s) ∧
      ∀ (o : Outcome) (f : File) (seekto : AesdSeekto), s.dev.lock = false → o.interrupted = false →
        o.uncopied = 0 → f.privateData = true →
        ∃ r, Call.exec k o (some f) (.ioctl AESDCHAR_IOCSEEKTO seekto) s = .ok r ∧
          (SeekExact s f seekto r ↔ ¬ FencePost s.sizes seekto) := by
  obtain ⟨evs, s, hr, ⟨_, _, _, h⟩, -⟩ := runCalls_induct k (fun _ _ => True) trivial
    (fun _ _ _ _ _ _ _ _ _ _ => trivial) is
  refine ⟨evs, s, hr, fun o f seekto hl hi hu hf => ?_⟩
  obtain ⟨r, he, hsys, hok, hbad⟩ := seek_returns h hl hi hu hf seekto
  refine ⟨r, he, ?_, ?_⟩
  · rintro ⟨hacc, -⟩ hpost
    exact (hacc.1 (hok (.inr hpost)).1).not_fencePost hpost
  · intro hpost
    have hiff : Designates s.sizes seekto ∨ FencePost s.sizes seekto ↔ Designates s.sizes seekto :=
      or_iff_left hpost
    rw [hiff] at hok hbad
    refine ⟨⟨?_, fun hd => (hok hd).1⟩, fun hd => (hok hd).2, hbad, by rw [hsys]⟩
    intro hret
    by_contra hd
    rw [(hbad hd).1] at hret
    cases hret

theorem seek_exact_second :
    ∃ evs s r, runCalls .pages4K [⟨some ⟨true, 0⟩, .write (some [97, newline]), ⟨false, some 0, some 0, 0⟩⟩]
        aesdInitModule = .ok (evs, s) ∧
      Call.exec .pages4K ⟨false, none, none, 0⟩ (some ⟨true, 0⟩) (.ioctl AESDCHAR_IOCSEEKTO ⟨0, 1⟩) s = .ok r ∧
      SeekExact s ⟨true, 0⟩ ⟨0, 1⟩ r := by
  obtain ⟨evs, s, hr, h⟩ := seek_exact_iff .pages4K
    [⟨some ⟨true, 0⟩, .write (some [97, newline]), ⟨false, some 0, some 0, 0⟩⟩]
  obtain ⟨rfl, rfl⟩ := Prod.mk.inj (Except.ok.inj (hr.symm.trans rfl))
  obtain ⟨r, he, hiff⟩ := h ⟨false, none, none, 0⟩ ⟨true, 0⟩ ⟨0, 1⟩ rfl rfl rfl rfl
  refine ⟨_, _, r, hr, he, hiff.2 ?_⟩
  rintro (hpost | ⟨-, hpost, -⟩) <;> cases hpost

/-- The only entry of the device has number 0, but the seek accepts number 1. -/
theorem seek_accepts_absent_entry :
    ∃ evs s r, runCalls .pages4K [⟨some ⟨true, 0⟩, .write (some [97, newline]), ⟨false, some 0, some 0, 0⟩⟩]
        aesdInitModule = .ok (evs, s) ∧ s.dev.lock = false ∧ s.sizes = [2] ∧
      Call.exec .pages4K ⟨false, none, none, 0⟩ (some ⟨true, 0⟩) (.ioctl AESDCHAR_IOCSEEKTO ⟨1, 0⟩) s = .ok r ∧
      r.ret = some 0 ∧ r.fPos = 2 ∧ ¬ SeekExact s ⟨true, 0⟩ ⟨1, 0⟩ r := by
  obtain ⟨evs, s, hr, hok, hdev⟩ := runCalls_device .pages4K
    [⟨some ⟨true, 0⟩, .write (some [97, newline]), ⟨false, some 0, some 0, 0⟩⟩]
  have hd : device s = ⟨⟨[[some 97, some newline]], []⟩, false, false⟩ := by rw [hdev]; decide +kernel
  obtain ⟨s', he, -, -⟩ := hok.exec
    ⟨some ⟨true, 0⟩, .ioctl AESDCHAR_IOCSEEKTO ⟨1, 0⟩, ⟨false, none, none, 0⟩⟩
    ⟨some 0, [], 2⟩ ⟨⟨[[some 97, some newline]], []⟩, false, false⟩ (by rw [hd]; decide +kernel)
  have hsizes : s.sizes = [2] := congrArg (fun d => d.log.entries.map List.length) hd
  refine ⟨evs, s, _, hr, congrArg Device.lock hd, hsizes, he, rfl, rfl, ?_⟩
  rintro ⟨hacc, -⟩
  obtain ⟨_, hget, -⟩ := hacc.1 rfl
  rw [hsizes] at hget
  cases hget

/-- In every reachable state, a seek that succeeds stays within the contents,
and so goes to a position that `aesd_llseek` accepts, if and only if it did not
ask for a byte behind the newest entry of a full ring. -/
theorem seek_within_iff (k : Kernel) (is : List Invocation) :
    ∃ evs s, runCalls k is aesdInitModule = .ok (evs, s) ∧
      ∀ (i : Invocation) (seekto : AesdSeekto) (r : Return), i.call = .ioctl AESDCHAR_IOCSEEKTO seekto →
        i.exec k s = .ok r → r.ret = some 0 →
        ((0 ≤ r.fPos ∧ r.fPos ≤ r.sys.dev.buffer.getLength) ↔ ¬ PastEnd s.sizes seekto) ∧
        ((0 ≤ r.fPos ∧ r.fPos ≤ r.sys.dev.buffer.getLength) ↔
          ∀ o : Outcome, o.interrupted = false →
            (aesdLlseek o (some ⟨true, r.fPos⟩) r.fPos SEEK_SET r.sys).ret = some r.fPos) := by
  obtain ⟨evs, s, hr, ⟨_, _, _, h⟩, -⟩ := runCalls_induct k (fun _ _ => True) trivial
    (fun _ _ _ _ _ _ _ _ _ _ => trivial) is
  refine ⟨evs, s, hr, fun i seekto r hc he hret => ?_⟩
  obtain ⟨hsys, hl, hacc, hpos⟩ := seek_success h hc he hret
  have hlen : s.dev.buffer.getLength = s.sizes.sum := by rw [h.getLength, h.sizes_sum]
  rw [hsys, hlen, hpos]
  have hle : ((0 : Int) ≤ (entryPos s.sizes seekto : Nat) ∧ ((entryPos s.sizes seekto : Nat) : Int) ≤ (s.sizes.sum : Nat)) ↔
      entryPos s.sizes seekto ≤ s.sizes.sum := by omega
  rw [hle]
  refine ⟨entryPos_le_iff hacc, ?_⟩
  have hmod : toSizeT (entryPos s.sizes seekto : Nat) = entryPos s.sizes seekto := by
    have := h.entryPos_lt hacc
    unfold toSizeT
    omega
  have hseek := fun (o : Outcome) (hi : o.interrupted = false) =>
    llseek_set (f := ⟨true, (entryPos s.sizes seekto : Nat)⟩) h hl hi rfl (Int.natCast_nonneg _)
  rw [hmod] at hseek
  constructor
  · exact fun hle o hi => (hseek o hi).2 hle
  · exact fun hall => (hseek ⟨false, none, none, 0⟩ rfl).1 (hall _ rfl)

theorem seek_within_tenth :
    ∃ evs s r, runCalls .pages4K tenLines aesdInitModule = .ok (evs, s) ∧
      Call.exec .pages4K ⟨false, none, none, 0⟩ (some ⟨true, 0⟩) (.ioctl AESDCHAR_IOCSEEKTO ⟨9, 2⟩) s = .ok r ∧
      0 ≤ r.fPos ∧ r.fPos ≤ r.sys.dev.buffer.getLength := by
  obtain ⟨evs, s, hr, h⟩ := seek_within_iff .pages4K tenLines
  obtain ⟨evs', s', hr', hok, hd⟩ := runCalls_tenLines
  obtain ⟨rfl, rfl⟩ := Prod.mk.inj (Except.ok.inj (hr'.symm.trans hr))
  obtain ⟨s'', he, -, -⟩ := hok.exec
    ⟨some ⟨true, 0⟩, .ioctl AESDCHAR_IOCSEEKTO ⟨9, 2⟩, ⟨false, none, none, 0⟩⟩
    ⟨some 0, [], 20⟩ tenLinesDevice (by rw [hd]; decide +kernel)
  have hsizes : s'.sizes = List.replicate 10 2 := congrArg (fun d => d.log.entries.map List.length) hd
  refine ⟨_, _, _, hr, he, (h _ ⟨9, 2⟩ _ rfl he rfl).1.2 ?_⟩
  rintro ⟨-, hpast, -⟩
  rw [hsizes] at hpast
  cases hpast

/-- Ten lines of two bytes each: the seek to byte 1 of an eleventh succeeds and
goes to position 21, one past the end, which `aesd_llseek` refuses. -/
theorem seek_past_end :
    ∃ evs s r, runCalls .pages4K tenLines aesdInitModule = .ok (evs, s) ∧
      Call.exec .pages4K ⟨false, none, none, 0⟩ (some ⟨true, 0⟩) (.ioctl AESDCHAR_IOCSEEKTO ⟨10, 1⟩) s = .ok r ∧
      r.ret = some 0 ∧ r.fPos = 21 ∧ r.sys.dev.buffer.getLength = 20 ∧
      (aesdLlseek ⟨false, none, none, 0⟩ (some ⟨true, 21⟩) 21 SEEK_SET r.sys).ret = some (-EINVAL) := by
  obtain ⟨evs, s, hr, hok, hd⟩ := runCalls_tenLines
  obtain ⟨s1, he1, hok1, hd1⟩ := hok.exec
    ⟨some ⟨true, 0⟩, .ioctl AESDCHAR_IOCSEEKTO ⟨10, 1⟩, ⟨false, none, none, 0⟩⟩
    ⟨some 0, [], 21⟩ tenLinesDevice (by rw [hd]; decide +kernel)
  obtain ⟨s2, he2, -, -⟩ := hok1.exec
    ⟨some ⟨true, 21⟩, .llseek 21 SEEK_SET, ⟨false, none, none, 0⟩⟩
    ⟨some (-EINVAL), [], 21⟩ tenLinesDevice (by rw [hd1]; decide +kernel)
  obtain ⟨_, _, _, h1⟩ := hok1
  have hlen : s1.dev.buffer.getLength = 20 := by
    have : llseekSection s1 = _ := h1.llseekSection_device
    rw [hd1] at this
    exact this
  exact ⟨evs, s, _, hr, he1, rfl, rfl, hlen, congrArg Return.ret (Except.ok.inj he2)⟩

end Aesd
