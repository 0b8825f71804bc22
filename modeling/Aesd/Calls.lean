import Aesd.Device
/-!
# Calls on a free device

What a call does, and answers, when nobody holds the lock: a write that is
complete or fails, a seek, a read.
-/

namespace Aesd

open SysLib

/-- No signal comes, and user copies are complete. -/
def Outcome.Good (o : Outcome) : Prop := o.interrupted = false ∧ o.uncopied = 0

section Calls

variable {k : Kernel} {s : Sys} {ring rest : List (Nat × List Cell)} {pend : List Cell} {o : Outcome} {f : File}
  {r : Return}

/-- A write that returns. It is complete, and its bytes join the pending ones or
become an entry with them; or it fails, and the entries stay, and the pending
bytes too unless `krealloc` is what fails. -/
theorem write_returned (h : Holds k s ring pend rest) {src : List UInt8} {ret : Int}
    (he : Call.exec k o (some f) (.write (some src)) s = .ok r) (hr : r.ret = some ret) :
    r.fPos = f.fPos ∧
      ((ret = src.length ∧ r.sys.dev.lock = false ∧ ∃ rest',
        ((newline ∉ src ∧ r.sys.committed = s.committed ∧ r.sys.dev.newEntry.buffptr ≠ .null ∧
          Holds k r.sys ring (pend ++ src.map some) rest') ∨
        (newline ∈ src ∧ r.sys.committed = s.committed ++ [pend ++ src.map some] ∧
          ∃ i, Holds k r.sys (pushRing ring (i, pend ++ src.map some)) [] rest'))) ∨
      (ret < 0 ∧ r.sys.dev.lock = s.dev.lock ∧ r.sys.committed = s.committed ∧ ∃ pend' rest',
        Holds k r.sys ring pend' rest' ∧ (pend' = pend ∨ (k.Refuses o.krealloc (pend.length + src.length) ∧
          pend' = List.replicate pend.length none)))) := by
  rcases exec_cases (i := ⟨some f, .write (some src), o⟩) h he with ⟨buf, hw, -, hp, heff⟩ | ⟨hw, -⟩
  case inr => exact absurd rfl (hw (some src))
  obtain rfl : some src = buf := Call.write.inj hw
  obtain ⟨ret', data, fPos, s'⟩ := r
  simp only at hr hp heff
  subst hr
  refine ⟨hp, ?_⟩
  cases heff with
  | refused => exact .inr ⟨by decide, rfl, rfl, _, _, h, .inl rfl⟩
  | noMemory => exact .inr ⟨by decide, rfl, rfl, _, _, h, .inl rfl⟩
  | dropped _ _ _ hstop _ hd hc hh =>
    refine .inr ⟨?_, by rw [hd], hc, _, _, hh, .inl rfl⟩
    rcases hstop with ⟨-, hs⟩ | ⟨-, -, hs⟩ | ⟨-, -, -, hs⟩
    · obtain rfl := Option.some.inj hs; decide
    · obtain rfl := Option.some.inj hs; decide
    · cases hs
  | lost hreach hr hd hc hh =>
    obtain rfl := Option.some.inj hreach.buf_eq
    exact .inr ⟨by decide, by rw [hd], hc, _, _, hh, .inr ⟨hr, rfl⟩⟩
  | kept hreach _ hnl _ hl hc hne hh =>
    obtain rfl := Option.some.inj hreach.buf_eq
    exact .inl ⟨rfl, hl, _, .inl ⟨hnl, hc, hne, hh⟩⟩
  | committed hreach _ hnl _ hl hc _ hh =>
    obtain rfl := Option.some.inj hreach.buf_eq
    exact .inl ⟨rfl, hl, _, .inr ⟨hnl, hc, _, hh⟩⟩

theorem write_done (h : Holds k s ring pend rest) {src : List UInt8}
    (he : Call.exec k o (some f) (.write (some src)) s = .ok r) (hr : r.ret = some (src.length : Int)) :
    r.fPos = f.fPos ∧ r.sys.dev.lock = false ∧ ∃ rest',
      ((newline ∉ src ∧ r.sys.committed = s.committed ∧ r.sys.dev.newEntry.buffptr ≠ .null ∧
        Holds k r.sys ring (pend ++ src.map some) rest') ∨
      (newline ∈ src ∧ r.sys.committed = s.committed ++ [pend ++ src.map some] ∧
        ∃ i, Holds k r.sys (pushRing ring (i, pend ++ src.map some)) [] rest')) := by
  obtain ⟨hp, hw⟩ := write_returned h he hr
  rcases hw with ⟨-, hw⟩ | ⟨hneg, -⟩
  · exact ⟨hp, hw⟩
  · omega

theorem write_failed (h : Holds k s ring pend rest) {src : List UInt8} {ret : Int}
    (he : Call.exec k o (some f) (.write (some src)) s = .ok r) (hr : r.ret = some ret) (hne : ret ≠ src.length) :
    r.fPos = f.fPos ∧ r.sys.dev.lock = s.dev.lock ∧ r.sys.committed = s.committed ∧ ∃ pend' rest',
      Holds k r.sys ring pend' rest' ∧ (pend' = pend ∨ (k.Refuses o.krealloc (pend.length + src.length) ∧
        pend' = List.replicate pend.length none)) := by
  obtain ⟨hp, hw⟩ := write_returned h he hr
  rcases hw with ⟨heq, -⟩ | ⟨-, hw⟩
  · exact absurd heq hne
  · exact ⟨hp, hw⟩

/-- A seek leaves the position alone, or goes where the device says. -/
theorem ioctl_returned (h : Holds k s ring pend rest) (hl : s.dev.lock = false) {cmd : Nat} {seekto : AesdSeekto}
    (he : Call.exec k o (some f) (.ioctl cmd seekto) s = .ok r) :
    r.fPos = f.fPos ∨ r.fPos = (ioctlFinish ((device s).place seekto) f).2 := by
  have hdev := exec_device (i := ⟨some f, .ioctl cmd seekto, o⟩) h he
  cases ha : Invocation.accept k ⟨some f, .ioctl cmd seekto, o⟩ with
  | error e =>
    rw [Device.exec_refused ha] at hdev
    simp only [Return.reply, Prod.mk.injEq, Reply.mk.injEq] at hdev
    exact .inl hdev.1.2.2.symm
  | ok f' =>
    obtain rfl : f = f' := Option.some.inj (Invocation.accept_file ha)
    cases hi : Invocation.interrupted ⟨some f, .ioctl cmd seekto, o⟩ with
    | true =>
      rw [Device.exec_interrupted ha hi] at hdev
      simp only [Return.reply, Prod.mk.injEq, Reply.mk.injEq] at hdev
      exact .inl hdev.1.2.2.symm
    | false =>
      rw [Device.exec_locked ha hi hl] at hdev
      simp only [Device.locked, Left.finish, Return.reply, Prod.mk.injEq, Reply.mk.injEq] at hdev
      exact .inr hdev.1.2.2.symm

theorem ioctl_done (h : Holds k s ring pend rest) (hl : s.dev.lock = false) {cmd : Nat} {seekto : AesdSeekto}
    (hpos : ∃ pos : Nat, f.fPos = pos ∧ pos < 2 ^ 63) (he : Call.exec k o (some f) (.ioctl cmd seekto) s = .ok r) :
    r.sys = s ∧ ∃ pos : Nat, r.fPos = pos ∧ pos < 2 ^ 63 := by
  refine ⟨ioctl_quiet h hl he, ?_⟩
  rcases ioctl_returned h hl he with hstay | hgo
  · rw [hstay]
    exact hpos
  · rw [hgo]
    rcases h.place_cases seekto with hfail | ⟨pos, hplace, hlt⟩
    · rw [hfail, ioctlFinish, if_pos rfl]
      exact hpos
    · rw [hplace, ioctlFinish, if_neg (by omega)]
      exact ⟨pos, rfl, hlt⟩

/-- A seek without a signal or a failing copy goes where the device says. -/
theorem ioctl_place (h : Holds k s ring pend rest) (hl : s.dev.lock = false) (ho : o.Good) {seekto : AesdSeekto}
    (hpd : f.privateData = true)
    (he : Call.exec k o (some f) (.ioctl AESDCHAR_IOCSEEKTO seekto) s = .ok r) :
    r.fPos = (ioctlFinish ((device s).place seekto) f).2 := by
  have hdev := exec_device (i := ⟨some f, .ioctl AESDCHAR_IOCSEEKTO seekto, o⟩) h he
  have ha : Invocation.accept k ⟨some f, .ioctl AESDCHAR_IOCSEEKTO seekto, o⟩ = .ok f := by
    simp [Invocation.accept, hpd, ho.2]
  rw [Device.exec_locked ha ho.1 hl] at hdev
  simp only [Device.locked, Left.finish, Return.reply, Prod.mk.injEq, Reply.mk.injEq] at hdev
  exact hdev.1.2.2.symm

theorem read_interrupted (hf : f.privateData = true) (hi : o.interrupted = true) (count : Nat) :
    Call.exec k o (some f) (.read true count) s = .ok ⟨some (-ERESTARTSYS), [], f.fPos, s⟩ := by
  have hm : mutexLockInterruptible o s = .interrupted := (lock_interrupted_iff o s).2 hi
  simp only [Call.exec, aesdRead, hf, Bool.true_eq_false, if_false, hm]
  rfl

theorem read_blocked (hf : f.privateData = true) (hi : o.interrupted = false) (hl : s.dev.lock = true) (count : Nat) :
    Call.exec k o (some f) (.read true count) s = .ok ⟨none, [], f.fPos, s⟩ := by
  have hm : mutexLockInterruptible o s = .blocked := (lock_blocked_iff o s).2 ⟨hi, hl⟩
  simp only [Call.exec, aesdRead, hf, Bool.true_eq_false, if_false, hm]
  rfl

theorem read_locked (h : Holds k s ring pend rest) (hf : f.privateData = true) (hi : o.interrupted = false)
    (hl : s.dev.lock = false) (count : Nat) :
    ∃ t, Call.exec k o (some f) (.read true count) s =
      .ok ⟨some ((device s).read o count f.fPos).retval, ((device s).read o count f.fPos).data,
        ((device s).read o count f.fPos).fPos, t⟩ := by
  have hm : mutexLockInterruptible o s = .acquired := (lock_acquired_iff o s).2 ⟨hi, hl⟩
  have hsec : readSection o count f.fPos (s.setLock true) = .ok ((device s).read o count f.fPos) :=
    (h.setLock true).readSection_device o count f.fPos
  refine ⟨if ((device s).read o count f.fPos).unlocks then (s.setLock true).setLock false else s.setLock true, ?_⟩
  simp only [Call.exec, aesdRead, hf, Bool.true_eq_false, if_false, hm, filePos, Option.map_some, Option.getD_some,
    hsec, ok_bind]

/-- A read: it delivers from the rest of the entry at its position. -/
theorem read_done (h : Holds k s ring pend rest) (hl : s.dev.lock = false) (ho : o.Good)
    (hf : f.privateData = true) {pos count : Nat} (hpos : f.fPos = pos) (hlt : pos < 2 ^ 63)
    (he : Call.exec k o (some f) (.read true count) s = .ok r) :
    r.sys = s ∧ r.data = (restAt (ring.map Prod.snd) pos).take count ∧ r.fPos = (pos + r.data.length : Nat) ∧
      r.ret = some (r.data.length : Int) := by
  refine ⟨read_quiet h hl (.inl ho.2) he, ?_⟩
  obtain ⟨t, he'⟩ := read_locked h hf ho.1 hl count
  obtain rfl := Except.ok.inj (he'.symm.trans he)
  have hsz : toSizeT f.fPos = pos := by rw [hpos, toSizeT]; omega
  have hcont := h.contents_lt
  rw [h.device]
  simp only [Device.read, hsz, ho.2, Nat.zero_min, if_true]
  by_cases hnil : restAt (ring.map Prod.snd) pos = []
  · simp [hnil, hpos]
  · simp only [if_neg hnil]
    have hlen : ((restAt (ring.map Prod.snd) pos).take (min count (restAt (ring.map Prod.snd) pos).length)).length =
        min count (restAt (ring.map Prod.snd) pos).length := by
      rw [List.length_take]; omega
    have hle : pos + (restAt (ring.map Prod.snd) pos).length ≤ (contents ring).length := by
      have hdrop := congrArg List.length (drop_flatten (ring.map Prod.snd) pos)
      rw [restAt_eq_nil_iff] at hnil
      rw [List.length_append, List.length_drop] at hdrop
      simp only [contents]
      omega
    rw [hlen]
    refine ⟨?_, ?_, rfl⟩
    · rw [List.take_eq_take_iff]; omega
    · rw [hpos, toLoffT_of_lt (by omega) (by omega)]
      omega

/-- What the device holds. -/
def Sys.contents (s : Sys) : List Cell := (ringCells s).flatten

theorem Holds.contents_eq {s : Sys} (h : Holds k s ring pend rest) : s.contents = contents ring := by
  rw [Sys.contents, h.ringCells, contents]

end Calls

end Aesd
