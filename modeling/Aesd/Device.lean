import Aesd.Runs
import Aesd.SysLib.LineLog
/-!
# The device as a log of lines

What the driver is to the processes that call it: a log that collects bytes
until a newline and keeps the last ten lines, with a lock. `Device.exec` says
what a call does to such a log and what it answers, without blocks or slots;
`exec_device` proves that every call of the driver does this. The one trace of
the blocks is that a write which loses the pending bytes keeps their number.
-/

namespace Aesd

open SysLib

/-- The device as its users see it. -/
structure Device where
  log : LineLog Cell
  /-- The pending bytes are gone; their number is kept. -/
  lost : Bool
  lock : Bool
  deriving DecidableEq

/-- What a call gives its caller. -/
structure Reply where
  ret : Option Int
  data : List Cell
  fPos : Int
  deriving DecidableEq

def Return.reply (r : Return) : Reply := ⟨r.ret, r.data, r.fPos⟩

def isNewline (c : Cell) : Bool := c == some newline

namespace Device

/-! ## What happens under the lock -/

/-- A read delivers from the rest of the line that holds its position. -/
def read (d : Device) (o : Outcome) (count : Nat) (fPos : Int) : ReadOut :=
  let rest := restAt d.log.entries (toSizeT fPos)
  let n := min count rest.length
  if rest = [] then ⟨0, [], fPos, true⟩
  else if min o.uncopied n = 0 then ⟨n, rest.take n, toLoffT (fPos + n), true⟩
  else ⟨0, rest.take (n - min o.uncopied n), fPos, false⟩

/-- A write appends to the log, or loses the pending bytes. -/
def write (k : Kernel) (d : Device) (o : Outcome) (src : List UInt8) : Int × Device :=
  if k.Refuses o.krealloc (d.log.pending.length + src.length) then
    (-ENOMEM, ⟨⟨d.log.entries, List.replicate d.log.pending.length none⟩, d.log.pending.length ≠ 0, d.lock⟩)
  else
    (src.length, ⟨d.log.append maxWriteOperationsSupported isNewline (src.map some), false, d.lock⟩)

/-- The number of bytes stored. -/
def size (d : Device) : Nat := d.log.contents.length

/-- The position of a byte of an entry. -/
def place (d : Device) (seekto : AesdSeekto) : Int :=
  toLoffT (CircularBuffer.seekFpos (d.log.entries.map List.length) seekto.writeCmd seekto.writeCmdOffset)

end Device

/-- What a call takes out of its locked part. -/
inductive Left where
  | returns (ret : Int) (data : List Cell) (fPos : Int) (unlocks : Bool)
  | seeks (totalSize : Nat) (offset whence : Int)
  | places (newFPos : Int)
  deriving DecidableEq

/-- The lock is dropped on the way out. -/
def Left.unlocks : Left → Bool
  | .returns _ _ _ unlocks => unlocks
  | _ => true

/-- The rest of a call, after its locked part. -/
def Left.finish (f : File) : Left → Reply
  | .returns ret data fPos _ => ⟨some ret, data, fPos⟩
  | .seeks totalSize offset whence =>
    ⟨some (llseekFinish totalSize f offset whence).1, [], (llseekFinish totalSize f offset whence).2⟩
  | .places newFPos => ⟨some (ioctlFinish newFPos f).1, [], (ioctlFinish newFPos f).2⟩

/-- The locked part of a call. -/
def Device.locked (k : Kernel) (d : Device) (o : Outcome) (f : File) : Call → Left × Device
  | .read _ count =>
    (.returns (d.read o count f.fPos).retval (d.read o count f.fPos).data (d.read o count f.fPos).fPos
      (d.read o count f.fPos).unlocks, d)
  | .write buf => (.returns (d.write k o (buf.getD [])).1 [] f.fPos true, (d.write k o (buf.getD [])).2)
  | .llseek offset whence => (.seeks d.size offset whence, d)
  | .ioctl _ seekto => (.places (d.place seekto), d)

/-! ## A whole call -/

/-- What a call checks before it takes the lock: its file, or the error. -/
def Invocation.accept (k : Kernel) (i : Invocation) : Except Int File :=
  match i.call, i.filp with
  | .read buf _, some f => if buf = true ∧ f.privateData = true then .ok f else .error EINVAL
  | .write (some src), some f =>
    if k.Refuses i.outcome.kmalloc src.length then .error ENOMEM
    else if min i.outcome.uncopied src.length ≠ 0 then .error EFAULT
    else if f.privateData = true then .ok f else .error EINVAL
  | .llseek _ _, some f => if f.privateData = true then .ok f else .error EINVAL
  | .ioctl cmd _, some f =>
    if cmd ≠ AESDCHAR_IOCSEEKTO then .error ENOTTY
    else if f.privateData = false then .error EINVAL
    else if min i.outcome.uncopied 8 ≠ 0 then .error EFAULT
    else .ok f
  | .ioctl cmd _, none => if cmd ≠ AESDCHAR_IOCSEEKTO then .error ENOTTY else .error EINVAL
  | _, _ => .error EINVAL

/-- Only a write waits for the lock without heeding signals. -/
def Invocation.interrupted (i : Invocation) : Bool :=
  match i.call with
  | .write _ => false
  | _ => i.outcome.interrupted

/-- A call on a device, and its answer. -/
def Device.exec (k : Kernel) (i : Invocation) (d : Device) : Reply × Device :=
  match i.accept k with
  | .error e => (⟨some (-e), [], filePos i.filp⟩, d)
  | .ok f =>
    if i.interrupted = true then (⟨some (-ERESTARTSYS), [], f.fPos⟩, d)
    else if d.lock = true then (⟨none, [], f.fPos⟩, d)
    else
      let (left, d') := d.locked k i.outcome f i.call
      (left.finish f, { d' with lock := !left.unlocks })

section Exec

variable {k : Kernel} {i : Invocation} {d : Device} {e : Int} {f : File}

/-- A call is admitted with the file it is made on. -/
theorem Invocation.accept_file (ha : i.accept k = .ok f) : i.filp = some f := by
  unfold Invocation.accept at ha
  split at ha <;> (repeat' split at ha) <;> cases ha <;> assumption

/-- The checks fail with an error. -/
theorem Invocation.accept_error (ha : i.accept k = .error e) : 0 < e := by
  unfold Invocation.accept at ha
  split at ha <;> (repeat' split at ha) <;> cases ha <;> decide

theorem Device.exec_refused (ha : i.accept k = .error e) :
    Device.exec k i d = (⟨some (-e), [], filePos i.filp⟩, d) := by
  rw [Device.exec, ha]

theorem Device.exec_interrupted (ha : i.accept k = .ok f) (hi : i.interrupted = true) :
    Device.exec k i d = (⟨some (-ERESTARTSYS), [], f.fPos⟩, d) := by
  simp only [Device.exec, ha, if_pos hi]

theorem Device.exec_blocked (ha : i.accept k = .ok f) (hi : i.interrupted = false) (hl : d.lock = true) :
    Device.exec k i d = (⟨none, [], f.fPos⟩, d) := by
  simp only [Device.exec, ha, hi, Bool.false_eq_true, if_false, if_pos hl]

theorem Device.exec_locked (ha : i.accept k = .ok f) (hi : i.interrupted = false) (hl : d.lock = false) :
    Device.exec k i d = ((d.locked k i.outcome f i.call).1.finish f,
      { (d.locked k i.outcome f i.call).2 with lock := !(d.locked k i.outcome f i.call).1.unlocks }) := by
  simp only [Device.exec, ha, hi, hl, Bool.false_eq_true, if_false]

end Exec

/-! ## The driver is this device -/

/-- The device in a system. -/
def device (s : Sys) : Device where
  log := ⟨ringCells s,
    (cellsAt s.heap s.dev.newEntry.buffptr).getD (List.replicate s.dev.newEntry.size none)⟩
  lost := s.dev.newEntry.buffptr = .null ∧ s.dev.newEntry.size ≠ 0
  lock := s.dev.lock

section Refinement

variable {k : Kernel} {s : Sys} {ring rest : List (Nat × List Cell)} {pend : List Cell}

theorem Owns.device (h : Owns k s ring pend rest) :
    device s = ⟨⟨ring.map Prod.snd, pend⟩, s.dev.newEntry.buffptr = .null ∧ pend.length ≠ 0, s.dev.lock⟩ := by
  rw [Aesd.device, h.ringCells, ← h.newEntry.size_eq]
  congr 2
  rcases h.newEntry with ⟨hn, rfl⟩ | ⟨hp, -⟩
  · rw [hn]; rfl
  · rw [cellsAt_points hp h.exactly fun b hb => List.mem_append_right _ (List.mem_append_left _ hb)]
    rfl

/-- The pending bytes a system still has. -/
theorem Owns.pendCells_device (h : Owns k s ring pend rest) :
    Aesd.pendCells s = if (Aesd.device s).lost = true then [] else (Aesd.device s).log.pending := by
  rw [h.pendCells, h.device]
  by_cases hn : s.dev.newEntry.buffptr = .null
  · by_cases hl : pend.length = 0
    · simp [hn, List.length_eq_zero_iff.1 hl]
    · simp [hn, hl]
  · simp [hn]

theorem Owns.size_device (h : Owns k s ring pend rest) :
    s.dev.newEntry.size = (Aesd.device s).log.pending.length := by
  rw [h.device, h.newEntry.size_eq]

/-- Two systems that show one device hold the same bytes. -/
theorem Ok.same {s' : Sys} (h : Ok k s) (h' : Ok k s') (hd : Aesd.device s' = Aesd.device s) :
    Aesd.ringCells s' = Aesd.ringCells s ∧ Aesd.pendCells s' = Aesd.pendCells s ∧
      s'.dev.newEntry.size = s.dev.newEntry.size := by
  obtain ⟨_, _, _, h⟩ := h
  obtain ⟨_, _, _, h'⟩ := h'
  refine ⟨congrArg (·.log.entries) hd, ?_, ?_⟩
  · rw [h.pendCells_device, h'.pendCells_device, hd]
  · rw [h.size_device, h'.size_device, hd]

theorem any_isNewline (cs : List Cell) : cs.any isNewline = true ↔ some newline ∈ cs := by
  simp [isNewline]

theorem Owns.readSection_device (h : Owns k s ring pend rest) (o : Outcome) (count : Nat) (fPos : Int) :
    readSection o count fPos s = .ok ((Aesd.device s).read o count fPos) := by
  rw [h.device, Device.read]
  rcases Nat.lt_or_ge (toSizeT fPos) (contents ring).length with hlt | hge
  · have hne : restAt (ring.map Prod.snd) (toSizeT fPos) ≠ [] := by
      rw [ne_eq, restAt_eq_nil_iff]; exact Nat.not_le.2 hlt
    rw [readSection_inside h o count hlt rfl, if_neg hne]
    split <;> rfl
  · rw [readSection_end h o count hge, if_pos (restAt_of_le hge)]

theorem Owns.llseekSection_device (h : Owns k s ring pend rest) : llseekSection s = (Aesd.device s).size := by
  rw [h.device, llseekSection, h.getLength]; rfl

theorem Owns.ioctlSection_device (h : Owns k s ring pend rest) (seekto : AesdSeekto) :
    ioctlSection seekto s = (Aesd.device s).place seekto := by
  rw [h.device, ioctlSection, CircularBuffer.findSeektoFpos_eq h.wellFormed h.blank, h.sizes]; rfl

/-- Every entry has fit into one allocation. -/
theorem Owns.sizes_small (h : Owns k s ring pend rest) :
    ∀ n ∈ (ring.map Prod.snd).map List.length, n ≤ k.kmallocMaxSize := by
  rw [List.map_map]
  intro n hn
  obtain ⟨b, hb, rfl⟩ := List.mem_map.1 hn
  exact h.ring_small b hb

/-- The seek fails, or goes to a position that is not negative. -/
theorem Owns.place_cases (h : Owns k s ring pend rest) (seekto : AesdSeekto) :
    (Aesd.device s).place seekto = -1 ∨ ∃ pos : Nat, (Aesd.device s).place seekto = pos ∧ pos < 2 ^ 63 := by
  have hle := h.contents_le
  have hk := k.kmallocMaxSize_le
  rw [contents, List.length_flatten] at hle
  rw [h.device, Device.place]
  dsimp only
  rcases CircularBuffer.seekFpos_le h.sizes_small seekto.writeCmd seekto.writeCmdOffset with hmax | hsum
  · rw [hmax]
    exact .inl (by decide)
  · exact .inr ⟨_, toLoffT_of_lt (by omega) (by omega), by omega⟩

/-- A write that keeps its bytes appends them to the log. -/
theorem append_kept (ring : List (Nat × List Cell)) (pend : List Cell) {src : List UInt8} (hn : newline ∉ src) :
    LineLog.append maxWriteOperationsSupported isNewline ⟨ring.map Prod.snd, pend⟩ (src.map some) =
      ⟨ring.map Prod.snd, pend ++ src.map some⟩ := by
  have : (src.map some).any isNewline = false := by
    rw [← Bool.not_eq_true, any_isNewline]; simpa using hn
  rw [LineLog.append, this]; rfl

/-- A write that commits a line appends it to the log. -/
theorem append_committed (ring : List (Nat × List Cell)) (pend : List Cell) {src : List UInt8} (i : Nat)
    (hn : newline ∈ src) :
    LineLog.append maxWriteOperationsSupported isNewline ⟨ring.map Prod.snd, pend⟩ (src.map some) =
      ⟨(pushRing ring (i, pend ++ src.map some)).map Prod.snd, []⟩ := by
  have : (src.map some).any isNewline = true := by rw [any_isNewline]; simpa using hn
  rw [LineLog.append, this, pushRing, map_rtake, List.map_append]; rfl

/-- The locked part of a write, on the device. -/
theorem SectionEffect.device {o : Outcome} {kbuf : Ptr} {src : List UInt8} {rest₀ : List (Nat × List Cell)}
    (h : Holds k s ring pend rest₀) {ret : Int} {s' : Sys}
    (heff : SectionEffect k o kbuf (src.map some) s ring pend rest ret s') :
    (Aesd.device s).write k o src = (ret, Aesd.device s') := by
  rw [h.device, Device.write]
  cases heff with
  | lost hr hd _ hh =>
    rw [List.length_map] at hr
    rw [if_pos hr, hh.device, hd]
    simp
  | kept hr hn hl _ hne hh =>
    rw [List.length_map] at hr ⊢
    rw [if_neg hr, append_kept _ _ (by simpa using hn), hh.device, hl]
    simp [hne]
  | @committed _ id hr hn hl _ _ hh =>
    rw [List.length_map] at hr ⊢
    rw [if_neg hr, append_committed _ _ id (by simpa using hn), hh.device, hl]
    simp

theorem Reaches.accept {i : Invocation} {src : List UInt8} (hw : i.call = .write (some src))
    (h : Reaches k i.outcome i.filp (some src) s src) : ∃ f, i.filp = some f ∧ i.accept k = .ok f := by
  obtain ⟨f, hf, hpd⟩ := h.filp_eq
  refine ⟨f, hf, ?_⟩
  simp only [Invocation.accept, hw, hf, if_neg h.allocated, h.copied, hpd, ne_eq, not_true_eq_false, if_false, if_true]

/-- A write on the device. -/
theorem WriteEffect.device (h : Holds k s ring pend rest) {i : Invocation} {buf : Option (List UInt8)}
    (hw : i.call = .write buf) {ret : Option Int} {s' : Sys}
    (heff : WriteEffect k i.outcome i.filp buf s ring pend rest ret s') :
    Device.exec k i (Aesd.device s) = (⟨ret, [], filePos i.filp⟩, Aesd.device s') := by
  have hint : i.interrupted = false := by rw [Invocation.interrupted, hw]
  have hdev := h.device
  -- a write that reaches `krealloc`
  have hlocked : ∀ src, Reaches k i.outcome i.filp buf s src → Device.exec k i (Aesd.device s) =
      (⟨some ((Aesd.device s).write k i.outcome src).1, [], filePos i.filp⟩,
        { ((Aesd.device s).write k i.outcome src).2 with lock := false }) := by
    intro src hreach
    have hbuf := hreach.buf_eq
    subst hbuf
    obtain ⟨f, hf, ha⟩ := hreach.accept hw
    rw [Device.exec_locked ha hint hreach.unlocked, hw, hf]
    rfl
  cases heff with
  | refused hr =>
    have ha : i.accept k = .error EINVAL := by
      rcases hr with hr | hr <;> simp [Invocation.accept, hw, hr]
    exact Device.exec_refused ha
  | noMemory hf hbuf hr =>
    have ha : i.accept k = .error ENOMEM := by simp [Invocation.accept, hw, hf, hbuf, hr]
    exact Device.exec_refused ha
  | @dropped f src _ _ _ hf hbuf hr hstop _ hd _ hh =>
    have hsame : Aesd.device s' = Aesd.device s := by rw [hh.device, hdev, hd]
    rw [hsame]
    rcases hstop with ⟨hu, rfl⟩ | ⟨hu, hpd, rfl⟩ | ⟨hu, hpd, hl, rfl⟩
    · have ha : i.accept k = .error EFAULT := by simp only [Invocation.accept, hw, hf, hbuf, if_neg hr, if_pos hu]
      exact Device.exec_refused ha
    · have ha : i.accept k = .error EINVAL := by simp [Invocation.accept, hw, hf, hbuf, hr, hu, hpd]
      exact Device.exec_refused ha
    · have ha : i.accept k = .ok f := by simp [Invocation.accept, hw, hf, hbuf, hr, hu, hpd]
      rw [Device.exec_blocked ha hint hl, hf]
      rfl
  | lost hreach hr hd _ hh =>
    rw [hlocked _ hreach, Device.write, hdev, if_pos hr, hh.device, hd, hreach.unlocked]
    simp
  | kept hreach hr hn _ hl _ hne hh =>
    rw [hlocked _ hreach, Device.write, hdev, if_neg hr, append_kept _ _ hn, hh.device, hl]
    simp [hne]
  | @committed _ _ _ id hreach hr hn _ hl _ _ hh =>
    rw [hlocked _ hreach, Device.write, hdev, if_neg hr, append_committed _ _ id hn, hh.device, hl]
    simp

theorem reply_mk (ret : Option Int) (data : List Cell) (fPos : Int) (s : Sys) :
    (Return.mk ret data fPos s).reply = ⟨ret, data, fPos⟩ := rfl

theorem read_device (h : Holds k s ring pend rest) {i : Invocation} {buf : Bool} {count : Nat}
    (hc : i.call = .read buf count) {r : Return} (he : i.exec k s = .ok r) :
    Device.exec k i (Aesd.device s) = (r.reply, Aesd.device r.sys) := by
  obtain ⟨filp, c, o⟩ := i
  simp only at hc
  subst hc
  simp only [Invocation.exec, Call.exec] at he
  by_cases hadm : ∃ f, filp = some f ∧ buf = true ∧ f.privateData = true
  case neg =>
    have ha : Invocation.accept k ⟨filp, .read buf count, o⟩ = .error EINVAL := by
      unfold Invocation.accept
      split <;> simp_all
    obtain rfl : (⟨some (-EINVAL), [], filePos filp, s⟩ : Return) = r := by
      refine Except.ok.inj (Eq.trans ?_ he)
      unfold aesdRead
      split <;> simp_all
    rw [Device.exec_refused ha, Return.reply]
  obtain ⟨f, rfl, rfl, hpd⟩ := hadm
  have ha : Invocation.accept k ⟨some f, .read true count, o⟩ = .ok f := by simp [Invocation.accept, hpd]
  simp only [aesdRead, hpd, Bool.true_eq_false, if_false] at he
  cases hm : mutexLockInterruptible o s with
  | interrupted =>
    rw [hm] at he
    obtain rfl := Except.ok.inj he
    rw [Device.exec_interrupted ha ((lock_interrupted_iff o s).1 hm)]
    rfl
  | blocked =>
    rw [hm] at he
    obtain rfl := Except.ok.inj he
    obtain ⟨hi, hl⟩ := (lock_blocked_iff o s).1 hm
    rw [Device.exec_blocked ha hi hl]
    rfl
  | acquired =>
    obtain ⟨hi, hl⟩ := (lock_acquired_iff o s).1 hm
    simp only [hm, (h.setLock true).readSection_device, ok_bind] at he
    obtain rfl := Except.ok.inj he
    rw [Device.exec_locked ha hi hl]
    refine Prod.ext rfl ?_
    show _ = Aesd.device (if ((Aesd.device s).read o count f.fPos).unlocks = true then _ else _)
    simp only [Device.locked, Left.unlocks]
    cases ((Aesd.device s).read o count f.fPos).unlocks <;> rfl

theorem llseek_device (h : Holds k s ring pend rest) {i : Invocation} {offset whence : Int}
    (hc : i.call = .llseek offset whence) {r : Return} (he : i.exec k s = .ok r) :
    Device.exec k i (Aesd.device s) = (r.reply, Aesd.device r.sys) := by
  obtain ⟨filp, c, o⟩ := i
  simp only at hc
  subst hc
  obtain rfl : aesdLlseek o filp offset whence s = r := Except.ok.inj he
  by_cases hadm : ∃ f, filp = some f ∧ f.privateData = true
  case neg =>
    have ha : Invocation.accept k ⟨filp, .llseek offset whence, o⟩ = .error EINVAL := by
      unfold Invocation.accept
      split <;> simp_all
    have hr : aesdLlseek o filp offset whence s = ⟨some (-EINVAL), [], filePos filp, s⟩ := by
      unfold aesdLlseek
      split <;> simp_all [filePos]
    rw [Device.exec_refused ha, hr, Return.reply]
  obtain ⟨f, rfl, hpd⟩ := hadm
  have ha : Invocation.accept k ⟨some f, .llseek offset whence, o⟩ = .ok f := by simp [Invocation.accept, hpd]
  simp only [aesdLlseek, hpd, Bool.true_eq_false, if_false]
  cases hm : mutexLockInterruptible o s with
  | interrupted =>
    rw [Device.exec_interrupted ha ((lock_interrupted_iff o s).1 hm)]
    rfl
  | blocked =>
    obtain ⟨hi, hl⟩ := (lock_blocked_iff o s).1 hm
    rw [Device.exec_blocked ha hi hl]
    rfl
  | acquired =>
    obtain ⟨hi, hl⟩ := (lock_acquired_iff o s).1 hm
    rw [Device.exec_locked ha hi hl, (h.setLock true).llseekSection_device]
    rfl

theorem ioctl_device (h : Holds k s ring pend rest) {i : Invocation} {cmd : Nat} {seekto : AesdSeekto}
    (hc : i.call = .ioctl cmd seekto) {r : Return} (he : i.exec k s = .ok r) :
    Device.exec k i (Aesd.device s) = (r.reply, Aesd.device r.sys) := by
  obtain ⟨filp, c, o⟩ := i
  simp only at hc
  subst hc
  obtain rfl : aesdIoctl o filp cmd seekto s = r := Except.ok.inj he
  by_cases hcmd : cmd ≠ AESDCHAR_IOCSEEKTO
  case pos =>
    have ha : Invocation.accept k ⟨filp, .ioctl cmd seekto, o⟩ = .error ENOTTY := by
      cases filp <;> simp only [Invocation.accept, if_pos hcmd]
    rw [Device.exec_refused ha, aesdIoctl.eq_def, if_pos hcmd]
    rfl
  rw [aesdIoctl.eq_def, if_neg hcmd]
  match filp with
  | none =>
    have ha : Invocation.accept k ⟨none, .ioctl cmd seekto, o⟩ = .error EINVAL := by
      simp only [Invocation.accept, if_neg hcmd]
    rw [Device.exec_refused ha]
    rfl
  | some f =>
  by_cases hpd : f.privateData = false
  case pos =>
    have ha : Invocation.accept k ⟨some f, .ioctl cmd seekto, o⟩ = .error EINVAL := by
      simp only [Invocation.accept, if_neg hcmd, if_pos hpd]
    rw [Device.exec_refused ha]
    simp only [if_pos hpd, Return.reply, filePos, Option.map_some, Option.getD_some]
  by_cases hu : min o.uncopied 8 ≠ 0
  case pos =>
    have ha : Invocation.accept k ⟨some f, .ioctl cmd seekto, o⟩ = .error EFAULT := by
      simp only [Invocation.accept, if_neg hcmd, if_neg hpd, if_pos hu]
    rw [Device.exec_refused ha]
    simp only [if_neg hpd, if_pos hu, Return.reply, filePos, Option.map_some, Option.getD_some]
  have ha : Invocation.accept k ⟨some f, .ioctl cmd seekto, o⟩ = .ok f := by
    simp only [Invocation.accept, if_neg hcmd, if_neg hpd, if_neg hu]
  simp only [if_neg hpd, if_neg hu]
  cases hm : mutexLockInterruptible o s with
  | interrupted =>
    rw [Device.exec_interrupted ha ((lock_interrupted_iff o s).1 hm)]
    rfl
  | blocked =>
    obtain ⟨hi, hl⟩ := (lock_blocked_iff o s).1 hm
    rw [Device.exec_blocked ha hi hl]
    rfl
  | acquired =>
    obtain ⟨hi, hl⟩ := (lock_acquired_iff o s).1 hm
    have hplace : ioctlSection seekto (s.setLock true) = (Aesd.device s).place seekto :=
      (h.setLock true).ioctlSection_device seekto
    rw [Device.exec_locked ha hi hl, Device.locked, Left.finish, hplace]
    exact Prod.ext (reply_mk ..).symm rfl

/-- Every call does to the device what `Device.exec` says, and answers as it does. -/
theorem exec_device (h : Holds k s ring pend rest) {i : Invocation} {r : Return} (he : i.exec k s = .ok r) :
    Device.exec k i (Aesd.device s) = (r.reply, Aesd.device r.sys) := by
  cases hc : i.call with
  | read buf count => exact read_device h hc he
  | write buf =>
    rcases exec_cases h he with ⟨buf', hw, hd, hp, heff⟩ | ⟨hw, -⟩
    · rw [heff.device h hw, Return.reply, hd, hp]
    · exact absurd hc (hw buf)
  | llseek offset whence => exact llseek_device h hc he
  | ioctl cmd seekto => exact ioctl_device h hc he

/-- A call can be made whenever the device says what becomes of it. -/
theorem Ok.exec (h : Ok k s) (i : Invocation) (reply : Reply) (d : Device)
    (hd : Device.exec k i (Aesd.device s) = (reply, d)) :
    ∃ s', i.exec k s = .ok ⟨reply.ret, reply.data, reply.fPos, s'⟩ ∧ Ok k s' ∧ Aesd.device s' = d := by
  obtain ⟨_, _, _, h⟩ := h
  obtain ⟨r, he⟩ := exec_total h i
  obtain ⟨rfl, rfl⟩ := Prod.mk.inj ((exec_device h he).symm.trans hd)
  exact ⟨r.sys, he, exec_holds h he, rfl⟩

/-- A run of calls on the device. -/
theorem runCalls_device (k : Kernel) (is : List Invocation) :
    ∃ evs s, runCalls k is aesdInitModule = .ok (evs, s) ∧ Ok k s ∧
      Aesd.device s = is.foldl (fun d i => (Device.exec k i d).2) (Aesd.device aesdInitModule) := by
  obtain ⟨evs, s, hr, hok, hI⟩ := runCalls_induct k
    (fun evs s => Aesd.device s =
      (evs.map (·.input)).foldl (fun d i => (Device.exec k i d).2) (Aesd.device aesdInitModule))
    rfl
    (fun evs s i r ring pend rest h hI he => by
      rw [List.map_append, List.foldl_append, ← hI]
      exact (congrArg Prod.snd (exec_device h he)).symm)
    is
  exact ⟨evs, s, hr, hok, by rw [hI, runAll_inputs hr]⟩

end Refinement

/-- Ten lines fill the device. -/
def tenLines : List Invocation :=
  (List.range 10).map fun i =>
    ⟨some ⟨true, 0⟩, .write (some [48 + i.toUInt8, newline]), ⟨false, some 0, some 0, 0⟩⟩

def tenLinesDevice : Device :=
  ⟨⟨(List.range 10).map fun i => [some (48 + i.toUInt8), some newline], []⟩, false, false⟩

theorem runCalls_tenLines : ∃ evs s, runCalls .pages4K tenLines aesdInitModule = .ok (evs, s) ∧ Ok .pages4K s ∧
    device s = tenLinesDevice := by
  obtain ⟨evs, s, hr, hok, hd⟩ := runCalls_device .pages4K tenLines
  exact ⟨evs, s, hr, hok, by rw [hd]; decide +kernel⟩

end Aesd
