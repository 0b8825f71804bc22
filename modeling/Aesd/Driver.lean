import Aesd.Kernel
/-!
# The character device

`main.c` of the driver. Each operation is split where the source takes and
drops `dev->lock`: `readSection`, `writeSection`, `llseekSection` and
`ioctlSection` run with the lock held, and `llseekFinish` and `ioctlFinish`
after it is dropped. `aesdRead`, `aesdWrite`, `aesdLlseek` and `aesdIoctl` put
the parts together.

`Sys` adds to the device the kernel memory and, as history, the contents of the
entries that `aesd_circular_buffer_add_entry` has stored and evicted so far.
Printing, and the `cdev` the kernel dispatches through, are left out. So is the
check that `f_pos` is not `NULL`: the kernel passes the address of a copy of the
file's position.
-/

namespace Aesd

open SysLib

/-- `struct aesd_dev`; `lock` tells whether the mutex is held. -/
structure AesdDev where
  buffer : CircularBuffer
  newEntry : BufferEntry
  lock : Bool

/-- The device, the kernel's memory, and the entries committed and evicted so far. -/
structure Sys where
  dev : AesdDev
  heap : Memory
  committed : List (List Cell)
  evicted : List (List Cell)

/-- `struct file`: whether `private_data` is set to the device, and `f_pos`. -/
structure File where
  privateData : Bool
  fPos : Int
  deriving DecidableEq

/-- `aesd_open` -/
def aesdOpen (filp : File) : Int × File := (0, { filp with privateData := true })

/-- `aesd_release` -/
def aesdRelease (filp : File) : Int × File := (0, { filp with privateData := false })

/-- `struct aesd_seekto` -/
structure AesdSeekto where
  writeCmd : Nat
  writeCmdOffset : Nat
  deriving DecidableEq

/-- What a call leaves behind: the value it returns (`none` if it never does,
waiting for `dev->lock`), the bytes it copied to the user, the file position it
was given, and the system. -/
structure Return where
  ret : Option Int
  data : List Cell
  fPos : Int
  sys : Sys

def Sys.setLock (s : Sys) (held : Bool) : Sys := { s with dev := { s.dev with lock := held } }

/-- `AESDCHAR_IOCSEEKTO`, that is `_IOWR(0x16, 1, struct aesd_seekto)`. -/
def AESDCHAR_IOCSEEKTO : Nat := 3 * 2 ^ 30 + 8 * 2 ^ 16 + 0x16 * 2 ^ 8 + 1

def SEEK_SET : Int := 0
def SEEK_CUR : Int := 1
def SEEK_END : Int := 2

def newline : UInt8 := 10

/-- The loop of `aesd_write` that looks for a newline in `kbuf`. -/
def hasNewline : List Cell → Bool
  | [] => false
  | c :: cs => if c = some newline then true else hasNewline cs

/-! ## The lock -/

inductive LockResult where
  | acquired
  | interrupted
  | blocked
  deriving DecidableEq

/-- `mutex_lock`: nobody but the holder can end the wait. -/
def mutexLock (s : Sys) : LockResult := if s.dev.lock then .blocked else .acquired

/-- `mutex_lock_interruptible`: a signal ends the wait too. -/
def mutexLockInterruptible (o : Outcome) (s : Sys) : LockResult :=
  if o.interrupted then .interrupted else mutexLock s

/-! ## `aesd_read` -/

/-- How the locked part of `aesd_read` ends. `unlocks` is false on the path that
returns without reaching `mutex_unlock`. -/
structure ReadOut where
  retval : Int
  data : List Cell
  fPos : Int
  unlocks : Bool

/-- `aesd_read` with the lock held. -/
def readSection (o : Outcome) (count : Nat) (fPos : Int) (s : Sys) : Except Fault ReadOut :=
  match s.dev.buffer.findEntryOffsetForFpos (toSizeT fPos) 0 with
  | (none, _) => .ok ⟨0, [], fPos, true⟩
  | (some posn, entryOffsetByteRtn) => do
    let entry := s.dev.buffer.slot posn
    let numCopyBytes := min count (entry.size - entryOffsetByteRtn)
    let (data, copyStatus) ← copyToUser entry.buffptr entryOffsetByteRtn numCopyBytes o.uncopied s.heap
    if copyStatus = 0 then
      .ok ⟨toLoffT numCopyBytes, data, toLoffT (fPos + numCopyBytes), true⟩
    else
      -- `retval` is set to `-EFAULT` here, but the next statement is `return 0`
      .ok ⟨0, data, fPos, false⟩

/-- `aesd_read` of `count` bytes; `buf` tells whether the user's pointer is not `NULL`. -/
def aesdRead (o : Outcome) (filp : Option File) (buf : Bool) (count : Nat) (fPos : Int) (s : Sys) :
    Except Fault Return :=
  match filp, buf with
  | some filp, true =>
    if filp.privateData = false then .ok ⟨some (-EINVAL), [], fPos, s⟩
    else
      match mutexLockInterruptible o s with
      | .interrupted => .ok ⟨some (-ERESTARTSYS), [], fPos, s⟩
      | .blocked => .ok ⟨none, [], fPos, s⟩
      | .acquired => do
        let s := s.setLock true
        let out ← readSection o count fPos s
        .ok ⟨some out.retval, out.data, out.fPos, if out.unlocks then s.setLock false else s⟩
  | _, _ => .ok ⟨some (-EINVAL), [], fPos, s⟩

/-! ## `aesd_write` -/

/-- The device and the memory once `kbuf` is on the pending entry and a newline
commits it. -/
def commitEntry (s : Sys) : Except Fault Sys := do
  let (buffptrToFree, buffer) := s.dev.buffer.addEntry s.dev.newEntry
  let committed := s.committed ++ (cellsAt s.heap s.dev.newEntry.buffptr).toList
  let evicted := s.evicted ++ (cellsAt s.heap buffptrToFree).toList
  let heap ← if buffptrToFree ≠ .null then kfree buffptrToFree s.heap else .ok s.heap
  .ok ⟨{ s.dev with buffer := buffer, newEntry := ⟨.null, 0⟩ }, heap, committed, evicted⟩

/-- `aesd_write` with the lock held. -/
def writeSection (k : Kernel) (o : Outcome) (kbuf : Ptr) (count : Nat) (writeToCb : Bool) (s : Sys) :
    Except Fault (Int × Sys) := do
  let size := s.dev.newEntry.size
  let (buffptr, heap) ←
    krealloc k s.dev.newEntry.buffptr ((size + count) % sizeTMod) o.krealloc s.heap
  if buffptr = .null then
    let heap ← kfree kbuf heap
    .ok (-ENOMEM, { s with dev := { s.dev with newEntry := ⟨.null, size⟩ }, heap := heap })
  else
    let heap ← memcpy buffptr size kbuf count heap
    let s := { s with dev := { s.dev with newEntry := ⟨buffptr, (size + count) % sizeTMod⟩ }, heap := heap }
    let s ← if writeToCb then commitEntry s else .ok s
    .ok (toLoffT count, s)

/-- `aesd_write` of the `count` bytes at `buf` (`none` for `NULL`). -/
def aesdWrite (k : Kernel) (o : Outcome) (filp : Option File) (buf : Option (List UInt8)) (fPos : Int)
    (s : Sys) : Except Fault Return :=
  match filp, buf with
  | some filp, some src => do
    let count := src.length
    let (kbuf, heap) := kmalloc k count o.kmalloc s.heap
    if kbuf = .null then .ok ⟨some (-ENOMEM), [], fPos, { s with heap := heap }⟩
    else
      let (heap, status) ← copyFromUser kbuf src o.uncopied heap
      let s := { s with heap := heap }
      if status ≠ 0 then .ok ⟨some (-EFAULT), [], fPos, s⟩
      else
        let writeToCb := hasNewline (← load kbuf 0 count heap)
        if filp.privateData = false then .ok ⟨some (-EINVAL), [], fPos, s⟩
        else
          match mutexLock s with
          | .acquired =>
            let (retval, s) ← writeSection k o kbuf count writeToCb (s.setLock true)
            .ok ⟨some retval, [], fPos, s.setLock false⟩
          | _ => .ok ⟨none, [], fPos, s⟩
  | _, _ => .ok ⟨some (-EINVAL), [], fPos, s⟩

/-! ## `aesd_llseek` -/

/-- `aesd_llseek` with the lock held: `total_size`. -/
def llseekSection (s : Sys) : Nat := s.dev.buffer.getLength

/-- `aesd_llseek` after the lock is dropped: the value returned, and `filp->f_pos`. -/
def llseekFinish (totalSize : Nat) (filp : File) (offset whence : Int) : Int × Int :=
  let check (newFPos : Int) : Int × Int :=
    if newFPos < 0 ∨ toSizeT newFPos > totalSize then (-EINVAL, filp.fPos) else (newFPos, newFPos)
  if whence = SEEK_SET then check offset
  else if whence = SEEK_CUR then check (toLoffT (filp.fPos + offset))
  else if whence = SEEK_END then check (toLoffT (totalSize + offset))
  else (-EINVAL, filp.fPos)

def aesdLlseek (o : Outcome) (filp : Option File) (offset whence : Int) (s : Sys) : Return :=
  match filp with
  | none => ⟨some (-EINVAL), [], 0, s⟩
  | some filp =>
    if filp.privateData = false then ⟨some (-EINVAL), [], filp.fPos, s⟩
    else
      match mutexLockInterruptible o s with
      | .interrupted => ⟨some (-ERESTARTSYS), [], filp.fPos, s⟩
      | .blocked => ⟨none, [], filp.fPos, s⟩
      | .acquired =>
        let s := s.setLock true
        let totalSize := llseekSection s
        let s := s.setLock false
        let fin := llseekFinish totalSize filp offset whence
        ⟨some fin.1, [], fin.2, s⟩

/-! ## `aesd_ioctl` -/

/-- `aesd_ioctl` with the lock held: `new_f_pos`, a `size_t` stored in a `loff_t`. -/
def ioctlSection (seekto : AesdSeekto) (s : Sys) : Int :=
  toLoffT (s.dev.buffer.findSeektoFpos seekto.writeCmd seekto.writeCmdOffset)

/-- `aesd_ioctl` after the lock is dropped: the value returned, and `filp->f_pos`. -/
def ioctlFinish (newFPos : Int) (filp : File) : Int × Int :=
  if newFPos = -1 then (-EINVAL, filp.fPos) else (0, newFPos)

/-- `aesd_ioctl`; `seekto` is the structure the user's `arg` points to. -/
def aesdIoctl (o : Outcome) (filp : Option File) (cmd : Nat) (seekto : AesdSeekto) (s : Sys) : Return :=
  if cmd ≠ AESDCHAR_IOCSEEKTO then ⟨some (-ENOTTY), [], (filp.map (·.fPos)).getD 0, s⟩
  else
    match filp with
    | none => ⟨some (-EINVAL), [], 0, s⟩
    | some filp =>
      if filp.privateData = false then ⟨some (-EINVAL), [], filp.fPos, s⟩
      -- `copy_from_user` of the 8 bytes of a `struct aesd_seekto`
      else if min o.uncopied 8 ≠ 0 then ⟨some (-EFAULT), [], filp.fPos, s⟩
      else
        match mutexLockInterruptible o s with
        | .interrupted => ⟨some (-ERESTARTSYS), [], filp.fPos, s⟩
        | .blocked => ⟨none, [], filp.fPos, s⟩
        | .acquired =>
          let s := s.setLock true
          let newFPos := ioctlSection seekto s
          let s := s.setLock false
          let fin := ioctlFinish newFPos filp
          ⟨some fin.1, [], fin.2, s⟩

/-! ## Loading and unloading the module -/

/-- The state `aesd_init_module` leaves when the kernel registers the device. -/
def aesdInitModule : Sys where
  dev := ⟨CircularBuffer.init, ⟨.null, 0⟩, false⟩
  heap := Heap.empty
  committed := []
  evicted := []

/-- The `AESD_CIRCULAR_BUFFER_FOREACH` loop of `aesd_cleanup_module`, over the
slots that are left. -/
def cleanupSlots : List BufferEntry → Memory → Except Fault Memory
  | [], h => .ok h
  | e :: es, h =>
    if e.buffptr ≠ .null then do cleanupSlots es (← kfree e.buffptr h)
    else cleanupSlots es h

/-- `aesd_cleanup_module`: the memory it leaves. -/
def aesdCleanupModule (s : Sys) : Except Fault Memory := do
  let h ← cleanupSlots s.dev.buffer.entry.toList s.heap
  if s.dev.newEntry.buffptr ≠ .null then kfree s.dev.newEntry.buffptr h else .ok h

/-! ## Calls -/

/-- A call of one of the operations in `aesd_fops`, with the arguments it gets
besides the file. -/
inductive Call where
  | read (buf : Bool) (count : Nat)
  | write (buf : Option (List UInt8))
  | llseek (offset whence : Int)
  | ioctl (cmd : Nat) (seekto : AesdSeekto)
  deriving DecidableEq

/-- The position an operation finds in its file; the kernel passes `aesd_read`
and `aesd_write` a pointer to a copy of it. -/
def filePos (filp : Option File) : Int := (filp.map (·.fPos)).getD 0

def Call.exec (k : Kernel) (o : Outcome) (filp : Option File) (c : Call) (s : Sys) : Except Fault Return :=
  match c with
  | .read buf count => aesdRead o filp buf count (filePos filp) s
  | .write buf => aesdWrite k o filp buf (filePos filp) s
  | .llseek offset whence => .ok (aesdLlseek o filp offset whence s)
  | .ioctl cmd seekto => .ok (aesdIoctl o filp cmd seekto s)

end Aesd
