import Aesd.Server.Command
/-!
# One connection

`processClientConnection`, cut at the calls it makes to the operating system.
`Stage` is the call a connection makes next; for each there is a function that
takes its result and goes on to the next call, as the source does in between.

The thread's list of chunks is a Lean list, and `malloc` succeeds; the memory of
the list is modelled by `Packet`. Log messages are left out.
-/

namespace Aesd

def BUFFER_SIZE : Nat := 1024

/-- The call a connection makes next. -/
inductive Stage where
  | recv
  | lock
  | openFile
  | ioctl (seekto : AesdSeekto)
  | write (node : List (List UInt8))
  | unlock
  | read
  | send (buffer : List Cell)
  | close
  | finished
  deriving DecidableEq

/-- A connection: the list behind `dummyhead`, and whether `file_fd` is a descriptor. -/
structure Conn where
  chunks : List (List UInt8)
  fileFd : Bool
  stage : Stage

namespace Conn

def start : Conn := ⟨[], false, .recv⟩

/-- The head of the loop that copies the chunks into the file. -/
def copyLoop (fileFd : Bool) (node : List (List UInt8)) : Stage :=
  if fileFd = true ∧ node ≠ [] then .write node else .unlock

/-- From `findCommand` on. -/
def command (c : Conn) : Stage :=
  match findCommand c.chunks AESDCHAR_IOCSEEKTO_CMD with
  | some seekto => .ioctl seekto
  | none => copyLoop c.fileFd c.chunks

/-- `recv` has returned these bytes; none if it returned 0 or an error. -/
def onRecv (c : Conn) (bytes : List UInt8) : Conn :=
  if bytes = [] then { c with stage := .lock }
  else { c with chunks := c.chunks ++ [bytes], stage := if newline ∈ bytes then .lock else .recv }

/-- `pthread_mutex_lock` has returned. The file is opened only if data has been received. -/
def onLock (c : Conn) : Conn :=
  if c.chunks ≠ [] then { c with stage := .openFile } else { c with stage := c.command }

def onOpen (c : Conn) (fileFd : Bool) : Conn :=
  { c with fileFd := fileFd, stage := { c with fileFd := fileFd }.command }

/-- A failing `ioctl` is only logged. -/
def onIoctl (c : Conn) : Conn := { c with stage := .unlock }

/-- The first chunk of the list has been written, wholly or not; `node` is the rest. -/
def onWrite (c : Conn) (node : List (List UInt8)) : Conn := { c with stage := copyLoop c.fileFd node }

def onUnlock (c : Conn) : Conn := { c with stage := if c.fileFd = true then .read else .close }

/-- `read` has returned these bytes; none if it returned 0 or an error. -/
def onRead (c : Conn) (buffer : List Cell) : Conn :=
  { c with stage := if buffer = [] then .close else .send buffer }

def onSend (c : Conn) : Conn := { c with stage := .read }

def onClose (c : Conn) : Conn := { c with stage := .finished }

/-! ## Where the calls lead -/

section Cases

variable (c : Conn) {bytes : List UInt8} {node : List (List UInt8)}

theorem onRecv_end : c.onRecv [] = { c with stage := .lock } := if_pos rfl

/-- A chunk with a newline is the last one. -/
theorem onRecv_line (hne : bytes ≠ []) (hn : newline ∈ bytes) :
    c.onRecv bytes = { c with chunks := c.chunks ++ [bytes], stage := .lock } := by
  rw [onRecv, if_neg hne, if_pos hn]

theorem onRecv_more (hne : bytes ≠ []) (hn : newline ∉ bytes) :
    c.onRecv bytes = { c with chunks := c.chunks ++ [bytes], stage := .recv } := by
  rw [onRecv, if_neg hne, if_neg hn]

theorem onLock_data (h : c.chunks ≠ []) : c.onLock = { c with stage := .openFile } := if_pos h

/-- Where nothing has been received, nothing is written. -/
theorem onLock_nothing (h : c.chunks = []) : c.onLock = { c with stage := .unlock } := by
  rw [onLock, if_neg (not_not.2 h), command, h, findCommand, if_pos rfl]
  simp only [copyLoop, ne_eq, not_true_eq_false, and_false, if_false]

/-- The call behind an `open` that has succeeded. -/
theorem onOpen_cases (hne : c.chunks ≠ []) :
    (∃ seekto, findCommand c.chunks AESDCHAR_IOCSEEKTO_CMD = some seekto ∧
      c.onOpen true = { c with fileFd := true, stage := .ioctl seekto }) ∨
    (findCommand c.chunks AESDCHAR_IOCSEEKTO_CMD = none ∧
      c.onOpen true = { c with fileFd := true, stage := .write c.chunks }) := by
  cases hfound : findCommand c.chunks AESDCHAR_IOCSEEKTO_CMD with
  | some seekto => exact .inl ⟨seekto, rfl, by simp only [onOpen, command, hfound]⟩
  | none =>
    refine .inr ⟨rfl, ?_⟩
    simp only [onOpen, command, hfound, copyLoop]
    rw [if_pos ⟨trivial, hne⟩]

theorem onWrite_last : c.onWrite [] = { c with stage := .unlock } := by
  rw [onWrite, copyLoop, if_neg fun h => h.2 rfl]

theorem onWrite_more (hfd : c.fileFd = true) (hne : node ≠ []) : c.onWrite node = { c with stage := .write node } := by
  rw [onWrite, copyLoop, if_pos ⟨hfd, hne⟩]

end Cases

end Conn

end Aesd
