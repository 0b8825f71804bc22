import Aesd.SysLib.Chain
import Aesd.SysLib.Runs
import Aesd.Server.Connection
/-!
# The list of chunks in memory

`processClientConnection` with the memory that `Conn` leaves out: a buffer for
each chunk it receives, and a node behind `dummyhead` that points to the buffer.
A step runs from one call to the operating system to the next, and `findCommand`
takes one for each node. What the calls return is arbitrary, and so are the
addresses `malloc` gives out.

Every access to the memory may fail: one through `NULL`, one to a block that
has been freed, also by a second `free`, and one outside a buffer. Only the
`malloc` of a node always succeeds.
-/

namespace Aesd

open SysLib

/-! ## The memory -/

/-- `RecvDataLinkedList` -/
structure RecvDataLinkedList where
  buffer : Option Nat
  len : Nat
  next : Option Nat
  deriving DecidableEq

/-- What is in a block: a node of the list, or the bytes of a chunk. -/
inductive Block where
  | node (n : RecvDataLinkedList)
  | chunk (bytes : List UInt8)
  deriving DecidableEq

def Block.next : Block → Option Nat
  | .node n => n.next
  | .chunk _ => none

inductive BadAccess where
  | null
  | freed (a : Nat)
  | outside (a : Nat)
  deriving DecidableEq

/-- The call a connection makes next, or the node `findCommand` comes to next. -/
inductive PacketStage where
  | recv
  | lock
  | openFile
  | findCommand (st : Parse) (head : Option Nat)
  | ioctl (seekto : AesdSeekto)
  /-- `write` of the chunk of `node` -/
  | write
  | unlock
  | read
  | send (buffer : List Cell)
  | close
  | finished
  deriving DecidableEq

/-- The memory of a connection and its variables. As history: the chunks that
have been received and stored, and the blocks that `malloc` has given out and
those given to `free`. -/
structure Packet where
  mem : Nat → Option Block
  node : Option Nat
  fileFd : Bool
  stage : PacketStage
  received : List (List UInt8)
  allocated : List Nat
  freed : List Nat

namespace Packet

/-- `&dummyhead`, which is not from `malloc`. -/
def dummyhead : Nat := 0

/-- The variables are initialised. -/
def start : Packet where
  mem := Function.update (fun _ => none) dummyhead (some (.node ⟨none, 0, none⟩))
  node := some dummyhead
  fileFd := false
  stage := .recv
  received := []
  allocated := []
  freed := []

def malloc (p : Packet) (a : Nat) (b : Block) : Packet :=
  { p with mem := Function.update p.mem a (some b), allocated := p.allocated ++ [a] }

/-- `free` of a block; of `NULL` it does nothing. -/
def free (p : Packet) : Option Nat → Except BadAccess Packet
  | none => .ok p
  | some a =>
    match p.mem a with
    | none => .error (.freed a)
    | some _ => .ok { p with mem := Function.update p.mem a none, freed := p.freed ++ [a] }

/-- The node at an address. -/
def load (p : Packet) : Option Nat → Except BadAccess RecvDataLinkedList
  | none => .error .null
  | some a =>
    match p.mem a with
    | some (.node n) => .ok n
    | _ => .error (.freed a)

def store (p : Packet) (ptr : Option Nat) (n : RecvDataLinkedList) : Except BadAccess Packet :=
  match ptr with
  | none => .error .null
  | some a =>
    match p.mem a with
    | some (.node _) => .ok { p with mem := Function.update p.mem a (some (.node n)) }
    | _ => .error (.freed a)

/-- The first `len` bytes of a node's buffer. -/
def bytes (p : Packet) (n : RecvDataLinkedList) : Except BadAccess (List UInt8) :=
  match n.buffer with
  | none => .error .null
  | some b =>
    match p.mem b with
    | some (.chunk bytes) => if n.len ≤ bytes.length then .ok (bytes.take n.len) else .error (.outside b)
    | _ => .error (.freed b)

/-! ## From call to call -/

/-- Behind the loop of `recv`: `node = dummyhead.next`. -/
def endRecv (p : Packet) : Except BadAccess Packet := do
  let d ← p.load (some dummyhead)
  .ok { p with node := d.next, stage := .lock }

/-- `recv` has returned these bytes, and `malloc` of the buffer `temp`, of the node `newnode`. -/
def onRecv (p : Packet) (bytes : List UInt8) (temp : Option Nat) (newnode : Nat) : Except BadAccess Packet :=
  if bytes = [] then p.endRecv
  else
    match temp with
    | none => p.endRecv
    | some b => do
      let p := (p.malloc b (.chunk bytes)).malloc newnode (.node ⟨some b, bytes.length, none⟩)
      let last ← p.load p.node
      let p ← p.store p.node { last with next := some newnode }
      let last ← p.load p.node
      let p := { p with node := last.next, received := p.received ++ [bytes] }
      if newline ∈ bytes then p.endRecv else .ok p

/-- `pthread_mutex_lock` has returned. -/
def onLock (p : Packet) : Packet :=
  { p with stage := if p.node ≠ none then .openFile else .findCommand .start p.node }

def onOpen (p : Packet) (fileFd : Bool) : Packet := { p with fileFd := fileFd, stage := .findCommand .start p.node }

/-- The head of the loop that copies the chunks into the file. -/
def copyLoop (p : Packet) : PacketStage := if p.fileFd = true ∧ p.node ≠ none then .write else .unlock

/-- The next node in `findCommand`, or its end. -/
def onFindCommand (p : Packet) (st : Parse) : Option Nat → Except BadAccess Packet
  | none =>
    .ok { p with stage := if st.writeCmdFound = false then p.copyLoop else .ioctl ⟨st.writeCmd, st.writeCmdOffset⟩ }
  | some head => do
    let n ← p.load (some head)
    let bytes ← p.bytes n
    match st.buffer AESDCHAR_IOCSEEKTO_CMD bytes with
    | none => .ok { p with stage := p.copyLoop }
    | some st => .ok { p with stage := .findCommand st n.next }

/-- The chunk of `node` is written, wholly or not; then its buffer and `node` are freed. -/
def onWrite (p : Packet) : Except BadAccess Packet := do
  let n ← p.load p.node
  let _ ← p.bytes n
  let p ← p.free n.buffer
  let n ← p.load p.node
  let p ← p.store p.node { n with buffer := none }
  let tempnode := p.node
  let n ← p.load p.node
  let p := { p with node := n.next }
  let p ← p.free tempnode
  .ok { p with stage := p.copyLoop }

/-- The next call returns, whatever it returns, and the code goes on to the call behind it. -/
inductive Call : Packet → Except BadAccess Packet → Prop
  | recv {p : Packet} (bytes : List UInt8) (temp : Option Nat) (newnode : Nat) : p.stage = .recv →
      bytes.length ≤ BUFFER_SIZE → (∀ b, temp = some b → p.mem b = none ∧ newnode ≠ b) → p.mem newnode = none →
      Call p (p.onRecv bytes temp newnode)
  | lock {p : Packet} : p.stage = .lock → Call p (.ok p.onLock)
  | openFile {p : Packet} (fileFd : Bool) : p.stage = .openFile → Call p (.ok (p.onOpen fileFd))
  | findCommand {p : Packet} {st : Parse} {head : Option Nat} : p.stage = .findCommand st head →
      Call p (p.onFindCommand st head)
  | ioctl {p : Packet} {seekto : AesdSeekto} : p.stage = .ioctl seekto → Call p (.ok { p with stage := .unlock })
  | write {p : Packet} : p.stage = .write → Call p p.onWrite
  | unlock {p : Packet} : p.stage = .unlock →
      Call p (.ok { p with stage := if p.fileFd = true then .read else .close })
  | read {p : Packet} (buffer : List Cell) : p.stage = .read →
      Call p (.ok { p with stage := if buffer = [] then .close else .send buffer })
  | send {p : Packet} {buffer : List Cell} : p.stage = .send buffer → Call p (.ok { p with stage := .read })
  | close {p : Packet} : p.stage = .close → Call p (.ok { p with stage := .finished })

/-- A step without a bad access. -/
def Step (p p' : Packet) : Prop := Call p (.ok p')

/-- Every block that `malloc` has given out has been given to `free`, each as often. -/
def Released (p : Packet) : Prop := p.freed.Perm p.allocated

end Packet

end Aesd
