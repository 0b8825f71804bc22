import Aesd.Server.Connection
import Aesd.Server.Reaping
import Aesd.SysLib.Ledger
/-!
# The server process

`main` from its loop on, the threads it creates, `timer_handler`, and what can
happen to them from outside: signals, and clients that reset their connections.
Every call to the operating system may fail or return anything of the right
size, at every step; only `malloc` succeeds. The descriptors `accept` and `open`
return are any that are not in use. A call returns at once; that those of the
driver may have to wait for `dev->lock` is in `Driven`.

A descriptor stays in the variable it was stored in until it is closed, or until
the variable goes. `sock_fd` is left out.
-/

namespace Aesd

open SysLib

/-- Where `main` is, with `client_fd` of `acceptClientConnection`. -/
inductive Main where
  /-- `while (exit_requested == false)` -/
  | loop
  | accept
  /-- The two checks behind `accept`; `none` for a negative `client_fd`. -/
  | accepted (clientFd : Option Nat)
  /-- `malloc` and `pthread_create` -/
  | create (clientFd : Nat)
  /-- The two walks. -/
  | walks
  /-- Behind the loop. -/
  | leaving
  | returned
  deriving DecidableEq

def Main.clientFd : Main → Option Nat
  | .accepted r => r
  | .create fd => some fd
  | _ => none

/-- The variables of `processClientConnection`; a descriptor is there while it is open. -/
structure Client where
  conn : Conn
  clientFd : Option Nat
  fileFd : Option Nat

/-- Where a call of `timer_handler` is, with `writefile_fd`. -/
inductive Timer where
  | lock
  | openFile
  | write (writefileFd : Nat)
  | close (writefileFd : Nat)
  | unlock
  | returned
  deriving DecidableEq

def Timer.writefileFd : Timer → Option Nat
  | .write fd | .close fd => some fd
  | _ => none

/-- Who may hold `file_mutex`. -/
inductive Owner where
  | thread (t : Nat)
  | timer (i : Nat)
  deriving DecidableEq

/-- The process: whether `SIGPIPE` has terminated it, and which connections their
clients have reset. As history: the descriptors `accept` and `open` have
returned, and those closed. -/
structure Process where
  main : Main
  killed : Bool
  exitRequested : Bool
  threads : Threads
  client : Nat → Client
  timer : Nat → Option Timer
  mutex : Option Owner
  reset : Nat → Bool
  issued : List Nat
  closed : List Nat

namespace Process

/-- `main` before its loop. -/
def start : Process where
  main := .loop
  killed := false
  exitRequested := false
  threads := .start
  client := fun _ => ⟨.start, none, none⟩
  timer := fun _ => none
  mutex := none
  reset := fun _ => false
  issued := []
  closed := []

/-! ## The variables that hold descriptors -/

inductive Variable where
  /-- `client_fd` of `acceptClientConnection` -/
  | accepted
  /-- `client_fd` of a thread -/
  | client (t : Nat)
  | file (t : Nat)
  | writefile (i : Nat)
  deriving DecidableEq

def held (p : Process) : Variable → Option Nat
  | .accepted => p.main.clientFd
  | .client t => (p.client t).clientFd
  | .file t => (p.client t).fileFd
  | .writefile i => (p.timer i).bind Timer.writefileFd

def ledger (p : Process) : Ledger Variable := ⟨p.held, p.issued, p.closed⟩

/-! ## The steps -/

/-- What `main`, a thread, a call of `timer_handler`, a client or a user does,
with the results of the calls it makes. -/
inductive Action where
  | signal
  | loopTest
  | accept (r : Option Nat)
  | examine
  | create (arg : Nat)
  | createFails (arg : Nat)
  | walk
  | leave
  | recv (t : Nat) (bytes : List UInt8)
  | lock (t : Nat)
  | openFile (t : Nat) (r : Option Nat)
  | ioctl (t : Nat)
  | write (t : Nat)
  | unlock (t : Nat)
  | read (t : Nat) (buffer : List Cell)
  | send (t : Nat)
  | closeFile (t : Nat)
  | closeClient (t : Nat)
  | setDone (t : Nat)
  | returns (t : Nat)
  | reset (t : Nat)
  | tick (i : Nat)
  | timerLock (i : Nat)
  | timerOpen (i : Nat) (r : Option Nat)
  | timerWrite (i : Nat) (ok : Bool)
  | timerClose (i : Nat)
  | timerUnlock (i : Nat)

/-- The kernel may return this descriptor. -/
def Unused (p : Process) (r : Option Nat) : Prop := ∀ fd, r = some fd → p.ledger.Free fd

/-- The checks behind `accept`: `return 0`, `return -1`, or on. -/
def examine (p : Process) (r : Option Nat) : Process :=
  { p with
    main := if p.exitRequested then .loop else
      match r with
      | none => .leaving
      | some fd => .create fd }

/-- Thread `t` goes on with these variables. -/
def setClient (p : Process) (t : Nat) (c : Client) : Process := { p with client := Function.update p.client t c }

/-- Thread `t` goes on to its next call. -/
def goto (p : Process) (t : Nat) (c : Conn) : Process := p.setClient t { p.client t with conn := c }

def setTimer (p : Process) (i : Nat) (s : Timer) : Process := { p with timer := Function.update p.timer i (some s) }

/-- `pthread_create` has succeeded. -/
def create (p : Process) (fd arg : Nat) : Process :=
  { p.setClient p.threads.count ⟨.start, some fd, none⟩ with threads := p.threads.create arg, main := .walks }

/-- `send`; without `MSG_NOSIGNAL`, on a connection that has been reset, it raises
`SIGPIPE`. One that returns `ECONNRESET` instead counts as a `send` before the reset. -/
def send (p : Process) (t : Nat) : Process :=
  if p.reset t then { p with killed := true } else p.goto t (p.client t).conn.onSend

/-- Thread `t` is in `processClientConnection`, about to make a call. -/
def At (p : Process) (t : Nat) (stage : Stage) : Prop :=
  (∃ arg, p.threads.worker t = some (.running arg)) ∧ (p.client t).conn.stage = stage

/-- A step. The timer exists in the file build only. -/
inductive Step (device : Bool) : Action → Process → Process → Prop
  /-- `SIGINT` or `SIGTERM` -/
  | signal {p : Process} : Step device .signal p { p with exitRequested := true }
  | loopTest {p : Process} : p.main = .loop →
      Step device .loopTest p { p with main := if p.exitRequested then .leaving else .accept }
  | accept {p : Process} (r : Option Nat) : p.main = .accept → p.Unused r →
      Step device (.accept r) p { p with main := .accepted r, issued := p.issued ++ r.toList }
  | examine {p : Process} {r : Option Nat} : p.main = .accepted r → Step device .examine p (p.examine r)
  | create {p : Process} {fd : Nat} (arg : Nat) : p.main = .create fd → p.threads.nodes arg = none →
      Step device (.create arg) p (p.create fd arg)
  /-- `return 1` -/
  | createFails {p : Process} {fd : Nat} (arg : Nat) : p.main = .create fd → p.threads.nodes arg = none →
      Step device (.createFails arg) p { p with main := .loop, threads := p.threads.createFails arg }
  | walk {p : Process} {m : Threads} : p.main = .walks → p.threads.walk ≠ .idle → ¬ p.threads.Waits →
      p.threads.advance = .ok m →
      Step device .walk p { p with main := if m.walk = .idle then .loop else .walks, threads := m }
  | leave {p : Process} : p.main = .leaving → Step device .leave p { p with main := .returned }
  | recv {p : Process} {t : Nat} (bytes : List UInt8) : p.At t .recv → bytes.length ≤ BUFFER_SIZE →
      Step device (.recv t bytes) p (p.goto t ((p.client t).conn.onRecv bytes))
  | lock {p : Process} {t : Nat} : p.At t .lock → p.mutex = none →
      Step device (.lock t) p { p.goto t (p.client t).conn.onLock with mutex := some (.thread t) }
  | openFile {p : Process} {t : Nat} (r : Option Nat) : p.At t .openFile → p.Unused r →
      Step device (.openFile t r) p
        { p.setClient t { p.client t with conn := (p.client t).conn.onOpen r.isSome, fileFd := r } with
          issued := p.issued ++ r.toList }
  | ioctl {p : Process} {t : Nat} {seekto : AesdSeekto} : p.At t (.ioctl seekto) →
      Step device (.ioctl t) p (p.goto t (p.client t).conn.onIoctl)
  | write {p : Process} {t : Nat} {chunk : List UInt8} {node : List (List UInt8)} : p.At t (.write (chunk :: node)) →
      Step device (.write t) p (p.goto t ((p.client t).conn.onWrite node))
  | unlock {p : Process} {t : Nat} : p.At t .unlock →
      Step device (.unlock t) p { p.goto t (p.client t).conn.onUnlock with mutex := none }
  | read {p : Process} {t : Nat} (buffer : List Cell) : p.At t .read → buffer.length ≤ BUFFER_SIZE →
      Step device (.read t buffer) p (p.goto t ((p.client t).conn.onRead buffer))
  | send {p : Process} {t : Nat} {buffer : List Cell} : p.At t (.send buffer) →
      Step device (.send t) p (p.send t)
  | closeFile {p : Process} {t fd : Nat} : p.At t .close → (p.client t).fileFd = some fd →
      Step device (.closeFile t) p
        { p.setClient t { p.client t with fileFd := none } with closed := p.closed ++ [fd] }
  | closeClient {p : Process} {t fd : Nat} : p.At t .close → (p.client t).fileFd = none →
      (p.client t).clientFd = some fd →
      Step device (.closeClient t) p
        { p.setClient t { p.client t with conn := (p.client t).conn.onClose, clientFd := none } with
          closed := p.closed ++ [fd] }
  | setDone {p : Process} {t arg : Nat} {m : Threads} : p.threads.worker t = some (.running arg) →
      (p.client t).conn.stage = .finished → p.threads.setDone t arg = .ok m →
      Step device (.setDone t) p { p with threads := m }
  | returns {p : Process} {t : Nat} : p.threads.worker t = some .done →
      Step device (.returns t) p { p with threads := p.threads.leave t }
  | reset {p : Process} (t : Nat) : Step device (.reset t) p { p with reset := Function.update p.reset t true }
  | tick {p : Process} (i : Nat) : device = false → p.timer i = none → Step device (.tick i) p (p.setTimer i .lock)
  | timerLock {p : Process} {i : Nat} : p.timer i = some .lock → p.mutex = none →
      Step device (.timerLock i) p { p.setTimer i .openFile with mutex := some (.timer i) }
  | timerOpen {p : Process} {i : Nat} (r : Option Nat) : p.timer i = some .openFile → p.Unused r →
      Step device (.timerOpen i r) p
        { p.setTimer i (r.elim .unlock .write) with issued := p.issued ++ r.toList }
  /-- A failed `write` skips `close`. -/
  | timerWrite {p : Process} {i fd : Nat} (ok : Bool) : p.timer i = some (.write fd) →
      Step device (.timerWrite i ok) p (p.setTimer i (if ok then .close fd else .unlock))
  | timerClose {p : Process} {i fd : Nat} : p.timer i = some (.close fd) →
      Step device (.timerClose i) p { p.setTimer i .unlock with closed := p.closed ++ [fd] }
  | timerUnlock {p : Process} {i : Nat} : p.timer i = some .unlock →
      Step device (.timerUnlock i) p { p.setTimer i .returned with mutex := none }

/-- The process has not ended. -/
def Alive (p : Process) : Prop := p.main ≠ .returned ∧ p.killed = false

/-- A step of a run. -/
def AnyStep (device : Bool) (p p' : Process) : Prop := p.Alive ∧ ∃ a, Step device a p p'

/-! ## What the steps keep -/

section Steps

variable {device : Bool} {p p' : Process} {a : Action}

/-- A step of the process is one of the walks or of a thread's end, or leaves the list of threads alone. -/
theorem Step.threads (hst : Step device a p p') (hidle : (∃ fd, p.main = .create fd) → p.threads.walk = .idle) :
    p'.threads = p.threads ∨ Threads.Step p.threads p'.threads := by
  cases hst with
  | create arg hm hn => exact .inr (.create arg (hidle ⟨_, hm⟩) hn)
  | createFails arg hm hn => exact .inr (.createFails arg (hidle ⟨_, hm⟩) hn)
  | walk hm hw hwait he => exact .inr (.advance hw hwait he)
  | setDone hr hs he => exact .inr (.setDone hr he)
  | returns hd => exact .inr (.returns hd)
  | send hat =>
    unfold Process.send
    split <;> exact .inl rfl
  | _ => exact .inl rfl

theorem Step.exit (hst : Step device a p p') (hx : p.exitRequested = true) : p'.exitRequested = true := by
  cases hst with
  | signal => rfl
  | @send _ t buffer hat =>
    unfold Process.send
    split <;> exact hx
  | _ => exact hx

/-- The list of threads is as its invariant says, and `main` is outside the walks where it says so. -/
structure Sound (p : Process) : Prop where
  inv : ∃ l extra, p.threads.Inv l extra
  idle : p.main ≠ .walks → p.threads.walk = .idle

theorem Sound.idle_create (h : p.Sound) {fd : Nat} (hm : p.main = .create fd) : p.threads.walk = .idle := by
  refine h.idle ?_
  rw [hm]
  exact fun he => by cases he

theorem Sound.step (h : p.Sound) (hst : Step device a p p') : p'.Sound := by
  refine ⟨?_, ?_⟩
  · obtain ⟨l, extra, hinv⟩ := h.inv
    rcases hst.threads fun ⟨_, hm⟩ => h.idle_create hm with he | he
    · exact ⟨l, extra, he ▸ hinv⟩
    · exact hinv.step he
  · cases hst with
    | loopTest hm => exact fun _ => h.idle (by rw [hm]; simp)
    | accept r hm => exact fun _ => h.idle (by rw [hm]; simp)
    | examine hm => exact fun _ => h.idle (by rw [hm]; simp)
    | create arg hm => exact fun hw => absurd rfl hw
    | createFails arg hm => exact fun _ => h.idle_create hm
    | walk =>
      intro hw
      by_contra hne
      exact hw (if_neg hne)
    | leave hm => exact fun _ => h.idle (by rw [hm]; simp)
    | @send _ t buffer hat =>
      unfold Process.send
      split <;> exact h.idle
    | setDone hr hs he =>
      obtain ⟨n, rfl⟩ := Threads.setDone_ok he
      exact h.idle
    | _ => exact h.idle

theorem start_sound : start.Sound := ⟨⟨[], [], Threads.start_inv⟩, fun _ => rfl⟩

/-- What every run keeps. -/
theorem sound_of_run {states : List Process} (hrun : Run (AnyStep device) start states p) : p.Sound :=
  hrun.inv Sound start_sound fun _ _ h ⟨_, _, hst⟩ => h.step hst

end Steps

end Process

end Aesd
