import Aesd.Server.Connection
import Aesd.Calls
/-!
# The server at work

Any number of connections share the device and `file_mutex`. A step is one call
of one connection to the operating system: the calls on the device are whole
calls of the driver, on the file the connection has opened. In `Net.Step` every
call succeeds: no signal comes, user copies are complete, a write writes all its
bytes, and `send` sends all of them. `Net.Fail` has the calls that fail, or do
less than they were asked for.

The kernel opens a file at position 0, and writes back the position that
`aesd_read` and `aesd_write` leave.
-/

namespace Aesd

open SysLib

/-- The system, `file_mutex`, and for each connection its thread, the bytes its
client has sent and `recv` has not delivered, its file, and the bytes it has
sent. As history: who acquired `file_mutex`, in order, and at which position
each connection starts reading. -/
structure Net (ι : Type) where
  sys : Sys
  mutex : Option ι
  conn : ι → Conn
  incoming : ι → List UInt8
  file : ι → File
  response : ι → List Cell
  acquired : List ι
  readFrom : ι → Int

/-- Connections that have not begun, to clients that will send these bytes. -/
def Net.start {ι : Type} (s : Sys) (streams : ι → List UInt8) : Net ι :=
  ⟨s, none, fun _ => .start, streams, fun _ => ⟨false, 0⟩, fun _ => [], [], fun _ => 0⟩

section Steps

variable {ι : Type} [DecidableEq ι]

/-- Connection `p` goes on to its next call. -/
def Net.goto (n : Net ι) (p : ι) (c : Conn) : Net ι := { n with conn := Function.update n.conn p c }

theorem Net.goto_conn (n : Net ι) (p : ι) (c : Conn) : (n.goto p c).conn p = c := Function.update_self ..

/-- A call of the driver has returned to connection `p`. -/
def Net.returned (n : Net ι) (p : ι) (r : Return) : Net ι :=
  { n with sys := r.sys, file := Function.update n.file p { n.file p with fPos := r.fPos } }

/-- The next call of connection `p`. -/
inductive Net.Step (k : Kernel) (p : ι) : Net ι → Net ι → Prop
  | recv {n : Net ι} (bytes rest : List UInt8) : (n.conn p).stage = .recv → n.incoming p = bytes ++ rest →
      bytes ≠ [] → bytes.length ≤ BUFFER_SIZE →
      Step k p n { n.goto p ((n.conn p).onRecv bytes) with incoming := Function.update n.incoming p rest }
  /-- The client has closed its side. -/
  | hangup {n : Net ι} : (n.conn p).stage = .recv → n.incoming p = [] →
      Step k p n (n.goto p ((n.conn p).onRecv []))
  | lock {n : Net ι} : (n.conn p).stage = .lock → n.mutex = none →
      Step k p n { n.goto p (n.conn p).onLock with mutex := some p, acquired := n.acquired ++ [p] }
  | openFile {n : Net ι} : (n.conn p).stage = .openFile →
      Step k p n
        { n.goto p ((n.conn p).onOpen true) with file := Function.update n.file p (aesdOpen ⟨false, 0⟩).2 }
  | ioctl {n : Net ι} {seekto : AesdSeekto} {o : Outcome} {r : Return} : (n.conn p).stage = .ioctl seekto →
      o.Good → Call.exec k o (some (n.file p)) (.ioctl AESDCHAR_IOCSEEKTO seekto) n.sys = .ok r →
      Step k p n ((n.goto p (n.conn p).onIoctl).returned p r)
  | write {n : Net ι} {chunk : List UInt8} {node : List (List UInt8)} {o : Outcome} {r : Return} :
      (n.conn p).stage = .write (chunk :: node) →
      Call.exec k o (some (n.file p)) (.write (some chunk)) n.sys = .ok r → r.ret = some (chunk.length : Int) →
      Step k p n ((n.goto p ((n.conn p).onWrite node)).returned p r)
  | unlock {n : Net ι} : (n.conn p).stage = .unlock →
      Step k p n
        { n.goto p (n.conn p).onUnlock with
          mutex := none, readFrom := Function.update n.readFrom p (n.file p).fPos }
  | read {n : Net ι} {o : Outcome} {r : Return} : (n.conn p).stage = .read → o.Good →
      Call.exec k o (some (n.file p)) (.read true BUFFER_SIZE) n.sys = .ok r →
      Step k p n ((n.goto p ((n.conn p).onRead r.data)).returned p r)
  | send {n : Net ι} {buffer : List Cell} : (n.conn p).stage = .send buffer →
      Step k p n
        { n.goto p (n.conn p).onSend with
          response := Function.update n.response p (n.response p ++ buffer) }
  | close {n : Net ι} : (n.conn p).stage = .close → Step k p n (n.goto p (n.conn p).onClose)

/-- The next call of connection `p` fails. The server goes on without the bytes,
the file or the seek, and as if `send` had accepted its whole buffer. -/
inductive Net.Fail (k : Kernel) (p : ι) : Net ι → Net ι → Prop
  | recv {n : Net ι} : (n.conn p).stage = .recv → Fail k p n (n.goto p ((n.conn p).onRecv []))
  | openFile {n : Net ι} : (n.conn p).stage = .openFile → Fail k p n (n.goto p ((n.conn p).onOpen false))
  | ioctl {n : Net ι} {seekto : AesdSeekto} {o : Outcome} {r : Return} : (n.conn p).stage = .ioctl seekto →
      Call.exec k o (some (n.file p)) (.ioctl AESDCHAR_IOCSEEKTO seekto) n.sys = .ok r → r.ret ≠ some 0 →
      Fail k p n ((n.goto p (n.conn p).onIoctl).returned p r)
  | write {n : Net ι} {chunk : List UInt8} {node : List (List UInt8)} {o : Outcome} {r : Return} {ret : Int} :
      (n.conn p).stage = .write (chunk :: node) →
      Call.exec k o (some (n.file p)) (.write (some chunk)) n.sys = .ok r → r.ret = some ret →
      ret ≠ chunk.length → Fail k p n ((n.goto p ((n.conn p).onWrite node)).returned p r)
  /-- A signal ends the wait for the lock. -/
  | read {n : Net ι} {o : Outcome} {r : Return} : (n.conn p).stage = .read → o.interrupted = true →
      Call.exec k o (some (n.file p)) (.read true BUFFER_SIZE) n.sys = .ok r →
      Fail k p n ((n.goto p ((n.conn p).onRead r.data)).returned p r)
  | send {n : Net ι} {buffer : List Cell} (accepted : Nat) : (n.conn p).stage = .send buffer →
      accepted < buffer.length →
      Fail k p n
        { n.goto p (n.conn p).onSend with
          response := Function.update n.response p (n.response p ++ buffer.take accepted) }

/-- A step of any connection. -/
def Net.AnyStep (k : Kernel) (n n' : Net ι) : Prop := ∃ p, Net.Step k p n n'

end Steps

/-! ## A file that is read to its end -/

section Calls

variable {k : Kernel} {s : Sys} {ring rest : List (Nat × List Cell)} {pend : List Cell} {o : Outcome} {f : File}
  {r : Return}

/-- A file that has delivered these bytes since it was at `start`. -/
def Delivered (s : Sys) (f : File) (start : Int) (got : List Cell) : Prop :=
  ∃ pos from_ : Nat, f = ⟨true, pos⟩ ∧ pos < 2 ^ 63 ∧ start = from_ ∧ Follows s.contents from_ pos got

/-- A read of what a file has not delivered yet: it goes on, or the file has delivered everything. -/
theorem Delivered.read (h : Holds k s ring pend rest) (hl : s.dev.lock = false) (ho : o.Good) {start : Int}
    {got : List Cell} (hdel : Delivered s f start got)
    (he : Call.exec k o (some f) (.read true BUFFER_SIZE) s = .ok r) :
    r.sys = s ∧ ((r.data = [] ∧ got = s.contents.drop start.toNat) ∨
      (r.data ≠ [] ∧ f.fPos.toNat < r.fPos.toNat ∧ r.fPos.toNat ≤ s.contents.length ∧
        Delivered s { f with fPos := r.fPos } start (got ++ r.data))) := by
  obtain ⟨pos, from_, rfl, hlt, rfl, hfol⟩ := hdel
  obtain ⟨hsys, hdata, hpos, -⟩ := read_done h hl ho rfl rfl hlt he
  refine ⟨hsys, ?_⟩
  rw [h.contents_eq, contents] at hfol
  by_cases hd : r.data = []
  · -- the end of the contents
    have hend : (ring.map Prod.snd).flatten.length ≤ pos := by
      rw [← restAt_eq_nil_iff]
      rw [hdata, List.take_eq_nil_iff] at hd
      exact hd.resolve_left (by decide)
    refine .inl ⟨hd, ?_⟩
    rw [Int.toNat_natCast, h.contents_eq, contents]
    exact hfol.all hend
  · have hlen := List.length_pos_iff.2 hd
    have hcont := h.contents_lt
    rw [hdata] at hd
    have hread := hfol.read BUFFER_SIZE hd
    rw [← hdata] at hread
    have hle : pos + r.data.length ≤ (contents ring).length := by
      rcases hread with ⟨hnil, -⟩ | ⟨-, hle, -⟩
      · rw [hdata] at hnil
        exact absurd (List.append_eq_nil_iff.1 hnil).2 hd
      · exact hle
    refine .inr ⟨by rw [hdata]; exact hd, ?_, ?_, pos + r.data.length, from_, by rw [hpos], by omega, rfl, ?_⟩
    · rw [hpos]; simp only [Int.toNat_natCast]; omega
    · rw [hpos, Int.toNat_natCast, h.contents_eq]; exact hle
    · rw [h.contents_eq, contents]
      exact hread

end Calls

end Aesd
