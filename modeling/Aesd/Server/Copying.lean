import Aesd.Server.Commit
import Aesd.Server.Release
import Aesd.Server.Snapshot
/-!
# What the loop of writes notices

`write` returns how many bytes it has taken, or -1. The loop that copies the
chunks keeps that in a `size_t`, in which -1 is the largest number there is: it
notices a write that is too short, and takes one that fails for a complete one.
The driver has no short writes, so with the device it notices nothing.
-/

namespace Aesd

open SysLib

/-! ## The chunks -/

/-- One turn of the loop that copies the chunks: the buffer of the node, and what
`write` has returned, which is -1 or how many of its bytes it has taken. -/
structure WriteTurn where
  buffer : List UInt8
  ret : Int
  returned : ret = -1 ∨ (0 ≤ ret ∧ ret ≤ buffer.length)

namespace WriteTurn

def bytesToWrite (t : WriteTurn) : Nat := t.buffer.length

/-- The `ssize_t` that `write` returns is stored in a `size_t`. -/
def bytesWritten (t : WriteTurn) : Nat := toSizeT t.ret

/-- Whether the loop logs that fewer bytes were written than there are. -/
def errorBranch (t : WriteTurn) : Bool := t.bytesWritten < t.bytesToWrite

/-- The bytes that have gone to the file. -/
def transferred (t : WriteTurn) : List UInt8 := t.buffer.take t.ret.toNat

theorem transferred_prefix (t : WriteTurn) : t.transferred <+: t.buffer := List.take_prefix _ _

section Turn

variable {t : WriteTurn}

theorem transferred_eq_iff : t.transferred = t.buffer ↔ t.buffer.length ≤ t.ret.toNat := List.take_eq_self_iff _

/-- A failed write is none of too few bytes. -/
theorem errorBranch_failed (h : t.ret = -1) (hlt : t.buffer.length < sizeTMod) : t.errorBranch = false := by
  have hmax : toSizeT (-1) = sizeTMax := by decide
  rw [errorBranch, bytesWritten, bytesToWrite, h, hmax, decide_eq_false_iff_not, sizeTMax]
  omega

/-- The error branch is where a write that has not failed has left bytes over. -/
theorem errorBranch_iff (h : t.ret ≠ -1) (hlt : t.buffer.length < sizeTMod) :
    t.errorBranch = true ↔ t.transferred ≠ t.buffer := by
  obtain ⟨h0, hle⟩ := t.returned.resolve_left h
  have hsize : toSizeT t.ret = t.ret.toNat := by
    unfold toSizeT
    unfold sizeTMod at hlt
    omega
  rw [ne_eq, transferred_eq_iff, errorBranch, bytesWritten, bytesToWrite, decide_eq_true_eq, hsize, Nat.not_le]

theorem errorBranch_complete (h : t.ret = t.buffer.length) (hlt : t.buffer.length < sizeTMod) :
    t.errorBranch = false := by
  have hall : t.transferred = t.buffer := transferred_eq_iff.2 (by omega)
  rw [← Bool.not_eq_true, errorBranch_iff (by omega) hlt]
  exact not_not.2 hall

end Turn

end WriteTurn

/-- Either all bytes have gone to the file in order, or the loop has taken its
error branch at each buffer of which some have not. -/
def Detected (turns : List WriteTurn) : Prop :=
  turns.flatMap WriteTurn.transferred = turns.flatMap WriteTurn.buffer ∨
    ∀ t ∈ turns, t.transferred ≠ t.buffer → t.errorBranch = true

/-- Buffers that are not empty and shorter than the largest `size_t`. -/
theorem detected_iff {turns : List WriteTurn} (hne : ∀ t ∈ turns, t.buffer ≠ [])
    (hlt : ∀ t ∈ turns, t.buffer.length < sizeTMod) : Detected turns ↔ ∀ t ∈ turns, t.ret ≠ -1 := by
  constructor
  · intro h t ht hfail
    have hleft : t.transferred ≠ t.buffer := by
      rw [ne_eq, WriteTurn.transferred_eq_iff, hfail]
      exact Nat.not_le.2 (List.length_pos_iff.2 (hne t ht))
    rcases h with hall | hbranch
    · exact hleft ((flatMap_prefix_eq_iff fun t _ => t.transferred_prefix).1 hall t ht)
    · have htrue := hbranch t ht hleft
      rw [WriteTurn.errorBranch_failed hfail (hlt t ht)] at htrue
      cases htrue
  · intro h
    refine .inr ?_
    intro t ht hleft
    exact (WriteTurn.errorBranch_iff (h t ht) (hlt t ht)).2 hleft

/-- A connection, and the turns of its loop so far. -/
structure Copying where
  conn : Conn
  turns : List WriteTurn

namespace Copying

def start : Copying := ⟨.start, []⟩

/-- A call of a connection returns; of `write` it is told what. -/
inductive Step : Copying → Copying → Prop
  | write {c : Copying} (t : WriteTurn) {node : List (List UInt8)} : c.conn.stage = .write (t.buffer :: node) →
      Step c ⟨c.conn.onWrite node, c.turns ++ [t]⟩
  | other {c : Copying} {conn : Conn} : (∀ node, c.conn.stage ≠ .write node) → Conn.Next c.conn conn →
      Step c { c with conn := conn }

/-- The chunks that are left to write, by the connection's next call. -/
def Left (c : Copying) (rest : List (List UInt8)) : Prop :=
  match c.conn.stage with
  | .recv => c.turns = []
  | .lock => c.turns = []
  | .openFile => c.turns = []
  | .ioctl _ => findCommand c.conn.chunks AESDCHAR_IOCSEEKTO_CMD ≠ none
  | .write node => rest = node
  | _ => rest = [] ∨ c.conn.fileFd = false ∨ findCommand c.conn.chunks AESDCHAR_IOCSEEKTO_CMD ≠ none

/-- The invariant: what has been written and what is left is what was received. -/
structure Inv (c : Copying) : Prop where
  nonempty : ∀ chunk ∈ c.conn.chunks, chunk ≠ []
  small : ∀ chunk ∈ c.conn.chunks, chunk.length ≤ BUFFER_SIZE
  copied : ∃ rest, c.turns.map WriteTurn.buffer ++ rest = c.conn.chunks ∧ c.Left rest

section Steps

variable {c c' : Copying} {conn : Conn}

theorem left_wrote_iff (hs : c.conn.stage.wrote = true) {rest : List (List UInt8)} :
    c.Left rest ↔ rest = [] ∨ c.conn.fileFd = false ∨ findCommand c.conn.chunks AESDCHAR_IOCSEEKTO_CMD ≠ none := by
  unfold Left
  cases hstage : c.conn.stage <;> first | exact Iff.rfl | (rw [hstage] at hs; cases hs)

theorem left_copyLoop {node : List (List UInt8)} (hs : c.conn.stage = Conn.copyLoop c.conn.fileFd node) :
    c.Left node := by
  unfold Left
  rw [hs, Conn.copyLoop]
  by_cases hgo : c.conn.fileFd = true ∧ node ≠ []
  · rw [if_pos hgo]
  · rw [if_neg hgo]
    cases hfd : c.conn.fileFd with
    | false => exact .inr (.inl rfl)
    | true => exact .inl (not_not.1 fun hne => hgo ⟨hfd, hne⟩)

theorem left_command (hs : c.conn.stage = c.conn.command) : c.Left c.conn.chunks := by
  cases hfound : findCommand c.conn.chunks AESDCHAR_IOCSEEKTO_CMD with
  | some seekto =>
    unfold Left
    rw [hs, Conn.command, hfound]
    exact Option.some_ne_none _
  | none =>
    apply left_copyLoop
    rw [hs, Conn.command, hfound]

/-- Before the first turn all chunks are left. -/
theorem copied_of_nil (ht : c.turns = []) (hleft : c.Left c.conn.chunks) :
    ∃ rest, c.turns.map WriteTurn.buffer ++ rest = c.conn.chunks ∧ c.Left rest := by
  refine ⟨c.conn.chunks, ?_, hleft⟩
  rw [ht]
  rfl

theorem Inv.recv (h : c.Inv) (hs : c.conn.stage = .recv) {bytes : List UInt8} (hlen : bytes.length ≤ BUFFER_SIZE) :
    Inv { c with conn := c.conn.onRecv bytes } := by
  obtain ⟨hne, hsmall, rest, -, hleft⟩ := h
  have ht : c.turns = [] := by
    unfold Left at hleft
    rwa [hs] at hleft
  by_cases hnil : bytes = []
  · rw [hnil, Conn.onRecv_end]
    exact ⟨hne, hsmall, copied_of_nil ht ht⟩
  have hne' : ∀ chunk ∈ c.conn.chunks ++ [bytes], chunk ≠ [] :=
    List.forall_mem_append.2 ⟨hne, List.forall_mem_singleton.2 hnil⟩
  have hsmall' : ∀ chunk ∈ c.conn.chunks ++ [bytes], chunk.length ≤ BUFFER_SIZE :=
    List.forall_mem_append.2 ⟨hsmall, List.forall_mem_singleton.2 hlen⟩
  by_cases hline : newline ∈ bytes
  · rw [Conn.onRecv_line _ hnil hline]
    exact ⟨hne', hsmall', copied_of_nil ht ht⟩
  · rw [Conn.onRecv_more _ hnil hline]
    refine ⟨hne', hsmall', copied_of_nil ht ?_⟩
    unfold Left
    exact ht

theorem Inv.wrote (h : c.Inv) (hs : c.conn.stage.wrote = true) {stage : Stage} (hs' : stage.wrote = true) :
    Inv { c with conn := { c.conn with stage := stage } } := by
  obtain ⟨hne, hsmall, rest, hall, hleft⟩ := h
  refine ⟨hne, hsmall, rest, hall, ?_⟩
  rw [left_wrote_iff hs] at hleft
  rw [left_wrote_iff hs']
  exact hleft

theorem Inv.other (h : c.Inv) (hw : ∀ node, c.conn.stage ≠ .write node) (hn : Conn.Next c.conn conn) :
    Inv { c with conn := conn } := by
  have h' := h
  obtain ⟨hne, hsmall, rest, hall, hleft⟩ := h'
  unfold Left at hleft
  cases hn with
  | recv bytes hs hlen => exact h.recv hs hlen
  | lock hs =>
    rw [hs] at hleft
    unfold Conn.onLock
    split
    · exact ⟨hne, hsmall, copied_of_nil hleft hleft⟩
    · exact ⟨hne, hsmall, copied_of_nil hleft (left_command rfl)⟩
  | openFile fileFd hs =>
    rw [hs] at hleft
    exact ⟨hne, hsmall, copied_of_nil hleft (left_command rfl)⟩
  | ioctl hs =>
    rw [hs] at hleft
    exact ⟨hne, hsmall, rest, hall, .inr (.inr hleft)⟩
  | write hs => exact absurd hs (hw _)
  | unlock hs =>
    apply h.wrote
    · rw [hs]
      rfl
    · split <;> rfl
  | read buffer hs =>
    apply h.wrote
    · rw [hs]
      rfl
    · split <;> rfl
  | send hs => exact h.wrote (by rw [hs]; rfl) rfl
  | close hs => exact h.wrote (by rw [hs]; rfl) rfl

/-- Every step keeps the invariant. -/
theorem Inv.step (h : c.Inv) (hst : Step c c') : c'.Inv := by
  cases hst with
  | other hw hn => exact h.other hw hn
  | write t hs =>
    obtain ⟨hne, hsmall, rest, hall, hleft⟩ := h
    unfold Left at hleft
    rw [hs] at hleft
    subst hleft
    refine ⟨hne, hsmall, _, ?_, left_copyLoop rfl⟩
    rw [List.map_append, List.append_assoc]
    exact hall

theorem inv_of_run {states : List Copying} (hrun : Run Step start states c) : c.Inv := by
  apply hrun.inv Inv
  · exact ⟨List.forall_mem_nil _, List.forall_mem_nil _, [], rfl, rfl⟩
  · intro c c' h hst
    exact h.step hst

end Steps

/-- Whatever `write` returns for the chunks that are left, there is a run in which it does. -/
theorem runs_of_turns (hfd : c.conn.fileFd = true) (turns : List WriteTurn)
    (hs : c.conn.stage = Conn.copyLoop true (turns.map WriteTurn.buffer)) :
    ∃ states, Run Step c states ⟨{ c.conn with stage := .unlock }, c.turns ++ turns⟩ := by
  induction turns generalizing c with
  | nil =>
    refine ⟨[], ?_⟩
    have hc : c = ⟨{ c.conn with stage := .unlock }, c.turns ++ []⟩ := by
      rw [List.append_nil, ← show c.conn.stage = .unlock from hs]
    rw [← hc]
    exact .nil
  | cons t turns ih =>
    have hst : Step c ⟨c.conn.onWrite (turns.map WriteTurn.buffer), c.turns ++ [t]⟩ := by
      apply Step.write
      rw [hs, List.map_cons]
      exact if_pos ⟨rfl, List.cons_ne_nil _ _⟩
    obtain ⟨states, hrun⟩ := @ih ⟨c.conn.onWrite (turns.map WriteTurn.buffer), c.turns ++ [t]⟩ hfd (by
      rw [← hfd]
      rfl)
    rw [List.append_assoc] at hrun
    exact ⟨_, Run.head hst hrun⟩

end Copying

/-- In every run of a connection, whatever it receives and its calls return, the
loop writes the chunks received, all of them by its end if the message is data
and the file is open. And either all bytes of the chunks written have gone to
the file in order, or each chunk of which some have not has taken the error
branch, if and only if no `write` has returned -1. -/
theorem writes_detected_iff {states : List Copying} {c : Copying} (hrun : Run Copying.Step Copying.start states c) :
    (c.conn.stage.wrote = true → c.conn.fileFd = true → findCommand c.conn.chunks AESDCHAR_IOCSEEKTO_CMD = none →
      c.turns.map WriteTurn.buffer = c.conn.chunks) ∧
      (Detected c.turns ↔ ∀ t ∈ c.turns, t.ret ≠ -1) := by
  have h := Copying.inv_of_run hrun
  obtain ⟨rest, hall, hleft⟩ := h.copied
  constructor
  · intro hs hfd hnone
    rw [Copying.left_wrote_iff hs, hfd, hnone] at hleft
    have hrest : rest = [] := by simpa using hleft
    rwa [hrest, List.append_nil] at hall
  · have hmem : ∀ t ∈ c.turns, t.buffer ∈ c.conn.chunks := by
      intro t ht
      rw [← hall]
      exact List.mem_append_left _ (List.mem_map_of_mem ht)
    apply detected_iff
    · intro t ht
      exact h.nonempty _ (hmem t ht)
    · intro t ht
      exact Nat.lt_of_le_of_lt (h.small _ (hmem t ht)) (by decide)

/-- Two chunks; of the first, no byte is written. -/
theorem writes_detected_short :
    ∃ states c, Run Copying.Step Copying.start states c ∧ c.conn.stage = .unlock ∧
      c.turns.map WriteTurn.buffer = [[97], [newline]] ∧ c.turns.map WriteTurn.errorBranch = [true, false] ∧
      Detected c.turns := by
  have h0 : Run Copying.Step Copying.start [] _ := .nil
  have h1 := h0.snoc (.other (by intro node hs; cases hs) (.recv [97] rfl (by decide)))
  have h2 := h1.snoc (.other (by intro node hs; cases hs) (.recv [newline] rfl (by decide)))
  have h3 := h2.snoc (.other (by intro node hs; cases hs) (.lock rfl))
  have h4 := h3.snoc (.other (by intro node hs; cases hs) (.openFile true rfl))
  have h5 := h4.snoc (.write ⟨[97], 0, by decide⟩ rfl)
  have h6 := h5.snoc (.write ⟨[newline], 1, by decide⟩ rfl)
  exact ⟨_, _, h6, rfl, rfl, by decide, (writes_detected_iff h6).2.2 (by decide)⟩

/-- A chunk whose write fails: its bytes are lost, and the loop takes it for written. -/
theorem write_failure_missed :
    ∃ states c, Run Copying.Step Copying.start states c ∧ c.conn.stage = .unlock ∧ c.conn.fileFd = true ∧
      c.conn.chunks = [[97, newline]] ∧ c.turns.map WriteTurn.ret = [-1] ∧ ¬ Detected c.turns := by
  have h0 : Run Copying.Step Copying.start [] _ := .nil
  have h1 := h0.snoc (.other (by intro node hs; cases hs) (.recv [97, newline] rfl (by decide)))
  have h2 := h1.snoc (.other (by intro node hs; cases hs) (.lock rfl))
  have h3 := h2.snoc (.other (by intro node hs; cases hs) (.openFile true rfl))
  have h4 := h3.snoc (.write ⟨[97, newline], -1, by decide⟩ rfl)
  refine ⟨_, _, h4, rfl, rfl, rfl, rfl, ?_⟩
  unfold Detected
  decide

/-! ## The chunks of connections that share the device -/

/-- What `write` returns where the driver returns this: a negative one is the
number of an error. -/
def writeReturns (ret : Int) : Int := if ret < 0 then -1 else ret

section Net

variable {k : Kernel} {ι : Type} [DecidableEq ι] {p q : ι} {n n' : Net ι}

/-- The next call of connection `p`, which may fail. -/
def Net.Goes (k : Kernel) (p : ι) (n n' : Net ι) : Prop := Net.Step k p n n' ∨ Net.Fail k p n n'

theorem Net.goto_next {c : Conn} (h : Conn.Next (n.conn p) c) : Conn.Next (n.conn p) ((n.goto p c).conn p) := by
  rwa [Net.goto_conn]

/-- A call of a connection among others is one of a connection. -/
theorem Net.Goes.next (hst : Net.Goes k p n n') : Conn.Next (n.conn p) (n'.conn p) := by
  rcases hst with hst | hst
  · cases hst with
    | recv bytes rest hs _ _ hlen => exact Net.goto_next (.recv bytes hs hlen)
    | hangup hs => exact Net.goto_next (.recv [] hs (Nat.zero_le _))
    | lock hs => exact Net.goto_next (.lock hs)
    | openFile hs => exact Net.goto_next (.openFile true hs)
    | ioctl hs => exact Net.goto_next (.ioctl hs)
    | write hs => exact Net.goto_next (.write hs)
    | unlock hs => exact Net.goto_next (.unlock hs)
    | read hs => exact Net.goto_next (.read _ hs)
    | send hs => exact Net.goto_next (.send hs)
    | close hs => exact Net.goto_next (.close hs)
  · cases hst with
    | recv hs => exact Net.goto_next (.recv [] hs (Nat.zero_le _))
    | openFile hs => exact Net.goto_next (.openFile false hs)
    | ioctl hs => exact Net.goto_next (.ioctl hs)
    | write hs => exact Net.goto_next (.write hs)
    | read hs => exact Net.goto_next (.read _ hs)
    | send _ hs => exact Net.goto_next (.send hs)

theorem Net.Goes.kept (hst : Net.Goes k q n n') (hq : p ≠ q) : Kept n n' p := by
  rcases hst with hst | hst
  · exact hst.kept hq
  · exact hst.kept hq

/-- The driver takes all bytes of a write or none, so no write to the device is too short. -/
theorem device_turn {ring rest : List (Nat × List Cell)} {pend : List Cell} {s : Sys} (h : Holds k s ring pend rest)
    {o : Outcome} {f : File} {r : Return} {chunk : List UInt8} {ret : Int}
    (he : Call.exec k o (some f) (.write (some chunk)) s = .ok r) (hr : r.ret = some ret)
    (hlt : chunk.length < sizeTMod) :
    ∃ t : WriteTurn, t.buffer = chunk ∧ t.ret = writeReturns ret ∧ t.errorBranch = false := by
  obtain ⟨-, ⟨hall, -⟩ | ⟨hneg, -⟩⟩ := write_returned h he hr
  · have hret : writeReturns ret = chunk.length := by
      rw [writeReturns, if_neg (by omega), hall]
    exact ⟨⟨chunk, writeReturns ret, .inr (by omega)⟩, rfl, rfl, WriteTurn.errorBranch_complete hret hlt⟩
  · have hret : writeReturns ret = -1 := if_pos hneg
    exact ⟨⟨chunk, writeReturns ret, .inl hret⟩, rfl, rfl, WriteTurn.errorBranch_failed hret hlt⟩

/-- A connection that is about to write makes a call of the driver, and goes on whatever it returns. -/
theorem Net.Goes.write_cases (hst : Net.Goes k p n n') {node : List (List UInt8)}
    (hs : (n.conn p).stage = .write node) :
    ∃ chunk rest o r ret, node = chunk :: rest ∧
      Call.exec k o (some (n.file p)) (.write (some chunk)) n.sys = .ok r ∧ r.ret = some ret ∧
      n'.conn p = (n.conn p).onWrite rest := by
  rcases hst with hst | hst
  · cases hst with
    | write hs' he hr =>
      obtain rfl := Stage.write.inj (hs.symm.trans hs')
      exact ⟨_, _, _, _, _, rfl, he, hr, n.goto_conn p _⟩
    | recv _ _ hs' => cases hs.symm.trans hs'
    | hangup hs' => cases hs.symm.trans hs'
    | lock hs' => cases hs.symm.trans hs'
    | openFile hs' => cases hs.symm.trans hs'
    | ioctl hs' => cases hs.symm.trans hs'
    | unlock hs' => cases hs.symm.trans hs'
    | read hs' => cases hs.symm.trans hs'
    | send hs' => cases hs.symm.trans hs'
    | close hs' => cases hs.symm.trans hs'
  · cases hst with
    | write hs' he hr =>
      obtain rfl := Stage.write.inj (hs.symm.trans hs')
      exact ⟨_, _, _, _, _, rfl, he, hr, n.goto_conn p _⟩
    | recv hs' => cases hs.symm.trans hs'
    | openFile hs' => cases hs.symm.trans hs'
    | ioctl hs' => cases hs.symm.trans hs'
    | read hs' => cases hs.symm.trans hs'
    | send _ hs' => cases hs.symm.trans hs'

/-- The driver's state stays sound, and its lock free. -/
theorem Net.Goes.ok (hok : Ok k n.sys) (hl : n.sys.dev.lock = false) (hst : Net.Goes k q n n') :
    Ok k n'.sys ∧ n'.sys.dev.lock = false := by
  obtain ⟨ring, pend, rest, h⟩ := hok
  rcases hst with hst | hst
  · obtain ⟨hok, hl, -⟩ := hst.contents h hl
    exact ⟨hok, hl⟩
  · obtain ⟨hok, hl, -⟩ := hst.contents h hl
    exact ⟨hok, hl⟩

/-- In every run of connections that share the device, each of them is a
connection whose loop never takes the error branch. -/
theorem copying_of_run {s : Sys} (hok : Ok k s) (hl : s.dev.lock = false) (streams : ι → List UInt8)
    {l : List (Net ι)} (hrun : Run (fun n n' => ∃ q, Net.Goes k q n n') (Net.start s streams) l n) (p : ι) :
    ∃ states c, Run Copying.Step Copying.start states c ∧ c.conn = n.conn p ∧ ∀ t ∈ c.turns, t.errorBranch = false := by
  have hall := hrun.inv (fun n => (Ok k n.sys ∧ n.sys.dev.lock = false) ∧ ∃ states c,
    Run Copying.Step Copying.start states c ∧ c.conn = n.conn p ∧ ∀ t ∈ c.turns, t.errorBranch = false)
    ⟨⟨hok, hl⟩, [], Copying.start, .nil, rfl, List.forall_mem_nil _⟩ ?_
  · exact hall.2
  rintro n n' ⟨⟨hok, hl⟩, states, c, hc, hconn, hturns⟩ ⟨q, hst⟩
  refine ⟨hst.ok hok hl, ?_⟩
  by_cases hq : p = q
  case neg =>
    exact ⟨states, c, hc, hconn.trans (hst.kept hq).conn.symm, hturns⟩
  subst hq
  by_cases hw : ∃ node, c.conn.stage = .write node
  · obtain ⟨node, hs⟩ := hw
    obtain ⟨chunk, rest, o, r, ret, rfl, he, hr, hnext⟩ := hst.write_cases (hconn ▸ hs)
    obtain ⟨ring, pend, rest', h⟩ := hok
    -- the chunk is one of those received
    have hlt : chunk.length < sizeTMod := by
      obtain ⟨-, hsmall, left, hcopied, hleft⟩ := Copying.inv_of_run hc
      unfold Copying.Left at hleft
      rw [hs] at hleft
      have hmem : chunk ∈ c.conn.chunks := by
        rw [← hcopied, hleft]
        exact List.mem_append_right _ List.mem_cons_self
      exact Nat.lt_of_le_of_lt (hsmall chunk hmem) (by decide)
    obtain ⟨t, rfl, -, ht⟩ := device_turn h he hr hlt
    refine ⟨_, _, hc.snoc (.write t hs), ?_, ?_⟩
    · rw [hnext, hconn]
    · exact List.forall_mem_append.2 ⟨hturns, List.forall_mem_singleton.2 ht⟩
  · have hnext := hst.next
    rw [← hconn] at hnext
    exact ⟨_, _, hc.snoc (.other (fun node hs => hw ⟨node, hs⟩) hnext), rfl, hturns⟩

end Net

end Aesd
