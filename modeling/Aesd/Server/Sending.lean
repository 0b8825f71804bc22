import Aesd.Server.Copying
/-!
# What is sent of what is read

`send` returns how many bytes it has taken. The loop that sends the response
does not look at it, and goes on with the next read: the bytes that were left
are lost, and those behind them move up.
-/

namespace Aesd

open SysLib

/-- A connection has read these bytes and not sent them yet. -/
def Stage.unsent : Stage → List Cell
  | .send buffer => buffer
  | _ => []

/-- A call of `send` on a connection that stays open: its buffer, and how many of
the bytes it has accepted. -/
structure SendCall where
  buffer : List Cell
  accepted : Nat
  pos : 1 ≤ accepted
  le : accepted ≤ buffer.length

/-- The bytes that go to the client. -/
def SendCall.taken (c : SendCall) : List Cell := c.buffer.take c.accepted

theorem SendCall.taken_eq_iff {c : SendCall} : c.taken = c.buffer ↔ c.accepted = c.buffer.length := by
  have hle := c.le
  rw [taken, List.take_eq_self_iff]
  omega

/-- Connections, and for each of them what its reads have returned and its calls
of `send` have accepted. -/
structure Traffic (ι : Type) where
  net : Net ι
  reads : ι → List Cell
  sends : ι → List SendCall

namespace Traffic

def start {ι : Type} (s : Sys) (streams : ι → List UInt8) : Traffic ι := ⟨.start s streams, fun _ => [], fun _ => []⟩

section Steps

variable {ι : Type} [DecidableEq ι]

/-- The next call of connection `p`. A read may fail, or copy a part of its bytes
and return another number; `send` may accept a part of them. -/
inductive Step (k : Kernel) (p : ι) : Traffic ι → Traffic ι → Prop
  | call {t : Traffic ι} {n : Net ι} : (t.net.conn p).stage ≠ .read →
      (∀ buffer, (t.net.conn p).stage ≠ .send buffer) → Net.Goes k p t.net n → Step k p t { t with net := n }
  | read {t : Traffic ι} {o : Outcome} {r : Return} {ret : Int} : (t.net.conn p).stage = .read →
      Call.exec k o (some (t.net.file p)) (.read true BUFFER_SIZE) t.net.sys = .ok r → r.ret = some ret →
      Step k p t
        { t with
          net := (t.net.goto p ((t.net.conn p).onRead (r.data.take ret.toNat))).returned p r
          reads := Function.update t.reads p (t.reads p ++ r.data.take ret.toNat) }
  | send {t : Traffic ι} (c : SendCall) : (t.net.conn p).stage = .send c.buffer →
      Step k p t
        { t with
          net := { t.net.goto p (t.net.conn p).onSend with
            response := Function.update t.net.response p (t.net.response p ++ c.taken) }
          sends := Function.update t.sends p (t.sends p ++ [c]) }

/-- A step of any connection. -/
def AnyStep (k : Kernel) (t t' : Traffic ι) : Prop := ∃ p, Step k p t t'

/-- The invariant of connection `p`. -/
structure Inv (t : Traffic ι) (p : ι) : Prop where
  sent : t.net.response p = (t.sends p).flatMap SendCall.taken
  read : t.reads p = (t.sends p).flatMap SendCall.buffer ++ (t.net.conn p).stage.unsent

variable {k : Kernel} {p q : ι} {t t' : Traffic ι}

/-! ## A step of the connection itself -/

theorem early_unsent {stage : Stage} (hs : stage.early = true) : stage.unsent = [] := by
  cases stage <;> first | rfl | cases hs

/-- Only a read gives a connection something to send. -/
theorem next_unsent {c c' : Conn} (h : Conn.Next c c') (hread : c.stage ≠ .read) : c'.stage.unsent = [] := by
  cases h with
  | recv bytes =>
    apply early_unsent
    unfold Conn.onRecv
    split
    · rfl
    · dsimp only
      split <;> rfl
  | lock =>
    apply early_unsent
    unfold Conn.onLock
    split
    · rfl
    · exact command_early _
  | openFile fileFd => exact early_unsent (command_early _)
  | ioctl => rfl
  | write => exact early_unsent (copyLoop_early _ _)
  | unlock =>
    unfold Conn.onUnlock
    dsimp only
    split <;> rfl
  | read buffer hs => exact absurd hs hread
  | send => rfl
  | close => rfl

/-- What a read returns is sent next. -/
theorem onRead_unsent (c : Conn) (buffer : List Cell) : (c.onRead buffer).stage.unsent = buffer := by
  unfold Conn.onRead
  dsimp only
  split
  · rename_i hnil
    exact hnil.symm
  · rfl

/-- Only `send` adds to a response. -/
theorem goes_response {n n' : Net ι} (hst : Net.Goes k p n n')
    (hsend : ∀ buffer, (n.conn p).stage ≠ .send buffer) : n'.response p = n.response p := by
  rcases hst with hst | hst
  · cases hst with
    | send hs => exact absurd hs (hsend _)
    | recv => rfl
    | hangup => rfl
    | lock => rfl
    | openFile => rfl
    | ioctl => rfl
    | write => rfl
    | unlock => rfl
    | read => rfl
    | close => rfl
  · cases hst with
    | send _ hs => exact absurd hs (hsend _)
    | recv => rfl
    | openFile => rfl
    | ioctl => rfl
    | write => rfl
    | read => rfl

/-- A step of the connection itself keeps the invariant. -/
theorem Inv.own (h : t.Inv p) (hst : Step k p t t') : t'.Inv p := by
  obtain ⟨hsent, hread⟩ := h
  cases hst with
  | call hr hs hgo =>
    have hold : (t.net.conn p).stage.unsent = [] := by
      cases hstage : (t.net.conn p).stage with
      | send buffer => exact absurd hstage (hs buffer)
      | _ => rfl
    constructor
    · rw [goes_response hgo hs]
      exact hsent
    · rw [next_unsent hgo.next hr]
      rwa [hold] at hread
  | read hs =>
    refine ⟨hsent, ?_⟩
    rw [hs] at hread
    simp only [Net.returned, Net.goto, Function.update_self, onRead_unsent]
    rw [hread]
    simp only [Stage.unsent, List.append_nil]
  | send c hs =>
    rw [hs] at hread
    constructor
    · simp only [Function.update_self]
      rw [hsent, List.flatMap_append, List.flatMap_singleton]
    · simp only [Net.goto, Function.update_self, Conn.onSend]
      rw [hread, List.flatMap_append, List.flatMap_singleton]
      simp only [Stage.unsent, List.append_nil]

/-- A call before the first read. -/
theorem Step.early {n : Net ι} (hs : (t.net.conn p).stage.early = true) (hgo : Net.Goes k p t.net n) :
    Step k p t { t with net := n } := by
  apply Step.call _ _ hgo
  · intro hread
    rw [hread] at hs
    cases hs
  · intro buffer hsend
    rw [hsend] at hs
    cases hs

/-! ## A step of another one -/

/-- What other connections cannot touch. -/
theorem Step.kept (hst : Step k q t t') (hq : p ≠ q) :
    Kept t.net t'.net p ∧ t'.reads p = t.reads p ∧ t'.sends p = t.sends p := by
  cases hst with
  | call _ _ hgo => exact ⟨hgo.kept hq, rfl, rfl⟩
  | read =>
    refine ⟨?_, Function.update_of_ne hq _ _, rfl⟩
    constructor <;> first | rfl | exact Function.update_of_ne hq _ _
  | send =>
    refine ⟨?_, rfl, Function.update_of_ne hq _ _⟩
    constructor <;> first | rfl | exact Function.update_of_ne hq _ _

/-- Every step keeps the invariant. -/
theorem Inv.step (h : t.Inv p) (hst : AnyStep k t t') : t'.Inv p := by
  obtain ⟨q, hst⟩ := hst
  by_cases hq : p = q
  · subst hq
    exact h.own hst
  · obtain ⟨hk, hreads, hsends⟩ := hst.kept hq
    constructor
    · rw [hk.response, hsends]
      exact h.sent
    · rw [hreads, hsends, hk.conn]
      exact h.read

theorem inv_of_run {s : Sys} {streams : ι → List UInt8} {l : List (Traffic ι)}
    (hrun : Run (AnyStep k) (Traffic.start s streams) l t) (p : ι) : t.Inv p := by
  apply hrun.inv fun t => t.Inv p
  · exact ⟨rfl, rfl⟩
  · intro t t' h hst
    exact h.step hst

end Steps

end Traffic

theorem SendCall.taken_prefix (c : SendCall) : c.taken <+: c.buffer := List.take_prefix _ _

/-- What reaches the client has been read, in this order. -/
theorem response_sublist {k : Kernel} {ι : Type} [DecidableEq ι] {s : Sys} {streams : ι → List UInt8}
    {l : List (Traffic ι)} {t : Traffic ι} (hrun : Run (Traffic.AnyStep k) (Traffic.start s streams) l t) (p : ι) :
    (t.net.response p).Sublist (t.reads p) := by
  obtain ⟨hsent, hread⟩ := Traffic.inv_of_run hrun p
  rw [hsent, hread]
  apply List.Sublist.trans
  · exact sublist_flatMap fun c _ => c.taken_prefix
  · exact List.sublist_append_left _ _

/-- In every run of connections that share the device, whatever it holds and
whatever the calls return: the bytes that `send` has accepted on a connection,
and the bytes it has still to be called for, are those that the reads have
returned, if and only if every `send` has accepted all bytes of its buffer. -/
theorem response_whole_iff (k : Kernel) {ι : Type} [DecidableEq ι] (s : Sys) (streams : ι → List UInt8)
    {l : List (Traffic ι)} {t : Traffic ι} (hrun : Run (Traffic.AnyStep k) (Traffic.start s streams) l t) (p : ι) :
    t.net.response p ++ (t.net.conn p).stage.unsent = t.reads p ↔
      ∀ c ∈ t.sends p, c.accepted = c.buffer.length := by
  obtain ⟨hsent, hread⟩ := Traffic.inv_of_run hrun p
  rw [hsent, hread, List.append_cancel_right_eq, flatMap_prefix_eq_iff fun c _ => c.taken_prefix]
  constructor
  · intro hall c hc
    exact SendCall.taken_eq_iff.1 (hall c hc)
  · intro hall c hc
    exact SendCall.taken_eq_iff.2 (hall c hc)

/-- A line is stored and read back, and `send` accepts so many of its two bytes. -/
theorem line_answered {accepted : Nat} (hpos : 1 ≤ accepted) (hle : accepted ≤ 2) :
    ∃ l t, Run (Traffic.AnyStep .pages4K) (Traffic.start aesdInitModule fun _ : Unit => [97, newline]) l t ∧
      (t.net.conn ()).stage = .finished ∧ t.reads () = [some 97, some newline] ∧
      t.sends () = [⟨[some 97, some newline], accepted, hpos, hle⟩] ∧
      t.net.response () = [some 97, some newline].take accepted := by
  have h0 : Run (Traffic.AnyStep .pages4K) (Traffic.start aesdInitModule fun _ : Unit => [97, newline]) [] _ := .nil
  have h1 := h0.snoc ⟨(), .early rfl (.inl (.recv [97, newline] [] rfl rfl (by decide) (by decide)))⟩
  have h2 := h1.snoc ⟨(), .early rfl (.inl (.lock rfl rfl))⟩
  have h3 := h2.snoc ⟨(), .early rfl (.inl (.openFile rfl))⟩
  have h4 := h3.snoc ⟨(), .early rfl (.inl (.write (o := ⟨false, some 0, some 0, 0⟩) rfl rfl rfl))⟩
  have h5 := h4.snoc ⟨(), .early rfl (.inl (.unlock rfl))⟩
  have h6 := h5.snoc ⟨(), .read (o := ⟨false, none, none, 0⟩) rfl rfl rfl⟩
  have h7 := h6.snoc ⟨(), .send ⟨[some 97, some newline], accepted, hpos, hle⟩
    (show _ = Stage.send [some 97, some newline] by decide +kernel)⟩
  have h8 := h7.snoc ⟨(), .read (o := ⟨false, none, none, 0⟩) rfl rfl rfl⟩
  have h9 := h8.snoc ⟨(), .call (by intro hs; cases hs) (by intro buffer hs; cases hs) (.inl (.close rfl))⟩
  exact ⟨_, _, h9, rfl, rfl, rfl, rfl⟩

/-- The line is sent back as a whole. -/
theorem response_whole_line :
    ∃ l t, Run (Traffic.AnyStep .pages4K) (Traffic.start aesdInitModule fun _ : Unit => [97, newline]) l t ∧
      t.net.response () ++ (t.net.conn ()).stage.unsent = t.reads () := by
  obtain ⟨l, t, hrun, -, -, hsends, -⟩ := @line_answered 2 (by decide) (by decide)
  refine ⟨l, t, hrun, (response_whole_iff _ _ _ hrun ()).2 ?_⟩
  rw [hsends]
  exact List.forall_mem_singleton.2 rfl

/-- Of the line one byte is accepted, and the newline never reaches the client. -/
theorem response_cut :
    ∃ l t, Run (Traffic.AnyStep .pages4K) (Traffic.start aesdInitModule fun _ : Unit => [97, newline]) l t ∧
      (t.net.conn ()).stage = .finished ∧ t.reads () = [some 97, some newline] ∧ t.net.response () = [some 97] := by
  obtain ⟨l, t, hrun, hfin, hreads, -, hresp⟩ := @line_answered 1 (by decide) (by decide)
  exact ⟨l, t, hrun, hfin, hreads, hresp⟩

end Aesd
