import Aesd.Server.Net
/-!
# Connections that end early

A client may go away before it has sent a newline. The server writes what it has
received all the same, and the driver keeps it pending after the connection has
released `file_mutex`, so it becomes the beginning of the next client's entry.
Where no write leaves such bytes behind, every entry consists of bytes of one
client, however the connections interleave, end or fail.
-/

namespace Aesd

open SysLib

section Definitions

variable {ι : Type}

/-- The entry consists of bytes that one client has sent, in their order. -/
def OneSender (streams : ι → List UInt8) (entry : List Cell) : Prop :=
  ∃ p part, List.Sublist part (streams p) ∧ entry = part.map some

/-- A call of connection `p`, which may fail, but leaves no bytes behind: the
last chunk written ends a line, and a write that fails does so with nothing
pending, or in the middle of the packet without losing what is. -/
inductive Net.Tidy [DecidableEq ι] (k : Kernel) (p : ι) : Net ι → Net ι → Prop
  | step {n n' : Net ι} : Net.Step k p n n' → (∀ chunk, (n.conn p).stage = .write [chunk] → newline ∈ chunk) →
      Tidy k p n n'
  | fail {n n' : Net ι} : Net.Fail k p n n' → (∀ node, (n.conn p).stage ≠ .write node) → Tidy k p n n'
  | failWrite {n : Net ι} {chunk : List UInt8} {node : List (List UInt8)} {o : Outcome} {r : Return} {ret : Int} :
      (n.conn p).stage = .write (chunk :: node) →
      Call.exec k o (some (n.file p)) (.write (some chunk)) n.sys = .ok r → r.ret = some ret → ret ≠ chunk.length →
      n.sys.dev.newEntry.size = 0 ∨
        (node ≠ [] ∧ ¬ k.Refuses o.krealloc (n.sys.dev.newEntry.size + chunk.length)) →
      Tidy k p n ((n.goto p ((n.conn p).onWrite node)).returned p r)

/-- What holds of connection `p`, whose client sends `stream`, if the driver's
pending bytes are `pend`. -/
def Isolating (n : Net ι) (pend : List Cell) (stream : List UInt8) (p : ι) : Prop :=
  match (n.conn p).stage with
  | .recv => n.mutex ≠ some p ∧ (n.conn p).chunks.flatten ++ n.incoming p = stream
  | .lock => n.mutex ≠ some p ∧ (n.conn p).chunks.flatten <+: stream
  | .openFile => n.mutex = some p ∧ pend = [] ∧ (n.conn p).chunks.flatten <+: stream
  | .ioctl _ => n.mutex = some p ∧ pend = []
  | .write node => n.mutex = some p ∧ (n.conn p).fileFd = true ∧
      ∃ done part, (done ++ node).flatten <+: stream ∧ List.Sublist part done.flatten ∧ pend = part.map some
  | .unlock => n.mutex = some p ∧ pend = []
  | _ => n.mutex ≠ some p

/-- The invariant. -/
structure IsolationInv (k : Kernel) (s₀ : Sys) (streams : ι → List UInt8) (n : Net ι)
    (ring : List (Nat × List Cell)) (pend : List Cell) (rest : List (Nat × List Cell)) : Prop where
  holds : Holds k n.sys ring pend rest
  unlocked : n.sys.dev.lock = false
  free : n.mutex = none → pend = []
  conns : ∀ p, Isolating n pend (streams p) p
  committed : ∃ new, n.sys.committed = s₀.committed ++ new ∧ ∀ e ∈ new, OneSender streams e

end Definitions

section Steps

variable {ι : Type} {k : Kernel} {s₀ : Sys} {streams : ι → List UInt8} {n n' : Net ι}
  {ring rest : List (Nat × List Cell)} {pend pend' : List Cell} {p : ι}

theorem Isolating.frame {stream : List UInt8} (h : Isolating n pend stream p) (hconn : n'.conn p = n.conn p)
    (hin : n'.incoming p = n.incoming p) (hheld : n.mutex = some p → n'.mutex = some p ∧ pend' = pend)
    (hout : n.mutex ≠ some p → n'.mutex ≠ some p) : Isolating n' pend' stream p := by
  unfold Isolating at h ⊢
  rw [hconn, hin]
  cases hs : (n.conn p).stage with
  | recv => rw [hs] at h; exact ⟨hout h.1, h.2⟩
  | lock => rw [hs] at h; exact ⟨hout h.1, h.2⟩
  | openFile =>
    rw [hs] at h
    obtain ⟨hm, rfl⟩ := hheld h.1
    exact ⟨hm, h.2⟩
  | ioctl seekto =>
    rw [hs] at h
    obtain ⟨hm, rfl⟩ := hheld h.1
    exact ⟨hm, h.2⟩
  | write node =>
    rw [hs] at h
    obtain ⟨hm, rfl⟩ := hheld h.1
    exact ⟨hm, h.2⟩
  | unlock =>
    rw [hs] at h
    obtain ⟨hm, rfl⟩ := hheld h.1
    exact ⟨hm, h.2⟩
  | read => rw [hs] at h; exact hout h
  | send buffer => rw [hs] at h; exact hout h
  | close => rw [hs] at h; exact hout h
  | finished => rw [hs] at h; exact hout h

theorem IsolationInv.keep (h : IsolationInv k s₀ streams n ring pend rest) (hsys : n'.sys = n.sys)
    (hmutex : n'.mutex = n.mutex) (hother : ∀ q ≠ p, n'.conn q = n.conn q ∧ n'.incoming q = n.incoming q)
    (hp : Isolating n' pend (streams p) p) : IsolationInv k s₀ streams n' ring pend rest where
  holds := by rw [hsys]; exact h.holds
  unlocked := by rw [hsys]; exact h.unlocked
  free hm := h.free (hmutex ▸ hm)
  conns := by
    refine forall_of_step p h.conns (fun _ => hp) ?_
    intro q hq hprev
    exact hprev.frame (hother q hq).1 (hother q hq).2 (fun hm => ⟨hmutex ▸ hm, rfl⟩) (fun hm => hmutex ▸ hm)
  committed := by rw [hsys]; exact h.committed

theorem IsolationInv.held (h : IsolationInv k s₀ streams n ring pend rest) (hm : n.mutex = some p)
    {ring' rest' : List (Nat × List Cell)} (hholds : Holds k n'.sys ring' pend' rest')
    (hl : n'.sys.dev.lock = false) (hmutex : n'.mutex = some p)
    (hother : ∀ q ≠ p, n'.conn q = n.conn q ∧ n'.incoming q = n.incoming q)
    (hp : Isolating n' pend' (streams p) p)
    (hcom : ∃ new, n'.sys.committed = n.sys.committed ++ new ∧ ∀ e ∈ new, OneSender streams e) :
    IsolationInv k s₀ streams n' ring' pend' rest' where
  holds := hholds
  unlocked := hl
  free hn := by rw [hmutex] at hn; cases hn
  conns := by
    refine forall_of_step p h.conns (fun _ => hp) ?_
    intro q hq hprev
    have hout : n.mutex ≠ some q := fun hq' => hq (Option.some.inj (hm.symm.trans hq')).symm
    refine hprev.frame (hother q hq).1 (hother q hq).2 (fun hq' => absurd hq' hout) fun _ hq' => hq ?_
    exact (Option.some.inj (hmutex.symm.trans hq')).symm
  committed := by
    obtain ⟨new, hnew, hall⟩ := h.committed
    obtain ⟨more, hmore, hall'⟩ := hcom
    refine ⟨new ++ more, by rw [hmore, hnew, List.append_assoc], ?_⟩
    rw [List.forall_mem_append]
    exact ⟨hall, hall'⟩

theorem Isolating.command {c : Conn} {stream : List UInt8} (hconn : n'.conn p = { c with stage := c.command })
    (hm : n'.mutex = some p) (hpend : pend = []) (hpre : c.chunks.flatten <+: stream) : Isolating n' pend stream p := by
  unfold Isolating
  rw [hconn]
  dsimp only
  rw [Conn.command, Conn.copyLoop]
  cases findCommand c.chunks AESDCHAR_IOCSEEKTO_CMD with
  | some seekto => exact ⟨hm, hpend⟩
  | none =>
    dsimp only
    by_cases hopen : c.fileFd = true ∧ c.chunks ≠ []
    · rw [if_pos hopen]
      exact ⟨hm, hopen.1, [], [], hpre, List.Sublist.refl _, hpend⟩
    · rw [if_neg hopen]
      exact ⟨hm, hpend⟩

/-- A write has returned, and this is pending: there are more chunks, or nothing is pending. -/
theorem Isolating.written {stream : List UInt8} {node : List (List UInt8)} {done : List (List UInt8)} {part : List UInt8}
    (hconn : n'.conn p = (n.conn p).onWrite node) (hm : n'.mutex = some p) (hfd : (n.conn p).fileFd = true)
    (hpre : (done ++ node).flatten <+: stream) (hsub : List.Sublist part done.flatten) (hpend : pend' = part.map some)
    (hlast : node = [] → pend' = []) : Isolating n' pend' stream p := by
  unfold Isolating
  rw [hconn]
  by_cases hnode : node = []
  · rw [hnode, Conn.onWrite_last]
    exact ⟨hm, hlast hnode⟩
  · rw [Conn.onWrite_more _ hfd hnode]
    exact ⟨hm, hfd, done, part, hpre, hsub, hpend⟩

variable [DecidableEq ι]

theorem goto_other {q : ι} (hq : q ≠ p) (c : Conn) : (n.goto p c).conn q = n.conn q := Function.update_of_ne hq _ _

theorem IsolationInv.goto (h : IsolationInv k s₀ streams n ring pend rest) {c : Conn} (hconn : n'.conn = Function.update n.conn p c)
    (hsys : n'.sys = n.sys) (hmutex : n'.mutex = n.mutex) (hin : n'.incoming = n.incoming)
    (hp : Isolating n' pend (streams p) p) : IsolationInv k s₀ streams n' ring pend rest :=
  h.keep hsys hmutex (fun q hq => ⟨by rw [hconn, Function.update_of_ne hq], by rw [hin]⟩) hp

theorem IsolationInv.ended (h : IsolationInv k s₀ streams n ring pend rest) (hs : (n.conn p).stage = .recv) :
    IsolationInv k s₀ streams (n.goto p ((n.conn p).onRecv [])) ring pend rest := by
  have hp := h.conns p
  simp only [Isolating, hs] at hp
  refine h.goto rfl rfl rfl rfl ?_
  simp only [Isolating, Net.goto, Function.update_self, Conn.onRecv_end]
  exact ⟨hp.1, _, hp.2⟩

theorem IsolationInv.recv (h : IsolationInv k s₀ streams n ring pend rest) (hs : (n.conn p).stage = .recv)
    {bytes left : List UInt8} (hin : n.incoming p = bytes ++ left) (hne : bytes ≠ []) :
    IsolationInv k s₀ streams { n.goto p ((n.conn p).onRecv bytes) with incoming := Function.update n.incoming p left }
      ring pend rest := by
  have hp := h.conns p
  simp only [Isolating, hs] at hp
  obtain ⟨hm, hflat⟩ := hp
  have hflat' : ((n.conn p).chunks ++ [bytes]).flatten ++ left = streams p := by
    rw [hin] at hflat
    simpa using hflat
  refine h.keep (p := p) rfl rfl (fun q hq => ⟨goto_other hq _, Function.update_of_ne hq _ _⟩) ?_
  by_cases hb : newline ∈ bytes
  · simp only [Isolating, Net.goto, Function.update_self, Conn.onRecv_line _ hne hb]
    exact ⟨hm, left, hflat'⟩
  · simp only [Isolating, Net.goto, Function.update_self, Conn.onRecv_more _ hne hb]
    exact ⟨hm, hflat'⟩

theorem IsolationInv.lock (h : IsolationInv k s₀ streams n ring pend rest) (hs : (n.conn p).stage = .lock)
    (hfree : n.mutex = none) (acquired : List ι) :
    IsolationInv k s₀ streams { n.goto p (n.conn p).onLock with mutex := some p, acquired := acquired } ring pend rest := by
  have hp := h.conns p
  simp only [Isolating, hs] at hp
  obtain ⟨-, hpre⟩ := hp
  refine ⟨h.holds, h.unlocked, fun hm => (by cases hm), forall_of_step p h.conns ?_ ?_, h.committed⟩
  · intro _
    by_cases hne : (n.conn p).chunks ≠ []
    · simp only [Isolating, Net.goto, Function.update_self, Conn.onLock_data _ hne]
      exact ⟨trivial, h.free hfree, hpre⟩
    · have hlock : (n.conn p).onLock = { n.conn p with stage := (n.conn p).command } := if_neg hne
      exact Isolating.command (c := n.conn p) ((Function.update_self ..).trans hlock) rfl (h.free hfree) hpre
  · intro q hq hprev
    refine hprev.frame (goto_other hq _) rfl (fun hm => by rw [hfree] at hm; cases hm) fun _ hm => hq ?_
    exact (Option.some.inj hm).symm

theorem IsolationInv.unlock (h : IsolationInv k s₀ streams n ring pend rest) (hs : (n.conn p).stage = .unlock)
    (readFrom : ι → Int) :
    IsolationInv k s₀ streams { n.goto p (n.conn p).onUnlock with mutex := none, readFrom := readFrom } ring pend rest := by
  have hp := h.conns p
  simp only [Isolating, hs] at hp
  obtain ⟨hm, hpend⟩ := hp
  refine ⟨h.holds, h.unlocked, fun _ => hpend, forall_of_step p h.conns ?_ ?_, h.committed⟩
  · intro _
    simp only [Isolating, Net.goto, Function.update_self, Conn.onUnlock]
    cases (n.conn p).fileFd <;> simp
  · intro q hq hprev
    exact hprev.frame (goto_other hq _) rfl (fun hq' => absurd (Option.some.inj (hq'.symm.trans hm)) hq)
      fun _ => by simp

theorem IsolationInv.opened (h : IsolationInv k s₀ streams n ring pend rest) (hs : (n.conn p).stage = .openFile)
    (fileFd : Bool) (file : ι → File) :
    IsolationInv k s₀ streams { n.goto p ((n.conn p).onOpen fileFd) with file := file } ring pend rest := by
  have hp := h.conns p
  simp only [Isolating, hs] at hp
  obtain ⟨hm, hpend, hpre⟩ := hp
  exact h.goto rfl rfl rfl rfl
    (Isolating.command (c := { n.conn p with fileFd := fileFd }) (Function.update_self ..) hm hpend hpre)

theorem IsolationInv.quiet (h : IsolationInv k s₀ streams n ring pend rest) {r : Return} (hsys : r.sys = n.sys) {c : Conn}
    (hp : Isolating ((n.goto p c).returned p r) pend (streams p) p) :
    IsolationInv k s₀ streams ((n.goto p c).returned p r) ring pend rest :=
  h.goto rfl hsys rfl rfl hp

theorem Isolating.read (hm : n.mutex ≠ some p) {stream : List UInt8} (r : Return) (buffer : List Cell) :
    Isolating ((n.goto p ((n.conn p).onRead buffer)).returned p r) pend stream p := by
  simp only [Isolating, Net.goto, Net.returned, Function.update_self, Conn.onRead]
  by_cases hd : buffer = []
  · simp only [if_pos hd]; exact hm
  · simp only [if_neg hd]; exact hm

theorem IsolationInv.write (h : IsolationInv k s₀ streams n ring pend rest) {chunk : List UInt8}
    {node done : List (List UInt8)} {part : List UInt8} {r : Return} (hs : (n.conn p).stage = .write (chunk :: node))
    {ring' rest' : List (Nat × List Cell)} (hholds : Holds k r.sys ring' pend' rest') (hl : r.sys.dev.lock = false)
    (hpre : (done ++ node).flatten <+: streams p) (hsub : List.Sublist part done.flatten) (hpend : pend' = part.map some)
    (hlast : node = [] → pend' = [])
    (hcom : ∃ new, r.sys.committed = n.sys.committed ++ new ∧ ∀ e ∈ new, OneSender streams e) :
    IsolationInv k s₀ streams ((n.goto p ((n.conn p).onWrite node)).returned p r) ring' pend' rest' := by
  have hp := h.conns p
  simp only [Isolating, hs] at hp
  exact h.held hp.1 hholds hl hp.1 (fun q hq => ⟨goto_other hq _, rfl⟩)
    (Isolating.written (n := n) (Function.update_self ..) hp.1 hp.2.1 hpre hsub hpend hlast) hcom

/-- A write is complete, and the last chunk ends with a newline. -/
theorem IsolationInv.stored (h : IsolationInv k s₀ streams n ring pend rest) {chunk : List UInt8}
    {node : List (List UInt8)} {o : Outcome} {r : Return} (hs : (n.conn p).stage = .write (chunk :: node))
    (he : Call.exec k o (some (n.file p)) (.write (some chunk)) n.sys = .ok r) (hr : r.ret = some (chunk.length : Int))
    (hline : node = [] → newline ∈ chunk) :
    ∃ ring' pend' rest',
      IsolationInv k s₀ streams ((n.goto p ((n.conn p).onWrite node)).returned p r) ring' pend' rest' := by
  have hp := h.conns p
  simp only [Isolating, hs] at hp
  obtain ⟨hm, hfd, done, part, hpre, hsub, hpend⟩ := hp
  obtain ⟨-, hl, rest', hw⟩ := write_done h.holds he hr
  have hpre' : ((done ++ [chunk]) ++ node).flatten <+: streams p := by simpa using hpre
  have hsub' : List.Sublist (part ++ chunk) (done ++ [chunk]).flatten := by
    rw [List.flatten_append, List.flatten_singleton]
    exact hsub.append (List.Sublist.refl chunk)
  rcases hw with ⟨hnl, hcom, -, hholds⟩ | ⟨hnl, hcom, i, hholds⟩
  · -- the chunk joins the pending bytes, and is not the last one
    refine ⟨ring, _, rest', h.write hs hholds hl hpre' hsub' (by rw [hpend, List.map_append]) ?_ ⟨[], ?_⟩⟩
    · intro hnode
      exact absurd (hline hnode) hnl
    · exact ⟨by rw [hcom, List.append_nil], fun _ he => (by cases he)⟩
  · -- the chunk ends an entry
    refine ⟨_, [], rest', h.write hs hholds hl hpre' (List.nil_sublist _) rfl (fun _ => rfl) ⟨_, hcom, ?_⟩⟩
    intro e he
    obtain rfl := List.mem_singleton.1 he
    refine ⟨p, part ++ chunk, hsub'.trans ?_, by rw [hpend, List.map_append]⟩
    rw [List.flatten_append] at hpre'
    exact ((List.prefix_append _ _).trans hpre').sublist

theorem IsolationInv.send (h : IsolationInv k s₀ streams n ring pend rest) {buffer : List Cell}
    (hs : (n.conn p).stage = .send buffer) (response : ι → List Cell) :
    IsolationInv k s₀ streams { n.goto p (n.conn p).onSend with response := response } ring pend rest := by
  have hp := h.conns p
  simp only [Isolating, hs] at hp
  refine h.goto rfl rfl rfl rfl ?_
  simp only [Isolating, Net.goto, Function.update_self, Conn.onSend]
  exact hp

/-- Every successful call of every connection keeps the invariant. -/
theorem IsolationInv.step (h : IsolationInv k s₀ streams n ring pend rest) (hst : Net.Step k p n n')
    (hline : ∀ chunk, (n.conn p).stage = .write [chunk] → newline ∈ chunk) :
    ∃ ring' pend' rest', IsolationInv k s₀ streams n' ring' pend' rest' := by
  have hp := h.conns p
  unfold Isolating at hp
  cases hst with
  | recv bytes left hs hin hne _ => exact ⟨ring, pend, rest, h.recv hs hin hne⟩
  | hangup hs hin => exact ⟨ring, pend, rest, h.ended hs⟩
  | lock hs hfree => exact ⟨ring, pend, rest, h.lock hs hfree _⟩
  | openFile hs => exact ⟨ring, pend, rest, h.opened hs true _⟩
  | ioctl hs ho he =>
    rw [hs] at hp
    refine ⟨ring, pend, rest, h.quiet (ioctl_quiet h.holds h.unlocked he) ?_⟩
    simp only [Isolating, Net.goto, Net.returned, Function.update_self, Conn.onIoctl]
    exact hp
  | @write chunk node o r hs he hr =>
    apply h.stored hs he hr
    rintro rfl
    exact hline chunk hs
  | unlock hs => exact ⟨ring, pend, rest, h.unlock hs _⟩
  | @read o r hs ho he =>
    rw [hs] at hp
    exact ⟨ring, pend, rest, h.quiet (read_quiet h.holds h.unlocked (.inl ho.2) he)
      (Isolating.read hp r r.data)⟩
  | send hs => exact ⟨ring, pend, rest, h.send hs _⟩
  | close hs =>
    rw [hs] at hp
    refine ⟨ring, pend, rest, h.goto rfl rfl rfl rfl ?_⟩
    simp only [Isolating, Net.goto, Function.update_self, Conn.onClose]
    exact hp

/-- So does every tidy one. -/
theorem IsolationInv.tidy (h : IsolationInv k s₀ streams n ring pend rest) (hst : Net.Tidy k p n n') :
    ∃ ring' pend' rest', IsolationInv k s₀ streams n' ring' pend' rest' := by
  have hp := h.conns p
  unfold Isolating at hp
  cases hst with
  | step hst hline => exact h.step hst hline
  | fail hst hno =>
    cases hst with
    | recv hs => exact ⟨ring, pend, rest, h.ended hs⟩
    | openFile hs => exact ⟨ring, pend, rest, h.opened hs false _⟩
    | ioctl hs he =>
      rw [hs] at hp
      refine ⟨ring, pend, rest, h.quiet (ioctl_quiet h.holds h.unlocked he) ?_⟩
      simp only [Isolating, Net.goto, Net.returned, Function.update_self, Conn.onIoctl]
      exact hp
    | write hs => exact absurd hs (hno _)
    | @read o r hs hi he =>
      rw [hs] at hp
      exact ⟨ring, pend, rest, h.quiet (read_quiet h.holds h.unlocked (.inr hi) he) (Isolating.read hp r r.data)⟩
    | send _ hs => exact ⟨ring, pend, rest, h.send hs _⟩
  | @failWrite chunk node o r ret hs he hr hne hsafe =>
    rw [hs] at hp
    obtain ⟨hm, hfd, done, part, hpre, hsub, hpend⟩ := hp
    obtain ⟨-, hlock, hcom, pend', rest', hholds, hcases⟩ := write_failed h.holds he hr hne
    have hpre' : ((done ++ [chunk]) ++ node).flatten <+: streams p := by simpa using hpre
    have hsub' : List.Sublist part (done ++ [chunk]).flatten := by
      rw [List.flatten_append]
      exact hsub.trans (List.sublist_append_left _ _)
    -- what was pending is pending still
    have hsame : pend' = pend := by
      rcases hcases with hsame | ⟨href, hlost⟩
      · exact hsame
      · rcases hsafe with hzero | ⟨-, hno⟩
        · rw [h.holds.newEntry.size_eq, List.length_eq_zero_iff] at hzero
          rw [hlost, hzero]
          rfl
        · rw [h.holds.newEntry.size_eq] at hno
          exact absurd href hno
    refine ⟨ring, pend', rest', h.write hs hholds (hlock.trans h.unlocked) hpre' hsub' (hsame.trans hpend) ?_ ⟨[], ?_⟩⟩
    · intro hnode
      rcases hsafe with hzero | ⟨hmore, -⟩
      · rw [h.holds.newEntry.size_eq, List.length_eq_zero_iff] at hzero
        rw [hsame, hzero]
      · exact absurd hnode hmore
    · exact ⟨by rw [hcom, List.append_nil], fun _ he => (by cases he)⟩

end Steps

/-- Any connections on a device with no pending bytes, in every interleaving of
their calls, some of which may fail, and with clients that may go away at any
moment. While no call leaves bytes behind it, every entry committed consists of
bytes of one client, and nothing is pending while nobody holds `file_mutex`. -/
theorem entries_isolated {ι : Type} [DecidableEq ι] (k : Kernel) {s₀ : Sys} (h₀ : Ok k s₀)
    (hl : s₀.dev.lock = false) (hpend : s₀.dev.newEntry.size = 0) (streams : ι → List UInt8) {l : List (Net ι)} {n : Net ι}
    (hrun : Run (fun n n' => ∃ p, Net.Tidy k p n n') (Net.start s₀ streams) l n) :
    (∃ new, n.sys.committed = s₀.committed ++ new ∧ ∀ e ∈ new, OneSender streams e) ∧
      (n.mutex = none → n.sys.dev.newEntry.size = 0) := by
  obtain ⟨ring, pend, rest, h₀⟩ := h₀
  have hnil : pend = [] := by
    have := h₀.newEntry.size_eq
    rw [hpend] at this
    exact List.length_eq_zero_iff.1 this.symm
  have hstart : IsolationInv k s₀ streams (Net.start s₀ streams) ring pend rest :=
    ⟨h₀, hl, fun _ => hnil, fun p => ⟨by simp [Net.start], rfl⟩, [], by simp [Net.start], fun _ he => (by cases he)⟩
  obtain ⟨ring', pend', rest', h⟩ := hrun.inv (fun n => ∃ ring pend rest, IsolationInv k s₀ streams n ring pend rest)
    ⟨ring, pend, rest, hstart⟩ fun _ _ ⟨_, _, _, h⟩ ⟨_, hst⟩ => h.tidy hst
  refine ⟨h.committed, fun hfree => ?_⟩
  rw [h.holds.newEntry.size_eq, h.free hfree]
  rfl

/-- Client `true` goes away after `"x"`, and its connection cannot open the
device; then client `false` sends `"b\n"`. -/
theorem entries_isolated_open_fails :
    ∃ l n, Run (fun n n' => ∃ p, Net.Tidy .pages4K p n n')
        (Net.start aesdInitModule fun p : Bool => if p then [120] else [98, newline]) l n ∧
      n.sys.committed = [[some 98, some newline]] ∧
      ∀ e ∈ n.sys.committed, OneSender (fun p : Bool => if p then [120] else [98, newline]) e := by
  have h0 : Run (fun n n' => ∃ p, Net.Tidy .pages4K p n n')
    (Net.start aesdInitModule fun p : Bool => if p then [120] else [98, newline]) [] _ := .nil
  have h1 := h0.snoc ⟨true, .step (.recv [120] [] rfl rfl (by decide) (by decide)) fun _ hs => by cases hs⟩
  have h2 := h1.snoc ⟨true, .step (.hangup rfl rfl) fun _ hs => by cases hs⟩
  have h3 := h2.snoc ⟨true, .step (.lock rfl rfl) fun _ hs => by cases hs⟩
  have h4 := h3.snoc ⟨true, .fail (.openFile rfl) fun _ hs => by cases hs⟩
  have h5 := h4.snoc ⟨true, .step (.unlock rfl) fun _ hs => by cases hs⟩
  have h6 := h5.snoc ⟨false, .step (.recv [98, newline] [] rfl rfl (by decide) (by decide)) fun _ hs => by cases hs⟩
  have h7 := h6.snoc ⟨false, .step (.lock rfl rfl) fun _ hs => by cases hs⟩
  have h8 := h7.snoc ⟨false, .step (.openFile rfl) fun _ hs => by cases hs⟩
  have h9 := h8.snoc ⟨false, .step (.write (o := ⟨false, some 0, some 0, 0⟩) rfl rfl rfl) fun _ hs => by
    cases hs; decide⟩
  obtain ⟨⟨new, hnew, hall⟩, -⟩ := entries_isolated .pages4K ⟨[], [], [], holds_init _⟩ rfl rfl _ h9
  refine ⟨_, _, h9, rfl, ?_⟩
  rw [hnew]
  exact hall

/-- Client `true` goes away after `"x"`, then client `false` sends `"b\n"`: the
driver commits `"xb\n"`. -/
theorem entry_of_two_clients :
    ∃ l n, Run (Net.AnyStep .pages4K)
        (Net.start aesdInitModule fun p : Bool => if p then [120] else [98, newline]) l n ∧
      n.sys.committed = [[some 120, some 98, some newline]] ∧
      ¬ ∀ e ∈ n.sys.committed, OneSender (fun p : Bool => if p then [120] else [98, newline]) e := by
  have h0 : Run (Net.AnyStep .pages4K)
    (Net.start aesdInitModule fun p : Bool => if p then [120] else [98, newline]) [] _ := .nil
  have h1 := h0.snoc ⟨true, .recv [120] [] rfl rfl (by decide) (by decide)⟩
  have h2 := h1.snoc ⟨true, .hangup rfl rfl⟩
  have h3 := h2.snoc ⟨true, .lock rfl rfl⟩
  have h4 := h3.snoc ⟨true, .openFile rfl⟩
  have h5 := h4.snoc ⟨true, .write (o := ⟨false, some 0, some 0, 0⟩) rfl rfl rfl⟩
  have h6 := h5.snoc ⟨true, .unlock rfl⟩
  have h7 := h6.snoc ⟨false, .recv [98, newline] [] rfl rfl (by decide) (by decide)⟩
  have h8 := h7.snoc ⟨false, .lock rfl rfl⟩
  have h9 := h8.snoc ⟨false, .openFile rfl⟩
  have h10 := h9.snoc ⟨false, .write (o := ⟨false, some 0, some 0, 0⟩) rfl rfl rfl⟩
  refine ⟨_, _, h10, rfl, fun hall => ?_⟩
  obtain ⟨p, part, hsub, he⟩ := hall [some 120, some 98, some newline] (List.mem_singleton.2 rfl)
  have hpart : part = [120, 98, newline] := by
    refine List.map_injective_iff.2 (Option.some_injective _) ?_
    exact he.symm
  rw [hpart] at hsub
  cases p <;> exact absurd hsub (by decide)

end Aesd
