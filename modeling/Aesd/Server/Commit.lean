import Aesd.Server.Net
/-!
# Packets are committed whole

Each client sends one line that is no seek command. However the connections
interleave, the entries the driver commits are these lines, each once, in the
order in which the connections acquire `file_mutex`: the mutex is held over the
whole loop of writes, so the driver's pending bytes are always a part of what
its holder has received.
-/

namespace Aesd

open SysLib

/-- One line. -/
def IsLine (stream : List UInt8) : Prop := ∃ l, newline ∉ l ∧ stream = l ++ [newline]

/-- A connection at this stage has written all it had to write. -/
def Stage.wrote : Stage → Bool
  | .unlock => true
  | .read => true
  | .send _ => true
  | .close => true
  | .finished => true
  | _ => false

/-- The connection has received its whole line. -/
structure Whole (c : Conn) (stream : List UInt8) : Prop where
  flatten : c.chunks.flatten = stream
  collected : Collected c.chunks

/-- What holds of connection `p`, whose client sends `stream`, if the driver's
pending bytes are `pend`. -/
def Committing {ι : Type} (n : Net ι) (pend : List Cell) (stream : List UInt8) (p : ι) : Prop :=
  match (n.conn p).stage with
  | .recv => p ∉ n.acquired ∧ n.mutex ≠ some p ∧ (n.conn p).chunks.flatten ++ n.incoming p = stream ∧
      newline ∉ (n.conn p).chunks.flatten
  | .lock => p ∉ n.acquired ∧ n.mutex ≠ some p ∧ Whole (n.conn p) stream
  | .openFile => n.mutex = some p ∧ pend = [] ∧ Whole (n.conn p) stream
  | .ioctl _ => False
  | .write node => n.mutex = some p ∧ Whole (n.conn p) stream ∧ (n.conn p).fileFd = true ∧ node ≠ [] ∧
      ∃ done, (n.conn p).chunks = done ++ node ∧ pend = done.flatten.map some
  | .unlock => n.mutex = some p ∧ pend = []
  | _ => n.mutex ≠ some p ∧ p ∈ n.acquired

/-- The invariant. -/
structure CommitInv (k : Kernel) {ι : Type} (s₀ : Sys) (streams : ι → List UInt8) (n : Net ι)
    (ring : List (Nat × List Cell)) (pend : List Cell) (rest : List (Nat × List Cell)) : Prop where
  holds : Holds k n.sys ring pend rest
  unlocked : n.sys.dev.lock = false
  free : n.mutex = none → pend = []
  conns : ∀ p, Committing n pend (streams p) p
  nodup : n.acquired.Nodup
  holder : ∀ p, n.mutex = some p → ∃ l, n.acquired = l ++ [p]
  committed : n.sys.committed = s₀.committed ++
    (n.acquired.filter fun p => (n.conn p).stage.wrote).map fun p => (streams p).map some

section Steps

variable {ι : Type} {k : Kernel} {s₀ : Sys} {streams : ι → List UInt8} {n n' : Net ι}
  {ring rest : List (Nat × List Cell)} {pend pend' : List Cell} {p : ι}

theorem Committing.frame {stream : List UInt8} (h : Committing n pend stream p) (hconn : n'.conn p = n.conn p)
    (hin : n'.incoming p = n.incoming p) (hacq : p ∈ n'.acquired ↔ p ∈ n.acquired)
    (hheld : n.mutex = some p → n'.mutex = some p ∧ pend' = pend)
    (hout : n.mutex ≠ some p → n'.mutex ≠ some p) : Committing n' pend' stream p := by
  unfold Committing at h ⊢
  rw [hconn, hin, hacq]
  cases hs : (n.conn p).stage with
  | recv => rw [hs] at h; exact ⟨h.1, hout h.2.1, h.2.2⟩
  | lock => rw [hs] at h; exact ⟨h.1, hout h.2.1, h.2.2⟩
  | openFile =>
    rw [hs] at h
    obtain ⟨hm, rfl⟩ := hheld h.1
    exact ⟨hm, h.2⟩
  | ioctl seekto => rw [hs] at h; exact h
  | write node =>
    rw [hs] at h
    obtain ⟨hm, rfl⟩ := hheld h.1
    exact ⟨hm, h.2⟩
  | unlock =>
    rw [hs] at h
    obtain ⟨hm, rfl⟩ := hheld h.1
    exact ⟨hm, h.2⟩
  | read => rw [hs] at h; exact ⟨hout h.1, h.2⟩
  | send buffer => rw [hs] at h; exact ⟨hout h.1, h.2⟩
  | close => rw [hs] at h; exact ⟨hout h.1, h.2⟩
  | finished => rw [hs] at h; exact ⟨hout h.1, h.2⟩

theorem filter_wrote (hother : ∀ q ≠ p, n'.conn q = n.conn q) (hp : (n'.conn p).stage.wrote = (n.conn p).stage.wrote)
    (l : List ι) : (l.filter fun q => (n'.conn q).stage.wrote) = l.filter fun q => (n.conn q).stage.wrote := by
  refine List.filter_congr fun q _ => ?_
  by_cases he : q = p
  · rw [he, hp]
  · rw [hother q he]

theorem CommitInv.keep (h : CommitInv k s₀ streams n ring pend rest) (hsys : n'.sys = n.sys)
    (hmutex : n'.mutex = n.mutex) (hacq : n'.acquired = n.acquired)
    (hother : ∀ q ≠ p, n'.conn q = n.conn q ∧ n'.incoming q = n.incoming q)
    (hp : Committing n' pend (streams p) p) (hwrote : (n'.conn p).stage.wrote = (n.conn p).stage.wrote) :
    CommitInv k s₀ streams n' ring pend rest where
  holds := by rw [hsys]; exact h.holds
  unlocked := by rw [hsys]; exact h.unlocked
  free hm := h.free (hmutex ▸ hm)
  conns := by
    refine forall_of_step p h.conns (fun _ => hp) ?_
    intro q hq hprev
    exact hprev.frame (hother q hq).1 (hother q hq).2 (by rw [hacq]) (fun hm => ⟨hmutex ▸ hm, rfl⟩)
      (fun hm => hmutex ▸ hm)
  nodup := hacq ▸ h.nodup
  holder q hq := by rw [hacq]; exact h.holder q (hmutex ▸ hq)
  committed := by
    rw [hsys, hacq, filter_wrote (fun q hq => (hother q hq).1) hwrote]
    exact h.committed

theorem collected_snoc {chunks : List (List UInt8)} (h : newline ∉ chunks.flatten) (bytes : List UInt8) :
    Collected (chunks ++ [bytes]) := by
  intro c hc hn
  rw [List.dropLast_concat] at hc
  exact h (List.mem_flatten.2 ⟨c, hc, hn⟩)

/-- All chunks but the last have no newline, and the last one has it. -/
theorem Whole.newline_iff {c : Conn} {stream : List UInt8} (h : Whole c stream) (hline : IsLine stream)
    {done node : List (List UInt8)} {chunk : List UInt8} (hc : c.chunks = done ++ chunk :: node) :
    newline ∈ chunk ↔ node = [] := by
  constructor
  · intro hn
    by_contra hne
    refine h.collected chunk ?_ hn
    rw [hc, List.dropLast_append_of_ne_nil (by simp), List.dropLast_cons_of_ne_nil hne]
    simp
  · rintro rfl
    obtain ⟨l, -, hl⟩ := hline
    have hmem : newline ∈ c.chunks.flatten := by rw [h.flatten, hl]; simp
    rw [hc, List.flatten_append, List.mem_append] at hmem
    rcases hmem with hmem | hmem
    · obtain ⟨d, hd, hnd⟩ := List.mem_flatten.1 hmem
      refine absurd hnd (h.collected d ?_)
      rw [hc, List.dropLast_concat]
      exact hd
    · simpa using hmem

theorem IsLine.nil_of_append {stream a b : List UInt8} (h : IsLine stream) (ha : newline ∈ a)
    (he : a ++ b = stream) : b = [] := by
  obtain ⟨l, hl, rfl⟩ := h
  rcases List.eq_nil_or_concat b with rfl | ⟨b', x, rfl⟩
  · rfl
  · rw [List.concat_eq_append, ← List.append_assoc] at he
    obtain ⟨he, -⟩ := List.append_inj' he rfl
    exact absurd (he ▸ List.mem_append_left _ ha) hl

theorem IsLine.newline_mem {stream : List UInt8} (h : IsLine stream) : newline ∈ stream := by
  obtain ⟨l, -, rfl⟩ := h
  simp

theorem Whole.ne_nil {c : Conn} {stream : List UInt8} (h : Whole c stream) (hline : IsLine stream) : c.chunks ≠ [] := by
  intro hnil
  have := hline.newline_mem
  rw [← h.flatten, hnil] at this
  cases this

/-- A connection with a whole line that is no command writes its chunks. -/
theorem Whole.command {c : Conn} {stream : List UInt8} (h : Whole c stream) (hline : IsLine stream)
    (hrej : findCommand [stream] AESDCHAR_IOCSEEKTO_CMD = none) (hfd : c.fileFd = true) :
    c.chunks ≠ [] ∧ c.command = .write c.chunks := by
  have hne := h.ne_nil hline
  refine ⟨hne, ?_⟩
  rw [Conn.command, findCommand_flatten _ hne h.collected, h.flatten, hrej, hfd]
  exact if_pos ⟨rfl, hne⟩

/-- A step of the connection that holds the mutex, which it keeps, seen from another one. -/
theorem CommitInv.others (h : CommitInv k s₀ streams n ring pend rest) (hm : n.mutex = some p) {q : ι} (hq : q ≠ p)
    (hconn : n'.conn q = n.conn q) (hmutex : n'.mutex = n.mutex) (hacq : n'.acquired = n.acquired)
    (hin : n'.incoming = n.incoming) : Committing n' pend' (streams q) q := by
  refine (h.conns q).frame hconn (by rw [hin]) (by rw [hacq]) (fun hq' => ?_) (fun hq' => by rw [hmutex]; exact hq')
  exact absurd (Option.some.inj (hq'.symm.trans hm)) hq

/-- A connection that has released the mutex. -/
def Stage.released : Stage → Bool
  | .read => true
  | .send _ => true
  | .close => true
  | .finished => true
  | _ => false

theorem wrote_cases {stage : Stage} (h : stage.wrote = true) : stage = .unlock ∨ stage.released = true := by
  cases stage <;> first | exact .inl rfl | exact .inr rfl | cases h

theorem committing_released_iff {stream : List UInt8} (hs : (n.conn p).stage.released = true) :
    Committing n pend stream p ↔ n.mutex ≠ some p ∧ p ∈ n.acquired := by
  unfold Committing
  cases hstage : (n.conn p).stage <;> first | exact Iff.rfl | (rw [hstage] at hs; cases hs)

/-- A connection that has written had the mutex. -/
theorem CommitInv.mem_acquired (h : CommitInv k s₀ streams n ring pend rest) (hp : (n.conn p).stage.wrote = true) :
    p ∈ n.acquired := by
  have hc := h.conns p
  rcases wrote_cases hp with hs | hs
  · simp only [Committing, hs] at hc
    obtain ⟨l, hl⟩ := h.holder p hc.1
    rw [hl]
    exact List.mem_append_right _ (List.mem_singleton_self p)
  · exact ((committing_released_iff hs).1 hc).2

/-- While nobody holds the mutex, a connection that had it has written. -/
theorem CommitInv.wrote_of_free (h : CommitInv k s₀ streams n ring pend rest) (hfree : n.mutex = none)
    (hacq : p ∈ n.acquired) : (n.conn p).stage.wrote = true := by
  have hc := h.conns p
  unfold Committing at hc
  cases hs : (n.conn p).stage with
  | recv => rw [hs] at hc; exact absurd hacq hc.1
  | lock => rw [hs] at hc; exact absurd hacq hc.1
  | openFile => rw [hs, hfree] at hc; cases hc.1
  | ioctl seekto => rw [hs] at hc; exact hc.elim
  | write node => rw [hs, hfree] at hc; cases hc.1
  | unlock => rfl
  | read => rfl
  | send buffer => rfl
  | close => rfl
  | finished => rfl

variable [DecidableEq ι]

/-- A call of a connection that has released the mutex. -/
theorem CommitInv.released (h : CommitInv k s₀ streams n ring pend rest) (hs : (n.conn p).stage.released = true)
    {c : Conn} (hs' : c.stage.released = true) (hconn : n'.conn = Function.update n.conn p c) (hsys : n'.sys = n.sys)
    (hmutex : n'.mutex = n.mutex) (hacq : n'.acquired = n.acquired) (hin : n'.incoming = n.incoming) :
    CommitInv k s₀ streams n' ring pend rest := by
  have hwrote : ∀ {stage : Stage}, stage.released = true → stage.wrote = true := by
    intro stage hr
    cases stage <;> first | rfl | cases hr
  have hc : n'.conn p = c := by rw [hconn, Function.update_self]
  refine h.keep (p := p) hsys hmutex hacq ?_ ?_ ?_
  · intro q hq
    rw [hconn, Function.update_of_ne hq, hin]
    exact ⟨rfl, rfl⟩
  · have hp := (committing_released_iff hs).1 (h.conns p)
    rw [committing_released_iff (by rw [hc]; exact hs'), hmutex, hacq]
    exact hp
  · rw [hc, hwrote hs, hwrote hs']

theorem CommitInv.recv (hline : IsLine (streams p)) (h : CommitInv k s₀ streams n ring pend rest)
    (hs : (n.conn p).stage = .recv) {bytes left : List UInt8} (hin : n.incoming p = bytes ++ left) (hne : bytes ≠ []) :
    CommitInv k s₀ streams { n.goto p ((n.conn p).onRecv bytes) with incoming := Function.update n.incoming p left }
      ring pend rest := by
  have hp := h.conns p
  simp only [Committing, hs] at hp
  obtain ⟨hacq, hm, hflat, hnl⟩ := hp
  rw [hin, ← List.append_assoc] at hflat
  refine h.keep (p := p) rfl rfl rfl ?_ ?_ ?_
  · intro q hq
    exact ⟨Function.update_of_ne hq _ _, Function.update_of_ne hq _ _⟩
  · by_cases hb : newline ∈ bytes
    · have hnil : left = [] := hline.nil_of_append (List.mem_append_right _ hb) hflat
      rw [hnil, List.append_nil] at hflat
      simp only [Committing, Net.goto, Function.update_self, Conn.onRecv_line _ hne hb]
      exact ⟨hacq, hm, by simpa using hflat, collected_snoc hnl bytes⟩
    · simp only [Committing, Net.goto, Function.update_self, Conn.onRecv_more _ hne hb]
      exact ⟨hacq, hm, by simpa using hflat, by simpa using ⟨fun c hc hn => hnl (List.mem_flatten.2 ⟨c, hc, hn⟩), hb⟩⟩
  · simp only [Net.goto, Function.update_self, Conn.onRecv, if_neg hne]
    rw [hs]
    split <;> rfl

theorem CommitInv.lock (hline : IsLine (streams p)) (h : CommitInv k s₀ streams n ring pend rest)
    (hs : (n.conn p).stage = .lock) (hfree : n.mutex = none) :
    CommitInv k s₀ streams
      { n.goto p (n.conn p).onLock with mutex := some p, acquired := n.acquired ++ [p] } ring pend rest := by
  have hp := h.conns p
  simp only [Committing, hs] at hp
  obtain ⟨hacq, -, hwhole⟩ := hp
  have hlock := (n.conn p).onLock_data (hwhole.ne_nil hline)
  refine ⟨h.holds, h.unlocked, fun hm => (by cases hm), forall_of_step p h.conns ?_ ?_, ?_, ?_, ?_⟩
  · intro _
    simp only [Committing, Net.goto, Function.update_self, hlock]
    exact ⟨trivial, h.free hfree, hwhole.flatten, hwhole.collected⟩
  · intro q hq hprev
    refine hprev.frame (Function.update_of_ne hq _ _) rfl ?_ (fun hm => by rw [hfree] at hm; cases hm)
      (fun _ hm => hq (Option.some.inj hm).symm)
    simp [hq]
  · refine List.nodup_append.2 ⟨h.nodup, List.nodup_singleton p, fun a ha b hb hab => ?_⟩
    rw [List.mem_singleton.1 hb] at hab
    exact hacq (hab ▸ ha)
  · rintro q hq
    obtain rfl : p = q := Option.some.inj hq
    exact ⟨_, rfl⟩
  · have hlast : (Function.update n.conn p (n.conn p).onLock p).stage.wrote = false := by
      rw [Function.update_self, hlock]; rfl
    simp only [Net.goto, List.filter_append, List.filter_cons, hlast, Bool.false_eq_true, if_false, List.filter_nil,
      List.append_nil]
    rw [h.committed]
    congr 2
    refine List.filter_congr fun q hq => ?_
    rw [Function.update_of_ne fun (he : q = p) => hacq (he ▸ hq)]

/-- A chunk in the middle has been written: it joins the pending bytes. -/
theorem CommitInv.middle (h : CommitInv k s₀ streams n ring pend rest) {chunk : List UInt8} {node : List (List UInt8)}
    {r : Return} (hs : (n.conn p).stage = .write (chunk :: node)) (hnode : node ≠ [])
    {rest' : List (Nat × List Cell)} (hholds : Holds k r.sys ring (pend ++ chunk.map some) rest')
    (hl : r.sys.dev.lock = false) (hcom : r.sys.committed = n.sys.committed) :
    CommitInv k s₀ streams ((n.goto p ((n.conn p).onWrite node)).returned p r) ring (pend ++ chunk.map some) rest' := by
  have hp := h.conns p
  simp only [Committing, hs] at hp
  obtain ⟨hm, hwhole, hfd, -, done, hchunks, hpend⟩ := hp
  have hstage := (n.conn p).onWrite_more hfd hnode
  refine ⟨hholds, hl, fun hf => absurd (hm.symm.trans hf) (by simp), forall_of_step p h.conns ?_ ?_, h.nodup,
    h.holder, ?_⟩
  · intro _
    simp only [Committing, Net.goto, Net.returned, Function.update_self, hstage]
    exact ⟨hm, ⟨hwhole.flatten, hwhole.collected⟩, hfd, hnode, done ++ [chunk], by simp [hchunks], by simp [hpend]⟩
  · intro q hq _
    refine h.others hm hq (Function.update_of_ne hq _ _) ?_ ?_ ?_ <;> rfl
  · rw [show ((n.goto p ((n.conn p).onWrite node)).returned p r).sys = r.sys from rfl, hcom, h.committed]
    congr 2
    refine (filter_wrote (p := p) (fun q hq => Function.update_of_ne hq _ _) ?_ _).symm
    simp only [Net.goto, Net.returned, Function.update_self, hstage]
    rw [hs]
    rfl

/-- The connections that have written, once the last one that acquired the mutex has. -/
theorem CommitInv.filter_last (h : CommitInv k s₀ streams n ring pend rest) (hm : n.mutex = some p)
    (hbefore : (n.conn p).stage.wrote = false) {c : Conn} (hafter : c.stage.wrote = true) :
    (n.acquired.filter fun q => (Function.update n.conn p c q).stage.wrote) =
      (n.acquired.filter fun q => (n.conn q).stage.wrote) ++ [p] := by
  obtain ⟨l, hacq⟩ := h.holder p hm
  have hp : p ∉ l := by
    have := h.nodup
    rw [hacq, List.nodup_append] at this
    exact fun hpl => this.2.2 p hpl p (List.mem_singleton_self p) rfl
  have hl : (l.filter fun q => (Function.update n.conn p c q).stage.wrote) = l.filter fun q => (n.conn q).stage.wrote := by
    refine List.filter_congr fun q hq => ?_
    rw [Function.update_of_ne fun (he : q = p) => hp (he ▸ hq)]
  rw [hacq, List.filter_append, List.filter_append, hl]
  simp [hbefore, hafter]

/-- The last chunk has been written: it commits the line. -/
theorem CommitInv.last (h : CommitInv k s₀ streams n ring pend rest) {chunk : List UInt8} {r : Return}
    (hs : (n.conn p).stage = .write [chunk]) {ring' rest' : List (Nat × List Cell)}
    (hholds : Holds k r.sys ring' [] rest') (hl : r.sys.dev.lock = false)
    (hcom : r.sys.committed = n.sys.committed ++ [pend ++ chunk.map some]) :
    CommitInv k s₀ streams ((n.goto p ((n.conn p).onWrite [])).returned p r) ring' [] rest' := by
  have hp := h.conns p
  simp only [Committing, hs] at hp
  obtain ⟨hm, hwhole, hfd, -, done, hchunks, hpend⟩ := hp
  have hstage := (n.conn p).onWrite_last
  have hstream : pend ++ chunk.map some = (streams p).map some := by
    rw [hpend, ← hwhole.flatten, hchunks]; simp
  refine ⟨hholds, hl, fun _ => rfl, forall_of_step p h.conns ?_ ?_, h.nodup, h.holder, ?_⟩
  · intro _
    simp only [Committing, Net.goto, Net.returned, Function.update_self, hstage]
    exact ⟨hm, trivial⟩
  · intro q hq _
    refine h.others hm hq (Function.update_of_ne hq _ _) ?_ ?_ ?_ <;> rfl
  · have hafter := h.filter_last hm (by rw [hs]; rfl) (c := (n.conn p).onWrite []) (by rw [hstage]; rfl)
    rw [show ((n.goto p ((n.conn p).onWrite [])).returned p r).sys = r.sys from rfl, hcom, h.committed, hstream]
    simp only [Net.goto, Net.returned, hafter, List.map_append, List.map_singleton, List.append_assoc]

theorem CommitInv.unlock (h : CommitInv k s₀ streams n ring pend rest) (hs : (n.conn p).stage = .unlock)
    (readFrom : ι → Int) :
    CommitInv k s₀ streams { n.goto p (n.conn p).onUnlock with mutex := none, readFrom := readFrom } ring pend rest := by
  have hp := h.conns p
  simp only [Committing, hs] at hp
  obtain ⟨hm, hpend⟩ := hp
  obtain ⟨l, hacq⟩ := h.holder p hm
  have hwrote : ((n.conn p).onUnlock).stage.wrote = (n.conn p).stage.wrote := by
    rw [hs, Conn.onUnlock]
    cases (n.conn p).fileFd <;> rfl
  refine ⟨h.holds, h.unlocked, fun _ => hpend, forall_of_step p h.conns ?_ ?_, h.nodup, fun q hq => (by cases hq), ?_⟩
  · intro _
    have hmem : p ∈ n.acquired := by rw [hacq]; simp
    simp only [Committing, Net.goto, Function.update_self, Conn.onUnlock]
    cases (n.conn p).fileFd
    · exact ⟨by simp, hmem⟩
    · exact ⟨by simp, hmem⟩
  · intro q hq hprev
    exact hprev.frame (Function.update_of_ne hq _ _) rfl Iff.rfl
      (fun hq' => absurd (Option.some.inj (hq'.symm.trans hm)) hq) (fun _ => by simp)
  · refine h.committed.trans ?_
    congr 2
    exact (filter_wrote (p := p) (fun q hq => Function.update_of_ne hq _ _)
      (by simp only [Net.goto, Function.update_self]; exact hwrote) _).symm

/-- Every call of every connection keeps the invariant. -/
theorem CommitInv.step (hline : ∀ p, IsLine (streams p))
    (hrej : ∀ p, findCommand [streams p] AESDCHAR_IOCSEEKTO_CMD = none)
    (h : CommitInv k s₀ streams n ring pend rest) (hstep : Net.Step k p n n') :
    ∃ ring' pend' rest', CommitInv k s₀ streams n' ring' pend' rest' := by
  have hp := h.conns p
  unfold Committing at hp
  cases hstep with
  | recv bytes left hs hin hne _ => exact ⟨ring, pend, rest, h.recv (hline p) hs hin hne⟩
  | hangup hs hin =>
    rw [hs] at hp
    obtain ⟨-, -, hflat, hnl⟩ := hp
    rw [hin, List.append_nil] at hflat
    exact absurd (hflat ▸ (hline p).newline_mem) hnl
  | lock hs hfree => exact ⟨ring, pend, rest, h.lock (hline p) hs hfree⟩
  | openFile hs =>
    rw [hs] at hp
    obtain ⟨hm, hpend, hwhole⟩ := hp
    obtain ⟨hne, hcmd⟩ := (Whole.mk hwhole.flatten hwhole.collected :
      Whole { n.conn p with fileFd := true } (streams p)).command (hline p) (hrej p) rfl
    refine ⟨ring, pend, rest, h.keep (p := p) rfl rfl rfl (fun q hq => ⟨Function.update_of_ne hq _ _, rfl⟩) ?_ ?_⟩
    · simp only [Committing, Net.goto, Function.update_self, Conn.onOpen, hcmd]
      exact ⟨hm, ⟨hwhole.flatten, hwhole.collected⟩, trivial, hne, [], rfl, hpend⟩
    · simp only [Net.goto, Function.update_self, Conn.onOpen, hcmd]
      rw [hs]
      rfl
  | ioctl hs => rw [hs] at hp; exact hp.elim
  | @write chunk node o r hs he hr =>
    rw [hs] at hp
    obtain ⟨-, hwhole, -, -, done, hchunks, -⟩ := hp
    obtain ⟨-, hl, rest', hw⟩ := write_done h.holds he hr
    have hiff := hwhole.newline_iff (hline p) hchunks
    rcases hw with ⟨hnl, hcom, -, hholds⟩ | ⟨hnl, hcom, i, hholds⟩
    · exact ⟨ring, _, rest', h.middle hs (fun hnode => hnl (hiff.2 hnode)) hholds hl hcom⟩
    · obtain rfl := hiff.1 hnl
      exact ⟨_, _, rest', h.last hs hholds hl hcom⟩
  | unlock hs => exact ⟨ring, pend, rest, h.unlock hs _⟩
  | read hs ho he =>
    refine ⟨ring, pend, rest, h.released (p := p) (by rw [hs]; rfl) ?_ rfl
      (read_quiet h.holds h.unlocked (.inl ho.2) he) rfl rfl rfl⟩
    unfold Conn.onRead
    dsimp only
    split <;> rfl
  | send hs => exact ⟨ring, pend, rest, h.released (p := p) (by rw [hs]; rfl) rfl rfl rfl rfl rfl rfl⟩
  | close hs => exact ⟨ring, pend, rest, h.released (p := p) (by rw [hs]; rfl) rfl rfl rfl rfl rfl rfl⟩

end Steps

/-- Any connections whose clients each send one line that is no seek command,
cut into chunks in any way, on a device with no pending bytes: in every
interleaving of their calls, what the driver has committed since is the lines of
the connections that have written, in the order in which they acquired
`file_mutex`. No connection acquires it twice, and while nobody holds it every
connection that had it has written and nothing is pending. -/
theorem streams_committed {ι : Type} [DecidableEq ι] (k : Kernel) {s₀ : Sys} (h₀ : Ok k s₀)
    (hl : s₀.dev.lock = false) (hpend : s₀.dev.newEntry.size = 0) (streams : ι → List UInt8)
    (hline : ∀ p, IsLine (streams p)) (hrej : ∀ p, findCommand [streams p] AESDCHAR_IOCSEEKTO_CMD = none)
    {l : List (Net ι)} {n : Net ι} (hrun : Run (Net.AnyStep k) (Net.start s₀ streams) l n) :
    n.sys.committed = s₀.committed ++
      ((n.acquired.filter fun p => (n.conn p).stage.wrote).map fun p => (streams p).map some) ∧
    n.acquired.Nodup ∧ (∀ p, (n.conn p).stage.wrote = true → p ∈ n.acquired) ∧
    (n.mutex = none → (∀ p ∈ n.acquired, (n.conn p).stage.wrote = true) ∧ n.sys.dev.newEntry.size = 0) ∧
    ringCells n.sys = n.sys.committed.rtake maxWriteOperationsSupported := by
  obtain ⟨ring, pend, rest, h₀⟩ := h₀
  have hnil : pend = [] := by
    have := h₀.newEntry.size_eq
    rw [hpend] at this
    exact List.length_eq_zero_iff.1 this.symm
  have hstart : CommitInv k s₀ streams (Net.start s₀ streams) ring pend rest :=
    ⟨h₀, hl, fun _ => hnil, fun p => ⟨by simp [Net.start], by simp [Net.start], rfl, by simp [Net.start, Conn.start]⟩,
      List.nodup_nil, fun p hp => (by cases hp), by simp [Net.start]⟩
  obtain ⟨ring', pend', rest', h⟩ := hrun.inv (fun n => ∃ ring pend rest, CommitInv k s₀ streams n ring pend rest)
    ⟨ring, pend, rest, hstart⟩ fun _ _ ⟨_, _, _, h⟩ ⟨_, hst⟩ => h.step hline hrej hst
  refine ⟨h.committed, h.nodup, fun p => h.mem_acquired, fun hfree => ⟨fun p => h.wrote_of_free hfree, ?_⟩, ?_⟩
  · rw [h.holds.newEntry.size_eq, h.free hfree]
    rfl
  · rw [h.holds.ringCells]
    exact h.holds.latest

/-- Two connections, one of which receives its line in two chunks around the
other's turn. -/
theorem streams_committed_two :
    ∃ l n, Run (Net.AnyStep .pages4K) (Net.start aesdInitModule fun p : Bool => if p then [97, newline] else [98, newline])
        l n ∧ n.acquired = [true, false] ∧
      n.sys.committed = [[some 97, some newline], [some 98, some newline]] := by
  have h0 : Run (Net.AnyStep .pages4K)
    (Net.start aesdInitModule fun p : Bool => if p then [97, newline] else [98, newline]) [] _ := .nil
  have h1 := h0.snoc ⟨false, .recv [98] [newline] rfl rfl (by decide) (by decide)⟩
  have h2 := h1.snoc ⟨true, .recv [97, newline] [] rfl rfl (by decide) (by decide)⟩
  have h3 := h2.snoc ⟨true, .lock rfl rfl⟩
  have h4 := h3.snoc ⟨true, .openFile rfl⟩
  have h5 := h4.snoc ⟨false, .recv [newline] [] rfl rfl (by decide) (by decide)⟩
  have h6 := h5.snoc ⟨true, .write (o := ⟨false, some 0, some 0, 0⟩) rfl rfl rfl⟩
  have h7 := h6.snoc ⟨true, .unlock rfl⟩
  have h8 := h7.snoc ⟨false, .lock rfl rfl⟩
  have h9 := h8.snoc ⟨false, .openFile rfl⟩
  have h10 := h9.snoc ⟨false, .write (o := ⟨false, some 0, some 0, 0⟩) rfl rfl rfl⟩
  have h11 := h10.snoc ⟨false, .write (o := ⟨false, some 0, some 0, 0⟩) rfl rfl rfl⟩
  obtain ⟨hcom, -⟩ := streams_committed .pages4K ⟨[], [], [], holds_init _⟩ rfl rfl _
    (by intro p; cases p; exacts [⟨[98], by decide, rfl⟩, ⟨[97], by decide, rfl⟩])
    (by intro p; cases p <;> decide +kernel) h11
  exact ⟨_, _, h11, rfl, hcom.trans rfl⟩

end Aesd
