import Aesd.Server.Net
/-!
# What a connection sends back

A connection reads the device back after it has released `file_mutex`, one entry
at a time, and positions count from the oldest entry. A write that evicts the
oldest entry between two of these reads moves the rest of the contents under the
reader, which then skips bytes. Without such a write a response is what the
device held at one moment, the one of the last read.
-/

namespace Aesd

open SysLib

/-- From acquiring `file_mutex` to the last read. -/
def Stage.serving : Stage → Bool
  | .recv => false
  | .lock => false
  | .close => false
  | .finished => false
  | _ => true

/-- The last read has returned, or there was nothing to read from. -/
def Stage.served : Stage → Bool
  | .close => true
  | .finished => true
  | _ => false

/-- In the loop that reads the file and sends what it has read. -/
def Stage.answering : Stage → Bool
  | .read => true
  | .send _ => true
  | _ => false

/-- Nothing has been read yet. -/
def Stage.early : Stage → Bool
  | .read => false
  | .send _ => false
  | .close => false
  | .finished => false
  | _ => true

section Definitions

variable {ι : Type}

/-- The response of connection `p` is what the device held, from the position
its file started at, in one of these states while it was served. -/
def Net.Snapshot (states : List (Net ι)) (n : Net ι) (p : ι) : Prop :=
  ∃ m ∈ states, (m.conn p).stage.serving = true ∧
    n.response p = m.sys.contents.drop (n.readFrom p).toNat

/-- Connection `p` has read something and may read more. -/
def Net.MidResponse (n : Net ι) (p : ι) : Prop :=
  match (n.conn p).stage with
  | .read => n.response p ≠ []
  | .send _ => True
  | _ => False

/-- The next write of connection `q` evicts an entry. -/
def Net.Evicts (n : Net ι) (q : ι) : Prop :=
  n.sys.dev.buffer.full = true ∧ ∃ chunk node, (n.conn q).stage = .write (chunk :: node) ∧ newline ∈ chunk

/-- A step of any connection, which may fail, but neither evicts an entry in the
middle of `p`'s response nor is a failing read of `p` or a `send` of `p` that
leaves bytes of its buffer. -/
def Net.Undisturbed [DecidableEq ι] (k : Kernel) (p : ι) (n n' : Net ι) : Prop :=
  ∃ q, (Net.Step k q n n' ∧ ¬ (n.MidResponse p ∧ n.Evicts q)) ∨
    (Net.Fail k q n n' ∧ ¬ (q = p ∧ (n.conn p).stage.answering = true))

/-- An open file at a position that is not negative. -/
def Seated (f : File) : Prop := ∃ pos : Nat, f = ⟨true, pos⟩ ∧ pos < 2 ^ 63

/-- What holds of connection `p` after these states. -/
def Serving (states : List (Net ι)) (n : Net ι) (p : ι) : Prop :=
  match (n.conn p).stage with
  | .read => Delivered n.sys (n.file p) (n.readFrom p) (n.response p) ∧ (n.conn p).fileFd = true
  | .send buffer => Delivered n.sys (n.file p) (n.readFrom p) (n.response p ++ buffer) ∧ (n.conn p).fileFd = true
  | .close => if (n.conn p).fileFd = true then n.Snapshot states p else n.response p = []
  | .finished => if (n.conn p).fileFd = true then n.Snapshot states p else n.response p = []
  | _ => n.response p = [] ∧ ((n.conn p).fileFd = true → Seated (n.file p))

end Definitions

section Steps

variable {ι : Type} {k : Kernel} {n n' : Net ι} {p q : ι} {states : List (Net ι)}
  {ring rest : List (Nat × List Cell)} {pend : List Cell}

/-! ## Before the first read -/

theorem copyLoop_early (fileFd : Bool) (node : List (List UInt8)) : (Conn.copyLoop fileFd node).early = true := by
  unfold Conn.copyLoop
  split <;> rfl

theorem command_early (c : Conn) : c.command.early = true := by
  unfold Conn.command
  split
  · rfl
  · exact copyLoop_early _ _

theorem serving_early_iff (he : (n.conn p).stage.early = true) :
    Serving states n p ↔ n.response p = [] ∧ ((n.conn p).fileFd = true → Seated (n.file p)) := by
  unfold Serving
  cases hs : (n.conn p).stage <;> first | exact Iff.rfl | (rw [hs] at he; cases he)

theorem serving_served_iff (he : (n.conn p).stage.served = true) : Serving states n p ↔
    if (n.conn p).fileFd = true then n.Snapshot states p else n.response p = [] := by
  unfold Serving
  cases hs : (n.conn p).stage <;> first | exact Iff.rfl | (rw [hs] at he; cases he)

/-- A connection that has read nothing goes on to a stage where it has not. -/
theorem Serving.early (h : Serving states n p) (he : (n.conn p).stage.early = true)
    (he' : (n'.conn p).stage.early = true) (hresp : n'.response p = n.response p)
    (hseat : ((n.conn p).fileFd = true → Seated (n.file p)) → (n'.conn p).fileFd = true → Seated (n'.file p)) :
    Serving states n' p := by
  rw [serving_early_iff he] at h
  rw [serving_early_iff he', hresp]
  exact ⟨h.1, hseat h.2⟩

theorem Seated.returned {f : File} (h : Seated f) {pos : Int} (hp : ∃ q : Nat, pos = q ∧ q < 2 ^ 63) :
    Seated { f with fPos := pos } := by
  obtain ⟨_, rfl, -⟩ := h
  obtain ⟨q, rfl, hlt⟩ := hp
  exact ⟨q, rfl, hlt⟩

/-- More states have passed. -/
theorem Serving.mono (h : Serving states n p) {states' : List (Net ι)} (hsub : states ⊆ states') :
    Serving states' n p := by
  have hend : (if (n.conn p).fileFd = true then n.Snapshot states p else n.response p = []) →
      if (n.conn p).fileFd = true then n.Snapshot states' p else n.response p = [] := by
    split
    · exact fun ⟨m, hm, hs⟩ => ⟨m, hsub hm, hs⟩
    · exact id
  unfold Serving at h ⊢
  cases hs : (n.conn p).stage <;> rw [hs] at h <;> first | exact h | exact hend h

/-! ## The device under these steps -/

variable [DecidableEq ι]

/-- A step adds to the contents at most at their end, or evicts an entry. -/
theorem Net.Step.contents (h : Holds k n.sys ring pend rest) (hl : n.sys.dev.lock = false)
    (hst : Net.Step k q n n') :
    Ok k n'.sys ∧ n'.sys.dev.lock = false ∧ (n.Evicts q ∨ ∃ more, n'.sys.contents = n.sys.contents ++ more) := by
  have hsame : n'.sys = n.sys →
      Ok k n'.sys ∧ n'.sys.dev.lock = false ∧ (n.Evicts q ∨ ∃ more, n'.sys.contents = n.sys.contents ++ more) := by
    intro he
    rw [he]
    exact ⟨⟨_, _, _, h⟩, hl, .inr ⟨[], by simp⟩⟩
  cases hst with
  | recv => exact hsame rfl
  | hangup => exact hsame rfl
  | lock => exact hsame rfl
  | openFile => exact hsame rfl
  | ioctl hs ho he => exact hsame (ioctl_quiet h hl he)
  | @write chunk node o r hs he hr =>
    obtain ⟨-, hl', rest', hw⟩ := write_done h he hr
    rcases hw with ⟨-, -, -, hh⟩ | ⟨hnl, -, i, hh⟩
    · refine ⟨⟨_, _, _, hh⟩, hl', .inr ⟨[], ?_⟩⟩
      rw [List.append_nil, h.contents_eq]
      exact hh.contents_eq
    · refine ⟨⟨_, _, _, hh⟩, hl', ?_⟩
      cases hfull : n.sys.dev.buffer.full with
      | true => exact .inl ⟨hfull, chunk, node, hs, hnl⟩
      | false =>
        refine .inr ⟨pend ++ chunk.map some, ?_⟩
        have hlt : ring.length < maxWriteOperationsSupported := by
          rw [h.ring_length, CircularBuffer.WellFormed.count_lt_iff h.wellFormed]; exact hfull
        have hpush : pushRing ring (i, pend ++ chunk.map some) = ring ++ [(i, pend ++ chunk.map some)] := by
          rw [pushRing, push_rtake _ _ _ h.ring_le (by decide), if_neg (Nat.ne_of_lt hlt)]
        rw [h.contents_eq]
        apply hh.contents_eq.trans
        rw [hpush, Aesd.contents, List.map_append, List.flatten_append]
        simp [Aesd.contents]
  | unlock => exact hsame rfl
  | read hs ho he => exact hsame (read_quiet h hl (.inl ho.2) he)
  | send => exact hsame rfl
  | close => exact hsame rfl

/-- A failing call leaves the contents as they are. -/
theorem Net.Fail.contents (h : Holds k n.sys ring pend rest) (hl : n.sys.dev.lock = false)
    (hst : Net.Fail k q n n') :
    Ok k n'.sys ∧ n'.sys.dev.lock = false ∧ n'.sys.contents = n.sys.contents := by
  have hsame : n'.sys = n.sys → Ok k n'.sys ∧ n'.sys.dev.lock = false ∧ n'.sys.contents = n.sys.contents := by
    intro he
    rw [he]
    exact ⟨⟨_, _, _, h⟩, hl, rfl⟩
  cases hst with
  | recv => exact hsame rfl
  | openFile => exact hsame rfl
  | ioctl hs he => exact hsame (ioctl_quiet h hl he)
  | write hs he hr hne =>
    obtain ⟨-, hlock, -, pend', rest', hh, -⟩ := write_failed h he hr hne
    have hl' := hlock.trans hl
    exact ⟨⟨_, _, _, hh⟩, hl', hh.contents_eq.trans h.contents_eq.symm⟩
  | read hs hi he => exact hsame (read_quiet h hl (.inr hi) he)
  | send => exact hsame rfl

/-! ## One step -/

/-- A read of the connection itself: it goes on, or it was the last one. -/
theorem Serving.read (h : Holds k n.sys ring pend rest) (hl : n.sys.dev.lock = false) (hmem : n ∈ states)
    (hsv : Serving states n p) (hs : (n.conn p).stage = .read) {o : Outcome} {r : Return} (ho : o.Good)
    (he : Call.exec k o (some (n.file p)) (.read true BUFFER_SIZE) n.sys = .ok r) :
    Serving states ((n.goto p ((n.conn p).onRead r.data)).returned p r) p := by
  simp only [Serving, hs] at hsv
  obtain ⟨hdel, hfd⟩ := hsv
  obtain ⟨hsys, hread⟩ := hdel.read h hl ho he
  simp only [Serving, Net.returned, Net.goto, Function.update_self, Conn.onRead]
  rcases hread with ⟨hd, hall⟩ | ⟨hd, -, -, hdel'⟩
  · simp only [if_pos hd, hfd, if_true]
    exact ⟨n, hmem, by rw [hs]; rfl, hall⟩
  · simp only [if_neg hd]
    exact ⟨by rw [hsys]; exact hdel', hfd⟩

omit [DecidableEq ι] in
/-- `recv` has returned 0 or an error. -/
theorem Serving.ended (hsv : Serving states n p) (hs : (n.conn p).stage = .recv)
    (hconn : n'.conn p = (n.conn p).onRecv []) (hfile : n'.file p = n.file p) (hresp : n'.response p = n.response p) :
    Serving states n' p := by
  refine hsv.early (by rw [hs]; rfl) ?_ hresp ?_
  · rw [hconn, Conn.onRecv_end]
    rfl
  · rw [hconn, hfile, Conn.onRecv_end]
    exact id

/-- A seek has returned. -/
theorem Serving.ioctl (h : Holds k n.sys ring pend rest) (hl : n.sys.dev.lock = false) (hsv : Serving states n p)
    {seekto : AesdSeekto} {o : Outcome} {r : Return} (hs : (n.conn p).stage = .ioctl seekto)
    (he : Call.exec k o (some (n.file p)) (.ioctl AESDCHAR_IOCSEEKTO seekto) n.sys = .ok r) :
    Serving states ((n.goto p (n.conn p).onIoctl).returned p r) p := by
  refine hsv.early (by rw [hs]; rfl) ?_ rfl ?_
  · simp only [Net.goto, Net.returned, Function.update_self, Conn.onIoctl]; rfl
  · simp only [Net.goto, Net.returned, Function.update_self, Conn.onIoctl]
    intro hseat hfd
    obtain ⟨pos, hf, hlt⟩ := hseat hfd
    exact (hseat hfd).returned (ioctl_done h hl ⟨pos, by rw [hf], hlt⟩ he).2

/-- A write has returned, and has left the position alone. -/
theorem Serving.written (hsv : Serving states n p) {chunk : List UInt8} {node : List (List UInt8)} {r : Return}
    (hs : (n.conn p).stage = .write (chunk :: node)) (hpos : r.fPos = (n.file p).fPos) :
    Serving states ((n.goto p ((n.conn p).onWrite node)).returned p r) p := by
  refine hsv.early (by rw [hs]; rfl) ?_ rfl ?_
  · simp only [Net.goto, Net.returned, Function.update_self, Conn.onWrite]; exact copyLoop_early _ _
  · simp only [Net.goto, Net.returned, Function.update_self, Conn.onWrite]
    intro hseat hfd
    obtain ⟨pos, hf, hlt⟩ := hseat hfd
    exact (hseat hfd).returned ⟨pos, by rw [hpos, hf], hlt⟩

/-- A step of the connection itself. -/
theorem Serving.own (h : Holds k n.sys ring pend rest) (hl : n.sys.dev.lock = false) (hmem : n ∈ states)
    (hsv : Serving states n p) (hst : Net.Step k p n n') : Serving states n' p := by
  cases hst with
  | recv bytes left hs =>
    refine hsv.early (by rw [hs]; rfl) ?_ rfl ?_
    · simp only [Net.goto, Function.update_self, Conn.onRecv]
      split
      · rfl
      · dsimp only; split <;> rfl
    · simp only [Net.goto, Function.update_self, Conn.onRecv]
      split <;> exact id
  | hangup hs => exact hsv.ended hs (Function.update_self ..) rfl rfl
  | lock hs =>
    refine hsv.early (by rw [hs]; rfl) ?_ rfl ?_
    · simp only [Net.goto, Function.update_self, Conn.onLock]
      split
      · rfl
      · exact command_early _
    · simp only [Net.goto, Function.update_self, Conn.onLock]
      split <;> exact id
  | openFile hs =>
    refine hsv.early (by rw [hs]; rfl) ?_ rfl ?_
    · simp only [Net.goto, Function.update_self, Conn.onOpen]; exact command_early _
    · simp only [Function.update_self]
      exact fun _ _ => ⟨0, rfl, by decide⟩
  | ioctl hs ho he => exact hsv.ioctl h hl hs he
  | write hs he hr => exact hsv.written hs (write_done h he hr).1
  | unlock hs =>
    rw [serving_early_iff (by rw [hs]; rfl)] at hsv
    simp only [Serving, Net.goto, Function.update_self, Conn.onUnlock]
    cases hfd : (n.conn p).fileFd with
    | true =>
      obtain ⟨pos, hf, hlt⟩ := hsv.2 hfd
      simp only [if_true]
      exact ⟨⟨pos, pos, hf, hlt, by rw [hf], by rw [hsv.1]; exact follows_nil_iff.2 rfl⟩, trivial⟩
    | false => simpa only [Bool.false_eq_true, if_false] using hsv.1
  | read hs ho he => exact hsv.read h hl hmem hs ho he
  | send hs =>
    simp only [Serving, hs] at hsv
    simpa only [Serving, Net.goto, Function.update_self, Conn.onSend] using hsv
  | close hs =>
    simp only [Serving, hs] at hsv
    simp only [Serving, Net.goto, Function.update_self, Conn.onClose]
    exact hsv

/-- A failing call of the connection itself, before it reads. -/
theorem Serving.ownFail (h : Holds k n.sys ring pend rest) (hl : n.sys.dev.lock = false)
    (hsv : Serving states n p) (hst : Net.Fail k p n n') (hearly : (n.conn p).stage.answering ≠ true) :
    Serving states n' p := by
  cases hst with
  | recv hs => exact hsv.ended hs (Function.update_self ..) rfl rfl
  | openFile hs =>
    refine hsv.early (by rw [hs]; rfl) ?_ rfl ?_
    · simp only [Net.goto, Function.update_self, Conn.onOpen]; exact command_early _
    · simp only [Net.goto, Function.update_self, Conn.onOpen]
      exact fun _ hfd => by cases hfd
  | ioctl hs he => exact hsv.ioctl h hl hs he
  | write hs he hr hne => exact hsv.written hs (write_failed h he hr hne).1
  | read hs => exact absurd (by rw [hs]; rfl) hearly
  | send accepted hs => exact absurd (by rw [hs]; rfl) hearly

/-! ## Steps of the others -/

/-- What other connections cannot touch. -/
structure Kept (n n' : Net ι) (p : ι) : Prop where
  conn : n'.conn p = n.conn p
  file : n'.file p = n.file p
  response : n'.response p = n.response p
  readFrom : n'.readFrom p = n.readFrom p

theorem Net.Step.kept (hst : Net.Step k q n n') (hq : p ≠ q) : Kept n n' p := by
  cases hst <;> constructor <;> first | rfl | exact Function.update_of_ne hq _ _

theorem Net.Fail.kept (hst : Net.Fail k q n n') (hq : p ≠ q) : Kept n n' p := by
  cases hst <;> constructor <;> first | rfl | exact Function.update_of_ne hq _ _

omit [DecidableEq ι] in
/-- A step of another connection moves the contents only at their end, or before
the first read. -/
theorem Serving.frame (h : Serving states n p) (hk : Kept n n' p)
    (hcont : (∃ more, n'.sys.contents = n.sys.contents ++ more) ∨ ¬ n.MidResponse p) : Serving states n' p := by
  have hdel : ∀ start got, (n.MidResponse p ∨ got = []) → Delivered n.sys (n.file p) start got →
      Delivered n'.sys (n.file p) start got := by
    rintro start got hmid ⟨pos, from_, hf, hlt, hstart, hfol⟩
    refine ⟨pos, from_, hf, hlt, hstart, ?_⟩
    rcases hcont with ⟨more, he⟩ | hn
    · rw [he]; exact hfol.append more
    · obtain rfl := hmid.resolve_left hn
      exact follows_nil_iff.2 (follows_nil_iff.1 hfol)
  unfold Serving at h ⊢
  rw [hk.conn, hk.file, hk.response, hk.readFrom]
  cases hs : (n.conn p).stage with
  | read =>
    rw [hs] at h
    refine ⟨hdel _ _ ?_ h.1, h.2⟩
    by_cases hr : n.response p = []
    · exact .inr hr
    · exact .inl (by simpa only [Net.MidResponse, hs] using hr)
  | send buffer =>
    rw [hs] at h
    exact ⟨hdel _ _ (.inl (by simp only [Net.MidResponse, hs])) h.1, h.2⟩
  | close =>
    rw [hs] at h
    simpa only [Net.Snapshot, hk.response, hk.readFrom] using h
  | finished =>
    rw [hs] at h
    simpa only [Net.Snapshot, hk.response, hk.readFrom] using h
  | recv => rw [hs] at h; exact h
  | lock => rw [hs] at h; exact h
  | openFile => rw [hs] at h; exact h
  | ioctl seekto => rw [hs] at h; exact h
  | write node => rw [hs] at h; exact h
  | unlock => rw [hs] at h; exact h

/-- Every undisturbing step keeps the invariant. -/
theorem Serving.step (hok : Ok k n.sys) (hl : n.sys.dev.lock = false) (hmem : n ∈ states)
    (hsv : Serving states n p) (hst : Net.Undisturbed k p n n') :
    Ok k n'.sys ∧ n'.sys.dev.lock = false ∧ Serving states n' p := by
  obtain ⟨ring, pend, rest, h⟩ := hok
  obtain ⟨q, ⟨hst, hq⟩ | ⟨hst, hq⟩⟩ := hst
  · obtain ⟨hok', hl', hcont⟩ := hst.contents h hl
    refine ⟨hok', hl', ?_⟩
    by_cases he : p = q
    · subst he
      exact hsv.own h hl hmem hst
    · refine hsv.frame (hst.kept he) ?_
      rcases hcont with hev | hmore
      · exact .inr fun hmid => hq ⟨hmid, hev⟩
      · exact .inl hmore
  · obtain ⟨hok', hl', hcont⟩ := hst.contents h hl
    refine ⟨hok', hl', ?_⟩
    by_cases he : p = q
    · subst he
      exact hsv.ownFail h hl hst fun hanswering => hq ⟨rfl, hanswering⟩
    · exact hsv.frame (hst.kept he) (.inl ⟨[], by rw [hcont, List.append_nil]⟩)

end Steps

/-! ## Responses -/

/-- In every run in which no entry is evicted in the middle of connection `p`'s
response, none of its reads fails and each of its `send`s accepts its whole
buffer, the response is what the device held at one moment of its service. Other
calls may fail, and other connections' `send`s may fall short. -/
theorem responses_are_snapshots (k : Kernel) {ι : Type} [DecidableEq ι] {s₀ : Sys} (h₀ : Ok k s₀)
    (hl : s₀.dev.lock = false) (streams : ι → List UInt8) (p : ι) {l : List (Net ι)} {n : Net ι}
    (hrun : Run (Net.Undisturbed k p) (Net.start s₀ streams) l n) (hserved : (n.conn p).stage.served = true) :
    if (n.conn p).fileFd = true then n.Snapshot (Net.start s₀ streams :: l) p else n.response p = [] := by
  obtain ⟨-, -, hsv⟩ := hrun.induct
    (fun l n => Ok k n.sys ∧ n.sys.dev.lock = false ∧ Serving (Net.start s₀ streams :: l) n p)
    ⟨h₀, hl, (serving_early_iff rfl).2 ⟨rfl, fun hfd => by cases hfd⟩⟩
    fun l m m' hr ⟨hok, hl, hsv⟩ hst => by
      obtain ⟨hok', hl', hsv'⟩ := hsv.step hok hl hr.last_mem hst
      exact ⟨hok', hl', hsv'.mono (by rw [← List.cons_append]; exact List.subset_append_left _ _)⟩
  exact (serving_served_iff hserved).1 hsv

/-- One connection alone, to an empty device. -/
theorem responses_are_snapshots_line :
    ∃ l n, Run (Net.Undisturbed .pages4K ()) (Net.start aesdInitModule fun _ => [97, newline]) l n ∧
      n.response () = [some 97, some newline] ∧
      n.Snapshot (Net.start aesdInitModule (fun _ => [97, newline]) :: l) () := by
  have quiet : ∀ {n : Net Unit}, (∀ chunk node, (n.conn ()).stage ≠ .write (chunk :: node)) →
      ¬ (n.MidResponse () ∧ n.Evicts ()) := fun h ⟨_, _, _, _, hw, _⟩ => h _ _ hw
  have h0 : Run (Net.Undisturbed .pages4K ()) (Net.start aesdInitModule fun _ => [97, newline]) [] _ := .nil
  have h1 := h0.snoc ⟨(), .inl ⟨.recv [97, newline] [] rfl rfl (by decide) (by decide), quiet fun _ _ h => by cases h⟩⟩
  have h2 := h1.snoc ⟨(), .inl ⟨.lock rfl rfl, quiet fun _ _ h => by cases h⟩⟩
  have h3 := h2.snoc ⟨(), .inl ⟨.openFile rfl, quiet fun _ _ h => by cases h⟩⟩
  have h4 := h3.snoc ⟨(), .inl ⟨.write (o := ⟨false, some 0, some 0, 0⟩) rfl rfl rfl, fun h => h.1⟩⟩
  have h5 := h4.snoc ⟨(), .inl ⟨.unlock rfl, quiet fun _ _ h => by cases h⟩⟩
  have h6 := h5.snoc ⟨(), .inl ⟨.read (o := ⟨false, none, none, 0⟩) rfl ⟨rfl, rfl⟩ rfl, quiet fun _ _ h => by cases h⟩⟩
  have h7 := h6.snoc ⟨(), .inl ⟨.send rfl, quiet fun _ _ h => by cases h⟩⟩
  have h8 := h7.snoc ⟨(), .inl ⟨.read (o := ⟨false, none, none, 0⟩) rfl ⟨rfl, rfl⟩ rfl, quiet fun _ _ h => by cases h⟩⟩
  exact ⟨_, _, h8, rfl, responses_are_snapshots .pages4K ⟨[], [], [], holds_init _⟩ rfl _ () h8 rfl⟩

/-- Connection `true` asks for entry 8 of ten, `"8\n"` and `"9\n"`; between its
two reads connection `false` stores a line, and the second read skips `"9\n"`. -/
theorem response_skips_line :
    ∃ evs s l n, runCalls .pages4K tenLines aesdInitModule = .ok (evs, s) ∧
      Run (Net.AnyStep .pages4K) (Net.start s fun p : Bool =>
        if p then AESDCHAR_IOCSEEKTO_CMD ++ [56, 44, 48, newline] else [98, newline]) l n ∧
      (n.conn true).stage = .finished ∧ (n.conn true).fileFd = true ∧ n.readFrom true = 16 ∧
      n.response true = [some 56, some newline, some 98, some newline] ∧
      ¬ n.Snapshot (Net.start s (fun p : Bool =>
        if p then AESDCHAR_IOCSEEKTO_CMD ++ [56, 44, 48, newline] else [98, newline]) :: l) true := by
  obtain ⟨evs, s, hr, hok, hd⟩ := runCalls_tenLines
  let full : Device := tenLinesDevice
  let shifted : Device := ⟨⟨full.log.entries.tail ++ [[some 98, some newline]], []⟩, false, false⟩
  -- the five calls on the device
  obtain ⟨s1, he1, hok1, hd1⟩ := hok.exec
    ⟨some ⟨true, 0⟩, .ioctl AESDCHAR_IOCSEEKTO ⟨8, 0⟩, ⟨false, none, none, 0⟩⟩
    ⟨some 0, [], 16⟩ full (by rw [hd]; decide +kernel)
  obtain ⟨s2, he2, hok2, hd2⟩ := hok1.exec
    ⟨some ⟨true, 16⟩, .read true BUFFER_SIZE, ⟨false, none, none, 0⟩⟩
    ⟨some 2, [some 56, some newline], 18⟩ full (by rw [hd1]; decide +kernel)
  obtain ⟨s3, he3, hok3, hd3⟩ := hok2.exec
    ⟨some ⟨true, 0⟩, .write (some [98, newline]), ⟨false, some 0, some 0, 0⟩⟩
    ⟨some 2, [], 0⟩ shifted (by rw [hd2]; decide +kernel)
  obtain ⟨s4, he4, hok4, hd4⟩ := hok3.exec
    ⟨some ⟨true, 18⟩, .read true BUFFER_SIZE, ⟨false, none, none, 0⟩⟩
    ⟨some 2, [some 98, some newline], 20⟩ shifted (by rw [hd3]; decide +kernel)
  obtain ⟨s5, he5, -, hd5⟩ := hok4.exec
    ⟨some ⟨true, 20⟩, .read true BUFFER_SIZE, ⟨false, none, none, 0⟩⟩
    ⟨some 0, [], 20⟩ shifted (by rw [hd4]; decide +kernel)
  -- the run, with what the device holds after each step
  have h0 : Run (fun n n' : Net Bool => Net.AnyStep .pages4K n n' ∧ (device n'.sys = full ∨ device n'.sys = shifted))
    (Net.start s fun p : Bool => if p then AESDCHAR_IOCSEEKTO_CMD ++ [56, 44, 48, newline] else [98, newline])
    [] _ := .nil
  have h1 := h0.snoc
    ⟨⟨true, .recv (AESDCHAR_IOCSEEKTO_CMD ++ [56, 44, 48, newline]) [] rfl rfl (by decide) (by decide)⟩, .inl hd⟩
  have h2 := h1.snoc ⟨⟨true, .lock rfl rfl⟩, .inl hd⟩
  have h3 := h2.snoc ⟨⟨true, .openFile rfl⟩, .inl hd⟩
  have h4 := h3.snoc ⟨⟨true, .ioctl rfl ⟨rfl, rfl⟩ he1⟩, .inl hd1⟩
  have h5 := h4.snoc ⟨⟨true, .unlock rfl⟩, .inl hd1⟩
  have h6 := h5.snoc ⟨⟨true, .read rfl ⟨rfl, rfl⟩ he2⟩, .inl hd2⟩
  have h7 := h6.snoc ⟨⟨true, .send rfl⟩, .inl hd2⟩
  have h8 := h7.snoc ⟨⟨false, .recv [98, newline] [] rfl rfl (by decide) (by decide)⟩, .inl hd2⟩
  have h9 := h8.snoc ⟨⟨false, .lock rfl rfl⟩, .inl hd2⟩
  have h10 := h9.snoc ⟨⟨false, .openFile rfl⟩, .inl hd2⟩
  have h11 := h10.snoc ⟨⟨false, .write rfl he3 rfl⟩, .inr hd3⟩
  have h12 := h11.snoc ⟨⟨false, .unlock rfl⟩, .inr hd3⟩
  have h13 := h12.snoc ⟨⟨true, .read rfl ⟨rfl, rfl⟩ he4⟩, .inr hd4⟩
  have h14 := h13.snoc ⟨⟨true, .send rfl⟩, .inr hd4⟩
  have h15 := h14.snoc ⟨⟨true, .read rfl ⟨rfl, rfl⟩ he5⟩, .inr hd5⟩
  have h16 := h15.snoc ⟨⟨true, .close rfl⟩, .inr hd5⟩
  refine ⟨evs, s, _, _, hr, h16.split.1, rfl, rfl, rfl, rfl, ?_⟩
  rintro ⟨m, hm, -, he⟩
  have hresp : [some 56, some newline, some 98, some newline] = (device m.sys).log.contents.drop 16 := he
  have hm : device m.sys = full ∨ device m.sys = shifted := by
    rcases List.mem_cons.1 hm with rfl | hm
    · exact .inl hd
    · exact h16.split.2 m hm
  rcases hm with hm | hm <;> rw [hm] at hresp <;> revert hresp <;> decide +kernel

end Aesd
