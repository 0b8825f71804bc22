import Aesd.Server.DeviceLock
/-!
# Draining the server

From wherever a run of the process is, its threads can be brought to their ends
without a new connection: clients hang up, files come to an end, calls of the
driver return, and nobody waits for `file_mutex` for good. One thing stands in
the way, a thread that waits in `aesd_write` for a lock that a read has kept.

A thread about to send on a connection that its client has reset is left out.
What its `send` does depends on what the kernel has reported before: `ECONNRESET`,
and the thread goes on as if the reset came later, or `SIGPIPE`.
-/

namespace Aesd

open SysLib

namespace Process

variable {device : Bool} {p p' : Process} {a : Action} {t : Nat} {states : List Process}

/-- No thread is about to send on a connection that has been reset. -/
def Unbroken (p : Process) : Prop := ∀ t buffer, p.At t (.send buffer) → p.reset t = false

/-! ## Steps on the way out -/

/-- A step that creates no thread and takes none back, and that breaks nothing. -/
structure Quiet (device : Bool) (p p' : Process) : Prop where
  step : ∃ a, a.ReadsNothing ∧ Step device a p p'
  alive : p.Alive → p'.Alive
  unbroken : p.Unbroken → p'.Unbroken
  born : ∀ t, p.threads.worker t ≠ none → p'.threads.worker t ≠ none
  returned : ∀ t, p.threads.worker t = some .returned → p'.threads.worker t = some .returned

theorem OwnStep.quiet {o : Owner} (h : OwnStep device p o p') : Quiet device p p' := by
  obtain ⟨a, -, hunread, hst⟩ := h.step
  refine ⟨⟨a, hunread, hst⟩, fun halive => ?_, fun hu t buffer hat => ?_, fun t ht => ?_, fun t ht => ?_⟩
  · rw [Alive, h.main, h.killed]
    exact halive
  · obtain ⟨hr, hs⟩ := hat
    have hne : some (.thread t) ≠ some o := fun he => h.unsent t buffer he hs
    rw [h.threads] at hr
    rw [h.client t hne] at hs
    rw [h.reset]
    exact hu t buffer ⟨hr, hs⟩
  · rw [h.threads]
    exact ht
  · rw [h.threads]
    exact ht

/-- A thread that has left `processClientConnection` gets on. -/
theorem quiet_of_worker {w : Worker} (hst : Step device a p p') (ha : a.ReadsNothing) (hw : ∀ arg, w ≠ .running arg)
    (ht : p.threads.worker t ≠ some .returned) (hm : p'.main = p.main) (hk : p'.killed = p.killed)
    (hr : p'.reset = p.reset) (hc : p'.client = p.client)
    (hworker : p'.threads.worker = Function.update p.threads.worker t (some w)) : Quiet device p p' := by
  refine ⟨⟨a, ha, hst⟩, fun halive => ?_, fun hu u buffer hat => ?_, fun u hu => ?_, fun u hu => ?_⟩
  · rw [Alive, hm, hk]
    exact halive
  · obtain ⟨⟨arg, hrun⟩, hs⟩ := hat
    have hne : u ≠ t := by
      rintro rfl
      rw [hworker, Function.update_self] at hrun
      exact hw arg (Option.some.inj hrun)
    rw [hworker, Function.update_of_ne hne] at hrun
    rw [hc] at hs
    rw [hr]
    exact hu u buffer ⟨⟨arg, hrun⟩, hs⟩
  · by_cases hne : u = t
    · rw [hworker, hne, Function.update_self]
      exact Option.some_ne_none _
    · rw [hworker, Function.update_of_ne hne]
      exact hu
  · have hne : u ≠ t := by
      rintro rfl
      exact ht hu
    rw [hworker, Function.update_of_ne hne]
    exact hu

/-- What holds of such steps holds of any number of them. -/
structure Drained (device : Bool) (p : Process) (states : List Process) (p' : Process) : Prop where
  run : p.Alive → Run (UnreadStep device) p states p' ∧ p'.Alive
  steady : p.Steady → p'.Steady
  unbroken : p.Unbroken → p'.Unbroken
  born : ∀ t, p.threads.worker t ≠ none → p'.threads.worker t ≠ none
  returned : ∀ t, p.threads.worker t = some .returned → p'.threads.worker t = some .returned

theorem drained_nil : Drained device p [] p := ⟨fun h => ⟨.nil, h⟩, id, id, fun _ => id, fun _ => id⟩

theorem Drained.append {p'' : Process} {states' : List Process} (h : Drained device p states p')
    (h' : Drained device p' states' p'') : Drained device p (states ++ states') p'' := by
  refine ⟨fun halive => ?_, h'.steady ∘ h.steady, h'.unbroken ∘ h.unbroken, fun t => h'.born t ∘ h.born t,
    fun t => h'.returned t ∘ h.returned t⟩
  obtain ⟨hrun, halive'⟩ := h.run halive
  obtain ⟨hrun', halive''⟩ := h'.run halive'
  exact ⟨hrun.append hrun', halive''⟩

theorem Quiet.drained (h : Quiet device p p') : Drained device p [p'] p' := by
  obtain ⟨a, hunread, hst⟩ := h.step
  exact ⟨fun halive => ⟨Run.nil.snoc ⟨halive, a, hunread, hst⟩, h.alive halive⟩, fun hs => hs.step hst, h.unbroken,
    h.born, h.returned⟩

theorem drained_of_owns (h : Run (OwnsStep device) p states p') : Drained device p states p' := by
  induction h with
  | nil => exact drained_nil
  | snoc _ hst ih =>
    obtain ⟨o, hown⟩ := hst
    exact ih.append hown.quiet.drained

end Process

/-! ## A thread behind its section -/

/-- How many calls a connection that has locked the mutex has left at most, if
`open` fails and files come to an end. -/
def Client.left (c : Client) : Nat :=
  match c.conn.stage with
  | .openFile => 7
  | .ioctl _ => 6
  | .write node => node.length + 5
  | .unlock => 5
  | .send _ => 4
  | .read => 3
  | .close => if c.fileFd = none then 1 else 2
  | _ => 0

theorem Conn.copyLoop_cases (fileFd : Bool) (node : List (List UInt8)) :
    (copyLoop fileFd node = .write node ∧ fileFd = true) ∨ copyLoop fileFd node = .unlock := by
  unfold copyLoop
  split
  next h => exact .inl ⟨rfl, h.1⟩
  next => exact .inr rfl

/-- Without the file there is nothing to write. -/
theorem Conn.onOpen_false (c : Conn) :
    (∃ seekto, (c.onOpen false).stage = .ioctl seekto) ∨ (c.onOpen false).stage = .unlock := by
  unfold onOpen command
  split
  · exact .inl ⟨_, rfl⟩
  · rcases copyLoop_cases false c.chunks with ⟨-, he⟩ | he
    · cases he
    · exact .inr he

theorem Client.left_close_le {c : Client} (h : c.conn.stage = .close) : c.left ≤ 2 := by
  rw [Client.left, h]
  simp only
  split <;> omega

namespace Process

variable {device : Bool} {p p' : Process} {a : Action} {t : Nat} {states : List Process}

/-- It has a next call. -/
theorem Steady.goesOn (h : p.Steady) (hu : p.Unbroken) (hr : ∃ arg, p.threads.worker t = some (.running arg))
    (hpast : p.Past (.thread t)) (hne : (p.client t).conn.stage ≠ .finished) :
    ∃ p', OwnStep device p (.thread t) p' ∧ (p'.client t).left < (p.client t).left := by
  have hgo {a : Action} {p' : Process} {c : Client} (hst : Step device a p p') (ha : a.owner = some (.thread t))
      (hread : a.ReadsNothing) (hs : ∀ buffer, c.conn.stage ≠ .send buffer) (hm : p'.main = p.main) (hk : p'.killed = p.killed)
      (hrst : p'.reset = p.reset) (hth : p'.threads = p.threads) (hc : p'.client = Function.update p.client t c)
      (htm : p'.timer = p.timer) (hleft : c.left < (p.client t).left) :
      ∃ p', OwnStep device p (.thread t) p' ∧ (p'.client t).left < (p.client t).left := by
    refine ⟨p', .thread ⟨a, ha, hread, hst⟩ hs hm hk hrst hth hc htm, ?_⟩
    rw [hc, Function.update_self]
    exact hleft
  cases hs : (p.client t).conn.stage with
  | recv => exact absurd hs hpast.1
  | lock => exact absurd hs hpast.2
  | finished => exact absurd hs hne
  | openFile =>
    refine hgo (.openFile none ⟨hr, hs⟩ fun _ he => by cases he) rfl trivial
      (Conn.ne_send_of_toUnlock _ (Conn.onOpen_toUnlock _ false).1) rfl rfl rfl rfl rfl rfl ?_
    rcases (p.client t).conn.onOpen_false with ⟨seekto, he⟩ | he
    · simp [Client.left, hs, he]
    · simp [Client.left, hs, he]
  | ioctl seekto =>
    refine hgo (.ioctl ⟨hr, hs⟩) rfl trivial (by simp [Conn.onIoctl]) rfl rfl rfl rfl rfl rfl ?_
    simp [Client.left, hs, Conn.onIoctl]
  | write node =>
    cases node with
    | nil => exact absurd hs (h.locking.writing t)
    | cons chunk node =>
      refine hgo (.write ⟨hr, hs⟩) rfl trivial (Conn.ne_send_of_toUnlock _ (Conn.onWrite_toUnlock _ node).1) rfl rfl
        rfl rfl rfl rfl ?_
      rcases Conn.copyLoop_cases (p.client t).conn.fileFd node with ⟨he, -⟩ | he
      · simp [Client.left, hs, Conn.onWrite, he]
      · simp [Client.left, hs, Conn.onWrite, he]
  | unlock =>
    refine hgo (.unlock ⟨hr, hs⟩) rfl trivial (Conn.onUnlock_ne_send _) rfl rfl rfl rfl rfl rfl ?_
    have h5 : (p.client t).left = 5 := by rw [Client.left, hs]
    rw [h5]
    cases hf : (p.client t).conn.fileFd with
    | true => simp [Client.left, Conn.onUnlock, hf]
    | false => exact Nat.lt_of_le_of_lt (Client.left_close_le (by simp [Conn.onUnlock, hf])) (by omega)
  | read =>
    refine hgo (.read [] ⟨hr, hs⟩ (Nat.zero_le _)) rfl rfl (by simp [Conn.onRead]) rfl rfl rfl rfl rfl rfl ?_
    have h3 : (p.client t).left = 3 := by rw [Client.left, hs]
    rw [h3]
    exact Nat.lt_of_le_of_lt (Client.left_close_le (by simp [Conn.onRead])) (by omega)
  | send buffer =>
    have hreset : p.reset t = false := hu t buffer ⟨hr, hs⟩
    have hst : Step device (.send t) p (p.send t) := .send ⟨hr, hs⟩
    rw [send, if_neg (by rw [hreset]; exact Bool.false_ne_true)] at hst
    refine hgo hst rfl trivial (by simp [Conn.onSend]) rfl rfl rfl rfl rfl rfl ?_
    simp [Client.left, hs, Conn.onSend]
  | close =>
    cases hf : (p.client t).fileFd with
    | some fd =>
      refine hgo (.closeFile ⟨hr, hs⟩ hf) rfl trivial (by simp [hs]) rfl rfl rfl rfl rfl rfl ?_
      simp [Client.left, hs, hf]
    | none =>
      have hfits := h.fit t
      obtain ⟨arg, hrun⟩ := hr
      rw [hrun] at hfits
      cases hc : (p.client t).clientFd with
      | none => exact absurd (hfits.1.1 hc) hne
      | some fd =>
        refine hgo (.closeClient ⟨⟨arg, hrun⟩, hs⟩ hf hc) rfl trivial (by simp [Conn.onClose]) rfl rfl rfl rfl rfl rfl ?_
        simp [Client.left, hs, hf, Conn.onClose]

/-- It sets its flag. -/
theorem Steady.setDone (h : p.Steady) {arg : Nat} (hr : p.threads.worker t = some (.running arg)) :
    ∃ n, p.threads.setDone t arg = .ok (p.threads.flag t arg n) := by
  obtain ⟨l, extra, hinv⟩ := h.locking.sound.inv
  obtain ⟨n, hn, -⟩ := (hinv.nodes arg t).1 (hinv.running t arg hr)
  exact ⟨n, by simp only [Threads.setDone, Threads.load, hn, ok_bind]⟩

/-- It returns. -/
theorem drained_of_done (hd : p.threads.worker t = some .done) :
    ∃ states p', Drained device p states p' ∧ p'.threads.worker t = some .returned := by
  refine ⟨_, _, (quiet_of_worker (.returns hd) trivial (by simp) (by simp [hd]) rfl rfl rfl rfl rfl).drained, ?_⟩
  exact Function.update_self ..

theorem Steady.finishes (h : p.Steady) (hu : p.Unbroken) (hr : ∃ arg, p.threads.worker t = some (.running arg))
    (hpast : p.Past (.thread t)) : ∃ states p', Drained device p states p' ∧ p'.threads.worker t = some .returned := by
  -- by induction on the calls it has left
  induction hn : (p.client t).left using Nat.strong_induction_on generalizing p with
  | _ n ih =>
    by_cases hfin : (p.client t).conn.stage = .finished
    · obtain ⟨arg, hrun⟩ := hr
      obtain ⟨node, hdone⟩ := h.setDone hrun
      have hflag : Quiet device p { p with threads := p.threads.flag t arg node } :=
        quiet_of_worker (.setDone hrun hfin hdone) trivial (by simp) (by simp [hrun]) rfl rfl rfl rfl rfl
      obtain ⟨states, p', hdrained, hret⟩ : ∃ states p', Drained device _ states p' ∧ _ :=
        drained_of_done (p := { p with threads := p.threads.flag t arg node }) (Function.update_self ..)
      exact ⟨_, p', hflag.drained.append hdrained, hret⟩
    · obtain ⟨p₁, hown, hless⟩ : ∃ p₁, OwnStep device p (.thread t) p₁ ∧ _ := h.goesOn hu hr hpast hfin
      obtain ⟨a, -, -, hst⟩ := hown.step
      have hr₁ : ∃ arg, p₁.threads.worker t = some (.running arg) := by
        rw [hown.threads]
        exact hr
      obtain ⟨states, p', hdrained, hret⟩ := ih _ (hn ▸ hless) (h.step hst) (hown.quiet.unbroken hu) hr₁
        (hst.past h.locking.sound h.unborn hpast) rfl
      exact ⟨_, p', hown.quiet.drained.append hdrained, hret⟩

/-! ## Every thread -/

theorem Steady.returns_of_lock (h : p.Steady) (hu : p.Unbroken) (hw : p.At t .lock) :
    ∃ states p', Drained device p states p' ∧ p'.threads.worker t = some .returned := by
  obtain ⟨states, p₁, hrun, hm⟩ : ∃ states p₁, Run (OwnsStep device) p states p₁ ∧ p₁.mutex = some (.thread t) :=
    h.locking.reaches hw
  have hdrained := drained_of_owns hrun
  have h₁ := hdrained.steady h
  have hin : p₁.Inside (.thread t) := (h₁.locking.exclusive _).2 hm
  have hpast : p₁.Past (.thread t) := ⟨Conn.ne_of_toUnlock _ hin rfl, Conn.ne_of_toUnlock _ hin rfl⟩
  obtain ⟨states', p', hdrained', hret⟩ : ∃ states p', Drained device p₁ states p' ∧ _ :=
    h₁.finishes (hdrained.unbroken hu) (h₁.locking.running hin) hpast
  exact ⟨_, p', hdrained.append hdrained', hret⟩

/-- A thread can be brought to its end. -/
theorem Steady.returns (h : p.Steady) (hu : p.Unbroken) (hborn : p.threads.worker t ≠ none) :
    ∃ states p', Drained device p states p' ∧ p'.threads.worker t = some .returned := by
  cases hw : p.threads.worker t with
  | none => exact absurd hw hborn
  | some w =>
    cases w with
    | returned => exact ⟨[], p, drained_nil, hw⟩
    | done => exact drained_of_done hw
    | running arg =>
      by_cases hrecv : (p.client t).conn.stage = .recv
      · -- its client hangs up
        have hown : OwnStep device p (.thread t) (p.goto t ((p.client t).conn.onRecv [])) :=
          .thread ⟨_, rfl, by trivial, .recv [] ⟨⟨arg, hw⟩, hrecv⟩ (Nat.zero_le _)⟩ (by simp [Conn.onRecv]) rfl rfl
            rfl rfl rfl rfl
        obtain ⟨a, -, -, hst⟩ := hown.step
        have hat : (p.goto t ((p.client t).conn.onRecv [])).At t .lock := by
          refine ⟨⟨arg, hw⟩, ?_⟩
          show ((Function.update p.client t _) t).conn.stage = .lock
          rw [Function.update_self, Conn.onRecv_end]
        obtain ⟨states, p', hdrained, hret⟩ : ∃ states p', Drained device _ states p' ∧ _ :=
          (h.step hst).returns_of_lock (hown.quiet.unbroken hu) hat
        exact ⟨_, p', hown.quiet.drained.append hdrained, hret⟩
      · by_cases hlock : (p.client t).conn.stage = .lock
        · exact h.returns_of_lock hu ⟨⟨arg, hw⟩, hlock⟩
        · exact h.finishes hu ⟨arg, hw⟩ ⟨hrecv, hlock⟩

end Process

open Driven

/-! ## Every run -/

section Results

variable {device : Bool} {states : List Driven} {d : Driven}

theorem Driven.Stuck.worker {t : Nat} (h : d.Stuck t) (hs : d.Sound device) :
    ∃ arg, d.proc.threads.worker t = some (.running arg) :=
  (hs.linked.drives h.2.1 nofun).1

end Results

end Aesd
