import Aesd.Server.Turns
/-!
# `dev->lock` under `file_mutex`

In the device build `ioctl`, `write` and `read` of a thread are calls of
`aesd_ioctl`, `aesd_write` and `aesd_read`, which lock `dev->lock`. The first two
are made under `file_mutex`, the last is not. So the holder of `file_mutex` may
have to wait for a reader of another connection, or for another process that uses
the device. It waits for good where a read whose `copy_to_user` failed has kept
the lock and the waiting call is `aesd_write`, which no signal interrupts: its open
file keeps the module, and with it the lock.
-/

namespace Aesd

open SysLib

/-! ## The calls of the driver -/

/-- A connection makes a call of the driver next. Without a descriptor `ioctl`
fails before it gets there. -/
def Conn.Drives (c : Conn) : Prop :=
  match c.stage with
  | .ioctl _ => c.fileFd = true
  | .write _ | .read => True
  | _ => False

/-- The thread that returns from a call of the driver. -/
def Process.Action.driver : Process.Action → Option Nat
  | .ioctl t | .write t | .read t _ => some t
  | _ => none

/-- The call fails before it locks `dev->lock`: `EBADF`, `EFAULT` or `ENOMEM`. -/
def Process.Action.early : Process.Action → Option Nat
  | .ioctl t | .write t => some t
  | _ => none

/-- A signal ends the wait in `mutex_lock_interruptible`; `aesd_write` has `mutex_lock`. -/
def Process.Action.interruptible : Process.Action → Option Nat
  | .ioctl t | .read t [] => some t
  | _ => none

namespace Process

variable {device : Bool} {p p' : Process} {a : Action} {t u : Nat}

theorem Action.owner_of_driver (h : a.driver = some t) : a.owner = some (.thread t) := by
  cases a <;> cases h <;> rfl

theorem Action.driver_of_early (h : a.early = some t) : a.driver = some t := by
  cases a <;> cases h <;> rfl

theorem Action.driver_of_interruptible (h : a.interruptible = some t) : a.driver = some t := by
  cases a with
  | ioctl u => exact h
  | read u buffer =>
    cases buffer with
    | nil => exact h
    | cons => cases h
  | _ => cases h

/-- Thread `t` is about to make a call of the driver, or is in one. -/
def Drives (p : Process) (t : Nat) : Prop :=
  (∃ arg, p.threads.worker t = some (.running arg)) ∧ (p.client t).conn.Drives

/-- In a call of the driver a thread makes no other call. -/
theorem Step.driver_of_drives (hst : Step device a p p') (h : p.Drives t) (ho : a.owner = some (.thread t)) :
    a.driver = some t := by
  obtain ⟨⟨arg, hr⟩, hd⟩ := h
  rw [Conn.Drives] at hd
  cases hst with
  | ioctl hat | write hat | read buffer hat =>
    obtain rfl := Owner.thread.inj (Option.some.inj ho)
    rfl
  | recv bytes hat | lock hat hm | openFile r hat | unlock hat | send hat | closeFile hat | closeClient hat =>
    obtain rfl := Owner.thread.inj (Option.some.inj ho)
    rw [hat.2] at hd
    exact hd.elim
  | setDone hr' hfin =>
    obtain rfl := Owner.thread.inj (Option.some.inj ho)
    rw [hfin] at hd
    exact hd.elim
  | returns hdone =>
    obtain rfl := Owner.thread.inj (Option.some.inj ho)
    rw [hr] at hdone
    cases hdone
  | timerLock | timerOpen | timerWrite | timerClose | timerUnlock => cases ho
  | _ => cases ho

/-- A running thread goes on to run unless it sets its flag itself. -/
theorem Step.running (hst : Step device a p p') (hs : p.Sound) {arg : Nat}
    (hr : p.threads.worker t = some (.running arg)) (ho : a.owner ≠ some (.thread t)) :
    p'.threads.worker t = some (.running arg) := by
  cases hst with
  | @create _ fd arg' hm hn =>
    have hne : t ≠ p.threads.count := by
      rintro rfl
      rw [hs.count_none] at hr
      cases hr
    exact (Function.update_of_ne hne _ _).trans hr
  | walk hm hw hwait he =>
    rw [(Threads.advance_ok he).1]
    exact hr
  | @setDone _ u arg' m hu hfin he =>
    obtain ⟨n, rfl⟩ := Threads.setDone_ok he
    have hne : t ≠ u := by
      rintro rfl
      exact ho rfl
    exact (Function.update_of_ne hne _ _).trans hr
  | @returns _ u hu =>
    have hne : t ≠ u := by
      rintro rfl
      exact ho rfl
    exact (Function.update_of_ne hne _ _).trans hr
  | @send _ u buffer hat =>
    unfold Process.send
    split <;> exact hr
  | _ => exact hr

/-- A thread stays in its call while it does not return from it. -/
theorem Step.driving (hst : Step device a p p') (hs : p.Sound) (hu : p.Unborn) (h : p.Drives t)
    (hne : a.driver ≠ some t) : (p'.client t).conn = (p.client t).conn ∧ p'.Drives t := by
  have ho : a.owner ≠ some (.thread t) := fun ho => hne (hst.driver_of_drives h ho)
  have hsame : (p'.client t).conn = (p.client t).conn := hst.same hs hu ho
  obtain ⟨⟨arg, hr⟩, hd⟩ := h
  refine ⟨hsame, ⟨arg, hst.running hs hr ho⟩, ?_⟩
  rw [hsame]
  exact hd

/-- A call that has not been let into the driver fails before the lock. -/
theorem Step.early (hst : Step device a p p') (h : ¬ p.Drives t) (ha : a.driver = some t) : a.early = some t := by
  cases hst with
  | ioctl hat | write hat => exact ha
  | @read _ u buffer hat =>
    obtain rfl := Option.some.inj ha
    refine absurd ⟨hat.1, ?_⟩ h
    rw [Conn.Drives, hat.2]
    trivial
  | _ => cases ha

/-- A call of the driver may return; a `read` with nothing. -/
theorem Drives.call (h : p.Drives t) (hw : p.Writing) (device : Bool) : ∃ a p', a.driver = some t ∧
    (a.interruptible = some t ∨ ∃ node, (p.client t).conn.stage = .write node) ∧ Step device a p p' ∧
    OwnStep device p (.thread t) p' := by
  obtain ⟨hr, hd⟩ := h
  rw [Conn.Drives] at hd
  cases hs : (p.client t).conn.stage with
  | ioctl seekto =>
    have hst : Step device (.ioctl t) p (p.goto t (p.client t).conn.onIoctl) := .ioctl ⟨hr, hs⟩
    exact ⟨_, _, rfl, .inl rfl, hst,
      .thread ⟨_, rfl, by trivial, hst⟩ (by simp [Conn.onIoctl]) rfl rfl rfl rfl rfl rfl⟩
  | write node =>
    cases node with
    | nil => exact absurd hs (hw t)
    | cons chunk node =>
      have hst : Step device (.write t) p (p.goto t ((p.client t).conn.onWrite node)) := .write ⟨hr, hs⟩
      exact ⟨_, _, rfl, .inr ⟨_, rfl⟩, hst,
        .thread ⟨_, rfl, by trivial, hst⟩ (Conn.ne_send_of_toUnlock _ (Conn.onWrite_toUnlock _ node).1) rfl rfl rfl rfl
          rfl rfl⟩
  | read =>
    have hst : Step device (.read t []) p (p.goto t ((p.client t).conn.onRead [])) := .read [] ⟨hr, hs⟩ (Nat.zero_le _)
    exact ⟨_, _, rfl, .inl rfl, hst, .thread ⟨_, rfl, by rfl, hst⟩ (by simp [Conn.onRead]) rfl rfl rfl rfl rfl rfl⟩
  | _ =>
    rw [hs] at hd
    exact hd.elim

/-- Who goes on holding the mutex pays for its calls. -/
theorem Locking.pays (h : p.Locking) (hst : Step device a p p') {o : Owner} (ho : p.mutex = some o)
    (ho' : p'.mutex = some o) : (if decide (a.owner = some o) then 1 else 0) + p'.toUnlock o ≤ p.toUnlock o := by
  have heff := hst.effect h.sound h.resting
  by_cases ha : a.owner = some o
  · have hin : p.Inside o := (h.exclusive o).2 ho
    simp only [ha, decide_true, if_true]
    cases heff.own o ha with
    | outside h0 => exact absurd h0 (Nat.ne_of_gt hin)
    | enters h0 => exact absurd h0 (Nat.ne_of_gt hin)
    | goesOn _ hless => omega
    | leaves _ _ hm =>
      rw [hm] at ho'
      cases ho'
  · rw [heff.others o ha]
    simp [ha]

/-- What every run keeps. -/
structure Steady (p : Process) : Prop where
  locking : p.Locking
  fit : p.Fit
  unborn : p.Unborn

theorem start_steady : start.Steady := ⟨start_locking, start_fit, fun _ _ => rfl⟩

theorem Steady.step (h : p.Steady) (hst : Step device a p p') : p'.Steady :=
  ⟨h.locking.step hst, h.fit.step hst, h.unborn.step hst⟩

end Process

/-! ## The process on the driver -/

/-- Who has `dev->lock`: a thread inside the driver, another process, or a read
that has returned with it, so that nobody unlocks it. -/
inductive LockHolder where
  | thread (t : Nat)
  | elsewhere
  | kept
  deriving DecidableEq

/-- Where a thread is: in no call of the driver, at its `mutex_lock`, or behind it. -/
inductive DriverPlace where
  | outside
  | waits
  | inside
  deriving DecidableEq

/-- The process, `dev->lock`, and where its threads are in the driver. -/
structure Driven where
  proc : Process
  lock : Option LockHolder
  place : Nat → DriverPlace

/-- A call returns, or any other step of the process; a call returns from its
wait; a thread comes to the lock, or gets it; others use the device. -/
inductive DriverAct where
  | call (a : Process.Action)
  | interrupted (a : Process.Action)
  | asks (t : Nat)
  | acquires (t : Nat)
  | elsewhere

namespace DriverAct

def owner : DriverAct → Option Owner
  | .call a | .interrupted a => a.owner
  | .asks t | .acquires t => some (.thread t)
  | .elsewhere => none

/-- Whose call has returned. -/
def returned : DriverAct → Option Owner
  | .call a | .interrupted a => a.owner
  | _ => none

end DriverAct

namespace Driven

open Process (Action OwnStep OwnsStep UnreadStep live_of_owns)

def start : Driven := ⟨.start, none, fun _ => .outside⟩

/-- Thread `t` goes on in the driver. -/
def put (d : Driven) (t : Nat) (s : DriverPlace) : Driven := { d with place := Function.update d.place t s }

/-- Thread `t` has returned from the driver. -/
def leave (d : Driven) (t : Nat) (p' : Process) : Driven := { d.put t .outside with proc := p' }

/-- A step. In the file build the calls are those of the file system. -/
inductive Step (device : Bool) : DriverAct → Driven → Driven → Prop
  | call {d : Driven} {a : Action} {p' : Process} : (device = true → a.driver = none) → Process.Step device a d.proc p' →
      Step device (.call a) d { d with proc := p' }
  | early {d : Driven} {a : Action} {p' : Process} {t : Nat} : a.early = some t → d.place t = .outside →
      Process.Step device a d.proc p' → Step device (.call a) d { d with proc := p' }
  | asks {d : Driven} {t : Nat} : device = true → d.proc.Drives t → d.place t = .outside →
      Step device (.asks t) d (d.put t .waits)
  | acquires {d : Driven} {t : Nat} : d.place t = .waits → d.lock = none →
      Step device (.acquires t) d { d.put t .inside with lock := some (.thread t) }
  /-- `-ERESTARTSYS`, for `SIGINT` or `SIGTERM`: no other signal is handled. -/
  | interrupted {d : Driven} {a : Action} {p' : Process} {t : Nat} : a.interruptible = some t → d.place t = .waits →
      d.proc.exitRequested = true → Process.Step device a d.proc p' → Step device (.interrupted a) d (d.leave t p')
  /-- `mutex_unlock`, and the return -/
  | returns {d : Driven} {a : Action} {p' : Process} {t : Nat} : a.driver = some t → d.place t = .inside →
      Process.Step device a d.proc p' → Step device (.call a) d { d.leave t p' with lock := none }
  /-- `return 0` behind a failed `copy_to_user` -/
  | keeps {d : Driven} {p' : Process} {t : Nat} : d.place t = .inside → Process.Step device (.read t []) d.proc p' →
      Step device (.call (.read t [])) d { d.leave t p' with lock := some .kept }
  | elsewhereLocks {d : Driven} : d.lock = none → Step device .elsewhere d { d with lock := some .elsewhere }
  | elsewhereUnlocks {d : Driven} : d.lock = some .elsewhere → Step device .elsewhere d { d with lock := none }
  | elsewhereKeeps {d : Driven} : d.lock = some .elsewhere → Step device .elsewhere d { d with lock := some .kept }
  /-- The module is unloaded and loaded again, which it cannot be while a file is open. -/
  | reloads {d : Driven} : d.lock = some .kept → (∀ t, (d.proc.client t).fileFd = none ∧ d.place t = .outside) →
      Step device .elsewhere d { d with lock := none }

def AnyStep (device : Bool) (d d' : Driven) : Prop := d.proc.Alive ∧ ∃ a, Step device a d d'

variable {device : Bool} {d d' : Driven} {a : DriverAct} {t u : Nat}

/-- What the driver does to the process is one of its steps, or nothing. -/
theorem Step.proc (hst : Step device a d d') :
    (∃ b, (a = .call b ∨ a = .interrupted b) ∧ Process.Step device b d.proc d'.proc) ∨
      (a.returned = none ∧ d'.proc = d.proc) := by
  cases hst with
  | call _ hst | early _ _ hst | returns _ _ hst | keeps _ hst => exact .inl ⟨_, .inl rfl, hst⟩
  | interrupted _ _ _ hst => exact .inl ⟨_, .inr rfl, hst⟩
  | _ => exact .inr ⟨rfl, rfl⟩

theorem steady_step (h : d.proc.Steady) (hst : Step device a d d') : d'.proc.Steady := by
  rcases hst.proc with ⟨b, -, hst'⟩ | ⟨-, he⟩
  · exact h.step hst'
  · rw [he]
    exact h

/-! ## Who is where -/

/-- Threads in the driver are in one of its calls, and the one inside has the lock. -/
structure Linked (device : Bool) (d : Driven) : Prop where
  placed : ∀ t, d.place t ≠ .outside → device = true ∧ d.proc.Drives t
  holder : ∀ t, d.place t = .inside ↔ d.lock = some (.thread t)

theorem start_linked : start.Linked device :=
  ⟨fun _ h => absurd rfl h, fun _ => iff_of_false nofun nofun⟩

@[simp] theorem put_self (s : DriverPlace) : (d.put t s).place t = s := Function.update_self ..

theorem put_other (s : DriverPlace) (h : u ≠ t) : (d.put t s).place u = d.place u := Function.update_of_ne h ..

theorem not_inside (s : DriverPlace) (hs : s ≠ .inside) (h : (d.put t s).place u = .inside) :
    u ≠ t ∧ d.place u = .inside := by
  have hne : u ≠ t := by
    rintro rfl
    exact hs ((put_self s).symm.trans h)
  exact ⟨hne, (put_other s hne).symm.trans h⟩

theorem Linked.drives (h : d.Linked device) {s : DriverPlace} (hp : d.place t = s) (hs : s ≠ .outside) :
    d.proc.Drives t :=
  (h.placed t (by rw [hp]; exact hs)).2

/-- The threads in the driver stay there when another one makes a step. -/
theorem Linked.stay (h : d.Linked device) (hs : d.proc.Steady) {b : Action} {p' : Process}
    (hst : Process.Step device b d.proc p') (hb : device = true → b.driver ≠ some u) (hu : d.place u ≠ .outside) :
    device = true ∧ p'.Drives u := by
  obtain ⟨hdev, hd⟩ := h.placed u hu
  exact ⟨hdev, (hst.driving hs.locking.sound hs.unborn hd (hb hdev)).2⟩

/-- Thread `t` returns from the driver. -/
theorem Linked.leave (h : d.Linked device) (hs : d.proc.Steady) {b : Action} {p' : Process} (hb : b.driver = some t)
    (hst : Process.Step device b d.proc p') (u : Nat) (hu : (d.leave t p').place u ≠ .outside) :
    device = true ∧ p'.Drives u := by
  have hne : u ≠ t := by
    rintro rfl
    exact hu (put_self _)
  refine h.stay hs hst (fun _ => ?_) fun he => hu ((put_other _ hne).trans he)
  rw [hb]
  exact fun he => hne (Option.some.inj he).symm

theorem Linked.free (h : d.Linked device) (hl : ∀ u, d.lock ≠ some (.thread u)) (u : Nat) : d.place u ≠ .inside :=
  fun hin => hl u ((h.holder u).1 hin)

theorem Linked.alone (h : d.Linked device) (ht : d.place t = .inside) (hu : u ≠ t ∧ d.place u = .inside) : False := by
  have hl := (h.holder t).1 ht
  rw [(h.holder u).1 hu.2] at hl
  exact hu.1 (LockHolder.thread.inj (Option.some.inj hl))

theorem Linked.step (h : d.Linked device) (hs : d.proc.Steady) (hst : Step device a d d') : d'.Linked device := by
  cases hst with
  | call hb hst =>
    refine ⟨fun u hu => h.stay hs hst (fun hdev => ?_) hu, h.holder⟩
    rw [hb hdev]
    exact nofun
  | @early _ b p' t hb hout hst =>
    refine ⟨fun u hu => h.stay hs hst (fun _ he => hu ?_) hu, h.holder⟩
    rw [Action.driver_of_early hb] at he
    rw [← Option.some.inj he]
    exact hout
  | @asks _ t hdev hd hout =>
    refine ⟨fun u hu => ?_, fun u => ⟨fun hin => ?_, fun hl => ?_⟩⟩
    · by_cases hne : u = t
      · subst hne
        exact ⟨hdev, hd⟩
      · exact h.placed u fun he => hu ((put_other _ hne).trans he)
    · exact (h.holder u).1 (not_inside .waits nofun hin).2
    · have hin := (h.holder u).2 hl
      have hne : u ≠ t := by
        rintro rfl
        rw [hout] at hin
        cases hin
      exact (put_other _ hne).trans hin
  | @acquires _ t hw hfree =>
    have hno : ∀ u, d.place u ≠ .inside := h.free fun u => by rw [hfree]; exact nofun
    refine ⟨fun u hu => ?_, fun u => ⟨fun hin => ?_, fun hl => ?_⟩⟩
    · by_cases hne : u = t
      · exact hne ▸ h.placed t (by rw [hw]; exact nofun)
      · exact h.placed u fun he => hu ((put_other _ hne).trans he)
    · by_cases hne : u = t
      · rw [hne]
      · exact absurd ((put_other _ hne).symm.trans hin) (hno u)
    · obtain rfl := LockHolder.thread.inj (Option.some.inj hl)
      exact put_self _
  | @interrupted _ b p' t hb hw hx hst =>
    refine ⟨h.leave hs (Action.driver_of_interruptible hb) hst, fun u => ⟨fun hin => ?_, fun hl => ?_⟩⟩
    · exact (h.holder u).1 (not_inside .outside nofun hin).2
    · have hin := (h.holder u).2 hl
      have hne : u ≠ t := by
        rintro rfl
        rw [hw] at hin
        cases hin
      exact (put_other _ hne).trans hin
  | @returns _ b p' t hb hin hst =>
    refine ⟨h.leave hs hb hst, fun u => iff_of_false (fun hu => ?_) nofun⟩
    exact h.alone hin (not_inside .outside nofun hu)
  | @keeps _ p' t hin hst =>
    refine ⟨h.leave hs rfl hst, fun u => iff_of_false (fun hu => ?_) nofun⟩
    exact h.alone hin (not_inside .outside nofun hu)
  | elsewhereLocks hfree =>
    exact ⟨h.placed, fun u => iff_of_false (h.free (fun u => by rw [hfree]; exact nofun) u) nofun⟩
  | elsewhereUnlocks hl | elsewhereKeeps hl | reloads hl _ =>
    exact ⟨h.placed, fun u => iff_of_false (h.free (fun u => by rw [hl]; exact nofun) u) nofun⟩

/-- What every run keeps, of the process and of the lock. -/
structure Sound (device : Bool) (d : Driven) : Prop where
  steady : d.proc.Steady
  linked : d.Linked device

theorem start_sound : start.Sound device := ⟨Process.start_steady, start_linked⟩

theorem Sound.step (h : d.Sound device) (hst : Step device a d d') : d'.Sound device :=
  ⟨steady_step h.steady hst, h.linked.step h.steady hst⟩

theorem Sound.run {states : List Driven} (h : d.Sound device) (hrun : Run (AnyStep device) d states d') :
    d'.Sound device :=
  hrun.inv (Sound device) h fun _ _ hm ⟨_, _, hst⟩ => hm.step hst

/-- Whoever is in its section makes its next step, or waits for the lock. -/
theorem Sound.next (h : d.Sound device) {o : Owner} (hin : d.proc.Inside o) :
    (∃ a d', a.owner = some o ∧ (∀ b, a ≠ .interrupted b) ∧ Step device a d d') ∨
      ∃ t, o = .thread t ∧ d.place t = .waits ∧ (d.lock = some .elsewhere ∨ d.lock = some .kept ∨
        ∃ u, d.lock = some (.thread u) ∧ ∃ a d', a.returned = some (.thread u) ∧ Step device a d d') := by
  obtain ⟨p', hown⟩ : ∃ p', OwnStep device d.proc o p' := h.steady.locking.next hin
  obtain ⟨b, hb, -, hst⟩ := hown.step
  cases hdrv : b.driver with
  | none => exact .inl ⟨.call b, _, hb, nofun, .call (fun _ => hdrv) hst⟩
  | some t =>
    obtain rfl := Option.some.inj (hb.symm.trans (Action.owner_of_driver hdrv))
    cases hp : d.place t with
    | inside => exact .inl ⟨.call b, _, hb, nofun, .returns hdrv hp hst⟩
    | outside =>
      by_cases hd : d.proc.Drives t ∧ device = true
      · exact .inl ⟨.asks t, _, rfl, nofun, .asks hd.2 hd.1 hp⟩
      · by_cases hdev : device = true
        · have hearly : b.early = some t := hst.early (fun hdr => hd ⟨hdr, hdev⟩) hdrv
          exact .inl ⟨.call b, _, hb, nofun, .early hearly hp hst⟩
        · exact .inl ⟨.call b, _, hb, nofun, .call (fun he => absurd he hdev) hst⟩
    | waits =>
      cases hl : d.lock with
      | none => exact .inl ⟨.acquires t, _, rfl, nofun, .acquires hp hl⟩
      | some holder =>
        refine .inr ⟨t, rfl, hp, ?_⟩
        cases holder with
        | elsewhere => exact .inl rfl
        | kept => exact .inr (.inl rfl)
        | thread u =>
          have hu := (h.linked.holder u).2 hl
          obtain ⟨c, q, hc, -, hst', -⟩ := (h.linked.drives hu nofun).call h.steady.locking.writing device
          exact .inr (.inr ⟨u, rfl, .call c, _, Action.owner_of_driver hc, .returns hc hu hst'⟩)

/-! ## A thread that waits for good -/

/-- It waits in `aesd_write` for a lock that a read has kept. -/
def Stuck (d : Driven) (t : Nat) : Prop :=
  d.lock = some .kept ∧ d.place t = .waits ∧ ∃ node, (d.proc.client t).conn.stage = .write node

theorem Stuck.stay (h : d.Stuck t) (hs : d.Sound device) {b : Action} {p' : Process}
    (hst : Process.Step device b d.proc p') (hb : device = true → b.driver ≠ some t) :
    ∃ node, (p'.client t).conn.stage = .write node := by
  obtain ⟨-, hw, node, hnode⟩ := h
  obtain ⟨hdev, hd⟩ := hs.linked.placed t (by rw [hw]; exact nofun)
  have hsame := (hst.driving hs.steady.locking.sound hs.steady.unborn hd (hb hdev)).1
  exact ⟨node, by rw [hsame, hnode]⟩

theorem Stuck.step (h : d.Stuck t) (hs : d.Sound device) (hst : Step device a d d') : d'.Stuck t := by
  have ⟨hkept, hw, node, hnode⟩ := h
  -- whoever returns is somebody else
  have hother : ∀ {b : Action} {u : Nat} {p' : Process}, b.driver = some u → u ≠ t →
      Process.Step device b d.proc p' → (d.leave u p').place t = .waits ∧
        ∃ node, (p'.client t).conn.stage = .write node := by
    intro b u p' hb hne hst
    refine ⟨(put_other _ hne.symm).trans hw, h.stay hs hst fun _ => ?_⟩
    rw [hb]
    exact fun he => hne (Option.some.inj he)
  cases hst with
  | call hb hst =>
    refine ⟨hkept, hw, h.stay hs hst fun hdev => ?_⟩
    rw [hb hdev]
    exact nofun
  | @early _ b p' u hb hout hst =>
    have hne : u ≠ t := by
      rintro rfl
      rw [hw] at hout
      cases hout
    obtain ⟨-, hstage⟩ := hother (Action.driver_of_early hb) hne hst
    exact ⟨hkept, hw, hstage⟩
  | @asks _ u hdev hd hout =>
    have hne : t ≠ u := by
      rintro rfl
      rw [hw] at hout
      cases hout
    exact ⟨hkept, (put_other _ hne).trans hw, node, hnode⟩
  | acquires hw' hfree =>
    rw [hkept] at hfree
    cases hfree
  | @interrupted _ b p' u hb hw' hx hst =>
    have hne : u ≠ t := by
      rintro rfl
      cases hst with
      | ioctl hat | read buffer hat =>
        obtain rfl := Option.some.inj (Action.driver_of_interruptible hb)
        have := hat.2
        rw [hnode] at this
        cases this
      | _ => cases hb
    exact ⟨hkept, hother (Action.driver_of_interruptible hb) hne hst⟩
  | returns _ hin _ | keeps hin _ =>
    have := (hs.linked.holder _).1 hin
    rw [hkept] at this
    cases this
  | elsewhereLocks hl | elsewhereUnlocks hl | elsewhereKeeps hl =>
    rw [hkept] at hl
    cases hl
  | reloads _ hclosed =>
    rw [(hclosed t).2] at hw
    cases hw

theorem Stuck.run {states : List Driven} (h : d.Stuck t) (hs : d.Sound device)
    (hrun : Run (AnyStep device) d states d') : d'.Sound device ∧ d'.Stuck t :=
  hrun.inv (fun m => m.Sound device ∧ m.Stuck t) ⟨hs, h⟩
    fun _ _ hm ⟨_, _, hst⟩ => ⟨hm.1.step hst, hm.2.step hm.1 hst⟩

/-- It holds `file_mutex`. -/
theorem Stuck.mutex (h : d.Stuck t) (hs : d.Sound device) : d.proc.mutex = some (.thread t) := by
  obtain ⟨-, -, node, hnode⟩ := h
  refine (hs.steady.locking.exclusive _).1 ?_
  rw [Process.Inside, Process.toUnlock, Conn.toUnlock, hnode]
  exact Nat.succ_pos _

/-! ## Out of the driver -/

/-- The calls of the threads have led from `d` to `d'`. -/
structure Leads (device : Bool) (d d' : Driven) : Prop where
  run : ∃ states, Run (AnyStep device) d states d'
  owns : ∃ states, Run (OwnsStep device) d.proc states d'.proc
  waits : ∀ o, d.proc.WaitsFor o → d'.proc.WaitsFor o
  outside : ∀ t, d.place t = .outside → d'.place t = .outside

theorem Leads.refl : Leads device d d := ⟨⟨_, .nil⟩, ⟨_, .nil⟩, fun _ => id, fun _ => id⟩

theorem Leads.trans {d'' : Driven} (h : Leads device d d') (h' : Leads device d' d'') : Leads device d d'' := by
  obtain ⟨states, hrun⟩ := h.run
  obtain ⟨states', hrun'⟩ := h'.run
  obtain ⟨owns, howns⟩ := h.owns
  obtain ⟨owns', howns'⟩ := h'.owns
  exact ⟨⟨_, hrun.append hrun'⟩, ⟨_, howns.append howns'⟩, fun o => h'.waits o ∘ h.waits o,
    fun t => h'.outside t ∘ h.outside t⟩

theorem Leads.alive (h : Leads device d d') (halive : d.proc.Alive) : d'.proc.Alive := by
  obtain ⟨_, howns⟩ := h.owns
  exact (live_of_owns howns halive).2

theorem Leads.exit (h : Leads device d d') (hx : d.proc.exitRequested = true) : d'.proc.exitRequested = true := by
  obtain ⟨_, howns⟩ := h.owns
  refine howns.inv (fun m => m.exitRequested = true) hx fun m m' hm ⟨_, hown⟩ => ?_
  obtain ⟨_, -, -, hst⟩ := hown.step
  exact hst.exit hm

/-- A step of the driver alone. -/
theorem leads_of_driver (halive : d.proc.Alive) (hst : Step device a d d') (hp : d'.proc = d.proc)
    (hout : ∀ t, d.place t = .outside → d'.place t = .outside) : Leads device d d' := by
  refine ⟨⟨_, Run.nil.snoc ⟨halive, a, hst⟩⟩, ⟨[], ?_⟩, fun o hw => ?_, hout⟩
  · rw [hp]
    exact .nil
  · rw [hp]
    exact hw

/-- A thread returns from a call of the driver. -/
theorem leads_of_call (halive : d.proc.Alive) (hd : d.proc.Drives t) (hst : Step device a d d')
    (hown : OwnStep device d.proc (.thread t) d'.proc) (hout : ∀ u, u ≠ t → d'.place u = d.place u)
    (ht : d'.place t = .outside) : Leads device d d' := by
  refine ⟨⟨_, Run.nil.snoc ⟨halive, a, hst⟩⟩, ⟨_, Run.nil.snoc ⟨_, hown⟩⟩, fun o hw => ?_, fun u hu => ?_⟩
  · refine hown.waits (fun he => ?_) hw
    subst he
    have h2 := hd.2
    rw [Conn.Drives, hw.2] at h2
    exact h2
  · by_cases hne : u = t
    · exact hne ▸ ht
    · exact (hout u hne).trans hu

/-- The one inside returns, and so does another process. -/
theorem Sound.unlocks (h : d.Sound device) (halive : d.proc.Alive) (hno : ∀ t, ¬ d.Stuck t) :
    ∃ d', Leads device d d' ∧ (d'.lock = none ∨ d'.lock = some .kept) ∧ ∀ t, ¬ d'.Stuck t := by
  have hfree : ∀ {d' : Driven}, Leads device d d' → d'.lock = none →
      ∃ d', Leads device d d' ∧ (d'.lock = none ∨ d'.lock = some .kept) ∧ ∀ t, ¬ d'.Stuck t := by
    intro d' hleads hl
    refine ⟨d', hleads, .inl hl, fun t hst => ?_⟩
    rw [hst.1] at hl
    cases hl
  cases hl : d.lock with
  | none => exact hfree .refl hl
  | some holder =>
    cases holder with
    | kept => exact ⟨d, .refl, .inr hl, hno⟩
    | elsewhere => exact hfree (leads_of_driver halive (.elsewhereUnlocks hl) rfl fun _ => id) rfl
    | thread t =>
      have hin := (h.linked.holder t).2 hl
      have hd := h.linked.drives hin nofun
      obtain ⟨b, p', hb, -, hst, hown⟩ := hd.call h.steady.locking.writing device
      have hreturns : Step device (.call b) d { d.leave t p' with lock := none } := .returns hb hin hst
      exact hfree (leads_of_call halive hd hreturns hown (fun u hne => put_other _ hne) (put_self _)) rfl

theorem put_outside (hout : ∀ u, d.place u = .outside) (s : DriverPlace) (p' : Process) :
    (d.put t s).leave t p' = { d with proc := p' } := by
  have hplace : Function.update (Function.update d.place t s) t .outside = d.place := by
    rw [Function.update_idem, ← hout t, Function.update_eq_self]
  simp only [leave, put, hplace]

theorem put_inside (hout : ∀ u, d.place u = .outside) (hl : d.lock = none) (p' : Process) :
    { Driven.leave { (d.put t .waits).put t .inside with lock := some (.thread t) } t p' with lock := none } =
      { d with proc := p' } := by
  have hplace : Function.update (Function.update (Function.update d.place t .waits) t .inside) t .outside = d.place := by
    rw [Function.update_idem, Function.update_idem, ← hout t, Function.update_eq_self]
  simp only [leave, put, hplace, ← hl]

/-- With nobody in the driver, calls of it may fail, and all else is as before. -/
theorem lifts {p' : Process} (hout : ∀ t, d.place t = .outside) (hl : d.lock = none ∨ d.proc.exitRequested = true)
    (hst : UnreadStep device d.proc p') :
    ∃ states, Run (AnyStep device) d states { d with proc := p' } := by
  obtain ⟨halive, a, hunread, hst⟩ := hst
  by_cases hdrv : device = true → a.driver = none
  · exact ⟨_, Run.nil.snoc ⟨halive, _, .call hdrv hst⟩⟩
  · obtain ⟨hdev, hne⟩ : device = true ∧ a.driver ≠ none := by
      by_contra hno
      exact hdrv fun hdev => by_contra fun hne => hno ⟨hdev, hne⟩
    obtain ⟨t, ha⟩ := Option.ne_none_iff_exists'.1 hne
    by_cases hd : d.proc.Drives t ∧ a.early ≠ some t
    · -- a `read` at the end of the file, or one that a signal interrupts
      have hint : a.interruptible = some t := by
        cases a with
        | read u buffer =>
          obtain rfl : buffer = [] := hunread
          exact ha
        | ioctl u => exact ha
        | write u => exact absurd ha hd.2
        | _ => cases ha
      have hasks : Step device (.asks t) d (d.put t .waits) := .asks hdev hd.1 (hout t)
      have hwaits : Run (AnyStep device) d [d.put t .waits] (d.put t .waits) := Run.nil.snoc ⟨halive, _, hasks⟩
      rcases hl with hl | hx
      · have hacquires : Step device (.acquires t) (d.put t .waits)
            { (d.put t .waits).put t .inside with lock := some (.thread t) } := .acquires (put_self _) hl
        have hback : Step device (.call a) { (d.put t .waits).put t .inside with lock := some (.thread t) }
            { Driven.leave { (d.put t .waits).put t .inside with lock := some (.thread t) } t p' with lock := none } :=
          .returns ha (put_self _) hst
        rw [put_inside hout hl] at hback
        exact ⟨_, (hwaits.snoc ⟨halive, _, hacquires⟩).snoc ⟨halive, _, hback⟩⟩
      · have hback : Step device (.interrupted a) (d.put t .waits) ((d.put t .waits).leave t p') :=
          .interrupted hint (put_self _) hx hst
        rw [put_outside hout] at hback
        exact ⟨_, hwaits.snoc ⟨halive, _, hback⟩⟩
    · have hearly : a.early = some t := by
        by_contra hne
        exact hne (hst.early (fun hdr => hd ⟨hdr, hne⟩) ha)
      exact ⟨_, Run.nil.snoc ⟨halive, _, .early hearly (hout t) hst⟩⟩

theorem lifts_run {p' : Process} {states : List Process} (hrun : Run (UnreadStep device) d.proc states p')
    (hout : ∀ t, d.place t = .outside) (hl : d.lock = none ∨ d.proc.exitRequested = true) :
    ∃ states, Run (AnyStep device) d states { d with proc := p' } := by
  induction hrun with
  | nil => exact ⟨_, .nil⟩
  | @snoc _ m p' hrun hst ih =>
    have hl' : d.lock = none ∨ m.exitRequested = true :=
      hl.imp_right fun hx => hrun.inv (fun m => m.exitRequested = true) hx fun _ _ hm ⟨_, _, _, hst⟩ => hst.exit hm
    obtain ⟨states, hrun⟩ := ih
    obtain ⟨states', hrun'⟩ : ∃ states, Run (AnyStep device) { d with proc := m } states { d with proc := p' } :=
      lifts (d := { d with proc := m }) hout hl' hst
    exact ⟨_, hrun.append hrun'⟩

end Driven

open Driven

/-! ## Every run -/

section Results

variable {device : Bool} {states : List Driven} {d : Driven}

theorem Driven.sound_of_run (hrun : Run (AnyStep device) Driven.start states d) : d.Sound device :=
  start_sound.run hrun

/-- While a thread or a call of `timer_handler` holds `file_mutex` it makes fewer
calls than `toUnlock` says, whatever the others do. Its next step waits for nobody,
unless it waits for `dev->lock`; that is with a thread in the driver, which may
return at once, with another process, or kept by a read. -/
theorem section_bounded (hrun : Run (AnyStep device) Driven.start states d) {o : Owner} (ho : d.proc.mutex = some o)
    {acts : List DriverAct} {d' : Driven}
    (htrace : Trace (fun a m m' => m.proc.Alive ∧ Driven.Step device a m m' ∧ m'.proc.mutex = some o) d acts d') :
    acts.countP (fun a => a.returned = some o) < d.proc.toUnlock o ∧
      ((∃ a d'', a.owner = some o ∧ (∀ b, a ≠ .interrupted b) ∧ Driven.Step device a d' d'') ∨
        ∃ t, o = .thread t ∧ d'.place t = .waits ∧ (d'.lock = some .elsewhere ∨ d'.lock = some .kept ∨
          ∃ u, d'.lock = some (.thread u) ∧ ∃ a d'', a.returned = some (.thread u) ∧ Driven.Step device a d' d'')) := by
  have hpaid := htrace.cost_le (fun a => if decide (a.returned = some o) then 1 else 0)
    (fun m n => m.Sound device ∧ m.proc.mutex = some o ∧ m.proc.toUnlock o = n) ?_ ⟨sound_of_run hrun, ho, rfl⟩
  · obtain ⟨n, ⟨h', ho', rfl⟩, hle⟩ := hpaid
    have hin : d'.proc.Inside o := (h'.steady.locking.exclusive o).2 ho'
    rw [sum_map_count] at hle
    exact ⟨Nat.lt_of_lt_of_le (Nat.lt_add_of_pos_right hin) hle, h'.next hin⟩
  · rintro a m m' n ⟨hm, hheld, rfl⟩ ⟨-, hst, hheld'⟩
    refine ⟨_, ⟨hm.step hst, hheld', rfl⟩, ?_⟩
    rcases hst.proc with ⟨b, hb, hst'⟩ | ⟨hno, he⟩
    · have hret : a.returned = b.owner := by
        rcases hb with rfl | rfl <;> rfl
      rw [hret]
      exact hm.steady.locking.pays hst' hheld hheld'
    · rw [hno, he]
      simp

/-- The section of a connection with one chunk, when it begins. -/
theorem section_bounded_one : ∃ states d, Run (AnyStep true) Driven.start states d ∧
    d.proc.mutex = some (.thread 0) ∧ d.proc.toUnlock (.thread 0) = 4 ∧ d.place 0 = .outside ∧
    ∃ a d', a.owner = some (.thread 0) ∧ Driven.Step true a d d' := by
  obtain ⟨procs, p, hproc, -, hheld, hleft⟩ := holding_one
  obtain ⟨states, hrun⟩ := lifts_run (d := Driven.start) hproc (fun _ => rfl) (.inl rfl)
  have hbound := section_bounded hrun hheld .nil
  refine ⟨states, _, hrun, hheld, hleft, rfl, ?_⟩
  rcases hbound.2 with ⟨a, d', ha, -, hst⟩ | ⟨t, -, hw, -⟩
  · exact ⟨a, d', ha, hst⟩
  · cases hw

end Results

end Aesd
