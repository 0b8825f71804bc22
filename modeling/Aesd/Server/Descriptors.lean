import Aesd.Server.Process
/-!
# Every descriptor is closed once

A descriptor that `accept` returns goes from `acceptClientConnection` to the
thread it creates, which closes it; what a thread or `timer_handler` opens, it
closes itself. Three early returns forget a descriptor: `exit_requested` behind
an `accept` that has succeeded, a failed `pthread_create`, and a failed `write`
in `timer_handler`. The other steps keep the ledger of descriptors balanced.
-/

namespace Aesd

open SysLib

/-! ## Where a thread has the file open -/

/-- The calls behind `open`. -/
def Stage.Opened : Stage → Prop
  | .recv | .lock | .openFile | .finished => False
  | _ => True

theorem Stage.Opened.ne_finished {s : Stage} (h : s.Opened) : s ≠ .finished := by
  rintro rfl
  exact h

namespace Conn

variable (c : Conn)

theorem copyLoop_opened (fileFd : Bool) (node : List (List UInt8)) : (copyLoop fileFd node).Opened := by
  unfold copyLoop
  split <;> exact trivial

theorem command_opened : c.command.Opened := by
  unfold command
  split
  · exact trivial
  · exact copyLoop_opened _ _

theorem onRecv_ne_finished (bytes : List UInt8) : (c.onRecv bytes).stage ≠ .finished := by
  unfold onRecv
  split
  · simp
  · simp only
    split <;> simp

theorem onLock_ne_finished : c.onLock.stage ≠ .finished := by
  unfold onLock
  split
  · simp
  · exact c.command_opened.ne_finished

theorem onUnlock_opened : c.onUnlock.stage.Opened := by
  unfold onUnlock
  simp only
  split <;> exact trivial

theorem onRead_opened (buffer : List Cell) : (c.onRead buffer).stage.Opened := by
  unfold onRead
  simp only
  split <;> exact trivial

end Conn

/-- A running thread has its client's descriptor until it has closed it, and a
descriptor of the file only behind `open`. Other threads have none. -/
def Client.Fits (c : Client) : Option Worker → Prop
  | some (.running _) => (c.clientFd = none ↔ c.conn.stage = .finished) ∧ (c.fileFd ≠ none → c.conn.stage.Opened)
  | _ => c.clientFd = none ∧ c.fileFd = none

theorem Client.Fits.not_running {c : Client} {w : Option Worker} (h : c.Fits w) (hw : ∀ arg, w ≠ some (.running arg)) :
    c.clientFd = none ∧ c.fileFd = none := by
  cases w with
  | none => exact h
  | some w =>
    cases w with
    | running arg => exact absurd rfl (hw arg)
    | done => exact h
    | returned => exact h

/-- A thread goes on to its next call. -/
theorem Client.Fits.goto {c : Client} {arg : Nat} (h : c.Fits (some (.running arg))) {conn : Conn}
    (hs : c.conn.stage ≠ .finished) (hne : conn.stage ≠ .finished) (ho : c.conn.stage.Opened → conn.stage.Opened) :
    Client.Fits { c with conn := conn } (some (.running arg)) := by
  refine ⟨⟨fun hc => absurd (h.1.1 hc) hs, fun hc => absurd hc hne⟩, fun hf => ho (h.2 hf)⟩

namespace Process

variable {device : Bool} {p p' : Process} {a : Action}

/-- Every thread has the descriptors its next call says. -/
def Fit (p : Process) : Prop := ∀ t, (p.client t).Fits (p.threads.worker t)

theorem Fit.setClient (h : p.Fit) {t : Nat} {c : Client} (hc : c.Fits (p.threads.worker t)) : (p.setClient t c).Fit := by
  intro u
  by_cases hu : u = t
  · rw [hu]
    have hself : (p.setClient t c).client t = c := Function.update_self ..
    rw [hself]
    exact hc
  · have hother : (p.setClient t c).client u = p.client u := Function.update_of_ne hu _ _
    rw [hother]
    exact h u

theorem Fit.goto (h : p.Fit) {t : Nat} {s : Stage} (hat : p.At t s) {conn : Conn} (hs : s ≠ .finished)
    (hne : conn.stage ≠ .finished) (ho : s.Opened → conn.stage.Opened) : (p.goto t conn).Fit := by
  obtain ⟨⟨arg, hr⟩, rfl⟩ := hat
  refine h.setClient ?_
  have hc := h t
  rw [hr] at hc ⊢
  exact hc.goto hs hne ho

/-- The descriptors of a thread that is not the one that changes. -/
theorem Fit.threads (h : p.Fit) {m : Threads} {t : Nat} (hother : ∀ u, u ≠ t → m.worker u = p.threads.worker u)
    (ht : (p.client t).Fits (m.worker t)) : Fit { p with threads := m } := by
  intro u
  by_cases hu : u = t
  · exact hu ▸ ht
  · have hc := h u
    rw [← hother u hu] at hc
    exact hc

theorem Fit.step (h : p.Fit) (hst : Step device a p p') : p'.Fit := by
  cases hst with
  | @create _ fd arg hm hn =>
    intro u
    by_cases hu : u = p.threads.count
    · subst hu
      have hself : (p.create fd arg).client p.threads.count = ⟨.start, some fd, none⟩ := Function.update_self ..
      have hworker : (p.create fd arg).threads.worker p.threads.count = some (.running arg) := Function.update_self ..
      rw [hself, hworker]
      exact ⟨⟨fun hc => (by cases hc), fun hc => (by cases hc)⟩, fun hf => absurd rfl hf⟩
    · have hother : (p.create fd arg).client u = p.client u := Function.update_of_ne hu _ _
      have hworker : (p.create fd arg).threads.worker u = p.threads.worker u := Function.update_of_ne hu _ _
      rw [hother, hworker]
      exact h u
  | walk hm hw hwait he =>
    intro u
    have hc := h u
    rw [← (Threads.advance_ok he).1] at hc
    exact hc
  | @recv _ t bytes hat hlen =>
    exact h.goto hat (by simp) (Conn.onRecv_ne_finished _ _) False.elim
  | @lock _ t hat hm => exact h.goto hat (by simp) (Conn.onLock_ne_finished _) False.elim
  | @openFile _ t r hat hu =>
    obtain ⟨⟨arg, hr⟩, hs⟩ := hat
    refine h.setClient ?_
    have hc := h t
    rw [hr] at hc ⊢
    have hopened : ((p.client t).conn.onOpen r.isSome).stage.Opened := Conn.command_opened _
    refine ⟨⟨fun hnone => ?_, fun hf => absurd hf hopened.ne_finished⟩, fun _ => hopened⟩
    rw [hc.1.1 hnone] at hs
    cases hs
  | @ioctl _ t seekto hat => exact h.goto hat (by simp) (by simp [Conn.onIoctl]) (fun _ => trivial)
  | @write _ t chunk node hat =>
    exact h.goto hat (by simp) (Conn.copyLoop_opened _ _).ne_finished (fun _ => Conn.copyLoop_opened _ _)
  | @unlock _ t hat => exact h.goto hat (by simp) (Conn.onUnlock_opened _).ne_finished (fun _ => Conn.onUnlock_opened _)
  | @read _ t buffer hat hlen =>
    exact h.goto hat (by simp) (Conn.onRead_opened _ _).ne_finished (fun _ => Conn.onRead_opened _ _)
  | @send _ t buffer hat =>
    unfold Process.send
    split
    · exact h
    · exact h.goto hat (by simp) (by simp [Conn.onSend]) (fun _ => trivial)
  | @closeFile _ t fd hat hf =>
    obtain ⟨⟨arg, hr⟩, hs⟩ := hat
    refine h.setClient ?_
    have hc := h t
    rw [hr] at hc ⊢
    exact ⟨hc.1, fun hne => absurd rfl hne⟩
  | @closeClient _ t fd hat hf hc =>
    obtain ⟨⟨arg, hr⟩, hs⟩ := hat
    refine h.setClient ?_
    rw [hr]
    exact ⟨⟨fun _ => rfl, fun _ => rfl⟩, fun hne => absurd hf hne⟩
  | @setDone _ t arg m hr hs he =>
    obtain ⟨n, rfl⟩ := Threads.setDone_ok he
    refine h.threads (fun u hu => Function.update_of_ne hu _ _) ?_
    have hself : (p.threads.flag t arg n).worker t = some .done := Function.update_self ..
    have hc := h t
    rw [hr] at hc
    rw [hself]
    refine ⟨hc.1.2 hs, ?_⟩
    by_contra hf
    exact (hc.2 hf).ne_finished hs
  | @returns _ t hd =>
    refine h.threads (fun u hu => Function.update_of_ne hu _ _) ?_
    have hself : (p.threads.leave t).worker t = some .returned := Function.update_self ..
    have hc := h t
    rw [hd] at hc
    rw [hself]
    exact hc
  | _ => exact h

/-! ## Steps as moves of the ledger -/

/-- A step that forgets no descriptor: `main` does not find `exit_requested`
behind an `accept` that has succeeded, `pthread_create` succeeds, and so does the
`write` of `timer_handler`. -/
def Keeps (p : Process) : Action → Prop
  | .examine => ∀ fd, p.main = .accepted (some fd) → p.exitRequested = false
  | .createFails _ => False
  | .timerWrite _ ok => ok = true
  | _ => True

theorem held_of_main (hc : p'.client = p.client) (ht : p'.timer = p.timer) :
    ∀ v, v ≠ .accepted → p'.held v = p.held v := by
  intro v hv
  cases v with
  | accepted => exact absurd rfl hv
  | client t => simp only [held, hc]
  | file t => simp only [held, hc]
  | writefile i => simp only [held, ht]

theorem setClient_client (p : Process) (t : Nat) (c : Client) : (p.setClient t c).held (.client t) = c.clientFd :=
  congrArg Client.clientFd (Function.update_self (f := p.client) ..)

theorem setClient_file (p : Process) (t : Nat) (c : Client) : (p.setClient t c).held (.file t) = c.fileFd :=
  congrArg Client.fileFd (Function.update_self (f := p.client) ..)

theorem setClient_other (p : Process) (t : Nat) (c : Client) :
    ∀ v, v ≠ .client t → v ≠ .file t → (p.setClient t c).held v = p.held v := by
  intro v hvc hvf
  have hother : ∀ u, u ≠ t → (p.setClient t c).client u = p.client u := fun u hu => Function.update_of_ne hu _ _
  cases v with
  | accepted => rfl
  | client u => exact congrArg Client.clientFd (hother u fun he => hvc (he ▸ rfl))
  | file u => exact congrArg Client.fileFd (hother u fun he => hvf (he ▸ rfl))
  | writefile i => rfl

theorem setTimer_writefile (p : Process) (i : Nat) (s : Timer) :
    (p.setTimer i s).held (.writefile i) = s.writefileFd := by
  have hself : (p.setTimer i s).timer i = some s := Function.update_self ..
  simp only [held, hself, Option.bind_some]

theorem setTimer_other (p : Process) (i : Nat) (s : Timer) :
    ∀ v, v ≠ .writefile i → (p.setTimer i s).held v = p.held v := by
  intro v hv
  cases v with
  | accepted => rfl
  | client t => rfl
  | file t => rfl
  | writefile j =>
    have hj : j ≠ i := fun he => hv (he ▸ rfl)
    have hother : (p.setTimer i s).timer j = p.timer j := Function.update_of_ne hj _ _
    simp only [held, hother]

theorem held_timer {i : Nat} {s : Timer} (hs : p.timer i = some s) : p.held (.writefile i) = s.writefileFd := by
  simp only [held, hs, Option.bind_some]

/-- A step of `main` that changes no descriptor. -/
theorem move_main (hc : p'.client = p.client) (ht : p'.timer = p.timer) (ha : p'.held .accepted = p.held .accepted)
    (hi : p'.issued = p.issued) (hcl : p'.closed = p.closed) : Ledger.Move p.ledger p'.ledger := by
  refine .stay (fun v => ?_) hi hcl
  by_cases hv : v = .accepted
  · exact hv ▸ ha
  · exact held_of_main hc ht v hv

/-- A step of a thread that changes no descriptor. -/
theorem move_thread {t : Nat} {c : Client} (hc : c.clientFd = (p.client t).clientFd)
    (hf : c.fileFd = (p.client t).fileFd) : Ledger.Move p.ledger (p.setClient t c).ledger := by
  refine .stay (fun v => ?_) rfl rfl
  by_cases hvc : v = .client t
  · rw [hvc]
    exact (setClient_client ..).trans hc
  by_cases hvf : v = .file t
  · rw [hvf]
    exact (setClient_file ..).trans hf
  exact setClient_other _ _ _ v hvc hvf

/-- A step of `timer_handler` that changes no descriptor. -/
theorem move_timer {i : Nat} {s : Timer} (hw : s.writefileFd = p.held (.writefile i)) :
    Ledger.Move p.ledger (p.setTimer i s).ledger := by
  refine .stay (fun v => ?_) rfl rfl
  by_cases hv : v = .writefile i
  · rw [hv]
    exact (setTimer_writefile ..).trans hw
  · exact setTimer_other _ _ _ v hv

/-- `return 0` and `return -1` behind `accept`, or on with its descriptor. -/
theorem examine_held {r : Option Nat} (hm : p.main = .accepted r) (hk : ∀ fd, r = some fd → p.exitRequested = false) :
    (p.examine r).held .accepted = p.held .accepted := by
  unfold examine
  simp only [held, hm]
  cases r with
  | none =>
    cases p.exitRequested <;> rfl
  | some fd =>
    rw [hk fd rfl]
    rfl

/-- The descriptor goes from `acceptClientConnection` to the new thread. -/
theorem create_move (h : p.Fit) (hs : p.Sound) {fd arg : Nat} (hm : p.main = .create fd) :
    Ledger.Move p.ledger (p.create fd arg).ledger := by
  have hnone : p.threads.worker p.threads.count = none := by
    obtain ⟨l, extra, hinv⟩ := hs.inv
    by_contra hne
    exact Nat.lt_irrefl _ ((hinv.born _).2 hne)
  have hfresh := (h p.threads.count).not_running (by rw [hnone]; simp)
  refine .pass .accepted (.client p.threads.count) fd ?_ hfresh.1 rfl (setClient_client ..) ?_ rfl rfl
  · simp only [ledger, held, hm]
    rfl
  · intro v hv hvc
    by_cases hvf : v = .file p.threads.count
    · rw [hvf]
      exact (setClient_file ..).trans hfresh.2.symm
    · have hmain : (p.create fd arg).held v = (p.setClient p.threads.count ⟨.start, some fd, none⟩).held v := by
        refine held_of_main ?_ ?_ v hv <;> rfl
      exact hmain.trans (setClient_other _ _ _ v hvc hvf)

/-- `open` in a thread. -/
theorem openFile_move (h : p.Fit) {t : Nat} {r : Option Nat} (hat : p.At t .openFile) (hu : p.Unused r) :
    Ledger.Move p.ledger
      (ledger { p.setClient t { p.client t with conn := (p.client t).conn.onOpen r.isSome, fileFd := r } with
        issued := p.issued ++ r.toList }) := by
  obtain ⟨⟨arg, hr⟩, hstage⟩ := hat
  have hnone : (p.client t).fileFd = none := by
    have hc := h t
    rw [hr] at hc
    by_contra hf
    have := hc.2 hf
    rw [hstage] at this
    exact this
  cases r with
  | none =>
    show Ledger.Move p.ledger ⟨_, p.issued ++ [], _⟩
    rw [List.append_nil]
    exact move_thread rfl hnone.symm
  | some fd =>
    refine .acquire (.file t) fd hnone (hu fd rfl) (setClient_file ..) (fun v hvf => ?_) rfl rfl
    by_cases hvc : v = .client t
    · rw [hvc]
      exact setClient_client ..
    · exact setClient_other p t { p.client t with conn := (p.client t).conn.onOpen true, fileFd := some fd } v hvc hvf

/-- A step that forgets no descriptor is a move of the ledger. -/
theorem Step.move (hst : Step device a p p') (hk : p.Keeps a) (h : p.Fit) (hs : p.Sound) :
    Ledger.Move p.ledger p'.ledger := by
  cases hst with
  | signal => exact .stay (fun _ => rfl) rfl rfl
  | loopTest hm =>
    refine move_main rfl rfl ?_ rfl rfl
    simp only [held, hm]
    cases p.exitRequested <;> rfl
  | accept r hm hu =>
    cases r with
    | none =>
      refine move_main rfl rfl ?_ (List.append_nil _) rfl
      simp only [held, hm]
      rfl
    | some fd =>
      refine .acquire .accepted fd ?_ (hu fd rfl) rfl ?_ rfl rfl
      · simp only [ledger, held, hm]
        rfl
      · exact held_of_main rfl rfl
  | @examine _ r hm =>
    refine move_main rfl rfl (examine_held hm fun fd hr => ?_) rfl rfl
    exact hk fd (hr ▸ hm)
  | create arg hm hn => exact create_move h hs hm
  | createFails arg hm hn => exact hk.elim
  | @walk _ m hm hw hwait he =>
    refine move_main rfl rfl ?_ rfl rfl
    simp only [held, hm]
    split <;> rfl
  | leave hm =>
    refine move_main rfl rfl ?_ rfl rfl
    simp only [held, hm]
    rfl
  | recv bytes hat hlen => exact move_thread rfl rfl
  | lock hat hm => exact move_thread rfl rfl
  | openFile r hat hu => exact openFile_move h hat hu
  | ioctl hat => exact move_thread rfl rfl
  | write hat => exact move_thread rfl rfl
  | unlock hat => exact move_thread rfl rfl
  | read buffer hat hlen => exact move_thread rfl rfl
  | send hat =>
    unfold Process.send
    split
    · exact .stay (fun _ => rfl) rfl rfl
    · exact move_thread rfl rfl
  | @closeFile _ t fd hat hf =>
    refine .close (.file t) fd hf (setClient_file ..) (fun v hvf => ?_) rfl rfl
    by_cases hvc : v = .client t
    · rw [hvc]
      exact setClient_client ..
    · exact setClient_other p t { p.client t with fileFd := none } v hvc hvf
  | @closeClient _ t fd hat hf hc =>
    refine .close (.client t) fd hc (setClient_client ..) (fun v hvc => ?_) rfl rfl
    by_cases hvf : v = .file t
    · rw [hvf]
      exact setClient_file ..
    · exact setClient_other p t { p.client t with conn := (p.client t).conn.onClose, clientFd := none } v hvc hvf
  | setDone hr hd he => exact .stay (fun _ => rfl) rfl rfl
  | returns hd => exact .stay (fun _ => rfl) rfl rfl
  | reset t => exact .stay (fun _ => rfl) rfl rfl
  | tick i hdev hi =>
    refine move_timer ?_
    simp only [held, hi]
    rfl
  | timerLock hi hm => exact move_timer (held_timer hi).symm
  | @timerOpen _ i r hi hu =>
    cases r with
    | none =>
      show Ledger.Move p.ledger ⟨_, p.issued ++ [], _⟩
      rw [List.append_nil]
      exact move_timer (held_timer hi).symm
    | some fd =>
      exact .acquire (.writefile i) fd (held_timer hi) (hu fd rfl) (setTimer_writefile ..)
        (setTimer_other p i (.write fd)) rfl rfl
  | timerWrite ok hi =>
    have hok : ok = true := hk
    subst hok
    exact move_timer (held_timer hi).symm
  | @timerClose _ i fd hi =>
    exact .close (.writefile i) fd (held_timer hi) (setTimer_writefile ..) (setTimer_other p i .unlock) rfl rfl
  | timerUnlock hi => exact move_timer (held_timer hi).symm

/-- The other steps leave an open descriptor in no variable. -/
theorem Step.lost (hst : Step device a p p') (hk : ¬ p.Keeps a) (hb : p.ledger.Balanced) : ¬ p'.ledger.Balanced := by
  cases hst with
  | @examine _ r hm =>
    have hfd : ∃ fd, r = some fd ∧ p.exitRequested = true := by
      by_contra hne
      refine hk fun fd he => ?_
      rw [hm, Main.accepted.injEq] at he
      cases hx : p.exitRequested with
      | false => rfl
      | true => exact absurd ⟨fd, he, hx⟩ hne
    obtain ⟨fd, rfl, hx⟩ := hfd
    refine hb.lost (h := .accepted) (x := fd) ?_ ?_ ?_ rfl rfl
    · simp only [ledger, held, hm]
      rfl
    · simp only [ledger, held, Process.examine, hx, if_true]
      rfl
    · exact held_of_main rfl rfl
  | @createFails _ fd arg hm hn =>
    refine hb.lost (h := .accepted) (x := fd) ?_ rfl ?_ rfl rfl
    · simp only [ledger, held, hm]
      rfl
    · exact held_of_main rfl rfl
  | @timerWrite _ i fd ok hi =>
    have hok : ok = false := by
      cases ok with
      | false => rfl
      | true => exact absurd rfl hk
    subst hok
    exact hb.lost (h := .writefile i) (x := fd) (held_timer hi) (setTimer_writefile ..) (setTimer_other p i .unlock) rfl rfl
  | _ => exact absurd trivial hk

/-! ## Whole runs -/

/-- The variable is one of an accept, a thread or a call of `timer_handler` that is not over. -/
def Active (p : Process) : Variable → Prop
  | .accepted => ∃ fd, p.main = .accepted (some fd) ∨ p.main = .create fd
  | .client t | .file t => ∃ arg, p.threads.worker t = some (.running arg)
  | .writefile i => ∃ s, p.timer i = some s ∧ s ≠ .returned

/-- The descriptors that are open are each in one variable, the others have been
closed as often as returned; and a thread that comes to its last `close` has the
descriptor to be closed. -/
structure Accounted (p : Process) : Prop where
  balanced : p.ledger.Balanced
  active : ∀ v fd, p.held v = some fd → p.Active v
  closing : ∀ t, p.At t .close → ∃ fd, p.held (.client t) = some fd

theorem Fit.active (h : p.Fit) {v : Variable} {fd : Nat} (hv : p.held v = some fd) : p.Active v := by
  have hrunning : ∀ t, (p.client t).clientFd ≠ none ∨ (p.client t).fileFd ≠ none →
      ∃ arg, p.threads.worker t = some (.running arg) := by
    intro t hne
    by_contra hw
    have hnone := (h t).not_running fun arg hr => hw ⟨arg, hr⟩
    exact hne.elim (fun hc => hc hnone.1) fun hf => hf hnone.2
  cases v with
  | accepted =>
    cases hm : p.main with
    | accepted r =>
      simp only [held, hm, Main.clientFd] at hv
      exact ⟨fd, .inl (by rw [hm, hv])⟩
    | create fd' => exact ⟨fd', .inr hm⟩
    | _ => simp [held, hm, Main.clientFd] at hv
  | client t => exact hrunning t (.inl fun hc => by simp [held, hc] at hv)
  | file t => exact hrunning t (.inr fun hf => by simp [held, hf] at hv)
  | writefile i =>
    cases hi : p.timer i with
    | none => simp [held, hi] at hv
    | some s =>
      refine ⟨s, hi, ?_⟩
      rintro rfl
      simp [held, hi, Timer.writefileFd] at hv

theorem Fit.accounted (h : p.Fit) (hb : p.ledger.Balanced) : p.Accounted := by
  refine ⟨hb, fun v fd => h.active, fun t hat => ?_⟩
  obtain ⟨⟨arg, hr⟩, hs⟩ := hat
  have hc := h t
  rw [hr] at hc
  refine Option.ne_none_iff_exists'.1 fun hnone => ?_
  have := hc.1.1 hnone
  rw [hs] at this
  cases this

/-- A step of a run that forgets no descriptor. -/
def KeptStep (device : Bool) (p p' : Process) : Prop := p.Alive ∧ ∃ a, Step device a p p' ∧ p.Keeps a

theorem start_fit : start.Fit := fun _ => ⟨rfl, rfl⟩

theorem start_balanced : start.ledger.Balanced := by
  have hnone : ∀ v, start.ledger.slot v = none := by
    intro v
    cases v <;> rfl
  refine ⟨fun g h x hg => ?_, fun h x hs => ?_, fun x _ => rfl⟩
  · rw [hnone] at hg
    cases hg
  · rw [hnone] at hs
    cases hs

end Process

open Process

/-- In every run whose steps forget no descriptor, the descriptors are accounted
for in every state; and a next step leaves them so exactly if it forgets none. -/
theorem descriptors_accounted {device : Bool} {states : List Process} {p : Process}
    (hrun : Run (KeptStep device) Process.start states p) :
    p.Accounted ∧ ∀ a p', p.Alive → Process.Step device a p p' → (p'.Accounted ↔ p.Keeps a) := by
  have hinv : p.Sound ∧ p.Fit ∧ p.ledger.Balanced := by
    refine hrun.inv (fun p => p.Sound ∧ p.Fit ∧ p.ledger.Balanced) ⟨start_sound, start_fit, start_balanced⟩ ?_
    rintro p p' ⟨hs, hf, hb⟩ ⟨-, a, hst, hk⟩
    exact ⟨hs.step hst, hf.step hst, hb.move (hst.move hk hf hs)⟩
  obtain ⟨hs, hf, hb⟩ := hinv
  refine ⟨hf.accounted hb, fun a p' _ hst => ⟨fun h => ?_, fun hk => ?_⟩⟩
  · by_contra hk
    exact hst.lost hk hb h.balanced
  · exact (hf.step hst).accounted (hb.move (hst.move hk hf hs))

/-- One connection: it receives a line, opens the device, writes, reads nothing back
and closes both descriptors. -/
theorem descriptors_accounted_one : ∃ states p, Run (KeptStep true) Process.start states p ∧ p.issued = [4, 5] ∧
    p.closed = [5, 4] ∧ p.Accounted := by
  have h0 : Run (KeptStep true) Process.start [] _ := .nil
  have h1 := h0.snoc ⟨⟨nofun, rfl⟩, _, .loopTest rfl, trivial⟩
  have h2 := h1.snoc ⟨⟨nofun, rfl⟩, _, .accept (some 4) rfl (fun _ _ => rfl), trivial⟩
  have h3 := h2.snoc ⟨⟨nofun, rfl⟩, _, .examine rfl, fun _ _ => rfl⟩
  have h4 := h3.snoc ⟨⟨nofun, rfl⟩, _, .create 1 rfl rfl, trivial⟩
  have h5 := h4.snoc ⟨⟨nofun, rfl⟩, _, .recv (t := 0) [newline] ⟨⟨1, rfl⟩, rfl⟩ (by decide), trivial⟩
  have h6 := h5.snoc ⟨⟨nofun, rfl⟩, _, .lock (t := 0) ⟨⟨1, rfl⟩, rfl⟩ rfl, trivial⟩
  have h7 := h6.snoc ⟨⟨nofun, rfl⟩, _, .openFile (t := 0) (some 5) ⟨⟨1, rfl⟩, rfl⟩ (fun fd h => by cases h; rfl), trivial⟩
  have h8 := h7.snoc ⟨⟨nofun, rfl⟩, _, .write (t := 0) ⟨⟨1, rfl⟩, rfl⟩, trivial⟩
  have h9 := h8.snoc ⟨⟨nofun, rfl⟩, _, .unlock (t := 0) ⟨⟨1, rfl⟩, rfl⟩, trivial⟩
  have h10 := h9.snoc ⟨⟨nofun, rfl⟩, _, .read (t := 0) [] ⟨⟨1, rfl⟩, rfl⟩ (Nat.zero_le _), trivial⟩
  have h11 := h10.snoc ⟨⟨nofun, rfl⟩, _, .closeFile (t := 0) ⟨⟨1, rfl⟩, rfl⟩ rfl, trivial⟩
  have h12 := h11.snoc ⟨⟨nofun, rfl⟩, _, .closeClient (t := 0) ⟨⟨1, rfl⟩, rfl⟩ rfl rfl, trivial⟩
  exact ⟨_, _, h12, rfl, rfl, (descriptors_accounted h12).1⟩

/-- `SIGINT` comes between a successful `accept` and the check behind it: the
descriptor is in no variable any more, and it is not closed. -/
theorem descriptor_forgotten : ∃ states p, Run (AnyStep true) Process.start states p ∧ p.main = .loop ∧
    p.issued = [4] ∧ p.closed = [] ∧ (∀ v, p.held v = none) ∧ ¬ p.Accounted := by
  have h0 : Run (AnyStep true) Process.start [] _ := .nil
  have h1 := h0.snoc ⟨⟨nofun, rfl⟩, _, .loopTest rfl⟩
  have h2 := h1.snoc ⟨⟨nofun, rfl⟩, _, .accept (some 4) rfl (fun _ _ => rfl)⟩
  have h3 := h2.snoc ⟨⟨nofun, rfl⟩, _, .signal⟩
  have h4 := h3.snoc ⟨⟨nofun, rfl⟩, _, .examine rfl⟩
  refine ⟨_, _, h4, rfl, rfl, rfl, ?_, ?_⟩
  · intro v
    cases v <;> rfl
  · intro h
    have hfree : _ = _ := h.balanced.rest 4 fun v hv => by cases v <;> cases hv
    exact absurd hfree (by decide)

end Aesd
