import Aesd.Server.Process
/-!
# `file_mutex`

Who is in the critical sections of `processClientConnection` and `timer_handler`
in a run of the process: the holder of `file_mutex`, and nobody else. A section
ends after a number of calls that is known when it begins, so a thread that waits
for the mutex can get it as long as those calls return.
-/

namespace Aesd

open SysLib

/-! ## The calls left in a section -/

/-- How many calls a connection makes at most until `pthread_mutex_unlock` has
returned; 0 outside the section. -/
def Conn.toUnlock (c : Conn) : Nat :=
  match c.stage with
  | .openFile => c.chunks.length + 3
  | .ioctl _ => 2
  | .write node => node.length + 1
  | .unlock => 1
  | _ => 0

def Timer.toUnlock : Timer → Nat
  | .openFile => 4
  | .write _ => 3
  | .close _ => 2
  | .unlock => 1
  | .lock | .returned => 0

namespace Conn

variable (c : Conn)

theorem copyLoop_toUnlock (fileFd : Bool) (node : List (List UInt8)) :
    0 < Conn.toUnlock { c with stage := copyLoop fileFd node } ∧
      Conn.toUnlock { c with stage := copyLoop fileFd node } ≤ node.length + 1 := by
  unfold copyLoop
  split
  · exact ⟨Nat.succ_pos _, le_refl _⟩
  · exact ⟨Nat.one_pos, Nat.le_add_left _ _⟩

theorem command_toUnlock :
    0 < Conn.toUnlock { c with stage := c.command } ∧
      Conn.toUnlock { c with stage := c.command } ≤ c.chunks.length + 2 := by
  unfold command
  split
  · exact ⟨Nat.two_pos, Nat.le_add_left _ _⟩
  · obtain ⟨hpos, hle⟩ := c.copyLoop_toUnlock c.fileFd c.chunks
    exact ⟨hpos, by omega⟩

theorem onRecv_toUnlock (bytes : List UInt8) : (c.onRecv bytes).toUnlock = 0 := by
  unfold onRecv
  split
  · rfl
  · by_cases hn : newline ∈ bytes
    · simp only [toUnlock, if_pos hn]
    · simp only [toUnlock, if_neg hn]

theorem onLock_toUnlock : 0 < c.onLock.toUnlock := by
  unfold onLock
  split
  · exact Nat.succ_pos _
  · exact c.command_toUnlock.1

theorem copyLoop_ne_write (fileFd : Bool) (node : List (List UInt8)) : copyLoop fileFd node ≠ .write [] := by
  unfold copyLoop
  split
  next h => exact fun he => h.2 (Stage.write.inj he)
  next => exact fun he => by cases he

theorem command_ne_write : c.command ≠ .write [] := by
  unfold command
  split
  · exact fun he => by cases he
  · exact copyLoop_ne_write _ _

theorem onRecv_ne_write (bytes : List UInt8) : (c.onRecv bytes).stage ≠ .write [] := by
  unfold onRecv
  split
  · exact fun he => by cases he
  · by_cases hn : newline ∈ bytes
    · simp only [if_pos hn]
      exact fun he => by cases he
    · simp only [if_neg hn]
      exact fun he => by cases he

theorem onLock_ne_write : c.onLock.stage ≠ .write [] := by
  unfold onLock
  split
  · exact fun he => by cases he
  · exact c.command_ne_write

theorem onUnlock_ne_write : c.onUnlock.stage ≠ .write [] := by
  unfold onUnlock
  cases c.fileFd <;> exact fun he => by cases he

theorem onRead_ne_write (buffer : List Cell) : (c.onRead buffer).stage ≠ .write [] := by
  unfold onRead
  by_cases hb : buffer = []
  · simp only [if_pos hb]
    exact fun he => by cases he
  · simp only [if_neg hb]
    exact fun he => by cases he

theorem onOpen_toUnlock (fileFd : Bool) :
    0 < (c.onOpen fileFd).toUnlock ∧ (c.onOpen fileFd).toUnlock < c.chunks.length + 3 := by
  obtain ⟨hpos, hle⟩ := Conn.command_toUnlock { c with fileFd := fileFd }
  exact ⟨hpos, Nat.lt_succ_of_le hle⟩

theorem onWrite_toUnlock (node : List (List UInt8)) :
    0 < (c.onWrite node).toUnlock ∧ (c.onWrite node).toUnlock < node.length + 2 := by
  obtain ⟨hpos, hle⟩ := c.copyLoop_toUnlock c.fileFd node
  exact ⟨hpos, Nat.lt_succ_of_le hle⟩

/-- In a section nothing is received, waited for or sent. -/
theorem ne_of_toUnlock {s : Stage} (h : 0 < c.toUnlock) (hs : Conn.toUnlock { c with stage := s } = 0) : c.stage ≠ s := by
  rintro rfl
  exact Nat.ne_of_gt h hs

theorem ne_send_of_toUnlock (h : 0 < c.toUnlock) (buffer : List Cell) : c.stage ≠ .send buffer :=
  c.ne_of_toUnlock h rfl

theorem onUnlock_ne_send (buffer : List Cell) : c.onUnlock.stage ≠ .send buffer := by
  unfold onUnlock
  cases c.fileFd <;> exact fun he => by cases he

theorem onUnlock_toUnlock : c.onUnlock.toUnlock = 0 := by
  cases hfd : c.fileFd <;> simp only [onUnlock, toUnlock, hfd] <;> rfl

theorem onRead_toUnlock (buffer : List Cell) : (c.onRead buffer).toUnlock = 0 := by
  by_cases hb : buffer = []
  · simp only [onRead, toUnlock, if_pos hb]
  · simp only [onRead, toUnlock, if_neg hb]

end Conn

/-! ## What a step does to the sections -/

/-- Who makes the step: a thread or a call of `timer_handler`, if it is neither
`main` nor something outside the process. -/
def Process.Action.owner : Process.Action → Option Owner
  | .recv t _ | .lock t | .openFile t _ | .ioctl t | .write t | .unlock t | .read t _ | .send t | .closeFile t
  | .closeClient t | .setDone t | .returns t => some (.thread t)
  | .timerLock i | .timerOpen i _ | .timerWrite i _ | .timerClose i | .timerUnlock i => some (.timer i)
  | _ => none

namespace Process

variable {device : Bool} {p p' : Process} {a : Action}

def toUnlock (p : Process) : Owner → Nat
  | .thread t => (p.client t).conn.toUnlock
  | .timer i => ((p.timer i).map Timer.toUnlock).getD 0

/-- `o` is between `pthread_mutex_lock` and `pthread_mutex_unlock`. -/
def Inside (p : Process) (o : Owner) : Prop := 0 < p.toUnlock o

/-- What a step of `o` does to its section and to `file_mutex`. -/
inductive Sections (p p' : Process) (o : Owner) : Prop
  | outside : p.toUnlock o = 0 → p'.toUnlock o = 0 → p'.mutex = p.mutex → Sections p p' o
  | enters : p.toUnlock o = 0 → p.mutex = none → p'.Inside o → p'.mutex = some o → Sections p p' o
  | goesOn : p'.Inside o → p'.toUnlock o < p.toUnlock o → p'.mutex = p.mutex → Sections p p' o
  | leaves : p.Inside o → p'.toUnlock o = 0 → p'.mutex = none → Sections p p' o

/-- Threads that do not run `processClientConnection` are in no section. -/
def Resting (p : Process) : Prop :=
  ∀ t, (∀ arg, p.threads.worker t ≠ some (.running arg)) → p.toUnlock (.thread t) = 0

theorem toUnlock_of_client {t : Nat} {c : Client} (hc : p'.client = Function.update p.client t c)
    (ht : p'.timer = p.timer) :
    p'.toUnlock (.thread t) = c.conn.toUnlock ∧ ∀ o, some o ≠ some (.thread t) → p'.toUnlock o = p.toUnlock o := by
  refine ⟨?_, fun o ho => ?_⟩
  · rw [toUnlock, hc, Function.update_self]
  · cases o with
    | thread u =>
      have hu : u ≠ t := by
        rintro rfl
        exact ho rfl
      rw [toUnlock, hc, Function.update_of_ne hu]
      rfl
    | timer i => rw [toUnlock, ht]; rfl

theorem toUnlock_of_timer {i : Nat} {s : Timer} (hc : p'.client = p.client)
    (ht : p'.timer = Function.update p.timer i (some s)) :
    p'.toUnlock (.timer i) = s.toUnlock ∧ ∀ o, some o ≠ some (.timer i) → p'.toUnlock o = p.toUnlock o := by
  refine ⟨?_, fun o ho => ?_⟩
  · rw [toUnlock, ht, Function.update_self]
    rfl
  · cases o with
    | thread t => rw [toUnlock, hc]; rfl
    | timer j =>
      have hj : j ≠ i := by
        rintro rfl
        exact ho rfl
      rw [toUnlock, ht, Function.update_of_ne hj]
      rfl

theorem toUnlock_of_same (hc : p'.client = p.client) (ht : p'.timer = p.timer) (o : Owner) :
    p'.toUnlock o = p.toUnlock o := by
  cases o with
  | thread t => rw [toUnlock, hc]; rfl
  | timer i => rw [toUnlock, ht]; rfl

theorem At.toUnlock {t : Nat} {s : Stage} (hat : p.At t s) :
    p.toUnlock (.thread t) = Conn.toUnlock { (p.client t).conn with stage := s } := by
  obtain ⟨-, rfl⟩ := hat
  rfl

theorem toUnlock_timer {i : Nat} {s : Timer} (hs : p.timer i = some s) : p.toUnlock (.timer i) = s.toUnlock := by
  rw [toUnlock, hs]
  rfl

/-- What a step does to the sections of all. -/
structure Effect (a : Action) (p p' : Process) : Prop where
  own : ∀ o, a.owner = some o → p.Sections p' o
  others : ∀ o, a.owner ≠ some o → p'.toUnlock o = p.toUnlock o
  outer : a.owner = none → p'.mutex = p.mutex

theorem effect_of_thread {t : Nat} {c : Client} (ha : a.owner = some (.thread t))
    (hc : p'.client = Function.update p.client t c) (ht : p'.timer = p.timer)
    (hs : p'.toUnlock (.thread t) = c.conn.toUnlock → p.Sections p' (.thread t)) : p.Effect a p' := by
  obtain ⟨hself, hothers⟩ := toUnlock_of_client hc ht
  constructor
  · intro o ho
    obtain rfl := Option.some.inj (ha.symm.trans ho)
    exact hs hself
  · intro o ho
    exact hothers o fun he => ho (ha.trans he.symm)
  · intro hnone
    rw [ha] at hnone
    cases hnone

theorem effect_of_timer {i : Nat} {s : Timer} (ha : a.owner = some (.timer i)) (hc : p'.client = p.client)
    (ht : p'.timer = Function.update p.timer i (some s))
    (hs : p'.toUnlock (.timer i) = s.toUnlock → p.Sections p' (.timer i)) : p.Effect a p' := by
  obtain ⟨hself, hothers⟩ := toUnlock_of_timer hc ht
  constructor
  · intro o ho
    obtain rfl := Option.some.inj (ha.symm.trans ho)
    exact hs hself
  · intro o ho
    exact hothers o fun he => ho (ha.trans he.symm)
  · intro hnone
    rw [ha] at hnone
    cases hnone

/-- A step of `main`, or from outside. -/
theorem effect_of_outer (ha : a.owner = none) (hm : p'.mutex = p.mutex)
    (hs : ∀ o, p'.toUnlock o = p.toUnlock o) : p.Effect a p' := by
  constructor
  · intro o ho
    rw [ha] at ho
    cases ho
  · intro o _
    exact hs o
  · intro _
    exact hm

/-- A step of a thread that is in no section and begins none. -/
theorem effect_outside {t : Nat} {c : Client} {s : Stage} (ha : a.owner = some (.thread t)) (hat : p.At t s)
    (h0 : Conn.toUnlock { (p.client t).conn with stage := s } = 0)
    (hc : p'.client = Function.update p.client t c) (ht : p'.timer = p.timer) (hm : p'.mutex = p.mutex)
    (h0' : c.conn.toUnlock = 0) : p.Effect a p' := by
  apply effect_of_thread ha hc ht
  intro hself
  exact .outside (hat.toUnlock.trans h0) (hself.trans h0') hm

/-- A step of a thread inside its section. -/
theorem effect_inside {t : Nat} {c : Client} {s : Stage} (ha : a.owner = some (.thread t)) (hat : p.At t s)
    (hc : p'.client = Function.update p.client t c) (ht : p'.timer = p.timer) (hm : p'.mutex = p.mutex)
    (hless : 0 < c.conn.toUnlock ∧ c.conn.toUnlock < Conn.toUnlock { (p.client t).conn with stage := s }) :
    p.Effect a p' := by
  apply effect_of_thread ha hc ht
  intro hself
  refine .goesOn ?_ ?_ hm
  · rw [Inside, hself]
    exact hless.1
  · rw [hself, hat.toUnlock]
    exact hless.2

theorem effect_timer_inside {i : Nat} {s s' : Timer} (ha : a.owner = some (.timer i)) (hat : p.timer i = some s)
    (hc : p'.client = p.client) (ht : p'.timer = Function.update p.timer i (some s')) (hm : p'.mutex = p.mutex)
    (hless : 0 < s'.toUnlock ∧ s'.toUnlock < s.toUnlock) : p.Effect a p' := by
  apply effect_of_timer ha hc ht
  intro hself
  refine .goesOn ?_ ?_ hm
  · rw [Inside, hself]
    exact hless.1
  · rw [hself, toUnlock_timer hat]
    exact hless.2

theorem Step.effect (hst : Step device a p p') (hs : p.Sound) (hrest : p.Resting) : p.Effect a p' := by
  cases hst with
  | @create _ fd arg hm hn =>
    refine effect_of_outer rfl rfl fun o => ?_
    have hclient : (p.create fd arg).client = Function.update p.client p.threads.count _ := rfl
    obtain ⟨hself, hothers⟩ := toUnlock_of_client hclient rfl
    by_cases ho : some o = some (.thread p.threads.count)
    · obtain rfl := Option.some.inj ho
      obtain ⟨l, extra, hinv⟩ := hs.inv
      have hnone : p.threads.worker p.threads.count = none := by
        by_contra hne
        exact Nat.lt_irrefl _ ((hinv.born _).2 hne)
      rw [hself, hrest _ fun arg => by rw [hnone]; exact Option.some_ne_none _ |>.symm]
      rfl
    · exact hothers o ho
  | @tick _ i hd hi =>
    refine effect_of_outer rfl rfl fun o => ?_
    have htimer : (p.setTimer i .lock).timer = Function.update p.timer i (some .lock) := rfl
    have hclient : (p.setTimer i .lock).client = p.client := rfl
    obtain ⟨hself, hothers⟩ := toUnlock_of_timer hclient htimer
    by_cases ho : some o = some (.timer i)
    · obtain rfl := Option.some.inj ho
      rw [hself, toUnlock, hi]
      rfl
    · exact hothers o ho
  | recv bytes hat => exact effect_outside rfl hat rfl rfl rfl rfl (Conn.onRecv_toUnlock _ bytes)
  | @lock _ t hat hm =>
    refine effect_of_thread (c := ⟨(p.client t).conn.onLock, _, _⟩) rfl rfl rfl fun hself => ?_
    refine .enters (hat.toUnlock.trans rfl) hm ?_ rfl
    rw [Inside, hself]
    exact Conn.onLock_toUnlock _
  | openFile r hat => exact effect_inside rfl hat rfl rfl rfl (Conn.onOpen_toUnlock _ _)
  | ioctl hat => exact effect_inside rfl hat rfl rfl rfl ⟨Nat.one_pos, Nat.lt_succ_self 1⟩
  | write hat => exact effect_inside rfl hat rfl rfl rfl (Conn.onWrite_toUnlock _ _)
  | @unlock _ t hat =>
    refine effect_of_thread (c := ⟨(p.client t).conn.onUnlock, _, _⟩) rfl rfl rfl fun hself => ?_
    refine .leaves ?_ (hself.trans (Conn.onUnlock_toUnlock _)) rfl
    rw [Inside, hat.toUnlock]
    exact Nat.one_pos
  | read buffer hat => exact effect_outside rfl hat rfl rfl rfl rfl (Conn.onRead_toUnlock _ buffer)
  | @send _ t buffer hat =>
    cases hr : p.reset t with
    | true =>
      have he : p.send t = { p with killed := true } := by rw [Process.send, if_pos hr]
      rw [he]
      refine effect_of_thread (c := p.client t) rfl (Function.update_eq_self _ _).symm rfl fun _ => ?_
      exact .outside (hat.toUnlock.trans rfl) (hat.toUnlock.trans rfl) rfl
    | false =>
      have he : p.send t = p.goto t (p.client t).conn.onSend := by
        rw [Process.send, if_neg (by rw [hr]; exact Bool.false_ne_true)]
      rw [he]
      exact effect_outside rfl hat rfl rfl rfl rfl rfl
  | closeFile hat hfd =>
    have hsame := hat.2
    exact effect_outside rfl hat rfl rfl rfl rfl (by rw [Conn.toUnlock, hsame])
  | closeClient hat hfd hfd' => exact effect_outside rfl hat rfl rfl rfl rfl rfl
  | @setDone _ t arg m hr hfin he =>
    refine effect_of_thread (c := p.client t) rfl (Function.update_eq_self _ _).symm rfl fun hself => ?_
    have h0 : (p.client t).conn.toUnlock = 0 := by rw [Conn.toUnlock, hfin]
    exact .outside h0 (hself.trans h0) rfl
  | @returns _ t hd =>
    have h0 : p.toUnlock (.thread t) = 0 := hrest t fun arg => by rw [hd]; exact fun he => by cases he
    refine effect_of_thread (c := p.client t) rfl (Function.update_eq_self _ _).symm rfl fun _ => ?_
    exact .outside h0 h0 rfl
  | timerLock hi hm =>
    refine effect_of_timer rfl rfl rfl fun hself => ?_
    refine .enters (toUnlock_timer hi) hm ?_ rfl
    rw [Inside, hself]
    exact Nat.succ_pos _
  | timerOpen r hi =>
    refine effect_timer_inside rfl hi rfl rfl rfl ?_
    cases r with
    | none => exact ⟨Nat.one_pos, by decide⟩
    | some fd => exact ⟨Nat.succ_pos _, Nat.lt_succ_self 3⟩
  | timerWrite ok hi =>
    refine effect_timer_inside rfl hi rfl rfl rfl ?_
    cases ok with
    | false => exact ⟨Nat.one_pos, Nat.lt_add_of_pos_right Nat.two_pos⟩
    | true => exact ⟨Nat.two_pos, Nat.lt_succ_self 2⟩
  | timerClose hi => exact effect_timer_inside rfl hi rfl rfl rfl ⟨Nat.one_pos, Nat.lt_succ_self 1⟩
  | timerUnlock hi =>
    refine effect_of_timer rfl rfl rfl fun hself => ?_
    refine .leaves ?_ hself rfl
    rw [Inside, toUnlock_timer hi]
    exact Nat.one_pos
  | _ => exact effect_of_outer rfl rfl fun o => toUnlock_of_same rfl rfl o

/-! ## The holder and the sections -/

theorem Resting.thread (h : p.Resting) {t : Nat} {c : Client} (hrun : ∃ arg, p.threads.worker t = some (.running arg))
    (hc : p'.client = Function.update p.client t c) (ht : p'.timer = p.timer)
    (hw : p'.threads.worker = p.threads.worker) : p'.Resting := by
  intro u hu
  rw [hw] at hu
  have hne : u ≠ t := by
    rintro rfl
    obtain ⟨arg, hr⟩ := hrun
    exact hu arg hr
  rw [(toUnlock_of_client hc ht).2 (.thread u) fun he => hne (Owner.thread.inj (Option.some.inj he))]
  exact h u hu

/-- The threads that run go on running. -/
theorem Resting.same (h : p.Resting) (hc : p'.client = p.client)
    (hw : ∀ t arg, p.threads.worker t = some (.running arg) → p'.threads.worker t = some (.running arg)) :
    p'.Resting := by
  intro t ht
  rw [toUnlock, hc]
  exact h t fun arg hr => ht arg (hw t arg hr)

theorem Resting.step (h : p.Resting) (hst : Step device a p p') : p'.Resting := by
  cases hst with
  | @create _ fd arg hm hn =>
    intro t ht
    by_cases hc : t = p.threads.count
    · subst hc
      exact absurd (Function.update_self ..) (ht arg)
    · have hclient : (p.create fd arg).client t = p.client t := Function.update_of_ne hc _ _
      have hworker : (p.create fd arg).threads.worker t = p.threads.worker t := Function.update_of_ne hc _ _
      rw [hworker] at ht
      rw [toUnlock, hclient]
      exact h t ht
  | walk hm hw hwait he =>
    refine h.same rfl fun t arg hr => ?_
    rw [← hr, ← (Threads.advance_ok he).1]
  | @setDone _ t arg m hr hfin he =>
    obtain ⟨n, rfl⟩ := Threads.setDone_ok he
    intro u hu
    by_cases ht : u = t
    · subst ht
      rw [toUnlock, Conn.toUnlock, hfin]
    · refine h u fun arg' hr' => hu arg' ?_
      rw [← hr']
      exact Function.update_of_ne ht _ _
  | @returns _ t hd =>
    refine h.same rfl fun u arg hr => ?_
    have hne : u ≠ t := by
      rintro rfl
      rw [hd] at hr
      cases hr
    rw [← hr]
    exact Function.update_of_ne hne _ _
  | @send _ t buffer hat =>
    unfold Process.send
    split
    · exact h.same rfl fun _ _ hr => hr
    · exact h.thread hat.1 rfl rfl rfl
  | recv bytes hat => exact h.thread hat.1 rfl rfl rfl
  | lock hat hm => exact h.thread hat.1 rfl rfl rfl
  | openFile r hat => exact h.thread hat.1 rfl rfl rfl
  | ioctl hat => exact h.thread hat.1 rfl rfl rfl
  | write hat => exact h.thread hat.1 rfl rfl rfl
  | unlock hat => exact h.thread hat.1 rfl rfl rfl
  | read buffer hat => exact h.thread hat.1 rfl rfl rfl
  | closeFile hat => exact h.thread hat.1 rfl rfl rfl
  | closeClient hat => exact h.thread hat.1 rfl rfl rfl
  | _ => exact h.same rfl fun _ _ hr => hr

/-- A connection that writes has a chunk to write. -/
def Writing (p : Process) : Prop := ∀ t, (p.client t).conn.stage ≠ .write []

theorem Writing.step (h : p.Writing) (hst : Step device a p p') : p'.Writing := by
  have hclient : ∀ {t : Nat} {c : Client}, p'.client = Function.update p.client t c → c.conn.stage ≠ .write [] →
      p'.Writing := by
    intro t c hc hs u
    rw [hc]
    by_cases hu : u = t
    · subst hu
      rw [Function.update_self]
      exact hs
    · rw [Function.update_of_ne hu]
      exact h u
  cases hst with
  | create arg hm hn => exact hclient rfl fun he => by cases he
  | recv bytes hat => exact hclient rfl (Conn.onRecv_ne_write _ bytes)
  | lock hat hm => exact hclient rfl (Conn.onLock_ne_write _)
  | openFile r hat => exact hclient rfl (Conn.command_ne_write _)
  | ioctl hat => exact hclient rfl fun he => by cases he
  | write hat => exact hclient rfl (Conn.copyLoop_ne_write _ _)
  | unlock hat => exact hclient rfl (Conn.onUnlock_ne_write _)
  | read buffer hat => exact hclient rfl (Conn.onRead_ne_write _ buffer)
  | @send _ t buffer hat =>
    unfold Process.send at hclient ⊢
    split
    · exact h
    · refine fun u => ?_
      by_cases hu : u = t
      · subst hu
        have hself : (p.goto u (p.client u).conn.onSend).client u =
            { p.client u with conn := (p.client u).conn.onSend } :=
          Function.update_self ..
        rw [hself]
        exact fun he => by cases he
      · have hother : (p.goto t (p.client t).conn.onSend).client u = p.client u := Function.update_of_ne hu _ _
        rw [hother]
        exact h u
  | closeFile hat => exact hclient rfl (h _)
  | closeClient hat => exact hclient rfl fun he => by cases he
  | _ => exact h

/-- Inside a section is the holder of `file_mutex`, and nobody else. -/
def Exclusive (p : Process) : Prop := ∀ o, p.Inside o ↔ p.mutex = some o

theorem Exclusive.step (h : p.Exclusive) (he : p.Effect a p') : p'.Exclusive := by
  -- what the others are in does not change, and the mutex is not theirs
  have hothers : ∀ o, a.owner ≠ some o → (p'.Inside o ↔ p.mutex = some o) := by
    intro o ho
    rw [Inside, he.others o ho]
    exact h o
  intro o
  cases ha : a.owner with
  | none =>
    rw [he.outer ha]
    exact hothers o (by rw [ha]; exact fun hno => by cases hno)
  | some o' =>
    have hmine := he.own o' ha
    by_cases ho : o = o'
    · subst ho
      cases hmine with
      | outside h0 h0' hm =>
        rw [hm, ← h o, Inside, Inside, h0, h0']
      | enters h0 hfree hin hm => exact iff_of_true hin hm
      | goesOn hin hless hm =>
        refine iff_of_true hin ?_
        rw [hm, ← h o]
        exact Nat.zero_lt_of_lt hless
      | leaves hin h0 hm =>
        refine iff_of_false ?_ ?_
        · rw [Inside, h0]
          exact Nat.lt_irrefl 0
        · rw [hm]
          exact fun hno => by cases hno
    · have hne : a.owner ≠ some o := by
        rw [ha]
        exact fun hs => ho (Option.some.inj hs).symm
      rw [hothers o hne]
      cases hmine with
      | outside h0 h0' hm => rw [hm]
      | enters h0 hfree hin hm =>
        rw [hfree, hm]
        exact iff_of_false (fun hno => by cases hno) fun hs => ho (Option.some.inj hs).symm
      | goesOn hin hless hm => rw [hm]
      | leaves hin h0 hm =>
        rw [(h o').1 hin, hm]
        exact iff_of_false (fun hs => ho (Option.some.inj hs).symm) fun hno => by cases hno

/-- What every run keeps. -/
structure Locking (p : Process) : Prop where
  sound : p.Sound
  resting : p.Resting
  writing : p.Writing
  exclusive : p.Exclusive

theorem start_locking : start.Locking := by
  refine ⟨start_sound, fun _ _ => rfl, fun _ he => (by cases he), fun o => iff_of_false ?_ (fun he => by cases he)⟩
  cases o <;> exact Nat.lt_irrefl 0

theorem Locking.step (h : p.Locking) (hst : Step device a p p') : p'.Locking :=
  ⟨h.sound.step hst, h.resting.step hst, h.writing.step hst, h.exclusive.step (hst.effect h.sound h.resting)⟩

theorem locking_of_run {states : List Process} (hrun : Run (AnyStep device) start states p) : p.Locking :=
  hrun.inv Locking start_locking fun _ _ h ⟨_, _, hst⟩ => h.step hst

/-! ## Sections end -/

/-- A step of the process while it lasts. -/
def LiveStep (device : Bool) (a : Action) (p p' : Process) : Prop := p.Alive ∧ Step device a p p'

/-- A `read` returns nothing. -/
def Action.ReadsNothing : Action → Prop
  | .read _ buffer => buffer = []
  | _ => True

/-- A step of a run in which nothing is read from the file. -/
def UnreadStep (device : Bool) (p p' : Process) : Prop := p.Alive ∧ ∃ a, a.ReadsNothing ∧ Step device a p p'

theorem UnreadStep.any (h : UnreadStep device p p') : AnyStep device p p' := by
  obtain ⟨halive, a, -, hst⟩ := h
  exact ⟨halive, a, hst⟩

/-- A step of `o` that leaves `main` and the other threads and calls where they
are, and after which `o` is not about to send. -/
structure OwnStep (device : Bool) (p : Process) (o : Owner) (p' : Process) : Prop where
  step : ∃ a, a.owner = some o ∧ a.ReadsNothing ∧ Step device a p p'
  main : p'.main = p.main
  killed : p'.killed = p.killed
  reset : p'.reset = p.reset
  unsent : ∀ t buffer, some (.thread t) = some o → (p'.client t).conn.stage ≠ .send buffer
  threads : p'.threads = p.threads
  client : ∀ t, some (.thread t) ≠ some o → p'.client t = p.client t
  timer : ∀ i, some (.timer i) ≠ some o → p'.timer i = p.timer i

theorem OwnStep.thread {t : Nat} {c : Client}
    (hst : ∃ a, a.owner = some (.thread t) ∧ a.ReadsNothing ∧ Step device a p p')
    (hs : ∀ buffer, c.conn.stage ≠ .send buffer) (hm : p'.main = p.main) (hk : p'.killed = p.killed)
    (hr : p'.reset = p.reset) (hth : p'.threads = p.threads) (hc : p'.client = Function.update p.client t c)
    (ht : p'.timer = p.timer) : OwnStep device p (.thread t) p' := by
  refine ⟨hst, hm, hk, hr, fun u buffer hu => ?_, hth, fun u hu => ?_, fun i _ => by rw [ht]⟩
  · obtain rfl := Owner.thread.inj (Option.some.inj hu)
    rw [hc, Function.update_self]
    exact hs buffer
  · have hne : u ≠ t := by
      rintro rfl
      exact hu rfl
    rw [hc, Function.update_of_ne hne]

theorem OwnStep.timerCall {i : Nat} {s : Timer}
    (hst : ∃ a, a.owner = some (.timer i) ∧ a.ReadsNothing ∧ Step device a p p')
    (hm : p'.main = p.main) (hk : p'.killed = p.killed) (hr : p'.reset = p.reset) (hth : p'.threads = p.threads)
    (hc : p'.client = p.client) (ht : p'.timer = Function.update p.timer i (some s)) :
    OwnStep device p (.timer i) p' := by
  refine ⟨hst, hm, hk, hr, fun t _ he => (by cases he), hth, fun t _ => by rw [hc], fun j hj => ?_⟩
  have hne : j ≠ i := by
    rintro rfl
    exact hj rfl
  rw [ht, Function.update_of_ne hne]

/-- A thread in its section runs `processClientConnection`. -/
theorem Locking.running (h : p.Locking) {t : Nat} (hin : p.Inside (.thread t)) :
    ∃ arg, p.threads.worker t = some (.running arg) := by
  by_contra hno
  have h0 := h.resting t fun arg hr => hno ⟨arg, hr⟩
  rw [Inside, h0] at hin
  exact Nat.lt_irrefl 0 hin

/-- Whoever is in its section has a next call. -/
theorem Locking.next (h : p.Locking) {o : Owner} (hin : p.Inside o) : ∃ p', OwnStep device p o p' := by
  cases o with
  | thread t =>
    have hrun := h.running hin
    cases hs : (p.client t).conn.stage with
    | openFile =>
      exact ⟨_, .thread ⟨_, rfl, by trivial, .openFile none ⟨hrun, hs⟩ fun _ he => by cases he⟩
        (Conn.ne_send_of_toUnlock _ (Conn.onOpen_toUnlock _ false).1) rfl rfl rfl rfl rfl rfl⟩
    | ioctl seekto =>
      exact ⟨_, .thread ⟨_, rfl, by trivial, .ioctl ⟨hrun, hs⟩⟩ (by simp [Conn.onIoctl]) rfl rfl rfl rfl rfl rfl⟩
    | write node =>
      cases node with
      | nil => exact absurd hs (h.writing t)
      | cons chunk node =>
        exact ⟨_, .thread ⟨_, rfl, by trivial, .write ⟨hrun, hs⟩⟩
          (Conn.ne_send_of_toUnlock _ (Conn.onWrite_toUnlock _ node).1) rfl rfl rfl rfl rfl rfl⟩
    | unlock =>
      exact ⟨_, .thread ⟨_, rfl, by trivial, .unlock ⟨hrun, hs⟩⟩ (Conn.onUnlock_ne_send _) rfl rfl rfl rfl rfl rfl⟩
    | _ =>
      rw [Inside, toUnlock, Conn.toUnlock, hs] at hin
      exact absurd hin (Nat.lt_irrefl 0)
  | timer i =>
    cases ht : p.timer i with
    | none =>
      rw [Inside, toUnlock, ht] at hin
      exact absurd hin (Nat.lt_irrefl 0)
    | some s =>
      rw [Inside, toUnlock_timer ht] at hin
      cases s with
      | openFile =>
        exact ⟨_, .timerCall ⟨_, rfl, by trivial, .timerOpen none ht fun _ he => by cases he⟩ rfl rfl rfl rfl rfl rfl⟩
      | write fd => exact ⟨_, .timerCall ⟨_, rfl, by trivial, .timerWrite false ht⟩ rfl rfl rfl rfl rfl rfl⟩
      | close fd => exact ⟨_, .timerCall ⟨_, rfl, by trivial, .timerClose ht⟩ rfl rfl rfl rfl rfl rfl⟩
      | unlock => exact ⟨_, .timerCall ⟨_, rfl, by trivial, .timerUnlock ht⟩ rfl rfl rfl rfl rfl rfl⟩
      | lock => exact absurd hin (Nat.lt_irrefl 0)
      | returned => exact absurd hin (Nat.lt_irrefl 0)

/-- `o` is about to call `pthread_mutex_lock`. -/
def WaitsFor (p : Process) : Owner → Prop
  | .thread t => p.At t .lock
  | .timer i => p.timer i = some .lock

theorem WaitsFor.outside {o : Owner} (h : p.WaitsFor o) : ¬ p.Inside o := by
  cases o with
  | thread t =>
    rw [Inside, h.toUnlock]
    exact Nat.lt_irrefl 0
  | timer i =>
    rw [Inside, toUnlock_timer h]
    exact Nat.lt_irrefl 0

theorem OwnStep.waits (h : OwnStep device p o p') {w : Owner} (hne : w ≠ o) (hw : p.WaitsFor w) : p'.WaitsFor w := by
  have hne' : some w ≠ some o := fun he => hne (Option.some.inj he)
  cases w with
  | thread t =>
    rw [WaitsFor, At, h.threads, h.client t hne']
    exact hw
  | timer i =>
    rw [WaitsFor, h.timer i hne']
    exact hw

/-- A free mutex is there for anyone who waits for it. -/
theorem WaitsFor.locks {o : Owner} (h : p.WaitsFor o) (hfree : p.mutex = none) :
    ∃ p', OwnStep device p o p' ∧ p'.mutex = some o := by
  cases o with
  | thread t =>
    exact ⟨_, .thread ⟨_, rfl, by trivial, .lock h hfree⟩ (Conn.ne_send_of_toUnlock _ (Conn.onLock_toUnlock _)) rfl
      rfl rfl rfl rfl rfl, rfl⟩
  | timer i => exact ⟨_, .timerCall ⟨_, rfl, by trivial, .timerLock h hfree⟩ rfl rfl rfl rfl rfl rfl, rfl⟩

/-- A step of one thread, or of one call of `timer_handler`. -/
def OwnsStep (device : Bool) (p p' : Process) : Prop := ∃ o, OwnStep device p o p'

/-- The process outlasts such steps. -/
theorem live_of_owns {states : List Process} (hrun : Run (OwnsStep device) p states p') (halive : p.Alive) :
    Run (UnreadStep device) p states p' ∧ p'.Alive := by
  induction hrun with
  | nil => exact ⟨.nil, halive⟩
  | snoc _ hst ih =>
    obtain ⟨o, hown⟩ := hst
    obtain ⟨a, -, hunread, hst⟩ := hown.step
    refine ⟨ih.1.snoc ⟨ih.2, a, hunread, hst⟩, ?_⟩
    rw [Alive, hown.main, hown.killed]
    exact ih.2

/-- The holder's calls come to an end, and then the mutex is free. -/
theorem Locking.reaches (h : p.Locking) {w : Owner} (hw : p.WaitsFor w) :
    ∃ states p', Run (OwnsStep device) p states p' ∧ p'.mutex = some w := by
  -- by induction on the number of calls the holder has left
  induction hn : (p.mutex.map p.toUnlock).getD 0 using Nat.strong_induction_on generalizing p with
  | _ n ih =>
    cases hm : p.mutex with
    | none =>
      obtain ⟨p', hown, hp'⟩ := hw.locks hm
      exact ⟨_, p', Run.nil.snoc ⟨w, hown⟩, hp'⟩
    | some o =>
      have hin : p.Inside o := (h.exclusive o).2 hm
      obtain ⟨p', hown⟩ : ∃ p', OwnStep device p o p' := h.next hin
      obtain ⟨a, ha, -, hst⟩ := hown.step
      have hne : w ≠ o := by
        rintro rfl
        exact hw.outside hin
      have hless : (p'.mutex.map p'.toUnlock).getD 0 < n := by
        rw [← hn, hm]
        cases (hst.effect h.sound h.resting).own o ha with
        | outside h0 => exact absurd h0 (Nat.ne_of_gt hin)
        | enters h0 => exact absurd h0 (Nat.ne_of_gt hin)
        | goesOn _ hless hm' =>
          rw [hm', hm]
          exact hless
        | leaves _ _ hm' =>
          rw [hm']
          exact hin
      obtain ⟨states, q, hrun, hq⟩ := ih _ hless (h.step hst) (hown.waits hne hw) rfl
      exact ⟨_, q, Run.head ⟨o, hown⟩ hrun, hq⟩

end Process

open Process

/-! ## Every run -/

section Results

variable {device : Bool} {states : List Process} {p : Process}

/-- One connection, which has received a line and is about to lock the mutex. -/
theorem waiting_one : ∃ states p, Run (UnreadStep true) Process.start states p ∧ p.Alive ∧ p.WaitsFor (.thread 0) ∧
    p.mutex = none ∧ (p.client 0).conn.chunks = [[newline]] := by
  have h0 : Run (UnreadStep true) Process.start [] _ := .nil
  have h1 := h0.snoc ⟨⟨nofun, rfl⟩, _, by trivial, .loopTest rfl⟩
  have h2 := h1.snoc ⟨⟨nofun, rfl⟩, _, by trivial, .accept (some 4) rfl (fun _ _ => rfl)⟩
  have h3 := h2.snoc ⟨⟨nofun, rfl⟩, _, by trivial, .examine rfl⟩
  have h4 := h3.snoc ⟨⟨nofun, rfl⟩, _, by trivial, .create 1 rfl rfl⟩
  have h5 := h4.snoc ⟨⟨nofun, rfl⟩, _, by trivial, .recv (t := 0) [newline] ⟨⟨1, rfl⟩, rfl⟩ (by decide)⟩
  exact ⟨_, _, h5, ⟨nofun, rfl⟩, ⟨⟨1, rfl⟩, rfl⟩, rfl, rfl⟩

/-- It has locked the mutex, and opens the file next. -/
theorem holding_one : ∃ states p, Run (UnreadStep true) Process.start states p ∧ p.Alive ∧
    p.mutex = some (.thread 0) ∧ p.toUnlock (.thread 0) = 4 := by
  obtain ⟨states, p, hrun, halive, hw, hfree, hchunks⟩ := waiting_one
  refine ⟨_, _, hrun.snoc ⟨halive, _, by trivial, .lock hw hfree⟩, halive, rfl, ?_⟩
  show Conn.toUnlock ((Function.update p.client 0 _) 0).conn = 4
  rw [Function.update_self]
  show Conn.toUnlock (p.client 0).conn.onLock = 4
  rw [Conn.onLock_data _ (by rw [hchunks]; exact List.cons_ne_nil _ _), Conn.toUnlock, hchunks]
  rfl

/-- In every run of either build, exactly the holder of `file_mutex` is between
`pthread_mutex_lock` and `pthread_mutex_unlock`: at most one thread or call of
`timer_handler`, and none that has returned. -/
theorem sections_exclusive (hrun : Run (AnyStep device) Process.start states p) (o : Owner) :
    p.Inside o ↔ p.mutex = some o := (locking_of_run hrun).exclusive o

theorem sections_exclusive_one : ∃ states p, Run (AnyStep true) Process.start states p ∧ p.mutex = some (.thread 0) ∧
    p.Inside (.thread 0) ∧ ¬ p.Inside (.timer 0) := by
  obtain ⟨states, p, hrun, -, hheld, -⟩ := holding_one
  have hrun' := hrun.mono fun _ _ => UnreadStep.any
  refine ⟨states, p, hrun', hheld, (sections_exclusive hrun' _).2 hheld, ?_⟩
  rw [sections_exclusive hrun', hheld]
  exact fun he => by cases he

end Results

end Aesd
