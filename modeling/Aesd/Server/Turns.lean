import Aesd.Server.Descriptors
import Aesd.Server.Exclusion
/-!
# Turns

A step of the process is a step of one thread, one call of `timer_handler` or
`main`, and leaves all others where they are; each thread and each call
acquires `file_mutex` once.
-/

namespace Aesd

open SysLib

namespace Process

variable {device : Bool} {p p' : Process} {a : Action} {o : Owner}

/-! ## Who changes what -/

/-- Threads that have not been created have not begun. -/
def Unborn (p : Process) : Prop := ∀ t, p.threads.worker t = none → (p.client t).conn = .start

/-- `o` is where it was, or its timer has begun. -/
def Same (p p' : Process) : Owner → Prop
  | .thread t => (p'.client t).conn = (p.client t).conn
  | .timer i => p'.timer i = p.timer i ∨ (p.timer i = none ∧ p'.timer i = some .lock)

/-- `o` has acquired `file_mutex`. -/
def Past (p : Process) : Owner → Prop
  | .thread t => (p.client t).conn.stage ≠ .recv ∧ (p.client t).conn.stage ≠ .lock
  | .timer i => p.timer i ≠ none ∧ p.timer i ≠ some .lock

theorem Same.past (h : p.Same p' o) (hp : p.Past o) : p'.Past o := by
  cases o with
  | thread t =>
    rw [Past, h]
    exact hp
  | timer i =>
    rcases h with h | ⟨h, -⟩
    · rw [Past, h]
      exact hp
    · exact absurd h hp.1

theorem same_of_client {t : Nat} {c : Client} (hc : p'.client = Function.update p.client t c) (ht : p'.timer = p.timer)
    (ho : some (.thread t) ≠ some o) : p.Same p' o := by
  cases o with
  | thread u =>
    have hu : u ≠ t := by
      rintro rfl
      exact ho rfl
    rw [Same, hc, Function.update_of_ne hu]
  | timer i => exact .inl (by rw [ht])

theorem same_of_timer {i : Nat} {s : Timer} (hc : p'.client = p.client)
    (ht : p'.timer = Function.update p.timer i (some s)) (ho : some (.timer i) ≠ some o) : p.Same p' o := by
  cases o with
  | thread t => rw [Same, hc]
  | timer j =>
    have hj : j ≠ i := by
      rintro rfl
      exact ho rfl
    exact .inl (by rw [ht, Function.update_of_ne hj])

theorem same_of_same (hc : p'.client = p.client) (ht : p'.timer = p.timer) (o : Owner) : p.Same p' o := by
  cases o with
  | thread t => rw [Same, hc]
  | timer i => exact .inl (by rw [ht])

theorem Sound.count_none (h : p.Sound) : p.threads.worker p.threads.count = none := by
  obtain ⟨l, extra, hinv⟩ := h.inv
  by_contra hne
  exact Nat.lt_irrefl _ ((hinv.born _).2 hne)

/-- A step leaves all others where they are. -/
theorem Step.same (hst : Step device a p p') (hs : p.Sound) (hu : p.Unborn) (ho : a.owner ≠ some o) : p.Same p' o := by
  cases hst with
  | @create _ fd arg hm hn =>
    by_cases he : some (.thread p.threads.count) = some o
    · obtain rfl := Option.some.inj he
      have hself : (p.create fd arg).client p.threads.count = ⟨.start, some fd, none⟩ := Function.update_self ..
      rw [Same, hself, hu _ hs.count_none]
    · exact same_of_client rfl rfl he
  | @tick _ i hd hi =>
    by_cases he : some (.timer i) = some o
    · obtain rfl := Option.some.inj he
      exact .inr ⟨hi, Function.update_self ..⟩
    · exact same_of_timer rfl rfl he
  | @send _ t buffer hat =>
    unfold Process.send
    split
    · exact same_of_same rfl rfl o
    · exact same_of_client rfl rfl ho
  | recv bytes hat => exact same_of_client rfl rfl ho
  | lock hat hm => exact same_of_client rfl rfl ho
  | openFile r hat => exact same_of_client rfl rfl ho
  | ioctl hat => exact same_of_client rfl rfl ho
  | write hat => exact same_of_client rfl rfl ho
  | unlock hat => exact same_of_client rfl rfl ho
  | read buffer hat => exact same_of_client rfl rfl ho
  | closeFile hat => exact same_of_client rfl rfl ho
  | closeClient hat => exact same_of_client rfl rfl ho
  | timerLock hi hm => exact same_of_timer rfl rfl ho
  | timerOpen r hi => exact same_of_timer rfl rfl ho
  | timerWrite ok hi => exact same_of_timer rfl rfl ho
  | timerClose hi => exact same_of_timer rfl rfl ho
  | timerUnlock hi => exact same_of_timer rfl rfl ho
  | _ => exact same_of_same rfl rfl o

theorem Unborn.step (h : p.Unborn) (hst : Step device a p p') : p'.Unborn := by
  -- a thread that makes a call has been created
  have hclient : ∀ {t : Nat} {s : Stage} {c : Client}, p.At t s → p'.client = Function.update p.client t c →
      p'.threads.worker = p.threads.worker → p'.Unborn := by
    intro t s c hat hc hw u hu
    rw [hw] at hu
    have hne : u ≠ t := by
      rintro rfl
      obtain ⟨⟨arg, hr⟩, -⟩ := hat
      rw [hu] at hr
      cases hr
    rw [hc, Function.update_of_ne hne]
    exact h u hu
  have hworker : ∀ {t : Nat} {w : Worker}, p'.client = p.client →
      p'.threads.worker = Function.update p.threads.worker t (some w) → p'.Unborn := by
    intro t w hc hw u hu
    rw [hc]
    refine h u ?_
    by_cases hut : u = t
    · rw [hw, hut, Function.update_self] at hu
      cases hu
    · rwa [hw, Function.update_of_ne hut] at hu
  cases hst with
  | @create _ fd arg hm hn =>
    intro u hu
    have hne : u ≠ p.threads.count := by
      rintro rfl
      have hself : (p.create fd arg).threads.worker p.threads.count = some (.running arg) := Function.update_self ..
      rw [hself] at hu
      cases hu
    have hc : (p.create fd arg).client u = p.client u := Function.update_of_ne hne _ _
    have hw : (p.create fd arg).threads.worker u = p.threads.worker u := Function.update_of_ne hne _ _
    rw [hc]
    exact h u (hw ▸ hu)
  | walk hm hw hwait he =>
    intro u hu
    rw [(Threads.advance_ok he).1] at hu
    exact h u hu
  | setDone hr hfin he =>
    obtain ⟨n, rfl⟩ := Threads.setDone_ok he
    exact hworker rfl rfl
  | returns hd => exact hworker rfl rfl
  | @send _ t buffer hat =>
    unfold Process.send at hclient ⊢
    split
    · exact h
    · next hr =>
      rw [if_neg hr] at hclient
      exact hclient hat rfl rfl
  | recv bytes hat => exact hclient hat rfl rfl
  | lock hat hm => exact hclient hat rfl rfl
  | openFile r hat => exact hclient hat rfl rfl
  | ioctl hat => exact hclient hat rfl rfl
  | write hat => exact hclient hat rfl rfl
  | unlock hat => exact hclient hat rfl rfl
  | read buffer hat => exact hclient hat rfl rfl
  | closeFile hat => exact hclient hat rfl rfl
  | closeClient hat => exact hclient hat rfl rfl
  | _ => exact h

/-! ## Acquiring the mutex -/

theorem WaitsFor.not_past (h : p.WaitsFor o) : ¬ p.Past o := by
  cases o with
  | thread t => exact fun hp => hp.2 h.2
  | timer i => exact fun hp => hp.2 h

theorem past_of_client {t : Nat} {c : Client} (hc : p'.client = Function.update p.client t c)
    (hs : c.conn.stage ≠ .recv ∧ c.conn.stage ≠ .lock) : p'.Past (.thread t) := by
  rw [Past, hc, Function.update_self]
  exact hs

theorem past_of_timer {i : Nat} {s : Timer} (ht : p'.timer = Function.update p.timer i (some s)) (hs : s ≠ .lock) :
    p'.Past (.timer i) := by
  rw [Past, ht, Function.update_self]
  exact ⟨Option.some_ne_none _, fun he => hs (Option.some.inj he)⟩

theorem past_of_opened {c : Conn} (h : c.stage.Opened) : c.stage ≠ .recv ∧ c.stage ≠ .lock := by
  refine ⟨?_, ?_⟩
  · intro hs
    rw [hs] at h
    exact h
  · intro hs
    rw [hs] at h
    exact h

/-- The mutex is acquired once only. -/
theorem Step.past (hst : Step device a p p') (hs : p.Sound) (hu : p.Unborn) (hp : p.Past o) : p'.Past o := by
  by_cases ho : a.owner = some o
  case neg => exact (hst.same hs hu ho).past hp
  cases hst with
  | recv bytes hat =>
    obtain rfl := Option.some.inj ho
    exact absurd hat.2 hp.1
  | lock hat hm =>
    obtain rfl := Option.some.inj ho
    exact absurd hat.2 hp.2
  | openFile r hat =>
    obtain rfl := Option.some.inj ho
    exact past_of_client rfl (past_of_opened (Conn.command_opened _))
  | ioctl hat =>
    obtain rfl := Option.some.inj ho
    exact past_of_client rfl (past_of_opened trivial)
  | write hat =>
    obtain rfl := Option.some.inj ho
    exact past_of_client rfl (past_of_opened (Conn.copyLoop_opened _ _))
  | unlock hat =>
    obtain rfl := Option.some.inj ho
    exact past_of_client rfl (past_of_opened (Conn.onUnlock_opened _))
  | read buffer hat =>
    obtain rfl := Option.some.inj ho
    exact past_of_client rfl (past_of_opened (Conn.onRead_opened _ buffer))
  | @send _ t buffer hat =>
    obtain rfl := Option.some.inj ho
    unfold Process.send
    split
    · exact hp
    · exact past_of_client rfl (past_of_opened trivial)
  | closeFile hat =>
    obtain rfl := Option.some.inj ho
    exact past_of_client rfl hp
  | closeClient hat =>
    obtain rfl := Option.some.inj ho
    exact past_of_client rfl ⟨fun he => (by cases he), fun he => by cases he⟩
  | timerLock hi hm =>
    obtain rfl := Option.some.inj ho
    exact past_of_timer rfl fun he => by cases he
  | timerOpen r hi =>
    obtain rfl := Option.some.inj ho
    cases r <;> exact past_of_timer rfl fun he => by cases he
  | timerWrite ok hi =>
    obtain rfl := Option.some.inj ho
    cases ok <;> exact past_of_timer rfl fun he => by cases he
  | timerClose hi =>
    obtain rfl := Option.some.inj ho
    exact past_of_timer rfl fun he => by cases he
  | timerUnlock hi =>
    obtain rfl := Option.some.inj ho
    exact past_of_timer rfl fun he => by cases he
  | setDone hr hfin =>
    obtain rfl := Option.some.inj ho
    exact hp
  | returns hd =>
    obtain rfl := Option.some.inj ho
    exact hp
  | _ => cases ho

/-- Who acquires `file_mutex` in a step. -/
def Action.locks : Action → Option Owner
  | .lock t => some (.thread t)
  | .timerLock i => some (.timer i)
  | _ => none

/-- The mutex is acquired, stays with its holder or becomes free. -/
theorem Step.mutex (hst : Step device a p p') :
    (∃ o, a.locks = some o ∧ p.WaitsFor o ∧ p'.mutex = some o ∧ p'.Past o) ∨
      (a.locks = none ∧ (p'.mutex = p.mutex ∨ p'.mutex = none)) := by
  cases hst with
  | @lock _ t hat hm =>
    refine .inl ⟨_, rfl, hat, rfl, past_of_client rfl ?_⟩
    show (p.client t).conn.onLock.stage ≠ .recv ∧ (p.client t).conn.onLock.stage ≠ .lock
    by_cases hne : (p.client t).conn.chunks = []
    · rw [Conn.onLock_nothing _ hne]
      exact ⟨fun he => (by cases he), fun he => by cases he⟩
    · rw [Conn.onLock_data _ hne]
      exact ⟨fun he => (by cases he), fun he => by cases he⟩
  | timerLock hi hm => exact .inl ⟨_, rfl, hi, rfl, past_of_timer rfl fun he => by cases he⟩
  | unlock hat => exact .inr ⟨rfl, .inr rfl⟩
  | timerUnlock hi => exact .inr ⟨rfl, .inr rfl⟩
  | @send _ t buffer hat =>
    refine .inr ⟨rfl, .inl ?_⟩
    unfold Process.send
    split <;> rfl
  | _ => exact .inr ⟨rfl, .inl rfl⟩

end Process

end Aesd
