import Mathlib.Algebra.BigOperators.Group.List.Basic
import Mathlib.Logic.Function.Basic
import Aesd.SysLib.Runs
/-!
# Threads that take a mutex

`threading.c`: `start_thread_obtaining_mutex` starts a thread that sleeps, takes
a mutex, sleeps, and gives it back. Any number of threads run interleaved, over
any number of mutexes, and their caller takes and drops mutexes and joins threads
in between. How long a sleep takes is left out; a sleep ends at some step.

A call that fails ends its thread, also with the mutex in its hands. `stuck_blame`
shows that nothing else keeps a thread from its end.
-/

namespace Aesd.Threading

open SysLib

/-- `struct thread_data`; the mutexes are named by `μ`. -/
structure ThreadData (μ : Type) where
  mutex : μ
  waitToObtainMs : Int
  waitToReleaseMs : Int
  threadCompleteSuccess : Bool

/-- Where a thread is in `threadfunc`. -/
inductive Pc where
  | sleeping
  | locking
  | holding
  | unlocking
  | unlocked
  | returned
  /-- The caller has joined it and freed its `thread_data`. -/
  | joined
  deriving DecidableEq

structure Worker (μ : Type) where
  data : ThreadData μ
  pc : Pc

/-- Who holds a mutex: a thread, by its number, or the caller. -/
inductive Owner where
  | worker (i : Nat)
  | caller
  deriving DecidableEq

/-- The threads in the order of their start, the mutexes, and the number of
`thread_data` blocks allocated and not freed. -/
structure Pool (μ : Type) where
  workers : List (Worker μ)
  owner : μ → Option Owner
  blocks : Nat

/-- How the calls of one start go: whether `malloc` finds memory, and what
`pthread_create` returns. -/
structure StartOutcome where
  malloc : Bool
  pthreadCreate : Int

section Model

variable {μ : Type}

def Pool.empty : Pool μ := ⟨[], fun _ => none, 0⟩

/-- `start_thread_obtaining_mutex` -/
def Pool.startThreadObtainingMutex (o : StartOutcome) (mutex : μ) (waitToObtainMs waitToReleaseMs : Int)
    (p : Pool μ) : Bool × Pool μ :=
  if o.malloc = false then (false, p)
  else
    let p := { p with blocks := p.blocks + 1 }
    if o.pthreadCreate ≠ 0 then (false, { p with blocks := p.blocks - 1 })
    else (true, { p with workers := p.workers ++ [⟨⟨mutex, waitToObtainMs, waitToReleaseMs, false⟩, .sleeping⟩] })

/-- Thread `i` is now `w`. -/
def Pool.put (p : Pool μ) (i : Nat) (w : Worker μ) : Pool μ := { p with workers := p.workers.set i w }

def Pool.setOwner [DecidableEq μ] (p : Pool μ) (m : μ) (o : Option Owner) : Pool μ :=
  { p with owner := Function.update p.owner m o }

inductive Act (μ : Type) where
  | start (mutex : μ) (waitToObtainMs waitToReleaseMs : Int) (o : StartOutcome)
  | slept (i : Nat)
  | lock (i : Nat) (rc : Int)
  | unlock (i : Nat) (rc : Int)
  | succeed (i : Nat)
  | join (i : Nat)
  | callerLock (m : μ)
  | callerUnlock (m : μ)

/-- The thread that acts. -/
def Act.worker : Act μ → Option Nat
  | .slept i => some i
  | .lock i _ => some i
  | .unlock i _ => some i
  | .succeed i => some i
  | _ => none

/-- One step: of a thread in `threadfunc`, or of the caller. -/
inductive Pool.Step [DecidableEq μ] : Act μ → Pool μ → Pool μ → Prop
  | start {p : Pool μ} {m : μ} {a b : Int} {o : StartOutcome} :
      Step (.start m a b o) p (p.startThreadObtainingMutex o m a b).2
  | slept {p : Pool μ} {i : Nat} {w : Worker μ} : p.workers[i]? = some w → w.pc = .sleeping →
      Step (.slept i) p (p.put i { w with pc := .locking })
  /-- The thread returns; `thread_complete_success` stays false. -/
  | lockFailed {p : Pool μ} {i : Nat} {w : Worker μ} {rc : Int} : p.workers[i]? = some w → w.pc = .locking →
      rc ≠ 0 → Step (.lock i rc) p (p.put i { w with pc := .returned })
  | locked {p : Pool μ} {i : Nat} {w : Worker μ} : p.workers[i]? = some w → w.pc = .locking →
      p.owner w.data.mutex = none →
      Step (.lock i 0) p ((p.put i { w with pc := .holding }).setOwner w.data.mutex (some (.worker i)))
  | rested {p : Pool μ} {i : Nat} {w : Worker μ} : p.workers[i]? = some w → w.pc = .holding →
      Step (.slept i) p (p.put i { w with pc := .unlocking })
  /-- The thread returns with the mutex. -/
  | unlockFailed {p : Pool μ} {i : Nat} {w : Worker μ} {rc : Int} : p.workers[i]? = some w → w.pc = .unlocking →
      rc ≠ 0 → Step (.unlock i rc) p (p.put i { w with pc := .returned })
  | unlocked {p : Pool μ} {i : Nat} {w : Worker μ} : p.workers[i]? = some w → w.pc = .unlocking →
      Step (.unlock i 0) p ((p.put i { w with pc := .unlocked }).setOwner w.data.mutex none)
  | succeed {p : Pool μ} {i : Nat} {w : Worker μ} : p.workers[i]? = some w → w.pc = .unlocked →
      Step (.succeed i) p (p.put i ⟨{ w.data with threadCompleteSuccess := true }, .returned⟩)
  /-- The caller gets the pointer `threadfunc` returned, and frees it. -/
  | join {p : Pool μ} {i : Nat} {w : Worker μ} : p.workers[i]? = some w → w.pc = .returned →
      Step (.join i) p { p.put i { w with pc := .joined } with blocks := p.blocks - 1 }
  | callerLock {p : Pool μ} {m : μ} : p.owner m = none → Step (.callerLock m) p (p.setOwner m (some .caller))
  | callerUnlock {p : Pool μ} {m : μ} : p.owner m = some .caller → Step (.callerUnlock m) p (p.setOwner m none)

/-! ## The invariant -/

/-- `i` has locked its mutex and not unlocked it. -/
def Holds (l : List (Act μ)) (i : Nat) : Prop := .lock i 0 ∈ l ∧ .unlock i 0 ∉ l

/-- Where a thread is, by what it has done so far. -/
def Worker.Fits (l : List (Act μ)) (i : Nat) (w : Worker μ) : Prop :=
  match w.pc with
  | .sleeping | .locking => .lock i 0 ∉ l ∧ .unlock i 0 ∉ l ∧ w.data.threadCompleteSuccess = false
  | .holding | .unlocking => .lock i 0 ∈ l ∧ .unlock i 0 ∉ l ∧ w.data.threadCompleteSuccess = false
  | .unlocked => .lock i 0 ∈ l ∧ .unlock i 0 ∈ l ∧ w.data.threadCompleteSuccess = false
  | .returned | .joined =>
    (w.data.threadCompleteSuccess = true ↔ .lock i 0 ∈ l ∧ .unlock i 0 ∈ l) ∧
      (w.data.threadCompleteSuccess = true ∨ (.lock i 0 ∉ l ∧ ∃ rc, rc ≠ 0 ∧ .lock i rc ∈ l) ∨
        ∃ rc, rc ≠ 0 ∧ .unlock i rc ∈ l)

/-- The number of `thread_data` blocks a thread has. -/
def Worker.block (w : Worker μ) : Nat := if w.pc = .joined then 0 else 1

structure Pool.Inv (l : List (Act μ)) (p : Pool μ) : Prop where
  known : ∀ a ∈ l, ∀ i, a.worker = some i → i < p.workers.length
  fits : ∀ i (w : Worker μ), p.workers[i]? = some w → w.Fits l i
  owned : ∀ m i, p.owner m = some (.worker i) ↔ ∃ w, p.workers[i]? = some w ∧ w.data.mutex = m ∧ Holds l i
  counted : p.blocks = (p.workers.map Worker.block).sum

variable {l : List (Act μ)} {p p' : Pool μ} {a : Act μ} {i j : Nat} {w w' : Worker μ}

theorem mem_snoc_iff {b : Act μ} (hne : b ≠ a) : b ∈ l ++ [a] ↔ b ∈ l := by
  rw [List.mem_append, List.mem_singleton, or_iff_left hne]

/-- What another does leaves a thread's locks alone. -/
theorem holds_other (hne : a.worker ≠ some j) : Holds (l ++ [a]) j ↔ Holds l j := by
  unfold Holds
  rw [mem_snoc_iff (by rintro rfl; exact hne rfl), mem_snoc_iff (by rintro rfl; exact hne rfl)]

theorem Worker.Fits.other (h : w.Fits l j) (hne : a.worker ≠ some j) : w.Fits (l ++ [a]) j := by
  have hlock (rc : Int) : .lock j rc ∈ l ++ [a] ↔ .lock j rc ∈ l := mem_snoc_iff (by rintro rfl; exact hne rfl)
  have hunlock (rc : Int) : .unlock j rc ∈ l ++ [a] ↔ .unlock j rc ∈ l := mem_snoc_iff (by rintro rfl; exact hne rfl)
  unfold Worker.Fits at h ⊢
  simp only [hlock, hunlock]
  exact h

theorem sum_map_set {f : Worker μ → Nat} {ws : List (Worker μ)} (h : ws[i]? = some w) (w' : Worker μ) :
    ((ws.set i w').map f).sum + f w = (ws.map f).sum + f w' := by
  induction ws generalizing i with
  | nil => cases h
  | cons x ws ih =>
    cases i with
    | zero =>
      obtain rfl := Option.some.inj h
      simp only [List.set_cons_zero, List.map_cons, List.sum_cons]
      omega
    | succ i =>
      have := ih h
      simp only [List.set_cons_succ, List.map_cons, List.sum_cons]
      omega

theorem lt_of_worker (h : p.workers[i]? = some w) : i < p.workers.length := by
  by_contra hge
  rw [List.getElem?_eq_none (Nat.not_lt.1 hge)] at h
  cases h

theorem Pool.Inv.empty : (Pool.empty : Pool μ).Inv [] where
  known a ha := by cases ha
  fits i w hw := by cases hw
  owned m i := by simp [Pool.empty]
  counted := rfl

/-- Whose mutex it is, of one thread. -/
theorem Pool.Inv.owned_iff (h : p.Inv l) (hw : p.workers[i]? = some w) {m : μ} :
    p.owner m = some (.worker i) ↔ w.data.mutex = m ∧ Holds l i := by
  rw [h.owned]
  constructor
  · rintro ⟨v, hv, hm⟩
    obtain rfl := Option.some.inj (hw.symm.trans hv)
    exact hm
  · exact fun hm => ⟨w, hw, hm⟩

/-! ## One step -/

/-- A step of thread `i`. -/
theorem Pool.Inv.put (h : p.Inv l) (hw : p.workers[i]? = some w) (ha : ∀ j, a.worker = some j → j = i)
    (hworkers : p'.workers = p.workers.set i w') (hmutex : w'.data.mutex = w.data.mutex)
    (hfits : w'.Fits (l ++ [a]) i) (hself : ∀ m, p'.owner m = some (.worker i) ↔ w.data.mutex = m ∧ Holds (l ++ [a]) i)
    (hother : ∀ m j, j ≠ i → (p'.owner m = some (.worker j) ↔ p.owner m = some (.worker j)))
    (hblocks : p'.blocks + w.block = p.blocks + w'.block) : p'.Inv (l ++ [a]) := by
  have hlt := lt_of_worker hw
  have hget (j : Nat) : p'.workers[j]? = if i = j then some w' else p.workers[j]? := by
    rw [hworkers, List.getElem?_set, if_pos hlt]
  have hne (j : Nat) (hj : j ≠ i) : a.worker ≠ some j := fun he => hj (ha j he)
  constructor
  · intro b hb j hbj
    rw [hworkers, List.length_set]
    rcases List.mem_append.1 hb with hb | hb
    · exact h.known b hb j hbj
    · rw [List.mem_singleton.1 hb] at hbj
      exact ha j hbj ▸ hlt
  · intro j v hv
    rw [hget] at hv
    split at hv
    · rename_i he
      obtain rfl := Option.some.inj hv
      exact he ▸ hfits
    · rename_i he
      exact (h.fits j v hv).other (hne j (Ne.symm he))
  · intro m j
    by_cases hj : j = i
    · subst hj
      rw [hself, hget, if_pos rfl]
      simp [hmutex]
    · rw [hother m j hj, h.owned, hget, if_neg (Ne.symm hj)]
      simp only [holds_other (hne j hj)]
  · rw [hworkers]
    have := sum_map_set hw w' (f := Worker.block)
    rw [← h.counted] at this
    omega

/-- ... that neither takes nor drops the mutex. -/
theorem Pool.Inv.put_same (h : p.Inv l) (hw : p.workers[i]? = some w) (ha : a.worker = some i)
    (hlock : .lock i 0 ≠ a) (hunlock : .unlock i 0 ≠ a) (hmutex : w'.data.mutex = w.data.mutex)
    (hfits : w'.Fits (l ++ [a]) i) (hblock : w'.block = w.block) : (p.put i w').Inv (l ++ [a]) := by
  refine h.put hw (fun j hj => (Option.some.inj (ha.symm.trans hj)).symm) rfl hmutex hfits ?_ (fun _ _ _ => Iff.rfl)
    (by rw [hblock]; rfl)
  intro m
  have hholds : Holds (l ++ [a]) i ↔ Holds l i := by
    unfold Holds
    rw [mem_snoc_iff hlock, mem_snoc_iff hunlock]
  rw [hholds]
  exact h.owned_iff hw

/-- An act of the caller that leaves the threads where they are. -/
theorem Pool.Inv.caller (h : p.Inv l) (ha : a.worker = none) {owner : μ → Option Owner}
    (howner : ∀ m j, owner m = some (.worker j) ↔ p.owner m = some (.worker j)) :
    Pool.Inv (l ++ [a]) { p with owner := owner } := by
  have hne (j : Nat) : a.worker ≠ some j := by simp [ha]
  constructor
  · intro b hb j hbj
    rcases List.mem_append.1 hb with hb | hb
    · exact h.known b hb j hbj
    · rw [List.mem_singleton.1 hb, ha] at hbj
      cases hbj
  · exact fun j v hv => (h.fits j v hv).other (hne j)
  · intro m j
    rw [howner, h.owned]
    simp only [holds_other (hne j)]
  · exact h.counted

theorem Pool.Inv.start (h : p.Inv l) (m : μ) (b c : Int) (o : StartOutcome) :
    (p.startThreadObtainingMutex o m b c).2.Inv (l ++ [.start m b c o]) := by
  have hne (j : Nat) : (Act.start m b c o).worker ≠ some j := by simp [Act.worker]
  have hsame : p.Inv (l ++ [.start m b c o]) := h.caller rfl fun _ _ => Iff.rfl
  unfold Pool.startThreadObtainingMutex
  split
  · exact hsame
  · split
    · exact hsame
    · -- the new thread has done nothing yet
      have hnew : ∀ d ∈ l ++ [.start m b c o], d.worker ≠ some p.workers.length := by
        intro d hd he
        exact absurd (hsame.known d hd _ he) (Nat.lt_irrefl _)
      have hget {j : Nat} {v : Worker μ}
          (hv : (p.workers ++ [⟨⟨m, b, c, false⟩, .sleeping⟩])[j]? = some v) :
          p.workers[j]? = some v ∨ (j = p.workers.length ∧ v = ⟨⟨m, b, c, false⟩, .sleeping⟩) := by
        rw [List.getElem?_append] at hv
        split at hv
        · exact .inl hv
        · rename_i hge
          rw [List.getElem?_singleton] at hv
          split at hv
          · exact .inr ⟨by omega, (Option.some.inj hv).symm⟩
          · cases hv
      constructor
      · intro d hd j hdj
        have := hsame.known d hd j hdj
        simp only [List.length_append, List.length_singleton]
        omega
      · intro j v hv
        rcases hget hv with hv | ⟨rfl, rfl⟩
        · exact hsame.fits j v hv
        · exact ⟨fun hm => hnew _ hm rfl, fun hm => hnew _ hm rfl, rfl⟩
      · intro m' j
        rw [hsame.owned]
        constructor
        · rintro ⟨v, hv, hm⟩
          exact ⟨v, by rw [List.getElem?_append_left (lt_of_worker hv)]; exact hv, hm⟩
        · rintro ⟨v, hv, hm, hh⟩
          rcases hget hv with hv | ⟨rfl, -⟩
          · exact ⟨v, hv, hm, hh⟩
          · exact absurd rfl (hnew _ hh.1)
      · simp only [List.map_append, List.sum_append, List.map_singleton, List.sum_singleton]
        rw [← h.counted]
        rfl

/-- A mutex that thread `j` holds neither before nor after. -/
theorem update_owner [DecidableEq μ] {owner : μ → Option Owner} {m m' : μ} {o : Option Owner}
    (ho : o ≠ some (.worker j)) (hm : owner m ≠ some (.worker j)) :
    Function.update owner m o m' = some (.worker j) ↔ owner m' = some (.worker j) := by
  by_cases he : m' = m
  · subst he
    simp [ho, hm]
  · rw [Function.update_of_ne he]

theorem Pool.Inv.step [DecidableEq μ] (h : p.Inv l) (hst : Pool.Step a p p') : p'.Inv (l ++ [a]) := by
  cases hst with
  | start => exact h.start _ _ _ _
  | slept hw hpc =>
    have hf := h.fits _ _ hw
    simp only [Worker.Fits, hpc] at hf
    exact h.put_same hw rfl (by simp) (by simp) rfl (by simp [Worker.Fits, hf]) (by simp [Worker.block, hpc])
  | @lockFailed _ i w rc hw hpc hrc =>
    have hf := h.fits _ _ hw
    simp only [Worker.Fits, hpc] at hf
    refine h.put_same hw rfl (by simp [Ne.symm hrc]) (by simp) rfl ?_ (by simp [Worker.block, hpc])
    refine ⟨?_, .inr (.inl ⟨by simp [hf, Ne.symm hrc], rc, hrc, by simp⟩)⟩
    simp [hf]
  | @locked _ i w hw hpc hfree =>
    have hf := h.fits _ _ hw
    simp only [Worker.Fits, hpc] at hf
    refine h.put hw (by simp [Act.worker]) rfl rfl (by simp [Worker.Fits, hf]) ?_ ?_ ?_
    · intro m
      have hholds : Holds (l ++ [.lock i 0]) i := ⟨by simp, by simp [hf]⟩
      simp only [hholds, and_true, Pool.setOwner]
      by_cases hm : m = w.data.mutex
      · subst hm
        simp
      · have hnot : p.owner m ≠ some (.worker i) := fun he => hf.1 ((h.owned_iff hw).1 he).2.1
        simp [Function.update_of_ne hm, hnot, Pool.put, Ne.symm hm]
    · intro m j hj
      exact update_owner (by simp [Ne.symm hj]) (by simp [Pool.put, hfree])
    · simp [Worker.block, hpc, Pool.setOwner, Pool.put]
  | rested hw hpc =>
    have hf := h.fits _ _ hw
    simp only [Worker.Fits, hpc] at hf
    exact h.put_same hw rfl (by simp) (by simp) rfl (by simp [Worker.Fits, hf]) (by simp [Worker.block, hpc])
  | @unlockFailed _ i w rc hw hpc hrc =>
    have hf := h.fits _ _ hw
    simp only [Worker.Fits, hpc] at hf
    refine h.put_same hw rfl (by simp) (by simp [Ne.symm hrc]) rfl ?_ (by simp [Worker.block, hpc])
    refine ⟨?_, .inr (.inr ⟨rc, hrc, by simp⟩)⟩
    simp [hf, Ne.symm hrc]
  | @unlocked _ i w hw hpc =>
    have hf := h.fits _ _ hw
    simp only [Worker.Fits, hpc] at hf
    have hmine := (h.owned_iff hw).2 ⟨rfl, hf.1, hf.2.1⟩
    refine h.put hw (by simp [Act.worker]) rfl rfl (by simp [Worker.Fits, hf]) ?_ ?_ ?_
    · intro m
      have hholds : ¬ Holds (l ++ [.unlock i 0]) i := fun hh => hh.2 (by simp)
      simp only [hholds, and_false, iff_false, Pool.setOwner]
      by_cases hm : m = w.data.mutex
      · subst hm
        simp
      · rw [Function.update_of_ne hm]
        intro he
        exact hm ((h.owned_iff hw).1 he).1.symm
    · intro m j hj
      exact update_owner (by simp) (by simp [Pool.put, hmine, Ne.symm hj])
    · simp [Worker.block, hpc, Pool.setOwner, Pool.put]
  | succeed hw hpc =>
    have hf := h.fits _ _ hw
    simp only [Worker.Fits, hpc] at hf
    refine h.put_same hw rfl (by simp) (by simp) rfl ?_ (by simp [Worker.block, hpc])
    simp [Worker.Fits, hf]
  | @join _ i w hw hpc =>
    have hf := h.fits _ _ hw
    simp only [Worker.Fits, hpc] at hf
    have hblock : 1 ≤ p.blocks := by
      rw [h.counted]
      have := sum_map_set hw { w with pc := .joined } (f := Worker.block)
      simp only [Worker.block, hpc, reduceCtorEq, if_false, if_true] at this
      omega
    refine h.put hw (by simp [Act.worker]) rfl rfl ?_ ?_ (fun _ _ _ => Iff.rfl) ?_
    · simpa [Worker.Fits] using hf
    · intro m
      have hholds : Holds (l ++ [.join i]) i ↔ Holds l i := by simp [Holds]
      rw [hholds]
      exact h.owned_iff hw
    · simp only [Worker.block, hpc, reduceCtorEq, if_false, if_true]
      omega
  | callerLock hfree => exact h.caller rfl fun m j => update_owner (by simp) (by simp [hfree])
  | callerUnlock hmine => exact h.caller rfl fun m j => update_owner (by simp) (by simp [hmine])

/-- Every run. -/
theorem inv_of_trace [DecidableEq μ] (h : Trace Pool.Step Pool.empty l p) : p.Inv l :=
  h.induct (fun l p => p.Inv l) Pool.Inv.empty fun _ _ _ _ hI hst => hI.step hst

/-! ## Who keeps whom waiting -/

/-- A thread's step that goes well. -/
def Act.goes : Act μ → Bool
  | .slept _ => true
  | .lock _ rc => rc == 0
  | .unlock _ rc => rc == 0
  | .succeed _ => true
  | _ => false

def Worker.finished (w : Worker μ) : Prop := w.pc = .returned ∨ w.pc = .joined

/-- A thread that cannot go on has finished, or waits for the caller or for a
thread whose unlock failed. -/
theorem Pool.Inv.stuck [DecidableEq μ] (h : p.Inv l) (hstuck : ∀ a p', a.goes = true → ¬ Pool.Step a p p')
    (hw : p.workers[i]? = some w) : w.finished ∨ (w.pc = .locking ∧ (p.owner w.data.mutex = some .caller ∨
      ∃ j rc, p.owner w.data.mutex = some (.worker j) ∧ rc ≠ 0 ∧ .unlock j rc ∈ l)) := by
  cases hpc : w.pc with
  | sleeping => exact absurd (.slept hw hpc) (hstuck (.slept i) _ rfl)
  | holding => exact absurd (.rested hw hpc) (hstuck (.slept i) _ rfl)
  | unlocking => exact absurd (.unlocked hw hpc) (hstuck (.unlock i 0) _ rfl)
  | unlocked => exact absurd (.succeed hw hpc) (hstuck (.succeed i) _ rfl)
  | returned => exact .inl (.inl hpc)
  | joined => exact .inl (.inr hpc)
  | locking =>
    refine .inr ⟨rfl, ?_⟩
    cases ho : p.owner w.data.mutex with
    | none => exact absurd (.locked hw hpc ho) (hstuck (.lock i 0) _ rfl)
    | some owner =>
      cases owner with
      | caller => exact .inl rfl
      | worker j =>
        obtain ⟨v, hv, -, hlock, hunlock⟩ := (h.owned _ _).1 ho
        have hf := h.fits j v hv
        unfold Worker.Fits at hf
        -- the holder could go on, had it not returned
        split at hf
        · exact absurd hlock hf.1
        · exact absurd hlock hf.1
        · rename_i hvpc
          exact absurd (.rested hv hvpc) (hstuck (.slept j) _ rfl)
        · rename_i hvpc
          exact absurd (.unlocked hv hvpc) (hstuck (.unlock j 0) _ rfl)
        · exact absurd hf.2.1 hunlock
        all_goals
          obtain ⟨hsuccess, hend⟩ := hf
          rcases hend with hs | ⟨hno, -⟩ | ⟨rc, hrc, hmem⟩
          · exact absurd (hsuccess.1 hs).2 hunlock
          · exact absurd hlock hno
          · exact .inr ⟨j, rc, rfl, hrc, hmem⟩

/-! ## How long it takes -/

/-- The steps a thread has left. -/
def Pc.left : Pc → Nat
  | .sleeping => 5
  | .locking => 4
  | .holding => 3
  | .unlocking => 2
  | .unlocked => 1
  | .returned => 0
  | .joined => 0

/-- The steps thread `i` has left. -/
def Pool.left (p : Pool μ) (i : Nat) : Nat := (p.workers[i]?.map fun w => w.pc.left).getD 5

theorem left_put (hw : p.workers[j]? = some w) (hworkers : p'.workers = p.workers.set j w')
    (hpc : w'.pc.left + (if a.worker = some j then 1 else 0) ≤ w.pc.left) (hother : ∀ i, a.worker = some i → i = j) :
    (if a.worker = some i then 1 else 0) + p'.left i ≤ p.left i := by
  unfold Pool.left
  by_cases hi : i = j
  · subst hi
    rw [hworkers, List.getElem?_set_self (lt_of_worker hw), hw]
    simp only [Option.map_some, Option.getD_some]
    omega
  · refine Nat.le_of_eq ?_
    rw [hworkers, List.getElem?_set_ne (Ne.symm hi), if_neg fun he => hi (hother i he), Nat.zero_add]

/-- A thread pays for its steps with those it has left. -/
theorem Pool.Step.left [DecidableEq μ] (hst : Pool.Step a p p') (i : Nat) :
    (if a.worker = some i then 1 else 0) + p'.left i ≤ p.left i := by
  cases hst with
  | start =>
    simp only [Act.worker, reduceCtorEq, if_false, Nat.zero_add]
    unfold Pool.startThreadObtainingMutex
    repeat' split
    · exact Nat.le_refl _
    · exact Nat.le_refl _
    · -- a thread that has just been started has all its steps left
      unfold Pool.left
      by_cases hi : i < p.workers.length
      · refine Nat.le_of_eq ?_
        rw [List.getElem?_append_left hi]
      · rw [List.getElem?_eq_none (Nat.not_lt.1 hi), List.getElem?_append_right (Nat.not_lt.1 hi),
          List.getElem?_singleton]
        split <;> exact Nat.le_refl _
  | slept hw hpc | lockFailed hw hpc | locked hw hpc | rested hw hpc | unlockFailed hw hpc | unlocked hw hpc
  | succeed hw hpc => exact left_put hw rfl (by simp [Act.worker, Pc.left, hpc]) (by simp [Act.worker])
  | join hw hpc => exact left_put hw rfl (by simp [Act.worker, Pc.left]) (by simp [Act.worker])
  | callerLock => exact Nat.le_of_eq (Nat.zero_add _)
  | callerUnlock => exact Nat.le_of_eq (Nat.zero_add _)

/-! ## What holds of every run -/

section Results

variable [DecidableEq μ]

/-- In every interleaving: no two threads have one mutex, `thread_complete_success`
is set for a thread that has returned from a lock and an unlock that succeeded,
and for no other, and the blocks in use are those of the threads not yet joined. -/
theorem threads_account (h : Trace Pool.Step Pool.empty l p) :
    (∀ i j v w, p.workers[i]? = some v → p.workers[j]? = some w → v.data.mutex = w.data.mutex → Holds l i →
      Holds l j → i = j) ∧
    (∀ i w, p.workers[i]? = some w →
      (w.data.threadCompleteSuccess = true ↔ w.finished ∧ .lock i 0 ∈ l ∧ .unlock i 0 ∈ l)) ∧
    p.blocks = p.workers.countP (fun w => w.pc ≠ .joined) := by
  have hI := inv_of_trace h
  refine ⟨?_, ?_, ?_⟩
  · intro i j v w hv hw hm hi hj
    have hvo := (hI.owned_iff hv).2 ⟨rfl, hi⟩
    have hwo := (hI.owned_iff hw).2 ⟨rfl, hj⟩
    rw [hm, hwo] at hvo
    exact (Owner.worker.inj (Option.some.inj hvo)).symm
  · intro i w hw
    have hf := hI.fits i w hw
    unfold Worker.finished
    cases hpc : w.pc <;> simp only [Worker.Fits, hpc] at hf
    case returned => simp [hf.1]
    case joined => simp [hf.1]
    all_goals simp [hf]
  · rw [hI.counted, ← sum_map_count]
    congr 1
    refine List.map_congr_left fun w _ => ?_
    unfold Worker.block
    cases w.pc <;> rfl

/-- Whenever no thread can go on, every thread that has not finished waits for
its mutex, and the mutex is the caller's or that of a thread whose unlock failed. -/
theorem stuck_blame (h : Trace Pool.Step Pool.empty l p) (hstuck : ∀ a p', a.goes = true → ¬ Pool.Step a p p')
    (hw : p.workers[i]? = some w) : w.finished ∨ (w.pc = .locking ∧ (p.owner w.data.mutex = some .caller ∨
      ∃ j rc, p.owner w.data.mutex = some (.worker j) ∧ rc ≠ 0 ∧ .unlock j rc ∈ l)) :=
  (inv_of_trace h).stuck hstuck hw

/-- Whatever fails and whatever the caller does in between, no thread takes more
than five steps. While no unlock has failed and the caller has no mutex, one of
them can take a step that goes well, until all have finished, each with success
unless its lock had failed. -/
theorem threads_finish (h : Trace Pool.Step Pool.empty l p) :
    (∀ i, l.countP (fun a => a.worker = some i) ≤ 5) ∧
      ((∀ i rc, .unlock i rc ∈ l → rc = 0) → (∀ m, p.owner m ≠ some .caller) →
        (∃ a p', a.goes = true ∧ Pool.Step a p p') ∨ ∀ i w, p.workers[i]? = some w →
          w.finished ∧ (w.data.threadCompleteSuccess = true ∨ ∃ rc, rc ≠ 0 ∧ .lock i rc ∈ l)) := by
  constructor
  · intro i
    obtain ⟨n, -, hle⟩ := h.cost_le (fun a => if decide (a.worker = some i) then 1 else 0) (fun m n => m.left i = n)
      (fun a m m' n hn hst => ⟨_, rfl, by simpa only [decide_eq_true_eq, hn] using hst.left i⟩) rfl
    rw [sum_map_count] at hle
    have h5 : (Pool.empty : Pool μ).left i = 5 := rfl
    omega
  · intro hunlock hcaller
    by_cases hstuck : ∃ a p', a.goes = true ∧ Pool.Step a p p'
    · exact .inl hstuck
    · refine .inr fun i w hw => ?_
      have hI := inv_of_trace h
      have hfin : w.finished := by
        rcases hI.stuck (fun a q ha hst => hstuck ⟨a, q, ha, hst⟩) hw with hfin | ⟨-, hc | ⟨j, rc, -, hrc, hm⟩⟩
        · exact hfin
        · exact absurd hc (hcaller _)
        · exact absurd (hunlock j rc hm) hrc
      refine ⟨hfin, ?_⟩
      have hf := hI.fits i w hw
      have hend : w.data.threadCompleteSuccess = true ∨ (.lock i 0 ∉ l ∧ ∃ rc, rc ≠ 0 ∧ .lock i rc ∈ l) ∨
          ∃ rc, rc ≠ 0 ∧ .unlock i rc ∈ l := by
        rcases hfin with hpc | hpc <;> simp only [Worker.Fits, hpc] at hf <;> exact hf.2
      rcases hend with hs | ⟨-, hfailed⟩ | ⟨rc, hrc, hm⟩
      · exact .inl hs
      · exact .inr hfailed
      · exact absurd (hunlock i rc hm) hrc

end Results

end Model

/-! ## A thread that keeps its mutex -/

/-- Two threads over one mutex: the first is at its unlock, the second waits. -/
theorem two_threads : ∃ p : Pool Unit, Trace Pool.Step Pool.empty
    [.start () 0 0 ⟨true, 0⟩, .slept 0, .lock 0 0, .start () 0 0 ⟨true, 0⟩, .slept 1, .slept 0] p ∧
    p.workers = [⟨⟨(), 0, 0, false⟩, .unlocking⟩, ⟨⟨(), 0, 0, false⟩, .locking⟩] ∧
    p.owner () = some (.worker 0) ∧ p.blocks = 2 :=
  ⟨_, (((((Trace.nil.snoc .start).snoc (.slept rfl rfl)).snoc (.locked rfl rfl rfl)).snoc .start).snoc
    (.slept rfl rfl)).snoc (.rested rfl rfl), rfl, rfl, rfl⟩

/-- The first unlocks and returns with success, while the second waits. -/
theorem threads_account_two : ∃ (l : List (Act Unit)) (p : Pool Unit), Trace Pool.Step Pool.empty l p ∧
    (∃ w, p.workers[0]? = some w ∧ w.data.threadCompleteSuccess = true) ∧
    (∃ w, p.workers[1]? = some w ∧ w.data.threadCompleteSuccess = false) ∧ p.blocks = 2 := by
  obtain ⟨p, h, hw, -, -⟩ := two_threads
  have hfirst : p.workers[0]? = some ⟨⟨(), 0, 0, false⟩, .unlocking⟩ := by
    rw [hw]
    rfl
  have h' := h.snoc (.unlocked hfirst rfl)
  have hworkers : ∀ v, (p.workers.set 0 v)[0]? = some v ∧
      (p.workers.set 0 v)[1]? = some ⟨⟨(), 0, 0, false⟩, .locking⟩ := by
    rw [hw]
    exact fun _ => ⟨rfl, rfl⟩
  have h'' := h'.snoc (.succeed (hworkers _).1 rfl)
  obtain ⟨-, hsuccess, hblocks⟩ := threads_account h''
  have hlast : ∀ v u, ((p.workers.set 0 v).set 0 u)[0]? = some u ∧
      ((p.workers.set 0 v).set 0 u)[1]? = some ⟨⟨(), 0, 0, false⟩, .locking⟩ := by
    rw [hw]
    exact fun _ _ => ⟨rfl, rfl⟩
  refine ⟨_, _, h'', ⟨_, (hlast _ _).1, ?_⟩, ⟨_, (hlast _ _).2, ?_⟩, ?_⟩
  · rw [hsuccess 0 _ (hlast _ _).1]
    simp [Worker.finished]
  · rw [← Bool.not_eq_true, hsuccess 1 _ (hlast _ _).2]
    simp
  · rw [hblocks]
    show List.countP _ ((p.workers.set 0 _).set 0 _) = 2
    rw [hw]
    rfl

/-- Its unlock fails, and the second waits for ever. -/
theorem stuck_blame_two : ∃ (l : List (Act Unit)) (p : Pool Unit) (w : Worker Unit), Trace Pool.Step Pool.empty l p ∧
    p.workers[1]? = some w ∧ (w.finished ∨ (w.pc = .locking ∧ (p.owner () = some .caller ∨
      ∃ j rc, p.owner () = some (.worker j) ∧ rc ≠ 0 ∧ .unlock j rc ∈ l))) := by
  obtain ⟨p, h, hw, ho, -⟩ := two_threads
  have hfirst : p.workers[0]? = some ⟨⟨(), 0, 0, false⟩, .unlocking⟩ := by
    rw [hw]
    rfl
  have hst : Pool.Step (.unlock 0 1) p (p.put 0 ⟨⟨(), 0, 0, false⟩, .returned⟩) :=
    .unlockFailed hfirst rfl (by decide)
  have h' := h.snoc hst
  have hworkers : (p.put 0 ⟨⟨(), 0, 0, false⟩, .returned⟩).workers =
      [⟨⟨(), 0, 0, false⟩, .returned⟩, ⟨⟨(), 0, 0, false⟩, .locking⟩] := by
    rw [Pool.put, hw]
    rfl
  have hpc : ∀ (i : Nat) (w : Worker Unit), (p.put 0 ⟨⟨(), 0, 0, false⟩, .returned⟩).workers[i]? = some w →
      w.pc = .returned ∨ w.pc = .locking := by
    intro i w hi
    rw [hworkers] at hi
    have hm := List.mem_of_getElem? hi
    simp only [List.mem_cons, List.not_mem_nil, or_false] at hm
    rcases hm with rfl | rfl
    · exact .inl rfl
    · exact .inr rfl
  have hsecond : (p.put 0 ⟨⟨(), 0, 0, false⟩, .returned⟩).workers[1]? = some ⟨⟨(), 0, 0, false⟩, .locking⟩ := by
    rw [hworkers]
    rfl
  refine ⟨_, _, _, h', hsecond, stuck_blame h' ?_ hsecond⟩
  intro a p' ha hst
  cases hst with
  | start => cases ha
  | slept hi he => rcases hpc _ _ hi with hp | hp <;> rw [hp] at he <;> cases he
  | lockFailed _ _ hrc => exact hrc (eq_of_beq ha)
  | locked _ _ hfree =>
    have hheld : (p.put 0 ⟨⟨(), 0, 0, false⟩, .returned⟩).owner () = some (.worker 0) := ho
    rw [hheld] at hfree
    cases hfree
  | rested hi he => rcases hpc _ _ hi with hp | hp <;> rw [hp] at he <;> cases he
  | unlockFailed _ _ hrc => exact hrc (eq_of_beq ha)
  | unlocked hi he => rcases hpc _ _ hi with hp | hp <;> rw [hp] at he <;> cases he
  | succeed hi he => rcases hpc _ _ hi with hp | hp <;> rw [hp] at he <;> cases he
  | join => cases ha
  | callerLock => cases ha
  | callerUnlock => cases ha

/-- The first has returned with success, and the lock of the second has failed; the
caller has had another mutex meanwhile. -/
theorem threads_finish_two : ∃ (l : List (Act Bool)) (p : Pool Bool), Trace Pool.Step Pool.empty l p ∧
    .callerLock true ∈ l ∧ .lock 1 22 ∈ l ∧ l.countP (fun a => a.worker = some 0) = 5 ∧
    l.countP (fun a => a.worker = some 1) ≤ 5 ∧ ((∃ a p', a.goes = true ∧ Pool.Step a p p') ∨
      ∀ i w, p.workers[i]? = some w →
        w.finished ∧ (w.data.threadCompleteSuccess = true ∨ ∃ rc, rc ≠ 0 ∧ .lock i rc ∈ l)) := by
  have h0 : Trace Pool.Step (Pool.empty : Pool Bool) [] _ := .nil
  have h1 := h0.snoc (.start (m := false) (a := 0) (b := 0) (o := ⟨true, 0⟩))
  have h2 := h1.snoc (.slept (i := 0) rfl rfl)
  have h3 := h2.snoc (.locked (i := 0) rfl rfl rfl)
  have h4 := h3.snoc (.callerLock (m := true) rfl)
  have h5 := h4.snoc (.start (m := false) (a := 0) (b := 0) (o := ⟨true, 0⟩))
  have h6 := h5.snoc (.slept (i := 1) rfl rfl)
  have h7 := h6.snoc (.lockFailed (i := 1) rfl rfl (show (22 : Int) ≠ 0 by decide))
  have h8 := h7.snoc (.callerUnlock (m := true) rfl)
  have h9 := h8.snoc (.rested (i := 0) rfl rfl)
  have h10 := h9.snoc (.unlocked (i := 0) rfl rfl)
  have h11 := h10.snoc (.succeed (i := 0) rfl rfl)
  obtain ⟨hcount, hgoes⟩ := threads_finish h11
  exact ⟨_, _, h11, by simp, by simp, rfl, hcount 1, hgoes (by simp) (by rintro ⟨⟩ <;> decide)⟩

end Aesd.Threading
