import Mathlib.Logic.Function.Basic
import Aesd.SysLib.Runs
/-!
# An object behind a lock

Processes share an object and have private states. A call waits for the lock,
runs its `body` with the lock held, drops the lock, and then leaves: `leave`
looks only at what the body took out and at the caller's private state. A call
may also be turned away before it takes the lock, if its outcome does not depend
on the shared state.

`Linearized.step` is the rule such objects are built for: however the parts of
the calls interleave, running the calls one by one in the order in which they
take the lock gives the same answers and the same states.
-/

namespace SysLib

/-- `σ` is the shared state, `φ` the private one, `κ` are the calls, `μ` is what
a body takes out, and `ρ` are the answers. `call` is a call on its own. -/
structure LockedObject (σ φ κ μ ρ : Type) where
  body : κ → φ → σ → μ × σ
  leave : κ → φ → μ → ρ × φ
  call : κ → φ → σ → ρ × φ × σ

namespace LockedObject

variable {ι σ φ κ μ ρ : Type}

/-- The call takes the lock: on its own it is its body and then its leaving. -/
def Locks (O : LockedObject σ φ κ μ ρ) (x : κ) (f : φ) : Prop :=
  ∀ s, O.call x f s = ((O.leave x f (O.body x f s).1).1, (O.leave x f (O.body x f s).1).2, (O.body x f s).2)

/-- The call does without the lock. -/
def Skips (O : LockedObject σ φ κ μ ρ) (x : κ) (f : φ) (r : ρ) (f' : φ) : Prop :=
  ∀ s, O.call x f s = (r, f', s)

/-- Where a process is. -/
inductive Phase (κ μ : Type) where
  | idle
  | waiting (x : κ)
  | inside (x : κ)
  | done (x : κ) (m : μ)
  | leaving (x : κ) (m : μ)

/-- The shared state, who holds the lock, the processes, the answers each has
got, and the calls in the order in which they took the lock or were turned away. -/
structure State (ι σ φ κ μ ρ : Type) where
  shared : σ
  holder : Option ι
  priv : ι → φ
  phase : ι → Phase κ μ
  replies : ι → List ρ
  order : List (ι × κ)

/-- One part of one call. -/
inductive Step [DecidableEq ι] (O : LockedObject σ φ κ μ ρ) :
    State ι σ φ κ μ ρ → State ι σ φ κ μ ρ → Prop
  | call {a : State ι σ φ κ μ ρ} (p : ι) (x : κ) : a.phase p = .idle →
      Step O a { a with phase := Function.update a.phase p (.waiting x) }
  | skip {a : State ι σ φ κ μ ρ} {p : ι} {x : κ} {r : ρ} {f' : φ} : a.phase p = .waiting x →
      O.Skips x (a.priv p) r f' →
      Step O a { a with
        phase := Function.update a.phase p .idle
        priv := Function.update a.priv p f'
        replies := Function.update a.replies p (a.replies p ++ [r])
        order := a.order ++ [(p, x)] }
  | acquire {a : State ι σ φ κ μ ρ} {p : ι} {x : κ} : a.phase p = .waiting x → a.holder = none →
      O.Locks x (a.priv p) →
      Step O a { a with
        phase := Function.update a.phase p (.inside x)
        holder := some p
        order := a.order ++ [(p, x)] }
  | body {a : State ι σ φ κ μ ρ} {p : ι} {x : κ} : a.phase p = .inside x →
      Step O a { a with
        phase := Function.update a.phase p (.done x (O.body x (a.priv p) a.shared).1)
        shared := (O.body x (a.priv p) a.shared).2 }
  | release {a : State ι σ φ κ μ ρ} {p : ι} {x : κ} {m : μ} : a.phase p = .done x m →
      Step O a { a with phase := Function.update a.phase p (.leaving x m), holder := none }
  | leave {a : State ι σ φ κ μ ρ} {p : ι} {x : κ} {m : μ} : a.phase p = .leaving x m →
      Step O a { a with
        phase := Function.update a.phase p .idle
        priv := Function.update a.priv p (O.leave x (a.priv p) m).2
        replies := Function.update a.replies p (a.replies p ++ [(O.leave x (a.priv p) m).1]) }

/-! ## The same calls, one by one -/

/-- The states and answers of calls made one by one. -/
structure Seq (ι σ φ ρ : Type) where
  shared : σ
  priv : ι → φ
  replies : ι → List ρ

/-- How far process `p` is behind the sequence `q`, in which every call that has
taken the lock is complete. -/
def Behind (O : LockedObject σ φ κ μ ρ) (a : State ι σ φ κ μ ρ) (q : Seq ι σ φ ρ) (p : ι) : Prop :=
  match a.phase p with
  | .idle | .waiting _ => a.holder ≠ some p ∧ q.priv p = a.priv p ∧ q.replies p = a.replies p
  | .inside x => a.holder = some p ∧ (O.body x (a.priv p) a.shared).2 = q.shared ∧
      q.priv p = (O.leave x (a.priv p) (O.body x (a.priv p) a.shared).1).2 ∧
      q.replies p = a.replies p ++ [(O.leave x (a.priv p) (O.body x (a.priv p) a.shared).1).1]
  | .done x m => a.holder = some p ∧ q.shared = a.shared ∧ q.priv p = (O.leave x (a.priv p) m).2 ∧
      q.replies p = a.replies p ++ [(O.leave x (a.priv p) m).1]
  | .leaving x m => a.holder ≠ some p ∧ q.priv p = (O.leave x (a.priv p) m).2 ∧
      q.replies p = a.replies p ++ [(O.leave x (a.priv p) m).1]

section Behind

variable {O : LockedObject σ φ κ μ ρ} {a a' : State ι σ φ κ μ ρ} {q q' : Seq ι σ φ ρ} {p : ι}

/-- A step of another process. -/
theorem Behind.frame (h : Behind O a q p) (hphase : a'.phase p = a.phase p) (hpriv : a'.priv p = a.priv p)
    (hreplies : a'.replies p = a.replies p) (hqpriv : q'.priv p = q.priv p)
    (hqreplies : q'.replies p = q.replies p)
    (hin : a.holder = some p → a'.holder = some p ∧ a'.shared = a.shared ∧ q'.shared = q.shared)
    (hout : a.holder ≠ some p → a'.holder ≠ some p) : Behind O a' q' p := by
  unfold Behind at h ⊢
  rw [hphase, hpriv, hreplies, hqpriv, hqreplies]
  cases hp : a.phase p with
  | idle => rw [hp] at h; exact ⟨hout h.1, h.2⟩
  | waiting x => rw [hp] at h; exact ⟨hout h.1, h.2⟩
  | inside x =>
    rw [hp] at h
    obtain ⟨hh, hs, hq⟩ := hin h.1
    simp only [hs, hq]
    exact ⟨hh, h.2⟩
  | done x m =>
    rw [hp] at h
    obtain ⟨hh, hs, hq⟩ := hin h.1
    simp only [hs, hq]
    exact ⟨hh, h.2⟩
  | leaving x m => rw [hp] at h; exact ⟨hout h.1, h.2⟩

/-- Every answer given is the answer of the call in the sequence. -/
theorem Behind.replies_before (h : Behind O a q p) : a.replies p <+: q.replies p := by
  unfold Behind at h
  cases hph : a.phase p with
  | idle => rw [hph] at h; exact h.2.2 ▸ List.prefix_rfl
  | waiting x => rw [hph] at h; exact h.2.2 ▸ List.prefix_rfl
  | inside x => rw [hph] at h; exact h.2.2.2 ▸ List.prefix_append _ _
  | done x m => rw [hph] at h; exact h.2.2.2 ▸ List.prefix_append _ _
  | leaving x m => rw [hph] at h; exact h.2.2 ▸ List.prefix_append _ _

/-- Who is between taking the lock and dropping it. -/
def Phase.Holding : Phase κ μ → Prop
  | .inside _ => True
  | .done _ _ => True
  | _ => False

/-- It is the holder who is. -/
theorem Behind.holding_iff (h : Behind O a q p) : (a.phase p).Holding ↔ a.holder = some p := by
  unfold Behind at h
  cases hph : a.phase p with
  | idle => rw [hph] at h; exact iff_of_false id h.1
  | waiting x => rw [hph] at h; exact iff_of_false id h.1
  | inside x => rw [hph] at h; exact iff_of_true trivial h.1
  | done x m => rw [hph] at h; exact iff_of_true trivial h.1
  | leaving x m => rw [hph] at h; exact iff_of_false id h.1

end Behind

variable [DecidableEq ι]

def Seq.call (O : LockedObject σ φ κ μ ρ) (q : Seq ι σ φ ρ) (px : ι × κ) : Seq ι σ φ ρ where
  shared := (O.call px.2 (q.priv px.1) q.shared).2.2
  priv := Function.update q.priv px.1 (O.call px.2 (q.priv px.1) q.shared).2.1
  replies := Function.update q.replies px.1 (q.replies px.1 ++ [(O.call px.2 (q.priv px.1) q.shared).1])

def Seq.calls (O : LockedObject σ φ κ μ ρ) (q : Seq ι σ φ ρ) (order : List (ι × κ)) : Seq ι σ φ ρ :=
  order.foldl (Seq.call O) q

theorem Seq.calls_snoc (O : LockedObject σ φ κ μ ρ) (q : Seq ι σ φ ρ) (order : List (ι × κ)) (px : ι × κ) :
    q.calls O (order ++ [px]) = (q.calls O order).call O px := by
  simp [Seq.calls]

/-- The calls made so far, run one by one, give what the processes have and will
have once the calls in flight are complete. -/
structure Linearized (O : LockedObject σ φ κ μ ρ) (q₀ : Seq ι σ φ ρ) (a : State ι σ φ κ μ ρ) : Prop where
  behind : ∀ p, Behind O a (q₀.calls O a.order) p
  free : a.holder = none → (q₀.calls O a.order).shared = a.shared

/-- Every step keeps it. -/
theorem Linearized.step {O : LockedObject σ φ κ μ ρ} {a a' : State ι σ φ κ μ ρ} {q₀ : Seq ι σ φ ρ}
    (h : Linearized O q₀ a) (hstep : Step O a a') : Linearized O q₀ a' := by
  cases hstep with
  | call p x hp =>
    refine ⟨forall_of_step p h.behind ?_ ?_, h.free⟩
    · intro hb
      simpa only [Behind, hp, Function.update_self] using hb
    · intro q hq hb
      exact hb.frame (Function.update_of_ne hq _ _) rfl rfl rfl rfl (fun hh => ⟨hh, rfl, rfl⟩) id
  | @skip p x r f' hp hskip =>
    have hb := h.behind p
    simp only [Behind, hp] at hb
    obtain ⟨hh, hpriv, hrep⟩ := hb
    have hcall := hskip (q₀.calls O a.order).shared
    constructor
    · simp only [Seq.calls_snoc, Seq.call, hpriv, hcall, hrep]
      refine forall_of_step p h.behind ?_ ?_
      · intro _
        simp only [Behind, Function.update_self]
        exact ⟨hh, trivial, trivial⟩
      · intro q hq hb
        exact hb.frame (Function.update_of_ne hq _ _) (Function.update_of_ne hq _ _) (Function.update_of_ne hq _ _)
          (Function.update_of_ne hq _ _) (Function.update_of_ne hq _ _) (fun hh => ⟨hh, rfl, rfl⟩) id
    · intro hfree
      simp only [Seq.calls_snoc, Seq.call, hpriv, hcall]
      exact h.free hfree
  | @acquire p x hp hnone hlocks =>
    have hb := h.behind p
    simp only [Behind, hp] at hb
    obtain ⟨hh, hpriv, hrep⟩ := hb
    have hshared := h.free hnone
    have hcall := hlocks a.shared
    constructor
    · simp only [Seq.calls_snoc, Seq.call, hpriv, hshared, hcall, hrep]
      refine forall_of_step p h.behind ?_ ?_
      · intro _
        simp only [Behind, Function.update_self]
        exact ⟨trivial, trivial, trivial, trivial⟩
      · intro q hq hb
        exact hb.frame (Function.update_of_ne hq _ _) rfl rfl (Function.update_of_ne hq _ _)
          (Function.update_of_ne hq _ _) (fun hh => absurd (hnone.symm.trans hh) (by simp))
          (fun _ hh => hq (Option.some.inj hh).symm)
    · intro hfree
      cases hfree
  | @body p x hp =>
    have hb := h.behind p
    simp only [Behind, hp] at hb
    obtain ⟨hh, hshared, hpriv, hrep⟩ := hb
    constructor
    · refine forall_of_step p h.behind ?_ ?_
      · intro _
        simp only [Behind, Function.update_self]
        exact ⟨hh, hshared.symm, hpriv, hrep⟩
      · intro q hq hb
        exact hb.frame (Function.update_of_ne hq _ _) rfl rfl rfl rfl
          (fun hh' => absurd (Option.some.inj (hh'.symm.trans hh)) hq) id
    · intro hfree
      rw [hh] at hfree
      cases hfree
  | @release p x m hp =>
    have hb := h.behind p
    simp only [Behind, hp] at hb
    obtain ⟨hh, hshared, hpriv, hrep⟩ := hb
    refine ⟨forall_of_step p h.behind ?_ ?_, fun _ => hshared⟩
    · intro _
      simp only [Behind, Function.update_self]
      exact ⟨by simp, hpriv, hrep⟩
    · intro q hq hb
      exact hb.frame (Function.update_of_ne hq _ _) rfl rfl rfl rfl
        (fun hh' => absurd (Option.some.inj (hh'.symm.trans hh)) hq) (fun _ => by simp)
  | @leave p x m hp =>
    have hb := h.behind p
    simp only [Behind, hp] at hb
    obtain ⟨hh, hpriv, hrep⟩ := hb
    refine ⟨forall_of_step p h.behind ?_ ?_, h.free⟩
    · intro _
      simp only [Behind, Function.update_self]
      exact ⟨hh, hpriv, hrep⟩
    · intro q hq hb
      exact hb.frame (Function.update_of_ne hq _ _) (Function.update_of_ne hq _ _) (Function.update_of_ne hq _ _)
        rfl rfl (fun hh => ⟨hh, rfl, rfl⟩) id

/-- All processes idle. -/
def start (s : σ) (priv : ι → φ) : State ι σ φ κ μ ρ := ⟨s, none, priv, fun _ => .idle, fun _ => [], []⟩

theorem linearized_start (O : LockedObject σ φ κ μ ρ) (s : σ) (priv : ι → φ) :
    Linearized O ⟨s, priv, fun _ => []⟩ (start s priv : State ι σ φ κ μ ρ) :=
  ⟨fun _ => ⟨by simp [start], rfl, rfl⟩, fun _ => rfl⟩

end LockedObject

end SysLib
