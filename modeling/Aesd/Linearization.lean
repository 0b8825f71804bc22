import Aesd.Interleavings
/-!
# One order for all calls, failures included

`linearizable` is about calls whose user copies succeed. With failures a read may
keep the lock, and what comes after it waits for good. Here whether the lock is
kept is part of the object's shared state, and a call that finds it kept does not
return: so the calls, copies failing or not, are again those of an object behind a
lock, and `LockedObject.Linearized.step` applies to every step of `Procs.AnyStep`.
-/

namespace Aesd

open SysLib

/-! ## The abstract object -/

/-- The device as an object behind a lock. Its shared state is the log, and whether
a read has kept the lock; a body that finds it kept has nothing to return. -/
def lockedDevice (k : Kernel) : LockedObject (Shared × Bool) File (Call × Outcome) (Option Left) Reply where
  body x f d :=
    if d.2 = true then (none, d)
    else
      (some ((⟨d.1.1, d.1.2, false⟩ : Device).locked k x.2 f x.1).1,
        (((⟨d.1.1, d.1.2, false⟩ : Device).locked k x.2 f x.1).2.log,
          ((⟨d.1.1, d.1.2, false⟩ : Device).locked k x.2 f x.1).2.lost),
        !((⟨d.1.1, d.1.2, false⟩ : Device).locked k x.2 f x.1).1.unlocks)
  leave _ f
    | none => (⟨none, [], f.fPos⟩, f)
    | some left => (left.finish f, { f with fPos := (left.finish f).fPos })
  call x f d := ((Device.exec k ⟨some f, x.1, x.2⟩ ⟨d.1.1, d.1.2, d.2⟩).1,
    { f with fPos := (Device.exec k ⟨some f, x.1, x.2⟩ ⟨d.1.1, d.1.2, d.2⟩).1.fPos },
    ((Device.exec k ⟨some f, x.1, x.2⟩ ⟨d.1.1, d.1.2, d.2⟩).2.log,
      (Device.exec k ⟨some f, x.1, x.2⟩ ⟨d.1.1, d.1.2, d.2⟩).2.lost),
    (Device.exec k ⟨some f, x.1, x.2⟩ ⟨d.1.1, d.1.2, d.2⟩).2.lock)

section Object

variable {k : Kernel} {c : Call} {o : Outcome} {f : File} {e : Int}

theorem lockedDevice_locks (ha : Invocation.accept k ⟨some f, c, o⟩ = .ok f)
    (hi : Invocation.interrupted ⟨some f, c, o⟩ = false) : (lockedDevice k).Locks (c, o) f := by
  rintro ⟨d, kept⟩
  cases kept with
  | true => simp only [lockedDevice, Device.exec_blocked (d := ⟨d.1, d.2, true⟩) ha hi rfl, if_true]
  | false =>
    simp only [lockedDevice, Device.exec_locked (d := ⟨d.1, d.2, false⟩) ha hi rfl, Bool.false_eq_true, if_false]

theorem lockedDevice_refuses (ha : Invocation.accept k ⟨some f, c, o⟩ = .error e) :
    (lockedDevice k).Skips (c, o) f ⟨some (-e), [], f.fPos⟩ f := by
  intro d
  simp only [lockedDevice, Device.exec_refused ha]
  rfl

theorem lockedDevice_interrupted (ha : Invocation.accept k ⟨some f, c, o⟩ = .ok f)
    (hi : Invocation.interrupted ⟨some f, c, o⟩ = true) :
    (lockedDevice k).Skips (c, o) f ⟨some (-ERESTARTSYS), [], f.fPos⟩ f := by
  intro d
  simp only [lockedDevice, Device.exec_interrupted ha hi]

end Object

/-- Where a process is, for the abstract object. -/
def Progress.place : Progress → LockedObject.Phase (Call × Outcome) (Option Left)
  | .idle => .idle
  | .called c o => .waiting (c, o)
  | .allocated src o _ => .waiting (.write (some src), o)
  | .waiting c o _ => .waiting (c, o)
  | .inside c o _ => .inside (c, o)
  | .done c o left => .done (c, o) (some left)
  | .leaving c o left => .leaving (c, o) (some left)

/-- The abstract state behind `a`, if `holder` has the lock, and `kept` tells
whether a read has kept it or will. -/
def Procs.view {ι : Type} (a : Procs ι) (holder : Option ι) (kept : Bool) :
    LockedObject.State ι (Shared × Bool) File (Call × Outcome) (Option Left) Reply :=
  ⟨(shared a.sys, kept), holder, a.file, Progress.place ∘ a.progress, a.replies, a.order⟩

/-! ## What the checks have let pass -/

section Admitted

variable {k : Kernel} {c : Call} {o : Outcome} {f : File} {q : Request}

/-- Before the lock, only the copies of a write and of an `ioctl` can fail. -/
theorem accept_passed (h : c.refused f = none) (hq : c.request = some q)
    (hcopy : ∀ cmd seekto, c = .ioctl cmd seekto → min o.uncopied 8 = 0) :
    Invocation.accept k ⟨some f, c, o⟩ = .ok f := by
  have hcomplete : Invocation.accept k ⟨some f, c, o.complete⟩ = .ok f := accept_prepared rfl h hq
  cases c with
  | write buf => cases hq
  | read buf count => exact hcomplete
  | llseek offset whence => exact hcomplete
  | ioctl cmd seekto =>
    have hu := hcopy cmd seekto rfl
    have hu' : min o.complete.uncopied 8 = 0 := Nat.zero_min 8
    simp only [Invocation.accept, hu'] at hcomplete
    simp only [Invocation.accept, hu]
    exact hcomplete

theorem accept_copied {src : List UInt8} (hr : ¬ k.Refuses o.kmalloc src.length)
    (hu : min o.uncopied src.length = 0) (hpd : f.privateData = true) :
    Invocation.accept k ⟨some f, .write (some src), o⟩ = .ok f := by
  simp only [Invocation.accept, if_neg hr, hu, ne_eq, not_true_eq_false, if_false, if_pos hpd]

theorem accept_uncopied {src : List UInt8} (hr : ¬ k.Refuses o.kmalloc src.length)
    (hu : min o.uncopied src.length ≠ 0) :
    Invocation.accept k ⟨some f, .write (some src), o⟩ = .error EFAULT := by
  simp only [Invocation.accept, if_neg hr, if_pos hu]

theorem accept_unplaced {cmd : Nat} {seekto : AesdSeekto} (h : (Call.ioctl cmd seekto).refused f = none)
    (hu : min o.uncopied 8 ≠ 0) : Invocation.accept k ⟨some f, .ioctl cmd seekto, o⟩ = .error EFAULT := by
  simp only [Call.refused] at h
  split at h
  · cases h
  · rename_i hc
    split at h
    · rename_i hpd
      simp only [Invocation.accept, if_neg hc, hpd, Bool.true_eq_false, if_false, if_pos hu]
    · cases h

end Admitted

/-! ## Every step is one of the abstract object, or two -/

section Simulation

variable {ι : Type} {k : Kernel} {a a' : Procs ι} {p : ι} {q₀ : LockedObject.Seq ι (Shared × Bool) File Reply}
  {ring : List (Nat × List Cell)} {pend : List Cell} {holder : Option ι} {kept : Bool}

/-- What the processes know of the lock. -/
def Progress.Agrees (kept : Bool) (f : File) (k : Kernel) : Progress → Prop
  | .waiting c o _ => Invocation.accept k ⟨some f, c, o⟩ = .ok f
  | .inside .. => kept = false
  | .done _ _ left => kept = !left.unlocks
  | _ => True

/-- Outside of the locked part the log stays as it is. -/
theorem Procs.Apart.shared (h : a.Apart k ring pend) (h' : a'.Apart k ring pend)
    (hd : a'.sys.dev = a.sys.dev) : shared a'.sys = shared a.sys := by
  obtain ⟨rest, h⟩ := h
  obtain ⟨rest', h'⟩ := h'
  have hholds : Holds k a.sys ring pend rest := h.holds
  have hholds' : Holds k a'.sys ring pend rest' := h'.holds
  exact shared_eq hholds.toOwns hholds'.toOwns hd

variable [DecidableEq ι]

/-- The calls made so far, run one by one on the log, give what the processes have
and will have. -/
structure Procs.Follows (k : Kernel) (q₀ : LockedObject.Seq ι (Shared × Bool) File Reply)
    (ring : List (Nat × List Cell)) (pend : List Cell) (holder : Option ι) (kept : Bool) (a : Procs ι) : Prop where
  apart : a.Apart k ring pend
  lock : a.sys.dev.lock = (holder.isSome || kept)
  agrees : ∀ p, (a.progress p).Agrees kept (a.file p) k
  linearized : LockedObject.Linearized (lockedDevice k) q₀ (a.view holder kept)

/-- The holder is inside. -/
theorem Procs.Follows.locked_iff (h : a.Follows k q₀ ring pend holder kept) (p : ι) :
    (a.progress p).Locked ↔ holder = some p := by
  rw [← show (a.view holder kept).holder = holder from rfl, ← (h.linearized.behind p).holding_iff]
  show _ ↔ (a.progress p).place.Holding
  cases a.progress p <;> exact Iff.rfl

/-- While nobody is inside there is no holder. -/
theorem Procs.Follows.holder_none (h : a.Follows k q₀ ring pend holder kept) (hnone : ∀ p, ¬ (a.progress p).Locked) :
    holder = none :=
  Option.eq_none_iff_forall_ne_some.2 fun p hp => hnone p ((h.locked_iff p).2 hp)

theorem view_move (a : Procs ι) (p : ι) (g : Progress) (s : Sys) (holder : Option ι) (kept : Bool) :
    (a.move p g s).view holder kept =
      { a.view holder kept with
        shared := (shared s, kept), phase := Function.update (a.view holder kept).phase p g.place } := by
  simp only [Procs.view, Procs.move, Function.comp_update]

theorem view_answer (a : Procs ι) (p : ι) (r : Reply) (s : Sys) (holder : Option ι) (kept : Bool) :
    (a.answer p r s).view holder kept =
      { a.view holder kept with
        shared := (shared s, kept)
        priv := Function.update a.file p { a.file p with fPos := r.fPos }
        phase := Function.update (a.view holder kept).phase p .idle
        replies := Function.update a.replies p (a.replies p ++ [r]) } := by
  simp only [Procs.view, Procs.answer, Function.comp_update, Progress.place]

namespace Procs.Follows

theorem agrees_move (h : a.Follows k q₀ ring pend holder kept) {g : Progress} {s : Sys}
    (hg : g.Agrees kept (a.file p) k) (p' : ι) :
    ((a.move p g s).progress p').Agrees kept ((a.move p g s).file p') k := by
  by_cases he : p' = p
  · subst he
    rw [move_self]
    exact hg
  · rw [move_other he]
    exact h.agrees p'

theorem agrees_answer (h : a.Follows k q₀ ring pend holder kept) {r : Reply} {s : Sys} (p' : ι) :
    ((a.answer p r s).progress p').Agrees kept ((a.answer p r s).file p') k := by
  by_cases he : p' = p
  · subst he
    rw [answer_self]
    exact trivial
  · rw [answer_other he, show (a.answer p r s).file p' = a.file p' from Function.update_of_ne he _ _]
    exact h.agrees p'

/-- A part that the abstract object does not see. -/
theorem hidden (h : a.Follows k q₀ ring pend holder kept) {g : Progress} {s : Sys}
    (hapart : (a.move p g s).Apart k ring pend) (hd : s.dev = a.sys.dev) (hg : g.Agrees kept (a.file p) k)
    (hplace : (a.progress p).place = g.place) : (a.move p g s).Follows k q₀ ring pend holder kept := by
  refine ⟨hapart, ?_, h.agrees_move hg, ?_⟩
  · rw [show (a.move p g s).sys = s from rfl, hd]
    exact h.lock
  · have hsame : Function.update (a.view holder kept).phase p g.place = (a.view holder kept).phase :=
      Function.update_eq_self_iff.2 hplace.symm
    have hs : Aesd.shared s = Aesd.shared a.sys := h.apart.shared hapart hd
    rw [view_move, hsame, hs]
    exact h.linearized

/-- A call returns without having had the lock. -/
theorem skips (h : a.Follows k q₀ ring pend holder kept) {c : Call} {o : Outcome} {ret : Int} {s : Sys}
    (hapart : ((a.log p c o).error p ret s).Apart k ring pend) (hd : s.dev = a.sys.dev)
    (hplace : (a.progress p).place = .waiting (c, o))
    (hskip : (lockedDevice k).Skips (c, o) (a.file p) ⟨some ret, [], (a.file p).fPos⟩ (a.file p)) :
    ((a.log p c o).error p ret s).Follows k q₀ ring pend holder kept := by
  refine ⟨hapart, ?_, h.agrees_answer (s := s), ?_⟩
  · rw [show ((a.log p c o).error p ret s).sys = s from rfl, hd]
    exact h.lock
  · have hs : Aesd.shared s = Aesd.shared a.sys := h.apart.shared hapart hd
    rw [Procs.error, view_answer, hs]
    exact h.linearized.step (.skip (p := p) (x := (c, o)) hplace hskip)

/-- A call takes the lock. -/
theorem acquires (h : a.Follows k q₀ ring pend holder kept) {c : Call} {o : Outcome} {q : Request}
    (hp : a.progress p = .waiting c o q) (hi : Invocation.interrupted ⟨some (a.file p), c, o⟩ = false)
    (hfree : a.sys.dev.lock = false) :
    ((a.log p c o).move p (.inside c o q) (a.sys.setLock true)).Follows k q₀ ring pend (some p) kept := by
  have hnone : (holder.isSome || kept) = false := h.lock.symm.trans hfree
  rw [Bool.or_eq_false_iff] at hnone
  obtain ⟨hholder, rfl⟩ := hnone
  obtain rfl : holder = none := Option.isSome_eq_false_iff.1 hholder |> Option.isNone_iff_eq_none.1
  have haccept : (a.progress p).Agrees false (a.file p) k := h.agrees p
  rw [hp] at haccept
  obtain ⟨rest, hpriv⟩ := h.apart
  refine ⟨hpriv.acquire hp, rfl, h.agrees_move (g := .inside c o q) (p := p) (s := a.sys.setLock true) rfl, ?_⟩
  rw [view_move]
  exact h.linearized.step (.acquire (p := p) (x := (c, o)) (congrArg Progress.place hp) rfl
    (lockedDevice_locks haccept hi))

/-- The locked part of a call. -/
theorem body (h : a.Follows k q₀ ring pend holder kept) {c : Call} {o : Outcome} {q : Request} {left : Left}
    {s : Sys} (hp : a.progress p = .inside c o q) (he : q.locked k o (a.file p) a.sys = .ok (left, s)) :
    ∃ ring' pend', (a.move p (.done c o left) s).Follows k q₀ ring' pend' holder (!left.unlocks) := by
  have hin : (a.progress p).Locked := by
    rw [hp]
    exact trivial
  have hkept : (a.progress p).Agrees kept (a.file p) k := h.agrees p
  rw [hp] at hkept
  obtain rfl : kept = false := hkept
  obtain ⟨rest, hpriv⟩ := h.apart
  obtain ⟨hq, hown⟩ := hpriv.inside hp
  have hholds : Holds k a.sys ring pend rest := hpriv.holds
  obtain ⟨hdev, -, -⟩ := hq.locked_any hholds hown he
  obtain ⟨ring', pend', hapart⟩ := hpriv.locked hp he
  refine ⟨ring', pend', hapart, ?_, ?_, ?_⟩
  · have hl : a.sys.dev.lock = (holder.isSome || false) := h.lock
    rw [show (a.move p (.done c o left) s).sys = s from rfl, lock_of_locked hdev, hl, (h.locked_iff p).1 hin]
    rfl
  · intro p'
    by_cases hne : p' = p
    · subst hne
      rw [move_self]
      exact rfl
    · -- nobody else is inside
      rw [move_other hne]
      have hout : ¬ (a.progress p').Locked := fun hl =>
        hne (Option.some.inj (((h.locked_iff p').1 hl).symm.trans ((h.locked_iff p).1 hin)))
      have hag : (a.progress p').Agrees false (a.file p') k := h.agrees p'
      cases hg : a.progress p' with
      | inside c' o' q' => rw [hg] at hout; exact absurd trivial hout
      | done c' o' left' => rw [hg] at hout; exact absurd trivial hout
      | waiting c' o' q' => rw [hg] at hag; exact hag
      | _ => exact trivial
  · have hst := h.linearized.step (.body (p := p) (x := (c, o)) (congrArg Progress.place hp))
    rw [view_move]
    have hbody : (lockedDevice k).body (c, o) (a.file p) (Aesd.shared a.sys, false) =
        (some left, Aesd.shared s, !left.unlocks) := by
      have := Device.locked_lock (device a.sys) k o (a.file p) c false
      rw [hdev] at this
      simp only [lockedDevice, Aesd.shared, Bool.false_eq_true, if_false]
      rw [this]
    have hb : (lockedDevice k).body (c, o) ((a.view holder false).priv p) (a.view holder false).shared =
      (some left, Aesd.shared s, !left.unlocks) := hbody
    rw [hb] at hst
    exact hst

/-- A call drops the lock. -/
theorem unlocks (h : a.Follows k q₀ ring pend holder kept) {c : Call} {o : Outcome} {left : Left}
    (hp : a.progress p = .done c o left) (hunl : left.unlocks = true) :
    (a.move p (.leaving c o left) (a.sys.setLock false)).Follows k q₀ ring pend none kept := by
  have hkept : (a.progress p).Agrees kept (a.file p) k := h.agrees p
  rw [hp] at hkept
  obtain rfl : kept = false := hkept.trans (by rw [hunl]; rfl)
  obtain ⟨rest, hpriv⟩ := h.apart
  refine ⟨hpriv.goes trivial (hpriv.holds.setLock false) (by simp [Progress.held]), rfl,
    h.agrees_move (g := .leaving c o left) (p := p) (s := a.sys.setLock false) trivial, ?_⟩
  rw [view_move]
  exact h.linearized.step (.release (p := p) (x := (c, o)) (m := some left) (congrArg Progress.place hp))

/-- A call returns. -/
theorem returns (h : a.Follows k q₀ ring pend holder kept) {c : Call} {o : Outcome} {left : Left}
    (hp : a.progress p = .leaving c o left) :
    (a.answer p (left.finish (a.file p)) a.sys).Follows k q₀ ring pend holder kept := by
  obtain ⟨rest, hpriv⟩ := h.apart
  refine ⟨hpriv.returns hpriv.holds fun _ hb _ => hb, h.lock, h.agrees_answer (s := a.sys), ?_⟩
  rw [view_answer]
  exact h.linearized.step (.leave (p := p) (x := (c, o)) (m := some left) (congrArg Progress.place hp))

/-- A read returns with the lock: for the abstract object it drops it, and the
device remembers. -/
theorem keeps (h : a.Follows k q₀ ring pend holder kept) {c : Call} {o : Outcome} {left : Left}
    (hp : a.progress p = .done c o left) (hunl : left.unlocks = false) :
    (a.answer p (left.finish (a.file p)) a.sys).Follows k q₀ ring pend none kept := by
  have hkept : (a.progress p).Agrees kept (a.file p) k := h.agrees p
  rw [hp] at hkept
  obtain rfl : kept = true := hkept.trans (by rw [hunl]; rfl)
  obtain ⟨rest, hpriv⟩ := h.apart
  refine ⟨hpriv.returns hpriv.holds fun _ hb _ => hb, ?_, h.agrees_answer (s := a.sys), ?_⟩
  · have hl := h.lock
    rw [Bool.or_true] at hl
    exact hl
  · have hrelease := h.linearized.step (.release (p := p) (x := (c, o)) (m := some left) (congrArg Progress.place hp))
    have hleave := hrelease.step (.leave (p := p) (x := (c, o)) (m := some left) (Function.update_self ..))
    simp only [Function.update_idem] at hleave
    rw [view_answer]
    exact hleave

/-- A call begins. -/
theorem begins (h : a.Follows k q₀ ring pend holder kept) (c : Call) (o : Outcome) (hp : a.progress p = .idle) :
    (a.move p (.called c o) a.sys).Follows k q₀ ring pend holder kept := by
  obtain ⟨rest, hpriv⟩ := h.apart
  refine ⟨hpriv.goes rfl hpriv.holds (by simp [Progress.held]), h.lock,
    h.agrees_move (g := .called c o) (p := p) (s := a.sys) trivial, ?_⟩
  rw [view_move]
  exact h.linearized.step (.call p (c, o) (congrArg Progress.place hp))

/-- Without a failed copy. -/
theorem step_part (h : a.Follows k q₀ ring pend holder kept) (hst : Procs.Step k a a')
    (hcopies : ∀ p, a.CopyFails p → ∀ c o q, a'.progress p ≠ .waiting c o q) :
    ∃ ring' pend' holder' kept', a'.Follows k q₀ ring' pend' holder' kept' := by
  obtain ⟨rest, hpriv⟩ := h.apart
  cases hst with
  | call p c o hp => exact ⟨_, _, _, _, h.begins c o hp⟩
  | @refuse p c o e hp hr =>
    exact ⟨_, _, _, _, h.skips (hpriv.error hpriv.holds fun _ hb _ => hb) rfl (congrArg Progress.place hp)
      (lockedDevice_refuses (accept_refused o hr))⟩
  | @prepare p c o q hp hr hq =>
    refine ⟨_, _, _, _, h.hidden (hpriv.prepare hr hq) rfl ?_ (by rw [hp]; rfl)⟩
    refine accept_passed hr hq fun cmd seekto hc => ?_
    subst hc
    by_contra hne
    exact hcopies p ⟨cmd, seekto, o, hp, hne⟩ _ o q move_self
  | @noMemory p src o heap hp hk =>
    obtain ⟨hr, hapart⟩ := hpriv.noMemory hk
    refine ⟨_, _, _, _, h.skips hapart rfl (congrArg Progress.place hp) (lockedDevice_refuses ?_)⟩
    simp only [Invocation.accept, if_pos hr]
  | alloc hp hk hne =>
    exact ⟨_, _, _, _, h.hidden (hpriv.alloc hk hne) rfl trivial (by rw [hp]; rfl)⟩
  | @copy p src o kbuf heap cells hp hcpy hload hpd =>
    obtain ⟨h0, -⟩ := hpriv.leavesKbuf hp hcpy 0
    refine ⟨_, _, _, _, h.hidden (hpriv.copy hp hcpy hload hpd) rfl ?_ (by rw [hp]; rfl)⟩
    exact accept_copied (hpriv.allocated hp).1 h0.symm hpd
  | @copyRefused p src o kbuf heap hp hcpy hpd =>
    obtain ⟨h0, hapart⟩ := hpriv.leavesKbuf hp hcpy (-EINVAL)
    refine ⟨_, _, _, _, h.skips hapart rfl (congrArg Progress.place hp) (lockedDevice_refuses ?_)⟩
    simp only [Invocation.accept, if_neg (hpriv.allocated hp).1, ← h0, ne_eq, not_true_eq_false, if_false, hpd,
      Bool.false_eq_true]
  | @interrupt p c o q hp hi =>
    have haccept : (a.progress p).Agrees kept (a.file p) k := h.agrees p
    rw [hp] at haccept
    exact ⟨_, _, _, _, h.skips (hpriv.error hpriv.holds fun _ hb _ => hb) rfl (congrArg Progress.place hp)
      (lockedDevice_interrupted haccept hi)⟩
  | acquire hp hi hfree => exact ⟨_, _, _, _, h.acquires hp hi hfree⟩
  | locked hp he =>
    obtain ⟨ring', pend', h'⟩ := h.body hp he
    exact ⟨_, _, _, _, h'⟩
  | unlock hp hunl => exact ⟨_, _, _, _, h.unlocks hp hunl⟩
  | finish hp => exact ⟨_, _, _, _, h.returns hp⟩

theorem step (h : a.Follows k q₀ ring pend holder kept) (hst : Procs.AnyStep k a a') :
    ∃ ring' pend' holder' kept', a'.Follows k q₀ ring' pend' holder' kept' := by
  obtain ⟨rest, hpriv⟩ := h.apart
  cases hst with
  | call p c o hp => exact ⟨_, _, _, _, h.begins c o hp⟩
  | copyFailed hp hcpy hne =>
    obtain ⟨rfl, hapart⟩ := hpriv.leavesKbuf hp hcpy (-EFAULT)
    exact ⟨_, _, _, _, h.skips hapart rfl (congrArg Progress.place hp)
      (lockedDevice_refuses (accept_uncopied (hpriv.allocated hp).1 hne))⟩
  | ioctlFailed hp hr hu =>
    exact ⟨_, _, _, _, h.skips (hpriv.error hpriv.holds fun _ hb _ => hb) rfl (congrArg Progress.place hp)
      (lockedDevice_refuses (accept_unplaced hr hu))⟩
  | keepLock hp hunl => exact ⟨_, _, _, _, h.keeps hp hunl⟩
  | part hst hcopies => exact h.step_part hst hcopies

end Procs.Follows

/-- Before any call. -/
theorem follows_start (k : Kernel) (files : ι → File) :
    (Procs.start files).Follows k ⟨(shared aesdInitModule, false), files, fun _ => []⟩ [] [] none false := by
  refine ⟨⟨[], holds_init k, fun _ => trivial, ?_, ?_⟩, rfl, fun _ => trivial, LockedObject.linearized_start ..⟩
  · intro p b hb
    cases hb
  · intro p p' _ b hb
    cases hb

/-- Calls made one by one, on the system and on its log. -/
theorem Alone.calls_device (order : List (ι × Call × Outcome)) {q : Alone ι} (hok : Ok k q.sys) :
    ∃ q', q.calls k order = .ok q' ∧ Ok k q'.sys ∧
      LockedObject.Seq.calls (lockedDevice k) ⟨(shared q.sys, q.sys.dev.lock), q.file, q.replies⟩ order =
        ⟨(shared q'.sys, q'.sys.dev.lock), q'.file, q'.replies⟩ := by
  induction order generalizing q with
  | nil => exact ⟨q, rfl, hok, rfl⟩
  | cons x xs ih =>
    obtain ⟨p, c, o⟩ := x
    obtain ⟨_, _, _, h⟩ := hok
    obtain ⟨r, he⟩ := exec_total h ⟨some (q.file p), c, o⟩
    have hdev := exec_device h he
    obtain ⟨q', hq', hok', hcalls⟩ := ih (q := ⟨r.sys, Function.update q.file p { q.file p with fPos := r.fPos },
      Function.update q.replies p (q.replies p ++ [r.reply])⟩) (exec_holds h he)
    refine ⟨q', ?_, hok', ?_⟩
    · simp only [Invocation.exec] at he
      rw [Alone.calls, List.foldlM_cons, Alone.call]
      simp only [he, ok_bind]
      exact hq'
    · rw [← hcalls, LockedObject.Seq.calls, List.foldl_cons, LockedObject.Seq.calls]
      congr 1
      have hself : (⟨(device q.sys).log, (device q.sys).lost, q.sys.dev.lock⟩ : Device) = device q.sys := rfl
      simp only [LockedObject.Seq.call, lockedDevice, shared, hself, hdev]
      rfl

end Simulation

/-- Linearizability, failures included: take any processes with any files, and any
interleaving of the parts of their calls, with any allocations and user copies
failing. Made one by one, in the order in which they take `dev->lock` or are turned
away, the calls give every answer the processes have got, and while nobody is inside
the lock the ring, the pending bytes and the lock are the same. -/
theorem interleavings_linearizable {ι : Type} [DecidableEq ι] (k : Kernel) (files : ι → File) {l : List (Procs ι)}
    {a : Procs ι} (hrun : Run (Procs.AnyStep k) (Procs.start files) l a) :
    ∃ q, Alone.calls k ⟨aesdInitModule, files, fun _ => []⟩ a.order = .ok q ∧
      (∀ p, a.replies p <+: q.replies p) ∧
      (∀ p, a.progress p = .idle → q.replies p = a.replies p ∧ q.file p = a.file p) ∧
      ((∀ p, ¬ (a.progress p).Locked) → ringCells q.sys = ringCells a.sys ∧ pendCells q.sys = pendCells a.sys ∧
        q.sys.dev.newEntry.size = a.sys.dev.newEntry.size ∧ q.sys.dev.lock = a.sys.dev.lock) := by
  obtain ⟨ring, pend, holder, kept, h⟩ := hrun.inv (fun a => ∃ ring pend holder kept,
    a.Follows k ⟨(shared aesdInitModule, false), files, fun _ => []⟩ ring pend holder kept)
    ⟨[], [], none, false, follows_start k files⟩ fun _ _ ⟨_, _, _, _, h⟩ hst => h.step hst
  obtain ⟨q, hq, hok, hcalls⟩ := Alone.calls_device (k := k) a.order
    (q := ⟨aesdInitModule, files, fun _ => []⟩) ⟨[], [], [], holds_init k⟩
  have hbehind := h.linearized.behind
  have hfree := h.linearized.free
  have hinit : (⟨(shared aesdInitModule, aesdInitModule.dev.lock), files, fun _ => []⟩ :
    LockedObject.Seq ι (Shared × Bool) File Reply) = ⟨(shared aesdInitModule, false), files, fun _ => []⟩ := rfl
  rw [show (a.view holder kept).order = a.order from rfl, ← hinit, hcalls] at hbehind hfree
  refine ⟨q, hq, fun p => (hbehind p).replies_before, fun p hp => ?_, fun hnone => ?_⟩
  · have hph : (a.view holder kept).phase p = .idle := congrArg Progress.place hp
    have hb := hbehind p
    simp only [LockedObject.Behind, hph] at hb
    exact ⟨hb.2.2, hb.2.1⟩
  · obtain rfl := h.holder_none hnone
    obtain ⟨hs, hk⟩ := Prod.mk.inj (hfree rfl)
    have hlock : q.sys.dev.lock = a.sys.dev.lock := hk.trans h.lock.symm
    have hd : device q.sys = device a.sys := by
      obtain ⟨hlog, hlost⟩ := Prod.mk.inj hs
      have hlk : (device q.sys).lock = (device a.sys).lock := hlock
      calc device q.sys = ⟨(device q.sys).log, (device q.sys).lost, (device q.sys).lock⟩ := rfl
        _ = device a.sys := by rw [hlog, hlost, hlk]
    obtain ⟨rest, hpriv⟩ := h.apart
    have hholds : Holds k a.sys ring pend rest := hpriv.holds
    obtain ⟨hring, hpend, hsize⟩ := Ok.same ⟨ring, pend, rest, hholds⟩ hok hd
    exact ⟨hring, hpend, hsize, hlock⟩

/-- The reader of `faulted_read_run`. -/
theorem interleavings_linearizable_faulted : ∃ (l : List (Procs Bool)) (a : Procs Bool) (q : Alone Bool), LockKept l ∧
    Alone.calls .pages4K ⟨aesdInitModule, fun _ => ⟨true, 0⟩, fun _ => []⟩ a.order = .ok q ∧
    q.replies false = [⟨some 0, [some 97], 0⟩] := by
  obtain ⟨l, a, hrun, hk, -, hidle, hreply⟩ := faulted_read_run
  obtain ⟨q, hq, -, hdone, -⟩ := interleavings_linearizable .pages4K (fun _ => ⟨true, 0⟩) hrun
  exact ⟨l, a, q, hk, hq, (hdone false hidle).1.trans hreply⟩

end Aesd
