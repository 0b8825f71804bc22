import Aesd.Faults
import Aesd.SysLib.LockedObject
/-!
# Concurrent calls

Any number of processes, each with its own open file, in the parts into which
their calls can be cut: the allocation and the user copy before the lock, taking
the lock or being interrupted, the locked part, dropping the lock, and what is
left to do after that. User copies succeed; allocations may fail.

The parts are those of the source (`readSection`, `writeSection`, ...), on the
shared memory. Each is a step of the abstract object `object k`, whose shared
state is the device's log, so `LockedObject.Linearized.step` applies.
-/

namespace Aesd

open SysLib

/-- What a call brings to the lock. -/
inductive Request where
  | read (count : Nat)
  | write (kbuf : Ptr) (count : Nat) (writeToCb : Bool)
  | llseek (offset whence : Int)
  | ioctl (seekto : AesdSeekto)

/-- The part of a call that runs with the lock held. -/
def Request.locked (k : Kernel) (o : Outcome) (f : File) (s : Sys) : Request → Except Fault (Left × Sys)
  | .read count => do
    let out ← readSection o count f.fPos s
    .ok (.returns out.retval out.data out.fPos out.unlocks, s)
  | .write kbuf count writeToCb => do
    let (retval, s) ← writeSection k o kbuf count writeToCb s
    .ok (.returns retval [] f.fPos true, s)
  | .llseek offset whence => .ok (.seeks (llseekSection s) offset whence, s)
  | .ioctl seekto => .ok (.places (ioctlSection seekto s), s)

/-- The error of a call that its first checks turn away. -/
def Call.refused (f : File) : Call → Option Int
  | .read buf _ => if buf = true ∧ f.privateData = true then none else some EINVAL
  | .write buf => if buf = none then some EINVAL else none
  | .llseek _ _ => if f.privateData = true then none else some EINVAL
  | .ioctl cmd _ =>
    if cmd ≠ AESDCHAR_IOCSEEKTO then some ENOTTY
    else if f.privateData = true then none
    else some EINVAL

/-- What a call other than a write brings to the lock. -/
def Call.request : Call → Option Request
  | .read _ count => some (.read count)
  | .write _ => none
  | .llseek offset whence => some (.llseek offset whence)
  | .ioctl _ seekto => some (.ioctl seekto)

/-- How far a process is in its call. -/
inductive Progress where
  | idle
  | called (c : Call) (o : Outcome)
  /-- `aesd_write` has its `kbuf`. -/
  | allocated (src : List UInt8) (o : Outcome) (kbuf : Ptr)
  /-- Everything that comes before the lock is done. -/
  | waiting (c : Call) (o : Outcome) (q : Request)
  | inside (c : Call) (o : Outcome) (q : Request)
  | done (c : Call) (o : Outcome) (left : Left)
  /-- The lock is dropped. -/
  | leaving (c : Call) (o : Outcome) (left : Left)

/-- The system and its processes. As history: the answers each process has got,
and the calls in the order in which they took the lock or were turned away. -/
structure Procs (ι : Type) where
  sys : Sys
  file : ι → File
  progress : ι → Progress
  replies : ι → List Reply
  order : List (ι × Call × Outcome)

section Steps

variable {ι : Type} [DecidableEq ι]

/-- Process `p` gets on to `g`, with the system in `s`. -/
def Procs.move (a : Procs ι) (p : ι) (g : Progress) (s : Sys) : Procs ι :=
  { a with sys := s, progress := Function.update a.progress p g }

/-- The call of process `p` returns `r`. -/
def Procs.answer (a : Procs ι) (p : ι) (r : Reply) (s : Sys) : Procs ι :=
  { a with
    sys := s
    file := Function.update a.file p { a.file p with fPos := r.fPos }
    progress := Function.update a.progress p .idle
    replies := Function.update a.replies p (a.replies p ++ [r]) }

/-- The call of process `p` takes its place in the order. -/
def Procs.log (a : Procs ι) (p : ι) (c : Call) (o : Outcome) : Procs ι :=
  { a with order := a.order ++ [(p, c, o)] }

/-- A call that changes no position returns `ret`. -/
def Procs.error (a : Procs ι) (p : ι) (ret : Int) (s : Sys) : Procs ι :=
  a.answer p ⟨some ret, [], (a.file p).fPos⟩ s

def Sys.withHeap (s : Sys) (heap : Memory) : Sys := { s with heap := heap }

/-- One part of one call. -/
inductive Procs.Step (k : Kernel) : Procs ι → Procs ι → Prop
  | call {a : Procs ι} (p : ι) (c : Call) (o : Outcome) : a.progress p = .idle → o.uncopied = 0 →
      Step k a (a.move p (.called c o) a.sys)
  | refuse {a : Procs ι} {p : ι} {c : Call} {o : Outcome} {e : Int} : a.progress p = .called c o →
      c.refused (a.file p) = some e → Step k a ((a.log p c o).error p (-e) a.sys)
  | prepare {a : Procs ι} {p : ι} {c : Call} {o : Outcome} {q : Request} : a.progress p = .called c o →
      c.refused (a.file p) = none → c.request = some q → Step k a (a.move p (.waiting c o q) a.sys)
  | noMemory {a : Procs ι} {p : ι} {src : List UInt8} {o : Outcome} {heap : Memory} :
      a.progress p = .called (.write (some src)) o →
      kmalloc k src.length o.kmalloc a.sys.heap = (.null, heap) →
      Step k a ((a.log p (.write (some src)) o).error p (-ENOMEM) (a.sys.withHeap heap))
  | alloc {a : Procs ι} {p : ι} {src : List UInt8} {o : Outcome} {kbuf : Ptr} {heap : Memory} :
      a.progress p = .called (.write (some src)) o →
      kmalloc k src.length o.kmalloc a.sys.heap = (kbuf, heap) → kbuf ≠ .null →
      Step k a (a.move p (.allocated src o kbuf) (a.sys.withHeap heap))
  /-- The user's bytes are copied, and a newline is looked for among them. -/
  | copy {a : Procs ι} {p : ι} {src : List UInt8} {o : Outcome} {kbuf : Ptr} {heap : Memory}
      {cells : List Cell} : a.progress p = .allocated src o kbuf →
      copyFromUser kbuf src o.uncopied a.sys.heap = .ok (heap, 0) → load kbuf 0 src.length heap = .ok cells →
      (a.file p).privateData = true →
      Step k a (a.move p (.waiting (.write (some src)) o (.write kbuf src.length (hasNewline cells)))
        (a.sys.withHeap heap))
  | copyRefused {a : Procs ι} {p : ι} {src : List UInt8} {o : Outcome} {kbuf : Ptr} {heap : Memory} :
      a.progress p = .allocated src o kbuf →
      copyFromUser kbuf src o.uncopied a.sys.heap = .ok (heap, 0) → (a.file p).privateData = false →
      Step k a ((a.log p (.write (some src)) o).error p (-EINVAL) (a.sys.withHeap heap))
  | interrupt {a : Procs ι} {p : ι} {c : Call} {o : Outcome} {q : Request} : a.progress p = .waiting c o q →
      Invocation.interrupted ⟨some (a.file p), c, o⟩ = true →
      Step k a ((a.log p c o).error p (-ERESTARTSYS) a.sys)
  | acquire {a : Procs ι} {p : ι} {c : Call} {o : Outcome} {q : Request} : a.progress p = .waiting c o q →
      Invocation.interrupted ⟨some (a.file p), c, o⟩ = false → a.sys.dev.lock = false →
      Step k a ((a.log p c o).move p (.inside c o q) (a.sys.setLock true))
  | locked {a : Procs ι} {p : ι} {c : Call} {o : Outcome} {q : Request} {left : Left} {s : Sys} :
      a.progress p = .inside c o q → q.locked k o (a.file p) a.sys = .ok (left, s) →
      Step k a (a.move p (.done c o left) s)
  | unlock {a : Procs ι} {p : ι} {c : Call} {o : Outcome} {left : Left} : a.progress p = .done c o left →
      left.unlocks = true → Step k a (a.move p (.leaving c o left) (a.sys.setLock false))
  | finish {a : Procs ι} {p : ι} {c : Call} {o : Outcome} {left : Left} : a.progress p = .leaving c o left →
      Step k a (a.answer p (left.finish (a.file p)) a.sys)

/-- The module has just been loaded, and no process is in a call. -/
def Procs.start (files : ι → File) : Procs ι :=
  ⟨aesdInitModule, files, fun _ => .idle, fun _ => [], []⟩

/-! ## The same calls, one by one -/

/-- The system, the files and the answers when calls are made one by one. -/
structure Alone (ι : Type) where
  sys : Sys
  file : ι → File
  replies : ι → List Reply

def Alone.call (k : Kernel) (q : Alone ι) (x : ι × Call × Outcome) : Except Fault (Alone ι) := do
  let r ← x.2.1.exec k x.2.2 (some (q.file x.1)) q.sys
  .ok ⟨r.sys, Function.update q.file x.1 { q.file x.1 with fPos := r.fPos },
    Function.update q.replies x.1 (q.replies x.1 ++ [r.reply])⟩

def Alone.calls (k : Kernel) (q : Alone ι) (order : List (ι × Call × Outcome)) : Except Fault (Alone ι) :=
  order.foldlM (Alone.call k) q

end Steps

/-! ## The abstract object -/

/-- The device without its lock: the log, and whether the pending bytes are gone. -/
abbrev Shared := LineLog Cell × Bool

def shared (s : Sys) : Shared := ((device s).log, (device s).lost)

/-- The device as an object behind a lock. -/
def object (k : Kernel) : LockedObject Shared File (Call × Outcome) Left Reply where
  body x f d := (((⟨d.1, d.2, false⟩ : Device).locked k x.2 f x.1).1,
    ((⟨d.1, d.2, false⟩ : Device).locked k x.2 f x.1).2.log,
    ((⟨d.1, d.2, false⟩ : Device).locked k x.2 f x.1).2.lost)
  leave _ f left := (left.finish f, { f with fPos := (left.finish f).fPos })
  call x f d := ((Device.exec k ⟨some f, x.1, x.2⟩ ⟨d.1, d.2, false⟩).1,
    { f with fPos := (Device.exec k ⟨some f, x.1, x.2⟩ ⟨d.1, d.2, false⟩).1.fPos },
    (Device.exec k ⟨some f, x.1, x.2⟩ ⟨d.1, d.2, false⟩).2.log,
    (Device.exec k ⟨some f, x.1, x.2⟩ ⟨d.1, d.2, false⟩).2.lost)

def Progress.phase : Progress → LockedObject.Phase (Call × Outcome) Left
  | .idle => .idle
  | .called c o => .waiting (c, o)
  | .allocated src o _ => .waiting (.write (some src), o)
  | .waiting c o _ => .waiting (c, o)
  | .inside c o _ => .inside (c, o)
  | .done c o left => .done (c, o) left
  | .leaving c o left => .leaving (c, o) left

/-- The abstract state behind `a`, if `holder` has the lock. -/
def Procs.abs {ι : Type} (a : Procs ι) (holder : Option ι) :
    LockedObject.State ι Shared File (Call × Outcome) Left Reply :=
  ⟨shared a.sys, holder, a.file, Progress.phase ∘ a.progress, a.replies, a.order⟩

section Object

variable {k : Kernel} {c : Call} {o : Outcome} {f : File} {e : Int}

theorem object_locks (ha : Invocation.accept k ⟨some f, c, o⟩ = .ok f)
    (hi : Invocation.interrupted ⟨some f, c, o⟩ = false) : (object k).Locks (c, o) f := by
  intro d
  simp only [object, Device.exec_locked (d := ⟨d.1, d.2, false⟩) ha hi rfl]

theorem object_refuses (ha : Invocation.accept k ⟨some f, c, o⟩ = .error e) :
    (object k).Skips (c, o) f ⟨some (-e), [], f.fPos⟩ f := by
  intro d
  simp only [object, Device.exec_refused ha]
  rfl

theorem object_interrupted (ha : Invocation.accept k ⟨some f, c, o⟩ = .ok f)
    (hi : Invocation.interrupted ⟨some f, c, o⟩ = true) :
    (object k).Skips (c, o) f ⟨some (-ERESTARTSYS), [], f.fPos⟩ f := by
  intro d
  simp only [object, Device.exec_interrupted ha hi]

end Object

/-! ## Who owns which `kbuf` -/

/-- The block of the `kbuf` a process has for itself. -/
def Progress.held : Progress → List (Nat × List Cell)
  | .allocated src _ kbuf => kbuf.blocks (List.replicate src.length none)
  | .waiting (.write (some src)) _ (.write kbuf _ _) => kbuf.blocks (src.map some)
  | .inside (.write (some src)) _ (.write kbuf _ _) => kbuf.blocks (src.map some)
  | _ => []

theorem held_inside (c : Call) (o : Outcome) (q : Request) :
    (Progress.inside c o q).held = (Progress.waiting c o q).held := by
  rcases c with _ | ⟨_ | _⟩ | _ | _ <;> cases q <;> rfl

/-- `q` is what call `c` brings to the lock. -/
def Prepared (k : Kernel) (c : Call) (q : Request) : Prop :=
  c.request = some q ∨ ∃ src kbuf, c = .write (some src) ∧ Points kbuf (src.map some) ∧
    src.length ≤ k.kmallocMaxSize ∧ q = .write kbuf src.length (hasNewline (src.map some))

/-- What is known of a process on its own. -/
def Progress.Fits (k : Kernel) (f : File) : Progress → Prop
  | .idle => True
  | .called _ o => o.uncopied = 0
  | .allocated src o kbuf => o.uncopied = 0 ∧ ¬ k.Refuses o.kmalloc src.length ∧
      Points kbuf (List.replicate src.length none) ∧ src.length ≤ k.kmallocMaxSize
  | .waiting c o q => o.uncopied = 0 ∧ Invocation.accept k ⟨some f, c, o⟩ = .ok f ∧ Prepared k c q
  | .inside c o q => o.uncopied = 0 ∧ Prepared k c q
  | .done _ _ left => left.unlocks = true
  | .leaving _ _ _ => True

/-- Each process has its `kbuf` to itself. -/
structure Private (k : Kernel) {ι : Type} (a : Procs ι) (ring : List (Nat × List Cell)) (pend : List Cell)
    (rest : List (Nat × List Cell)) : Prop where
  holds : Holds k a.sys ring pend rest
  fits : ∀ p, (a.progress p).Fits k (a.file p)
  owned : ∀ p, ∀ b ∈ (a.progress p).held, b ∈ rest
  apart : ∀ p p', p ≠ p' → ∀ b ∈ (a.progress p).held, ∀ b' ∈ (a.progress p').held, b.1 ≠ b'.1

section Private

variable {ι : Type} [DecidableEq ι] {k : Kernel} {a a' : Procs ι} {p : ι} {g : Progress}
  {ring rest ring' rest' : List (Nat × List Cell)} {pend pend' : List Cell}

/-- A step of process `p` that leaves the blocks of the others alone. -/
theorem Private.step (h : Private k a ring pend rest) (hprogress : a'.progress = Function.update a.progress p g)
    (hfile : ∀ p' ≠ p, a'.file p' = a.file p') (hfits : g.Fits k (a'.file p))
    (hholds : Holds k a'.sys ring' pend' rest')
    (hothers : ∀ b ∈ rest, (∀ b' ∈ (a.progress p).held, b.1 ≠ b'.1) → b ∈ rest')
    (hown : ∀ b ∈ g.held, b ∈ rest')
    (hnew : ∀ b ∈ g.held, b.1 ∈ rest.map Prod.fst → ∃ b' ∈ (a.progress p).held, b'.1 = b.1) :
    Private k a' ring' pend' rest' := by
  have hself : a'.progress p = g := by rw [hprogress, Function.update_self]
  have hne : ∀ p' ≠ p, a'.progress p' = a.progress p' := fun p' he => by
    rw [hprogress, Function.update_of_ne he]
  have hapart : ∀ p' ≠ p, ∀ b ∈ g.held, ∀ b' ∈ (a.progress p').held, b.1 ≠ b'.1 := by
    intro p' he b hb b' hb' heq
    obtain ⟨b₀, hb₀, h₀⟩ := hnew b hb (heq ▸ List.mem_map_of_mem (h.owned p' b' hb'))
    exact h.apart p p' he.symm b₀ hb₀ b' hb' (h₀.trans heq)
  refine ⟨hholds, forall_of_step p h.fits ?_ ?_, forall_of_step p h.owned ?_ ?_, fun p₁ p₂ h12 b hb b' hb' => ?_⟩
  · intro _
    rw [hself]
    exact hfits
  · intro p' he hprev
    rw [hne p' he, hfile p' he]
    exact hprev
  · intro _
    rw [hself]
    exact hown
  · intro p' he hprev
    rw [hne p' he]
    intro b hb
    exact hothers b (hprev b hb) (h.apart p' p he b hb)
  · by_cases h1 : p₁ = p
    · have h2 : p₂ ≠ p := fun h2 => h12 (h1.trans h2.symm)
      rw [h1, hself] at hb
      rw [hne p₂ h2] at hb'
      exact hapart p₂ h2 b hb b' hb'
    · by_cases h2 : p₂ = p
      · rw [hne p₁ h1] at hb
        rw [h2, hself] at hb'
        exact (hapart p₁ h1 b' hb' b hb).symm
      · rw [hne p₁ h1] at hb
        rw [hne p₂ h2] at hb'
        exact h.apart p₁ p₂ h12 b hb b' hb'

/-- A step that leaves all blocks alone. -/
theorem Private.keep (h : Private k a ring pend rest) (hprogress : a'.progress = Function.update a.progress p g)
    (hfile : ∀ p' ≠ p, a'.file p' = a.file p') (hfits : g.Fits k (a'.file p))
    (hholds : Holds k a'.sys ring pend rest) (hheld : ∀ b ∈ g.held, b ∈ (a.progress p).held) :
    Private k a' ring pend rest :=
  h.step hprogress hfile hfits hholds (fun _ hb _ => hb) (fun b hb => h.owned p b (hheld b hb))
    (fun b hb _ => ⟨b, hheld b hb, rfl⟩)

end Private

/-! ## The locked part -/

/-- The other blocks, once that of `p` is set apart. -/
theorem exists_rest {p : Ptr} {c : List Cell} {rest : List (Nat × List Cell)} (h : ∀ b ∈ p.blocks c, b ∈ rest) :
    ∃ rest', rest.Perm (p.blocks c ++ rest') := by
  cases p with
  | block i =>
    obtain ⟨l₁, l₂, rfl⟩ := List.append_of_mem (h (i, c) (List.mem_singleton_self _))
    exact ⟨_, List.perm_middle⟩
  | null => exact ⟨rest, .refl _⟩
  | zeroSize => exact ⟨rest, .refl _⟩

theorem mem_rest {bs rest rest' : List (Nat × List Cell)} {b : Nat × List Cell} (hp : rest.Perm (bs ++ rest'))
    (hb : b ∈ rest) (hne : ∀ b' ∈ bs, b.1 ≠ b'.1) : b ∈ rest' := by
  rcases List.mem_append.1 (hp.mem_iff.1 hb) with hb | hb
  · exact absurd rfl (hne b hb)
  · exact hb

section Locked

variable {k : Kernel} {s : Sys} {ring rest : List (Nat × List Cell)} {pend : List Cell}

/-- The locked part does not look at the lock. -/
theorem Device.locked_lock (d : Device) (k : Kernel) (o : Outcome) (f : File) (c : Call) (held : Bool) :
    ({ d with lock := held } : Device).locked k o f c =
      ((d.locked k o f c).1, { (d.locked k o f c).2 with lock := held }) := by
  cases c with
  | read buf count => rfl
  | write buf =>
    simp only [Device.locked, Device.write]
    split <;> rfl
  | llseek offset whence => rfl
  | ioctl cmd seekto => rfl

/-- The locked part of a read whose user copy succeeds. -/
theorem Device.read_unlocks (d : Device) {o : Outcome} (hu : o.uncopied = 0) (count : Nat) (fPos : Int) :
    (d.read o count fPos).unlocks = true := by
  unfold Device.read
  simp only [hu, Nat.zero_min, if_true]
  split <;> rfl

/-- The locked part of a call is that of the device. -/
theorem Prepared.locked (h : Holds k s ring pend rest) {o : Outcome} (hu : o.uncopied = 0) {f : File} {c : Call}
    {q : Request} (hq : Prepared k c q) (hheld : ∀ b ∈ (Progress.inside c o q).held, b ∈ rest) {left : Left}
    {s' : Sys} (he : q.locked k o f s = .ok (left, s')) :
    (device s).locked k o f c = (left, device s') ∧ left.unlocks = true ∧ ∃ ring' pend' rest',
      Holds k s' ring' pend' rest' ∧
      ∀ b ∈ rest, (∀ b' ∈ (Progress.inside c o q).held, b.1 ≠ b'.1) → b ∈ rest' := by
  rcases hq with hq | ⟨src, kbuf, rfl, hpts, hlen, rfl⟩
  · cases c with
    | read buf count =>
      obtain rfl := Option.some.inj hq
      simp only [Request.locked, h.readSection_device, ok_bind, Except.ok.injEq, Prod.mk.injEq] at he
      obtain ⟨rfl, rfl⟩ := he
      exact ⟨rfl, Device.read_unlocks _ hu _ _, ring, pend, rest, h, fun b hb _ => hb⟩
    | write buf => cases hq
    | llseek offset whence =>
      obtain rfl := Option.some.inj hq
      simp only [Request.locked, h.llseekSection_device, Except.ok.injEq, Prod.mk.injEq] at he
      obtain ⟨rfl, rfl⟩ := he
      exact ⟨rfl, rfl, ring, pend, rest, h, fun b hb _ => hb⟩
    | ioctl cmd seekto =>
      obtain rfl := Option.some.inj hq
      simp only [Request.locked, h.ioctlSection_device, Except.ok.injEq, Prod.mk.injEq] at he
      obtain ⟨rfl, rfl⟩ := he
      exact ⟨rfl, rfl, ring, pend, rest, h, fun b hb _ => hb⟩
  · simp only [Progress.held] at hheld ⊢
    obtain ⟨rest', hperm⟩ := exists_rest hheld
    have h' : Holds k s ring pend (kbuf.blocks (src.map some) ++ rest') := ⟨h.perm hperm, h.pend_line⟩
    have hcount : (src.map some).length = src.length := List.length_map ..
    obtain ⟨ret, s₁, hsec, heff⟩ := writeSection_effect o h' hpts (by rw [hcount]; exact hlen)
    rw [hcount] at hsec
    simp only [Request.locked, hsec, ok_bind, Except.ok.injEq, Prod.mk.injEq] at he
    obtain ⟨rfl, rfl⟩ := he
    refine ⟨?_, rfl, ?_⟩
    · simp only [Device.locked, Option.getD_some, heff.device h]
    · have hothers := fun b hb hne => mem_rest (b := b) hperm hb hne
      cases heff with
      | lost _ _ _ hh =>
        exact ⟨_, _, _, hh, fun b hb hne => List.mem_append_right _ (hothers b hb hne)⟩
      | kept _ _ _ _ _ hh =>
        exact ⟨_, _, _, hh, fun b hb hne => List.mem_append_right _ (hothers b hb hne)⟩
      | committed _ _ _ _ _ hh =>
        exact ⟨_, _, _, hh, fun b hb hne => List.mem_append_right _ (hothers b hb hne)⟩

end Locked

/-- The part of a write between `kmalloc` and the lock: the bytes are in `kbuf`. -/
theorem Private.copied {ι : Type} {k : Kernel} {a : Procs ι} {ring rest : List (Nat × List Cell)} {pend : List Cell}
    (h : Private k a ring pend rest) {p : ι} {src : List UInt8} {o : Outcome} {kbuf : Ptr} (hp : a.progress p = .allocated src o kbuf)
    {heap : Memory} (he : copyFromUser kbuf src o.uncopied a.sys.heap = .ok (heap, 0)) :
    ∃ rest', Points kbuf (src.map some) ∧
      Holds k (a.sys.withHeap heap) ring pend (kbuf.blocks (src.map some) ++ rest') ∧
      (∀ b ∈ rest, (∀ b' ∈ (a.progress p).held, b.1 ≠ b'.1) → b ∈ rest') := by
  have hfits := h.fits p
  rw [hp] at hfits
  obtain ⟨hu, -, hpts, -⟩ := hfits
  have hown := h.owned p
  rw [hp] at hown
  obtain ⟨rest', hperm⟩ := exists_rest hown
  have hex : a.sys.heap.Exactly (kbuf.blocks (List.replicate src.length none) ++
      (ring ++ (a.sys.dev.newEntry.buffptr.blocks pend ++ rest'))) :=
    (h.holds.perm hperm).exactly.perm (List.perm_iff_count.2 fun b => by simp only [List.count_append]; omega)
  obtain ⟨heap', cells, hcpy, hpts', -, hex', hcells⟩ := copyFromUser_points src o.uncopied hpts hex
  rw [he, Except.ok.injEq, Prod.mk.injEq] at hcpy
  obtain ⟨rfl, -⟩ := hcpy
  obtain rfl := hcells (by rw [hu]; simp)
  refine ⟨rest', hpts', h.holds.withHeap (hex'.perm ?_), fun b hb hne => mem_rest hperm hb ?_⟩
  · exact List.perm_iff_count.2 fun b => by simp only [List.count_append]; omega
  · rw [hp] at hne; exact hne

/-! ## Every step is one of the abstract object -/

section Simulation

variable {ι : Type} [DecidableEq ι] {k : Kernel} {a a' : Procs ι}

/-- The calls made so far, run one by one on the log, give what the processes
have and will have. -/
def Procs.Inv (k : Kernel) (q₀ : LockedObject.Seq ι Shared File Reply) (a : Procs ι) : Prop :=
  ∃ ring pend rest holder, Private k a ring pend rest ∧ a.sys.dev.lock = holder.isSome ∧
    (∀ x ∈ a.order, x.2.2.uncopied = 0) ∧ LockedObject.Linearized (object k) q₀ (a.abs holder)

theorem abs_move (a : Procs ι) (p : ι) (g : Progress) (s : Sys) (holder : Option ι) :
    (a.move p g s).abs holder =
      { a.abs holder with shared := shared s, phase := Function.update (a.abs holder).phase p g.phase } := by
  simp only [Procs.abs, Procs.move, Function.comp_update]

/-- A step that the abstract object does not see. -/
theorem abs_move_same (a : Procs ι) {p : ι} {g : Progress} (s : Sys) (holder : Option ι)
    (hg : (a.progress p).phase = g.phase) (hs : shared s = shared a.sys) :
    (a.move p g s).abs holder = a.abs holder := by
  have hsame : Function.update (a.abs holder).phase p g.phase = (a.abs holder).phase :=
    Function.update_eq_self_iff.2 hg.symm
  rw [abs_move, hsame, hs]
  rfl

theorem abs_answer (a : Procs ι) (p : ι) (r : Reply) (s : Sys) (holder : Option ι) :
    (a.answer p r s).abs holder =
      { a.abs holder with
        shared := shared s
        priv := Function.update a.file p { a.file p with fPos := r.fPos }
        phase := Function.update (a.abs holder).phase p .idle
        replies := Function.update a.replies p (a.replies p ++ [r]) } := by
  simp only [Procs.abs, Procs.answer, Function.comp_update, Progress.phase]

/-- The shared state does not depend on the blocks of the processes. -/
theorem shared_eq {s s' : Sys} {ring rest rest' : List (Nat × List Cell)} {pend : List Cell}
    (h : Owns k s ring pend rest) (h' : Owns k s' ring pend rest') (hd : s'.dev = s.dev) : shared s' = shared s := by
  rw [shared, shared, h.device, h'.device, hd]

/-- What the first checks turn away does not take the lock. -/
theorem accept_refused {c : Call} {f : File} {e : Int} (o : Outcome) (h : c.refused f = some e) :
    Invocation.accept k ⟨some f, c, o⟩ = .error e := by
  cases c with
  | read buf count =>
    simp only [Call.refused] at h
    split at h
    · cases h
    · rename_i hn; obtain rfl := Option.some.inj h; exact if_neg hn
  | write buf =>
    cases buf with
    | none => obtain rfl := Option.some.inj h; rfl
    | some src => simp [Call.refused] at h
  | llseek offset whence =>
    simp only [Call.refused] at h
    split at h
    · cases h
    · rename_i hn; obtain rfl := Option.some.inj h; exact if_neg hn
  | ioctl cmd seekto =>
    simp only [Call.refused] at h
    split at h
    · rename_i hc; obtain rfl := Option.some.inj h; exact if_pos hc
    · rename_i hc
      split at h
      · cases h
      · rename_i hn
        obtain rfl := Option.some.inj h
        rw [Bool.not_eq_true] at hn
        simp only [Invocation.accept, if_neg hc, if_pos hn]

/-- What the first checks let pass comes to the lock. -/
theorem accept_prepared {c : Call} {f : File} {o : Outcome} {q : Request} (hu : o.uncopied = 0)
    (h : c.refused f = none) (hq : c.request = some q) : Invocation.accept k ⟨some f, c, o⟩ = .ok f := by
  cases c with
  | read buf count =>
    simp only [Call.refused] at h
    split at h
    · rename_i hn; exact if_pos hn
    · cases h
  | write buf => cases hq
  | llseek offset whence =>
    simp only [Call.refused] at h
    split at h
    · rename_i hn; exact if_pos hn
    · cases h
  | ioctl cmd seekto =>
    simp only [Call.refused] at h
    split at h
    · cases h
    · rename_i hc
      split at h
      · rename_i hn
        have hpd : ¬ f.privateData = false := by rw [hn]; simp
        have hmin : ¬ min o.uncopied 8 ≠ 0 := by rw [hu]; simp
        simp only [Invocation.accept, if_neg hc, if_neg hpd, if_neg hmin]
      · cases h

theorem accept_write {f : File} {o : Outcome} {src : List UInt8} (hu : o.uncopied = 0)
    (hr : ¬ k.Refuses o.kmalloc src.length) :
    Invocation.accept k ⟨some f, .write (some src), o⟩ =
      if f.privateData = true then .ok f else .error EINVAL := by
  have hmin : ¬ min o.uncopied src.length ≠ 0 := by rw [hu]; simp
  simp only [Invocation.accept, if_neg hr, if_neg hmin]

theorem held_ids {p : Ptr} {c : List Cell} {b : Nat × List Cell} (h : b ∈ p.blocks c) (c' : List Cell) :
    ∃ b' ∈ p.blocks c', b'.1 = b.1 := by
  cases p with
  | block i => exact ⟨(i, c'), List.mem_singleton_self _, by rw [List.mem_singleton.1 h]⟩
  | null => cases h
  | zeroSize => cases h

section Parts

variable {q₀ : LockedObject.Seq ι Shared File Reply} {ring rest : List (Nat × List Cell)} {pend : List Cell}
  {holder : Option ι} (hpriv : Private k a ring pend rest) (hl : a.sys.dev.lock = holder.isSome)
  (hu : ∀ x ∈ a.order, x.2.2.uncopied = 0) (hlin : LockedObject.Linearized (object k) q₀ (a.abs holder))

include hpriv hl hu hlin

/-- A call that its checks turn away. -/
theorem Procs.Inv.error {p : ι} {c : Call} {o : Outcome} {ret : Int} {s : Sys} {rest' : List (Nat × List Cell)}
    (huo : o.uncopied = 0) (hphase : (a.progress p).phase = .waiting (c, o))
    (hskip : (object k).Skips (c, o) (a.file p) ⟨some ret, [], (a.file p).fPos⟩ (a.file p))
    (hholds : Holds k s ring pend rest') (hd : s.dev = a.sys.dev)
    (hothers : ∀ b ∈ rest, (∀ b' ∈ (a.progress p).held, b.1 ≠ b'.1) → b ∈ rest') :
    ((a.log p c o).error p ret s).Inv k q₀ := by
  refine ⟨ring, pend, rest', holder, ?_, ?_, ?_, ?_⟩
  · exact hpriv.step (g := .idle) rfl (fun p' he => Function.update_of_ne he _ _) trivial hholds hothers
      (by simp [Progress.held]) (by simp [Progress.held])
  · show s.dev.lock = _
    rw [hd]; exact hl
  · intro x hx
    rcases List.mem_append.1 hx with hx | hx
    · exact hu x hx
    · rw [List.mem_singleton.1 hx]; exact huo
  · rw [Procs.error, abs_answer, shared_eq hpriv.holds.toOwns hholds.toOwns hd]
    exact hlin.step (.skip (p := p) (x := (c, o)) hphase hskip)

/-- `kmalloc` has found memory for the bytes of a write. -/
theorem Procs.Inv.alloc {p : ι} {src : List UInt8} {o : Outcome} {kbuf : Ptr} {heap : Memory}
    (hp : a.progress p = .called (.write (some src)) o)
    (hk : kmalloc k src.length o.kmalloc a.sys.heap = (kbuf, heap)) (hne : kbuf ≠ .null) :
    (a.move p (.allocated src o kbuf) (a.sys.withHeap heap)).Inv k q₀ := by
  have huo : o.uncopied = 0 := by have := hpriv.fits p; rw [hp] at this; exact this
  rcases kmalloc_cases hpriv.holds.exactly src.length o.kmalloc with ⟨-, he⟩ | ⟨hr, hs, q, h', he, hq, hex⟩
  · exact absurd (Prod.mk.inj (hk.symm.trans he)).1 hne
  obtain ⟨rfl, rfl⟩ := Prod.mk.inj (hk.symm.trans he)
  have hholds : Holds k (a.sys.withHeap heap) ring pend (kbuf.blocks (List.replicate src.length none) ++ rest) :=
    hpriv.holds.withHeap (hex.perm (List.perm_iff_count.2 fun b => by simp only [List.count_append]; omega))
  refine ⟨ring, pend, kbuf.blocks (List.replicate src.length none) ++ rest, holder, ?_, hl, hu, ?_⟩
  · refine hpriv.step (g := .allocated src o kbuf) rfl (fun _ _ => rfl) ⟨huo, hr, hq, hs⟩ hholds
      (fun b hb _ => List.mem_append_right _ hb) (fun b hb => List.mem_append_left _ hb) ?_
    -- the new block was not live
    intro b hb hold
    have hnd := hex.nodup
    rw [List.map_append, List.nodup_append] at hnd
    refine absurd rfl (hnd.2.2 b.1 (List.mem_map_of_mem hb) b.1 ?_)
    rw [List.map_append, List.map_append]
    exact List.mem_append_right _ (List.mem_append_right _ hold)
  · rw [abs_move_same a _ holder (by rw [hp]; rfl) (shared_eq hpriv.holds.toOwns hholds.toOwns rfl)]
    exact hlin

/-- The user's bytes have been copied, and a newline has been looked for among them. -/
theorem Procs.Inv.copy {p : ι} {src : List UInt8} {o : Outcome} {kbuf : Ptr} {heap : Memory} {cells : List Cell}
    (hp : a.progress p = .allocated src o kbuf) (hcpy : copyFromUser kbuf src o.uncopied a.sys.heap = .ok (heap, 0))
    (hload : load kbuf 0 src.length heap = .ok cells) (hpd : (a.file p).privateData = true) :
    (a.move p (.waiting (.write (some src)) o (.write kbuf src.length (hasNewline cells))) (a.sys.withHeap heap)).Inv
      k q₀ := by
  obtain ⟨huo, hr, -, hs⟩ : (Progress.allocated src o kbuf).Fits k (a.file p) := hp ▸ hpriv.fits p
  obtain ⟨rest', hpts, hholds, hothers⟩ := hpriv.copied hp hcpy
  have hcells : cells = src.map some := by
    have hex : heap.Exactly _ := hholds.exactly
    have := load_points hpts hex (fun b hb => List.mem_append_right _ (List.mem_append_right _
      (List.mem_append_left _ hb))) (show 0 + src.length ≤ (src.map some).length by simp)
    rw [hload, List.drop_zero, List.take_of_length_le (by simp)] at this
    exact Except.ok.inj this
  subst hcells
  refine ⟨ring, pend, kbuf.blocks (src.map some) ++ rest', holder, ?_, hl, hu, ?_⟩
  · refine hpriv.step (g := .waiting (.write (some src)) o (.write kbuf src.length (hasNewline (src.map some))))
      rfl (fun _ _ => rfl) ⟨huo, ?_, .inr ⟨src, kbuf, rfl, hpts, hs, rfl⟩⟩ hholds
      (fun b hb hne => List.mem_append_right _ (hothers b hb hne)) (fun b hb => List.mem_append_left _ hb) ?_
    · rw [accept_write huo hr]; exact if_pos hpd
    · intro b hb _
      rw [hp]
      exact held_ids hb _
  · rw [abs_move_same a _ holder (by rw [hp]; rfl) (shared_eq hpriv.holds.toOwns hholds.toOwns rfl)]
    exact hlin

/-- What a call does inside the lock. -/
theorem Procs.Inv.locked {p : ι} {c : Call} {o : Outcome} {q : Request} {left : Left} {s : Sys} (hp : a.progress p = .inside c o q)
    (he : q.locked k o (a.file p) a.sys = .ok (left, s)) : (a.move p (.done c o left) s).Inv k q₀ := by
  obtain ⟨huo, hq⟩ : (Progress.inside c o q).Fits k (a.file p) := hp ▸ hpriv.fits p
  have hown : ∀ b ∈ (Progress.inside c o q).held, b ∈ rest := hp ▸ hpriv.owned p
  obtain ⟨hdev, hunl, ring', pend', rest', hholds, hothers⟩ := hq.locked hpriv.holds huo hown he
  have hbody : (object k).body (c, o) (a.file p) (shared a.sys) = (left, shared s) := by
    simp only [object, shared]
    have := Device.locked_lock (device a.sys) k o (a.file p) c false
    rw [hdev] at this
    rw [this]
  have hlock : s.dev.lock = a.sys.dev.lock := by
    have h1 := Device.locked_lock (device a.sys) k o (a.file p) c (device a.sys).lock
    have h2 : ({ device a.sys with lock := (device a.sys).lock } : Device) = device a.sys := rfl
    rw [h2, hdev] at h1
    exact congrArg (·.2.lock) h1
  refine ⟨ring', pend', rest', holder, ?_, ?_, hu, ?_⟩
  · refine hpriv.step (g := .done c o left) rfl (fun _ _ => rfl) hunl hholds ?_ (by simp [Progress.held])
      (by simp [Progress.held])
    rw [hp]
    exact hothers
  · show s.dev.lock = _
    rw [hlock]; exact hl
  · have hs := hlin.step (.body (p := p) (x := (c, o)) (congrArg Progress.phase hp))
    rw [abs_move]
    have hb : (object k).body (c, o) ((a.abs holder).priv p) (a.abs holder).shared = (left, shared s) := hbody
    rw [hb] at hs
    exact hs

end Parts

/-- Every part of every call keeps the invariant. -/
theorem Procs.Inv.step {q₀ : LockedObject.Seq ι Shared File Reply} (h : a.Inv k q₀)
    (hstep : Procs.Step k a a') : a'.Inv k q₀ := by
  obtain ⟨ring, pend, rest, holder, hpriv, hl, hu, hlin⟩ := h
  cases hstep with
  | call p c o hp huo =>
    refine ⟨ring, pend, rest, holder, ?_, hl, hu, ?_⟩
    · exact hpriv.keep (g := .called c o) rfl (fun _ _ => rfl) huo hpriv.holds (by simp [Progress.held])
    · rw [abs_move]
      exact hlin.step (.call p (c, o) (congrArg Progress.phase hp))
  | @refuse p c o e hp hr =>
    have huo : o.uncopied = 0 := by have := hpriv.fits p; rw [hp] at this; exact this
    exact Inv.error hpriv hl hu hlin huo (congrArg Progress.phase hp) (object_refuses (accept_refused o hr))
      hpriv.holds rfl (fun _ hb _ => hb)
  | @prepare p c o q hp hr hq =>
    have huo : o.uncopied = 0 := by have := hpriv.fits p; rw [hp] at this; exact this
    refine ⟨ring, pend, rest, holder, ?_, hl, hu, ?_⟩
    · refine hpriv.keep (g := .waiting c o q) rfl (fun _ _ => rfl) ⟨huo, accept_prepared huo hr hq, .inl hq⟩
        hpriv.holds ?_
      cases c with
      | write buf => cases hq
      | read buf count => simp [Progress.held]
      | llseek offset whence => simp [Progress.held]
      | ioctl cmd seekto => simp [Progress.held]
    · rw [abs_move_same a a.sys holder (by rw [hp]; rfl) rfl]
      exact hlin
  | @noMemory p src o heap hp hk =>
    have huo : o.uncopied = 0 := by have := hpriv.fits p; rw [hp] at this; exact this
    rcases kmalloc_cases hpriv.holds.exactly src.length o.kmalloc with ⟨hr, he⟩ | ⟨-, -, q, h', he, hq, -⟩
    · obtain ⟨-, rfl⟩ := Prod.mk.inj (hk.symm.trans he)
      refine Inv.error hpriv hl hu hlin huo (congrArg Progress.phase hp) (object_refuses ?_) hpriv.holds rfl
        (fun _ hb _ => hb)
      simp only [Invocation.accept, if_pos hr]
    · obtain ⟨rfl, -⟩ := Prod.mk.inj (hk.symm.trans he)
      exact absurd rfl hq.ne_null
  | alloc hp hk hne => exact Inv.alloc hpriv hl hu hlin hp hk hne
  | copy hp hcpy hload hpd => exact Inv.copy hpriv hl hu hlin hp hcpy hload hpd
  | @copyRefused p src o kbuf heap hp hcpy hpd =>
    obtain ⟨huo, hr, -, hs⟩ : (Progress.allocated src o kbuf).Fits k (a.file p) := hp ▸ hpriv.fits p
    obtain ⟨rest', hpts, hholds, hothers⟩ := hpriv.copied hp hcpy
    refine Inv.error hpriv hl hu hlin huo (congrArg Progress.phase hp) (object_refuses ?_) hholds rfl
      (fun b hb hne => List.mem_append_right _ (hothers b hb hne))
    rw [accept_write huo hr, if_neg (by rw [hpd]; simp)]
  | @interrupt p c o q hp hi =>
    obtain ⟨huo, ha, -⟩ : (Progress.waiting c o q).Fits k (a.file p) := hp ▸ hpriv.fits p
    exact Inv.error hpriv hl hu hlin huo (congrArg Progress.phase hp) (object_interrupted ha hi) hpriv.holds rfl
      (fun _ hb _ => hb)
  | @acquire p c o q hp hi hfree =>
    obtain ⟨huo, ha, hq⟩ : (Progress.waiting c o q).Fits k (a.file p) := hp ▸ hpriv.fits p
    obtain rfl : holder = none := by
      rw [hfree] at hl
      exact Option.isNone_iff_eq_none.1 (Option.isSome_eq_false_iff.1 hl.symm)
    refine ⟨ring, pend, rest, some p, ?_, rfl, ?_, ?_⟩
    · refine hpriv.keep (g := .inside c o q) rfl (fun _ _ => rfl) ⟨huo, hq⟩ (hpriv.holds.setLock true) ?_
      rw [hp, held_inside]
      exact fun _ hb => hb
    · intro x hx
      rcases List.mem_append.1 hx with hx | hx
      · exact hu x hx
      · rw [List.mem_singleton.1 hx]; exact huo
    · rw [abs_move]
      exact hlin.step (.acquire (p := p) (x := (c, o)) (congrArg Progress.phase hp) rfl (object_locks ha hi))
  | locked hp he => exact Inv.locked hpriv hl hu hlin hp he
  | @unlock p c o left hp hunl =>
    refine ⟨ring, pend, rest, none, ?_, rfl, hu, ?_⟩
    · exact hpriv.keep (g := .leaving c o left) rfl (fun _ _ => rfl) trivial (hpriv.holds.setLock false)
        (by simp [Progress.held])
    · rw [abs_move]
      exact hlin.step (.release (p := p) (x := (c, o)) (m := left) (congrArg Progress.phase hp))
  | @finish p c o left hp =>
    refine ⟨ring, pend, rest, holder, ?_, hl, hu, ?_⟩
    · exact hpriv.keep (g := .idle) rfl (fun p' he => Function.update_of_ne he _ _) trivial hpriv.holds
        (by simp [Progress.held])
    · rw [abs_answer]
      exact hlin.step (.leave (p := p) (x := (c, o)) (m := left) (congrArg Progress.phase hp))

/-- Calls made one by one, on the system and on its log. -/
theorem Alone.calls_object (order : List (ι × Call × Outcome)) (hu : ∀ x ∈ order, x.2.2.uncopied = 0)
    {q : Alone ι} (hok : Ok k q.sys) (hl : q.sys.dev.lock = false) :
    ∃ q', q.calls k order = .ok q' ∧ Ok k q'.sys ∧ q'.sys.dev.lock = false ∧
      LockedObject.Seq.calls (object k) ⟨shared q.sys, q.file, q.replies⟩ order =
        ⟨shared q'.sys, q'.file, q'.replies⟩ := by
  induction order generalizing q with
  | nil => exact ⟨q, rfl, hok, hl, rfl⟩
  | cons x xs ih =>
    obtain ⟨p, c, o⟩ := x
    have huo : o.uncopied = 0 := hu _ List.mem_cons_self
    obtain ⟨_, _, _, h⟩ := hok
    obtain ⟨r, he⟩ := exec_total h ⟨some (q.file p), c, o⟩
    have hdev := exec_device h he
    have hquiet : ¬ FaultedRead o (some (q.file p)) c q.sys := by
      rintro ⟨_, _, -, -, -, -, -, -, -, hne⟩
      exact hne huo
    have hl' := ((lock_step h he).2 hl hquiet).2
    obtain ⟨q', hq', hok', hlq', hcalls⟩ := ih (fun x hx => hu x (List.mem_cons_of_mem _ hx))
      (q := ⟨r.sys, Function.update q.file p { q.file p with fPos := r.fPos },
        Function.update q.replies p (q.replies p ++ [r.reply])⟩) (exec_holds h he) hl'
    refine ⟨q', ?_, hok', hlq', ?_⟩
    · rw [Alone.calls, List.foldlM_cons, Alone.call]
      simp only [Invocation.exec] at he
      simp only [he, ok_bind]
      exact hq'
    · rw [← hcalls, LockedObject.Seq.calls, List.foldl_cons, LockedObject.Seq.calls]
      congr 1
      have hself : (⟨(device q.sys).log, (device q.sys).lost, false⟩ : Device) = device q.sys := by
        rw [← hl]; rfl
      simp only [LockedObject.Seq.call, object, shared, hself, hdev]
      rfl

end Simulation

/-- Linearizability: take any processes with any files, and any interleaving of
the parts of their calls. Made one by one, in the order in which they take
`dev->lock`, the calls give every answer the processes have got; a process that
is in no call has the same answers and the same position; and while the lock is
free the ring and the pending bytes are the same. -/
theorem linearizable {ι : Type} [DecidableEq ι] (k : Kernel) (files : ι → File) {l : List (Procs ι)} {a : Procs ι}
    (hrun : Run (Procs.Step k) (Procs.start files) l a) :
    ∃ q, Alone.calls k ⟨aesdInitModule, files, fun _ => []⟩ a.order = .ok q ∧
      (∀ p, a.replies p <+: q.replies p) ∧
      (∀ p, a.progress p = .idle → q.replies p = a.replies p ∧ q.file p = a.file p) ∧
      (a.sys.dev.lock = false → ringCells q.sys = ringCells a.sys ∧ pendCells q.sys = pendCells a.sys ∧
        q.sys.dev.newEntry.size = a.sys.dev.newEntry.size) := by
  have hstart : (Procs.start files).Inv k ⟨shared aesdInitModule, files, fun _ => []⟩ :=
    ⟨[], [], [], none, ⟨holds_init k, fun _ => trivial, by simp [Procs.start, Progress.held],
      by simp [Procs.start, Progress.held]⟩, rfl, by simp [Procs.start], LockedObject.linearized_start ..⟩
  obtain ⟨ring, pend, rest, holder, hpriv, hl, hu, hlin⟩ :=
    hrun.inv (fun a => a.Inv k ⟨shared aesdInitModule, files, fun _ => []⟩) hstart fun _ _ h hs => h.step hs
  obtain ⟨q, hq, hok, hlq, hcalls⟩ := Alone.calls_object (k := k) a.order hu
    (q := ⟨aesdInitModule, files, fun _ => []⟩) ⟨[], [], [], holds_init k⟩ rfl
  have hbehind := hlin.behind
  have hfree := hlin.free
  rw [show (a.abs holder).order = a.order from rfl, hcalls] at hbehind hfree
  refine ⟨q, hq, fun p => (hbehind p).replies_before, fun p hp => ?_, fun hf => ?_⟩
  · have hph : (a.abs holder).phase p = .idle := congrArg Progress.phase hp
    have := hbehind p
    simp only [LockedObject.Behind, hph] at this
    exact ⟨this.2.2, this.2.1⟩
  · obtain rfl : holder = none := by
      rw [hf] at hl
      exact Option.isNone_iff_eq_none.1 (Option.isSome_eq_false_iff.1 hl.symm)
    have hs : shared q.sys = shared a.sys := hfree rfl
    have hd : device q.sys = device a.sys := by
      obtain ⟨hlog, hlost⟩ := Prod.mk.inj hs
      have hlk : (device q.sys).lock = (device a.sys).lock := hlq.trans hf.symm
      calc device q.sys = ⟨(device q.sys).log, (device q.sys).lost, (device q.sys).lock⟩ := rfl
        _ = device a.sys := by rw [hlog, hlost, hlk]
    exact Ok.same ⟨ring, pend, rest, hpriv.holds⟩ hok hd

/-- A write and a seek to the end, part by part: the seek begins before the
write has the lock and takes it after the write. -/
theorem linearizable_write_llseek :
    ∃ l a q, Run (Procs.Step .pages4K) (Procs.start fun _ : Bool => ⟨true, 0⟩) l a ∧
      a.order.map Prod.fst = [true, false] ∧
      Alone.calls .pages4K ⟨aesdInitModule, fun _ => ⟨true, 0⟩, fun _ => []⟩ a.order = .ok q ∧
      a.replies false = [⟨some 2, [], 2⟩] ∧ q.replies false = a.replies false := by
  have h0 : Run (Procs.Step .pages4K) (Procs.start fun _ : Bool => ⟨true, 0⟩) [] _ := .nil
  have h1 := h0.snoc (.call true (.write (some [97, newline])) ⟨false, some 0, some 0, 0⟩ rfl rfl)
  have h2 := h1.snoc (.alloc (p := true) rfl rfl (by decide))
  have h3 := h2.snoc (.call false (.llseek 0 SEEK_END) ⟨false, none, none, 0⟩ rfl rfl)
  have h4 := h3.snoc (.prepare (p := false) rfl rfl rfl)
  have h5 := h4.snoc (.copy (p := true) rfl rfl rfl rfl)
  have h6 := h5.snoc (.acquire (p := true) rfl rfl rfl)
  have h7 := h6.snoc (.locked (p := true) rfl rfl)
  have h8 := h7.snoc (.unlock (p := true) rfl rfl)
  have h9 := h8.snoc (.acquire (p := false) rfl rfl rfl)
  have h10 := h9.snoc (.locked (p := false) rfl rfl)
  have h11 := h10.snoc (.unlock (p := false) rfl rfl)
  have h12 := h11.snoc (.finish (p := false) rfl)
  obtain ⟨q, hq, -, hidle, -⟩ := linearizable .pages4K (fun _ => ⟨true, 0⟩) h12
  exact ⟨_, _, q, h12, rfl, hq, by decide +kernel, (hidle false rfl).1⟩

end Aesd
