import Aesd.Concurrent
import Aesd.Memory
/-!
# Every interleaving, with every failure

The calls of any number of processes, part by part as in `Aesd.Concurrent`, and
now with user copies that fail. A write or a seek whose copy fails returns
`-EFAULT`; a read whose copy fails returns with the lock.

None of this makes a wrong use of memory or lets two processes into the lock, and
only a read that has kept the lock holds up the others for good.
-/

namespace Aesd

open SysLib

section Steps

variable {ι : Type} [DecidableEq ι]

/-- The `ioctl` of process `p` cannot copy its argument. -/
def Procs.CopyFails (a : Procs ι) (p : ι) : Prop :=
  ∃ cmd seekto o, a.progress p = .called (.ioctl cmd seekto) o ∧ min o.uncopied 8 ≠ 0

/-- One part of one call, whatever its outcomes. -/
inductive Procs.AnyStep (k : Kernel) : Procs ι → Procs ι → Prop
  | call {a : Procs ι} (p : ι) (c : Call) (o : Outcome) : a.progress p = .idle →
      AnyStep k a (a.move p (.called c o) a.sys)
  /-- `kbuf` is not freed. -/
  | copyFailed {a : Procs ι} {p : ι} {src : List UInt8} {o : Outcome} {kbuf : Ptr} {heap : Memory} {left : Nat} :
      a.progress p = .allocated src o kbuf → copyFromUser kbuf src o.uncopied a.sys.heap = .ok (heap, left) →
      left ≠ 0 → AnyStep k a ((a.log p (.write (some src)) o).error p (-EFAULT) (a.sys.withHeap heap))
  | ioctlFailed {a : Procs ι} {p : ι} {cmd : Nat} {seekto : AesdSeekto} {o : Outcome} :
      a.progress p = .called (.ioctl cmd seekto) o → (Call.ioctl cmd seekto).refused (a.file p) = none →
      min o.uncopied 8 ≠ 0 → AnyStep k a ((a.log p (.ioctl cmd seekto) o).error p (-EFAULT) a.sys)
  /-- A read returns without dropping the lock. -/
  | keepLock {a : Procs ι} {p : ι} {c : Call} {o : Outcome} {left : Left} : a.progress p = .done c o left →
      left.unlocks = false → AnyStep k a (a.answer p (left.finish (a.file p)) a.sys)
  /-- A part in which no copy fails. -/
  | part {a a' : Procs ι} : Step k a a' → (∀ p, a.CopyFails p → ∀ c o q, a'.progress p ≠ .waiting c o q) →
      AnyStep k a a'

end Steps

/-! ## The same processes, had no copy failed -/

def Outcome.complete (o : Outcome) : Outcome := { o with uncopied := 0 }

/-- A process that is about to return with the lock has no block any more. -/
def Progress.clean : Progress → Progress
  | .idle => .idle
  | .called c o => .called c o.complete
  | .allocated src o kbuf => .allocated src o.complete kbuf
  | .waiting c o q => .waiting c o.complete q
  | .inside c o q => .inside c o.complete q
  | .done c o left => if left.unlocks = true then .done c o left else .idle
  | .leaving c o left => .leaving c o left

def Procs.clean {ι : Type} (a : Procs ι) : Procs ι := { a with progress := Progress.clean ∘ a.progress }

theorem held_clean (g : Progress) : g.clean.held = g.held := by
  cases g with
  | waiting c o q => rcases c with _ | ⟨_ | _⟩ | _ | _ <;> cases q <;> rfl
  | inside c o q => rcases c with _ | ⟨_ | _⟩ | _ | _ <;> cases q <;> rfl
  | done c o left =>
    by_cases hl : left.unlocks = true <;> simp [Progress.clean, hl, Progress.held]
  | _ => rfl

section Parts

variable {k : Kernel} {s s' : Sys} {ring rest : List (Nat × List Cell)} {pend : List Cell} {o : Outcome} {f : File}
  {c : Call} {q : Request} {left : Left}

/-- Only a read copies with the lock held. -/
theorem Request.locked_complete (hq : ∀ count, q ≠ .read count) :
    q.locked k o f s = q.locked k o.complete f s := by
  cases q with
  | read count => exact absurd rfl (hq count)
  | write kbuf count writeToCb => rfl
  | llseek offset whence => rfl
  | ioctl seekto => rfl

theorem Prepared.read {count : Nat} (hq : Prepared k c (.read count)) : ∃ buf, c = .read buf count := by
  rcases hq with hq | ⟨_, _, -, -, -, hq⟩
  · cases c <;> simp [Call.request] at hq
    subst hq
    exact ⟨_, rfl⟩
  · cases hq

/-- The locked part of a call, whatever its outcome. -/
theorem Prepared.locked_any (h : Holds k s ring pend rest) (hq : Prepared k c q)
    (hheld : ∀ b ∈ (Progress.inside c o q).held, b ∈ rest) (he : q.locked k o f s = .ok (left, s')) :
    (device s).locked k o f c = (left, device s') ∧
      (left.unlocks = false → ∃ buf count, c = .read buf count ∧ o.uncopied ≠ 0) ∧
      ∃ ring' pend' rest', Holds k s' ring' pend' rest' ∧
      ∀ b ∈ rest, (∀ b' ∈ (Progress.inside c o q).held, b.1 ≠ b'.1) → b ∈ rest' := by
  by_cases hread : ∃ count, q = .read count
  · obtain ⟨count, rfl⟩ := hread
    obtain ⟨buf, rfl⟩ := hq.read
    simp only [Request.locked, h.readSection_device, ok_bind, Except.ok.injEq, Prod.mk.injEq] at he
    obtain ⟨rfl, rfl⟩ := he
    refine ⟨rfl, fun hunl => ⟨buf, count, rfl, fun hu => ?_⟩, ring, pend, rest, h, fun b hb _ => hb⟩
    have := Device.read_unlocks (device s) hu count f.fPos
    simp only [Left.unlocks] at hunl
    rw [hunl] at this
    cases this
  · have hclean := Request.locked_complete (k := k) (o := o) (f := f) (s := s) fun count hc => hread ⟨count, hc⟩
    rw [hclean] at he
    have hheld' : (Progress.inside c o.complete q).held = (Progress.inside c o q).held := held_clean (.inside c o q)
    obtain ⟨hdev, hunl, ring', pend', rest', hholds, hothers⟩ :=
      hq.locked h (o := o.complete) rfl (hheld'.symm ▸ hheld) he
    refine ⟨?_, fun hno => absurd hunl (by simp [hno]), ring', pend', rest', hholds, hheld' ▸ hothers⟩
    cases c with
    | read buf count =>
      rcases hq with hq | ⟨_, _, hc, -⟩
      · exact absurd ⟨count, (Option.some.inj hq).symm⟩ hread
      · cases hc
    | _ => exact hdev

/-- It leaves the lock alone. -/
theorem lock_of_locked (h : (device s).locked k o f c = (left, device s')) : s'.dev.lock = s.dev.lock := by
  have hlock := Device.locked_lock (device s) k o f c (device s).lock
  have hsame : ({ device s with lock := (device s).lock } : Device) = device s := rfl
  rw [hsame, h] at hlock
  exact congrArg (·.2.lock) hlock

/-- It does not fault. -/
theorem Prepared.locked_total (h : Holds k s ring pend rest) (hq : Prepared k c q)
    (hheld : ∀ b ∈ (Progress.inside c o q).held, b ∈ rest) (f : File) :
    ∃ left s', q.locked k o f s = .ok (left, s') := by
  cases q with
  | read count =>
    have hread := h.readSection_device o count f.fPos
    exact ⟨_, s, by rw [Request.locked, hread]; rfl⟩
  | llseek offset whence => exact ⟨_, _, rfl⟩
  | ioctl seekto => exact ⟨_, _, rfl⟩
  | write kbuf count writeToCb =>
    rcases hq with hq | ⟨src, kbuf', rfl, hpts, hlen, heq⟩
    · cases c <;> simp [Call.request] at hq
    · obtain ⟨rfl, rfl, rfl⟩ := Request.write.inj heq
      obtain ⟨rest', hperm⟩ := exists_rest hheld
      have h' : Holds k s ring pend (kbuf.blocks (src.map some) ++ rest') := ⟨h.perm hperm, h.pend_line⟩
      have hcount : (src.map some).length = src.length := List.length_map ..
      obtain ⟨ret, s₁, hsec, -⟩ := writeSection_effect o h' hpts (by rw [hcount]; exact hlen)
      rw [hcount] at hsec
      exact ⟨_, s₁, by rw [Request.locked, hsec]; rfl⟩

end Parts

/-! ## Every process keeps its blocks -/

section Blocks

variable {ι : Type} {k : Kernel} {a a' : Procs ι} {p : ι} {ring rest : List (Nat × List Cell)} {pend : List Cell}

/-- Each process has its blocks to itself, and the device has `ring` and `pend`. -/
def Procs.Apart (k : Kernel) (ring : List (Nat × List Cell)) (pend : List Cell) (a : Procs ι) : Prop :=
  ∃ rest, Private k a.clean ring pend rest

/-- The order of the calls is history. -/
theorem Private.log (h : Private k a.clean ring pend rest) (p : ι) (c : Call) (o : Outcome) :
    Private k (a.log p c o).clean ring pend rest := ⟨h.holds, h.fits, h.owned, h.apart⟩

/-- The copy of a write: whole, or short of `left` bytes. -/
theorem Private.copies (h : Private k a.clean ring pend rest) {src : List UInt8} {o : Outcome} {kbuf : Ptr}
    (hp : a.progress p = .allocated src o kbuf) :
    ∃ heap cells rest', copyFromUser kbuf src o.uncopied a.sys.heap = .ok (heap, min o.uncopied src.length) ∧
      Points kbuf cells ∧ Holds k (a.sys.withHeap heap) ring pend (kbuf.blocks cells ++ rest') ∧
      (∀ b ∈ rest, (∀ b' ∈ (a.progress p).held, b.1 ≠ b'.1) → b ∈ rest') ∧
      (min o.uncopied src.length = 0 → cells = src.map some) ∧ cells.length = src.length := by
  have hfits : (a.progress p).clean.Fits k (a.file p) := h.fits p
  have hown : ∀ b ∈ (a.progress p).clean.held, b ∈ rest := h.owned p
  rw [hp] at hfits hown
  obtain ⟨-, -, hpts, -⟩ := hfits
  obtain ⟨rest', hperm⟩ := exists_rest hown
  have hholds : Holds k a.sys ring pend rest := h.holds
  have hex : a.sys.heap.Exactly (kbuf.blocks (List.replicate src.length none) ++
      (ring ++ (a.sys.dev.newEntry.buffptr.blocks pend ++ rest'))) :=
    (hholds.perm hperm).exactly.perm (List.perm_iff_count.2 fun b => by simp only [List.count_append]; omega)
  obtain ⟨heap, cells, hcpy, hpts', hlen, hex', hcells⟩ := copyFromUser_points src o.uncopied hpts hex
  refine ⟨heap, cells, rest', hcpy, hpts', hholds.withHeap (hex'.perm ?_), ?_, hcells, hlen⟩
  · exact List.perm_iff_count.2 fun b => by simp only [List.count_append]; omega
  · rw [hp]
    exact fun b hb hne => mem_rest hperm hb hne

/-- What is known of a process in `aesd_write`, before the copy. -/
theorem Private.allocated (h : Private k a.clean ring pend rest) {src : List UInt8} {o : Outcome} {kbuf : Ptr}
    (hp : a.progress p = .allocated src o kbuf) : ¬ k.Refuses o.kmalloc src.length ∧ src.length ≤ k.kmallocMaxSize := by
  have hfits : (a.progress p).clean.Fits k (a.file p) := h.fits p
  rw [hp] at hfits
  exact ⟨hfits.2.1, hfits.2.2.2⟩

/-- What is known of a process in its locked part. -/
theorem Private.inside (h : Private k a.clean ring pend rest) {c : Call} {o : Outcome} {q : Request}
    (hp : a.progress p = .inside c o q) : Prepared k c q ∧ ∀ b ∈ (Progress.inside c o q).held, b ∈ rest := by
  have hfit : (a.progress p).clean.Fits k (a.file p) := h.fits p
  have hown : ∀ b ∈ (a.progress p).clean.held, b ∈ rest := h.owned p
  rw [held_clean] at hown
  rw [hp] at hfit hown
  exact ⟨hfit.2, hown⟩

variable [DecidableEq ι]

theorem clean_move (a : Procs ι) (p : ι) (g : Progress) (s : Sys) :
    (a.move p g s).clean = a.clean.move p g.clean s := by
  simp only [Procs.clean, Procs.move, Function.comp_update]

theorem clean_answer (a : Procs ι) (p : ι) (r : Reply) (s : Sys) : (a.answer p r s).clean = a.clean.answer p r s := by
  simp only [Procs.clean, Procs.answer, Function.comp_update, Progress.clean]

/-- A call returns; what it has not freed is nobody's. -/
theorem Private.returns (h : Private k a.clean ring pend rest) {r : Reply} {s : Sys}
    {rest' : List (Nat × List Cell)} (hholds : Holds k s ring pend rest')
    (hothers : ∀ b ∈ rest, (∀ b' ∈ (a.progress p).held, b.1 ≠ b'.1) → b ∈ rest') :
    (a.answer p r s).Apart k ring pend := by
  refine ⟨rest', ?_⟩
  rw [clean_answer]
  refine h.step (g := .idle) rfl (fun p' he => Function.update_of_ne he _ _) trivial hholds ?_
    (by simp [Progress.held]) (by simp [Progress.held])
  intro b hb hne
  exact hothers b hb fun b' hb' => hne b' (by rw [← held_clean] at hb'; exact hb')

/-- ... with an error. -/
theorem Private.error (h : Private k a.clean ring pend rest) {c : Call} {o : Outcome} {ret : Int} {s : Sys}
    {rest' : List (Nat × List Cell)} (hholds : Holds k s ring pend rest')
    (hothers : ∀ b ∈ rest, (∀ b' ∈ (a.progress p).held, b.1 ≠ b'.1) → b ∈ rest') :
    ((a.log p c o).error p ret s).Apart k ring pend :=
  (h.log p c o).returns hholds hothers

/-- A call goes on, with the blocks it has. -/
theorem Private.goes (h : Private k a.clean ring pend rest) {g : Progress} {s : Sys}
    (hfits : g.clean.Fits k (a.file p)) (hholds : Holds k s ring pend rest)
    (hheld : ∀ b ∈ g.held, b ∈ (a.progress p).held) : (a.move p g s).Apart k ring pend := by
  refine ⟨rest, ?_⟩
  rw [clean_move]
  refine h.keep (g := g.clean) rfl (fun _ _ => rfl) hfits hholds ?_
  intro b hb
  rw [held_clean] at hb
  have hself : (a.clean.progress p).held = (a.progress p).held := held_clean _
  rw [hself]
  exact hheld b hb

theorem Private.prepare (h : Private k a.clean ring pend rest) {c : Call} {o : Outcome} {q : Request}
    (hr : c.refused (a.file p) = none) (hq : c.request = some q) :
    (a.move p (.waiting c o q) a.sys).Apart k ring pend := by
  refine h.goes (g := .waiting c o q) ⟨rfl, accept_prepared rfl hr hq, .inl hq⟩ h.holds ?_
  cases c with
  | write buf => cases hq
  | read buf count => simp [Progress.held]
  | llseek offset whence => simp [Progress.held]
  | ioctl cmd seekto => simp [Progress.held]

theorem Private.noMemory (h : Private k a.clean ring pend rest) {src : List UInt8} {o : Outcome} {heap : Memory}
    (hk : kmalloc k src.length o.kmalloc a.sys.heap = (.null, heap)) :
    k.Refuses o.kmalloc src.length ∧
      ((a.log p (.write (some src)) o).error p (-ENOMEM) (a.sys.withHeap heap)).Apart k ring pend := by
  rcases kmalloc_cases h.holds.exactly src.length o.kmalloc with ⟨hr, he⟩ | ⟨-, -, q, h', he, hq, -⟩
  · obtain ⟨-, rfl⟩ := Prod.mk.inj (hk.symm.trans he)
    exact ⟨hr, h.error h.holds fun _ hb _ => hb⟩
  · obtain ⟨rfl, -⟩ := Prod.mk.inj (hk.symm.trans he)
    exact absurd rfl hq.ne_null

theorem Private.alloc (h : Private k a.clean ring pend rest) {src : List UInt8} {o : Outcome} {kbuf : Ptr}
    {heap : Memory} (hk : kmalloc k src.length o.kmalloc a.sys.heap = (kbuf, heap)) (hne : kbuf ≠ .null) :
    (a.move p (.allocated src o kbuf) (a.sys.withHeap heap)).Apart k ring pend := by
  rcases kmalloc_cases h.holds.exactly src.length o.kmalloc with ⟨-, he⟩ | ⟨hr, hs, q, h', he, hq, hex⟩
  · exact absurd (Prod.mk.inj (hk.symm.trans he)).1 hne
  obtain ⟨rfl, rfl⟩ := Prod.mk.inj (hk.symm.trans he)
  refine ⟨kbuf.blocks (List.replicate src.length none) ++ rest, ?_⟩
  rw [clean_move]
  refine h.step (g := .allocated src o.complete kbuf) rfl (fun _ _ => rfl) ⟨rfl, hr, hq, hs⟩
    (h.holds.withHeap (hex.perm (List.perm_iff_count.2 fun b => by simp only [List.count_append]; omega)))
    (fun b hb _ => List.mem_append_right _ hb) (fun b hb => List.mem_append_left _ hb) ?_
  -- the new block was not live
  intro b hb hold
  have hnd := hex.nodup
  rw [List.map_append, List.nodup_append] at hnd
  refine absurd rfl (hnd.2.2 b.1 (List.mem_map_of_mem hb) b.1 ?_)
  rw [List.map_append, List.map_append]
  exact List.mem_append_right _ (List.mem_append_right _ hold)

theorem Private.copy (h : Private k a.clean ring pend rest) {src : List UInt8} {o : Outcome} {kbuf : Ptr}
    {heap : Memory} {cells : List Cell} (hp : a.progress p = .allocated src o kbuf)
    (hcpy : copyFromUser kbuf src o.uncopied a.sys.heap = .ok (heap, 0))
    (hload : load kbuf 0 src.length heap = .ok cells) (hpd : (a.file p).privateData = true) :
    (a.move p (.waiting (.write (some src)) o (.write kbuf src.length (hasNewline cells)))
      (a.sys.withHeap heap)).Apart k ring pend := by
  obtain ⟨hr, hs⟩ := h.allocated hp
  obtain ⟨heap', cells', rest', hcpy', hpts, hholds, hothers, hcells, hlen⟩ := h.copies hp
  obtain ⟨rfl, h0⟩ := Prod.mk.inj (Except.ok.inj (hcpy.symm.trans hcpy'))
  obtain rfl := hcells h0.symm
  have hsame : cells = src.map some := by
    have hex : heap.Exactly _ := hholds.exactly
    have := load_points hpts hex (fun b hb => List.mem_append_right _ (List.mem_append_right _
      (List.mem_append_left _ hb))) (show 0 + src.length ≤ (src.map some).length by simp)
    rw [hload, List.drop_zero, List.take_of_length_le (by simp)] at this
    exact Except.ok.inj this
  subst hsame
  refine ⟨kbuf.blocks (src.map some) ++ rest', ?_⟩
  rw [clean_move]
  refine h.step (g := .waiting (.write (some src)) o.complete (.write kbuf src.length (hasNewline (src.map some))))
    rfl (fun _ _ => rfl) ⟨rfl, ?_, .inr ⟨src, kbuf, rfl, hpts, hs, rfl⟩⟩ hholds ?_
    (fun b hb => List.mem_append_left _ hb) ?_
  · rw [accept_write (o := o.complete) rfl hr]
    exact if_pos hpd
  · intro b hb hne
    refine List.mem_append_right _ (hothers b hb fun b' hb' => hne b' ?_)
    rw [← held_clean] at hb'
    exact hb'
  · intro b hb _
    have hself : a.clean.progress p = .allocated src o.complete kbuf := congrArg Progress.clean hp
    rw [hself]
    exact held_ids hb _

/-- The write returns after the copy, and `kbuf` is not freed. -/
theorem Private.leavesKbuf (h : Private k a.clean ring pend rest) {src : List UInt8} {o : Outcome} {kbuf : Ptr}
    {heap : Memory} {left : Nat} (hp : a.progress p = .allocated src o kbuf)
    (hcpy : copyFromUser kbuf src o.uncopied a.sys.heap = .ok (heap, left)) (ret : Int) :
    left = min o.uncopied src.length ∧
      ((a.log p (.write (some src)) o).error p ret (a.sys.withHeap heap)).Apart k ring pend := by
  obtain ⟨heap', cells, rest', hcpy', -, hholds, hothers, -, -⟩ := h.copies hp
  obtain ⟨rfl, rfl⟩ := Prod.mk.inj (Except.ok.inj (hcpy.symm.trans hcpy'))
  exact ⟨rfl, h.error hholds fun b hb hne => List.mem_append_right _ (hothers b hb hne)⟩

theorem Private.acquire (h : Private k a.clean ring pend rest) {c : Call} {o : Outcome} {q : Request}
    (hp : a.progress p = .waiting c o q) :
    ((a.log p c o).move p (.inside c o q) (a.sys.setLock true)).Apart k ring pend := by
  have hfit : (a.progress p).clean.Fits k (a.file p) := h.fits p
  rw [hp] at hfit
  obtain ⟨-, -, hq⟩ := hfit
  refine (h.log p c o).goes (g := .inside c o q) ⟨rfl, hq⟩ (h.holds.setLock true) ?_
  have hself : ((a.log p c o).progress p).held = (Progress.waiting c o q).held := congrArg Progress.held hp
  rw [hself, held_inside]
  exact fun _ hb => hb

theorem Private.locked (h : Private k a.clean ring pend rest) {c : Call} {o : Outcome} {q : Request} {left : Left}
    {s : Sys} (hp : a.progress p = .inside c o q) (he : q.locked k o (a.file p) a.sys = .ok (left, s)) :
    ∃ ring' pend', (a.move p (.done c o left) s).Apart k ring' pend' := by
  obtain ⟨hq, hown⟩ := h.inside hp
  obtain ⟨-, -, ring', pend', rest', hholds, hothers⟩ := hq.locked_any h.holds hown he
  refine ⟨ring', pend', rest', ?_⟩
  rw [clean_move]
  have hnone : (Progress.done c o left).clean.held = [] := held_clean (.done c o left)
  refine h.step (g := (Progress.done c o left).clean) rfl (fun _ _ => rfl) ?_ hholds ?_ (by simp [hnone])
    (by simp [hnone])
  · by_cases hl : left.unlocks = true
    · rw [Progress.clean, if_pos hl]
      exact hl
    · rw [Progress.clean, if_neg hl]
      exact trivial
  · have hself : (a.clean.progress p).held = (Progress.inside c o q).held :=
      (held_clean _).trans (congrArg Progress.held hp)
    rw [hself]
    exact hothers

theorem Procs.Apart.step_part (h : a.Apart k ring pend) (hst : Procs.Step k a a') :
    ∃ ring' pend', a'.Apart k ring' pend' := by
  obtain ⟨rest, h⟩ := h
  cases hst with
  | call p c o hp => exact ⟨ring, pend, h.goes rfl h.holds (by simp [Progress.held])⟩
  | refuse hp hr => exact ⟨ring, pend, h.error h.holds fun _ hb _ => hb⟩
  | prepare hp hr hq => exact ⟨ring, pend, h.prepare hr hq⟩
  | noMemory hp hk => exact ⟨ring, pend, (h.noMemory hk).2⟩
  | alloc hp hk hne => exact ⟨ring, pend, h.alloc hk hne⟩
  | copy hp hcpy hload hpd => exact ⟨ring, pend, h.copy hp hcpy hload hpd⟩
  | copyRefused hp hcpy hpd => exact ⟨ring, pend, (h.leavesKbuf hp hcpy _).2⟩
  | interrupt hp hi => exact ⟨ring, pend, h.error h.holds fun _ hb _ => hb⟩
  | acquire hp hi hfree => exact ⟨ring, pend, h.acquire hp⟩
  | locked hp he => exact h.locked hp he
  | unlock hp hunl => exact ⟨ring, pend, h.goes trivial (h.holds.setLock false) (by simp [Progress.held])⟩
  | finish hp => exact ⟨ring, pend, h.returns h.holds fun _ hb _ => hb⟩

theorem Procs.Apart.step (h : a.Apart k ring pend) (hst : Procs.AnyStep k a a') :
    ∃ ring' pend', a'.Apart k ring' pend' := by
  obtain ⟨rest, hpriv⟩ := h
  cases hst with
  | call p c o hp => exact ⟨ring, pend, hpriv.goes rfl hpriv.holds (by simp [Progress.held])⟩
  | copyFailed hp hcpy hne => exact ⟨ring, pend, (hpriv.leavesKbuf hp hcpy _).2⟩
  | ioctlFailed => exact ⟨ring, pend, hpriv.error hpriv.holds fun _ hb _ => hb⟩
  | keepLock => exact ⟨ring, pend, hpriv.returns hpriv.holds fun _ hb _ => hb⟩
  | part hst => exact Apart.step_part ⟨rest, hpriv⟩ hst

end Blocks

/-! ## Who has the lock -/

/-- The process is inside the lock. -/
def Progress.Locked : Progress → Prop
  | .inside .. => True
  | .done .. => True
  | _ => False

/-- The copy of a read has failed, and the read is about to return with the lock. -/
def Progress.Keeps : Progress → Prop
  | .done (.read _ _) o left => o.uncopied ≠ 0 ∧ left.unlocks = false
  | _ => False

theorem Progress.Keeps.locked {g : Progress} (h : g.Keeps) : g.Locked := by
  cases g with
  | done c o left => exact trivial
  | _ => exact absurd h id

section Lock

variable {ι : Type}

/-- In one of the states `l` a read has been about to keep the lock. -/
def LockKept (l : List (Procs ι)) : Prop := ∃ b ∈ l, ∃ p, (b.progress p).Keeps

theorem lockKept_append {l : List (Procs ι)} {a : Procs ι} :
    LockKept (l ++ [a]) ↔ LockKept l ∨ ∃ p, (a.progress p).Keeps := by
  simp only [LockKept, List.mem_append, List.mem_singleton, or_and_right, exists_or, exists_eq_left]

/-- Who has the lock in `a`, after the states `l`. -/
structure Procs.Guarded (l : List (Procs ι)) (a : Procs ι) : Prop where
  one : ∀ p p', (a.progress p).Locked → (a.progress p').Locked → p = p'
  held : ∀ p, (a.progress p).Locked → a.sys.dev.lock = true
  kept : LockKept l → a.sys.dev.lock = true ∧ ∀ p, (a.progress p).Locked → (a.progress p).Keeps
  free : a.sys.dev.lock = true → (∃ p, (a.progress p).Locked) ∨ LockKept l
  reads : ∀ p c o left, a.progress p = .done c o left → left.unlocks = false →
    (a.progress p).Keeps ∧ LockKept l

variable {l : List (Procs ι)} {a a' : Procs ι} {p : ι}

theorem Procs.Guarded.lockKept (h : a.Guarded l) (hp : (a.progress p).Keeps) : LockKept l := by
  cases hg : a.progress p with
  | done c o left =>
    cases c with
    | read buf count => exact (h.reads p _ o left hg (by rw [hg] at hp; exact hp.2)).2
    | _ => rw [hg] at hp; exact absurd hp id
  | _ => rw [hg] at hp; exact absurd hp id

/-- Nobody goes into the lock or out of it. -/
theorem Procs.Guarded.quiet (h : a.Guarded l) (hsame : ∀ p', p' ≠ p → a'.progress p' = a.progress p')
    (hp : ¬ (a.progress p).Locked) (hp' : ¬ (a'.progress p).Locked) (hlock : a'.sys.dev.lock = a.sys.dev.lock) :
    a'.Guarded (l ++ [a']) := by
  have hback : ∀ p', (a'.progress p').Locked → a'.progress p' = a.progress p' := by
    intro p' hl
    apply hsame
    rintro rfl
    exact hp' hl
  have hforth : ∀ p', (a.progress p').Locked → a'.progress p' = a.progress p' := by
    intro p' hl
    apply hsame
    rintro rfl
    exact hp hl
  have hkept : LockKept (l ++ [a']) → LockKept l := by
    intro hk
    rcases lockKept_append.1 hk with hk | ⟨p', hk⟩
    · exact hk
    · rw [hback p' hk.locked] at hk
      exact h.lockKept hk
  constructor
  · intro p₁ p₂ h₁ h₂
    exact h.one p₁ p₂ (hback p₁ h₁ ▸ h₁) (hback p₂ h₂ ▸ h₂)
  · intro p' hl
    rw [hlock]
    exact h.held p' (hback p' hl ▸ hl)
  · intro hk
    obtain ⟨hl, hall⟩ := h.kept (hkept hk)
    refine ⟨hlock.trans hl, fun p' hp' => ?_⟩
    have hsame' := hback p' hp'
    rw [hsame'] at hp' ⊢
    exact hall p' hp'
  · intro hl
    rcases h.free (hlock.symm.trans hl) with ⟨p', hl'⟩ | hk
    · exact .inl ⟨p', (hforth p' hl').symm ▸ hl'⟩
    · exact .inr (lockKept_append.2 (.inl hk))
  · intro p' c o left hg hunl
    have hl : (a'.progress p').Locked := by rw [hg]; exact trivial
    have hsame' := hback p' hl
    rw [hsame'] at hg ⊢
    obtain ⟨hk, hkl⟩ := h.reads p' c o left hg hunl
    exact ⟨hk, lockKept_append.2 (.inl hkl)⟩

/-- Only `p` is inside. -/
theorem Procs.Guarded.of_inside (hno : ¬ LockKept l) (hp : (a.progress p).Locked)
    (honly : ∀ p', (a.progress p').Locked → p' = p) (hlock : a.sys.dev.lock = true)
    (hreads : ∀ c o left, a.progress p = .done c o left → left.unlocks = false → (a.progress p).Keeps) :
    a.Guarded (l ++ [a]) := by
  constructor
  · intro p₁ p₂ h₁ h₂
    exact (honly p₁ h₁).trans (honly p₂ h₂).symm
  · intro _ _
    exact hlock
  · intro hk
    rcases lockKept_append.1 hk with hk | ⟨p', hk⟩
    · exact absurd hk hno
    · refine ⟨hlock, fun p'' hp'' => ?_⟩
      rw [honly p'' hp'', ← honly p' hk.locked]
      exact hk
  · intro _
    exact .inl ⟨p, hp⟩
  · intro p' c o left hg hunl
    obtain rfl := honly p' (by rw [hg]; exact trivial)
    have hk := hreads c o left hg hunl
    exact ⟨hk, lockKept_append.2 (.inr ⟨_, hk⟩)⟩

/-- Nobody is inside. -/
theorem Procs.Guarded.of_outside (hnone : ∀ p, ¬ (a.progress p).Locked) (hlock : a.sys.dev.lock = true ↔ LockKept l) :
    a.Guarded (l ++ [a]) := by
  have hkept : LockKept (l ++ [a]) ↔ LockKept l := by
    rw [lockKept_append]
    exact or_iff_left fun ⟨p, hp⟩ => hnone p hp.locked
  constructor
  · intro p _ hp
    exact absurd hp (hnone p)
  · intro p hp
    exact absurd hp (hnone p)
  · intro hk
    exact ⟨hlock.2 (hkept.1 hk), fun p hp => absurd hp (hnone p)⟩
  · intro hl
    exact .inr (hkept.2 (hlock.1 hl))
  · intro p c o left hg
    exact absurd (by rw [hg]; exact trivial) (hnone p)

theorem Procs.Guarded.log (h : a.Guarded l) (p : ι) (c : Call) (o : Outcome) : (a.log p c o).Guarded l :=
  ⟨h.one, h.held, h.kept, h.free, h.reads⟩

/-- While another way out than `Keeps` is open to the process inside, no read has kept the lock. -/
theorem Procs.Guarded.not_kept (h : a.Guarded l) (hp : (a.progress p).Locked) (hk : ¬ (a.progress p).Keeps) :
    ¬ LockKept l := fun hl => hk ((h.kept hl).2 p hp)

theorem guarded_start (files : ι → File) : (Procs.start files).Guarded [] where
  one := fun _ _ hp => absurd hp id
  held := fun _ hp => absurd hp id
  kept := fun ⟨_, hb, _⟩ => by cases hb
  free := fun hl => by cases hl
  reads := fun _ _ _ _ hg => by cases hg

/-- What is known of `a`, after the states `l`. -/
structure Procs.Sound (k : Kernel) (l : List (Procs ι)) (a : Procs ι) : Prop where
  apart : ∃ ring pend, a.Apart k ring pend
  guarded : a.Guarded l

theorem sound_start (k : Kernel) (files : ι → File) : (Procs.start files).Sound k [] := by
  refine ⟨⟨[], [], [], holds_init k, fun _ => trivial, ?_, ?_⟩, guarded_start files⟩
  · intro p b hb
    cases hb
  · intro p p' _ b hb
    cases hb

end Lock

/-! ## One step -/

section Sound

variable {ι : Type} [DecidableEq ι] {k : Kernel} {l : List (Procs ι)} {a a' : Procs ι} {p p' : ι} {g : Progress}
  {r : Reply} {s : Sys}

@[simp] theorem move_self : (a.move p g s).progress p = g := Function.update_self ..

@[simp] theorem answer_self : (a.answer p r s).progress p = .idle := Function.update_self ..

theorem move_other (h : p' ≠ p) : (a.move p g s).progress p' = a.progress p' := Function.update_of_ne h _ _

theorem answer_other (h : p' ≠ p) : (a.answer p r s).progress p' = a.progress p' := Function.update_of_ne h _ _

/-- A call that ends outside of the lock. -/
theorem Procs.Guarded.answer (h : a.Guarded l) (hp : ¬ (a.progress p).Locked)
    (hlock : s.dev.lock = a.sys.dev.lock) : (a.answer p r s).Guarded (l ++ [a.answer p r s]) := by
  apply h.quiet (p := p) (fun _ he => answer_other he) hp _ hlock
  rw [answer_self]
  exact id

/-- A call goes on outside of the lock. -/
theorem Procs.Guarded.move (h : a.Guarded l) (hp : ¬ (a.progress p).Locked)
    (hg : ¬ g.Locked) (hlock : s.dev.lock = a.sys.dev.lock) : (a.move p g s).Guarded (l ++ [a.move p g s]) := by
  apply h.quiet (p := p) (fun _ he => move_other he) hp _ hlock
  rw [move_self]
  exact hg

/-- The only process inside goes out. -/
theorem Procs.Guarded.nobody (h : a.Guarded l) (hp : (a.progress p).Locked) {g : ι → Progress}
    (hsame : ∀ p' ≠ p, g p' = a.progress p') (hg : ¬ (g p).Locked) : ∀ p', ¬ (g p').Locked := by
  intro p' hl
  by_cases he : p' = p
  · exact hg (he ▸ hl)
  · rw [hsame p' he] at hl
    exact he (h.one p' p hl hp)

theorem Procs.Guarded.acquire (h : a.Guarded l) (hfree : a.sys.dev.lock = false) (c : Call) (o : Outcome)
    (q : Request) : (a.move p (.inside c o q) (a.sys.setLock true)).Guarded
      (l ++ [a.move p (.inside c o q) (a.sys.setLock true)]) := by
  have hnone : ∀ p', ¬ (a.progress p').Locked := fun p' hl => by
    have := h.held p' hl
    rw [hfree] at this
    cases this
  apply Guarded.of_inside (p := p)
  · intro hk
    have := (h.kept hk).1
    rw [hfree] at this
    cases this
  · rw [move_self]
    exact trivial
  · intro p' hl
    by_contra he
    rw [move_other he] at hl
    exact hnone p' hl
  · rfl
  · intro c' o' left hd
    rw [move_self] at hd
    cases hd

/-- The locked part of a call. -/
theorem Procs.Guarded.body (h : a.Guarded l) {c : Call} {o : Outcome} {q : Request} {left : Left}
    (hp : a.progress p = .inside c o q) (hlock : s.dev.lock = a.sys.dev.lock)
    (hread : left.unlocks = false → ∃ buf count, c = .read buf count ∧ o.uncopied ≠ 0) :
    (a.move p (.done c o left) s).Guarded (l ++ [a.move p (.done c o left) s]) := by
  have hl : (a.progress p).Locked := by
    rw [hp]
    exact trivial
  apply Guarded.of_inside (p := p)
  · exact h.not_kept hl (by rw [hp]; exact id)
  · rw [move_self]
    exact trivial
  · intro p' hl'
    by_contra he
    rw [move_other he] at hl'
    exact he (h.one p' p hl' hl)
  · exact hlock.trans (h.held p hl)
  · intro c' o' left' hd hunl
    rw [move_self] at hd ⊢
    obtain ⟨rfl, rfl, rfl⟩ := Progress.done.inj hd
    obtain ⟨buf, count, rfl, hu⟩ := hread hunl
    exact ⟨hu, hunl⟩

theorem Procs.Guarded.unlock (h : a.Guarded l) {c : Call} {o : Outcome} {left : Left}
    (hp : a.progress p = .done c o left) (hunl : left.unlocks = true) :
    (a.move p (.leaving c o left) (a.sys.setLock false)).Guarded
      (l ++ [a.move p (.leaving c o left) (a.sys.setLock false)]) := by
  have hl : (a.progress p).Locked := by
    rw [hp]
    exact trivial
  apply Guarded.of_outside
  · apply h.nobody hl (fun _ he => move_other he)
    rw [move_self]
    exact id
  · refine iff_of_false Bool.false_ne_true (h.not_kept hl ?_)
    rw [hp]
    cases c with
    | read buf count => exact fun hk => absurd hk.2 (by simp [hunl])
    | _ => exact id

/-- A read leaves with the lock. -/
theorem Procs.Guarded.keepLock (h : a.Guarded l) {c : Call} {o : Outcome} {left : Left}
    (hp : a.progress p = .done c o left) (hunl : left.unlocks = false) :
    (a.answer p r a.sys).Guarded (l ++ [a.answer p r a.sys]) := by
  have hl : (a.progress p).Locked := by
    rw [hp]
    exact trivial
  apply Guarded.of_outside
  · apply h.nobody hl (fun _ he => answer_other he)
    rw [answer_self]
    exact id
  · exact iff_of_true (h.held p hl) (h.reads p c o left hp hunl).2

/-- Without a failed copy. -/
theorem Procs.Sound.step_part (h : a.Sound k l) (hst : Procs.Step k a a') : a'.Guarded (l ++ [a']) := by
  have hout {g : Progress} {p : ι} (hp : a.progress p = g) (hg : ¬ g.Locked) : ¬ (a.progress p).Locked := by
    rw [hp]
    exact hg
  cases hst with
  | call p c o hp => exact h.guarded.move (hout hp id) id rfl
  | @refuse p c o e hp => exact (h.guarded.log p c o).answer (hout hp id) rfl
  | prepare hp => exact h.guarded.move (hout hp id) id rfl
  | @noMemory p src o heap hp => exact (h.guarded.log p (.write (some src)) o).answer (hout hp id) rfl
  | alloc hp => exact h.guarded.move (hout hp id) id rfl
  | copy hp => exact h.guarded.move (hout hp id) id rfl
  | @copyRefused p src o kbuf heap hp => exact (h.guarded.log p (.write (some src)) o).answer (hout hp id) rfl
  | @interrupt p c o q hp => exact (h.guarded.log p c o).answer (hout hp id) rfl
  | @acquire p c o q hp hi hfree => exact (h.guarded.log p c o).acquire hfree c o q
  | @locked p c o q left s hp he =>
    obtain ⟨ring, pend, rest, hpriv⟩ := h.apart
    obtain ⟨hq, hown⟩ := hpriv.inside hp
    obtain ⟨hdev, hread, -⟩ := hq.locked_any hpriv.holds hown he
    exact h.guarded.body hp (lock_of_locked hdev) hread
  | unlock hp hunl => exact h.guarded.unlock hp hunl
  | finish hp => exact h.guarded.answer (hout hp id) rfl

theorem Procs.Sound.step (h : a.Sound k l) (hst : Procs.AnyStep k a a') : a'.Sound k (l ++ [a']) := by
  obtain ⟨ring, pend, hapart⟩ := h.apart
  refine ⟨hapart.step hst, ?_⟩
  have hout {g : Progress} {p : ι} (hp : a.progress p = g) (hg : ¬ g.Locked) : ¬ (a.progress p).Locked := by
    rw [hp]
    exact hg
  cases hst with
  | call p c o hp => exact h.guarded.move (hout hp id) id rfl
  | @copyFailed p src o kbuf heap left hp => exact (h.guarded.log p (.write (some src)) o).answer (hout hp id) rfl
  | @ioctlFailed p cmd seekto o hp => exact (h.guarded.log p (.ioctl cmd seekto) o).answer (hout hp id) rfl
  | keepLock hp hunl => exact h.guarded.keepLock hp hunl
  | part hst => exact h.step_part hst

/-- Every state of every interleaving is sound. -/
theorem Procs.Sound.run {l' : List (Procs ι)} (h : a.Sound k l) (hrun : Run (Procs.AnyStep k) a l' a') :
    a'.Sound k (l ++ l') := by
  induction hrun with
  | nil =>
    rw [List.append_nil]
    exact h
  | snoc _ hst ih =>
    rw [← List.append_assoc]
    exact ih.step hst

end Sound

/-! ## Calls return -/

/-- How many parts of its call a process has left, at most. -/
def Progress.rank : Progress → Nat
  | .idle => 0
  | .called .. => 6
  | .allocated .. => 5
  | .waiting .. => 4
  | .inside .. => 3
  | .done .. => 2
  | .leaving .. => 1

section Return

variable {ι : Type} {k : Kernel} {l l' : List (Procs ι)} {a a' : Procs ι} {p : ι} {g : Progress} {r : Reply}
  {s : Sys} {ring : List (Nat × List Cell)} {pend : List Cell}

/-- The process waits for the lock, and no signal will wake it. -/
def Procs.Waits (a : Procs ι) (p : ι) : Prop :=
  ∃ c o q, a.progress p = .waiting c o q ∧ Invocation.interrupted ⟨some (a.file p), c, o⟩ = false

theorem not_waits (hp : a.progress p = g) (hg : ∀ c o q, g ≠ .waiting c o q) : ¬ a.Waits p :=
  fun ⟨c, o, q, hw, _⟩ => hg c o q (hp.symm.trans hw)

theorem not_copyFails (hp : a.progress p = g) (hg : ∀ cmd seekto o, g ≠ .called (.ioctl cmd seekto) o) :
    ¬ a.CopyFails p := fun ⟨cmd, seekto, o, hcall, _⟩ => hg cmd seekto o (hp.symm.trans hcall)

variable [DecidableEq ι]

/-- One part of the call of `p`. -/
structure Procs.Advances (k : Kernel) (a : Procs ι) (p : ι) (a' : Procs ι) : Prop where
  step : Procs.AnyStep k a a'
  others : ∀ p' ≠ p, a'.progress p' = a.progress p'
  rank : (a'.progress p).rank < (a.progress p).rank

theorem advances_move (hst : Procs.AnyStep k a (a.move p g s)) (hr : g.rank < (a.progress p).rank) :
    ∃ a', a.Advances k p a' := by
  refine ⟨_, hst, fun _ he => move_other he, ?_⟩
  rw [move_self]
  exact hr

theorem advances_answer (a₀ : Procs ι) (h₀ : a₀.progress = a.progress) (hst : Procs.AnyStep k a (a₀.answer p r s))
    (hp : a.progress p ≠ .idle) : ∃ a', a.Advances k p a' := by
  refine ⟨_, hst, fun p' he => (answer_other he).trans (congrFun h₀ p'), ?_⟩
  rw [answer_self]
  cases hg : a.progress p with
  | idle => exact absurd hg hp
  | _ => simp [Progress.rank]

/-- A part of `p` in which its copy does not fail. -/
theorem Procs.AnyStep.of_part (hst : Procs.Step k a a') (hothers : ∀ p' ≠ p, a'.progress p' = a.progress p')
    (hp : a.CopyFails p → ∀ c o q, a'.progress p ≠ .waiting c o q) : Procs.AnyStep k a a' := by
  apply AnyStep.part hst
  intro p' hfails
  by_cases he : p' = p
  · rw [he]
    exact hp (he ▸ hfails)
  · intro c o q hw
    obtain ⟨cmd, seekto, o', hcall, -⟩ := hfails
    rw [hothers p' he, hcall] at hw
    cases hw

/-- Before anything is allocated. -/
theorem advances_called {c : Call} {o : Outcome} (hp : a.progress p = .called c o) : ∃ a', a.Advances k p a' := by
  have hbusy : a.progress p ≠ .idle := by simp [hp]
  cases hr : c.refused (a.file p) with
  | some e =>
    refine advances_answer (a.log p c o) rfl (.of_part (p := p) (.refuse hp hr) ?_ ?_) hbusy
    · intro p' he
      exact answer_other he
    · intro _ c' o' q
      simp
  | none =>
    have hprepare {q : Request} (hq : c.request = some q) (hcopy : ¬ a.CopyFails p) : ∃ a', a.Advances k p a' := by
      refine advances_move (.of_part (p := p) (.prepare hp hr hq) (fun p' he => move_other he) ?_) ?_
      · exact fun hf => absurd hf hcopy
      · rw [hp]
        exact Nat.le_add_left 5 1
    cases c with
    | read buf count => exact hprepare rfl (not_copyFails hp (by simp))
    | llseek offset whence => exact hprepare rfl (not_copyFails hp (by simp))
    | ioctl cmd seekto =>
      by_cases hu : min o.uncopied 8 = 0
      · apply hprepare rfl
        rintro ⟨cmd', seekto', o', hcall, hne⟩
        obtain ⟨-, rfl⟩ := Progress.called.inj (hp.symm.trans hcall)
        exact hne hu
      · exact advances_answer (a.log p _ o) rfl (.ioctlFailed hp hr hu) hbusy
    | write buf =>
      cases buf with
      | none => simp [Call.refused] at hr
      | some src =>
        have hcopy : ¬ a.CopyFails p := not_copyFails hp (by simp)
        cases hk : kmalloc k src.length o.kmalloc a.sys.heap with
        | mk kbuf heap =>
          by_cases hnull : kbuf = .null
          · subst hnull
            refine advances_answer (a.log p _ o) rfl (.of_part (p := p) (.noMemory hp hk) ?_ ?_) hbusy
            · intro p' he
              exact answer_other he
            · exact fun hf => absurd hf hcopy
          · refine advances_move (.of_part (p := p) (.alloc hp hk hnull) (fun p' he => move_other he) ?_) ?_
            · exact fun hf => absurd hf hcopy
            · rw [hp]
              exact Nat.lt_succ_self 5

/-- The copy of a write succeeds or fails; it does not fault. -/
theorem Procs.Apart.advances_allocated (h : a.Apart k ring pend) {src : List UInt8} {o : Outcome} {kbuf : Ptr}
    (hp : a.progress p = .allocated src o kbuf) : ∃ a', a.Advances k p a' := by
  obtain ⟨rest, h⟩ := h
  obtain ⟨heap, cells, rest', hcpy, hpts, hholds, -, hcells, hlen⟩ := h.copies hp
  have hbusy : a.progress p ≠ .idle := by simp [hp]
  have hcopy : ¬ a.CopyFails p := not_copyFails hp (by simp)
  by_cases hleft : min o.uncopied src.length = 0
  · rw [hleft] at hcpy
    cases hpd : (a.file p).privateData with
    | false =>
      refine advances_answer (a.log p _ o) rfl (.of_part (p := p) (.copyRefused hp hcpy hpd) ?_ ?_) hbusy
      · intro p' he
        exact answer_other he
      · exact fun hf => absurd hf hcopy
    | true =>
      have hload : load kbuf 0 src.length heap = .ok ((cells.drop 0).take src.length) := by
        have hex : heap.Exactly _ := hholds.exactly
        exact load_points hpts hex (fun b hb => List.mem_append_right _ (List.mem_append_right _
          (List.mem_append_left _ hb))) (by omega)
      refine advances_move (.of_part (p := p) (.copy hp hcpy hload hpd) (fun p' he => move_other he) ?_) ?_
      · exact fun hf => absurd hf hcopy
      · rw [hp]
        exact Nat.lt_succ_self 4
  · exact advances_answer (a.log p _ o) rfl (.copyFailed hp hcpy hleft) hbusy

/-- A signal, or the free lock. -/
theorem advances_waiting {c : Call} {o : Outcome} {q : Request} (hp : a.progress p = .waiting c o q) :
    (∃ a', a.Advances k p a') ∨ a.Waits p ∧ a.sys.dev.lock = true := by
  have hcopy : ¬ a.CopyFails p := not_copyFails hp (by simp)
  cases hi : Invocation.interrupted ⟨some (a.file p), c, o⟩ with
  | true =>
    refine .inl (advances_answer (a.log p c o) rfl (.of_part (p := p) (.interrupt hp hi) ?_ ?_) (by simp [hp]))
    · intro p' he
      exact answer_other he
    · exact fun hf => absurd hf hcopy
  | false =>
    cases hl : a.sys.dev.lock with
    | true => exact .inr ⟨⟨c, o, q, hp, hi⟩, rfl⟩
    | false =>
      refine .inl ⟨_, .of_part (p := p) (.acquire hp hi hl) ?_ ?_, ?_, ?_⟩
      · intro p' he
        exact move_other he
      · exact fun hf => absurd hf hcopy
      · intro p' he
        exact move_other he
      · rw [move_self, hp]
        exact Nat.lt_succ_self 3

/-- With the lock held nothing has to be waited for. -/
theorem Procs.Apart.advances_inside (h : a.Apart k ring pend) {c : Call} {o : Outcome} {q : Request}
    (hp : a.progress p = .inside c o q) : ∃ a', a.Advances k p a' := by
  obtain ⟨rest, h⟩ := h
  obtain ⟨hq, hown⟩ := h.inside hp
  obtain ⟨left, s', he⟩ := hq.locked_total h.holds hown (a.file p)
  refine advances_move (.of_part (p := p) (.locked hp he) (fun p' he => move_other he) ?_) ?_
  · exact fun hf => absurd hf (not_copyFails hp (by simp))
  · rw [hp]
    exact Nat.lt_succ_self 2

/-- A process goes on with its call, or waits for the lock. -/
theorem Procs.Apart.advances (h : a.Apart k ring pend) (hp : a.progress p ≠ .idle) :
    (∃ a', a.Advances k p a') ∨ a.Waits p ∧ a.sys.dev.lock = true := by
  cases hg : a.progress p with
  | idle => exact absurd hg hp
  | called c o => exact .inl (advances_called hg)
  | allocated src o kbuf => exact .inl (h.advances_allocated hg)
  | waiting c o q => exact advances_waiting hg
  | inside c o q => exact .inl (h.advances_inside hg)
  | done c o left =>
    cases hunl : left.unlocks with
    | true =>
      refine .inl (advances_move (.of_part (p := p) (.unlock hg hunl) (fun p' he => move_other he) ?_) ?_)
      · exact fun hf => absurd hf (not_copyFails hg (by simp))
      · rw [hg]
        exact Nat.lt_succ_self 1
    | false => exact .inl (advances_answer a rfl (.keepLock hg hunl) hp)
  | leaving c o left =>
    refine .inl (advances_answer a rfl (.of_part (p := p) (.finish hg) ?_ ?_) hp)
    · intro p' he
      exact answer_other he
    · exact fun hf => absurd hf (not_copyFails hg (by simp))

theorem Procs.Sound.advances (h : a.Sound k l) (hp : a.progress p ≠ .idle) :
    (∃ a', a.Advances k p a') ∨ a.Waits p ∧ a.sys.dev.lock = true := by
  obtain ⟨ring, pend, hapart⟩ := h.apart
  exact hapart.advances hp

/-- A part of the call of `p`, or of that of the process inside the lock. -/
def Procs.Toward (k : Kernel) (p : ι) (a a' : Procs ι) : Prop :=
  ∃ q, (q = p ∨ (a.progress q).Locked) ∧ a.Advances k q a'

theorem Procs.Toward.step (h : a.Toward k p a') : Procs.AnyStep k a a' := by
  obtain ⟨q, -, hadv⟩ := h
  exact hadv.step

/-- The process inside comes out. -/
theorem Procs.Sound.leaves {q : ι} (h : a.Sound k l) (hp : (a.progress p).Locked) :
    ∃ l' a', Run (Procs.Toward k q) a l' a' ∧ ¬ (a'.progress p).Locked ∧ ∀ p' ≠ p, a'.progress p' = a.progress p' := by
  induction hn : (a.progress p).rank using Nat.strong_induction_on generalizing a l with
  | h n ih =>
    subst hn
    rcases h.advances (fun hi => by rw [hi] at hp; exact hp) with ⟨a₁, hadv⟩ | ⟨⟨c, o, q, hw, -⟩, -⟩
    · have htoward : a.Toward k q a₁ := ⟨p, .inr hp, hadv⟩
      by_cases hl : (a₁.progress p).Locked
      · obtain ⟨l', a', hrun, hout, hothers⟩ := ih _ hadv.rank (h.step hadv.step) hl rfl
        exact ⟨_, a', hrun.head htoward, hout, fun p' he => (hothers p' he).trans (hadv.others p' he)⟩
      · exact ⟨_, a₁, Run.nil.snoc htoward, hl, hadv.others⟩
    · rw [hw] at hp
      exact absurd hp id

/-- By its own steps and those of the process inside, a call comes to its end,
or to a lock that is kept. -/
theorem Procs.Sound.finishes (h : a.Sound k l) (p : ι) : ∃ l' a', Run (Procs.Toward k p) a l' a' ∧
    (a'.progress p = .idle ∨ a'.Waits p ∧ LockKept (l ++ l')) := by
  induction hn : (a.progress p).rank using Nat.strong_induction_on generalizing a l with
  | h n ih =>
    subst hn
    by_cases hidle : a.progress p = .idle
    · exact ⟨[], a, .nil, .inl hidle⟩
    -- its next part, once there is one
    have hgo {l₁ : List (Procs ι)} {a₁ a₂ : Procs ι} (h₁ : a₁.Sound k (l ++ l₁))
        (hrun : Run (Procs.Toward k p) a l₁ a₁) (hsame : a₁.progress p = a.progress p) (hadv : a₁.Advances k p a₂) :
        ∃ l' a', Run (Procs.Toward k p) a l' a' ∧ (a'.progress p = .idle ∨ a'.Waits p ∧ LockKept (l ++ l')) := by
      obtain ⟨l', a', hrun', hend⟩ := ih _ (hsame ▸ hadv.rank) (h₁.step hadv.step) rfl
      refine ⟨(l₁ ++ [a₂]) ++ l', a', (hrun.snoc ⟨p, .inl rfl, hadv⟩).append hrun', ?_⟩
      rw [← List.append_assoc, ← List.append_assoc]
      exact hend
    rcases h.advances hidle with ⟨a₁, hadv⟩ | ⟨hw, hlock⟩
    · exact hgo (by rw [List.append_nil]; exact h) .nil rfl hadv
    · rcases h.guarded.free hlock with ⟨p', hin⟩ | hk
      · have hne : p ≠ p' := by
          rintro rfl
          obtain ⟨c, o, q, hg, -⟩ := hw
          rw [hg] at hin
          exact hin
        obtain ⟨l₁, a₁, hrun, hout, hothers⟩ := h.leaves (q := p) hin
        have h₁ := h.run (hrun.mono fun _ _ => Procs.Toward.step)
        have hsame : a₁.progress p = a.progress p := hothers p hne
        rcases h₁.advances (hsame ▸ hidle) with ⟨a₂, hadv⟩ | ⟨hw₁, hlock₁⟩
        · exact hgo h₁ hrun hsame hadv
        · refine ⟨l₁, a₁, hrun, .inr ⟨hw₁, ?_⟩⟩
          rcases h₁.guarded.free hlock₁ with ⟨p'', hin''⟩ | hk
          · by_cases he : p'' = p'
            · exact absurd (he ▸ hin'') hout
            · rw [hothers p'' he] at hin''
              exact absurd (h.guarded.one p'' p' hin'' hin) he
          · exact hk
      · exact ⟨[], a, .nil, .inr ⟨hw, by rw [List.append_nil]; exact hk⟩⟩

/-- A process that does not wait takes a step, and not into the lock. -/
theorem kept_others (hothers : ∀ p' ≠ p, a'.progress p' = a.progress p' ∧ a'.file p' = a.file p')
    (hout : ¬ (a'.progress p).Locked) (hgoes : ¬ a.Waits p) :
    (∀ p, (a'.progress p).Locked → (a.progress p).Locked) ∧
      ∀ p, a.Waits p → a'.progress p = a.progress p ∧ a'.Waits p := by
  constructor
  · intro p' hl
    by_cases he : p' = p
    · exact absurd (he ▸ hl) hout
    · rw [(hothers p' he).1] at hl
      exact hl
  · intro p' hw
    have he : p' ≠ p := by
      rintro rfl
      exact hgoes hw
    obtain ⟨hprog, hfile⟩ := hothers p' he
    refine ⟨hprog, ?_⟩
    obtain ⟨c, o, q, hg, hi⟩ := hw
    exact ⟨c, o, q, hprog.trans hg, by rw [hfile]; exact hi⟩

/-- With the lock kept, one step. -/
theorem Procs.Guarded.kept_step (h : a.Guarded l) (hk : LockKept l) (hst : Procs.AnyStep k a a') :
    a'.sys.dev = a.sys.dev ∧ (∀ p, (a'.progress p).Locked → (a.progress p).Locked) ∧
      ∀ p, a.Waits p → a'.progress p = a.progress p ∧ a'.Waits p := by
  obtain ⟨hheld, hkeeps⟩ := h.kept hk
  have hmove {p : ι} {g₀ g : Progress} {s : Sys} (hp : a.progress p = g₀) (hg₀ : ∀ c o q, g₀ ≠ .waiting c o q)
      (hg : ¬ g.Locked) (hs : s.dev = a.sys.dev) :
      (a.move p g s).sys.dev = a.sys.dev ∧ (∀ p', ((a.move p g s).progress p').Locked → (a.progress p').Locked) ∧
        ∀ p', a.Waits p' → (a.move p g s).progress p' = a.progress p' ∧ (a.move p g s).Waits p' := by
    refine ⟨hs, kept_others (p := p) (fun p' he => ⟨move_other he, rfl⟩) ?_ (not_waits hp hg₀)⟩
    rw [move_self]
    exact hg
  have hanswer (a₀ : Procs ι) {p : ι} {r : Reply} {s : Sys} (h₀ : a₀.progress = a.progress) (hf : a₀.file = a.file)
      (hw : ¬ a.Waits p) (hs : s.dev = a.sys.dev) :
      (a₀.answer p r s).sys.dev = a.sys.dev ∧
        (∀ p', ((a₀.answer p r s).progress p').Locked → (a.progress p').Locked) ∧
        ∀ p', a.Waits p' → (a₀.answer p r s).progress p' = a.progress p' ∧ (a₀.answer p r s).Waits p' := by
    refine ⟨hs, kept_others (p := p) ?_ ?_ hw⟩
    · intro p' he
      exact ⟨(answer_other he).trans (congrFun h₀ p'), (Function.update_of_ne he _ _).trans (congrFun hf p')⟩
    · rw [answer_self]
      exact id
  cases hst with
  | call p c o hp => exact hmove hp (by simp) id rfl
  | @copyFailed p src o kbuf heap left hp =>
    exact hanswer (a.log p _ o) rfl rfl (not_waits hp (by simp)) rfl
  | @ioctlFailed p cmd seekto o hp => exact hanswer (a.log p _ o) rfl rfl (not_waits hp (by simp)) rfl
  | keepLock hp => exact hanswer a rfl rfl (not_waits hp (by simp)) rfl
  | part hst =>
    cases hst with
    | call p c o hp => exact hmove hp (by simp) id rfl
    | @refuse p c o e hp => exact hanswer (a.log p c o) rfl rfl (not_waits hp (by simp)) rfl
    | prepare hp => exact hmove hp (by simp) id rfl
    | @noMemory p src o heap hp => exact hanswer (a.log p _ o) rfl rfl (not_waits hp (by simp)) rfl
    | alloc hp => exact hmove hp (by simp) id rfl
    | copy hp => exact hmove hp (by simp) id rfl
    | @copyRefused p src o kbuf heap hp => exact hanswer (a.log p _ o) rfl rfl (not_waits hp (by simp)) rfl
    | @interrupt p c o q hp hi =>
      refine hanswer (a.log p c o) rfl rfl ?_ rfl
      rintro ⟨c', o', q', hw, hno⟩
      obtain ⟨rfl, rfl, -⟩ := Progress.waiting.inj (hp.symm.trans hw)
      rw [hi] at hno
      cases hno
    | acquire hp hi hfree =>
      rw [hheld] at hfree
      cases hfree
    | @locked p c o q left s hp he =>
      have hno := hkeeps p (by rw [hp]; exact trivial)
      rw [hp] at hno
      exact absurd hno id
    | @unlock p c o left hp hunl =>
      have hno := hkeeps p (by rw [hp]; exact trivial)
      rw [hp] at hno
      cases c with
      | read buf count =>
        have := hno.2
        rw [hunl] at this
        cases this
      | _ => exact absurd hno id
    | finish hp => exact hanswer a rfl rfl (not_waits hp (by simp)) rfl

end Return

/-- A process writes a line; the copy of another's read of it fails; the first one
seeks, and waits. -/
theorem faulted_read_run : ∃ l a, Run (Procs.AnyStep .pages4K) (Procs.start fun _ : Bool => ⟨true, 0⟩) l a ∧
    LockKept l ∧ a.Waits true ∧ a.progress false = .idle ∧ a.replies false = [⟨some 0, [some 97], 0⟩] := by
  have h0 : Run (Procs.AnyStep .pages4K) (Procs.start fun _ : Bool => ⟨true, 0⟩) [] _ := .nil
  have h1 := h0.snoc (.call true (.write (some [97, newline])) ⟨false, some 0, some 0, 0⟩ rfl)
  have h2 := h1.snoc (.of_part (p := true) (.alloc rfl rfl (by decide)) (fun _ he => move_other he)
    fun hf => absurd hf (not_copyFails rfl (by simp)))
  have h3 := h2.snoc (.of_part (p := true) (.copy rfl rfl rfl rfl) (fun _ he => move_other he)
    fun hf => absurd hf (not_copyFails rfl (by simp)))
  have h4 := h3.snoc (.of_part (p := true) (.acquire rfl rfl rfl) (fun _ he => move_other he)
    fun hf => absurd hf (not_copyFails rfl (by simp)))
  have h5 := h4.snoc (.of_part (p := true) (.locked rfl rfl) (fun _ he => move_other he)
    fun hf => absurd hf (not_copyFails rfl (by simp)))
  have h6 := h5.snoc (.of_part (p := true) (.unlock rfl rfl) (fun _ he => move_other he)
    fun hf => absurd hf (not_copyFails rfl (by simp)))
  have h7 := h6.snoc (.of_part (p := true) (.finish rfl) (fun _ he => answer_other he)
    fun hf => absurd hf (not_copyFails rfl (by simp)))
  have h8 := h7.snoc (.call false (.read true 2) ⟨false, none, none, 1⟩ rfl)
  have h9 := h8.snoc (.of_part (p := false) (.prepare rfl rfl rfl) (fun _ he => move_other he)
    fun hf => absurd hf (not_copyFails rfl (by simp)))
  have h10 := h9.snoc (.of_part (p := false) (.acquire rfl rfl rfl) (fun _ he => move_other he)
    fun hf => absurd hf (not_copyFails rfl (by simp)))
  have h11 := h10.snoc (.of_part (p := false) (.locked rfl rfl) (fun _ he => move_other he)
    fun hf => absurd hf (not_copyFails rfl (by simp)))
  have h12 := h11.snoc (.keepLock (p := false) rfl rfl)
  have h13 := h12.snoc (.call true (.llseek 0 SEEK_END) ⟨false, none, none, 0⟩ rfl)
  have h14 := h13.snoc (.of_part (p := true) (.prepare rfl rfl rfl) (fun _ he => move_other he)
    fun hf => absurd hf (not_copyFails rfl (by simp)))
  refine ⟨_, _, h14, ?_, ⟨_, _, _, rfl, rfl⟩, rfl, rfl⟩
  iterate 3 rw [lockKept_append]; left
  exact lockKept_append.2 (.inr ⟨false, Nat.one_ne_zero, rfl⟩)

/-- Take any processes with any files, and any interleaving of the parts of their
calls, failures and all: memory is used as it should be, at most one process is
inside the lock, and the lock is held exactly if one is, or a read whose copy has
failed has kept it. -/
theorem interleavings_safe {ι : Type} [DecidableEq ι] (k : Kernel) (files : ι → File) {l : List (Procs ι)}
    {a : Procs ι} (hrun : Run (Procs.AnyStep k) (Procs.start files) l a) :
    BlocksOk a.sys ∧ (∀ p p', (a.progress p).Locked → (a.progress p').Locked → p = p') ∧
      (a.sys.dev.lock = true ↔ (∃ p, (a.progress p).Locked) ∨ LockKept l) := by
  have h : a.Sound k l := (sound_start k files).run hrun
  obtain ⟨ring, pend, rest, hpriv⟩ := h.apart
  have hholds : Holds k a.sys ring pend rest := hpriv.holds
  refine ⟨hholds.toOwns.blocksOk, h.guarded.one, h.guarded.free, ?_⟩
  rintro (⟨p, hp⟩ | hk)
  · exact h.guarded.held p hp
  · exact (h.guarded.kept hk).1

theorem interleavings_safe_faulted : ∃ (l : List (Procs Bool)) (a : Procs Bool),
    LockKept l ∧ BlocksOk a.sys ∧ a.sys.dev.lock = true := by
  obtain ⟨l, a, hrun, hk, -⟩ := faulted_read_run
  obtain ⟨hok, -, hlock⟩ := interleavings_safe .pages4K (fun _ => ⟨true, 0⟩) hrun
  exact ⟨l, a, hk, hok, hlock.2 (.inr hk)⟩

/-- No deadlock but one: at any moment of any interleaving, the call of any process
can be brought to its return by its own parts and those of the process inside the
lock, unless these lead to a read that keeps the lock it waits for. -/
theorem calls_finish {ι : Type} [DecidableEq ι] (k : Kernel) (files : ι → File) {l : List (Procs ι)} {a : Procs ι}
    (hrun : Run (Procs.AnyStep k) (Procs.start files) l a) (p : ι) :
    ∃ l' a', Run (Procs.Toward k p) a l' a' ∧ (a'.progress p = .idle ∨ a'.Waits p ∧ LockKept (l ++ l')) :=
  ((sound_start k files).run hrun).finishes p

/-- The call that waits after `faulted_read_run`. -/
theorem calls_finish_faulted : ∃ (l l' : List (Procs Bool)) (a a' : Procs Bool), a.Waits true ∧
    Run (Procs.Toward .pages4K true) a l' a' ∧ (a'.progress true = .idle ∨ a'.Waits true ∧ LockKept (l ++ l')) := by
  obtain ⟨l, a, hrun, -, hw, -⟩ := faulted_read_run
  obtain ⟨l', a', hrun', hend⟩ := calls_finish .pages4K (fun _ => ⟨true, 0⟩) hrun true
  exact ⟨l, l', a, a', hw, hrun', hend⟩

/-- Once a read has kept the lock, whatever the processes do: nobody gets into the
lock, who waits for it waits on, and the device stays as it is. -/
theorem lock_kept_for_good {ι : Type} [DecidableEq ι] (k : Kernel) (files : ι → File) {l l' : List (Procs ι)}
    {a a' : Procs ι} (hrun : Run (Procs.AnyStep k) (Procs.start files) l a) (hk : LockKept l)
    (hrun' : Run (Procs.AnyStep k) a l' a') :
    a'.sys.dev = a.sys.dev ∧ (∀ p, (a'.progress p).Locked → (a.progress p).Locked) ∧
      ∀ p, a.Waits p → a'.progress p = a.progress p ∧ a'.Waits p := by
  have h : a.Sound k l := (sound_start k files).run hrun
  induction hrun' with
  | nil => exact ⟨rfl, fun _ hp => hp, fun _ hp => ⟨rfl, hp⟩⟩
  | @snoc l' m a' hrun' hst ih =>
    obtain ⟨hdev, hin, hwait⟩ := ih
    have hkm : LockKept (l ++ l') := by
      obtain ⟨b, hb, hp⟩ := hk
      exact ⟨b, List.mem_append_left _ hb, hp⟩
    obtain ⟨hdev', hin', hwait'⟩ := (h.run hrun').guarded.kept_step hkm hst
    refine ⟨hdev'.trans hdev, fun p hp => hin p (hin' p hp), fun p hp => ?_⟩
    obtain ⟨hsame, hw⟩ := hwait p hp
    obtain ⟨hsame', hw'⟩ := hwait' p hw
    exact ⟨hsame'.trans hsame, hw'⟩

/-- The reader of `faulted_read_run` reads again, and the other process waits on. -/
theorem lock_kept_for_good_faulted : ∃ a a' : Procs Bool, a.Waits true ∧ a.progress false = .idle ∧
    a'.progress false ≠ .idle ∧ a'.sys.dev = a.sys.dev ∧ a'.progress true = a.progress true ∧ a'.Waits true := by
  obtain ⟨l, a, hrun, hk, hw, hidle, -⟩ := faulted_read_run
  have hrun' := Run.nil.snoc (Procs.AnyStep.call (k := .pages4K) false (.read true 2) ⟨false, none, none, 0⟩ hidle)
  obtain ⟨hdev, -, hwait⟩ := lock_kept_for_good .pages4K (fun _ => ⟨true, 0⟩) hrun hk hrun'
  refine ⟨a, _, hw, hidle, ?_, hdev, hwait true hw⟩
  rw [move_self]
  exact Progress.noConfusion

end Aesd
