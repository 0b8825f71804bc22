import Aesd.SysLib.Heap
import Aesd.SysLib.Runs
import Aesd.CircularBuffer
/-!
# The kernel the driver runs in

The allocator, the copies between user and kernel space, and the error codes.
None of this code is in the repository; the model follows its documentation:
`kmalloc(0)` gives `ZERO_SIZE_PTR`, `kfree` takes `NULL` and `ZERO_SIZE_PTR`,
`krealloc` to size 0 frees, a failing `krealloc` leaves its argument alone, and
a copy returns the number of bytes it did not copy. An `Outcome` fixes what may
go either way in one driver call.

A wrong pointer or a range outside its block is a `Fault`, so "this never
happens" is a theorem about the driver.
-/

namespace Aesd

open SysLib

/-- A byte of kernel memory; `none` until something is stored in it. -/
abbrev Cell := Option UInt8

abbrev Memory := Heap Cell

/-- The kernel: the largest request `kmalloc` serves, which is far below the
size of the address space. -/
structure Kernel where
  kmallocMaxSize : Nat
  kmallocMaxSize_le : kmallocMaxSize ≤ 2 ^ 59

/-- `KMALLOC_MAX_SIZE` with 4 KiB pages: 4 MiB. -/
def Kernel.pages4K : Kernel := ⟨4194304, by decide⟩

/-- No memory for a request of `size` bytes; a request for none is always served. -/
def Kernel.Refuses (k : Kernel) (hint : Option Nat) (size : Nat) : Prop :=
  size ≠ 0 ∧ (hint = none ∨ k.kmallocMaxSize < size)

instance (k : Kernel) (hint : Option Nat) (size : Nat) : Decidable (k.Refuses hint size) :=
  inferInstanceAs (Decidable (_ ∧ _))

/-- How the kernel calls in one driver call go: whether a signal interrupts
`mutex_lock_interruptible`, whether and where `kmalloc` and `krealloc` find
memory, and how many bytes the user copy would leave uncopied. -/
structure Outcome where
  interrupted : Bool
  kmalloc : Option Nat
  krealloc : Option Nat
  uncopied : Nat
  deriving DecidableEq

/-- A use of memory the driver has no right to. -/
inductive Fault where
  | kfree (p : Ptr)
  | krealloc (p : Ptr)
  | access (p : Ptr) (off n : Nat)
  deriving DecidableEq, Repr

def ENOMEM : Int := 12
def EFAULT : Int := 14
def EINVAL : Int := 22
def ENOTTY : Int := 25
def ERESTARTSYS : Int := 512

/-- A 64-bit value as a `loff_t` or `ssize_t`. -/
def toLoffT (x : Int) : Int := x.bmod (2 ^ 64)

/-- A 64-bit value as a `size_t`. -/
def toSizeT (x : Int) : Nat := (x % 2 ^ 64).toNat

/-! ## Memory -/

/-- The cells `p` points to; none for `NULL` or a freed block. -/
def cellsAt (h : Memory) : Ptr → Option (List Cell)
  | .null => none
  | .zeroSize => some []
  | .block i => h.block i

def kmalloc (k : Kernel) (size : Nat) (hint : Option Nat) (h : Memory) : Ptr × Memory :=
  if size = 0 then (.zeroSize, h)
  else
    match hint with
    | none => (.null, h)
    | some hint =>
      if size ≤ k.kmallocMaxSize then
        (.block (h.fresh hint), h.set (h.fresh hint) (some (List.replicate size none)))
      else (.null, h)

def kfree (p : Ptr) (h : Memory) : Except Fault Memory :=
  match p with
  | .null => .ok h
  | .zeroSize => .ok h
  | .block i => if (h.block i).isSome then .ok (h.set i none) else .error (.kfree p)

/-- The new block may be the old one, or any id that is not live. -/
def krealloc (k : Kernel) (p : Ptr) (newSize : Nat) (hint : Option Nat) (h : Memory) :
    Except Fault (Ptr × Memory) :=
  match p with
  | .null => .ok (kmalloc k newSize hint h)
  | .zeroSize => .ok (kmalloc k newSize hint h)
  | .block i =>
    match h.block i with
    | none => .error (.krealloc p)
    | some old =>
      if newSize = 0 then .ok (.zeroSize, h.set i none)
      else
        match hint with
        | none => .ok (.null, h)
        | some hint =>
          if newSize ≤ k.kmallocMaxSize then
            let h := h.set i none
            let cells := (old ++ List.replicate (newSize - old.length) none).take newSize
            .ok (.block (h.fresh hint), h.set (h.fresh hint) (some cells))
          else .ok (.null, h)

/-- The `n` bytes at `p + off`. -/
def load (p : Ptr) (off n : Nat) (h : Memory) : Except Fault (List Cell) :=
  match cellsAt h p with
  | none => .error (.access p off n)
  | some c => if off + n ≤ c.length then .ok ((c.drop off).take n) else .error (.access p off n)

/-- `data` stored at `p + off`. -/
def store (p : Ptr) (off : Nat) (data : List Cell) (h : Memory) : Except Fault Memory :=
  match cellsAt h p with
  | none => .error (.access p off data.length)
  | some c =>
    if off + data.length ≤ c.length then
      match p with
      | .block i => .ok (h.set i (some (Heap.overwrite c off data)))
      | _ => .ok h
    else .error (.access p off data.length)

/-- `memcpy(dst + off, src, n)` -/
def memcpy (dst : Ptr) (off : Nat) (src : Ptr) (n : Nat) (h : Memory) : Except Fault Memory := do
  store dst off (← load src 0 n h) h

/-! ## Copies between user and kernel space -/

/-- `copy_to_user(to, p + off, n)`: the bytes that arrive, and how many do not. -/
def copyToUser (p : Ptr) (off n uncopied : Nat) (h : Memory) : Except Fault (List Cell × Nat) := do
  let cells ← load p off n h
  .ok (cells.take (n - min uncopied n), min uncopied n)

/-- `copy_from_user(p, src, n)` for the `n` bytes of `src`; the kernel zeroes
what it could not copy. Returns the number of bytes not copied. -/
def copyFromUser (p : Ptr) (src : List UInt8) (uncopied : Nat) (h : Memory) :
    Except Fault (Memory × Nat) := do
  let left := min uncopied src.length
  let cells := (src.take (src.length - left)).map some ++ List.replicate left (some 0)
  let h ← store p 0 cells h
  .ok (h, left)

/-! ## What the calls do to the live blocks -/

/-- `p` is the start of an allocation that holds `c`. -/
inductive Points : Ptr → List Cell → Prop
  | zeroSize : Points .zeroSize []
  | block (i : Nat) (c : List Cell) : c ≠ [] → Points (.block i) c

/-- The block behind `p`, if there is one. -/
def Ptr.blocks (p : Ptr) (c : List Cell) : List (Nat × List Cell) :=
  match p with
  | .block i => [(i, c)]
  | _ => []

section Calls

variable {k : Kernel} {h : Memory} {bs : List (Nat × List Cell)} {p : Ptr} {c : List Cell}

theorem Points.ne_null (hp : Points p c) : p ≠ .null := by cases hp <;> simp

/-- The same allocation after its bytes changed. -/
theorem Points.of_length (hp : Points p c) {c' : List Cell} (hl : c'.length = c.length) : Points p c' := by
  cases hp with
  | zeroSize => rw [List.length_nil] at hl; rw [List.length_eq_zero_iff.1 hl]; exact .zeroSize
  | block i c hc =>
    refine .block i c' fun he => hc ?_
    rw [he, List.length_nil] at hl
    exact List.length_eq_zero_iff.1 hl.symm

theorem cellsAt_points (hp : Points p c) (he : h.Exactly bs) (hm : ∀ b ∈ p.blocks c, b ∈ bs) :
    cellsAt h p = some c := by
  cases hp with
  | zeroSize => rfl
  | block i c _ => exact he.block (hm (i, c) (List.mem_singleton_self _))

theorem load_points (hp : Points p c) (he : h.Exactly bs) (hm : ∀ b ∈ p.blocks c, b ∈ bs) {off n : Nat}
    (hn : off + n ≤ c.length) : load p off n h = .ok ((c.drop off).take n) := by
  simp only [load, cellsAt_points hp he hm, if_pos hn]

theorem store_points (hp : Points p c) (he : h.Exactly (p.blocks c ++ bs)) {off : Nat} {data : List Cell}
    (hn : off + data.length ≤ c.length) :
    ∃ h', store p off data h = .ok h' ∧ h'.Exactly (p.blocks (Heap.overwrite c off data) ++ bs) := by
  have hc := cellsAt_points hp he fun b hb => List.mem_append_left _ hb
  simp only [store, hc, if_pos hn]
  cases hp with
  | zeroSize => exact ⟨h, rfl, he⟩
  | block i c _ => exact ⟨_, rfl, he.store _⟩

theorem kfree_points (hp : Points p c) (he : h.Exactly (p.blocks c ++ bs)) :
    ∃ h', kfree p h = .ok h' ∧ h'.Exactly bs := by
  cases hp with
  | zeroSize => exact ⟨h, rfl, he⟩
  | block i c _ => exact ⟨_, by simp [kfree, he.head], he.free⟩

/-- `kmalloc` fails and changes nothing, or gives a block of its own. -/
theorem kmalloc_cases (he : h.Exactly bs) (size : Nat) (hint : Option Nat) :
    (k.Refuses hint size ∧ kmalloc k size hint h = (.null, h)) ∨
    (¬ k.Refuses hint size ∧ size ≤ k.kmallocMaxSize ∧ ∃ p h', kmalloc k size hint h = (p, h') ∧
      Points p (List.replicate size none) ∧ h'.Exactly (p.blocks (List.replicate size none) ++ bs)) := by
  unfold kmalloc Kernel.Refuses
  by_cases h0 : size = 0
  · subst h0; exact .inr ⟨by simp, Nat.zero_le _, .zeroSize, h, rfl, .zeroSize, he⟩
  · rw [if_neg h0]
    cases hint with
    | none => exact .inl ⟨⟨h0, .inl rfl⟩, rfl⟩
    | some hint =>
      by_cases hs : size ≤ k.kmallocMaxSize
      · exact .inr ⟨by simpa using fun _ => hs, hs, _, _, if_pos hs, .block _ _ (by simpa using h0), he.alloc hint _⟩
      · exact .inl ⟨⟨h0, .inr (Nat.not_le.1 hs)⟩, if_neg hs⟩

/-- `krealloc` to a larger size, in the same two cases: it fails and leaves its
argument, or the block moves and grows. -/
theorem krealloc_cases (hp : Points p c) (he : h.Exactly (p.blocks c ++ bs)) (n : Nat) (hint : Option Nat) :
    (k.Refuses hint (c.length + n) ∧ krealloc k p (c.length + n) hint h = .ok (.null, h)) ∨
    (¬ k.Refuses hint (c.length + n) ∧ c.length + n ≤ k.kmallocMaxSize ∧
      ∃ p' h', krealloc k p (c.length + n) hint h = .ok (p', h') ∧
      Points p' (c ++ List.replicate n none) ∧ h'.Exactly (p'.blocks (c ++ List.replicate n none) ++ bs)) := by
  cases hp with
  | zeroSize =>
    simp only [krealloc, List.length_nil, Nat.zero_add, List.nil_append]
    rcases kmalloc_cases he n hint with ⟨hr, e⟩ | ⟨hr, hs, p, h', e, hp, he'⟩
    · exact .inl ⟨hr, by rw [e]⟩
    · exact .inr ⟨hr, hs, p, h', by rw [e], hp, he'⟩
  | block i c hc =>
    have hpos : c.length + n ≠ 0 := by
      have := List.length_pos_iff.2 hc; omega
    unfold Kernel.Refuses
    simp only [krealloc, he.head, if_neg hpos]
    cases hint with
    | none => exact .inl ⟨⟨hpos, .inl rfl⟩, rfl⟩
    | some hint =>
      by_cases hs : c.length + n ≤ k.kmallocMaxSize
      · have hcells : (c ++ List.replicate (c.length + n - c.length) (none : Cell)).take (c.length + n) =
            c ++ List.replicate n none := by
          rw [Nat.add_sub_cancel_left, List.take_of_length_le (by simp)]
        refine .inr ⟨by simpa using fun _ => hs, hs, _, _, if_pos hs, .block _ _ (by simp [hc]), ?_⟩
        rw [hcells]
        exact he.free.alloc hint _
      · exact .inl ⟨⟨hpos, .inr (Nat.not_le.1 hs)⟩, if_neg hs⟩

end Calls

end Aesd
