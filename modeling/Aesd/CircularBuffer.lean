import Aesd.SysLib.Window
/-!
# The circular buffer

`aesd-circular-buffer.c` and `.h`. The buffer never looks at the bytes behind a
`buffptr`; `Kernel.lean` gives them a memory. `size_t` values are `Nat`s below
`2 ^ 64`, and every sum the source forms in `size_t` is reduced modulo `2 ^ 64`.
The `uint8_t` offsets are advanced in `int`, so they never wrap.

A `NULL` buffer or entry is left out: the driver only passes the addresses of
its own device.
-/

namespace Aesd

/-- A kernel pointer to the start of an allocation. `kmalloc(0)` returns
`ZERO_SIZE_PTR`, which is not `NULL` and points to no byte. -/
inductive Ptr where
  | null
  | zeroSize
  | block (id : Nat)
  deriving DecidableEq, Repr

/-- `AESDCHAR_MAX_WRITE_OPERATIONS_SUPPORTED` -/
abbrev maxWriteOperationsSupported : Nat := 10

/-- The number of values of a `size_t`. -/
abbrev sizeTMod : Nat := 2 ^ 64

/-- `-1` as a `size_t`. -/
def sizeTMax : Nat := sizeTMod - 1

/-- `struct aesd_buffer_entry` -/
structure BufferEntry where
  buffptr : Ptr
  size : Nat
  deriving DecidableEq, Repr

/-- An entry as `memset` leaves it. -/
def BufferEntry.zero : BufferEntry := ⟨.null, 0⟩

/-- `struct aesd_circular_buffer` -/
structure CircularBuffer where
  entry : Vector BufferEntry maxWriteOperationsSupported
  inOffs : Nat
  outOffs : Nat
  full : Bool
  deriving DecidableEq

namespace CircularBuffer

/-- `buffer->entry[i]`; the driver only reads slots below 10. -/
def slot (b : CircularBuffer) (i : Nat) : BufferEntry := b.entry.toList.getD i .zero

/-- `aesd_circular_buffer_init` -/
def init : CircularBuffer where
  entry := Vector.replicate maxWriteOperationsSupported .zero
  inOffs := 0
  outOffs := 0
  full := false

/-- `aesd_circular_buffer_add_entry`: the pointer to free, and the buffer. -/
def addEntry (b : CircularBuffer) (addEntry : BufferEntry) : Ptr × CircularBuffer :=
  let buffptrToFree := if b.full then (b.slot b.outOffs).buffptr else .null
  let outOffs := if b.full then (b.outOffs + 1) % maxWriteOperationsSupported else b.outOffs
  let entry := b.entry.setIfInBounds b.inOffs addEntry
  let inOffs := (b.inOffs + 1) % maxWriteOperationsSupported
  (buffptrToFree, ⟨entry, inOffs, outOffs, if inOffs = outOffs then true else b.full⟩)

/-- The loop of `aesd_circular_buffer_get_length`, over the slots that are left. -/
def getLengthFrom : List BufferEntry → Nat → Nat
  | [], totalSize => totalSize
  | e :: es, totalSize =>
    getLengthFrom es (if e.buffptr = .null then totalSize else (totalSize + e.size) % sizeTMod)

/-- `aesd_circular_buffer_get_length` -/
def getLength (b : CircularBuffer) : Nat := getLengthFrom b.entry.toList 0

/-- How many slots the two searches visit from `out_offs` on. They return before
they get here when the buffer is empty. -/
def numIterations (b : CircularBuffer) : Nat :=
  if b.full then maxWriteOperationsSupported
  else if b.inOffs > b.outOffs then b.inOffs - b.outOffs
  else (maxWriteOperationsSupported - b.outOffs) + b.inOffs

/-- The buffer empty check of the two searches. -/
def isEmpty (b : CircularBuffer) : Bool := b.full = false && b.inOffs = b.outOffs

/-- The loop of `aesd_circular_buffer_find_seekto_fpos`: `left` iterations from
iteration `i` on; the slot it stops at and the bytes before it. -/
def seektoLoop (b : CircularBuffer) (writeCmd : Nat) : (left i posn cumulative : Nat) → Nat × Nat
  | 0, _, posn, cumulative => (posn, cumulative)
  | left + 1, i, posn, cumulative =>
    if i = writeCmd then (posn, cumulative)
    else b.seektoLoop writeCmd left (i + 1) ((posn + 1) % maxWriteOperationsSupported)
      ((cumulative + (b.slot posn).size) % sizeTMod)

/-- `aesd_circular_buffer_find_seekto_fpos` -/
def findSeektoFpos (b : CircularBuffer) (writeCmd writeCmdOffset : Nat) : Nat :=
  if b.isEmpty then sizeTMax
  else if writeCmd > b.numIterations then sizeTMax
  else
    let (posn, cumulative) := b.seektoLoop writeCmd b.numIterations 0 b.outOffs 0
    if writeCmdOffset > (b.slot posn).size then sizeTMax
    else (cumulative + writeCmdOffset) % sizeTMod

/-- The inner loop of `aesd_circular_buffer_find_entry_offset_for_fpos`, with
`left` bytes of the entry to go: the `j` it stops at, or the bytes counted. -/
def scanEntry (charOffset : Nat) : (left j cumulative : Nat) → Nat ⊕ Nat
  | 0, _, cumulative => .inr cumulative
  | left + 1, j, cumulative =>
    if cumulative = charOffset then .inl j
    else scanEntry charOffset left (j + 1) ((cumulative + 1) % sizeTMod)

/-- The outer loop, with `left` slots to go: the slot and the offset in it. -/
def scanSlots (b : CircularBuffer) (charOffset : Nat) :
    (left posn cumulative : Nat) → Option (Nat × Nat)
  | 0, _, _ => none
  | left + 1, posn, cumulative =>
    match scanEntry charOffset (b.slot posn).size 0 cumulative with
    | .inl j => some (posn, j)
    | .inr cumulative =>
      b.scanSlots charOffset left ((posn + 1) % maxWriteOperationsSupported) cumulative

/-- `aesd_circular_buffer_find_entry_offset_for_fpos`: the slot of the entry it
points to (`none` for `NULL`), and `*entry_offset_byte_rtn` afterwards. -/
def findEntryOffsetForFpos (b : CircularBuffer) (charOffset entryOffsetByteRtn : Nat) :
    Option Nat × Nat :=
  if b.isEmpty then (none, entryOffsetByteRtn)
  else
    match b.scanSlots charOffset b.numIterations b.outOffs 0 with
    | some (posn, j) => (some posn, j)
    | none => (none, 0)

/-! ## The entries a buffer holds -/

/-- How many entries the buffer holds. -/
def count (b : CircularBuffer) : Nat :=
  if b.full then maxWriteOperationsSupported
  else (b.inOffs + maxWriteOperationsSupported - b.outOffs) % maxWriteOperationsSupported

/-- The entries, oldest first: the slots from `out_offs` on. -/
def entries (b : CircularBuffer) : List BufferEntry :=
  SysLib.window maxWriteOperationsSupported b.slot b.outOffs b.count

/-- The offsets are slots, and a full buffer has come around. -/
structure WellFormed (b : CircularBuffer) : Prop where
  inOffs_lt : b.inOffs < maxWriteOperationsSupported
  outOffs_lt : b.outOffs < maxWriteOperationsSupported
  full_eq : b.full = true → b.inOffs = b.outOffs

/-- The slots that hold no entry are as `memset` left them. -/
def Blank (b : CircularBuffer) : Prop :=
  ∀ i, b.count ≤ i → i < maxWriteOperationsSupported →
    b.slot ((b.outOffs + i) % maxWriteOperationsSupported) = .zero

/-! ## Adding entries -/

theorem slot_lt (b : CircularBuffer) {i : Nat} (h : i < maxWriteOperationsSupported) :
    b.slot i = b.entry[i] := by
  simp [slot, List.getD_eq_getElem?_getD, h]

theorem count_le (b : CircularBuffer) : b.count ≤ maxWriteOperationsSupported := by
  unfold count
  split
  · exact Nat.le_refl _
  · exact Nat.le_of_lt (Nat.mod_lt _ (by decide))

@[simp] theorem entries_length (b : CircularBuffer) : b.entries.length = b.count := by
  simp [entries]

/-- The slot the next entry goes to is the one behind the window. -/
theorem WellFormed.inOffs_eq {b : CircularBuffer} (h : b.WellFormed) :
    b.inOffs = (b.outOffs + b.count) % maxWriteOperationsSupported := by
  obtain ⟨h1, h2, h3⟩ := h
  unfold count
  simp only [maxWriteOperationsSupported] at *
  split
  · rename_i hf; have := h3 hf; omega
  · omega

theorem WellFormed.count_lt_iff {b : CircularBuffer} (h : b.WellFormed) :
    b.count < maxWriteOperationsSupported ↔ b.full = false := by
  obtain ⟨h1, h2, -⟩ := h
  unfold count
  simp only [maxWriteOperationsSupported] at *
  cases b.full
  · simp only [Bool.false_eq_true, if_false, iff_true]; omega
  · simp

theorem addEntry_slot (b : CircularBuffer) (e : BufferEntry) (h : b.inOffs < maxWriteOperationsSupported)
    (i : Nat) : (b.addEntry e).2.slot i = Function.update b.slot b.inOffs e i := by
  unfold addEntry slot
  simp only [Vector.toList_setIfInBounds]
  by_cases hi : i = b.inOffs
  · subst hi; simp [List.getD_eq_getElem?_getD, h]
  · rw [Function.update_of_ne hi]
    simp [List.getD_eq_getElem?_getD, List.getElem?_set_ne (Ne.symm hi)]

end CircularBuffer

end Aesd
