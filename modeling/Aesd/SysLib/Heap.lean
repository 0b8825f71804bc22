import Mathlib.Data.List.Nodup
/-!
# A heap of blocks

A block is a list of cells under an id. An allocator may hand out any id that
is not live: `fresh` turns an arbitrary hint into such an id, so that a theorem
for every hint covers every allocator, including one that reuses freed ids.

`Exactly h bs` says that `bs` lists the live blocks of `h` with their contents.
The rules `alloc`, `free` and `store` change one block and keep the rest, so a
proof follows the blocks it names and carries the others along untouched.
-/

namespace SysLib

/-- The live blocks by id; no id from `bound` on has been used. -/
structure Heap (α : Type) where
  block : Nat → Option (List α)
  bound : Nat
  block_bound : ∀ i, bound ≤ i → block i = none

namespace Heap

variable {α : Type}

def empty : Heap α := ⟨fun _ => none, 0, fun _ _ => rfl⟩

/-- Make `c` the contents of block `i`; `none` frees it. -/
def set (h : Heap α) (i : Nat) (c : Option (List α)) : Heap α where
  block j := if j = i then c else h.block j
  bound := max h.bound (i + 1)
  block_bound j hj := by
    rw [if_neg (by omega)]
    exact h.block_bound j (by omega)

/-- The id an allocation gets: the hint if it is not live. -/
def fresh (h : Heap α) (hint : Nat) : Nat :=
  if (h.block hint).isNone then hint else h.bound

/-- Block `i` has been allocated and not freed. -/
def Live (h : Heap α) (i : Nat) : Prop := (h.block i).isSome

@[simp] theorem set_block (h : Heap α) (i : Nat) (c : Option (List α)) (j : Nat) :
    (h.set i c).block j = if j = i then c else h.block j := rfl

@[simp] theorem empty_block (i : Nat) : (empty : Heap α).block i = none := rfl

theorem fresh_block (h : Heap α) (hint : Nat) : h.block (h.fresh hint) = none := by
  unfold fresh
  split
  · rename_i hn; exact Option.isNone_iff_eq_none.1 hn
  · exact h.block_bound _ (Nat.le_refl _)

/-! ## The live blocks, listed -/

/-- `bs` lists the live blocks and their contents, each block once. -/
structure Exactly (h : Heap α) (bs : List (Nat × List α)) : Prop where
  nodup : (bs.map Prod.fst).Nodup
  block_iff : ∀ i c, h.block i = some c ↔ (i, c) ∈ bs

namespace Exactly

variable {h : Heap α} {bs : List (Nat × List α)} {i : Nat} {c : List α}

theorem perm (he : Exactly h bs) {bs' : List (Nat × List α)} (hp : bs.Perm bs') : Exactly h bs' :=
  ⟨(hp.map _).nodup_iff.1 he.nodup, fun i c => (he.block_iff i c).trans hp.mem_iff⟩

theorem block (he : Exactly h bs) (hm : (i, c) ∈ bs) : h.block i = some c :=
  (he.block_iff i c).2 hm

theorem head (he : Exactly h ((i, c) :: bs)) : h.block i = some c := he.block List.mem_cons_self

theorem live_iff (he : Exactly h bs) : h.Live i ↔ i ∈ bs.map Prod.fst := by
  unfold Live
  rw [Option.isSome_iff_exists]
  simp only [he.block_iff, List.mem_map, Prod.exists, exists_and_right, exists_eq_right]

theorem fresh_not_mem (he : Exactly h bs) (hint : Nat) : h.fresh hint ∉ bs.map Prod.fst := by
  rw [← he.live_iff, Live, fresh_block]
  simp

theorem alloc (he : Exactly h bs) (hint : Nat) (c : List α) :
    Exactly (h.set (h.fresh hint) (some c)) ((h.fresh hint, c) :: bs) := by
  have hn := he.fresh_not_mem hint
  refine ⟨List.nodup_cons.2 ⟨hn, he.nodup⟩, fun j d => ?_⟩
  rw [set_block, List.mem_cons, Prod.mk.injEq]
  by_cases hj : j = h.fresh hint
  · subst hj
    have : (h.fresh hint, d) ∉ bs := fun hm => hn (List.mem_map_of_mem hm)
    simp [this, eq_comm]
  · simp [hj, he.block_iff]

theorem free (he : Exactly h ((i, c) :: bs)) : Exactly (h.set i none) bs := by
  obtain ⟨hi, hbs⟩ := List.nodup_cons.1 he.nodup
  refine ⟨hbs, fun j d => ?_⟩
  rw [set_block]
  by_cases hj : j = i
  · subst hj
    have : (j, d) ∉ bs := fun hm => hi (List.mem_map.2 ⟨_, hm, rfl⟩)
    simp [this]
  · simp [hj, he.block_iff]

theorem store (he : Exactly h ((i, c) :: bs)) (c' : List α) :
    Exactly (h.set i (some c')) ((i, c') :: bs) := by
  obtain ⟨hi, hbs⟩ := List.nodup_cons.1 he.nodup
  refine ⟨List.nodup_cons.2 ⟨hi, hbs⟩, fun j d => ?_⟩
  rw [set_block, List.mem_cons, Prod.mk.injEq]
  by_cases hj : j = i
  · subst hj
    have : (j, d) ∉ bs := fun hm => hi (List.mem_map.2 ⟨_, hm, rfl⟩)
    simp [this, eq_comm]
  · simp [hj, he.block_iff]

end Exactly

theorem exactly_empty : Exactly (empty : Heap α) [] := ⟨by simp, by simp⟩

/-- A heap that lists no block has none. -/
theorem Exactly.nil {h : Heap α} (he : Exactly h []) (i : Nat) : ¬ h.Live i := by
  rw [he.live_iff]; simp

/-! ## Writing inside a block -/

/-- `c` with `data` stored from offset `off` on. -/
def overwrite (c : List α) (off : Nat) (data : List α) : List α :=
  c.take off ++ data ++ c.drop (off + data.length)

/-- Storing over the tail that follows `c`. -/
theorem overwrite_tail (c t data : List α) (h : t.length = data.length) :
    overwrite (c ++ t) c.length data = c ++ data := by
  simp [overwrite, ← h]

theorem overwrite_all (c data : List α) (h : c.length = data.length) : overwrite c 0 data = data := by
  simpa using overwrite_tail [] c data h

end Heap

end SysLib
