import Aesd.Driver
import Aesd.Lookup
/-!
# What the device's memory holds

`Holds k s ring pend rest` lists the live blocks of a system: those of the
stored entries, oldest first, the one behind `new_entry` with the pending bytes,
and the rest, which the device has lost or a call is still using. It also says
what is always true of the bytes: stored entries end a line, pending bytes do
not, and the stored entries are the latest ones committed.

`aesdWrite_effect` says once what a write does to these lists. The results about
writes are case analyses over `WriteEffect` and do not look at the code again.
-/

namespace Aesd

open SysLib

/-- The entry that stores block `b`. -/
def ringEntry (b : Nat × List Cell) : BufferEntry := ⟨.block b.1, b.2.length⟩

/-- `e` is a pending entry that stands for the bytes `c`. After a failed
`krealloc` its pointer is `NULL` while its size stays: those bytes are gone. -/
def Pends (e : BufferEntry) (c : List Cell) : Prop :=
  (e.buffptr = .null ∧ c = List.replicate e.size none) ∨ (Points e.buffptr c ∧ e.size = c.length)

/-- The blocks of a system: its stored entries, its pending bytes, and the rest. -/
structure Owns (k : Kernel) (s : Sys) (ring : List (Nat × List Cell)) (pend : List Cell)
    (rest : List (Nat × List Cell)) : Prop where
  wellFormed : s.dev.buffer.WellFormed
  blank : s.dev.buffer.Blank
  entries : s.dev.buffer.entries = ring.map ringEntry
  newEntry : Pends s.dev.newEntry pend
  exactly : s.heap.Exactly (ring ++ (s.dev.newEntry.buffptr.blocks pend ++ rest))
  lines : ∀ b ∈ ring, some newline ∈ b.2
  ring_small : ∀ b ∈ ring, b.2.length ≤ k.kmallocMaxSize
  pend_small : pend.length ≤ k.kmallocMaxSize
  history : s.committed = s.evicted ++ ring.map Prod.snd
  latest : ring.map Prod.snd = s.committed.rtake maxWriteOperationsSupported

/-- ... and no pending byte ends a line. -/
structure Holds (k : Kernel) (s : Sys) (ring : List (Nat × List Cell)) (pend : List Cell)
    (rest : List (Nat × List Cell)) : Prop extends Owns k s ring pend rest where
  pend_line : some newline ∉ pend

section Basics

variable {k : Kernel} {s : Sys} {ring rest : List (Nat × List Cell)} {pend : List Cell}

theorem Pends.size_eq {e : BufferEntry} {c : List Cell} (h : Pends e c) : e.size = c.length := by
  rcases h with ⟨-, rfl⟩ | ⟨-, h⟩
  · simp
  · exact h

theorem holds_init (k : Kernel) : Holds k aesdInitModule [] [] [] where
  wellFormed := CircularBuffer.init_wellFormed
  blank := CircularBuffer.init_blank
  entries := rfl
  newEntry := .inl ⟨rfl, rfl⟩
  exactly := Heap.exactly_empty
  lines := by simp
  ring_small := by simp
  pend_small := Nat.zero_le _
  history := rfl
  latest := rfl
  pend_line := by simp

theorem Owns.ring_length (h : Owns k s ring pend rest) : ring.length = s.dev.buffer.count := by
  rw [← CircularBuffer.entries_length, h.entries, List.length_map]

theorem Owns.ring_le (h : Owns k s ring pend rest) : ring.length ≤ maxWriteOperationsSupported :=
  h.ring_length ▸ s.dev.buffer.count_le

theorem Owns.sizes (h : Owns k s ring pend rest) :
    s.dev.buffer.sizes = (ring.map Prod.snd).map List.length := by
  simp [CircularBuffer.sizes, h.entries, ringEntry, Function.comp_def]

/-- `Holds` does not look at the lock. -/
theorem Holds.setLock (h : Holds k s ring pend rest) (held : Bool) :
    Holds k (s.setLock held) ring pend rest :=
  { h with }

/-- The rest may be listed in any order. -/
theorem Owns.perm (h : Owns k s ring pend rest) {rest' : List (Nat × List Cell)} (hp : rest.Perm rest') :
    Owns k s ring pend rest' :=
  { h with exactly := h.exactly.perm ((hp.append_left _).append_left _) }

/-- A change of the heap that keeps the device's blocks. -/
theorem Holds.withHeap (h : Holds k s ring pend rest) {heap : Memory} {rest' : List (Nat × List Cell)}
    (he : heap.Exactly (ring ++ (s.dev.newEntry.buffptr.blocks pend ++ rest'))) :
    Holds k { s with heap := heap } ring pend rest' :=
  { h with exactly := he }

/-- Sizes the driver adds up never wrap. -/
theorem Kernel.add_lt (k : Kernel) {m n : Nat} (hm : m ≤ k.kmallocMaxSize) (hn : n ≤ k.kmallocMaxSize) :
    m + n < sizeTMod := by
  have := k.kmallocMaxSize_le
  simp only [sizeTMod]; omega

theorem toLoffT_of_lt {x : Int} (h0 : 0 ≤ x) (h : x < 2 ^ 63) : toLoffT x = x := by
  unfold toLoffT
  rw [Int.bmod_eq_of_le] <;> omega

theorem Points.blocks_eq_nil_iff {p : Ptr} {c : List Cell} (h : Points p c) : p.blocks c = [] ↔ c = [] := by
  cases h with
  | zeroSize => simp [Ptr.blocks]
  | block i c hc => simp [Ptr.blocks, hc]

theorem hasNewline_iff (cs : List Cell) : hasNewline cs = true ↔ some newline ∈ cs := by
  induction cs with
  | nil => simp [hasNewline]
  | cons c cs ih =>
    rw [hasNewline, List.mem_cons]
    split
    · simp_all
    · rename_i hc; rw [ih]; simp [Ne.symm hc]

end Basics

/-! ## The parts of a write -/

section Parts

variable {k : Kernel} {s : Sys} {ring rest : List (Nat × List Cell)} {pend : List Cell}

/-- `krealloc` of the pending entry, which may have lost its block. -/
theorem krealloc_pends {e : BufferEntry} {h : Memory} {bs : List (Nat × List Cell)} (hp : Pends e pend)
    (he : h.Exactly (e.buffptr.blocks pend ++ bs)) (n : Nat) (hint : Option Nat) :
    (k.Refuses hint (pend.length + n) ∧ krealloc k e.buffptr (pend.length + n) hint h = .ok (.null, h)) ∨
    (¬ k.Refuses hint (pend.length + n) ∧ pend.length + n ≤ k.kmallocMaxSize ∧
      ∃ p' h', krealloc k e.buffptr (pend.length + n) hint h = .ok (p', h') ∧
      Points p' (pend ++ List.replicate n none) ∧ h'.Exactly (p'.blocks (pend ++ List.replicate n none) ++ bs)) := by
  rcases hp with ⟨hnull, hc⟩ | ⟨hpts, -⟩
  · rw [hnull] at he ⊢
    have hrep : pend ++ List.replicate n none = List.replicate (pend.length + n) none := by
      rw [hc, List.length_replicate, List.replicate_add]
    rw [hrep]
    simp only [krealloc]
    rcases kmalloc_cases he (pend.length + n) hint with ⟨hr, e⟩ | ⟨hr, hs, p, h', e, hp, he'⟩
    · exact .inl ⟨hr, by rw [e]⟩
    · exact .inr ⟨hr, hs, p, h', by rw [e], hp, he'⟩
  · exact krealloc_cases hpts he n hint

/-- The copy of `kbuf` behind the pending bytes. -/
theorem memcpy_pending {h : Memory} {bs : List (Nat × List Cell)} {p kbuf : Ptr} {data : List Cell}
    (hp : Points p (pend ++ List.replicate data.length none)) (hk : Points kbuf data)
    (he : h.Exactly (p.blocks (pend ++ List.replicate data.length none) ++ bs))
    (hm : ∀ b ∈ kbuf.blocks data, b ∈ bs) :
    ∃ h', memcpy p pend.length kbuf data.length h = .ok h' ∧ Points p (pend ++ data) ∧
      h'.Exactly (p.blocks (pend ++ data) ++ bs) := by
  have hload := load_points hk he (fun b hb => List.mem_append_right _ (hm b hb))
    (Nat.le_of_eq (Nat.zero_add data.length))
  rw [List.drop_zero, List.take_length] at hload
  obtain ⟨h', hst, he'⟩ := store_points hp he
    (show pend.length + data.length ≤ (pend ++ List.replicate data.length none).length by simp)
  rw [Heap.overwrite_tail _ _ _ (by simp)] at he'
  exact ⟨h', by simp only [memcpy, hload]; exact hst, hp.of_length (by simp), he'⟩

/-- The ring after block `b` has been pushed onto it. -/
abbrev pushRing (ring : List (Nat × List Cell)) (b : Nat × List Cell) : List (Nat × List Cell) :=
  (ring ++ [b]).rtake maxWriteOperationsSupported

theorem mem_pushRing {b x : Nat × List Cell} (h : x ∈ pushRing ring b) : x ∈ ring ∨ x = b := by
  simpa using List.mem_of_mem_drop h

/-- Storing the pending entry in the ring, whatever becomes of the evicted block. -/
theorem Owns.push (h : Owns k s ring pend rest) {i : Nat} (hp : s.dev.newEntry = ringEntry (i, pend))
    (hn : some newline ∈ pend) {s' : Sys}
    (hdev : s'.dev = ⟨(s.dev.buffer.addEntry s.dev.newEntry).2, ⟨.null, 0⟩, s.dev.lock⟩)
    (hcom : s'.committed = s.committed ++ [pend])
    (hhist : s'.committed = s'.evicted ++ (pushRing ring (i, pend)).map Prod.snd)
    (hex : s'.heap.Exactly (pushRing ring (i, pend) ++ rest)) :
    Holds k s' (pushRing ring (i, pend)) [] rest where
  wellFormed := by rw [hdev]; exact CircularBuffer.addEntry_wellFormed h.wellFormed _
  blank := by rw [hdev]; exact CircularBuffer.addEntry_blank h.wellFormed h.blank _
  entries := by
    rw [hdev]
    simp only
    rw [CircularBuffer.addEntry_entries h.wellFormed, h.entries, hp, pushRing, map_rtake, List.map_append]
    rfl
  newEntry := by rw [hdev]; exact .inl ⟨rfl, rfl⟩
  exactly := by rw [hdev]; exact hex
  lines b hb := by
    rcases mem_pushRing hb with hb | rfl
    · exact h.lines b hb
    · exact hn
  ring_small b hb := by
    rcases mem_pushRing hb with hb | rfl
    · exact h.ring_small b hb
    · exact h.pend_small
  pend_small := Nat.zero_le _
  history := hhist
  latest := by
    rw [hcom, ← rtake_append_rtake s.committed, ← h.latest, pushRing, map_rtake, List.map_append]
    rfl
  pend_line := by simp

/-- Committing the pending entry: it becomes the newest entry of the ring, and
the block of the entry it evicts is freed. -/
theorem commitEntry_owns (h : Owns k s ring pend rest) (hn : some newline ∈ pend)
    (hpts : Points s.dev.newEntry.buffptr pend) :
    ∃ i s', commitEntry s = .ok s' ∧ s'.dev.lock = s.dev.lock ∧ s'.dev.newEntry.buffptr = .null ∧
      s'.committed = s.committed ++ [pend] ∧ Holds k s' (pushRing ring (i, pend)) [] rest := by
  have hsize := h.newEntry.size_eq
  have hex := h.exactly
  have hfst := CircularBuffer.addEntry_fst h.wellFormed s.dev.newEntry
  rw [← h.ring_length, h.entries] at hfst
  generalize hp : s.dev.newEntry.buffptr = p at hpts hex
  cases hpts with
  | zeroSize => simp at hn
  | block i c hc =>
    have hentry : s.dev.newEntry = ringEntry (i, pend) := by
      cases he : s.dev.newEntry
      rw [he] at hsize hp
      simp only at hsize hp
      rw [hsize, hp]; rfl
    have hcell : s.heap.block i = some pend :=
      hex.block (List.mem_append_right _ (List.mem_append_left _ (List.mem_singleton_self _)))
    by_cases hfull : ring.length = maxWriteOperationsSupported
    · -- the ring is full: its oldest entry is evicted and freed
      rw [if_pos hfull] at hfst
      obtain ⟨b, bs, rfl⟩ : ∃ b bs, ring = b :: bs := by
        cases ring with
        | nil => simp at hfull
        | cons b bs => exact ⟨b, bs, rfl⟩
      have hpush : pushRing (b :: bs) (i, pend) = bs ++ [(i, pend)] := by
        rw [pushRing, push_rtake _ _ _ (Nat.le_of_eq hfull) (by decide), if_pos hfull]; rfl
      have hb : s.heap.block b.1 = some b.2 := hex.head
      refine ⟨i, ⟨⟨(s.dev.buffer.addEntry s.dev.newEntry).2, ⟨.null, 0⟩, s.dev.lock⟩, s.heap.set b.1 none,
        s.committed ++ [pend], s.evicted ++ [b.2]⟩, ?_, rfl, rfl, rfl, h.push hentry hn rfl rfl ?_ ?_⟩
      · simp [commitEntry, hfst, ringEntry, hp, hcell, cellsAt, hb, kfree]
      · simp [hpush, h.history]
      · rw [hpush, List.append_assoc]
        exact hex.free
    · -- the ring has room: nothing is evicted
      rw [if_neg hfull] at hfst
      have hpush : pushRing ring (i, pend) = ring ++ [(i, pend)] := by
        rw [pushRing, push_rtake _ _ _ h.ring_le (by decide), if_neg hfull]
      refine ⟨i, ⟨⟨(s.dev.buffer.addEntry s.dev.newEntry).2, ⟨.null, 0⟩, s.dev.lock⟩, s.heap,
        s.committed ++ [pend], s.evicted⟩, ?_, rfl, rfl, rfl, h.push hentry hn rfl rfl ?_ ?_⟩
      · simp [commitEntry, hfst, hp, hcell, cellsAt]
      · simp [hpush, h.history]
      · rw [hpush, List.append_assoc]
        exact hex

end Parts

end Aesd
