import Aesd.CircularBuffer
/-!
# The circular buffer is a bounded FIFO

`addEntry_cases` says once what an add does to the window of stored entries:
it grows while the buffer is not full, and slides by one slot when it is.
Everything else follows from the library's two facts about windows.
-/

namespace Aesd

open SysLib

namespace CircularBuffer

/-! ## One add -/

/-- What an add does, in two cases. -/
theorem addEntry_cases {b : CircularBuffer} (h : b.WellFormed) (e : BufferEntry) :
    (b.count < maxWriteOperationsSupported ∧ (b.addEntry e).1 = .null ∧
      (b.addEntry e).2.outOffs = b.outOffs ∧ (b.addEntry e).2.count = b.count + 1 ∧
      (b.addEntry e).2.full = decide (b.count + 1 = maxWriteOperationsSupported)) ∨
    (b.count = maxWriteOperationsSupported ∧ (b.addEntry e).1 = (b.slot b.outOffs).buffptr ∧
      (b.addEntry e).2.outOffs = (b.outOffs + 1) % maxWriteOperationsSupported ∧
      (b.addEntry e).2.count = maxWriteOperationsSupported ∧ (b.addEntry e).2.full = true) := by
  have hin := h.inOffs_eq
  have hlt := h.count_lt_iff
  have hle := b.count_le
  obtain ⟨h1, h2, h3⟩ := h
  cases hf : b.full with
  | false =>
    have hc : b.count < maxWriteOperationsSupported := hlt.2 hf
    refine .inl ⟨hc, by simp [addEntry, hf], by simp [addEntry, hf], ?_, ?_⟩
    · unfold count addEntry
      simp only [hf, Bool.false_eq_true, if_false]
      unfold count at hin hc
      simp only [hf, Bool.false_eq_true, if_false, maxWriteOperationsSupported] at *
      split
      · simp only [if_true]; omega
      · simp only [Bool.false_eq_true, if_false]; omega
    · simp only [addEntry, hf, Bool.false_eq_true, if_false, maxWriteOperationsSupported] at *
      split
      · simp only [true_eq_decide_iff]; omega
      · simp only [false_eq_decide_iff]; omega
  | true =>
    have hio := h3 hf
    have hc : ¬ b.count < maxWriteOperationsSupported := by rw [hlt, hf]; decide
    refine .inr ⟨Nat.le_antisymm hle (Nat.not_lt.1 hc), ?_, ?_, ?_, ?_⟩ <;>
      simp [addEntry, count, hf, hio]

theorem addEntry_wellFormed {b : CircularBuffer} (h : b.WellFormed) (e : BufferEntry) :
    (b.addEntry e).2.WellFormed := by
  obtain ⟨h1, h2, h3⟩ := h
  refine ⟨Nat.mod_lt _ (by decide), ?_, ?_⟩
  · simp only [addEntry]
    split
    · exact Nat.mod_lt _ (by decide)
    · exact h2
  · simp only [addEntry]
    cases hf : b.full
    · simp
    · simp [h3 hf]

theorem addEntry_slot_eq {b : CircularBuffer} (h : b.WellFormed) (e : BufferEntry) :
    (b.addEntry e).2.slot = Function.update b.slot b.inOffs e :=
  funext (b.addEntry_slot e h.inOffs_lt)

/-- An add is a push onto a list that keeps its last ten elements. -/
theorem addEntry_entries {b : CircularBuffer} (h : b.WellFormed) (e : BufferEntry) :
    (b.addEntry e).2.entries = (b.entries ++ [e]).rtake maxWriteOperationsSupported := by
  have hin := h.inOffs_eq
  rw [push_rtake _ _ _ (by rw [entries_length]; exact b.count_le) (by decide), entries_length]
  unfold entries
  rw [addEntry_slot_eq h]
  rcases addEntry_cases h e with ⟨hc, -, ho, hn, -⟩ | ⟨hc, -, ho, hn, -⟩
  · rw [if_neg (Nat.ne_of_lt hc), ho, hn, hin]
    exact window_store _ _ _ _ _ hc
  · have hio : b.inOffs = b.outOffs % maxWriteOperationsSupported := by
      rw [hin, hc, Nat.add_mod_right]
    rw [if_pos hc, ho, hn, hio, hc, window_start_mod]
    exact window_replace _ _ _ _ (by decide)

/-- The pointer an add hands back: the oldest entry's, once the buffer is full. -/
theorem addEntry_fst {b : CircularBuffer} (h : b.WellFormed) (e : BufferEntry) :
    (b.addEntry e).1 =
      if b.count = maxWriteOperationsSupported then (b.entries.headD .zero).buffptr else .null := by
  rcases addEntry_cases h e with ⟨hc, hp, -⟩ | ⟨hc, hp, -⟩
  · rw [if_neg (Nat.ne_of_lt hc), hp]
  · rw [if_pos hc, hp]
    unfold entries
    rw [hc, show maxWriteOperationsSupported = 9 + 1 from rfl, window_cons, List.headD_cons,
      Nat.mod_eq_of_lt h.outOffs_lt]

/-- An add leaves no stale entry behind in the slots that hold none. -/
theorem addEntry_blank {b : CircularBuffer} (h : b.WellFormed) (hb : b.Blank) (e : BufferEntry) :
    (b.addEntry e).2.Blank := by
  intro i hi hlt
  rcases addEntry_cases h e with ⟨hc, -, ho, hn, -⟩ | ⟨-, -, -, hn, -⟩
  · rw [hn] at hi
    rw [addEntry_slot_eq h, ho, Function.update_of_ne, hb i (by omega) hlt]
    rw [h.inOffs_eq]
    intro he
    have := slot_inj hlt hc he
    omega
  · rw [hn] at hi; omega

theorem init_wellFormed : init.WellFormed := ⟨by decide, by decide, by decide⟩

theorem init_blank : init.Blank := by
  intro i _ hi
  have : ∀ j < maxWriteOperationsSupported,
      init.slot ((init.outOffs + j) % maxWriteOperationsSupported) = .zero := by decide
  exact this i hi

theorem full_iff {b : CircularBuffer} (h : b.WellFormed) :
    b.full = true ↔ b.count = maxWriteOperationsSupported := by
  have h1 := h.count_lt_iff
  have h2 := b.count_le
  cases hf : b.full <;> rw [hf] at h1 <;> simp at h1 ⊢ <;> omega

/-! ## Any number of adds -/

/-- `aesd_circular_buffer_add_entry` once for each entry: what the calls return,
and the buffer after them. -/
def addEntries : List BufferEntry → CircularBuffer → List Ptr × CircularBuffer
  | [], b => ([], b)
  | e :: es, b =>
    let (p, b) := b.addEntry e
    let (ps, b) := addEntries es b
    (p :: ps, b)

theorem addEntries_snoc (es : List BufferEntry) (e : BufferEntry) (b : CircularBuffer) :
    addEntries (es ++ [e]) b =
      ((addEntries es b).1 ++ [((addEntries es b).2.addEntry e).1], ((addEntries es b).2.addEntry e).2) := by
  induction es generalizing b with
  | nil => rfl
  | cons x xs ih => simp only [List.cons_append, addEntries, ih]

theorem addEntries_ok (es : List BufferEntry) :
    (addEntries es init).2.WellFormed ∧ (addEntries es init).2.Blank ∧
      (addEntries es init).2.entries = es.rtake maxWriteOperationsSupported := by
  induction es using List.reverseRecOn with
  | nil => exact ⟨init_wellFormed, init_blank, rfl⟩
  | append_singleton es e ih =>
    obtain ⟨hw, hb, he⟩ := ih
    rw [addEntries_snoc]
    refine ⟨addEntry_wellFormed hw e, addEntry_blank hw hb e, ?_⟩
    rw [addEntry_entries hw, he, rtake_append_rtake]

theorem addEntries_count (es : List BufferEntry) :
    (addEntries es init).2.count = min maxWriteOperationsSupported es.length := by
  rw [← entries_length, (addEntries_ok es).2.2, rtake_length]

/-- The calls return `NULL` ten times, then the added pointers in order. -/
theorem addEntries_returned (es : List BufferEntry) :
    (addEntries es init).1 =
      (List.replicate maxWriteOperationsSupported Ptr.null ++ es.map (·.buffptr)).take es.length := by
  induction es using List.reverseRecOn with
  | nil => rfl
  | append_singleton es e ih =>
    have hw := (addEntries_ok es).1
    have hlen : es.length + 1 ≤
        (List.replicate maxWriteOperationsSupported Ptr.null ++ es.map (·.buffptr)).length := by
      simp only [List.length_append, List.length_replicate, List.length_map,
        maxWriteOperationsSupported]; omega
    rw [addEntries_snoc, ih, addEntry_fst hw, addEntries_count, (addEntries_ok es).2.2]
    rw [List.length_append, List.length_singleton, List.map_append, ← List.append_assoc,
      List.take_append_of_le_length hlen, List.take_add_one]
    rcases Nat.lt_or_ge es.length maxWriteOperationsSupported with h | h
    · rw [if_neg (by omega), List.getElem?_append_left (by simpa using h)]
      simp [h]
    · rw [if_pos (by omega), List.getElem?_append_right (by simpa using h), List.length_replicate]
      have hlt : es.length - maxWriteOperationsSupported < es.length := by
        simp only [maxWriteOperationsSupported] at *; omega
      simp [List.rtake, List.headD_eq_head?_getD, List.head?_drop, List.getElem?_eq_getElem hlt]

/-- For any entries added to a fresh buffer: the window from `out_offs` holds
the last ten of them in order, the offsets stay in range, the full flag tells
the full buffer from the empty one, and from the eleventh on each call hands
back the pointer added ten calls before. -/
theorem addEntries_refines_fifo (es : List BufferEntry) :
    (addEntries es init).2.entries = es.rtake maxWriteOperationsSupported ∧
    (addEntries es init).2.count = min es.length maxWriteOperationsSupported ∧
    (addEntries es init).2.inOffs < maxWriteOperationsSupported ∧
    (addEntries es init).2.outOffs < maxWriteOperationsSupported ∧
    ((addEntries es init).2.full = true ↔ maxWriteOperationsSupported ≤ es.length) ∧
    ((addEntries es init).2.full = true → (addEntries es init).2.inOffs = (addEntries es init).2.outOffs) ∧
    (addEntries es init).1.length = es.length ∧
    (∀ j < es.length, (addEntries es init).1[j]? =
      if j < maxWriteOperationsSupported then some .null
      else (es[j - maxWriteOperationsSupported]?).map (·.buffptr)) ∧
    (addEntries es init).1.drop maxWriteOperationsSupported =
      (es.take (es.length - maxWriteOperationsSupported)).map (·.buffptr) := by
  obtain ⟨hw, -, he⟩ := addEntries_ok es
  have hc := addEntries_count es
  refine ⟨he, by rw [hc, Nat.min_comm], hw.inOffs_lt, hw.outOffs_lt, ?_, hw.full_eq, ?_, ?_, ?_⟩
  · rw [full_iff hw, hc]; omega
  · rw [addEntries_returned, List.length_take]; simp
  · intro j hj
    rw [addEntries_returned, List.getElem?_take_of_lt hj]
    split
    · rename_i h; rw [List.getElem?_append_left (by simpa using h)]; simp [h]
    · rename_i h
      rw [List.getElem?_append_right (by simpa using Nat.not_lt.1 h)]
      simp
  · rw [addEntries_returned, List.drop_take, List.drop_append_of_le_length (by simp)]
    simp

end CircularBuffer

end Aesd
