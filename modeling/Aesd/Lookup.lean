import Aesd.Fifo
import Aesd.SysLib.Pieces
/-!
# The two searches, over the sizes of the entries

`aesd_circular_buffer_find_entry_offset_for_fpos` computes `locate`, for any
rotation of the ring and without a bound on the total size: the byte counter
reaches `char_offset` before it can wrap. The other search and the length are
sums over the same list of sizes.
-/

namespace Aesd

open SysLib

namespace CircularBuffer

variable {b : CircularBuffer}

/-- The sizes of the entries, oldest first. -/
def sizes (b : CircularBuffer) : List Nat := b.entries.map (·.size)

@[simp] theorem sizes_length (b : CircularBuffer) : b.sizes.length = b.count := by simp [sizes]

theorem sizes_eq_window (b : CircularBuffer) :
    b.sizes = window maxWriteOperationsSupported (fun i => (b.slot i).size) b.outOffs b.count :=
  window_map _ _ _ _ _

theorem isEmpty_iff (h : b.WellFormed) : b.isEmpty = true ↔ b.count = 0 := by
  obtain ⟨h1, h2, h3⟩ := h
  unfold isEmpty count
  cases hf : b.full
  · simp only [maxWriteOperationsSupported, decide_true, Bool.true_and, decide_eq_true_eq,
      Bool.false_eq_true, if_false] at *
    omega
  · simp

theorem numIterations_eq (h : b.WellFormed) (hne : b.count ≠ 0) : b.numIterations = b.count := by
  obtain ⟨h1, h2, h3⟩ := h
  unfold numIterations
  unfold count at hne ⊢
  cases hf : b.full
  · simp only [hf, maxWriteOperationsSupported, Bool.false_eq_true, if_false] at *
    split <;> omega
  · simp

/-! ## Lookup by position -/

/-- Counting up to `charOffset` inside one entry. -/
theorem scanEntry_eq (charOffset : Nat) (hc : charOffset < sizeTMod) (left j cumulative : Nat)
    (hle : cumulative ≤ charOffset) :
    scanEntry charOffset left j cumulative =
      if charOffset - cumulative < left then .inl (j + (charOffset - cumulative))
      else .inr (cumulative + left) := by
  induction left generalizing j cumulative with
  | zero => simp [scanEntry]
  | succ left ih =>
    rw [scanEntry]
    by_cases he : cumulative = charOffset
    · simp [he]
    · rw [if_neg he, Nat.mod_eq_of_lt (by omega), ih _ _ (by omega)]
      by_cases hl : charOffset - cumulative < left + 1
      · rw [if_pos (by omega), if_pos hl]; congr 1; omega
      · rw [if_neg (by omega), if_neg hl]; congr 1; omega

/-- The scan over the slots finds what `locate` finds in their sizes. -/
theorem scanSlots_eq (b : CircularBuffer) (charOffset : Nat) (hc : charOffset < sizeTMod)
    (left posn cumulative : Nat) (hle : cumulative ≤ charOffset) (hp : posn < maxWriteOperationsSupported) :
    b.scanSlots charOffset left posn cumulative =
      (locate (window maxWriteOperationsSupported (fun i => (b.slot i).size) posn left)
        (charOffset - cumulative)).map
        fun ij => ((posn + ij.1) % maxWriteOperationsSupported, ij.2) := by
  induction left generalizing posn cumulative with
  | zero => rfl
  | succ left ih =>
    rw [scanSlots, scanEntry_eq _ hc _ _ _ hle, window_cons, Nat.mod_eq_of_lt hp, locate]
    by_cases hl : charOffset - cumulative < (b.slot posn).size
    · simp only [if_pos hl, Option.map_some, Nat.zero_add, Nat.add_zero, Nat.mod_eq_of_lt hp]
    · simp only [if_neg hl]
      rw [ih _ _ (by omega) (Nat.mod_lt _ (by decide)), window_start_mod, Nat.sub_add_eq, Option.map_map]
      congr 1
      funext ij
      simp only [Function.comp_apply, Nat.mod_add_mod, Nat.add_assoc, Nat.add_comm 1]

/-- The lookup, for every well-formed ring and every position. -/
theorem findEntryOffsetForFpos_eq (h : b.WellFormed) {charOffset : Nat} (hc : charOffset < sizeTMod) (rtn : Nat) :
    b.findEntryOffsetForFpos charOffset rtn =
      match locate b.sizes charOffset with
      | some (i, j) => (some ((b.outOffs + i) % maxWriteOperationsSupported), j)
      | none => (none, if b.count = 0 then rtn else 0) := by
  unfold findEntryOffsetForFpos
  by_cases h0 : b.count = 0
  · rw [if_pos ((isEmpty_iff h).2 h0), sizes_eq_window, h0]; rfl
  · rw [if_neg (by rwa [isEmpty_iff h]), numIterations_eq h h0,
      scanSlots_eq b charOffset hc _ _ _ (Nat.zero_le _) h.outOffs_lt, ← sizes_eq_window, Nat.sub_zero]
    cases locate b.sizes charOffset with
    | none => simp [h0]
    | some ij => rfl

/-- No entry is found from the total size on. -/
theorem findEntryOffsetForFpos_none_iff (h : b.WellFormed) {charOffset : Nat} (hc : charOffset < sizeTMod) (rtn : Nat) :
    (b.findEntryOffsetForFpos charOffset rtn).1 = none ↔ b.sizes.sum ≤ charOffset := by
  rw [findEntryOffsetForFpos_eq h hc, ← locate_eq_none_iff]
  cases locate b.sizes charOffset with
  | none => exact iff_of_true rfl rfl
  | some ij => exact iff_of_false (Option.some_ne_none _) (Option.some_ne_none _)

/-- What is left in `*entry_offset_byte_rtn` where no entry is found. -/
theorem findEntryOffsetForFpos_rtn (h : b.WellFormed) {charOffset : Nat} (hc : charOffset < sizeTMod) (rtn : Nat)
    (hge : b.sizes.sum ≤ charOffset) :
    (b.findEntryOffsetForFpos charOffset rtn).2 = if b.isEmpty = true then rtn else 0 := by
  rw [findEntryOffsetForFpos_eq h hc, (locate_eq_none_iff _ _).2 hge]
  simp only [isEmpty_iff h]

/-- The slot of the `i`-th entry. -/
theorem slot_of_entries {i : Nat} (hi : i < b.count) :
    b.entries[i]? = some (b.slot ((b.outOffs + i) % maxWriteOperationsSupported)) :=
  window_getElem _ _ _ _ _ hi

/-! ## Lookup by entry -/

/-- What the seek computes from the sizes of the entries. The slot behind the
newest entry is the oldest one in a full ring and a blank one otherwise. -/
def seekFpos (sizes : List Nat) (writeCmd writeCmdOffset : Nat) : Nat :=
  let behind := if sizes.length = maxWriteOperationsSupported then sizes.headD 0 else 0
  if sizes.length = 0 ∨ sizes.length < writeCmd ∨ sizes.getD writeCmd behind < writeCmdOffset then sizeTMax
  else ((sizes.take writeCmd).sum + writeCmdOffset) % sizeTMod

/-- A seek that succeeds goes at most one entry's size past the end. -/
theorem seekFpos_le {sizes : List Nat} {m : Nat} (hm : ∀ n ∈ sizes, n ≤ m) (writeCmd writeCmdOffset : Nat) :
    seekFpos sizes writeCmd writeCmdOffset = sizeTMax ∨ seekFpos sizes writeCmd writeCmdOffset ≤ sizes.sum + m := by
  have hsum : (sizes.take writeCmd).sum ≤ sizes.sum := by
    rw [← List.sum_take_add_sum_drop sizes writeCmd]; exact Nat.le_add_right _ _
  have hbehind : (if sizes.length = maxWriteOperationsSupported then sizes.headD 0 else 0) ≤ m := by
    cases sizes with
    | nil => simp
    | cons n ns =>
      have := hm n List.mem_cons_self
      split
      · exact this
      · omega
  have hsize : sizes.getD writeCmd (if sizes.length = maxWriteOperationsSupported then sizes.headD 0 else 0) ≤ m := by
    rcases Nat.lt_or_ge writeCmd sizes.length with hlt | hge
    · rw [List.getD_eq_getElem?_getD, List.getElem?_eq_getElem hlt]; exact hm _ (List.getElem_mem hlt)
    · rw [List.getD_eq_getElem?_getD, List.getElem?_eq_none hge]; exact hbehind
  by_cases hbad : sizes.length = 0 ∨ sizes.length < writeCmd ∨ sizes.getD writeCmd
      (if sizes.length = maxWriteOperationsSupported then sizes.headD 0 else 0) < writeCmdOffset
  · exact .inl (if_pos hbad)
  · have heq : seekFpos sizes writeCmd writeCmdOffset = ((sizes.take writeCmd).sum + writeCmdOffset) % sizeTMod :=
      if_neg hbad
    have := Nat.mod_le ((sizes.take writeCmd).sum + writeCmdOffset) sizeTMod
    exact .inr (by omega)

/-- The walk of the seek: `m` slots on, with their sizes summed up. -/
theorem seektoLoop_eq (b : CircularBuffer) (writeCmd left i posn cumulative : Nat) (hi : i ≤ writeCmd)
    (hp : posn < maxWriteOperationsSupported) (hc : cumulative < sizeTMod) :
    b.seektoLoop writeCmd left i posn cumulative =
      ((posn + min left (writeCmd - i)) % maxWriteOperationsSupported,
        (cumulative + (window maxWriteOperationsSupported (fun i => (b.slot i).size) posn
          (min left (writeCmd - i))).sum) % sizeTMod) := by
  induction left generalizing i posn cumulative with
  | zero => simp [seektoLoop, Nat.mod_eq_of_lt hp, Nat.mod_eq_of_lt hc]
  | succ left ih =>
    rw [seektoLoop]
    by_cases he : i = writeCmd
    · simp [he, Nat.mod_eq_of_lt hp, Nat.mod_eq_of_lt hc]
    · have hmin : min (left + 1) (writeCmd - i) = min left (writeCmd - (i + 1)) + 1 := by omega
      rw [if_neg he, ih _ _ _ (by omega) (Nat.mod_lt _ (by decide)) (Nat.mod_lt _ (by decide)), hmin,
        window_cons, window_start_mod, Nat.mod_eq_of_lt hp, List.sum_cons]
      rw [Nat.mod_add_mod, Nat.mod_add_mod, Nat.add_assoc posn, Nat.add_comm 1, Nat.add_assoc cumulative]

theorem window_take_sum (b : CircularBuffer) {m : Nat} (hm : m ≤ b.count) :
    (b.sizes.take m).sum =
      (window maxWriteOperationsSupported (fun i => (b.slot i).size) b.outOffs m).sum := by
  rw [sizes_eq_window, window, window, ← List.map_take, List.take_range, Nat.min_eq_left hm]

/-- The seek, for every well-formed ring and every entry up to the one behind the newest. -/
theorem findSeektoFpos_walk (h : b.WellFormed) (h0 : b.count ≠ 0) {writeCmd : Nat} (hle : writeCmd ≤ b.count)
    (writeCmdOffset : Nat) :
    b.findSeektoFpos writeCmd writeCmdOffset =
      if (b.slot ((b.outOffs + writeCmd) % maxWriteOperationsSupported)).size < writeCmdOffset then sizeTMax
      else ((b.sizes.take writeCmd).sum + writeCmdOffset) % sizeTMod := by
  unfold findSeektoFpos
  rw [if_neg (by rwa [isEmpty_iff h]), numIterations_eq h h0, if_neg (Nat.not_lt.2 hle),
    seektoLoop_eq b _ _ _ _ _ (Nat.zero_le _) h.outOffs_lt (by decide), Nat.sub_zero,
    Nat.min_eq_right hle, Nat.zero_add, ← window_take_sum b hle]
  simp only [Nat.mod_add_mod, gt_iff_lt]

/-- The size of the `i`-th entry is that of its slot. -/
theorem sizes_getElem? {i : Nat} (hi : i < b.count) :
    b.sizes[i]? = some (b.slot ((b.outOffs + i) % maxWriteOperationsSupported)).size := by
  rw [sizes, List.getElem?_map, slot_of_entries hi]
  rfl

/-- The seek, for every well-formed ring whose unused slots are blank. -/
theorem findSeektoFpos_eq (h : b.WellFormed) (hb : b.Blank) (writeCmd writeCmdOffset : Nat) :
    b.findSeektoFpos writeCmd writeCmdOffset = seekFpos b.sizes writeCmd writeCmdOffset := by
  unfold seekFpos
  rw [sizes_length]
  by_cases h0 : b.count = 0
  · rw [findSeektoFpos, if_pos ((isEmpty_iff h).2 h0), if_pos (.inl h0)]
  by_cases hgt : writeCmd > b.count
  · rw [findSeektoFpos, if_neg (by rwa [isEmpty_iff h]), numIterations_eq h h0, if_pos hgt, if_pos (.inr (.inl hgt))]
  have hle : writeCmd ≤ b.count := Nat.not_lt.1 hgt
  have hslot : (b.slot ((b.outOffs + writeCmd) % maxWriteOperationsSupported)).size =
      b.sizes.getD writeCmd (if b.count = maxWriteOperationsSupported then b.sizes.headD 0 else 0) := by
    rcases Nat.lt_or_eq_of_le hle with hlt | heq
    · rw [List.getD_eq_getElem?_getD, sizes_getElem? hlt]; rfl
    · rw [List.getD_eq_getElem?_getD, List.getElem?_eq_none (by rw [sizes_length, heq]), Option.getD_none, heq]
      split
      · rename_i hfull
        rw [hfull, Nat.add_mod_right, Nat.mod_eq_of_lt h.outOffs_lt, sizes_eq_window, hfull,
          show maxWriteOperationsSupported = 9 + 1 from rfl, window_cons, List.headD_cons,
          Nat.mod_eq_of_lt h.outOffs_lt]
      · rename_i hpart
        have hlt : b.count < maxWriteOperationsSupported := Nat.lt_of_le_of_ne b.count_le hpart
        rw [hb b.count (Nat.le_refl _) hlt]; rfl
  rw [findSeektoFpos_walk h h0 hle, hslot]
  by_cases hY : b.sizes.getD writeCmd
      (if b.count = maxWriteOperationsSupported then b.sizes.headD 0 else 0) < writeCmdOffset
  · rw [if_pos hY, if_pos (.inr (.inr hY))]
  · rw [if_neg hY, if_neg (by simp only [h0, hY, false_or, or_false]; exact hgt)]

/-! ## The total length -/

/-- The sizes of the entries that have a buffer, summed up. -/
def attachedSize (es : List BufferEntry) : Nat := ((es.filter (·.buffptr ≠ .null)).map (·.size)).sum

theorem getLengthFrom_eq (es : List BufferEntry) (t : Nat) (ht : t < sizeTMod) :
    getLengthFrom es t = (t + attachedSize es) % sizeTMod := by
  unfold attachedSize
  induction es generalizing t with
  | nil => simp [getLengthFrom, Nat.mod_eq_of_lt ht]
  | cons e es ih =>
    rw [getLengthFrom]
    by_cases hn : e.buffptr = .null
    · rw [if_pos hn, ih t ht, List.filter_cons_of_neg (by simpa using hn)]
    · rw [if_neg hn, ih _ (Nat.mod_lt _ (by decide)), List.filter_cons_of_pos (by simpa using hn), List.map_cons,
        List.sum_cons, Nat.mod_add_mod, Nat.add_assoc]

/-- An entry without a buffer adds nothing if its size is 0. -/
theorem attachedSize_eq {es : List BufferEntry} (h : ∀ e ∈ es, e.buffptr = .null → e.size = 0) :
    attachedSize es = (es.map (·.size)).sum := by
  unfold attachedSize
  induction es with
  | nil => rfl
  | cons e es ih =>
    have ih' := ih fun x hx => h x (List.mem_cons_of_mem _ hx)
    rw [List.map_cons, List.sum_cons]
    by_cases hn : e.buffptr = .null
    · rw [List.filter_cons_of_neg (by simpa using hn), ih', h e List.mem_cons_self hn, Nat.zero_add]
    · rw [List.filter_cons_of_pos (by simpa using hn), List.map_cons, List.sum_cons, ih']

/-- All ten slots, in the order of the window. -/
theorem slots_perm (b : CircularBuffer) :
    (window maxWriteOperationsSupported b.slot b.outOffs maxWriteOperationsSupported).Perm b.entry.toList := by
  have h0 : window maxWriteOperationsSupported b.slot 0 maxWriteOperationsSupported = b.entry.toList := by
    apply List.ext_getElem?
    intro i
    rcases Nat.lt_or_ge i maxWriteOperationsSupported with hi | hi
    · rw [window_getElem _ _ _ _ _ hi, Nat.zero_add, Nat.mod_eq_of_lt hi, slot_lt b hi]; simp [hi]
    · rw [List.getElem?_eq_none (by simpa using hi), List.getElem?_eq_none (by simpa using hi)]
  rw [← h0]
  exact window_perm _ _ _ (by decide)

/-- In a ring whose entries have their pointers and whose unused slots are blank,
what has a buffer is what is stored. -/
theorem attachedSize_slots (hb : b.Blank) (hp : ∀ e ∈ b.entries, e.buffptr ≠ .null) :
    attachedSize b.entry.toList = b.sizes.sum := by
  have hsplit := window_split maxWriteOperationsSupported b.slot b.outOffs b.count_le
  have hrest : ∀ e ∈ window maxWriteOperationsSupported b.slot (b.outOffs + b.count)
      (maxWriteOperationsSupported - b.count), e = .zero := by
    intro e he
    obtain ⟨i, hi, rfl⟩ := mem_window.1 he
    rw [Nat.add_assoc]
    exact hb _ (by omega) (by have := b.count_le; omega)
  have hnull : ∀ e ∈ b.entry.toList, e.buffptr = .null → e.size = 0 := by
    intro e he hn
    rw [← (slots_perm b).mem_iff, hsplit, List.mem_append] at he
    rcases he with he | he
    · exact absurd hn (hp e he)
    · rw [hrest e he]; rfl
  rw [attachedSize_eq hnull, ← ((slots_perm b).map _).sum_eq, hsplit, List.map_append, List.sum_append]
  have hzero : ((window maxWriteOperationsSupported b.slot (b.outOffs + b.count)
      (maxWriteOperationsSupported - b.count)).map (·.size)).sum = 0 := by
    apply List.sum_eq_zero
    intro n hn
    obtain ⟨e, he, rfl⟩ := List.mem_map.1 hn
    rw [hrest e he]; rfl
  rw [hzero]; rfl

/-- The length sums up what has a buffer, modulo `2 ^ 64`. -/
theorem getLength_eq (b : CircularBuffer) : b.getLength = attachedSize b.entry.toList % sizeTMod := by
  rw [getLength, getLengthFrom_eq _ _ (by decide), Nat.zero_add]

end CircularBuffer

end Aesd
