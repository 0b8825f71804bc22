import Aesd.Seek
/-!
# Positions and entries

The two searches of the circular buffer number the stored bytes alike. The one
sums up whole entries, the other counts single bytes; each is the inverse of the
other on the bytes that are stored, in every ring: whatever its rotation, however
many entries it holds, and with empty entries among them. The length is where
the bytes end.
-/

namespace Aesd

open SysLib

section Sizes

variable {sizes : List Nat} {seekto seekto' : AesdSeekto}

theorem locate_iff {p i j : Nat} :
    locate sizes p = some (i, j) ↔ Designates sizes ⟨i, j⟩ ∧ entryPos sizes ⟨i, j⟩ = p := by
  rw [locate_eq_some_iff]
  constructor
  · rintro ⟨n, hn, hj, hp⟩
    exact ⟨⟨n, hn, hj⟩, hp⟩
  · rintro ⟨⟨n, hn, hj⟩, hp⟩
    exact ⟨n, hn, hj, hp⟩

/-- A byte comes before those of the later entries, and before the later ones of its own. -/
theorem Designates.entryPos_strictMono (h : Designates sizes seekto)
    (hlex : seekto.writeCmd < seekto'.writeCmd ∨
      (seekto.writeCmd = seekto'.writeCmd ∧ seekto.writeCmdOffset < seekto'.writeCmdOffset)) :
    entryPos sizes seekto < entryPos sizes seekto' := by
  unfold entryPos
  rcases hlex with hlt | ⟨heq, hlt⟩
  · obtain ⟨size, hget, hoff⟩ := h
    obtain ⟨hi, hsize⟩ := List.getElem?_eq_some_iff.1 hget
    -- the whole entry is in front of the later one
    have hnext : (sizes.take (seekto.writeCmd + 1)).sum = (sizes.take seekto.writeCmd).sum + size := by
      rw [List.take_add_one, hget, List.sum_append, Option.toList_some, List.sum_singleton]
    have hle := sum_take_le sizes (Nat.succ_le_of_lt hlt)
    rw [Nat.succ_eq_add_one, hnext] at hle
    omega
  · rw [heq]
    omega

theorem Designates.entryPos_inj (h : Designates sizes seekto) (h' : Designates sizes seekto')
    (he : entryPos sizes seekto = entryPos sizes seekto') : seekto = seekto' := by
  have hloc : ∀ {st : AesdSeekto}, Designates sizes st → locate sizes (entryPos sizes st) = some (st.writeCmd, st.writeCmdOffset) :=
    fun hd => locate_iff.2 ⟨hd, rfl⟩
  have hsame := hloc h
  rw [he, hloc h', Option.some.injEq, Prod.mk.injEq] at hsame
  cases seekto
  cases seekto'
  rw [AesdSeekto.mk.injEq]
  exact ⟨hsame.1.symm, hsame.2.symm⟩

end Sizes

namespace CircularBuffer

variable {b : CircularBuffer} {seekto seekto' : AesdSeekto}

theorem writeCmd_lt (h : Designates b.sizes seekto) : seekto.writeCmd < b.count := by
  obtain ⟨size, hget, -⟩ := h
  rw [← sizes_length]
  exact (List.getElem?_eq_some_iff.1 hget).1

theorem lookup_designated (h : b.WellFormed) (hd : Designates b.sizes seekto)
    (hlt : entryPos b.sizes seekto < sizeTMod) (rtn : Nat) :
    b.findEntryOffsetForFpos (entryPos b.sizes seekto) rtn =
      (some ((b.outOffs + seekto.writeCmd) % maxWriteOperationsSupported), seekto.writeCmdOffset) := by
  have hloc : locate b.sizes (entryPos b.sizes seekto) = some (seekto.writeCmd, seekto.writeCmdOffset) :=
    locate_iff.2 ⟨hd, rfl⟩
  rw [findEntryOffsetForFpos_eq h hlt, hloc]

theorem seek_designated (h : b.WellFormed) (hd : Designates b.sizes seekto)
    (hlt : entryPos b.sizes seekto < sizeTMod) :
    b.findSeektoFpos seekto.writeCmd seekto.writeCmdOffset = entryPos b.sizes seekto := by
  have hcmd := writeCmd_lt hd
  obtain ⟨size, hget, hoff⟩ := hd
  rw [sizes_getElem? hcmd, Option.some.injEq] at hget
  rw [findSeektoFpos_walk h (by omega) (Nat.le_of_lt hcmd), hget, if_neg (by omega)]
  exact Nat.mod_eq_of_lt hlt

/-- Lookup by position, in every well-formed ring. There is no entry exactly if
the position is not below the total size. Otherwise it is the entry and the
offset, the only ones, with the position's number of bytes in front of them, and
the byte there is the one at the position in all entries end to end. -/
theorem lookup_exact (h : b.WellFormed) {charOffset : Nat} (hc : charOffset < sizeTMod) (rtn : Nat) {α : Type}
    (bytes : BufferEntry → List α) (hb : ∀ e ∈ b.entries, (bytes e).length = e.size) :
    ((b.findEntryOffsetForFpos charOffset rtn).1 = none ↔ b.sizes.sum ≤ charOffset) ∧
      (charOffset < b.sizes.sum → ∃ i j e,
        b.findEntryOffsetForFpos charOffset rtn = (some ((b.outOffs + i) % maxWriteOperationsSupported), j) ∧
        b.slot ((b.outOffs + i) % maxWriteOperationsSupported) = e ∧ b.entries[i]? = some e ∧ j < e.size ∧
        (b.sizes.take i).sum + j = charOffset ∧
        (∀ i' j', Designates b.sizes ⟨i', j'⟩ → (b.sizes.take i').sum + j' = charOffset → i' = i ∧ j' = j) ∧
        (b.entries.map bytes).flatten[charOffset]? = (bytes e)[j]?) := by
  refine ⟨findEntryOffsetForFpos_none_iff h hc rtn, ?_⟩
  intro hlt
  cases hl : locate b.sizes charOffset with
  | none => exact absurd hlt (Nat.not_lt.2 ((locate_eq_none_iff _ _).1 hl))
  | some ij =>
    obtain ⟨i, j⟩ := ij
    obtain ⟨hd, hpos⟩ := locate_iff.1 hl
    have hcount := writeCmd_lt hd
    have hget := slot_of_entries hcount
    obtain ⟨size, hsize, hj⟩ := id hd
    rw [sizes_getElem? hcount, Option.some.injEq] at hsize
    refine ⟨i, j, _, by rw [findEntryOffsetForFpos_eq h hc, hl], rfl, hget, by rw [hsize]; exact hj, hpos, ?_, ?_⟩
    · intro i' j' hd' hpos'
      have hloc : locate b.sizes charOffset = some (i', j') := locate_iff.2 ⟨hd', hpos'⟩
      rw [hl, Option.some.injEq, Prod.mk.injEq] at hloc
      exact ⟨hloc.1.symm, hloc.2.symm⟩
    · have hsizes : (b.entries.map bytes).map List.length = b.sizes := by
        rw [sizes, List.map_map]
        exact List.map_congr_left hb
      rw [getElem?_flatten_of_locate (by rw [hsizes]; exact hl), List.getD_eq_getElem?_getD, List.getElem?_map, hget]
      rfl

/-- Three entries around the end of the ring, of 2, 0 and 3 bytes. -/
def wrapped : CircularBuffer where
  entry := #v[⟨.block 1, 3⟩, .zero, .zero, .zero, .zero, .zero, .zero, .zero, ⟨.block 0, 2⟩, ⟨.zeroSize, 0⟩]
  inOffs := 1
  outOffs := 8
  full := false

theorem wrapped_wellFormed : wrapped.WellFormed := ⟨by decide, by decide, by decide⟩

/-- Position 3 is past the entry at the end of the ring and the empty one. -/
theorem lookup_exact_wrapped :
    ∃ i j e, wrapped.findEntryOffsetForFpos 3 0 = (some ((8 + i) % maxWriteOperationsSupported), j) ∧
      wrapped.slot ((8 + i) % maxWriteOperationsSupported) = e ∧ j < e.size ∧ (wrapped.sizes.take i).sum + j = 3 ∧
      (List.range e.size)[j]? = some 1 := by
  obtain ⟨-, h⟩ := lookup_exact wrapped_wellFormed (show 3 < sizeTMod by decide) 0 (fun e => List.range e.size)
    fun e _ => List.length_range
  obtain ⟨i, j, e, hfind, hslot, -, hj, hsum, -, hbyte⟩ := h (by decide)
  exact ⟨i, j, e, hfind, hslot, hj, hsum, hbyte.symm.trans (by decide)⟩

/-- Seek and lookup are inverse to each other on the bytes stored, and the
positions are in the order of the entries and their bytes. -/
theorem seek_lookup_inverse (h : b.WellFormed) (hsum : b.sizes.sum < sizeTMod) (rtn : Nat) :
    (∀ seekto, Designates b.sizes seekto →
      b.findSeektoFpos seekto.writeCmd seekto.writeCmdOffset < b.sizes.sum ∧
      b.findEntryOffsetForFpos (b.findSeektoFpos seekto.writeCmd seekto.writeCmdOffset) rtn =
        (some ((b.outOffs + seekto.writeCmd) % maxWriteOperationsSupported), seekto.writeCmdOffset)) ∧
    (∀ p i j, p < b.sizes.sum → i < b.count →
      b.findEntryOffsetForFpos p rtn = (some ((b.outOffs + i) % maxWriteOperationsSupported), j) →
      b.findSeektoFpos i j = p) ∧
    (∀ seekto seekto', Designates b.sizes seekto → Designates b.sizes seekto' →
      (seekto ≠ seekto' → b.findSeektoFpos seekto.writeCmd seekto.writeCmdOffset ≠
        b.findSeektoFpos seekto'.writeCmd seekto'.writeCmdOffset) ∧
      (seekto.writeCmd < seekto'.writeCmd ∨
        (seekto.writeCmd = seekto'.writeCmd ∧ seekto.writeCmdOffset < seekto'.writeCmdOffset) →
        b.findSeektoFpos seekto.writeCmd seekto.writeCmdOffset <
          b.findSeektoFpos seekto'.writeCmd seekto'.writeCmdOffset)) := by
  have hlt : ∀ {seekto}, Designates b.sizes seekto → entryPos b.sizes seekto < sizeTMod :=
    fun hd => Nat.lt_trans hd.entryPos_lt hsum
  refine ⟨?_, ?_, ?_⟩
  · intro seekto hd
    rw [seek_designated h hd (hlt hd)]
    exact ⟨hd.entryPos_lt, lookup_designated h hd (hlt hd) rtn⟩
  · intro p i j hp hi hfind
    cases hl : locate b.sizes p with
    | none => exact absurd hp (Nat.not_lt.2 ((locate_eq_none_iff _ _).1 hl))
    | some ij =>
      obtain ⟨i', j'⟩ := ij
      obtain ⟨hd, hpos⟩ := locate_iff.1 hl
      rw [findEntryOffsetForFpos_eq h (Nat.lt_trans hp hsum), hl] at hfind
      simp only [Prod.mk.injEq, Option.some.injEq] at hfind
      obtain ⟨hslot, rfl⟩ := hfind
      -- the entries of the ring are in different slots
      have hcount := b.count_le
      obtain rfl : i' = i := slot_inj (Nat.lt_of_lt_of_le (writeCmd_lt hd) hcount) (Nat.lt_of_lt_of_le hi hcount) hslot
      have hseek := seek_designated h hd (hlt hd)
      rw [hpos] at hseek
      exact hseek
  · intro seekto seekto' hd hd'
    rw [seek_designated h hd (hlt hd), seek_designated h hd' (hlt hd')]
    exact ⟨fun hne he => hne (hd.entryPos_inj hd' he), hd.entryPos_strictMono⟩

/-- Byte 1 of the entry with number 2. -/
theorem seek_lookup_inverse_wrapped :
    wrapped.findSeektoFpos 2 1 < wrapped.sizes.sum ∧
      wrapped.findEntryOffsetForFpos (wrapped.findSeektoFpos 2 1) 0 = (some 0, 1) :=
  (seek_lookup_inverse wrapped_wellFormed (by decide) 0).1 ⟨2, 1⟩ ⟨3, by decide, by decide⟩

/-! ## The end of the data -/

/-- In a ring filled from the empty one with entries that have their pointers,
the length is the sum of the sizes of the stored entries, and the first position
at which the lookup finds none. -/
theorem length_is_end {es : List BufferEntry} (hp : ∀ e ∈ es, e.buffptr ≠ .null)
    (hb : (addEntries es init).2 = b) (hsum : b.sizes.sum < sizeTMod) (rtn : Nat) :
    b.getLength = b.sizes.sum ∧
      IsLeast {charOffset | charOffset < sizeTMod ∧ (b.findEntryOffsetForFpos charOffset rtn).1 = none} b.getLength := by
  subst hb
  obtain ⟨hw, hblank, hentries⟩ := addEntries_ok es
  have hstored : ∀ e ∈ (addEntries es init).2.entries, e.buffptr ≠ .null := by
    rw [hentries]
    intro e he
    exact hp e (List.mem_of_mem_drop he)
  have hlen : (addEntries es init).2.getLength = (addEntries es init).2.sizes.sum := by
    rw [getLength_eq, attachedSize_slots hblank hstored, Nat.mod_eq_of_lt hsum]
  refine ⟨hlen, ?_⟩
  rw [hlen]
  constructor
  · exact ⟨hsum, (findEntryOffsetForFpos_none_iff hw hsum rtn).2 (Nat.le_refl _)⟩
  · rintro charOffset ⟨hc, hnone⟩
    exact (findEntryOffsetForFpos_none_iff hw hc rtn).1 hnone

theorem length_is_end_two :
    (addEntries [⟨.block 0, 3⟩, ⟨.zeroSize, 0⟩] init).2.getLength = 3 ∧
      ((addEntries [⟨.block 0, 3⟩, ⟨.zeroSize, 0⟩] init).2.findEntryOffsetForFpos 3 0).1 = none := by
  have hp : ∀ e ∈ [(⟨.block 0, 3⟩ : BufferEntry), ⟨.zeroSize, 0⟩], e.buffptr ≠ .null := by decide
  obtain ⟨hlen, hleast⟩ := length_is_end hp rfl (by decide) 0
  have hthree : (addEntries [⟨.block 0, 3⟩, ⟨.zeroSize, 0⟩] init).2.getLength = 3 := hlen
  rw [hthree] at hleast
  exact ⟨hthree, hleast.1.2⟩

/-- Where the lookup finds no entry it leaves `*entry_offset_byte_rtn` as it was
exactly if the ring is empty or there was a 0. -/
theorem lookup_frame_iff (h : b.WellFormed) {charOffset : Nat} (hc : charOffset < sizeTMod) (rtn : Nat) :
    ((b.findEntryOffsetForFpos charOffset rtn).1 = none → (b.findEntryOffsetForFpos charOffset rtn).2 = rtn) ↔
      charOffset < b.sizes.sum ∨ b.isEmpty = true ∨ rtn = 0 := by
  rw [findEntryOffsetForFpos_none_iff h hc]
  rcases Nat.lt_or_ge charOffset b.sizes.sum with hlt | hge
  · exact iff_of_true (fun hge => absurd hlt (Nat.not_lt.2 hge)) (.inl hlt)
  rw [findEntryOffsetForFpos_rtn h hc rtn hge]
  cases b.isEmpty with
  | true => exact iff_of_true (fun _ => if_pos rfl) (.inr (.inl rfl))
  | false =>
    rw [if_neg Bool.noConfusion]
    constructor
    · intro hkept
      exact .inr (.inr (hkept hge).symm)
    · rintro (hlt | he | hzero) -
      · exact absurd hlt (Nat.not_lt.2 hge)
      · cases he
      · exact hzero.symm

/-- In an empty ring no entry is found, and the 7 stays. -/
theorem lookup_frame_empty :
    (init.findEntryOffsetForFpos 0 7).1 = none ∧ (init.findEntryOffsetForFpos 0 7).2 = 7 := by
  have hnone : (init.findEntryOffsetForFpos 0 7).1 = none := by decide
  exact ⟨hnone, (lookup_frame_iff init_wellFormed (by decide) 7).2 (.inr (.inl (by decide))) hnone⟩

/-- Behind the one byte that is stored the lookup puts a 0 where there was a 7. -/
theorem lookup_overwrites : ¬ ∀ (b : CircularBuffer) (charOffset rtn : Nat), b.WellFormed → charOffset < sizeTMod →
    (b.findEntryOffsetForFpos charOffset rtn).1 = none → (b.findEntryOffsetForFpos charOffset rtn).2 = rtn := by
  intro h
  have hkept := h (addEntries [⟨.block 0, 1⟩] init).2 1 7 (addEntries_ok _).1 (by decide) (by decide)
  revert hkept
  decide

end CircularBuffer

end Aesd
