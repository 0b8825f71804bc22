import Aesd.Runs
/-!
# Blocks: none dangles, some leak

No run makes a wrong use of memory, and between calls the pointers of the device
are distinct live blocks of the recorded sizes (`no_dangling_block`). What the
device does not point to is leaked for good: `leak_free_iff` says exactly which
calls leak.
-/

namespace Aesd

open SysLib

/-- The block a pointer points to. -/
def Ptr.id? : Ptr → Option Nat
  | .block i => some i
  | _ => none

/-- The blocks the ten slots and `new_entry` point to. -/
def ownedIds (d : AesdDev) : List Nat :=
  (d.buffer.entry.toList ++ [d.newEntry]).filterMap fun e => e.buffptr.id?

/-- The pointers of a device between calls. -/
structure BlocksOk (s : Sys) : Prop where
  distinct : (ownedIds s.dev).Nodup
  /-- A slot is blank or points to a live block of its size. -/
  slots : ∀ e ∈ s.dev.buffer.entry.toList,
    e.buffptr = .null ∨ ∃ i c, e.buffptr = .block i ∧ s.heap.block i = some c ∧ c.length = e.size
  /-- So does the pending entry, unless its allocation is the empty one. -/
  newEntry : s.dev.newEntry.buffptr = .null ∨ (s.dev.newEntry.buffptr = .zeroSize ∧ s.dev.newEntry.size = 0) ∨
    ∃ i c, s.dev.newEntry.buffptr = .block i ∧ s.heap.block i = some c ∧ c.length = s.dev.newEntry.size

section Owned

variable {k : Kernel} {s : Sys} {ring rest : List (Nat × List Cell)} {pend : List Cell}

theorem filterMap_ids (ring : List (Nat × List Cell)) :
    (ring.map ringEntry).filterMap (fun e => e.buffptr.id?) = ring.map Prod.fst := by
  induction ring with
  | nil => rfl
  | cons b bs ih => rw [List.map_cons, List.filterMap_cons, ih]; rfl

theorem blocks_ids (p : Ptr) (c : List Cell) : (p.blocks c).map Prod.fst = p.id?.toList := by
  cases p <;> rfl

/-- The slots are the stored entries and blank ones. -/
theorem Owns.slots_perm (h : Owns k s ring pend rest) :
    ∃ n, (ring.map ringEntry ++ List.replicate n BufferEntry.zero).Perm s.dev.buffer.entry.toList := by
  refine ⟨maxWriteOperationsSupported - s.dev.buffer.count, .trans (.of_eq ?_) (CircularBuffer.slots_perm _)⟩
  rw [window_split _ _ _ s.dev.buffer.count_le, ← h.entries]
  refine congrArg _ (List.eq_replicate_iff.2 ⟨by simp, fun e he => ?_⟩).symm
  obtain ⟨i, hi, rfl⟩ := mem_window.1 he
  rw [Nat.add_assoc]
  exact h.blank _ (by omega) (by have := s.dev.buffer.count_le; omega)

/-- The device points to exactly the blocks listed for it. -/
theorem Owns.slotIds_perm (h : Owns k s ring pend rest) :
    (s.dev.buffer.entry.toList.filterMap fun e => e.buffptr.id?).Perm (ring.map Prod.fst) := by
  obtain ⟨n, hp⟩ := h.slots_perm
  refine (hp.filterMap _).symm.trans (.of_eq ?_)
  rw [List.filterMap_append, filterMap_ids]
  simp [BufferEntry.zero, Ptr.id?]

theorem Owns.ownedIds_perm (h : Owns k s ring pend rest) :
    (ownedIds s.dev).Perm ((ring ++ s.dev.newEntry.buffptr.blocks pend).map Prod.fst) := by
  rw [ownedIds, List.filterMap_append, List.map_append]
  refine h.slotIds_perm.append (.of_eq ?_)
  rw [blocks_ids, List.filterMap_cons]
  cases s.dev.newEntry.buffptr <;> rfl

/-- The rest is what is live and not pointed to. -/
theorem Owns.rest_eq_nil_iff (h : Owns k s ring pend rest) :
    rest = [] ↔ ∀ i, s.heap.Live i ↔ i ∈ ownedIds s.dev := by
  have hex : s.heap.Exactly ((ring ++ s.dev.newEntry.buffptr.blocks pend) ++ rest) := by
    rw [List.append_assoc]; exact h.exactly
  have hmem (i : Nat) : i ∈ ownedIds s.dev ↔ i ∈ (ring ++ s.dev.newEntry.buffptr.blocks pend).map Prod.fst :=
    h.ownedIds_perm.mem_iff
  constructor
  · rintro rfl i
    rw [hmem, hex.live_iff, List.append_nil]
  · intro hall
    rw [List.eq_nil_iff_forall_not_mem]
    intro b hb
    have hnd := hex.nodup
    rw [List.map_append, List.nodup_append] at hnd
    have hlive : s.heap.Live b.1 := hex.live_iff.2 (List.mem_map.2 ⟨b, List.mem_append_right _ hb, rfl⟩)
    exact hnd.2.2 _ ((hmem _).1 ((hall _).1 hlive)) _ (List.mem_map.2 ⟨b, hb, rfl⟩) rfl

theorem Owns.blocksOk (h : Owns k s ring pend rest) : BlocksOk s where
  distinct := by
    refine h.ownedIds_perm.nodup_iff.2 ?_
    have := h.exactly.nodup
    rw [← List.append_assoc, List.map_append] at this
    exact this.sublist (List.sublist_append_left _ _)
  slots e he := by
    obtain ⟨n, hp⟩ := h.slots_perm
    rw [← hp.mem_iff, List.mem_append] at he
    rcases he with he | he
    · obtain ⟨b, hb, rfl⟩ := List.mem_map.1 he
      exact .inr ⟨b.1, b.2, rfl, h.exactly.block (List.mem_append_left _ hb), rfl⟩
    · rw [List.eq_of_mem_replicate he]; exact .inl rfl
  newEntry := by
    have hex := h.exactly
    rcases h.newEntry with ⟨hn, -⟩ | ⟨hp, hs⟩
    · exact .inl hn
    · generalize s.dev.newEntry.buffptr = p at hp hex
      cases hp with
      | zeroSize => exact .inr (.inl ⟨rfl, hs⟩)
      | block i c hc =>
        refine .inr (.inr ⟨i, pend, rfl, hex.block ?_, hs.symm⟩)
        exact List.mem_append_right _ (List.mem_append_left _ (List.mem_singleton_self _))

/-! ## Unloading the module -/

/-- The cleanup loop frees the blocks of the slots it visits. -/
theorem cleanupSlots_ok (es : List BufferEntry) {h : Memory} {bs rest : List (Nat × List Cell)}
    (hp : (es.filterMap fun e => e.buffptr.id?).Perm (bs.map Prod.fst)) (he : h.Exactly (bs ++ rest)) :
    ∃ h', cleanupSlots es h = .ok h' ∧ h'.Exactly rest := by
  induction es generalizing h bs with
  | nil =>
    obtain rfl : bs = [] := by simpa using hp
    exact ⟨h, rfl, he⟩
  | cons e es ih =>
    cases hb : e.buffptr with
    | null =>
      rw [List.filterMap_cons, hb] at hp
      simp only [cleanupSlots, hb]
      exact ih hp he
    | zeroSize =>
      rw [List.filterMap_cons, hb] at hp
      simp only [cleanupSlots, hb, kfree]
      exact ih hp he
    | block i =>
      rw [List.filterMap_cons, hb] at hp
      obtain ⟨⟨j, c⟩, hm, rfl⟩ := List.mem_map.1 (hp.mem_iff.1 (List.mem_cons_self (a := i)))
      obtain ⟨bs', hbs⟩ : ∃ bs', bs.Perm ((j, c) :: bs') := by
        obtain ⟨l₁, l₂, rfl⟩ := List.append_of_mem hm
        exact ⟨_, List.perm_middle⟩
      have hp' := (hp.trans (hbs.map _)).cons_inv
      have he' : h.Exactly ((j, c) :: (bs' ++ rest)) := he.perm (hbs.append_right _)
      obtain ⟨h', hc, hex⟩ := ih hp' he'.free
      exact ⟨h', by simp [cleanupSlots, hb, kfree, he'.head, hc], hex⟩

/-- Unloading frees the blocks of the device and no others. -/
theorem Owns.cleanup (h : Owns k s ring pend rest) :
    ∃ m, aesdCleanupModule s = .ok m ∧ m.Exactly rest := by
  obtain ⟨m, hm, hex⟩ := cleanupSlots_ok _ h.slotIds_perm h.exactly
  unfold aesdCleanupModule
  rw [hm]
  rcases h.newEntry with ⟨hn, -⟩ | ⟨hp, -⟩
  · rw [hn] at hex ⊢
    exact ⟨m, by simp, hex⟩
  · obtain ⟨m', hf, hex⟩ := kfree_points hp hex
    exact ⟨m', by simp [hp.ne_null, hf], hex⟩

end Owned

/-! ## No dangling block -/

/-- No sequence of calls, whatever its outcomes, frees, reallocates or accesses
memory wrongly; between calls the pointers of the device are distinct live
blocks of the recorded sizes; and unloading the module frees no wrong pointer. -/
theorem no_dangling_block (k : Kernel) (is : List Invocation) :
    ∃ evs s m, runCalls k is aesdInitModule = .ok (evs, s) ∧ BlocksOk s ∧ aesdCleanupModule s = .ok m := by
  obtain ⟨evs, s, hr, ⟨ring, pend, rest, h⟩, -⟩ :=
    runCalls_induct k (fun _ _ => True) trivial (fun _ _ _ _ _ _ _ _ _ _ => trivial) is
  obtain ⟨m, hm, -⟩ := h.cleanup
  exact ⟨evs, s, m, hr, h.blocksOk, hm⟩

/-! ## Leaks -/

/-- A write that leaves its `kbuf` behind: it gets one, of at least one byte, and
does not come to the `kfree` after a failed `krealloc`. -/
def LeavesKbuf (k : Kernel) (i : Invocation) (s : Sys) : Prop :=
  ∃ f src, i.filp = some f ∧ i.call = .write (some src) ∧ src ≠ [] ∧
    ¬ k.Refuses i.outcome.kmalloc src.length ∧
    ¬ (Reaches k i.outcome i.filp (some src) s src ∧
      k.Refuses i.outcome.krealloc (s.dev.newEntry.size + src.length))

section Leaks

variable {k : Kernel} {s : Sys} {ring rest : List (Nat × List Cell)} {pend : List Cell}

theorem blocks_eq_nil_iff (p : Ptr) (c : List Cell) : p.blocks c = [] ↔ ¬ ∃ j, p = .block j := by
  cases p <;> simp [Ptr.blocks]

/-- A write that does not come to the failing `krealloc` leaves its `kbuf`,
unless it is empty. -/
theorem leavesKbuf_iff {i : Invocation} {f : File} {src : List UInt8} (hf : i.filp = some f)
    (hw : i.call = .write (some src)) (hr : ¬ k.Refuses i.outcome.kmalloc src.length)
    (hn : ¬ (Reaches k i.outcome i.filp (some src) s src ∧
      k.Refuses i.outcome.krealloc (s.dev.newEntry.size + src.length))) :
    LeavesKbuf k i s ↔ src ≠ [] := by
  constructor
  · rintro ⟨_, src', -, hw', hne, -⟩
    rw [hw, Call.write.injEq, Option.some.injEq] at hw'
    exact hw' ▸ hne
  · exact fun hne => ⟨f, src, hf, hw, hne, hr, hn⟩

/-- A call that gets no `kbuf` leaks nothing. -/
theorem no_kbuf {i : Invocation} (hno : ∀ f src, i.filp = some f → i.call = .write (some src) →
    k.Refuses i.outcome.kmalloc src.length) : ¬ LosesPending k i s ∧ ¬ LeavesKbuf k i s := by
  constructor
  · rintro ⟨src, hw, hreach, -⟩
    obtain ⟨f, hf, -⟩ := hreach.filp_eq
    exact hreach.allocated (hno f src hf hw)
  · rintro ⟨f, src, hf, hw, -, hr, -⟩
    exact hr (hno f src hf hw)

/-- A write whose new blocks are those of its `kbuf`: it leaks exactly if it has them. -/
theorem kbuf_left {i : Invocation} {s' : Sys} {f : File} {src : List UInt8} (hf : i.filp = some f)
    (hw : i.call = .write (some src)) (hr : ¬ k.Refuses i.outcome.kmalloc src.length)
    {kb ring' : List (Nat × List Cell)} {pend' : List Cell} (hkb : kb = [] ↔ src = [])
    (hh : Holds k s' ring' pend' (kb ++ rest))
    (hn : ¬ (Reaches k i.outcome i.filp (some src) s src ∧
      k.Refuses i.outcome.krealloc (s.dev.newEntry.size + src.length))) :
    ∃ ring' pend' rest', Holds k s' ring' pend' rest' ∧
      (rest' = [] ↔ rest = [] ∧ ¬ LosesPending k i s ∧ ¬ LeavesKbuf k i s) := by
  have hlose : ¬ LosesPending k i s := by
    rintro ⟨src', hw', hreach, href, -⟩
    rw [hw, Call.write.injEq, Option.some.injEq] at hw'
    subst hw'
    exact hn ⟨hreach, href⟩
  refine ⟨ring', pend', kb ++ rest, hh, ?_⟩
  rw [leavesKbuf_iff hf hw hr hn, List.append_eq_nil_iff, hkb]
  simp only [hlose, not_false_eq_true, true_and, not_not]
  exact And.comm

/-- One call adds to the rest exactly if it leaks. -/
theorem leak_step (h : Holds k s ring pend rest) {i : Invocation} {r : Return} (he : i.exec k s = .ok r) :
    ∃ ring' pend' rest', Holds k r.sys ring' pend' rest' ∧
      (rest' = [] ↔ rest = [] ∧ ¬ LosesPending k i s ∧ ¬ LeavesKbuf k i s) := by
  rcases exec_cases h he with ⟨buf, hw, -, -, heff⟩ | ⟨hw, hsys, -⟩
  · obtain ⟨ret, data, fPos, s'⟩ := r
    simp only at heff
    have hsize := h.newEntry.size_eq
    cases heff with
    | refused hr =>
      have hno : ¬ LosesPending k i s ∧ ¬ LeavesKbuf k i s := no_kbuf fun f src hf hw' => by
        rw [hw, Call.write.injEq] at hw'
        rcases hr with hr | hr
        · rw [hr] at hf; cases hf
        · rw [hr] at hw'; cases hw'
      exact ⟨ring, pend, rest, h, by simp [hno]⟩
    | noMemory hf hbuf hr =>
      have hno : ¬ LosesPending k i s ∧ ¬ LeavesKbuf k i s := no_kbuf fun _ src' _ hw' => by
        rw [hw, hbuf, Call.write.injEq, Option.some.injEq] at hw'
        exact hw' ▸ hr
      exact ⟨ring, pend, rest, h, by simp [hno]⟩
    | dropped hf hbuf hr hstop hkb _ _ hh =>
      refine kbuf_left hf (hbuf ▸ hw) hr hkb hh fun hn => ?_
      rw [hf] at hn
      exact hstop.not_reaches hn.1
    | @lost src _ hreach hr hd _ hh =>
      refine ⟨_, _, _, hh, ?_⟩
      have hbuf := hreach.buf_eq
      rw [List.append_eq_nil_iff, blocks_eq_nil_iff]
      have h1 : LosesPending k i s ↔ ∃ j, s.dev.newEntry.buffptr = .block j :=
        ⟨fun ⟨_, _, _, _, hj⟩ => hj, fun hj =>
          ⟨src, hbuf ▸ hw, hbuf ▸ hreach, by rw [hsize]; exact hr, hj⟩⟩
      have h2 : ¬ LeavesKbuf k i s := by
        rintro ⟨f', src', -, hw', -, -, hn⟩
        rw [hw, hbuf, Call.write.injEq, Option.some.injEq] at hw'
        subst hw'
        exact hn ⟨hbuf ▸ hreach, by rw [hsize]; exact hr⟩
      rw [h1]
      simp only [h2, not_false_eq_true, and_true]
      exact And.comm
    | kept hreach hr _ hkb _ _ _ hh =>
      obtain ⟨f, hf, -⟩ := hreach.filp_eq
      exact kbuf_left hf (hreach.buf_eq ▸ hw) hreach.allocated hkb hh fun hn => hr (by rw [← hsize]; exact hn.2)
    | committed hreach hr _ hkb _ _ _ hh =>
      obtain ⟨f, hf, -⟩ := hreach.filp_eq
      exact kbuf_left hf (hreach.buf_eq ▸ hw) hreach.allocated hkb hh fun hn => hr (by rw [← hsize]; exact hn.2)
  · have hno : ¬ LosesPending k i s ∧ ¬ LeavesKbuf k i s := no_kbuf fun _ _ _ hw' => absurd hw' (hw _)
    exact ⟨ring, pend, rest, by rw [hsys]; exact h.setLock _, by simp [hno]⟩

end Leaks

/-- The live blocks are those the device points to, and unloading the module
leaves none, exactly after the runs in which no write leaks. -/
theorem leak_free_iff (k : Kernel) (is : List Invocation) :
    ∃ evs s m, runCalls k is aesdInitModule = .ok (evs, s) ∧ aesdCleanupModule s = .ok m ∧
      ((∀ e ∈ evs, e.output.ret ≠ none) →
        (((∀ i, s.heap.Live i ↔ i ∈ ownedIds s.dev) ∧ ∀ i, ¬ m.Live i) ↔
          ∀ e ∈ evs, ¬ LosesPending k e.input e.before ∧ ¬ LeavesKbuf k e.input e.before)) := by
  obtain ⟨evs, s, hr, -, ring, pend, rest, h, hiff⟩ := runCalls_induct k
    (fun evs s => ∃ ring pend rest, Holds k s ring pend rest ∧
      (rest = [] ↔ ∀ e ∈ evs, ¬ LosesPending k e.input e.before ∧ ¬ LeavesKbuf k e.input e.before))
    ⟨[], [], [], holds_init k, by simp⟩
    (fun evs s i r _ _ _ _ hI he => by
      obtain ⟨ring, pend, rest, h, hiff⟩ := hI
      obtain ⟨ring', pend', rest', h', hstep⟩ := leak_step h he
      refine ⟨ring', pend', rest', h', hstep.trans ?_⟩
      rw [hiff, List.forall_mem_append, List.forall_mem_singleton])
    is
  obtain ⟨m, hm, hex⟩ := h.cleanup
  refine ⟨evs, s, m, hr, hm, fun _ => ?_⟩
  rw [← hiff]
  constructor
  · exact fun ⟨hlive, _⟩ => h.rest_eq_nil_iff.2 hlive
  · rintro rfl
    exact ⟨h.rest_eq_nil_iff.1 rfl, hex.nil⟩

/-- One successful write of a line leaves its `kbuf` behind for good. -/
theorem kbuf_leaks :
    ∃ evs s m, runCalls .pages4K
        [⟨some ⟨true, 0⟩, .write (some [97, newline]), ⟨false, some 0, some 0, 0⟩⟩] aesdInitModule = .ok (evs, s) ∧
      evs.map (·.output.ret) = [some 2] ∧ s.heap.Live 0 ∧ 0 ∉ ownedIds s.dev ∧
      aesdCleanupModule s = .ok m ∧ m.Live 0 :=
  ⟨_, _, _, rfl, rfl, rfl, by decide, rfl, rfl⟩

end Aesd
