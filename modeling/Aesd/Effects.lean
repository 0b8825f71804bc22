import Aesd.Holds
/-!
# What each call does

`SectionEffect` and `WriteEffect` list the ways a write can end, with the blocks
that exist afterwards. A read whose copy fails keeps the lock; other than that, it
and the other two operations change no more than the position of their file
(`aesdRead_effect`, `exec_quiet`).
-/

namespace Aesd

open SysLib

section Writes

variable {k : Kernel} {s : Sys} {ring rest : List (Nat × List Cell)} {pend : List Cell}

/-- The locked part of a write, in three cases. -/
inductive SectionEffect (k : Kernel) (o : Outcome) (kbuf : Ptr) (data : List Cell) (s : Sys)
    (ring : List (Nat × List Cell)) (pend : List Cell) (rest : List (Nat × List Cell)) : Int → Sys → Prop
  /-- `krealloc` fails: `kbuf` is freed, the pending block is lost. -/
  | lost {s' : Sys} : k.Refuses o.krealloc (pend.length + data.length) →
      s'.dev = { s.dev with newEntry := ⟨.null, pend.length⟩ } → s'.committed = s.committed →
      Holds k s' ring (List.replicate pend.length none) (s.dev.newEntry.buffptr.blocks pend ++ rest) →
      SectionEffect k o kbuf data s ring pend rest (-ENOMEM) s'
  /-- No newline: the bytes join the pending ones. -/
  | kept {s' : Sys} : ¬ k.Refuses o.krealloc (pend.length + data.length) → some newline ∉ data →
      s'.dev.lock = s.dev.lock → s'.committed = s.committed → s'.dev.newEntry.buffptr ≠ .null →
      Holds k s' ring (pend ++ data) (kbuf.blocks data ++ rest) →
      SectionEffect k o kbuf data s ring pend rest data.length s'
  /-- A newline: the pending bytes and these become one entry. -/
  | committed {s' : Sys} {i : Nat} : ¬ k.Refuses o.krealloc (pend.length + data.length) →
      some newline ∈ data → s'.dev.lock = s.dev.lock → s'.committed = s.committed ++ [pend ++ data] →
      s'.dev.newEntry.buffptr = .null → Holds k s' (pushRing ring (i, pend ++ data)) [] (kbuf.blocks data ++ rest) →
      SectionEffect k o kbuf data s ring pend rest data.length s'

theorem toLoffT_size {k : Kernel} {n : Nat} (h : n ≤ k.kmallocMaxSize) : toLoffT n = n := by
  have := k.kmallocMaxSize_le
  exact toLoffT_of_lt (by omega) (by omega)

theorem writeSection_effect (o : Outcome) {kbuf : Ptr} {data : List Cell}
    (h : Holds k s ring pend (kbuf.blocks data ++ rest)) (hk : Points kbuf data)
    (hlen : data.length ≤ k.kmallocMaxSize) :
    ∃ ret s', writeSection k o kbuf data.length (hasNewline data) s = .ok (ret, s') ∧
      SectionEffect k o kbuf data s ring pend rest ret s' := by
  have hsize := h.newEntry.size_eq
  have hmod := Nat.mod_eq_of_lt (k.add_lt h.pend_small hlen)
  have hfront : s.heap.Exactly (s.dev.newEntry.buffptr.blocks pend ++ (kbuf.blocks data ++ (ring ++ rest))) :=
    h.exactly.perm (List.perm_iff_count.2 fun b => by simp only [List.count_append]; omega)
  rcases krealloc_pends h.newEntry hfront data.length o.krealloc with
    ⟨hr, he⟩ | ⟨hr, hs, p, heap, he, hp, hex⟩
  · -- `krealloc` fails
    have hkbuf : s.heap.Exactly (kbuf.blocks data ++ (s.dev.newEntry.buffptr.blocks pend ++ (ring ++ rest))) :=
      h.exactly.perm (List.perm_iff_count.2 fun b => by simp only [List.count_append]; omega)
    obtain ⟨heap, hfree, hex⟩ := kfree_points hk hkbuf
    refine ⟨-ENOMEM, { s with dev := { s.dev with newEntry := ⟨.null, pend.length⟩ }, heap := heap }, ?_,
      .lost hr rfl rfl ?_⟩
    · simp only [writeSection, hsize, hmod, he, ok_bind, if_true, hfree]
    · refine { h with newEntry := .inl ⟨rfl, rfl⟩, exactly := hex.perm ?_, pend_small := ?_, pend_line := ?_ }
      · exact List.perm_iff_count.2 fun b => by simp only [Ptr.blocks, List.count_append, List.count_nil]; omega
      · rw [List.length_replicate]; exact h.pend_small
      · simp
  · -- the block grows, and `kbuf` is copied behind the pending bytes
    obtain ⟨heap, hcpy, hp, hex⟩ := memcpy_pending hp hk hex fun b hb => List.mem_append_left _ hb
    have hnew : Owns k { s with
        dev := { s.dev with newEntry := ⟨p, pend.length + data.length⟩ }, heap := heap }
        ring (pend ++ data) (kbuf.blocks data ++ rest) :=
      { h with
        newEntry := .inr ⟨hp, by simp⟩
        exactly := hex.perm (List.perm_iff_count.2 fun b => by simp only [List.count_append]; omega)
        pend_small := by rw [List.length_append]; exact hs }
    by_cases hn : some newline ∈ data
    · obtain ⟨i, s', hc, hl, hnull, hcom, hh⟩ := commitEntry_owns hnew (List.mem_append_right _ hn) hp
      refine ⟨data.length, s', ?_, .committed hr hn hl hcom hnull hh⟩
      simp only [writeSection, hsize, hmod, he, ok_bind, if_neg hp.ne_null, hcpy, (hasNewline_iff data).2 hn,
        if_true, hc, toLoffT_size hlen]
    · have hno : hasNewline data = false := by
        rw [← Bool.not_eq_true, hasNewline_iff]; exact hn
      refine ⟨data.length, { s with
        dev := { s.dev with newEntry := ⟨p, pend.length + data.length⟩ }, heap := heap }, ?_,
        .kept hr hn rfl rfl hp.ne_null ⟨hnew, ?_⟩⟩
      · simp only [writeSection, hsize, hmod, he, ok_bind, if_neg hp.ne_null, hcpy, hno, toLoffT_size hlen,
          Bool.false_eq_true, if_false]
      · rw [List.mem_append]
        exact fun hm => hm.elim h.pend_line hn

/-- A write with these arguments and outcomes gets as far as `krealloc`. -/
structure Reaches (k : Kernel) (o : Outcome) (filp : Option File) (buf : Option (List UInt8)) (s : Sys)
    (src : List UInt8) : Prop where
  filp_eq : ∃ f, filp = some f ∧ f.privateData = true
  buf_eq : buf = some src
  allocated : ¬ k.Refuses o.kmalloc src.length
  copied : min o.uncopied src.length = 0
  unlocked : s.dev.lock = false

/-- Why a write that has its `kbuf` stops short of `krealloc`, and what it returns. -/
def Stops (o : Outcome) (f : File) (src : List UInt8) (s : Sys) (ret : Option Int) : Prop :=
  (min o.uncopied src.length ≠ 0 ∧ ret = some (-EFAULT)) ∨
  (min o.uncopied src.length = 0 ∧ f.privateData = false ∧ ret = some (-EINVAL)) ∨
  (min o.uncopied src.length = 0 ∧ f.privateData = true ∧ s.dev.lock = true ∧ ret = none)

/-- A write that stops short of `krealloc` does not reach it. -/
theorem Stops.not_reaches {o : Outcome} {f : File} {src : List UInt8} {ret : Option Int}
    (h : Stops o f src s ret) : ¬ Reaches k o (some f) (some src) s src := by
  rintro ⟨⟨f', hf, hpd⟩, -, -, hcopied, hunl⟩
  obtain rfl := Option.some.inj hf
  rcases h with ⟨h, -⟩ | ⟨-, h, -⟩ | ⟨-, -, h, -⟩
  · exact h hcopied
  · rw [hpd] at h; cases h
  · rw [hunl] at h; cases h

/-- A whole write: the value it returns, if it does, and the system. `kb` is the
block of `kbuf`, which an empty write has none of. -/
inductive WriteEffect (k : Kernel) (o : Outcome) (filp : Option File) (buf : Option (List UInt8)) (s : Sys)
    (ring : List (Nat × List Cell)) (pend : List Cell) (rest : List (Nat × List Cell)) :
    Option Int → Sys → Prop
  | refused : filp = none ∨ buf = none → WriteEffect k o filp buf s ring pend rest (some (-EINVAL)) s
  | noMemory {f : File} {src : List UInt8} : filp = some f → buf = some src →
      k.Refuses o.kmalloc src.length → WriteEffect k o filp buf s ring pend rest (some (-ENOMEM)) s
  /-- `kbuf` is never freed. -/
  | dropped {f : File} {src : List UInt8} {kb : List (Nat × List Cell)} {ret : Option Int} {s' : Sys} :
      filp = some f → buf = some src → ¬ k.Refuses o.kmalloc src.length → Stops o f src s ret →
      (kb = [] ↔ src = []) → s'.dev = s.dev → s'.committed = s.committed →
      Holds k s' ring pend (kb ++ rest) → WriteEffect k o filp buf s ring pend rest ret s'
  /-- `kbuf` is freed, but the pending block is lost. -/
  | lost {src : List UInt8} {s' : Sys} : Reaches k o filp buf s src →
      k.Refuses o.krealloc (pend.length + src.length) →
      s'.dev = { s.dev with newEntry := ⟨.null, pend.length⟩ } → s'.committed = s.committed →
      Holds k s' ring (List.replicate pend.length none) (s.dev.newEntry.buffptr.blocks pend ++ rest) →
      WriteEffect k o filp buf s ring pend rest (some (-ENOMEM)) s'
  /-- `kbuf` is never freed. -/
  | kept {src : List UInt8} {kb : List (Nat × List Cell)} {s' : Sys} : Reaches k o filp buf s src →
      ¬ k.Refuses o.krealloc (pend.length + src.length) → newline ∉ src → (kb = [] ↔ src = []) →
      s'.dev.lock = false → s'.committed = s.committed → s'.dev.newEntry.buffptr ≠ .null →
      Holds k s' ring (pend ++ src.map some) (kb ++ rest) →
      WriteEffect k o filp buf s ring pend rest (some src.length) s'
  /-- `kbuf` is never freed. -/
  | committed {src : List UInt8} {kb : List (Nat × List Cell)} {s' : Sys} {i : Nat} :
      Reaches k o filp buf s src → ¬ k.Refuses o.krealloc (pend.length + src.length) → newline ∈ src →
      (kb = [] ↔ src = []) → s'.dev.lock = false → s'.committed = s.committed ++ [pend ++ src.map some] →
      s'.dev.newEntry.buffptr = .null → Holds k s' (pushRing ring (i, pend ++ src.map some)) [] (kb ++ rest) →
      WriteEffect k o filp buf s ring pend rest (some src.length) s'

/-- `copy_from_user` into a fresh `kbuf`. -/
theorem copyFromUser_points {h : Memory} {bs : List (Nat × List Cell)} {p : Ptr} (src : List UInt8)
    (uncopied : Nat) (hp : Points p (List.replicate src.length none))
    (he : h.Exactly (p.blocks (List.replicate src.length none) ++ bs)) :
    ∃ h' cells, copyFromUser p src uncopied h = .ok (h', min uncopied src.length) ∧ Points p cells ∧
      cells.length = src.length ∧ h'.Exactly (p.blocks cells ++ bs) ∧
      (min uncopied src.length = 0 → cells = src.map some) := by
  have hl : ((src.take (src.length - min uncopied src.length)).map some ++
      List.replicate (min uncopied src.length) (some (0 : UInt8))).length = src.length := by
    simp only [List.length_append, List.length_map, List.length_take, List.length_replicate]; omega
  obtain ⟨h', hst, he'⟩ := store_points hp he
    (show 0 + _ ≤ (List.replicate src.length (none : Cell)).length by
      rw [hl, List.length_replicate, Nat.zero_add])
  rw [Heap.overwrite_all _ _ (by rw [hl, List.length_replicate])] at he'
  refine ⟨h', _, ?_, hp.of_length (by rw [hl, List.length_replicate]), hl, he', fun h0 => ?_⟩
  · simp only [copyFromUser, hst, ok_bind]
  · rw [h0]; simp

theorem aesdWrite_effect (h : Holds k s ring pend rest) (o : Outcome) (filp : Option File)
    (buf : Option (List UInt8)) (fPos : Int) :
    ∃ ret s', aesdWrite k o filp buf fPos s = .ok ⟨ret, [], fPos, s'⟩ ∧
      WriteEffect k o filp buf s ring pend rest ret s' := by
  match filp, buf with
  | none, _ => exact ⟨_, _, rfl, .refused (.inl rfl)⟩
  | some f, none => exact ⟨_, _, rfl, .refused (.inr rfl)⟩
  | some f, some src =>
    have hex : s.heap.Exactly (ring ++ (s.dev.newEntry.buffptr.blocks pend ++ rest)) := h.exactly
    rcases kmalloc_cases hex src.length o.kmalloc with ⟨hr, he⟩ | ⟨hr, hs, kbuf, heap, he, hp, hex⟩
    · exact ⟨_, _, by simp only [aesdWrite, he, if_true], .noMemory rfl rfl hr⟩
    obtain ⟨heap, cells, hcpy, hp, hlen, hex, hcells⟩ := copyFromUser_points src o.uncopied hp hex
    have hh : Holds k { s with heap := heap } ring pend (kbuf.blocks cells ++ rest) :=
      h.withHeap (hex.perm (List.perm_iff_count.2 fun b => by simp only [List.count_append]; omega))
    have hkb : kbuf.blocks cells = [] ↔ src = [] := by
      rw [hp.blocks_eq_nil_iff, ← List.length_eq_zero_iff, hlen, List.length_eq_zero_iff]
    by_cases hstat : min o.uncopied src.length = 0
    · have hload : load kbuf 0 src.length heap = .ok cells := by
        rw [load_points hp hex (fun b hb => List.mem_append_left _ hb) (by omega), List.drop_zero, ← hlen,
          List.take_length]
      cases hpd : f.privateData with
      | false =>
        refine ⟨some (-EINVAL), { s with heap := heap }, ?_,
          .dropped rfl rfl hr (.inr (.inl ⟨hstat, hpd, rfl⟩)) hkb rfl rfl hh⟩
        simp [aesdWrite, he, hp.ne_null, hcpy, hstat, hload, hpd]
      | true =>
        cases hlk : s.dev.lock with
        | true =>
          refine ⟨none, { s with heap := heap }, ?_,
            .dropped rfl rfl hr (.inr (.inr ⟨hstat, hpd, hlk, rfl⟩)) hkb rfl rfl hh⟩
          simp [aesdWrite, he, hp.ne_null, hcpy, hstat, hload, hpd, mutexLock, hlk]
        | false =>
          have hreach : Reaches k o (some f) (some src) s src := ⟨⟨f, rfl, hpd⟩, rfl, hr, hstat, hlk⟩
          obtain rfl := hcells hstat
          have hcount : (src.map some).length = src.length := List.length_map ..
          obtain ⟨ret, s', hsec, heff⟩ := writeSection_effect o (hh.setLock true) hp (by rw [hcount]; exact hs)
          rw [hcount] at hsec
          refine ⟨some ret, s'.setLock false, ?_, ?_⟩
          · simp only [aesdWrite, he, if_neg hp.ne_null, hcpy, ok_bind, hstat, ne_eq, not_true_eq_false,
              if_false, hload, hpd, mutexLock, hlk, hsec, Bool.false_eq_true, reduceCtorEq]
          · cases heff with
            | lost hr' hd hc hh' =>
              rw [hcount] at hr'
              refine .lost hreach hr' ?_ hc (hh'.setLock false)
              simp only [Sys.setLock, hd, ← hlk]
            | kept hr' hn hl hc hne hh' =>
              rw [hcount] at hr' ⊢
              exact .kept hreach hr' (by simpa using hn) hkb rfl hc hne (hh'.setLock false)
            | committed hr' hn hl hc hnull hh' =>
              rw [hcount] at hr' ⊢
              exact .committed hreach hr' (by simpa using hn) hkb rfl hc hnull (hh'.setLock false)
    · refine ⟨some (-EFAULT), { s with heap := heap }, ?_,
        .dropped rfl rfl hr (.inl ⟨hstat, rfl⟩) hkb rfl rfl hh⟩
      simp only [aesdWrite, he, if_neg hp.ne_null, hcpy, ok_bind, ne_eq, hstat, not_false_eq_true, if_true]

end Writes

/-! ## Reads and seeks -/

section Reads

variable {k : Kernel} {s : Sys} {ring rest : List (Nat × List Cell)} {pend : List Cell}

/-- The device's contents: its stored entries, end to end. -/
def contents (ring : List (Nat × List Cell)) : List Cell := (ring.map Prod.snd).flatten

/-- The stored bytes are few enough that no 64-bit sum over them wraps. -/
theorem Owns.contents_le (h : Owns k s ring pend rest) : (contents ring).length ≤ 10 * 2 ^ 59 := by
  have hsum : (contents ring).length ≤ ring.length * k.kmallocMaxSize := by
    rw [contents, List.length_flatten, List.map_map]
    refine (sum_le_of_forall_le fun n hn => ?_).trans (Nat.le_of_eq (by rw [List.length_map]))
    obtain ⟨b, hb, rfl⟩ := List.mem_map.1 hn
    exact h.ring_small b hb
  exact hsum.trans (Nat.mul_le_mul h.ring_le k.kmallocMaxSize_le)

theorem Owns.contents_lt (h : Owns k s ring pend rest) : (contents ring).length < 2 ^ 63 := by
  have := h.contents_le
  omega

theorem Owns.getLength (h : Owns k s ring pend rest) : s.dev.buffer.getLength = (contents ring).length := by
  have hne : ∀ e ∈ s.dev.buffer.entries, e.buffptr ≠ .null := by
    rw [h.entries]
    intro e he
    obtain ⟨b, -, rfl⟩ := List.mem_map.1 he
    simp [ringEntry]
  rw [CircularBuffer.getLength_eq, CircularBuffer.attachedSize_slots h.blank hne, h.sizes, contents, List.length_flatten, Nat.mod_eq_of_lt]
  have := h.contents_lt
  rw [contents, List.length_flatten] at this
  simp only [sizeTMod]; omega

theorem toSizeT_lt (x : Int) : toSizeT x < sizeTMod := by
  unfold toSizeT sizeTMod
  omega

/-- The lookup of a position that holds no byte. -/
theorem Owns.find_none (h : Owns k s ring pend rest) {p : Nat} (hp : p < sizeTMod)
    (hle : (contents ring).length ≤ p) : (s.dev.buffer.findEntryOffsetForFpos p 0).1 = none := by
  have hl : locate s.dev.buffer.sizes p = none := by
    rw [locate_eq_none_iff, h.sizes, ← List.length_flatten]
    exact hle
  rw [CircularBuffer.findEntryOffsetForFpos_eq h.wellFormed hp, hl]

/-- The lookup of a position that holds a byte: the entry's block, and the rest
of the entry from the offset on. -/
theorem Owns.find_some (h : Owns k s ring pend rest) {p : Nat} (hp : p < sizeTMod)
    (hlt : p < (contents ring).length) :
    ∃ posn j i c, s.dev.buffer.findEntryOffsetForFpos p 0 = (some posn, j) ∧
      s.dev.buffer.slot posn = ringEntry (i, c) ∧ (i, c) ∈ ring ∧ j < c.length ∧
      restAt (ring.map Prod.snd) p = c.drop j := by
  cases hl : locate s.dev.buffer.sizes p with
  | none =>
    rw [locate_eq_none_iff, h.sizes, ← List.length_flatten] at hl
    exact absurd hlt (Nat.not_lt.2 hl)
  | some nj =>
    obtain ⟨n, j⟩ := nj
    have hrest : restAt (ring.map Prod.snd) p = _ := restAt_of_locate (by rw [← h.sizes]; exact hl)
    obtain ⟨hn, hj, -⟩ := locate_eq_some hl
    rw [CircularBuffer.sizes_length] at hn
    have hslot := CircularBuffer.slot_of_entries hn
    have hnr : n < ring.length := by rw [h.ring_length]; exact hn
    rw [h.entries, List.getElem?_map, List.getElem?_eq_getElem hnr, Option.map_some, Option.some.injEq] at hslot
    refine ⟨_, j, ring[n].1, ring[n].2, ?_, hslot.symm, List.getElem_mem hnr, ?_, ?_⟩
    · rw [CircularBuffer.findEntryOffsetForFpos_eq h.wellFormed hp, hl]
    · simpa [h.sizes] using hj
    · rw [hrest, List.getD_eq_getElem?_getD, List.getElem?_map, List.getElem?_eq_getElem hnr]; rfl

/-- The locked part of a read, at a position past the stored bytes. -/
theorem readSection_end (h : Owns k s ring pend rest) (o : Outcome) (count : Nat) {fPos : Int}
    (hle : (contents ring).length ≤ toSizeT fPos) : readSection o count fPos s = .ok ⟨0, [], fPos, true⟩ := by
  have hf := h.find_none (toSizeT_lt fPos) hle
  unfold readSection
  split
  · rfl
  · rename_i heq; rw [heq] at hf; cases hf

/-- The locked part of a read, at a position that holds a byte: it delivers from
the rest of one entry, and unlocks if the user copy succeeds. -/
theorem readSection_inside (h : Owns k s ring pend rest) (o : Outcome) (count : Nat) {fPos : Int}
    (hlt : toSizeT fPos < (contents ring).length) {n : Nat}
    (hn : n = min count (restAt (ring.map Prod.snd) (toSizeT fPos)).length) :
    readSection o count fPos s =
      if min o.uncopied n = 0 then
        .ok ⟨n, (restAt (ring.map Prod.snd) (toSizeT fPos)).take n, toLoffT (fPos + n), true⟩
      else
        .ok ⟨0, (restAt (ring.map Prod.snd) (toSizeT fPos)).take (n - min o.uncopied n), fPos, false⟩ := by
  obtain ⟨posn, j, i, c, hf, hslot, hmem, hj, hrest⟩ := h.find_some (toSizeT_lt fPos) hlt
  have hpts : Points (.block i) c := .block i c (by rintro rfl; simp at hj)
  have hsmall := h.ring_small _ hmem
  rw [hrest] at hn ⊢
  rw [List.length_drop] at hn
  have hload : load (.block i) j n s.heap = .ok ((c.drop j).take n) :=
    load_points hpts h.exactly (fun b hb => List.mem_append_left _ (by
      rw [List.mem_singleton.1 hb]; exact hmem)) (by omega)
  have hcopy : copyToUser (.block i) j n o.uncopied s.heap =
      .ok ((c.drop j).take (n - min o.uncopied n), min o.uncopied n) := by
    simp only [copyToUser, hload, ok_bind, List.take_take]
    congr 3; omega
  have hloff : toLoffT n = n := toLoffT_size (k := k) (by simp only at hsmall; omega)
  have hnum : min count ((ringEntry (i, c)).size - j) = n := hn.symm
  unfold readSection
  simp only [hf, hslot, hnum]
  simp only [ringEntry, hcopy, ok_bind, hloff]
  split
  · rename_i h0; rw [h0, Nat.sub_zero]
  · rfl

/-- What the locked part of a read does not do: it makes no wrong access. -/
theorem readSection_ok (h : Owns k s ring pend rest) (o : Outcome) (count : Nat) (fPos : Int) :
    ∃ out, readSection o count fPos s = .ok out ∧
      (out.unlocks = false ↔ toSizeT fPos < (contents ring).length ∧ count ≠ 0 ∧ o.uncopied ≠ 0) := by
  rcases Nat.lt_or_ge (toSizeT fPos) (contents ring).length with hlt | hge
  · have hne : (restAt (ring.map Prod.snd) (toSizeT fPos)).length ≠ 0 := by
      rw [ne_eq, List.length_eq_zero_iff, restAt_eq_nil_iff]
      exact Nat.not_le.2 hlt
    rw [readSection_inside h o count hlt rfl]
    split
    · rename_i h0; refine ⟨_, rfl, ?_⟩; simp only [Bool.true_eq_false, false_iff]; omega
    · rename_i h0; refine ⟨_, rfl, ?_⟩; simp only [true_iff]; omega
  · rw [readSection_end h o count hge]
    exact ⟨_, rfl, by simp [Nat.not_lt.2 hge]⟩

end Reads

/-! ## Every call -/

section Calls

variable {k : Kernel} {s : Sys} {ring rest : List (Nat × List Cell)} {pend : List Cell}

/-- A read that leaves `dev->lock` held: it gets the lock, finds data at its
position, and the user copy fails. -/
def FaultedRead (o : Outcome) (filp : Option File) (c : Call) (s : Sys) : Prop :=
  ∃ f count, filp = some f ∧ c = .read true count ∧ f.privateData = true ∧ o.interrupted = false ∧
    s.dev.lock = false ∧ toSizeT f.fPos < s.dev.buffer.getLength ∧ count ≠ 0 ∧ o.uncopied ≠ 0

theorem lock_interrupted_iff (o : Outcome) (s : Sys) :
    mutexLockInterruptible o s = .interrupted ↔ o.interrupted = true := by
  unfold mutexLockInterruptible mutexLock
  cases o.interrupted <;> cases s.dev.lock <;> simp

theorem lock_blocked_iff (o : Outcome) (s : Sys) :
    mutexLockInterruptible o s = .blocked ↔ o.interrupted = false ∧ s.dev.lock = true := by
  unfold mutexLockInterruptible mutexLock
  cases o.interrupted <;> cases s.dev.lock <;> simp

theorem lock_acquired_iff (o : Outcome) (s : Sys) :
    mutexLockInterruptible o s = .acquired ↔ o.interrupted = false ∧ s.dev.lock = false := by
  unfold mutexLockInterruptible mutexLock
  cases o.interrupted <;> cases s.dev.lock <;> simp

theorem aesdRead_effect (h : Holds k s ring pend rest) (o : Outcome) (filp : Option File) (buf : Bool)
    (count : Nat) :
    ∃ r, Call.exec k o filp (.read buf count) s = .ok r ∧ r.sys = s.setLock r.sys.dev.lock ∧
      (s.dev.lock = true → r.sys.dev.lock = true) ∧
      (s.dev.lock = false → r.ret ≠ none ∧
        (r.sys.dev.lock = true ↔ FaultedRead o filp (.read buf count) s)) := by
  have hquiet : ∀ ret, ¬ FaultedRead o filp (.read buf count) s →
      Call.exec k o filp (.read buf count) s = .ok ⟨some ret, [], filePos filp, s⟩ → ∃ r,
      Call.exec k o filp (.read buf count) s = .ok r ∧ r.sys = s.setLock r.sys.dev.lock ∧
      (s.dev.lock = true → r.sys.dev.lock = true) ∧ (s.dev.lock = false → r.ret ≠ none ∧
        (r.sys.dev.lock = true ↔ FaultedRead o filp (.read buf count) s)) :=
    fun ret hf he => ⟨_, he, rfl, id, fun hl => ⟨by simp, by simp [hl, hf]⟩⟩
  match filp, buf with
  | none, _ => exact hquiet _ (by simp [FaultedRead]) rfl
  | some f, false => exact hquiet _ (by simp [FaultedRead]) rfl
  | some f, true =>
    cases hpd : f.privateData with
    | false => exact hquiet (-EINVAL) (by simp [FaultedRead, hpd]) (by simp [Call.exec, aesdRead, hpd])
    | true =>
      cases hm : mutexLockInterruptible o s with
      | interrupted =>
        exact hquiet (-ERESTARTSYS) (by simp [FaultedRead, (lock_interrupted_iff o s).1 hm])
          (by simp [Call.exec, aesdRead, hpd, hm])
      | blocked =>
        have hl := ((lock_blocked_iff o s).1 hm).2
        refine ⟨⟨none, [], f.fPos, s⟩, ?_, rfl, fun _ => hl, fun h0 => by simp [hl] at h0⟩
        simp [Call.exec, aesdRead, hpd, hm, filePos]
      | acquired =>
        obtain ⟨hint, hl⟩ := (lock_acquired_iff o s).1 hm
        obtain ⟨out, hout, hun⟩ := readSection_ok (h.setLock true).toOwns o count f.fPos
        have hiff : FaultedRead o (some f) (.read true count) s ↔ out.unlocks = false := by
          rw [hun, ← h.getLength]
          simp [FaultedRead, hpd, hint, hl]
        refine ⟨⟨some out.retval, out.data, out.fPos,
          if out.unlocks then (s.setLock true).setLock false else s.setLock true⟩, ?_, ?_, by simp [hl],
          fun _ => ⟨by simp, ?_⟩⟩
        · simp [Call.exec, aesdRead, hpd, hm, filePos, hout]
        · cases out.unlocks <;> rfl
        · rw [hiff]
          cases out.unlocks <;> simp [Sys.setLock]

/-- A call that is not a write leaves everything but the lock alone. -/
theorem exec_quiet (h : Holds k s ring pend rest) (o : Outcome) (filp : Option File) {c : Call}
    (hc : ∀ buf, c ≠ .write buf) :
    ∃ r, c.exec k o filp s = .ok r ∧ r.sys = s.setLock r.sys.dev.lock ∧
      (s.dev.lock = true → r.sys.dev.lock = true) ∧
      (s.dev.lock = false → r.ret ≠ none ∧ (r.sys.dev.lock = true ↔ FaultedRead o filp c s)) := by
  cases c with
  | read buf count => exact aesdRead_effect h o filp buf count
  | write buf => exact absurd rfl (hc buf)
  | llseek offset whence =>
    refine ⟨_, rfl, ?_⟩
    unfold aesdLlseek
    repeat' split
    all_goals refine ⟨rfl, ?_⟩
    all_goals simp_all [FaultedRead, Sys.setLock, lock_blocked_iff, lock_acquired_iff]
  | ioctl cmd seekto =>
    refine ⟨_, rfl, ?_⟩
    unfold aesdIoctl
    repeat' split
    all_goals refine ⟨rfl, ?_⟩
    all_goals simp_all [FaultedRead, Sys.setLock, lock_blocked_iff, lock_acquired_iff]

/-- A call that is not a write leaves a free device as it is, unless it is a faulted read. -/
theorem quiet_done (h : Holds k s ring pend rest) (hl : s.dev.lock = false) {o : Outcome} {filp : Option File}
    {c : Call} {r : Return} (hf : ¬ FaultedRead o filp c s) (hc : ∀ buf, c ≠ .write buf)
    (he : Call.exec k o filp c s = .ok r) : r.sys = s := by
  obtain ⟨r', he', hsys, -, hlk⟩ := exec_quiet h o filp hc
  obtain rfl : r' = r := Except.ok.inj (he'.symm.trans he)
  have hfree : r'.sys.dev.lock = false := by rw [← Bool.not_eq_true, (hlk hl).2]; exact hf
  rw [hsys, hfree]
  obtain ⟨⟨b, e, l⟩, m, cm, ev⟩ := s
  simp only at hl
  subst hl
  rfl

/-- A seek leaves it as it is. -/
theorem ioctl_quiet (h : Holds k s ring pend rest) (hl : s.dev.lock = false) {o : Outcome} {filp : Option File}
    {cmd : Nat} {seekto : AesdSeekto} {r : Return} (he : Call.exec k o filp (.ioctl cmd seekto) s = .ok r) :
    r.sys = s := by
  refine quiet_done h hl ?_ (fun _ => by simp) he
  rintro ⟨_, _, -, hc, -⟩
  cases hc

/-- So does a read whose copy succeeds, or that a signal interrupts. -/
theorem read_quiet (h : Holds k s ring pend rest) (hl : s.dev.lock = false) {o : Outcome} {filp : Option File}
    (ho : o.uncopied = 0 ∨ o.interrupted = true) {buf : Bool} {count : Nat} {r : Return}
    (he : Call.exec k o filp (.read buf count) s = .ok r) : r.sys = s := by
  refine quiet_done h hl ?_ (fun _ => by simp) he
  rintro ⟨_, _, -, -, -, hi, -, -, -, hu⟩
  rcases ho with ho | ho
  · exact hu ho
  · rw [hi] at ho
    cases ho

end Calls

end Aesd
