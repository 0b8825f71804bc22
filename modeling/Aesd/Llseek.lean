import Aesd.Seek
/-!
# Seeking in unbounded integers

`aesd_llseek` adds a `loff_t` to a `size_t` or to another `loff_t`, and compares
the sum with a `size_t`. The sums may wrap, but only to values that the range
check refuses, and what is not refused has not wrapped.
-/

namespace Aesd

open SysLib

/-- The sizes of the slots that have a buffer, added up in unbounded integers. In
every state of a run these are the stored entries. -/
def CircularBuffer.totalSize (b : CircularBuffer) : Nat := attachedSize b.entry.toList

/-- Where the seek should go, computed in unbounded integers. -/
def llseekTarget (totalSize : Nat) (fPos offset whence : Int) : Option Int :=
  if whence = SEEK_SET then some offset
  else if whence = SEEK_CUR then some (fPos + offset)
  else if whence = SEEK_END then some (totalSize + offset)
  else none

theorem toLoffT_cases {x : Int} (h0 : -2 ^ 63 ≤ x) (h : x < 2 ^ 64) :
    (x < 2 ^ 63 ∧ toLoffT x = x) ∨ (2 ^ 63 ≤ x ∧ toLoffT x < 0) := by
  unfold toLoffT
  rw [Int.bmod_def]
  split <;> omega

/-- The range check accepts a sum exactly if it is in range without wrapping. -/
theorem toLoffT_in_range {x : Int} (h0 : -2 ^ 63 ≤ x) (h : x < 2 ^ 64) {totalSize : Nat} (ht : totalSize < 2 ^ 63) :
    (toLoffT x < 0 ∨ toSizeT (toLoffT x) > totalSize) ↔ ¬ (0 ≤ x ∧ x ≤ totalSize) := by
  have hmod : ∀ y : Int, 0 ≤ y → y < 2 ^ 63 → toSizeT y = y.toNat := by
    intro y hy hlt
    unfold toSizeT
    omega
  rcases toLoffT_cases h0 h with ⟨hlt, heq⟩ | ⟨hge, hneg⟩
  · rw [heq]
    by_cases hx : x < 0
    · exact iff_of_true (.inl hx) (by omega)
    · rw [hmod x (by omega) hlt]
      omega
  · exact iff_of_true (.inl hneg) (by omega)

theorem toLoffT_of_in_range {x : Int} {totalSize : Nat} (ht : totalSize < 2 ^ 63) (hx : 0 ≤ x ∧ x ≤ totalSize) :
    toLoffT x = x :=
  toLoffT_of_lt hx.1 (by omega)

theorem llseekFinish_eq {totalSize : Nat} (ht : totalSize < 2 ^ 63) {f : File} (h0 : 0 ≤ f.fPos)
    (hf : f.fPos < 2 ^ 63) {offset : Int} (ho : -2 ^ 63 ≤ offset) (ho' : offset < 2 ^ 63) (whence : Int) :
    llseekFinish totalSize f offset whence =
      match llseekTarget totalSize f.fPos offset whence with
      | some target => if 0 ≤ target ∧ target ≤ totalSize then (target, target) else (-EINVAL, f.fPos)
      | none => (-EINVAL, f.fPos) := by
  -- the check, on a sum that may have wrapped
  have hcheck : ∀ x : Int, -2 ^ 63 ≤ x → x < 2 ^ 64 →
      (if toLoffT x < 0 ∨ toSizeT (toLoffT x) > totalSize then (-EINVAL, f.fPos) else (toLoffT x, toLoffT x)) =
        if 0 ≤ x ∧ x ≤ totalSize then (x, x) else (-EINVAL, f.fPos) := by
    intro x hx hx'
    by_cases hin : 0 ≤ x ∧ x ≤ totalSize
    · rw [if_neg (fun h => (toLoffT_in_range hx hx' ht).1 h hin), if_pos hin, toLoffT_of_in_range ht hin]
    · rw [if_pos ((toLoffT_in_range hx hx' ht).2 hin), if_neg hin]
  unfold llseekFinish llseekTarget
  by_cases hset : whence = SEEK_SET
  · have hself : toLoffT offset = offset := by
      rcases toLoffT_cases ho (by omega) with ⟨-, h⟩ | ⟨h, -⟩
      · exact h
      · omega
    have := hcheck offset ho (by omega)
    rw [hself] at this
    simp only [if_pos hset, this]
  · by_cases hcur : whence = SEEK_CUR
    · simp only [if_neg hset, if_pos hcur, hcheck (f.fPos + offset) (by omega) (by omega)]
    · by_cases hend : whence = SEEK_END
      · simp only [if_neg hset, if_neg hcur, if_pos hend, hcheck (totalSize + offset) (by omega) (by omega)]
      · simp only [if_neg hset, if_neg hcur, if_neg hend]

theorem Owns.totalSize {k : Kernel} {s : Sys} {ring rest : List (Nat × List Cell)} {pend : List Cell}
    (h : Owns k s ring pend rest) : s.dev.buffer.totalSize = s.sizes.sum := by
  have hne : ∀ e ∈ s.dev.buffer.entries, e.buffptr ≠ .null := by
    rw [h.entries]
    intro e he
    obtain ⟨b, -, rfl⟩ := List.mem_map.1 he
    simp [ringEntry]
  rw [CircularBuffer.totalSize, CircularBuffer.attachedSize_slots h.blank hne, h.sizes, Sys.sizes, h.ringCells]

/-- `aesd_llseek` with the lock is exact, on any device that stores less than
`2 ^ 63` bytes: it goes to the target and returns it if `whence` is one of the
three and the target, as an unbounded integer, is from 0 to the total size.
Otherwise it fails and the position stays. -/
theorem llseek_exact {s : Sys} (hs : s.dev.buffer.totalSize < 2 ^ 63) {f : File} (hpd : f.privateData = true)
    (h0 : 0 ≤ f.fPos) (hf : f.fPos < 2 ^ 63) {offset : Int} (ho : -2 ^ 63 ≤ offset) (ho' : offset < 2 ^ 63)
    (whence : Int) {o : Outcome} (hl : mutexLockInterruptible o s = .acquired) :
    (∀ target, llseekTarget s.dev.buffer.totalSize f.fPos offset whence = some target →
      0 ≤ target → target ≤ s.dev.buffer.totalSize →
      (aesdLlseek o (some f) offset whence s).ret = some target ∧
        (aesdLlseek o (some f) offset whence s).fPos = target) ∧
    ((∀ target, llseekTarget s.dev.buffer.totalSize f.fPos offset whence = some target →
      ¬ (0 ≤ target ∧ target ≤ s.dev.buffer.totalSize)) →
      (aesdLlseek o (some f) offset whence s).ret = some (-EINVAL) ∧
        (aesdLlseek o (some f) offset whence s).fPos = f.fPos) := by
  have hlen : llseekSection (s.setLock true) = s.dev.buffer.totalSize := by
    rw [llseekSection, CircularBuffer.getLength_eq]
    exact Nat.mod_eq_of_lt (Nat.lt_trans hs (by decide))
  have hnot : ¬ f.privateData = false := by simp [hpd]
  simp only [aesdLlseek, if_neg hnot, hl, hlen, llseekFinish_eq hs h0 hf ho ho' whence]
  constructor
  · intro target ht hlo hhi
    rw [ht]
    simp only [if_pos (And.intro hlo hhi), and_self]
  · intro hbad
    cases ht : llseekTarget s.dev.buffer.totalSize f.fPos offset whence with
    | none => exact ⟨rfl, rfl⟩
    | some target => simp only [if_neg (hbad target ht), and_self]

/-- One byte back from the end: of an empty device, which is refused as the smallest
offset is, and of one that holds ten lines of two bytes. -/
theorem llseek_exact_ends :
    (aesdLlseek ⟨false, none, none, 0⟩ (some ⟨true, 0⟩) (-1) SEEK_END aesdInitModule).ret = some (-EINVAL) ∧
      (aesdLlseek ⟨false, none, none, 0⟩ (some ⟨true, 0⟩) (-2 ^ 63) SEEK_CUR aesdInitModule).ret = some (-EINVAL) ∧
      ∃ evs s, runCalls .pages4K tenLines aesdInitModule = .ok (evs, s) ∧
        (aesdLlseek ⟨false, none, none, 0⟩ (some ⟨true, 3⟩) (-1) SEEK_END s).ret = some 19 ∧
        (aesdLlseek ⟨false, none, none, 0⟩ (some ⟨true, 3⟩) (-1) SEEK_END s).fPos = 19 := by
  refine ⟨?_, ?_, ?_⟩
  · refine ((llseek_exact (by decide) rfl (by decide) (by decide) (by decide) (by decide) SEEK_END rfl).2 ?_).1
    intro target ht
    obtain rfl : -1 = target := Option.some.inj ht
    decide
  · refine ((llseek_exact (by decide) rfl (by decide) (by decide) (by decide) (by decide) SEEK_CUR rfl).2 ?_).1
    intro target ht
    obtain rfl : 0 + -2 ^ 63 = target := Option.some.inj ht
    decide
  · obtain ⟨evs, s, hr, ⟨_, _, _, h⟩, hd⟩ := runCalls_tenLines
    have hsizes : s.sizes = List.replicate 10 2 := congrArg (fun d => d.log.entries.map List.length) hd
    have htotal : s.dev.buffer.totalSize = 20 := by
      rw [h.totalSize, hsizes]
      rfl
    have hlock : s.dev.lock = false := congrArg Device.lock hd
    have hfree : mutexLockInterruptible ⟨false, none, none, 0⟩ s = .acquired := by
      simp [mutexLockInterruptible, mutexLock, hlock]
    refine ⟨evs, s, hr, (llseek_exact (by rw [htotal]; decide) rfl (by decide) (by decide) (by decide) (by decide)
      SEEK_END hfree).1 19 ?_ (by decide) (by rw [htotal]; decide)⟩
    rw [htotal]
    rfl

end Aesd
