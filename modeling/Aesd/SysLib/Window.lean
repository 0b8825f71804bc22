import Mathlib.Data.List.DropRight
import Mathlib.Data.Nat.ModEq
/-!
# Cyclic windows

A ring of `cap` slots shows the `count` slots that follow `start`, wrapping
around. Storing a value in the slot after a window that leaves a slot free
appends it; storing it in the first slot of a window that covers the whole
ring, and moving the start on, drops the oldest value as well. Both are
`push_rtake`: the window keeps the last `cap` of all values pushed.
-/

namespace SysLib

variable {α β : Type}

/-- The `count` slots from `start`, wrapping around after slot `cap - 1`. -/
def window (cap : Nat) (slot : Nat → α) (start count : Nat) : List α :=
  (List.range count).map fun i => slot ((start + i) % cap)

@[simp] theorem window_length (cap : Nat) (slot : Nat → α) (start count : Nat) :
    (window cap slot start count).length = count := by
  simp [window]

@[simp] theorem window_zero (cap : Nat) (slot : Nat → α) (start : Nat) :
    window cap slot start 0 = [] := rfl

theorem window_getElem (cap : Nat) (slot : Nat → α) (start count i : Nat) (h : i < count) :
    (window cap slot start count)[i]? = some (slot ((start + i) % cap)) := by
  simp [window, h]

theorem window_map (cap : Nat) (slot : Nat → α) (f : α → β) (start count : Nat) :
    (window cap slot start count).map f = window cap (fun i => f (slot i)) start count := by
  simp [window, Function.comp_def]

theorem window_congr {cap : Nat} {slot slot' : Nat → α} {start count : Nat}
    (h : ∀ i < count, slot ((start + i) % cap) = slot' ((start + i) % cap)) :
    window cap slot start count = window cap slot' start count :=
  List.map_congr_left fun i hi => h i (List.mem_range.1 hi)

/-- The start only matters modulo `cap`. -/
theorem window_start_mod (cap : Nat) (slot : Nat → α) (start count : Nat) :
    window cap slot (start % cap) count = window cap slot start count := by
  simp [window]

theorem window_succ (cap : Nat) (slot : Nat → α) (start count : Nat) :
    window cap slot start (count + 1) =
      window cap slot start count ++ [slot ((start + count) % cap)] := by
  simp [window, List.range_succ]

theorem window_cons (cap : Nat) (slot : Nat → α) (start count : Nat) :
    window cap slot start (count + 1) =
      slot (start % cap) :: window cap slot (start + 1) count := by
  simp [window, List.range_succ_eq_map, Function.comp_def, Nat.add_assoc, Nat.add_comm 1]

theorem mem_window {cap : Nat} {slot : Nat → α} {start count : Nat} {x : α} :
    x ∈ window cap slot start count ↔ ∃ i < count, slot ((start + i) % cap) = x := by
  simp [window]

/-- Two positions of a window shorter than the ring are different slots. -/
theorem slot_inj {cap start i j : Nat} (hi : i < cap) (hj : j < cap)
    (h : (start + i) % cap = (start + j) % cap) : i = j := by
  have hmod : i ≡ j [MOD cap] := Nat.ModEq.add_left_cancel' start h
  rwa [Nat.ModEq, Nat.mod_eq_of_lt hi, Nat.mod_eq_of_lt hj] at hmod

/-- Storing `x` in the free slot behind a window appends `x` to it. -/
theorem window_store (cap : Nat) (slot : Nat → α) (start count : Nat) (x : α) (h : count < cap) :
    window cap (Function.update slot ((start + count) % cap) x) start (count + 1) =
      window cap slot start count ++ [x] := by
  rw [window_succ, Function.update_self]
  congr 1
  refine window_congr fun i hi => Function.update_of_ne (fun he => ?_) _ _
  have := slot_inj (Nat.lt_trans hi h) h he
  omega

/-- Storing `x` in the oldest slot of a full ring and moving the start on drops
the oldest value and appends `x`. -/
theorem window_replace (cap : Nat) (slot : Nat → α) (start : Nat) (x : α) (h : 0 < cap) :
    window cap (Function.update slot (start % cap) x) (start + 1) cap =
      (window cap slot start cap).tail ++ [x] := by
  obtain ⟨n, rfl⟩ : ∃ n, cap = n + 1 := ⟨cap - 1, by omega⟩
  rw [window_cons (n + 1) slot start n, List.tail_cons]
  have hlast : start % (n + 1) = (start + 1 + n) % (n + 1) := by
    rw [Nat.add_assoc, Nat.add_comm 1 n, Nat.add_mod_right]
  rw [hlast]
  exact window_store (n + 1) slot (start + 1) n x (Nat.lt_succ_self n)

/-- A window is one part of it followed by the rest. -/
theorem window_split (cap : Nat) (slot : Nat → α) (start : Nat) {m n : Nat} (h : m ≤ n) :
    window cap slot start n = window cap slot start m ++ window cap slot (start + m) (n - m) := by
  obtain ⟨d, rfl⟩ := Nat.exists_eq_add_of_le h
  rw [Nat.add_sub_cancel_left]
  simp [window, List.range_add, Function.comp_def, Nat.add_assoc]

/-- A window over the whole ring shows the same slots from any start. -/
theorem window_perm (cap : Nat) (slot : Nat → α) (start : Nat) (h : 0 < cap) :
    (window cap slot start cap).Perm (window cap slot 0 cap) := by
  induction start with
  | zero => exact .refl _
  | succ start ih =>
    refine .trans ?_ ih
    obtain ⟨n, rfl⟩ : ∃ n, cap = n + 1 := ⟨cap - 1, by omega⟩
    rw [window_succ, window_cons, Nat.add_assoc, Nat.add_comm 1 n, Nat.add_mod_right]
    exact List.perm_append_singleton _ _

/-! ## The last values pushed -/

theorem rtake_of_length_le {l : List α} {n : Nat} (h : l.length ≤ n) : l.rtake n = l := by
  simp [List.rtake, Nat.sub_eq_zero_of_le h]

theorem rtake_length (l : List α) (n : Nat) : (l.rtake n).length = min n l.length := by
  simp only [List.rtake, List.length_drop]; omega

theorem map_rtake (f : α → β) (l : List α) (n : Nat) : (l.rtake n).map f = (l.map f).rtake n := by
  simp [List.rtake, List.map_drop]

/-- Keeping the last `n` values after each push keeps the last `n` of all. -/
theorem rtake_append_rtake (l l' : List α) (n : Nat) :
    (l.rtake n ++ l').rtake n = (l ++ l').rtake n := by
  rcases Nat.lt_or_ge n l.length with h | h
  · simp only [List.rtake, List.length_append, List.length_drop]
    rw [← List.drop_append_of_le_length (by omega), List.drop_drop]
    congr 1; omega
  · rw [rtake_of_length_le h]

/-- A push onto a list that is full drops its head, and only then. -/
theorem push_rtake (l : List α) (x : α) (n : Nat) (h : l.length ≤ n) (hn : 0 < n) :
    (l ++ [x]).rtake n = if l.length = n then l.tail ++ [x] else l ++ [x] := by
  split
  · cases l with
    | nil => simp only [List.length_nil] at *; omega
    | cons y ys =>
      simp only [List.length_cons] at *
      simp only [List.rtake, List.length_append, List.length_cons, List.length_nil]
      rw [show ys.length + 1 + (0 + 1) - n = 1 by omega]; simp
  · exact rtake_of_length_le (by simp only [List.length_append, List.length_singleton]; omega)

end SysLib
