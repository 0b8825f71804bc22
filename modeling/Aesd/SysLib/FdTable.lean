import Mathlib.Data.Nat.Find
/-!
# Descriptor tables

What each descriptor of a process refers to. A call that needs a descriptor gets
the lowest free one; `dup2` makes one descriptor refer to what another does.
-/

namespace SysLib

/-- No descriptor from `bound` on is open. -/
structure FdTable (D : Type) where
  get : Nat → Option D
  bound : Nat
  get_bound : ∀ n, bound ≤ n → get n = none

namespace FdTable

variable {D : Type}

def empty : FdTable D := ⟨fun _ => none, 0, fun _ _ => rfl⟩

def set (t : FdTable D) (n : Nat) (d : Option D) : FdTable D where
  get m := if m = n then d else t.get m
  bound := max t.bound (n + 1)
  get_bound m hm := by
    rw [if_neg (by omega)]
    exact t.get_bound m (by omega)

/-- The lowest free descriptor. -/
def lowest (t : FdTable D) : Nat :=
  Nat.find (p := fun n => (t.get n).isNone = true) ⟨t.bound, by rw [t.get_bound _ (Nat.le_refl _)]; rfl⟩

/-- A call that returns a new descriptor. -/
def alloc (t : FdTable D) (d : D) : Nat × FdTable D := (t.lowest, t.set t.lowest (some d))

def close (t : FdTable D) (n : Nat) : FdTable D := t.set n none

/-- `dup2(old, new)`, with `old` open. -/
def dup2 (t : FdTable D) (old new : Nat) : FdTable D := if old = new then t else t.set new (t.get old)

variable {t : FdTable D} {m n : Nat}

@[simp] theorem set_get (t : FdTable D) (n : Nat) (d : Option D) (m : Nat) :
    (t.set n d).get m = if m = n then d else t.get m := rfl

@[simp] theorem close_get (t : FdTable D) (n m : Nat) : (t.close n).get m = if m = n then none else t.get m := rfl

theorem lowest_free (t : FdTable D) : t.get t.lowest = none :=
  Option.isNone_iff_eq_none.1 (Nat.find_spec (p := fun n => (t.get n).isNone = true) _)

theorem open_of_lt_lowest (h : n < t.lowest) : t.get n ≠ none := fun hn =>
  Nat.find_min (p := fun n => (t.get n).isNone = true) _ h (by rw [hn]; rfl)

theorem lowest_le (h : t.get n = none) : t.lowest ≤ n := by
  by_contra hlt
  exact open_of_lt_lowest (Nat.not_le.1 hlt) h

theorem lowest_eq_iff : t.lowest = n ↔ t.get n = none ∧ ∀ m < n, t.get m ≠ none := by
  constructor
  · rintro rfl
    exact ⟨t.lowest_free, fun m hm => open_of_lt_lowest hm⟩
  · rintro ⟨hn, hlt⟩
    refine Nat.le_antisymm (lowest_le hn) ?_
    by_contra hgt
    exact hlt _ (Nat.not_le.1 hgt) t.lowest_free

/-- All below `n` are open. -/
theorem le_lowest_iff : n ≤ t.lowest ↔ ∀ m < n, t.get m ≠ none := by
  constructor
  · exact fun h m hm => open_of_lt_lowest (Nat.lt_of_lt_of_le hm h)
  · intro h
    by_contra hgt
    exact h _ (Nat.not_le.1 hgt) t.lowest_free

/-- What is opened and closed leaves the table as it was. -/
theorem alloc_close_get (t : FdTable D) (d : D) (m : Nat) : ((t.alloc d).2.close (t.alloc d).1).get m = t.get m := by
  have hfree := t.lowest_free
  unfold alloc
  by_cases hm : m = t.lowest
  · subst hm
    simp [hfree]
  · simp [hm]

/-- A file on descriptor `new`: opened, duplicated, and its first descriptor closed.
Nothing is left of it if `new` was that descriptor. -/
theorem redirect_get (t : FdTable D) (d : D) (new m : Nat) :
    (((t.alloc d).2.dup2 (t.alloc d).1 new).close (t.alloc d).1).get m =
      if m = new then if t.lowest = new then none else some d else t.get m := by
  have hfree := t.lowest_free
  unfold alloc dup2
  by_cases hfd : t.lowest = new
  · subst hfd
    by_cases hm : m = t.lowest <;> simp [hm]
  · by_cases hm : m = new
    · subst hm
      simp [hfd, Ne.symm hfd]
    · by_cases hl : m = t.lowest
      · subst hl
        simp [hfd, hfree]
      · simp [hfd, hm, hl]

end FdTable

end SysLib
