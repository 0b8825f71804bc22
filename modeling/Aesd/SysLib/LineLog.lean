import Aesd.SysLib.Window
/-!
# A log of records

Bytes arrive in pieces and collect until a piece holds an end mark; then all
that has collected becomes one record. The log keeps the last `cap` records.
-/

namespace SysLib

variable {α : Type}

/-- The records kept, oldest first, and the bytes that wait for an end mark. -/
structure LineLog (α : Type) where
  entries : List (List α)
  pending : List α
  deriving DecidableEq

namespace LineLog

variable (cap : Nat) (isEnd : α → Bool)

/-- One piece arrives. -/
def append (l : LineLog α) (bs : List α) : LineLog α :=
  if bs.any isEnd then ⟨(l.entries ++ [l.pending ++ bs]).rtake cap, []⟩
  else ⟨l.entries, l.pending ++ bs⟩

/-- Pieces arrive one after another. -/
def appendAll (l : LineLog α) (pieces : List (List α)) : LineLog α :=
  pieces.foldl (append cap isEnd) l

/-- What reading the log from its start delivers. -/
def contents (l : LineLog α) : List α := l.entries.flatten

/-- Two pieces of which the first has no end mark arrive as one would. -/
theorem append_append (l : LineLog α) {bs : List α} (h : bs.any isEnd = false) (bs' : List α) :
    (l.append cap isEnd bs).append cap isEnd bs' = l.append cap isEnd (bs ++ bs') := by
  simp [append, h, List.append_assoc]

/-- Nothing else gets into the log. -/
theorem mem_append {l : LineLog α} {bs : List α} {a : α}
    (h : a ∈ (l.append cap isEnd bs).contents ∨ a ∈ (l.append cap isEnd bs).pending) :
    a ∈ l.contents ∨ a ∈ l.pending ∨ a ∈ bs := by
  unfold append contents at *
  split at h
  · simp only [List.not_mem_nil, or_false, List.mem_flatten] at h
    obtain ⟨e, he, ha⟩ := h
    rcases List.mem_append.1 (List.mem_of_mem_drop he) with he | he
    · exact .inl (List.mem_flatten.2 ⟨e, he, ha⟩)
    · obtain rfl := List.mem_singleton.1 he
      exact .inr (List.mem_append.1 ha)
  · exact h.imp_right List.mem_append.1

theorem append_pending_le (l : LineLog α) (bs : List α) :
    (l.append cap isEnd bs).pending.length ≤ l.pending.length + bs.length := by
  unfold append
  split
  · exact Nat.zero_le _
  · exact Nat.le_of_eq List.length_append

/-- Only the last piece has an end mark: the pieces arrive as their
concatenation would. -/
theorem appendAll_eq (l : LineLog α) (pieces : List (List α)) (last : List α)
    (h : ∀ p ∈ pieces, p.any isEnd = false) :
    l.appendAll cap isEnd (pieces ++ [last]) = l.append cap isEnd (pieces.flatten ++ last) := by
  induction pieces generalizing l with
  | nil => rfl
  | cons p ps ih =>
    have hp := h p List.mem_cons_self
    simp only [List.cons_append, appendAll, List.foldl_cons, List.flatten_cons, List.append_assoc] at ih ⊢
    rw [ih _ fun q hq => h q (List.mem_cons_of_mem _ hq), append_append cap isEnd l hp]

end LineLog

end SysLib
