import Mathlib.Data.List.Basic
import Mathlib.Logic.Function.Basic
/-!
# Blocks in the order of a lock

Several writers append to several logs, each under one lock. A log that holds
the blocks of its writers in the order in which they took the lock stays so when
the writer that took it last appends.
-/

namespace SysLib

variable {ι α : Type} {order : List ι} {mine mine' : ι → Bool} {block block' : ι → List α}

/-- The blocks of the writers of one log, in the order of the lock. -/
def blocks (order : List ι) (mine : ι → Bool) (block : ι → List α) : List α := (order.filter mine).flatMap block

theorem blocks_append (order order' : List ι) (mine : ι → Bool) (block : ι → List α) :
    blocks (order ++ order') mine block = blocks order mine block ++ blocks order' mine block := by
  rw [blocks, List.filter_append, List.flatMap_append]
  rfl

theorem blocks_singleton (o : ι) (mine : ι → Bool) (block : ι → List α) :
    blocks [o] mine block = if mine o then block o else [] := by
  cases h : mine o <;> simp [blocks, h]

/-- Writers that have written nothing do not count. -/
theorem blocks_congr (h : ∀ o ∈ order, mine o = mine' o ∨ block o = []) :
    blocks order mine block = blocks order mine' block := by
  induction order with
  | nil => rfl
  | cons o order ih =>
    have htail := ih fun q hq => h q (List.mem_cons_of_mem _ hq)
    rw [← List.singleton_append, blocks_append, blocks_append, htail, blocks_singleton, blocks_singleton]
    rcases h o List.mem_cons_self with hm | hb
    · rw [hm]
    · rw [hb, ite_self, ite_self]

theorem blocks_congr_block (h : ∀ o ∈ order, block o = block' o) :
    blocks order mine block = blocks order mine block' :=
  List.flatMap_congr fun o ho => h o (List.mem_of_mem_filter ho)

theorem blocks_eq_nil (h : ∀ o ∈ order, mine o = false ∨ block o = []) : blocks order mine block = [] := by
  rw [blocks, List.flatMap_eq_nil_iff]
  intro o ho
  obtain ⟨hmem, hmine⟩ := List.mem_filter.1 ho
  rcases h o hmem with hm | hb
  · rw [hm] at hmine
    cases hmine
  · exact hb

/-- The writer that took the lock last appends. -/
theorem blocks_update [DecidableEq ι] {o : ι} (hnodup : order.Nodup) (hlast : order.getLast? = some o)
    (bytes : List α) :
    blocks order mine (Function.update block o (block o ++ bytes)) =
      blocks order mine block ++ if mine o then bytes else [] := by
  obtain ⟨before, rfl⟩ : ∃ before, order = before ++ [o] := by
    rw [List.getLast?_eq_some_iff] at hlast
    exact hlast
  have ho : o ∉ before := by
    rw [List.nodup_append] at hnodup
    intro hm
    exact hnodup.2.2 o hm o (List.mem_singleton_self o) rfl
  have hsame : blocks before mine (Function.update block o (block o ++ bytes)) = blocks before mine block := by
    apply blocks_congr_block
    intro q hq
    apply Function.update_of_ne
    rintro rfl
    exact ho hq
  rw [blocks_append, blocks_append, hsame, blocks_singleton, blocks_singleton, Function.update_self, List.append_assoc]
  cases mine o <;> rfl

end SysLib
