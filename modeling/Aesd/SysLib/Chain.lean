import Mathlib.Logic.Function.Basic
/-!
# Linked nodes

Nodes under addresses, each with the address of the next one. `Seg` says which
addresses a walk passes. The rules say when a walk stays the same and what
happens to it when its last node is linked to another place.
-/

namespace SysLib

variable {N : Type} (next : N → Option Nat)

/-- The walk from `start` to `stop` passes these addresses, all of live nodes. -/
def Seg (mem : Nat → Option N) : Option Nat → List Nat → Option Nat → Prop
  | start, [], stop => start = stop
  | start, a :: as, stop => start = some a ∧ ∃ n, mem a = some n ∧ Seg mem (next n) as stop

section Seg

variable {next} {mem mem' : Nat → Option N} {start stop stop' : Option Nat} {as bs : List Nat} {a : Nat} {n : N}

theorem seg_append :
    Seg next mem start (as ++ bs) stop ↔ ∃ middle, Seg next mem start as middle ∧ Seg next mem middle bs stop := by
  induction as generalizing start with
  | nil =>
    constructor
    · exact fun h => ⟨start, rfl, h⟩
    · rintro ⟨_, rfl, h⟩
      exact h
  | cons a as ih =>
    simp only [List.cons_append, Seg, ih]
    constructor
    · rintro ⟨hs, n, hn, middle, h, h'⟩
      exact ⟨middle, ⟨hs, n, hn, h⟩, h'⟩
    · rintro ⟨middle, ⟨hs, n, hn, h⟩, h'⟩
      exact ⟨hs, n, hn, middle, h, h'⟩

theorem seg_single (hn : mem a = some n) : Seg next mem (some a) [a] stop ↔ next n = stop := by
  constructor
  · rintro ⟨-, n', hn', h⟩
    obtain rfl := Option.some.inj (hn.symm.trans hn')
    exact h
  · exact fun h => ⟨rfl, n, hn, h⟩

/-- A walk depends only on where the nodes it passes lead. -/
theorem Seg.congr (h : Seg next mem start as stop) (hm : ∀ a ∈ as, (mem' a).map next = (mem a).map next) :
    Seg next mem' start as stop := by
  induction as generalizing start with
  | nil => exact h
  | cons a as ih =>
    obtain ⟨hs, n, hn, h⟩ := h
    have hnext := hm a List.mem_cons_self
    rw [hn, Option.map_some, Option.map_eq_some_iff] at hnext
    obtain ⟨n', hn', he⟩ := hnext
    exact ⟨hs, n', hn', ih (he ▸ h) fun b hb => hm b (List.mem_cons_of_mem _ hb)⟩

/-- A node that the walk does not pass. -/
theorem Seg.update (h : Seg next mem start as stop) (ha : a ∉ as) (c : Option N) :
    Seg next (Function.update mem a c) start as stop := by
  refine h.congr fun b hb => ?_
  have hne : b ≠ a := fun he => ha (he ▸ hb)
  rw [Function.update_of_ne hne]

/-- The last node of the walk is linked to another place. -/
theorem Seg.redirect (h : Seg next mem start (as ++ [a]) stop) (ha : a ∉ as) {n' : N} (he : next n' = stop') :
    Seg next (Function.update mem a (some n')) start (as ++ [a]) stop' := by
  obtain ⟨middle, hpre, hlast⟩ := seg_append.1 h
  obtain ⟨hmiddle, -⟩ := hlast
  exact seg_append.2 ⟨middle, hpre.update ha _, hmiddle, n', Function.update_self .., he⟩

theorem Seg.live (h : Seg next mem start as stop) (ha : a ∈ as) : ∃ n, mem a = some n := by
  induction as generalizing start with
  | nil => cases ha
  | cons b as ih =>
    obtain ⟨-, n, hn, h⟩ := h
    rcases List.mem_cons.1 ha with rfl | ha
    · exact ⟨n, hn⟩
    · exact ih h ha

/-- The live nodes lead where they led. -/
theorem Seg.keep (h : Seg next mem start as stop) (hm : ∀ a n, mem a = some n → (mem' a).map next = some (next n)) :
    Seg next mem' start as stop := by
  refine h.congr fun a ha => ?_
  obtain ⟨n, hn⟩ := h.live ha
  rw [hm a n hn, hn]
  rfl

/-- A walk that passes a node leads to it, and goes on where it leads. -/
theorem Seg.at_node (h : Seg next mem start (as ++ a :: bs) stop) :
    ∃ n, mem a = some n ∧ Seg next mem start as (some a) ∧ Seg next mem (next n) bs stop := by
  obtain ⟨_, hpre, rfl, n, hn, hpost⟩ := seg_append.1 h
  exact ⟨n, hn, hpre, hpost⟩

/-- A walk that leads on passes what it leads to. -/
theorem Seg.some_cons (h : Seg next mem (some a) as none) :
    ∃ n bs, as = a :: bs ∧ mem a = some n ∧ Seg next mem (next n) bs none := by
  cases as with
  | nil => cases h
  | cons b bs =>
    obtain ⟨he, n, hn, h⟩ := h
    obtain rfl := Option.some.inj he
    exact ⟨n, bs, rfl, hn, h⟩

/-- There is one walk to the end. -/
theorem Seg.unique (h : Seg next mem start as none) (h' : Seg next mem start bs none) : as = bs := by
  induction as generalizing start bs with
  | nil =>
    cases bs with
    | nil => rfl
    | cons b bs =>
      obtain ⟨he, -⟩ := h'
      rw [show start = none from h] at he
      cases he
  | cons a as ih =>
    obtain ⟨rfl, n, hn, hrest⟩ := h
    obtain ⟨n', bs', rfl, hn', hrest'⟩ := h'.some_cons
    obtain rfl := Option.some.inj (hn.symm.trans hn')
    rw [ih hrest hrest']

theorem Seg.none_nil (h : Seg next mem none as stop) : as = [] := by
  cases as with
  | nil => rfl
  | cons b bs => cases h.1

end Seg

end SysLib
