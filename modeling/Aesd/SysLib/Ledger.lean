import Mathlib.Data.List.Count
/-!
# Numbers handed out and taken back

A table hands out numbers and takes them back, and may hand out again what it
has taken back. Holders keep the numbers in slots, one each. In a balanced
ledger the numbers that are out are exactly those in the slots, each in one. The
four moves `stay`, `acquire`, `close` and `pass` keep a ledger balanced.
-/

namespace SysLib

/-- Who holds which number, and as history the numbers handed out and those taken back. -/
structure Ledger (H : Type) where
  slot : H → Option Nat
  issued : List Nat
  closed : List Nat

namespace Ledger

variable {H : Type}

/-- The table may hand out `x`. -/
def Free (L : Ledger H) (x : Nat) : Prop := L.issued.count x = L.closed.count x

structure Balanced (L : Ledger H) : Prop where
  single : ∀ g h x, L.slot g = some x → L.slot h = some x → g = h
  held : ∀ h x, L.slot h = some x → L.issued.count x = L.closed.count x + 1
  rest : ∀ x, (∀ h, L.slot h ≠ some x) → L.Free x

/-- The moves. -/
inductive Move : Ledger H → Ledger H → Prop
  | stay {L L' : Ledger H} : (∀ g, L'.slot g = L.slot g) → L'.issued = L.issued → L'.closed = L.closed → Move L L'
  | acquire {L L' : Ledger H} (h : H) (x : Nat) : L.slot h = none → L.Free x → L'.slot h = some x →
      (∀ g, g ≠ h → L'.slot g = L.slot g) → L'.issued = L.issued ++ [x] → L'.closed = L.closed → Move L L'
  | close {L L' : Ledger H} (h : H) (x : Nat) : L.slot h = some x → L'.slot h = none →
      (∀ g, g ≠ h → L'.slot g = L.slot g) → L'.issued = L.issued → L'.closed = L.closed ++ [x] → Move L L'
  | pass {L L' : Ledger H} (h k : H) (x : Nat) : L.slot h = some x → L.slot k = none → L'.slot h = none →
      L'.slot k = some x → (∀ g, g ≠ h → g ≠ k → L'.slot g = L.slot g) → L'.issued = L.issued →
      L'.closed = L.closed → Move L L'

theorem count_snoc_ne {l : List Nat} {x y : Nat} (h : x ≠ y) : (l ++ [x]).count y = l.count y := by
  rw [List.count_append, List.count_singleton, beq_false_of_ne h, if_neg Bool.false_ne_true, Nat.add_zero]

/-- What is free is in no slot. -/
theorem Balanced.not_held {L : Ledger H} (hb : L.Balanced) {x : Nat} (hx : L.Free x) (h : H) : L.slot h ≠ some x := by
  intro hs
  have := hb.held h x hs
  unfold Free at hx
  omega

theorem Balanced.acquire {L L' : Ledger H} (hb : L.Balanced) {h : H} {x : Nat} (hnone : L.slot h = none)
    (hx : L.Free x) (hself : L'.slot h = some x) (hother : ∀ g, g ≠ h → L'.slot g = L.slot g)
    (hi : L'.issued = L.issued ++ [x]) (hc : L'.closed = L.closed) : L'.Balanced := by
  have hnew : ∀ g y, L'.slot g = some y → (g = h ∧ y = x) ∨ (g ≠ h ∧ y ≠ x ∧ L.slot g = some y) := by
    intro g y hg
    by_cases he : g = h
    · subst he
      exact .inl ⟨rfl, Option.some.inj (hg.symm.trans hself)⟩
    · rw [hother g he] at hg
      refine .inr ⟨he, ?_, hg⟩
      rintro rfl
      exact hb.not_held hx g hg
  refine ⟨fun g k y hg hk => ?_, fun g y hg => ?_, fun y hy => ?_⟩
  · rcases hnew g y hg with ⟨rfl, rfl⟩ | ⟨-, hne, hg'⟩
    · rcases hnew k y hk with ⟨rfl, -⟩ | ⟨-, hne, -⟩
      · rfl
      · exact absurd rfl hne
    · rcases hnew k y hk with ⟨-, rfl⟩ | ⟨-, -, hk'⟩
      · exact absurd rfl hne
      · exact hb.single g k y hg' hk'
  · rw [hi, hc]
    rcases hnew g y hg with ⟨-, rfl⟩ | ⟨-, hne, hg'⟩
    · rw [List.count_append, List.count_singleton_self, show L.issued.count y = L.closed.count y from hx]
    · rw [count_snoc_ne (Ne.symm hne)]
      exact hb.held g y hg'
  · have hne : y ≠ x := by
      rintro rfl
      exact hy h hself
    unfold Free
    rw [hi, hc, count_snoc_ne (Ne.symm hne)]
    refine hb.rest y fun g hg => ?_
    have hgh : g ≠ h := by
      rintro rfl
      rw [hnone] at hg
      cases hg
    exact hy g ((hother g hgh).trans hg)

theorem Balanced.close {L L' : Ledger H} (hb : L.Balanced) {h : H} {x : Nat} (hs : L.slot h = some x)
    (hself : L'.slot h = none) (hother : ∀ g, g ≠ h → L'.slot g = L.slot g)
    (hi : L'.issued = L.issued) (hc : L'.closed = L.closed ++ [x]) : L'.Balanced := by
  have hold : ∀ g y, L'.slot g = some y → g ≠ h ∧ L.slot g = some y := by
    intro g y hg
    have hgh : g ≠ h := by
      rintro rfl
      rw [hself] at hg
      cases hg
    exact ⟨hgh, (hother g hgh).symm.trans hg⟩
  refine ⟨fun g k y hg hk => hb.single g k y (hold g y hg).2 (hold k y hk).2, fun g y hg => ?_, fun y hy => ?_⟩
  · obtain ⟨hgh, hg⟩ := hold g y hg
    have hne : x ≠ y := by
      rintro rfl
      exact hgh (hb.single g h x hg hs)
    rw [hi, hc, count_snoc_ne hne]
    exact hb.held g y hg
  · unfold Free
    rw [hi, hc]
    by_cases hyx : y = x
    · rw [hyx, List.count_append, List.count_singleton_self]
      exact hb.held h x hs
    · rw [count_snoc_ne (Ne.symm hyx)]
      refine hb.rest y fun g hg => ?_
      have hgh : g ≠ h := by
        rintro rfl
        exact hyx (Option.some.inj (hg.symm.trans hs))
      exact hy g ((hother g hgh).trans hg)

theorem Balanced.pass {L L' : Ledger H} (hb : L.Balanced) {h k : H} {x : Nat} (hs : L.slot h = some x)
    (hnone : L.slot k = none) (hself : L'.slot h = none) (hto : L'.slot k = some x)
    (hother : ∀ g, g ≠ h → g ≠ k → L'.slot g = L.slot g) (hi : L'.issued = L.issued) (hc : L'.closed = L.closed) :
    L'.Balanced := by
  -- each slot that is in use now, and the one its number was in before
  have hold : ∀ g y, L'.slot g = some y → (g = k ∧ L.slot h = some y) ∨ (g ≠ h ∧ g ≠ k ∧ L.slot g = some y) := by
    intro g y hg
    have hgh : g ≠ h := by
      rintro rfl
      rw [hself] at hg
      cases hg
    by_cases hgk : g = k
    · rw [hgk, hto] at hg
      exact .inl ⟨hgk, hs.trans hg⟩
    · exact .inr ⟨hgh, hgk, (hother g hgh hgk).symm.trans hg⟩
  refine ⟨fun g g' y hg hg' => ?_, fun g y hg => ?_, fun y hy => ?_⟩
  · rcases hold g y hg with ⟨rfl, hg⟩ | ⟨hgh, hgk, hg⟩
    · rcases hold g' y hg' with ⟨rfl, -⟩ | ⟨hgh', -, hg'⟩
      · rfl
      · exact absurd (hb.single g' h y hg' hg) hgh'
    · rcases hold g' y hg' with ⟨rfl, hg'⟩ | ⟨-, -, hg'⟩
      · exact absurd (hb.single g h y hg hg') hgh
      · exact hb.single g g' y hg hg'
  · rw [hi, hc]
    rcases hold g y hg with ⟨-, hg⟩ | ⟨-, -, hg⟩
    · exact hb.held h y hg
    · exact hb.held g y hg
  · unfold Free
    rw [hi, hc]
    refine hb.rest y fun g hg => ?_
    by_cases hgh : g = h
    · rw [hgh] at hg
      exact hy k (hto.trans (hs.symm.trans hg))
    · have hgk : g ≠ k := by
        rintro rfl
        rw [hnone] at hg
        cases hg
      exact hy g ((hother g hgh hgk).trans hg)

/-- Every move keeps a ledger balanced. -/
theorem Balanced.move {L L' : Ledger H} (hb : L.Balanced) (hm : Move L L') : L'.Balanced := by
  cases hm with
  | stay hslot hi hc =>
    refine ⟨fun g h x hg hh => ?_, fun h x hs => ?_, fun x hx => ?_⟩
    · exact hb.single g h x ((hslot g).symm.trans hg) ((hslot h).symm.trans hh)
    · rw [hi, hc]
      exact hb.held h x ((hslot h).symm.trans hs)
    · unfold Free
      rw [hi, hc]
      exact hb.rest x fun h hs => hx h ((hslot h).trans hs)
  | acquire h x hnone hx hself hother hi hc => exact hb.acquire hnone hx hself hother hi hc
  | close h x hs hself hother hi hc => exact hb.close hs hself hother hi hc
  | pass h k x hs hnone hself hto hother hi hc => exact hb.pass hs hnone hself hto hother hi hc

/-- A slot that is emptied without its number being taken back: the number is in no slot then. -/
theorem Balanced.lost {L L' : Ledger H} (hb : L.Balanced) {h : H} {x : Nat} (hs : L.slot h = some x)
    (hself : L'.slot h = none) (hother : ∀ g, g ≠ h → L'.slot g = L.slot g) (hi : L'.issued = L.issued)
    (hc : L'.closed = L.closed) : ¬ L'.Balanced := by
  intro hb'
  have hrest : L'.Free x := by
    refine hb'.rest x fun g hg => ?_
    by_cases hgh : g = h
    · rw [hgh, hself] at hg
      cases hg
    · exact hgh (hb.single g h x ((hother g hgh).symm.trans hg) hs)
  have := hb.held h x hs
  unfold Free at hrest
  rw [hi, hc] at hrest
  omega

/-- A number is back as often as it was out, or once less, and then one holder has it. -/
theorem Balanced.out {L : Ledger H} (hb : L.Balanced) (x : Nat) :
    L.Free x ∨ (L.issued.count x = L.closed.count x + 1 ∧ ∃! h, L.slot h = some x) := by
  by_cases hx : ∃ h, L.slot h = some x
  · obtain ⟨h, hs⟩ := hx
    exact .inr ⟨hb.held h x hs, h, hs, fun g hg => hb.single g h x hg hs⟩
  · exact .inl (hb.rest x fun h hs => hx ⟨h, hs⟩)

end Ledger

end SysLib
