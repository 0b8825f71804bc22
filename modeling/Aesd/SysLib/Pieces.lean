import Mathlib.Algebra.BigOperators.Group.List.Basic
import Mathlib.Algebra.GroupWithZero.Nat
import Mathlib.Data.Nat.Find
/-!
# Positions in a list of pieces

A list of byte strings laid end to end. `locate` finds the piece a position
falls in and the offset in that piece; `restAt` is what is left of that piece.
Taking what is left, then moving the position behind it, walks through the
concatenation.
-/

namespace SysLib

variable {α : Type}

/-- The piece that position `p` falls in and the offset in it, from the sizes. -/
def locate : List Nat → Nat → Option (Nat × Nat)
  | [], _ => none
  | n :: ns, p => if p < n then some (0, p) else (locate ns (p - n)).map fun (i, j) => (i + 1, j)

/-- What is left from position `p` on of the piece it falls in. -/
def restAt : List (List α) → Nat → List α
  | [], _ => []
  | c :: cs, p => if p < c.length then c.drop p else restAt cs (p - c.length)

theorem sum_le_of_forall_le {l : List Nat} {m : Nat} (h : ∀ n ∈ l, n ≤ m) : l.sum ≤ l.length * m := by
  induction l with
  | nil => simp
  | cons n l ih =>
    have hn := h n List.mem_cons_self
    have hl := ih fun x hx => h x (List.mem_cons_of_mem _ hx)
    rw [List.sum_cons, List.length_cons, Nat.succ_mul]
    omega

theorem locate_eq_none_iff (ns : List Nat) (p : Nat) : locate ns p = none ↔ ns.sum ≤ p := by
  induction ns generalizing p with
  | nil => simp [locate]
  | cons n ns ih =>
    simp only [locate, List.sum_cons]
    split
    · simp; omega
    · simp only [Option.map_eq_none_iff, ih]; omega

theorem locate_eq_some {ns : List Nat} {p i j : Nat} (h : locate ns p = some (i, j)) :
    ∃ hi : i < ns.length, j < ns[i] ∧ (ns.take i).sum + j = p := by
  induction ns generalizing p i with
  | nil => simp [locate] at h
  | cons n ns ih =>
    simp only [locate] at h
    split at h
    · rename_i hp
      simp only [Option.some.injEq, Prod.mk.injEq] at h
      obtain ⟨rfl, rfl⟩ := h
      exact ⟨by simp, by simpa using hp, by simp⟩
    · simp only [Option.map_eq_some_iff, Prod.exists, Prod.mk.injEq] at h
      obtain ⟨i', j', h', rfl, rfl⟩ := h
      obtain ⟨hi, hj, hs⟩ := ih h'
      exact ⟨by simpa using hi, by simpa using hj, by simp only [List.take_succ_cons, List.sum_cons]; omega⟩

/-- `locate` finds the one piece and offset that are at the position. -/
theorem locate_eq_some_iff {ns : List Nat} {p i j : Nat} :
    locate ns p = some (i, j) ↔ ∃ n, ns[i]? = some n ∧ j < n ∧ (ns.take i).sum + j = p := by
  constructor
  · intro h
    obtain ⟨hi, hj, hp⟩ := locate_eq_some h
    exact ⟨ns[i], List.getElem?_eq_getElem hi, hj, hp⟩
  rintro ⟨n, hn, hj, hp⟩
  induction ns generalizing p i with
  | nil => cases hn
  | cons m ns ih =>
    rw [locate]
    cases i with
    | zero =>
      obtain rfl : m = n := Option.some.inj hn
      obtain rfl : j = p := by simpa using hp
      rw [if_pos hj]
    | succ i =>
      rw [List.take_succ_cons, List.sum_cons] at hp
      rw [if_neg (by omega), ih hn (show (ns.take i).sum + j = p - m by omega)]
      rfl

/-- The bytes in front of a piece are no more than those in front of a later one. -/
theorem sum_take_le (ns : List Nat) {i i' : Nat} (h : i ≤ i') : (ns.take i).sum ≤ (ns.take i').sum := by
  have hsplit := List.sum_take_add_sum_drop (ns.take i') i
  rw [List.take_take, Nat.min_eq_left h] at hsplit
  omega

/-- The byte at a position is the one at the located offset of the located piece. -/
theorem getElem?_flatten_of_locate {cs : List (List α)} {p i j : Nat}
    (h : locate (cs.map List.length) p = some (i, j)) : cs.flatten[p]? = (cs.getD i [])[j]? := by
  induction cs generalizing p i with
  | nil => cases h
  | cons c cs ih =>
    rw [List.map_cons, locate] at h
    rw [List.flatten_cons]
    split at h
    · rename_i hp
      obtain ⟨rfl, rfl⟩ := Prod.mk.inj (Option.some.inj h)
      rw [List.getElem?_append_left hp]
      rfl
    · rename_i hp
      simp only [Option.map_eq_some_iff, Prod.exists, Prod.mk.injEq] at h
      obtain ⟨i', j', h', rfl, rfl⟩ := h
      rw [List.getElem?_append_right (Nat.not_lt.1 hp), ih h']
      rfl

/-- `restAt` is the located piece from the located offset on. -/
theorem restAt_of_locate {cs : List (List α)} {p i j : Nat} (h : locate (cs.map List.length) p = some (i, j)) :
    restAt cs p = (cs.getD i []).drop j := by
  induction cs generalizing p i with
  | nil => simp [locate] at h
  | cons c cs ih =>
    simp only [List.map_cons, locate] at h
    simp only [restAt]
    split at h
    · rename_i hp
      simp only [Option.some.injEq, Prod.mk.injEq] at h
      obtain ⟨rfl, rfl⟩ := h
      rw [if_pos hp]; rfl
    · rename_i hp
      simp only [Option.map_eq_some_iff, Prod.exists, Prod.mk.injEq] at h
      obtain ⟨i', j', h', rfl, rfl⟩ := h
      rw [if_neg hp, ih h']; rfl

theorem restAt_of_le {cs : List (List α)} {p : Nat} (h : cs.flatten.length ≤ p) : restAt cs p = [] := by
  induction cs generalizing p with
  | nil => rfl
  | cons c cs ih =>
    simp only [List.flatten_cons, List.length_append] at h
    rw [restAt, if_neg (by omega)]
    exact ih (by omega)

/-- The rest of a piece is a prefix of the rest of the concatenation. -/
theorem drop_flatten (cs : List (List α)) (p : Nat) :
    cs.flatten.drop p = restAt cs p ++ cs.flatten.drop (p + (restAt cs p).length) := by
  induction cs generalizing p with
  | nil => simp [restAt]
  | cons c cs ih =>
    simp only [restAt, List.flatten_cons]
    split
    · rename_i hp
      rw [List.drop_append_of_le_length (by omega), List.length_drop, Nat.add_sub_cancel' (by omega),
        List.drop_left]
    · rename_i hp
      have hnil : c.drop (p + (restAt cs (p - c.length)).length) = [] := List.drop_eq_nil_of_le (by omega)
      rw [List.drop_append, List.drop_eq_nil_of_le (by omega), List.nil_append, ih, List.drop_append, hnil,
        List.nil_append]
      congr 2; omega

theorem restAt_subset (cs : List (List α)) (p : Nat) : restAt cs p ⊆ cs.flatten := by
  intro a ha
  apply List.mem_of_mem_drop
  rw [drop_flatten cs p]
  exact List.mem_append_left _ ha

/-- The rest of a piece is empty only at the end of the concatenation. -/
theorem restAt_eq_nil_iff (cs : List (List α)) (p : Nat) : restAt cs p = [] ↔ cs.flatten.length ≤ p := by
  refine ⟨fun h => ?_, restAt_of_le⟩
  induction cs generalizing p with
  | nil => simp
  | cons c cs ih =>
    simp only [restAt] at h
    simp only [List.flatten_cons, List.length_append]
    split at h
    · rw [List.drop_eq_nil_iff] at h; omega
    · have := ih _ h; omega

/-- What a read of `n` bytes takes from position `p` on, and what comes behind it. -/
theorem drop_flatten_take (cs : List (List α)) (p n : Nat) :
    cs.flatten.drop p = (restAt cs p).take n ++ cs.flatten.drop (p + ((restAt cs p).take n).length) := by
  have hpre : (restAt cs p).take n <+: cs.flatten.drop p := by
    rw [drop_flatten cs p]
    exact (List.take_prefix _ _).trans (List.prefix_append _ _)
  rw [← List.drop_drop, List.prefix_iff_eq_append.1 hpre]

/-! ## Reading to the end -/

/-- Where a reader that starts at `p` is before read `n`, if read `m` asks for `counts m` elements. -/
def readPos (cs : List (List α)) (counts : Nat → Nat) (p : Nat) : Nat → Nat
  | 0 => p
  | n + 1 => readPos cs counts p n + ((restAt cs (readPos cs counts p n)).take (counts n)).length

section ReadPos

variable (cs : List (List α)) (counts : Nat → Nat) (p : Nat)

/-- What has been read and what is left are what there was. -/
theorem flatMap_readPos (n : Nat) :
    ((List.range n).flatMap fun m => (restAt cs (readPos cs counts p m)).take (counts m)) ++
      cs.flatten.drop (readPos cs counts p n) = cs.flatten.drop p := by
  induction n with
  | zero => rfl
  | succ n ih =>
    rw [List.range_succ, List.flatMap_append, List.flatMap_singleton, List.append_assoc, readPos,
      ← drop_flatten_take]
    exact ih

variable {counts}

/-- A read of at least one element takes one, unless the reader is at the end. -/
theorem take_restAt_ne_nil {q n : Nat} (hq : q < cs.flatten.length) (hn : 0 < n) : (restAt cs q).take n ≠ [] := by
  rw [ne_eq, List.take_eq_nil_iff, restAt_eq_nil_iff]
  omega

/-- A reader moves on until it is at the end. -/
theorem readPos_progress (hc : ∀ n, 0 < counts n) (n : Nat) :
    cs.flatten.length ≤ readPos cs counts p n ∨ p + n ≤ readPos cs counts p n := by
  induction n with
  | zero => exact .inr (Nat.le_refl _)
  | succ n ih =>
    rcases Nat.lt_or_ge (readPos cs counts p n) cs.flatten.length with hlt | hge
    · have hpos := List.length_pos_iff.2 (take_restAt_ne_nil cs hlt (hc n))
      rw [readPos]
      omega
    · rw [readPos]
      omega

/-- No reader goes past the end. -/
theorem readPos_le (n : Nat) : readPos cs counts p n ≤ max p cs.flatten.length := by
  induction n with
  | zero => exact Nat.le_max_left _ _
  | succ n ih =>
    have hlen := congrArg List.length (drop_flatten_take cs (readPos cs counts p n) (counts n))
    rw [List.length_append, List.length_drop, List.length_drop] at hlen
    rw [readPos]
    rcases Nat.lt_or_ge (readPos cs counts p n) cs.flatten.length with hlt | hge
    · omega
    · rw [restAt_of_le hge, List.take_nil, List.length_nil, Nat.add_zero]
      exact ih

/-- The first read at the end. -/
theorem readPos_end (hc : ∀ n, 0 < counts n) :
    ∃ n, (∀ m, m < n → readPos cs counts p m < cs.flatten.length) ∧ cs.flatten.length ≤ readPos cs counts p n := by
  have hex : ∃ n, cs.flatten.length ≤ readPos cs counts p n := by
    refine ⟨cs.flatten.length, ?_⟩
    rcases readPos_progress cs p hc cs.flatten.length with h | h <;> omega
  exact ⟨Nat.find hex, fun m hm => Nat.not_le.1 (Nat.find_min hex hm), Nat.find_spec hex⟩

/-- A reader at the end stays there. -/
theorem readPos_stay {n : Nat} (h : cs.flatten.length ≤ readPos cs counts p n) {m : Nat} (hm : n ≤ m) :
    readPos cs counts p m = readPos cs counts p n := by
  induction m, hm using Nat.le_induction with
  | base => rfl
  | succ m _ ih => rw [readPos, ih, restAt_of_le h, List.take_nil, List.length_nil, Nat.add_zero]

end ReadPos

/-! ## A reader of a list that grows -/

/-- A reader that started at `start` is now at `pos` and has read `got`: nothing
yet, or the bytes between the two. -/
def Follows (c : List α) (start pos : Nat) (got : List α) : Prop :=
  (got = [] ∧ pos = start) ∨ (start ≤ pos ∧ pos ≤ c.length ∧ got ++ c.drop pos = c.drop start)

section Follows

variable {c : List α} {start pos : Nat} {got : List α}

/-- A reader that has read nothing is where it started. -/
theorem follows_nil_iff : Follows c start pos [] ↔ pos = start := by
  constructor
  · rintro (⟨-, he⟩ | ⟨hle, hc, he⟩)
    · exact he
    · have hlen := congrArg List.length he
      rw [List.nil_append, List.length_drop, List.length_drop] at hlen
      omega
  · exact fun he => .inl ⟨rfl, he⟩

/-- The list grows at its end. -/
theorem Follows.append (h : Follows c start pos got) (more : List α) : Follows (c ++ more) start pos got := by
  rcases h with h | ⟨hle, hc, he⟩
  · exact .inl h
  · refine .inr ⟨hle, by rw [List.length_append]; omega, ?_⟩
    rw [List.drop_append_of_le_length hc, List.drop_append_of_le_length (by omega), ← List.append_assoc, he]

/-- A read that takes something. -/
theorem Follows.read {cs : List (List α)} (h : Follows cs.flatten start pos got) (n : Nat)
    (hne : (restAt cs pos).take n ≠ []) :
    Follows cs.flatten start (pos + ((restAt cs pos).take n).length) (got ++ (restAt cs pos).take n) := by
  have htake := drop_flatten_take cs pos n
  have hlen := congrArg List.length htake
  have hpos := List.length_pos_iff.2 hne
  rw [List.length_append, List.length_drop, List.length_drop] at hlen
  rcases h with ⟨rfl, rfl⟩ | ⟨hle, -, he⟩
  · exact .inr ⟨by omega, by omega, by rw [List.nil_append, ← htake]⟩
  · exact .inr ⟨by omega, by omega, by rw [List.append_assoc, ← htake, he]⟩

/-- At the end of the list everything from `start` on has been read. -/
theorem Follows.all (h : Follows c start pos got) (hend : c.length ≤ pos) : got = c.drop start := by
  rcases h with ⟨rfl, rfl⟩ | ⟨-, -, he⟩
  · rw [List.drop_eq_nil_of_le hend]
  · rw [← he, List.drop_eq_nil_of_le hend, List.append_nil]

end Follows

/-! ## Parts of pieces -/

section Parts

variable {β : Type} {l : List β} {part piece : β → List α}

theorem sublist_flatMap (h : ∀ x ∈ l, part x <+: piece x) : (l.flatMap part).Sublist (l.flatMap piece) := by
  induction l with
  | nil => exact List.Sublist.refl _
  | cons x l ih =>
    rw [List.flatMap_cons, List.flatMap_cons]
    apply List.Sublist.append
    · exact (h x List.mem_cons_self).sublist
    · exact ih fun y hy => h y (List.mem_cons_of_mem _ hy)

/-- Parts laid end to end have lost nothing exactly if each of them is its whole piece. -/
theorem flatMap_prefix_eq_iff (h : ∀ x ∈ l, part x <+: piece x) :
    l.flatMap part = l.flatMap piece ↔ ∀ x ∈ l, part x = piece x := by
  constructor
  · intro he
    induction l with
    | nil => exact List.forall_mem_nil _
    | cons x l ih =>
      have hx := h x List.mem_cons_self
      have hl : ∀ y ∈ l, part y <+: piece y := fun y hy => h y (List.mem_cons_of_mem _ hy)
      rw [List.flatMap_cons, List.flatMap_cons] at he
      -- the first part is as long as its piece, as the others are no longer than theirs
      have hlen := congrArg List.length he
      rw [List.length_append, List.length_append] at hlen
      have hle := (sublist_flatMap hl).length_le
      have hfirst : part x = piece x := by
        apply hx.eq_of_length
        have := hx.length_le
        omega
      rw [hfirst, List.append_cancel_left_eq] at he
      exact List.forall_mem_cons.2 ⟨hfirst, ih hl he⟩
  · intro hall
    exact List.flatMap_congr hall

end Parts

/-! ## Numbered elements -/

/-- Elements of a list with their numbers, picked in order, and none from `bound` on. -/
structure Picks (xs : List α) (bound : Nat) (got : List (α × Nat)) : Prop where
  increasing : got.Pairwise (·.2 < ·.2)
  numbered : ∀ x ∈ got, xs[x.2]? = some x.1
  below : ∀ x ∈ got, x.2 < bound

section Picks

variable {xs : List α} {bound : Nat} {got : List (α × Nat)}

theorem picks_nil (xs : List α) (bound : Nat) : Picks xs bound [] :=
  ⟨.nil, fun _ hx => (by cases hx), fun _ hx => (by cases hx)⟩

/-- The list grows at its end. -/
theorem Picks.append (h : Picks xs bound got) (more : List α) : Picks (xs ++ more) bound got := by
  refine ⟨h.increasing, fun x hx => ?_, h.below⟩
  rw [List.getElem?_append_left (List.getElem?_eq_some_iff.1 (h.numbered x hx)).1]
  exact h.numbered x hx

theorem Picks.mono (h : Picks xs bound got) {bound' : Nat} (hle : bound ≤ bound') : Picks xs bound' got :=
  ⟨h.increasing, h.numbered, fun x hx => Nat.lt_of_lt_of_le (h.below x hx) hle⟩

/-- The elements from `bound` on are picked. -/
theorem Picks.read (h : Picks xs bound got) {data : List α} (hd : data <+: xs.drop bound) :
    Picks xs (bound + data.length) (got ++ data.zipIdx bound) := by
  have hmem : ∀ x ∈ data.zipIdx bound, bound ≤ x.2 ∧ x.2 < bound + data.length ∧ data[x.2 - bound]? = some x.1 := by
    intro x hx
    rw [List.mem_zipIdx_iff_le_and_getElem?_sub] at hx
    have := (List.getElem?_eq_some_iff.1 hx.2).1
    exact ⟨hx.1, by omega, hx.2⟩
  refine ⟨?_, ?_, ?_⟩
  · rw [List.pairwise_append]
    refine ⟨h.increasing, ?_, fun x hx y hy => Nat.lt_of_lt_of_le (h.below x hx) (hmem y hy).1⟩
    have hnum : ((data.zipIdx bound).map Prod.snd).Pairwise (· < ·) := by
      rw [List.zipIdx_map_snd]
      exact List.pairwise_lt_range'
    exact List.pairwise_map.1 hnum
  · intro x hx
    rcases List.mem_append.1 hx with hx | hx
    · exact h.numbered x hx
    · obtain ⟨hle, -, hget⟩ := hmem x hx
      obtain ⟨more, hmore⟩ := hd
      have hlt := (List.getElem?_eq_some_iff.1 hget).1
      have hdrop : (xs.drop bound)[x.2 - bound]? = some x.1 := by
        rw [← hmore, List.getElem?_append_left hlt]
        exact hget
      rwa [List.getElem?_drop, Nat.add_sub_cancel' hle] at hdrop
  · intro x hx
    rcases List.mem_append.1 hx with hx | hx
    · exact Nat.lt_of_lt_of_le (h.below x hx) (Nat.le_add_right _ _)
    · exact (hmem x hx).2.1

end Picks

end SysLib
