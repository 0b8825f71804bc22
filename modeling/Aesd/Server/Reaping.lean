import Aesd.Server.Threads
/-!
# Joining the threads

The two walks of `acceptClientConnection` keep the invariant of the list while
the threads set their flags. So a thread is on the list once, in the order of
creation, or it has been joined once and its node has been freed after that.
-/

namespace Aesd

open SysLib

namespace Threads

section Walking

variable {m m' : Threads} {l extra : List (Nat × Nat)} {a t : Nat}

/-- Steps that leave the walk, and where the live nodes lead, alone. -/
theorem Walking.keep (h : m.Walking l extra) (hn : ∀ a n, m.nodes a = some n → (m'.nodes a).map (·.next) = some n.next)
    (hw : m'.walk = m.walk) (hj : m'.joined = m.joined) (hf : m'.found = m.found) (hp : m'.passed = m.passed) :
    m'.Walking l extra := by
  have hscan : ∀ {prev current}, m.Scanning l prev current → m'.Scanning l prev current := by
    rintro prev current ⟨front, back, pre, hl, hprev, hfront, hback, hpassed⟩
    exact ⟨front, back, pre, hl, hprev, hfront.keep hn, hback.keep hn, hp.trans hpassed⟩
  unfold Walking at h ⊢
  rw [hw, hj, hf, hp]
  cases hwalk : m.walk with
  | idle => rw [hwalk] at h; exact ⟨h.1, h.2.1.keep hn, h.2.2⟩
  | append var arg =>
    rw [hwalk] at h
    obtain ⟨t, pre, post, he, hj, hlt, hc, hseg, harg⟩ := h
    exact ⟨t, pre, post, he, hj, hlt, hc, hseg.keep hn, harg.keep hn⟩
  | reap => rw [hwalk] at h; exact ⟨h.1, h.2.keep hn⟩
  | scan prev current => rw [hwalk] at h; exact ⟨h.1, h.2.1, hscan h.2.2⟩
  | join temp prev current =>
    rw [hwalk] at h
    obtain ⟨t, he, hj, hf, hs⟩ := h
    exact ⟨t, he, hj, hf, hscan hs⟩
  | free temp prev current =>
    rw [hwalk] at h
    obtain ⟨t, he, hj, hf, hs⟩ := h
    exact ⟨t, he, hj, hf, hscan hs⟩

theorem Inv.create (h : m.Inv l extra) (hw : m.walk = .idle) (ha : m.nodes a = none) :
    (m.create a).Inv l [(a, m.count)] := by
  have hwalk := h.walking
  simp only [Walking, hw] at hwalk
  obtain ⟨rfl, hseg, -⟩ := hwalk
  have hknown := h.toKnown
  rw [List.append_nil] at hknown
  have hnew : ∀ n, m.nodes a ≠ some n := fun n hn => by rw [ha] at hn; cases hn
  refine ⟨hknown.create ha, h.order, h.listed, m.count, [], l.map Prod.fst, rfl, ?_, ?_, rfl, ?_, ?_⟩
  · exact fun hj => Nat.lt_irrefl _ (h.bound _ (.inr hj))
  · intro x hx
    exact hknown.bound x.2 (.inl (List.mem_map.2 ⟨x, hx, rfl⟩))
  · refine hseg.keep fun b n hn => ?_
    have hne : b ≠ a := fun he => hnew n (he ▸ hn)
    rw [create_nodes, Function.update_of_ne hne, hn]
    rfl
  · have hself : (m.create a).nodes a = some ⟨some m.count, false, none⟩ := Function.update_self ..
    exact (seg_single hself).2 rfl

theorem Inv.createFails (h : m.Inv l extra) (ha : m.nodes a = none) : (m.createFails a).Inv l extra := by
  refine ⟨h.toKnown.createFails ha, h.order, h.listed, h.walking.keep (fun b n hn => ?_) rfl rfl rfl rfl⟩
  have hne : b ≠ a := fun he => by rw [he, ha] at hn; cases hn
  rw [createFails_nodes, Function.update_of_ne hne, hn]
  rfl

theorem Inv.setDone (h : m.Inv l extra) (hr : m.worker t = some (.running a)) :
    ∃ m', m.setDone t a = .ok m' ∧ m'.Inv l extra := by
  obtain ⟨n, hn, -, he, hknown⟩ := h.toKnown.setDone hr
  refine ⟨_, he, hknown, h.order, h.listed, h.walking.keep (fun b n' hn' => ?_) rfl rfl rfl rfl⟩
  rw [flag_nodes]
  by_cases hb : b = a
  · subst hb
    obtain rfl := Option.some.inj (hn.symm.trans hn')
    rw [Function.update_self]
    rfl
  · rw [Function.update_of_ne hb, hn']
    rfl

theorem Inv.returns (h : m.Inv l extra) (hd : m.worker t = some .done) : (m.leave t).Inv l extra :=
  ⟨h.toKnown.returns hd, h.order, h.listed, h.walking.keep (fun _ _ hn => congrArg _ hn) rfl rfl rfl rfl⟩

/-! ## The walks -/

theorem load_eq {n : ThreadArg} (hn : m.nodes a = some n) : m.load a = .ok n := by rw [load, hn]

/-- The node that is not on the list is none of those the walks pass. -/
theorem Known.extra_not_mem (h : m.Known (l ++ [(a, t)])) : a ∉ dummyNode :: l.map Prod.fst := by
  rw [List.mem_cons, not_or]
  refine ⟨h.ne_dummy (List.mem_append_right _ (List.mem_singleton_self _)), fun hm => ?_⟩
  have := h.addrs
  rw [List.map_append, List.map_singleton, List.nodup_append] at this
  exact this.2.2 a hm a (List.mem_singleton_self _) rfl

/-- Linking a node elsewhere changes no label. -/
theorem relink_label {n n' : ThreadArg} (hn : m.nodes a = some n) (he : label n' = label n) (b : Nat) :
    ((Function.update m.nodes a (some n')) b).map label = (m.nodes b).map label := by
  by_cases hb : b = a
  · rw [hb, Function.update_self, hn, Option.map_some, Option.map_some, he]
  · rw [Function.update_of_ne hb]

/-- The walk to the end of the list, and the new node behind the last one. -/
theorem Inv.append (h : m.Inv l extra) {var arg : Nat} (hw : m.walk = .append var arg) :
    ∃ m', m.advance = .ok m' ∧ ∃ l' extra', m'.Inv l' extra' := by
  have hwalk := h.walking
  simp only [Walking, hw] at hwalk
  obtain ⟨t, pre, post, rfl, hj, hlt, hc, hseg, harg⟩ := hwalk
  obtain ⟨v, hv, hpre, hpost⟩ := Seg.at_node (hc ▸ hseg)
  cases hnext : v.next with
  | some b =>
    -- one node on
    rw [hnext] at hpost
    obtain ⟨_, post', rfl, -, -⟩ := hpost.some_cons
    refine ⟨{ m with walk := .append b arg }, ?_, l, [(arg, t)], ?_⟩
    · simp only [advance, hw, load_eq hv, ok_bind, hnext]
    · exact ⟨h.toKnown.relink (fun _ => rfl) rfl rfl rfl, h.order, h.listed, t, pre ++ [var], post', rfl, hj, hlt,
        by rw [hc, List.append_assoc]; rfl, hseg, harg⟩
  | none =>
    -- `var` is the last node
    rw [hnext] at hpost
    obtain rfl := hpost.none_nil
    refine ⟨{ m.store var { v with next := some arg } with walk := .reap }, ?_, l ++ [(arg, t)], [], ?_⟩
    · simp only [advance, hw, load_eq hv, ok_bind, hnext]
    have hnodup := h.toKnown.chain_nodup (List.sublist_append_left l _)
    rw [hc, List.nodup_append] at hnodup
    have hvar : var ∉ pre := fun hm => hnodup.2.2 var hm var (List.mem_singleton_self _) rfl
    have hne : var ∉ [arg] := by
      have hout := h.toKnown.extra_not_mem
      rw [hc] at hout
      intro hm
      exact hout (List.mem_append_right _ (List.mem_singleton.2 (List.mem_singleton.1 hm).symm))
    refine ⟨?_, ?_, ?_, rfl, ?_⟩
    · rw [List.append_nil]
      exact h.toKnown.relink (relink_label hv rfl) rfl rfl rfl
    · rw [List.map_append, List.pairwise_append]
      refine ⟨h.order, List.pairwise_singleton _ _, fun u hu u' hu' => ?_⟩
      obtain ⟨x, hx, rfl⟩ := List.mem_map.1 hu
      rw [List.map_singleton, List.mem_singleton] at hu'
      rw [hu']
      exact hlt x hx
    · intro u hu
      rw [List.map_append, List.mem_append, List.map_singleton, List.mem_singleton] at hu
      rcases hu with hu | rfl
      · exact h.listed u hu
      · exact hj
    · rw [List.map_append, ← List.cons_append]
      refine seg_append.2 ⟨some arg, ?_, harg.update hne _⟩
      rw [hc] at hseg ⊢
      exact hseg.redirect hvar rfl

/-- The second walk starts. -/
theorem Inv.reap (h : m.Inv l extra) (hw : m.walk = .reap) :
    ∃ m', m.advance = .ok m' ∧ ∃ l' extra', m'.Inv l' extra' := by
  have hwalk := h.walking
  simp only [Walking, hw] at hwalk
  obtain ⟨rfl, -, d, hd, hseg⟩ := hwalk
  refine ⟨{ m with walk := .scan dummyNode d.next, found := [], passed := [] }, ?_, l, [], ?_⟩
  · simp only [advance, hw, load_eq hd, ok_bind]
  · exact ⟨h.toKnown.relink (fun _ => rfl) rfl rfl rfl, h.order, h.listed, rfl, List.nil_subset _, [], l, [], rfl, rfl,
      (seg_single hd).2 rfl, hseg, rfl⟩

/-- The second walk is at its end, at a thread that is not done, or at one that is. -/
theorem Inv.scan (h : m.Inv l extra) {prev : Nat} {current : Option Nat} (hw : m.walk = .scan prev current) :
    ∃ m', m.advance = .ok m' ∧ ∃ l' extra', m'.Inv l' extra' := by
  have hwalk := h.walking
  simp only [Walking, hw] at hwalk
  obtain ⟨rfl, hfound, front, back, pre, rfl, hprev, hfront, hback, hpassed⟩ := hwalk
  cases current with
  | none =>
    have hnil : back = [] := List.map_eq_nil_iff.1 hback.none_nil
    subst hnil
    rw [List.append_nil] at h
    exact ⟨{ m with walk := .idle }, by simp only [advance, hw], front, [],
      h.toKnown.relink (fun _ => rfl) rfl rfl rfl, h.order, h.listed, rfl, hfront, hfound, hpassed⟩
  | some c =>
    obtain ⟨n, bs, hbs, hn, hrest⟩ := hback.some_cons
    obtain ⟨⟨c', t⟩, back', rfl, rfl, rfl⟩ := List.map_eq_cons_iff.1 hbs
    have hmem : (c', t) ∈ front ++ (c', t) :: back' ++ [] := by simp
    obtain ⟨n', hn', ht⟩ := (h.nodes c' t).1 hmem
    obtain rfl := Option.some.inj (hn.symm.trans hn')
    cases hdone : n.isDone with
    | false =>
      refine ⟨{ m with walk := .scan c' n.next, passed := m.passed ++ [t] }, ?_, front ++ (c', t) :: back', [], ?_⟩
      · simp only [advance, hw, load_eq hn, ok_bind, ht, hdone, Bool.false_eq_true, if_false]
      refine ⟨h.toKnown.relink (fun _ => rfl) rfl rfl rfl, h.order, h.listed, rfl, hfound, front ++ [(c', t)], back',
        dummyNode :: front.map Prod.fst, by simp, by simp, ?_, hrest, by simp [hpassed]⟩
      rw [List.map_append, ← List.cons_append]
      exact seg_append.2 ⟨_, hfront, (seg_single hn).2 rfl⟩
    | true =>
      rw [hprev] at hfront
      obtain ⟨p, hp, -, -⟩ := hfront.at_node
      refine ⟨{ m.store prev { p with next := n.next } with walk := .join c' prev n.next, found := m.found ++ [t] }, ?_,
        front ++ back', [(c', t)], ?_⟩
      · simp only [advance, hw, load_eq hn, ok_bind, ht, hdone, if_true, load_eq hp]
      have hperm : (front ++ (c', t) :: back' ++ []).Perm (front ++ back' ++ [(c', t)]) := by
        rw [List.append_nil]
        exact List.perm_middle.trans (List.perm_append_singleton _ _).symm
      have hsub : (front ++ back').Sublist (front ++ (c', t) :: back') :=
        (List.Sublist.refl front).append (List.sublist_cons_self _ _)
      have hchain : (dummyNode :: (front ++ (c', t) :: back').map Prod.fst).Nodup :=
        h.toKnown.chain_nodup (List.sublist_append_left _ _)
      rw [List.map_append, ← List.cons_append, hprev, List.nodup_append, List.nodup_append] at hchain
      obtain ⟨⟨-, -, hpre⟩, -, hpost⟩ := hchain
      refine ⟨(h.toKnown.perm hperm).relink (relink_label hp rfl) rfl rfl rfl, h.order.sublist (hsub.map _),
        fun u hu => h.listed u ((hsub.map _).mem hu), t, rfl, h.listed t ?_, ?_, front, back', pre, rfl, hprev, ?_, ?_,
        hpassed⟩
      · rw [List.map_append, List.mem_append]
        exact .inr List.mem_cons_self
      · intro u hu
        rcases List.mem_append.1 hu with hu | hu
        · exact List.mem_append_left _ (hfound hu)
        · exact List.mem_append_right _ hu
      · rw [hprev]
        refine hfront.redirect (fun hm => ?_) rfl
        exact hpre prev hm prev (List.mem_singleton_self _) rfl
      · refine hrest.update (fun hm => ?_) _
        exact hpost prev (List.mem_append_right _ (List.mem_singleton_self _)) prev (List.mem_cons_of_mem _ hm) rfl

/-- The thread found done is joined. -/
theorem Inv.join (h : m.Inv l extra) {temp prev : Nat} {current : Option Nat} (hw : m.walk = .join temp prev current) :
    ∃ m', m.advance = .ok m' ∧ (¬ m.Waits → ∃ l' extra', m'.Inv l' extra') := by
  have hwalk := h.walking
  simp only [Walking, hw] at hwalk
  obtain ⟨t, rfl, hj, hfound, hscan⟩ := hwalk
  have hmem : (temp, t) ∈ l ++ [(temp, t)] := List.mem_append_right _ (List.mem_singleton_self _)
  obtain ⟨n, hn, ht⟩ := (h.nodes temp t).1 hmem
  refine ⟨{ m with walk := .free temp prev current, joined := m.joined ++ [t] }, ?_, fun hwait => ⟨l, [(temp, t)], ?_⟩⟩
  · simp only [advance, hw, load_eq hn, ok_bind, ht]
  have hret : m.worker t = some .returned := by
    by_contra hne
    exact hwait ⟨temp, prev, current, n, t, hw, hn, ht, hne⟩
  refine ⟨h.toKnown.join hmem hj hret _, h.order, fun u hu hu' => ?_, t, rfl, ?_, hfound, hscan⟩
  · rcases List.mem_append.1 hu' with hu' | hu'
    · exact h.listed u hu hu'
    · obtain rfl := List.mem_singleton.1 hu'
      have := h.threads
      rw [List.map_append, List.nodup_append] at this
      exact this.2.2 u hu u (List.mem_singleton_self _) rfl
  · exact List.mem_append_right _ (List.mem_singleton_self _)

/-- Its node is freed. -/
theorem Inv.free (h : m.Inv l extra) {temp prev : Nat} {current : Option Nat} (hw : m.walk = .free temp prev current) :
    ∃ m', m.advance = .ok m' ∧ ∃ l' extra', m'.Inv l' extra' := by
  have hwalk := h.walking
  simp only [Walking, hw] at hwalk
  obtain ⟨t, rfl, hj, hfound, front, back, pre, rfl, hprev, hfront, hback, hpassed⟩ := hwalk
  obtain ⟨n, hn, -⟩ := (h.nodes temp t).1 (List.mem_append_right _ (List.mem_singleton_self _))
  have hout := h.toKnown.extra_not_mem
  rw [List.map_append, ← List.cons_append, List.mem_append, not_or] at hout
  refine ⟨{ m with nodes := Function.update m.nodes temp none, walk := .scan prev current }, ?_, front ++ back, [], ?_⟩
  · simp only [advance, hw, load_eq hn, ok_bind]
  · refine ⟨?_, h.order, h.listed, rfl, hfound, front, back, pre, rfl, hprev, hfront.update hout.1 _,
      hback.update hout.2 _, hpassed⟩
    rw [List.append_nil]
    exact h.toKnown.free hj _

/-- The next step of the walks is no access to a node that has been freed, and keeps the invariant. -/
theorem Inv.advance (h : m.Inv l extra) :
    ∃ m', m.advance = .ok m' ∧ (¬ m.Waits → ∃ l' extra', m'.Inv l' extra') := by
  have hplain : (∃ m', m.advance = .ok m' ∧ ∃ l' extra', m'.Inv l' extra') →
      ∃ m', m.advance = .ok m' ∧ (¬ m.Waits → ∃ l' extra', m'.Inv l' extra') :=
    fun ⟨m', he, hinv⟩ => ⟨m', he, fun _ => hinv⟩
  cases hw : m.walk with
  | idle => exact hplain ⟨m, by simp only [Threads.advance, hw], l, extra, h⟩
  | append var arg => exact hplain (h.append hw)
  | reap => exact hplain (h.reap hw)
  | scan prev current => exact hplain (h.scan hw)
  | join temp prev current => exact h.join hw
  | free temp prev current => exact hplain (h.free hw)

/-- Every step keeps the invariant. -/
theorem Inv.step (h : m.Inv l extra) (hst : Step m m') : ∃ l' extra', m'.Inv l' extra' := by
  cases hst with
  | create a hw ha => exact ⟨l, _, h.create hw ha⟩
  | createFails a hw ha => exact ⟨l, extra, h.createFails ha⟩
  | advance _ hwait he =>
    obtain ⟨m'', he', hinv⟩ := h.advance
    obtain rfl := Except.ok.inj (he'.symm.trans he)
    exact hinv hwait
  | setDone hr he =>
    obtain ⟨m'', he', hinv⟩ := h.setDone hr
    obtain rfl := Except.ok.inj (he'.symm.trans he)
    exact ⟨l, extra, hinv⟩
  | returns hd => exact ⟨l, extra, h.returns hd⟩

end Walking

/-! ## Whole runs -/

section Runs

variable {m m' : Threads} {l extra : List (Nat × Nat)} {a t : Nat}

/-- Thread `t` has set its flag. -/
def Ended (m : Threads) (t : Nat) : Prop := m.worker t = some .done ∨ m.worker t = some .returned

theorem load_ok {n : ThreadArg} (he : m.load a = .ok n) : m.nodes a = some n := by
  unfold load at he
  cases hn : m.nodes a with
  | none => rw [hn] at he; cases he
  | some n' => rw [hn] at he; rw [Except.ok.inj he]

theorem setDone_ok (he : m.setDone t a = .ok m') : ∃ n, m' = m.flag t a n := by
  obtain ⟨n, -, he⟩ := ok_of_bind he
  exact ⟨n, (Except.ok.inj he).symm⟩

/-- The traversal comes to the node of thread `t` next, whose flag is `isDone`. -/
def Meets (m : Threads) (t : Nat) (isDone : Bool) : Prop :=
  ∃ prev current n, m.walk = .scan prev (some current) ∧ m.nodes current = some n ∧ n.thread = some t ∧ n.isDone = isDone

/-- The walks leave the threads alone, and find done or pass the thread that the traversal meets. -/
theorem advance_ok (he : m.advance = .ok m') :
    m'.worker = m.worker ∧ m'.count = m.count ∧ m.joined ⊆ m'.joined ∧ (∀ t ∈ m'.found, t ∈ m.found ∨ m.Meets t true) ∧
      ∀ t ∈ m'.passed, t ∈ m.passed ∨ m.Meets t false := by
  unfold advance at he
  cases hw : m.walk with
  | idle =>
    rw [hw] at he
    obtain rfl := Except.ok.inj he
    exact ⟨rfl, rfl, List.Subset.refl _, fun t => .inl, fun t => .inl⟩
  | append var arg =>
    rw [hw] at he
    obtain ⟨v, -, he⟩ := ok_of_bind he
    cases hnext : v.next with
    | none =>
      rw [hnext] at he
      obtain rfl := Except.ok.inj he
      exact ⟨rfl, rfl, List.Subset.refl _, fun t => .inl, fun t => .inl⟩
    | some b =>
      rw [hnext] at he
      obtain rfl := Except.ok.inj he
      exact ⟨rfl, rfl, List.Subset.refl _, fun t => .inl, fun t => .inl⟩
  | reap =>
    rw [hw] at he
    obtain ⟨d, -, he⟩ := ok_of_bind he
    obtain rfl := Except.ok.inj he
    exact ⟨rfl, rfl, List.Subset.refl _, fun t ht => (by cases ht), fun t ht => (by cases ht)⟩
  | scan prev current =>
    rw [hw] at he
    cases current with
    | none =>
      obtain rfl := Except.ok.inj he
      exact ⟨rfl, rfl, List.Subset.refl _, fun t => .inl, fun t => .inl⟩
    | some c =>
      obtain ⟨n, hn, he⟩ := ok_of_bind he
      cases ht : n.thread with
      | none => rw [ht] at he; cases he
      | some u =>
        simp only [ht] at he
        split at he
        next hdone =>
          obtain ⟨p, -, he⟩ := ok_of_bind he
          obtain rfl := Except.ok.inj he
          refine ⟨rfl, rfl, List.Subset.refl _, fun t hfound => ?_, fun t => .inl⟩
          rcases List.mem_append.1 hfound with hfound | hfound
          · exact .inl hfound
          · obtain rfl := List.mem_singleton.1 hfound
            exact .inr ⟨prev, c, n, hw, load_ok hn, ht, hdone⟩
        next hdone =>
          obtain rfl := Except.ok.inj he
          refine ⟨rfl, rfl, List.Subset.refl _, fun t => .inl, fun t hpassed => ?_⟩
          rcases List.mem_append.1 hpassed with hpassed | hpassed
          · exact .inl hpassed
          · obtain rfl := List.mem_singleton.1 hpassed
            exact .inr ⟨prev, c, n, hw, load_ok hn, ht, Bool.eq_false_iff.2 hdone⟩
  | join temp prev current =>
    rw [hw] at he
    obtain ⟨n, -, he⟩ := ok_of_bind he
    cases ht : n.thread with
    | none => rw [ht] at he; cases he
    | some u =>
      rw [ht] at he
      obtain rfl := Except.ok.inj he
      exact ⟨rfl, rfl, List.subset_append_left _ _, fun t => .inl, fun t => .inl⟩
  | free temp prev current =>
    rw [hw] at he
    obtain ⟨n, -, he⟩ := ok_of_bind he
    obtain rfl := Except.ok.inj he
    exact ⟨rfl, rfl, List.Subset.refl _, fun t => .inl, fun t => .inl⟩

/-- A thread that has set its flag never runs again. -/
theorem Step.ended (hst : Step m m') (h : m.Known l) (ht : m.Ended t) : m'.Ended t := by
  cases hst with
  | create a hw ha =>
    have hborn : t < m.count := (h.born t).2 (by rcases ht with ht | ht <;> rw [ht] <;> simp)
    have hother : (m.create a).worker t = m.worker t := Function.update_of_ne (Nat.ne_of_lt hborn) _ _
    unfold Ended
    rw [hother]
    exact ht
  | createFails a hw ha => exact ht
  | advance _ _ he =>
    unfold Ended
    rw [(advance_ok he).1]
    exact ht
  | @setDone _ u arg hr he =>
    obtain ⟨n, rfl⟩ := setDone_ok he
    by_cases htu : t = u
    · rw [htu]
      exact .inl (Function.update_self ..)
    · have hother : (m.flag u arg n).worker t = m.worker t := Function.update_of_ne htu _ _
      unfold Ended
      rw [hother]
      exact ht
  | @returns u hd =>
    by_cases htu : t = u
    · rw [htu]
      exact .inr (Function.update_self ..)
    · have hother : (m.leave u).worker t = m.worker t := Function.update_of_ne htu _ _
      unfold Ended
      rw [hother]
      exact ht

/-- Only threads that have set their flag are found done. -/
theorem Step.found (hst : Step m m') (h : m.Known l) (hf : ∀ t ∈ m.found, m.Ended t) : ∀ t ∈ m'.found, m'.Ended t := by
  intro t ht
  refine hst.ended h ?_
  cases hst with
  | create a hw ha => exact hf t ht
  | createFails a hw ha => exact hf t ht
  | advance _ _ he =>
    rcases (advance_ok he).2.2.2.1 t ht with ht | ⟨-, a, n, -, hn, ht, hd⟩
    · exact hf t ht
    · exact h.flagged a n t hn ht hd
  | @setDone _ u arg hr he =>
    obtain ⟨n, rfl⟩ := setDone_ok he
    exact hf t ht
  | @returns u hd => exact hf t ht

/-- A thread is passed where the traversal meets it before it has set its flag. -/
theorem Step.passed (hst : Step m m') : ∀ t ∈ m'.passed, t ∈ m.passed ∨ m.Meets t false := by
  intro t ht
  cases hst with
  | advance _ _ he => exact (advance_ok he).2.2.2.2 t ht
  | setDone _ he =>
    obtain ⟨n, rfl⟩ := setDone_ok he
    exact .inl ht
  | _ => exact .inl ht

/-! ## What is seen done is removed -/

/-- The traversal has come to the node of thread `t` with its flag set, has
unlinked it, or has joined the thread. -/
inductive Removing (m : Threads) (t : Nat) : Prop
  | meets : m.Meets t true → Removing m t
  | unlinked {temp prev : Nat} {current : Option Nat} {n : ThreadArg} : m.walk = .join temp prev current →
      m.nodes temp = some n → n.thread = some t → Removing m t
  | joined : t ∈ m.joined → Removing m t

/-- The walks go on with it. -/
theorem Removing.advance (h : m.Removing t) (he : m.advance = .ok m') : m'.Removing t := by
  have hjoined : m.joined ⊆ m'.joined := (advance_ok he).2.2.1
  unfold Threads.advance at he
  cases h with
  | meets h =>
    obtain ⟨prev, current, n, hw, hn, ht, hdone⟩ := h
    simp only [hw, load, hn, ht, hdone, if_true, ok_bind] at he
    obtain ⟨p, hp, he⟩ := ok_of_bind he
    obtain rfl := Except.ok.inj he
    -- the predecessor's node is stored, and keeps its thread
    have hnode : ∃ n', Function.update m.nodes prev (some { p with next := n.next }) current = some n' ∧
        n'.thread = some t := by
      by_cases hcp : current = prev
      · subst hcp
        rw [hn] at hp
        obtain rfl := Except.ok.inj hp
        exact ⟨_, Function.update_self .., ht⟩
      · exact ⟨n, (Function.update_of_ne hcp _ _).trans hn, ht⟩
    obtain ⟨n', hn', ht'⟩ := hnode
    exact .unlinked rfl hn' ht'
  | unlinked hw hn ht =>
    simp only [hw, load, hn, ht, ok_bind] at he
    obtain rfl := Except.ok.inj he
    exact .joined (List.mem_append_right _ (List.mem_singleton_self _))
  | joined hj => exact .joined (hjoined hj)

theorem Removing.step (h : m.Removing t) (hst : Step m m') : m'.Removing t := by
  cases hst with
  | create a hw ha =>
    cases h with
    | meets h =>
      obtain ⟨prev, current, n, hscan, -⟩ := h
      rw [hw] at hscan
      cases hscan
    | unlinked hjoin =>
      rw [hw] at hjoin
      cases hjoin
    | joined hj => exact .joined hj
  | createFails a hw ha =>
    cases h with
    | meets h =>
      obtain ⟨prev, current, n, hscan, -⟩ := h
      rw [hw] at hscan
      cases hscan
    | unlinked hjoin =>
      rw [hw] at hjoin
      cases hjoin
    | joined hj => exact .joined hj
  | advance _ _ he => exact h.advance he
  | @setDone _ u arg hr he =>
    obtain ⟨n₀, hn₀, he⟩ := ok_of_bind he
    obtain rfl := Except.ok.inj he
    -- a flag that is set stays set
    have hkeep {a : Nat} {n : ThreadArg} (hn : m.nodes a = some n) : ∃ n', (m.flag u arg n₀).nodes a = some n' ∧
        n'.thread = n.thread ∧ (n.isDone = true → n'.isDone = true) := by
      rw [flag_nodes]
      by_cases ha : a = arg
      · subst ha
        obtain rfl := Option.some.inj (hn.symm.trans (load_ok hn₀))
        exact ⟨_, Function.update_self .., rfl, fun _ => rfl⟩
      · exact ⟨n, (Function.update_of_ne ha _ _).trans hn, rfl, id⟩
    cases h with
    | meets h =>
      obtain ⟨prev, current, n, hw, hn, ht, hdone⟩ := h
      obtain ⟨n', hn', ht', hdone'⟩ := hkeep hn
      exact .meets ⟨prev, current, n', hw, hn', ht'.trans ht, hdone' hdone⟩
    | unlinked hw hn ht =>
      obtain ⟨n', hn', ht', -⟩ := hkeep hn
      exact .unlinked hw hn' (ht'.trans ht)
    | joined hj => exact .joined hj
  | returns hd =>
    cases h with
    | meets h => exact .meets h
    | unlinked hw hn ht => exact .unlinked hw hn ht
    | joined hj => exact .joined hj

/-- Between two calls there is no thread on its way. -/
theorem Removing.idle (h : m.Removing t) (hw : m.walk = .idle) : t ∈ m.joined := by
  cases h with
  | meets h =>
    obtain ⟨prev, current, n, hscan, -⟩ := h
    rw [hw] at hscan
    cases hscan
  | unlinked hjoin =>
    rw [hw] at hjoin
    cases hjoin
  | joined hj => exact hj

theorem start_inv : start.Inv [] [] := by
  have hnodes : start.nodes = Function.update (fun _ => none) dummyNode (some ⟨none, false, none⟩) := rfl
  have hdummy : start.nodes dummyNode = some ⟨none, false, none⟩ := by rw [hnodes, Function.update_self]
  have honly : ∀ a n, start.nodes a = some n → n.thread = none := by
    intro a n hn
    by_cases ha : a = dummyNode
    · rw [ha, hdummy, Option.some.injEq] at hn
      rw [← hn]
    · rw [hnodes, Function.update_of_ne ha] at hn
      cases hn
  refine ⟨⟨⟨_, hdummy, rfl⟩, fun a t => ?_, List.nodup_nil, List.nodup_nil, ?_, ?_, List.nodup_nil, ?_, ?_, ?_, ?_⟩,
    List.Pairwise.nil, ?_, rfl, ?_, List.Subset.refl _, rfl⟩
  · constructor
    · intro hm
      cases hm
    · rintro ⟨n, hn, ht⟩
      rw [honly a n hn] at ht
      cases ht
  · intro t ht
    exact absurd ht (Nat.not_lt_zero t)
  · rintro t (ht | ht) <;> cases ht
  · intro t ht
    cases ht
  · exact fun t => ⟨fun ht => absurd ht (Nat.not_lt_zero t), fun ht => absurd rfl ht⟩
  · intro t a hr
    cases hr
  · intro a n t hn ht _
    rw [honly a n hn] at ht
    cases ht
  · intro t ht
    cases ht
  · exact (seg_single hdummy).2 rfl

/-- Every reachable state is one of the invariant, in which no running thread has been found done. -/
theorem reached {states : List Threads} (hrun : Run Step start states m) :
    (∃ l extra, m.Inv l extra) ∧ ∀ t ∈ m.found, m.Ended t := by
  refine SysLib.Run.inv hrun (fun m => (∃ l extra, m.Inv l extra) ∧ ∀ t ∈ m.found, m.Ended t) ?_ ?_
  · exact ⟨⟨[], [], start_inv⟩, fun t ht => by cases ht⟩
  · rintro m m' ⟨⟨l, extra, h⟩, hf⟩ hst
    exact ⟨h.step hst, hst.found h.toKnown hf⟩

theorem not_waits (hj : ∀ temp prev current, m.walk ≠ .join temp prev current) : ¬ m.Waits := by
  rintro ⟨temp, prev, current, n, u, hw, -⟩
  exact hj temp prev current hw

theorem not_waits_returned {temp prev : Nat} {current : Option Nat} {n : ThreadArg} (hw : m.walk = .join temp prev current)
    (hn : m.nodes temp = some n) (ht : n.thread = some t) (hr : m.worker t = some .returned) : ¬ m.Waits := by
  rintro ⟨temp', prev', current', n', u, hw', hn', hu, hne⟩
  rw [hw] at hw'
  injection hw' with htemp
  rw [← htemp, hn, Option.some.injEq] at hn'
  rw [← hn', ht, Option.some.injEq] at hu
  exact hne (hu ▸ hr)

/-- What holds between two calls: the nodes behind `dummyNode` are those of the
threads in `listed`, oldest first, and the others have been joined. -/
structure Between (m : Threads) (listed : List (Nat × Nat)) : Prop where
  chain : Seg ThreadArg.next m.nodes (some dummyNode) (dummyNode :: listed.map Prod.fst) none
  labels : ∀ x ∈ listed, ∃ n, m.nodes x.1 = some n ∧ n.thread = some x.2
  order : (listed.map Prod.snd).Pairwise (· < ·)
  once : ∀ t < m.count, (t ∈ listed.map Prod.snd ∧ t ∉ m.joined) ∨
    (t ∈ m.joined ∧ t ∉ listed.map Prod.snd ∧ ∀ a n, m.nodes a = some n → n.thread ≠ some t)
  found : m.found ⊆ m.joined
  passed : m.passed = listed.map Prod.snd

theorem Inv.between (h : m.Inv l extra) (hw : m.walk = .idle) : m.Between l := by
  have hwalk := h.walking
  simp only [Walking, hw] at hwalk
  obtain ⟨rfl, hseg, hfound, hpassed⟩ := hwalk
  have hknown := h.toKnown
  rw [List.append_nil] at hknown
  refine ⟨hseg, fun x hx => (hknown.nodes x.1 x.2).1 hx, h.order, fun t ht => ?_, hfound, hpassed⟩
  rcases hknown.known t ht with hl | hj
  · exact .inl ⟨hl, h.listed t hl⟩
  · refine .inr ⟨hj, fun hl => h.listed t hl hj, fun a n hn hnt => ?_⟩
    exact h.listed t (List.mem_map.2 ⟨(a, t), (hknown.nodes a t).2 ⟨n, hn, hnt⟩, rfl⟩) hj

end Runs

end Threads

open Threads

/-- In every run of `acceptClientConnection` and the threads: the walks and the
threads touch live nodes only; only threads that have set their flag are found
done, only threads that have returned are joined, each once, and a thread's node
is there until it is joined; between two calls every thread is on the list once,
in the order of creation, or has been joined, as those that the last traversal
found done; and a thread whose flag is set when a traversal comes to its node has
been joined when that traversal is over, whatever the threads do meanwhile. -/
theorem threads_accounted {states : List Threads} {m : Threads} (hrun : Run Step Threads.start states m) :
    (∃ m', m.advance = .ok m') ∧ (∀ t a, m.worker t = some (.running a) → ∃ m', m.setDone t a = .ok m') ∧
    (∀ t ∈ m.found, m.Ended t) ∧ (∀ t ∈ m.joined, m.worker t = some .returned) ∧ m.joined.Nodup ∧
    (∀ t < m.count, t ∉ m.joined → ∃ a n, m.nodes a = some n ∧ n.thread = some t) ∧
    (m.walk = .idle → ∃ listed, m.Between listed) ∧
    ∀ t, m.Meets t true → ∀ states' m', Run Step m states' m' → m'.walk = .idle → t ∈ m'.joined := by
  obtain ⟨⟨l, extra, h⟩, hf⟩ := reached hrun
  refine ⟨?_, fun t a hr => ?_, hf, h.ended, h.once, fun t ht hj => ?_, fun hw => ⟨l, h.between hw⟩,
    fun t hmeets states' m' hrun' hw => ?_⟩
  · obtain ⟨m', he, -⟩ := h.advance
    exact ⟨m', he⟩
  · obtain ⟨m', he, -⟩ := h.setDone hr
    exact ⟨m', he⟩
  · obtain ⟨⟨a, u⟩, hx, rfl⟩ := List.mem_map.1 ((h.known t ht).resolve_right hj)
    exact ⟨a, (h.nodes a u).1 hx⟩
  · have hremoving : m'.Removing t := hrun'.inv (fun m => m.Removing t) (.meets hmeets) fun _ _ hr hst => hr.step hst
    exact hremoving.idle hw

/-- Two calls: the first thread sets its flag and returns before the second one
is created, and the second call meets its node and joins it. -/
theorem threads_accounted_two : ∃ states m, Run Step Threads.start states m ∧ m.count = 2 ∧ m.walk = .idle ∧
    m.joined = [0] ∧ 0 ∈ m.joined ∧ ∃ listed, m.Between listed := by
  have h0 : Run Step Threads.start [] _ := .nil
  have h1 := h0.snoc (.create 1 rfl rfl)
  have h2 := h1.snoc (.advance nofun (not_waits nofun) rfl)
  have h3 := h2.snoc (.advance nofun (not_waits nofun) rfl)
  have h4 := h3.snoc (.advance nofun (not_waits nofun) rfl)
  have h5 := h4.snoc (.advance nofun (not_waits nofun) rfl)
  have h6 := h5.snoc (@Step.setDone _ _ 0 1 rfl rfl)
  have h7 := h6.snoc (@Step.returns _ 0 rfl)
  have h8 := h7.snoc (.create 2 rfl rfl)
  have h9 := h8.snoc (.advance nofun (not_waits nofun) rfl)
  have h10 := h9.snoc (.advance nofun (not_waits nofun) rfl)
  have h11 := h10.snoc (.advance nofun (not_waits nofun) rfl)
  -- the traversal of the second call, at the node of the first thread
  have here {states : List Threads} {m : Threads} (_ : Run Step Threads.start states m) : Run Step m [] m := .nil
  have h12 := (here h11).snoc (.advance nofun (not_waits nofun) rfl)
  have h13 := h12.snoc (.advance nofun (not_waits_returned rfl rfl rfl rfl) rfl)
  have h14 := h13.snoc (.advance nofun (not_waits nofun) rfl)
  have h15 := h14.snoc (.advance nofun (not_waits nofun) rfl)
  have h16 := h15.snoc (.advance nofun (not_waits nofun) rfl)
  exact ⟨_, _, h11.append h16, rfl, rfl, rfl,
    (threads_accounted h11).2.2.2.2.2.2.2 0 ⟨_, _, _, rfl, rfl, rfl, rfl⟩ _ _ h16 rfl,
    (threads_accounted (h11.append h16)).2.2.2.2.2.2.1 rfl⟩

end Aesd
