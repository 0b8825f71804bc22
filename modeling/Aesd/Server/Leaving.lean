import Aesd.Server.Exclusion
/-!
# How long `main` goes on after a signal

Once `exit_requested` is set, `main` makes a bounded number of steps: it accepts
at most one more connection, which it does not serve, or creates the one thread
it has just accepted a connection for, and walks the list of threads once.
-/

namespace Aesd

open SysLib

/-! ## What is left of the walks -/

namespace Threads

variable {m m' : Threads} {l extra : List (Nat × Nat)} {k : Nat}

/-- The walks end within `k` steps, if no thread is created meanwhile. A node
that is found done costs three steps. -/
def Remaining (m : Threads) (k : Nat) : Prop :=
  match m.walk with
  | .idle => True
  | .append var _ => ∃ chain post, Seg ThreadArg.next m.nodes (some dummyNode) chain none ∧
      Seg ThreadArg.next m.nodes (some var) (var :: post) none ∧ post.length + 3 * chain.length + 3 ≤ k
  | .reap => ∃ chain, Seg ThreadArg.next m.nodes (some dummyNode) (dummyNode :: chain) none ∧ 3 * chain.length + 2 ≤ k
  | .scan _ current => ∃ back, Seg ThreadArg.next m.nodes current back none ∧ 3 * back.length + 1 ≤ k
  | .join _ _ current => ∃ back, Seg ThreadArg.next m.nodes current back none ∧ 3 * back.length + 3 ≤ k
  | .free _ _ current => ∃ back, Seg ThreadArg.next m.nodes current back none ∧ 3 * back.length + 2 ≤ k

/-- Steps that leave the walks alone, and where the nodes lead. -/
theorem Remaining.keep (h : m.Remaining k)
    (hn : ∀ a n, m.nodes a = some n → (m'.nodes a).map (·.next) = some n.next) (hw : m'.walk = m.walk) :
    m'.Remaining k := by
  unfold Remaining at h ⊢
  rw [hw]
  cases hwalk : m.walk with
  | idle => trivial
  | append var arg =>
    rw [hwalk] at h
    obtain ⟨chain, post, hchain, hpost, hle⟩ := h
    exact ⟨chain, post, hchain.keep hn, hpost.keep hn, hle⟩
  | reap =>
    rw [hwalk] at h
    obtain ⟨chain, hchain, hle⟩ := h
    exact ⟨chain, hchain.keep hn, hle⟩
  | scan prev current =>
    rw [hwalk] at h
    obtain ⟨back, hback, hle⟩ := h
    exact ⟨back, hback.keep hn, hle⟩
  | join temp prev current =>
    rw [hwalk] at h
    obtain ⟨back, hback, hle⟩ := h
    exact ⟨back, hback.keep hn, hle⟩
  | free temp prev current =>
    rw [hwalk] at h
    obtain ⟨back, hback, hle⟩ := h
    exact ⟨back, hback.keep hn, hle⟩

theorem Remaining.setDone (h : m.Remaining k) {t a : Nat} (he : m.setDone t a = .ok m') : m'.Remaining k := by
  obtain ⟨n, hn, he⟩ := ok_of_bind he
  obtain rfl := Except.ok.inj he
  refine h.keep (fun b n' hn' => ?_) rfl
  rw [flag_nodes]
  by_cases hb : b = a
  · subst hb
    obtain rfl := Option.some.inj ((load_ok hn).symm.trans hn')
    rw [Function.update_self]
    rfl
  · rw [Function.update_of_ne hb, hn']
    rfl

/-- The walk to the end of the list. -/
theorem Inv.remaining_append (h : m.Inv l extra) (hr : m.Remaining k) {var arg : Nat} (hw : m.walk = .append var arg)
    (he : m.advance = .ok m') : ∃ k', m'.Remaining k' ∧ k' < k := by
  simp only [Remaining, hw] at hr
  obtain ⟨chain, post, hchain, hpost, hle⟩ := hr
  have hwalk := h.walking
  simp only [Walking, hw] at hwalk
  obtain ⟨t, pre, post', rfl, hj, hlt, hc, hseg, harg⟩ := hwalk
  obtain rfl := hchain.unique hseg
  obtain ⟨-, v, hv, hrest⟩ := hpost
  simp only [Threads.advance, hw, load_eq hv, ok_bind] at he
  cases hnext : v.next with
  | some b =>
    -- one node on
    rw [hnext] at he hrest
    obtain rfl := Except.ok.inj he
    obtain ⟨n, bs, rfl, hn, hbs⟩ := hrest.some_cons
    refine ⟨bs.length + 3 * (dummyNode :: l.map Prod.fst).length + 3, ?_, ?_⟩
    · simp only [Remaining]
      exact ⟨_, bs, hseg, ⟨rfl, n, hn, hbs⟩, Nat.le_refl _⟩
    · rw [List.length_cons] at hle
      omega
  | none =>
    -- `var` is the last node, and the new one comes behind it
    rw [hnext] at he hrest
    obtain rfl := Except.ok.inj he
    have hnodup := h.toKnown.chain_nodup (List.sublist_append_left l _)
    have hpost : post' = [] := by
      rw [hc] at hseg
      obtain ⟨v', hv', -, hpost'⟩ := Seg.at_node hseg
      obtain rfl := Option.some.inj (hv.symm.trans hv')
      rw [hnext] at hpost'
      exact hpost'.none_nil
    subst hpost
    have hvar : var ∉ pre := by
      rw [hc, List.nodup_append] at hnodup
      exact fun hm => hnodup.2.2 var hm var (List.mem_singleton_self _) rfl
    have hne : var ∉ [arg] := by
      have hout := h.toKnown.extra_not_mem
      rw [hc] at hout
      intro hm
      exact hout (List.mem_append_right _ (List.mem_singleton.2 (List.mem_singleton.1 hm).symm))
    have hnew : Seg ThreadArg.next (Function.update m.nodes var (some { v with next := some arg })) (some dummyNode)
        ((dummyNode :: l.map Prod.fst) ++ [arg]) none := by
      refine seg_append.2 ⟨some arg, ?_, harg.update hne _⟩
      rw [hc] at hseg ⊢
      exact hseg.redirect hvar rfl
    refine ⟨3 * (l.map Prod.fst ++ [arg]).length + 2, ?_, ?_⟩
    · simp only [Remaining]
      exact ⟨l.map Prod.fst ++ [arg], hnew, Nat.le_refl _⟩
    · rw [List.length_append, List.length_singleton]
      rw [List.length_cons] at hle
      omega

/-- The walk that joins. -/
theorem Inv.remaining_scan (h : m.Inv l extra) (hr : m.Remaining k) {prev : Nat} {current : Option Nat}
    (hw : m.walk = .scan prev current) (he : m.advance = .ok m') : ∃ k', m'.Remaining k' ∧ k' < k := by
  simp only [Remaining, hw] at hr
  obtain ⟨back, hback, hle⟩ := hr
  have hwalk := h.walking
  simp only [Walking, hw] at hwalk
  obtain ⟨rfl, hfound, front, back', pre, rfl, hprev, hfront, hback', hpassed⟩ := hwalk
  obtain rfl := hback.unique hback'
  cases current with
  | none =>
    simp only [Threads.advance, hw] at he
    obtain rfl := Except.ok.inj he
    refine ⟨0, ?_, by omega⟩
    simp only [Remaining]
  | some c =>
    obtain ⟨n, bs, hbs, hn, hrest⟩ := hback.some_cons
    rw [hbs, List.length_cons] at hle
    cases ht : n.thread with
    | none =>
      simp only [Threads.advance, hw, load_eq hn, ok_bind, ht] at he
      cases he
    | some t =>
      simp only [Threads.advance, hw, load_eq hn, ok_bind, ht] at he
      cases hdone : n.isDone with
      | false =>
        rw [hdone, if_neg Bool.false_ne_true] at he
        obtain rfl := Except.ok.inj he
        refine ⟨3 * bs.length + 1, ?_, by omega⟩
        simp only [Remaining]
        exact ⟨bs, hrest, Nat.le_refl _⟩
      | true =>
        rw [hdone, if_pos rfl] at he
        obtain ⟨p, hp, he⟩ := ok_of_bind he
        obtain rfl := Except.ok.inj he
        -- `prev` is before `current`
        have hchain : (dummyNode :: (front ++ back').map Prod.fst).Nodup :=
          h.toKnown.chain_nodup (List.sublist_append_left _ _)
        rw [List.map_append, ← List.cons_append, hprev, hbs, List.nodup_append] at hchain
        have hout : prev ∉ bs := by
          intro hm
          exact hchain.2.2 prev (List.mem_append_right _ (List.mem_singleton_self _)) prev
            (List.mem_cons_of_mem _ hm) rfl
        refine ⟨3 * bs.length + 3, ?_, by omega⟩
        simp only [Remaining]
        exact ⟨bs, hrest.update hout _, Nat.le_refl _⟩

/-- Every step of the walks is one of those that were left. -/
theorem Inv.remaining (h : m.Inv l extra) (hr : m.Remaining k) (hne : m.walk ≠ .idle) (he : m.advance = .ok m') :
    ∃ k', m'.Remaining k' ∧ k' < k := by
  cases hw : m.walk with
  | idle => exact absurd hw hne
  | append var arg => exact h.remaining_append hr hw he
  | scan prev current => exact h.remaining_scan hr hw he
  | reap =>
    simp only [Remaining, hw] at hr
    obtain ⟨chain, ⟨-, d, hd, hseg⟩, hle⟩ := hr
    simp only [Threads.advance, hw, load_eq hd, ok_bind] at he
    obtain rfl := Except.ok.inj he
    refine ⟨3 * chain.length + 1, ?_, by omega⟩
    simp only [Remaining]
    exact ⟨chain, hseg, Nat.le_refl _⟩
  | join temp prev current =>
    simp only [Remaining, hw] at hr
    obtain ⟨back, hback, hle⟩ := hr
    simp only [Threads.advance, hw] at he
    obtain ⟨n, -, he⟩ := ok_of_bind he
    cases ht : n.thread with
    | none =>
      rw [ht] at he
      cases he
    | some t =>
      rw [ht] at he
      obtain rfl := Except.ok.inj he
      refine ⟨3 * back.length + 2, ?_, by omega⟩
      simp only [Remaining]
      exact ⟨back, hback, Nat.le_refl _⟩
  | free temp prev current =>
    simp only [Remaining, hw] at hr
    obtain ⟨back, hback, hle⟩ := hr
    have hwalk := h.walking
    simp only [Walking, hw] at hwalk
    obtain ⟨t, rfl, hj, hfound, front, back', pre, rfl, hprev, hfront, hback', hpassed⟩ := hwalk
    obtain rfl := hback.unique hback'
    have hout := h.toKnown.extra_not_mem
    rw [List.map_append, ← List.cons_append, List.mem_append, not_or] at hout
    simp only [Threads.advance, hw] at he
    obtain ⟨n, -, he⟩ := ok_of_bind he
    obtain rfl := Except.ok.inj he
    refine ⟨3 * (back'.map Prod.fst).length + 1, ?_, by omega⟩
    simp only [Remaining]
    exact ⟨_, hback.update hout.2 _, Nat.le_refl _⟩

/-- There are no more nodes on the list than threads have been created. -/
theorem Inv.length_le (h : m.Inv l extra) : l.length ≤ m.count := by
  have hsub : l.map Prod.snd ⊆ List.range m.count := by
    intro t ht
    rw [List.mem_range]
    refine h.bound t (.inl ?_)
    rw [List.map_append]
    exact List.mem_append_left _ ht
  have hnodup : (l.map Prod.snd).Nodup := by
    have := h.threads
    rw [List.map_append, List.nodup_append] at this
    exact this.1
  have hle := (List.subperm_of_subset hnodup hsub).length_le
  rwa [List.length_map, List.length_range] at hle

/-- Wherever the walks are. -/
theorem Inv.remaining_le (h : m.Inv l extra) : m.Remaining (4 * m.count + 6) := by
  have hle := h.length_le
  have hwalk := h.walking
  have hscan : ∀ prev current, m.Scanning l prev current →
      ∃ back, Seg ThreadArg.next m.nodes current back none ∧ back.length ≤ m.count := by
    rintro prev current ⟨front, back, pre, rfl, -, -, hback, -⟩
    refine ⟨_, hback, ?_⟩
    rw [List.length_append] at hle
    rw [List.length_map]
    omega
  unfold Remaining
  cases hw : m.walk with
  | idle => trivial
  | append var arg =>
    simp only [Walking, hw] at hwalk
    obtain ⟨t, pre, post, rfl, hj, hlt, hc, hseg, harg⟩ := hwalk
    have hlen := congrArg List.length hc
    rw [List.length_cons, List.length_map, List.length_append, List.length_cons] at hlen
    refine ⟨_, post, hseg, ?_, ?_⟩
    · rw [hc] at hseg
      obtain ⟨v, hv, -, hpost⟩ := Seg.at_node hseg
      exact ⟨rfl, v, hv, hpost⟩
    · rw [List.length_cons, List.length_map]
      omega
  | reap =>
    simp only [Walking, hw] at hwalk
    refine ⟨_, hwalk.2, ?_⟩
    rw [List.length_map]
    omega
  | scan prev current =>
    simp only [Walking, hw] at hwalk
    obtain ⟨back, hback, hlen⟩ := hscan prev current hwalk.2.2
    exact ⟨back, hback, by omega⟩
  | join temp prev current =>
    simp only [Walking, hw] at hwalk
    obtain ⟨t, -, -, -, hs⟩ := hwalk
    obtain ⟨back, hback, hlen⟩ := hscan prev current hs
    exact ⟨back, hback, by omega⟩
  | free temp prev current =>
    simp only [Walking, hw] at hwalk
    obtain ⟨t, -, -, -, hs⟩ := hwalk
    obtain ⟨back, hback, hlen⟩ := hscan prev current hs
    exact ⟨back, hback, by omega⟩

end Threads

/-! ## What is left of `main` -/

namespace Process

variable {device : Bool} {p p' : Process} {a : Action} {k : Nat}

/-- `main` makes this step. -/
def Action.ofMain : Action → Bool
  | .loopTest | .accept _ | .examine | .create _ | .createFails _ | .walk | .leave => true
  | _ => false

/-- A connection is accepted, or a thread is created for one. -/
def Action.admits : Action → Bool
  | .accept _ | .create _ | .createFails _ => true
  | _ => false

/-- With `exit_requested` set, `main` returns within `k` steps. -/
def Remaining (p : Process) (k : Nat) : Prop :=
  match p.main with
  | .loop => 2 ≤ k
  | .accept => 4 ≤ k
  | .accepted _ => 3 ≤ k
  | .create _ => 4 * p.threads.count + 13 ≤ k
  | .walks => ∃ j, p.threads.Remaining j ∧ j + 2 ≤ k
  | .leaving => 1 ≤ k
  | .returned => True

/-- How many connections it still admits. -/
def admitting (p : Process) : Nat :=
  match p.main with
  | .accept | .create _ => 1
  | _ => 0

theorem Remaining.same (h : p.Remaining k) (hm : p'.main = p.main) (hc : p'.threads.count = p.threads.count)
    (hth : ∀ j, p.threads.Remaining j → p'.threads.Remaining j) : p'.Remaining k := by
  unfold Remaining at h ⊢
  rw [hm, hc]
  cases hmain : p.main with
  | walks =>
    rw [hmain] at h
    obtain ⟨j, hj, hle⟩ := h
    exact ⟨j, hth j hj, hle⟩
  | _ =>
    rw [hmain] at h
    exact h

/-- A step of `main` is one of those that were left, and no other step matters. -/
theorem Remaining.step (h : p.Remaining k) (hs : p.Sound) (hx : p.exitRequested = true)
    (hst : Step device a p p') : ∃ k', p'.Remaining k' ∧ (if a.ofMain then 1 else 0) + k' ≤ k := by
  have hstay : a.ofMain = false → p'.Remaining k → ∃ k', p'.Remaining k' ∧ (if a.ofMain then 1 else 0) + k' ≤ k := by
    intro ha hr
    refine ⟨k, hr, ?_⟩
    rw [ha, if_neg Bool.false_ne_true]
    exact Nat.le_of_eq (Nat.zero_add k)
  cases hst with
  | loopTest hm =>
    simp only [Remaining, hm] at h
    refine ⟨1, ?_, h⟩
    simp only [Remaining, hx, if_true]
    exact Nat.le_refl 1
  | accept r hm =>
    simp only [Remaining, hm] at h
    refine ⟨3, ?_, h⟩
    simp only [Remaining]
    exact Nat.le_refl 3
  | examine hm =>
    simp only [Remaining, hm] at h
    refine ⟨2, ?_, h⟩
    simp only [Remaining, examine, hx, if_true]
    exact Nat.le_refl 2
  | @create _ fd arg hm hn =>
    simp only [Remaining, hm] at h
    obtain ⟨l, extra, hinv⟩ := hs.inv
    have hidle : p.threads.walk = .idle := hs.idle_create hm
    refine ⟨4 * (p.threads.count + 1) + 8, ?_, ?_⟩
    · simp only [Remaining, Process.create]
      exact ⟨_, (hinv.create hidle hn).remaining_le, Nat.le_refl _⟩
    · simp only [Action.ofMain, if_true]
      omega
  | createFails arg hm hn =>
    simp only [Remaining, hm] at h
    refine ⟨2, ?_, ?_⟩
    · simp only [Remaining]
      exact Nat.le_refl 2
    · simp only [Action.ofMain, if_true]
      omega
  | @walk _ m hm hne hwait he =>
    simp only [Remaining, hm] at h
    obtain ⟨j, hj, hle⟩ := h
    obtain ⟨l, extra, hinv⟩ := hs.inv
    obtain ⟨j', hj', hlt⟩ := hinv.remaining hj hne he
    refine ⟨j' + 2, ?_, ?_⟩
    · by_cases hidle : m.walk = .idle
      · simp only [Remaining, if_pos hidle]
        exact Nat.le_add_left 2 j'
      · simp only [Remaining, if_neg hidle]
        exact ⟨j', hj', Nat.le_refl _⟩
    · simp only [Action.ofMain, if_true]
      omega
  | leave hm =>
    simp only [Remaining, hm] at h
    refine ⟨0, ?_, h⟩
    simp only [Remaining]
  | @send _ t buffer hat =>
    refine hstay rfl ?_
    unfold Process.send
    split <;> exact h.same rfl rfl fun _ hj => hj
  | setDone hr hfin he =>
    refine hstay rfl (h.same rfl ?_ fun _ hj => hj.setDone he)
    obtain ⟨n, rfl⟩ := Threads.setDone_ok he
    rfl
  | returns hd => exact hstay rfl (h.same rfl rfl fun _ hj => hj.keep (fun _ _ hn => congrArg _ hn) rfl)
  | _ => exact hstay rfl (h.same rfl rfl fun _ hj => hj)

theorem remaining_le (hs : p.Sound) : p.Remaining (4 * p.threads.count + 13) := by
  obtain ⟨l, extra, hinv⟩ := hs.inv
  unfold Remaining
  cases p.main with
  | walks => exact ⟨_, hinv.remaining_le, by omega⟩
  | returned => trivial
  | _ =>
    simp only
    omega

/-- `exit_requested` is never reset. -/
theorem admitting_step (hx : p.exitRequested = true) (hst : Step device a p p') :
    (if a.admits then 1 else 0) + p'.admitting ≤ p.admitting := by
  cases hst with
  | loopTest hm => simp only [admitting, hm, hx, Action.admits, if_true]; exact Nat.le_refl 0
  | accept r hm => simp only [admitting, hm, Action.admits, if_true]; exact Nat.le_refl 1
  | examine hm => simp only [admitting, hm, examine, hx, Action.admits, if_true]; exact Nat.le_refl 0
  | create arg hm hn => simp only [admitting, hm, Process.create, Action.admits, if_true]; exact Nat.le_refl 1
  | createFails arg hm hn => simp only [admitting, hm, Action.admits, if_true]; exact Nat.le_refl 1
  | @walk _ m hm hne hwait he =>
    by_cases hidle : m.walk = .idle
    · simp only [admitting, hm, Action.admits, if_pos hidle]
      exact Nat.le_refl 0
    · simp only [admitting, hm, Action.admits, if_neg hidle]
      exact Nat.le_refl 0
  | leave hm => simp only [admitting, hm, Action.admits]; exact Nat.le_refl 0
  | @send _ t buffer hat =>
    have hsame : (p.send t).admitting = p.admitting := by
      unfold Process.send
      split <;> rfl
    rw [hsame]
    exact Nat.le_of_eq (Nat.zero_add _)
  | _ => exact Nat.le_of_eq (Nat.zero_add _)

end Process

open Process

/-! ## Every run -/

section Results

variable {device : Bool} {states : List Process} {p p' : Process}

/-- Once `exit_requested` is set, however the steps of the threads, the timer and
the clients come in between, `main` makes at most `4 * count + 13` more steps,
where `count` is the number of threads created so far, and it accepts a
connection or creates a thread at most once more. -/
theorem leaving_bounded (hrun : Run (AnyStep device) Process.start states p) (hx : p.exitRequested = true)
    {acts : List Action} (htrace : Trace (LiveStep device) p acts p') :
    acts.countP Action.ofMain ≤ 4 * p.threads.count + 13 ∧ acts.countP Action.admits ≤ 1 := by
  have hsound := sound_of_run hrun
  constructor
  · have hpaid := htrace.cost_le (fun a => if a.ofMain then 1 else 0)
      (fun m k => m.Sound ∧ m.exitRequested = true ∧ m.Remaining k) ?_ ⟨hsound, hx, remaining_le hsound⟩
    · obtain ⟨k, -, hle⟩ := hpaid
      rw [sum_map_count] at hle
      omega
    · rintro a m m' k ⟨hm, hx, hk⟩ ⟨-, hst⟩
      obtain ⟨k', hk', hle⟩ := hk.step hm hx hst
      exact ⟨k', ⟨hm.step hst, hst.exit hx, hk'⟩, hle⟩
  · have hpaid := htrace.cost_le (fun a => if a.admits then 1 else 0)
      (fun m k => m.exitRequested = true ∧ m.admitting = k) ?_ ⟨hx, rfl⟩
    · obtain ⟨k, -, hle⟩ := hpaid
      rw [sum_map_count] at hle
      have hone : p.admitting ≤ 1 := by
        unfold admitting
        split <;> omega
      omega
    · rintro a m m' k ⟨hx, rfl⟩ ⟨-, hst⟩
      exact ⟨m'.admitting, ⟨hst.exit hx, rfl⟩, admitting_step hx hst⟩

/-- A signal comes while `main` waits in `accept`; one more connection is accepted. -/
theorem leaving_bounded_accept : ∃ states p acts p', Run (AnyStep true) Process.start states p ∧
    p.exitRequested = true ∧ Trace (LiveStep true) p acts p' ∧ p'.main = .returned ∧
      acts.countP Action.ofMain = 4 ∧ acts.countP Action.admits = 1 := by
  have h0 : Run (AnyStep true) Process.start [] _ := .nil
  have h1 := h0.snoc ⟨⟨nofun, rfl⟩, _, .loopTest rfl⟩
  have h2 := h1.snoc ⟨⟨nofun, rfl⟩, _, .signal⟩
  have hnil : ∀ {l p}, Run (AnyStep true) Process.start l p → Trace (LiveStep true) p [] p := fun _ => .nil
  have g0 := hnil h2
  have g1 := g0.snoc ⟨⟨nofun, rfl⟩, .accept (some 4) rfl (fun _ _ => rfl)⟩
  have g2 := g1.snoc ⟨⟨nofun, rfl⟩, .examine rfl⟩
  have g3 := g2.snoc ⟨⟨nofun, rfl⟩, .loopTest rfl⟩
  have g4 := g3.snoc ⟨⟨nofun, rfl⟩, .leave rfl⟩
  have hbound := leaving_bounded h2 rfl g4
  exact ⟨_, _, _, _, h2, rfl, g4, rfl, rfl, Nat.le_antisymm hbound.2 (Nat.le_refl 1)⟩

end Results

end Aesd
