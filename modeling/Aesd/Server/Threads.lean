import Aesd.SysLib.Chain
import Aesd.SysLib.Runs
import Mathlib.Data.List.Nodup
/-!
# The list of threads

`acceptClientConnection` keeps a node for each thread it has created, on a list
behind `dummyNode`. After creating a thread it walks to the end of the list to
append its node, then walks it again to unlink, join and free the nodes of the
threads that are done. Here each step of these walks is a step of its own, and
the threads set their `isDone` flags between any two of them.

A `ThreadArg *` is the address of a node. `malloc` may give out any address that
is not in use, also that of a node that has been freed.
-/

namespace Aesd

open SysLib

/-! ## The nodes -/

/-- `struct ThreadArg`, without what only its thread reads; `thread` is not set
before `pthread_create` has returned. Threads are numbered as they are created. -/
structure ThreadArg where
  thread : Option Nat
  isDone : Bool
  next : Option Nat
  deriving DecidableEq

/-- `&dummyNode` -/
def dummyNode : Nat := 0

/-- Where `acceptClientConnection` is in its two walks. -/
inductive Walk where
  /-- Between two calls. -/
  | idle
  /-- `while (var->next != NULL)` -/
  | append (var arg : Nat)
  /-- `prev = &dummyNode; current = dummyNode.next` comes next. -/
  | reap
  /-- `while (current != NULL)` -/
  | scan (prev : Nat) (current : Option Nat)
  /-- `pthread_join(temp->thread)` -/
  | join (temp prev : Nat) (current : Option Nat)
  /-- `free(temp)` -/
  | free (temp prev : Nat) (current : Option Nat)
  deriving DecidableEq

/-- A thread that runs `processClientConnection(arg)`. -/
inductive Worker where
  | running (arg : Nat)
  /-- It has set its flag. -/
  | done
  | returned
  deriving DecidableEq

/-- An access to a node that is not live. -/
inductive BadNode where
  | freed (a : Nat)
  | unset (a : Nat)
  deriving DecidableEq

/-- The nodes and the threads. As history: which threads have been joined, in
order, and which ones the last traversal found done and not done. -/
structure Threads where
  nodes : Nat → Option ThreadArg
  walk : Walk
  count : Nat
  worker : Nat → Option Worker
  joined : List Nat
  found : List Nat
  passed : List Nat

namespace Threads

/-- No thread has been created. -/
def start : Threads where
  nodes := Function.update (fun _ => none) dummyNode (some ⟨none, false, none⟩)
  walk := .idle
  count := 0
  worker := fun _ => none
  joined := []
  found := []
  passed := []

/-! ## The steps -/

def load (m : Threads) (a : Nat) : Except BadNode ThreadArg :=
  match m.nodes a with
  | some n => .ok n
  | none => .error (.freed a)

def store (m : Threads) (a : Nat) (n : ThreadArg) : Threads := { m with nodes := Function.update m.nodes a (some n) }

/-- `malloc` has given out `a`, and `pthread_create` has succeeded. -/
def create (m : Threads) (a : Nat) : Threads :=
  { m with
    nodes := Function.update m.nodes a (some ⟨some m.count, false, none⟩),
    walk := .append dummyNode a, count := m.count + 1,
    worker := Function.update m.worker m.count (some (.running a)) }

/-- `malloc` has given out `a`, but `pthread_create` has failed. -/
def createFails (m : Threads) (a : Nat) : Threads := m.store a ⟨none, false, none⟩

theorem create_nodes (m : Threads) (a : Nat) :
    (m.create a).nodes = Function.update m.nodes a (some ⟨some m.count, false, none⟩) := rfl

theorem createFails_nodes (m : Threads) (a : Nat) :
    (m.createFails a).nodes = Function.update m.nodes a (some ⟨none, false, none⟩) := rfl

/-- The next step of the walks. -/
def advance (m : Threads) : Except BadNode Threads :=
  match m.walk with
  | .idle => .ok m
  | .append var arg => do
    let v ← m.load var
    match v.next with
    | some b => .ok { m with walk := .append b arg }
    | none => .ok { m.store var { v with next := some arg } with walk := .reap }
  | .reap => do
    let d ← m.load dummyNode
    .ok { m with walk := .scan dummyNode d.next, found := [], passed := [] }
  | .scan _ none => .ok { m with walk := .idle }
  | .scan prev (some current) => do
    let n ← m.load current
    match n.thread with
    | none => .error (.unset current)
    | some t =>
      if n.isDone then do
        let p ← m.load prev
        .ok { m.store prev { p with next := n.next } with walk := .join current prev n.next, found := m.found ++ [t] }
      else .ok { m with walk := .scan current n.next, passed := m.passed ++ [t] }
  | .join temp prev current => do
    let n ← m.load temp
    match n.thread with
    | none => .error (.unset temp)
    | some t => .ok { m with walk := .free temp prev current, joined := m.joined ++ [t] }
  | .free temp prev current => do
    let _ ← m.load temp
    .ok { m with nodes := Function.update m.nodes temp none, walk := .scan prev current }

/-- `pthread_join` waits for a thread that has not returned. -/
def Waits (m : Threads) : Prop :=
  ∃ temp prev current n t, m.walk = .join temp prev current ∧ m.nodes temp = some n ∧ n.thread = some t ∧
    m.worker t ≠ some .returned

/-- Thread `t` has set the flag of its node, which was `n`. -/
def flag (m : Threads) (t arg : Nat) (n : ThreadArg) : Threads :=
  { m with
    nodes := Function.update m.nodes arg (some { n with isDone := true }),
    worker := Function.update m.worker t (some .done) }

/-- `threadArg->isDone = true` in thread `t`. -/
def setDone (m : Threads) (t arg : Nat) : Except BadNode Threads := do
  let n ← m.load arg
  .ok (m.flag t arg n)

/-- Thread `t` has returned. -/
def leave (m : Threads) (t : Nat) : Threads := { m with worker := Function.update m.worker t (some .returned) }

theorem flag_nodes (m : Threads) (t arg : Nat) (n : ThreadArg) :
    (m.flag t arg n).nodes = Function.update m.nodes arg (some { n with isDone := true }) := rfl

/-- A step of `acceptClientConnection` or of a thread. -/
inductive Step : Threads → Threads → Prop
  | create {m : Threads} (a : Nat) : m.walk = .idle → m.nodes a = none → Step m (m.create a)
  | createFails {m : Threads} (a : Nat) : m.walk = .idle → m.nodes a = none → Step m (m.createFails a)
  | advance {m m' : Threads} : m.walk ≠ .idle → ¬ m.Waits → m.advance = .ok m' → Step m m'
  | setDone {m m' : Threads} {t arg : Nat} : m.worker t = some (.running arg) → m.setDone t arg = .ok m' → Step m m'
  | returns {m : Threads} {t : Nat} : m.worker t = some .done → Step m (m.leave t)

/-! ## The invariant -/

/-- The nodes of threads are these, with the threads' numbers, and every thread
has one or has been joined. -/
structure Known (m : Threads) (all : List (Nat × Nat)) : Prop where
  dummy : ∃ d, m.nodes dummyNode = some d ∧ d.thread = none
  nodes : ∀ a t, (a, t) ∈ all ↔ ∃ n, m.nodes a = some n ∧ n.thread = some t
  addrs : (all.map Prod.fst).Nodup
  threads : (all.map Prod.snd).Nodup
  known : ∀ t < m.count, t ∈ all.map Prod.snd ∨ t ∈ m.joined
  bound : ∀ t, t ∈ all.map Prod.snd ∨ t ∈ m.joined → t < m.count
  once : m.joined.Nodup
  ended : ∀ t ∈ m.joined, m.worker t = some .returned
  born : ∀ t, t < m.count ↔ m.worker t ≠ none
  running : ∀ t a, m.worker t = some (.running a) → (a, t) ∈ all
  flagged : ∀ a n t, m.nodes a = some n → n.thread = some t → n.isDone = true →
    m.worker t = some .done ∨ m.worker t = some .returned

/-- The traversal has passed the first nodes of the list, and is at `prev` with `current` to come. -/
def Scanning (m : Threads) (l : List (Nat × Nat)) (prev : Nat) (current : Option Nat) : Prop :=
  ∃ front back pre, l = front ++ back ∧ dummyNode :: front.map Prod.fst = pre ++ [prev] ∧
    Seg ThreadArg.next m.nodes (some dummyNode) (dummyNode :: front.map Prod.fst) current ∧
    Seg ThreadArg.next m.nodes current (back.map Prod.fst) none ∧ m.passed = front.map Prod.snd

/-- The nodes behind `dummyNode` are those of `l`, and `extra` is the one that is
being appended or removed. -/
def Walking (m : Threads) (l extra : List (Nat × Nat)) : Prop :=
  let chain := dummyNode :: l.map Prod.fst
  match m.walk with
  | .idle => extra = [] ∧ Seg ThreadArg.next m.nodes (some dummyNode) chain none ∧ m.found ⊆ m.joined ∧
      m.passed = l.map Prod.snd
  | .append var arg => ∃ t pre post, extra = [(arg, t)] ∧ t ∉ m.joined ∧ (∀ x ∈ l, x.2 < t) ∧
      chain = pre ++ var :: post ∧ Seg ThreadArg.next m.nodes (some dummyNode) chain none ∧
      Seg ThreadArg.next m.nodes (some arg) [arg] none
  | .reap => extra = [] ∧ Seg ThreadArg.next m.nodes (some dummyNode) chain none
  | .scan prev current => extra = [] ∧ m.found ⊆ m.joined ∧ m.Scanning l prev current
  | .join temp prev current => ∃ t, extra = [(temp, t)] ∧ t ∉ m.joined ∧ m.found ⊆ m.joined ++ [t] ∧
      m.Scanning l prev current
  | .free temp prev current => ∃ t, extra = [(temp, t)] ∧ t ∈ m.joined ∧ m.found ⊆ m.joined ∧
      m.Scanning l prev current

/-- The invariant. -/
structure Inv (m : Threads) (l extra : List (Nat × Nat)) : Prop extends Known m (l ++ extra) where
  order : (l.map Prod.snd).Pairwise (· < ·)
  listed : ∀ t ∈ l.map Prod.snd, t ∉ m.joined
  walking : m.Walking l extra

section Known

variable {m m' : Threads} {all all' : List (Nat × Nat)} {a t : Nat}

theorem Known.perm (h : m.Known all) (hp : all.Perm all') : m.Known all' where
  dummy := h.dummy
  nodes a t := by rw [← hp.mem_iff]; exact h.nodes a t
  addrs := (hp.map _).nodup_iff.1 h.addrs
  threads := (hp.map _).nodup_iff.1 h.threads
  known t ht := by rw [← (hp.map Prod.snd).mem_iff]; exact h.known t ht
  bound t ht := by rw [← (hp.map Prod.snd).mem_iff] at ht; exact h.bound t ht
  once := h.once
  ended := h.ended
  born := h.born
  running t a hr := hp.mem_iff.1 (h.running t a hr)
  flagged := h.flagged

/-- What a node says of its thread. -/
def label (n : ThreadArg) : Option Nat × Bool := (n.thread, n.isDone)

/-- Steps that change no more than where nodes lead. -/
theorem Known.relink (h : m.Known all) (hn : ∀ a, (m'.nodes a).map label = (m.nodes a).map label)
    (hc : m'.count = m.count) (hw : m'.worker = m.worker) (hj : m'.joined = m.joined) : m'.Known all := by
  have hto : ∀ {a n}, m.nodes a = some n → ∃ n', m'.nodes a = some n' ∧ label n' = label n := by
    intro a n he
    have := hn a
    rw [he, Option.map_some, Option.map_eq_some_iff] at this
    exact this
  have hfrom : ∀ {a n'}, m'.nodes a = some n' → ∃ n, m.nodes a = some n ∧ label n = label n' := by
    intro a n' he
    have := (hn a).symm
    rw [he, Option.map_some, Option.map_eq_some_iff] at this
    exact this
  refine ⟨?_, fun a t => ?_, h.addrs, h.threads, ?_, ?_, ?_, ?_, ?_, ?_, ?_⟩
  · obtain ⟨d, hd, hnone⟩ := h.dummy
    obtain ⟨d', hd', he⟩ := hto hd
    exact ⟨d', hd', (congrArg Prod.fst he).trans hnone⟩
  · rw [h.nodes]
    constructor
    · rintro ⟨n, hn, ht⟩
      obtain ⟨n', hn', he⟩ := hto hn
      exact ⟨n', hn', (congrArg Prod.fst he).trans ht⟩
    · rintro ⟨n', hn', ht⟩
      obtain ⟨n, hn, he⟩ := hfrom hn'
      exact ⟨n, hn, (congrArg Prod.fst he).trans ht⟩
  · rw [hc, hj]; exact h.known
  · rw [hc, hj]; exact h.bound
  · rw [hj]; exact h.once
  · rw [hj, hw]; exact h.ended
  · rw [hc, hw]; exact h.born
  · rw [hw]; exact h.running
  · intro a n' t hn' ht hd
    obtain ⟨n, hn, he⟩ := hfrom hn'
    rw [hw]
    exact h.flagged a n t hn ((congrArg Prod.fst he).trans ht) ((congrArg Prod.snd he).trans hd)

/-- A thread's node is not `dummyNode`. -/
theorem Known.ne_dummy (h : m.Known all) (hm : (a, t) ∈ all) : a ≠ dummyNode := by
  rintro rfl
  obtain ⟨n, hn, ht⟩ := (h.nodes _ _).1 hm
  obtain ⟨d, hd, hnone⟩ := h.dummy
  obtain rfl := Option.some.inj (hn.symm.trans hd)
  rw [hnone] at ht
  cases ht

/-- The walks from `dummyNode` pass no node twice. -/
theorem Known.chain_nodup (h : m.Known all) {l : List (Nat × Nat)} (hl : l.Sublist all) :
    (dummyNode :: l.map Prod.fst).Nodup := by
  rw [List.nodup_cons]
  refine ⟨fun hm => ?_, h.addrs.sublist (hl.map _)⟩
  obtain ⟨⟨a, t⟩, hx, he⟩ := List.mem_map.1 hm
  exact h.ne_dummy (hl.mem hx) he

/-- The nodes of threads, once there is one for the next thread. -/
theorem Known.create_labels (h : m.Known all) (ha : m.nodes a = none) (b t : Nat) :
    (b, t) ∈ all ++ [(a, m.count)] ↔ ∃ n, (m.create a).nodes b = some n ∧ n.thread = some t := by
  rw [List.mem_append, List.mem_singleton, h.nodes, create_nodes]
  by_cases hb : b = a
  · subst hb
    rw [Function.update_self, ha]
    constructor
    · rintro (⟨n, hn, -⟩ | he)
      · cases hn
      · exact ⟨_, rfl, congrArg some (Prod.mk.inj he).2.symm⟩
    · rintro ⟨n, hn, ht⟩
      obtain rfl := Option.some.inj hn
      exact .inr (Prod.ext rfl (Option.some.inj ht).symm)
  · rw [Function.update_of_ne hb]
    exact or_iff_left fun he => hb (Prod.mk.inj he).1

theorem Known.create (h : m.Known all) (ha : m.nodes a = none) : (m.create a).Known (all ++ [(a, m.count)]) := by
  have hfresh : ∀ t, (a, t) ∉ all := by
    intro t hm
    obtain ⟨n, hn, -⟩ := (h.nodes _ _).1 hm
    rw [ha] at hn
    cases hn
  have hself : (m.create a).worker m.count = some (.running a) := Function.update_self ..
  have hold : ∀ {t}, t ≠ m.count → (m.create a).worker t = m.worker t := fun ht => Function.update_of_ne ht _ _
  have hlt : ∀ {t}, t ∈ all.map Prod.snd ∨ t ∈ m.joined → t ≠ m.count := fun ht => Nat.ne_of_lt (h.bound _ ht)
  refine ⟨?_, h.create_labels ha, ?_, ?_, fun t ht => ?_, fun t ht => ?_, h.once, fun t ht => ?_, fun t => ?_,
    fun t b hr => ?_, fun b n t hn ht hd => ?_⟩
  · obtain ⟨d, hd, hnone⟩ := h.dummy
    have hne : dummyNode ≠ a := fun he => by rw [he, ha] at hd; cases hd
    exact ⟨d, (Function.update_of_ne hne _ _).trans hd, hnone⟩
  · rw [List.map_append, List.map_singleton, List.nodup_append]
    refine ⟨h.addrs, List.nodup_singleton a, fun b hb c hc hbc => ?_⟩
    obtain ⟨⟨b', t⟩, hx, rfl⟩ := List.mem_map.1 hb
    obtain rfl : b' = a := hbc.trans (List.mem_singleton.1 hc)
    exact hfresh t hx
  · rw [List.map_append, List.map_singleton, List.nodup_append]
    refine ⟨h.threads, List.nodup_singleton m.count, fun t ht u hu htu => ?_⟩
    exact hlt (.inl ht) (htu.trans (List.mem_singleton.1 hu))
  · rw [List.map_append, List.mem_append, List.map_singleton, List.mem_singleton]
    rcases Nat.lt_succ_iff_lt_or_eq.1 ht with hlt | rfl
    · exact (h.known t hlt).imp_left .inl
    · exact .inl (.inr rfl)
  · rw [List.map_append, List.mem_append, List.map_singleton, List.mem_singleton] at ht
    show t < m.count + 1
    rcases ht with (ht | rfl) | ht
    · exact Nat.lt_succ_of_lt (h.bound t (.inl ht))
    · exact Nat.lt_succ_self _
    · exact Nat.lt_succ_of_lt (h.bound t (.inr ht))
  · rw [hold (hlt (.inr ht))]
    exact h.ended t ht
  · show t < m.count + 1 ↔ _
    by_cases ht : t = m.count
    · subst ht
      exact iff_of_true (Nat.lt_succ_self _) (by rw [hself]; exact Option.some_ne_none _)
    · rw [hold ht, ← h.born]
      omega
  · rw [List.mem_append, List.mem_singleton]
    by_cases ht : t = m.count
    · subst ht
      rw [hself, Option.some.injEq, Worker.running.injEq] at hr
      exact .inr (by rw [hr])
    · rw [hold ht] at hr
      exact .inl (h.running t b hr)
  · rw [create_nodes] at hn
    by_cases hb : b = a
    · rw [hb, Function.update_self, Option.some.injEq] at hn
      subst hn
      cases hd
    · rw [Function.update_of_ne hb] at hn
      have hmem : (b, t) ∈ all := (h.nodes b t).2 ⟨n, hn, ht⟩
      rw [hold (hlt (.inl (List.mem_map.2 ⟨_, hmem, rfl⟩)))]
      exact h.flagged b n t hn ht hd

theorem Known.createFails (h : m.Known all) (ha : m.nodes a = none) : (m.createFails a).Known all := by
  have hother : ∀ {b n t}, (m.createFails a).nodes b = some n → n.thread = some t → m.nodes b = some n := by
    intro b n t hn ht
    by_cases hb : b = a
    · rw [hb, createFails_nodes, Function.update_self, Option.some.injEq] at hn
      subst hn
      cases ht
    · exact (Function.update_of_ne hb _ _).symm.trans hn
  have hkeep : ∀ {b n}, m.nodes b = some n → (m.createFails a).nodes b = some n := by
    intro b n hn
    have hne : b ≠ a := fun he => by rw [he, ha] at hn; cases hn
    exact (Function.update_of_ne hne _ _).trans hn
  refine { h with
    dummy := ?_
    nodes := fun b t => ?_
    flagged := fun b n t hn ht => h.flagged b n t (hother hn ht) ht }
  · obtain ⟨d, hd, hnone⟩ := h.dummy
    exact ⟨d, hkeep hd, hnone⟩
  · rw [h.nodes]
    constructor
    · rintro ⟨n, hn, ht⟩
      exact ⟨n, hkeep hn, ht⟩
    · rintro ⟨n, hn, ht⟩
      exact ⟨n, hother hn ht, ht⟩

theorem Known.ends (h : m.Known all) {w : Worker} (hw : w = .done ∨ w = .returned) (hborn : m.worker t ≠ none)
    (hret : m.worker t = some .returned → w = .returned) (hn : m'.nodes = m.nodes) (hc : m'.count = m.count)
    (hj : m'.joined = m.joined) (hself : m'.worker t = some w) (hother : ∀ u, u ≠ t → m'.worker u = m.worker u) :
    m'.Known all := by
  refine ⟨?_, ?_, h.addrs, h.threads, ?_, ?_, ?_, fun u hu => ?_, fun u => ?_, fun u b hu => ?_,
    fun b n u hb hu hf => ?_⟩
  · rw [hn]; exact h.dummy
  · rw [hn]; exact h.nodes
  · rw [hc, hj]; exact h.known
  · rw [hc, hj]; exact h.bound
  · rw [hj]; exact h.once
  · rw [hj] at hu
    by_cases he : u = t
    · subst he
      rw [hself, hret (h.ended u hu)]
    · rw [hother u he]
      exact h.ended u hu
  · rw [hc, h.born]
    by_cases he : u = t
    · subst he
      exact iff_of_true hborn (by rw [hself]; exact Option.some_ne_none _)
    · rw [hother u he]
  · by_cases he : u = t
    · subst he
      rw [hself, Option.some.injEq] at hu
      rcases hw with rfl | rfl <;> cases hu
    · rw [hother u he] at hu
      exact h.running u b hu
  · rw [hn] at hb
    by_cases he : u = t
    · subst he
      rw [hself]
      exact hw.imp (congrArg some) (congrArg some)
    · rw [hother u he]
      exact h.flagged b n u hb hu hf

/-- The flag of the node of a thread that is done is set. -/
theorem Known.flags (h : m.Known all) {n : ThreadArg} (hn : m.nodes a = some n) (ht : n.thread = some t)
    (hd : m.worker t = some .done) (hw : m'.worker = m.worker) (hc : m'.count = m.count) (hj : m'.joined = m.joined)
    (hself : m'.nodes a = some { n with isDone := true }) (hother : ∀ b, b ≠ a → m'.nodes b = m.nodes b) :
    m'.Known all := by
  refine ⟨?_, fun b u => (h.nodes b u).trans ?_, h.addrs, h.threads, ?_, ?_, ?_, ?_, ?_, ?_, fun b n' u hb hu hf => ?_⟩
  · obtain ⟨d, hd', hnone⟩ := h.dummy
    have hne : dummyNode ≠ a := (h.ne_dummy ((h.nodes a t).2 ⟨n, hn, ht⟩)).symm
    exact ⟨d, (hother _ hne).trans hd', hnone⟩
  · by_cases hb : b = a
    · rw [hb, hself, hn]
      simp
    · rw [hother b hb]
  · rw [hc, hj]; exact h.known
  · rw [hc, hj]; exact h.bound
  · rw [hj]; exact h.once
  · rw [hj, hw]; exact h.ended
  · rw [hc, hw]; exact h.born
  · rw [hw]; exact h.running
  · rw [hw]
    by_cases hba : b = a
    · -- the node is that of thread `t`
      rw [hba, hself, Option.some.injEq] at hb
      subst hb
      obtain rfl := Option.some.inj (hu.symm.trans ht)
      exact .inl hd
    · rw [hother b hba] at hb
      exact h.flagged b n' u hb hu hf

theorem Known.setDone (h : m.Known all) (hr : m.worker t = some (.running a)) :
    ∃ n, m.nodes a = some n ∧ n.thread = some t ∧
      m.setDone t a = .ok (m.flag t a n) ∧ (m.flag t a n).Known all := by
  obtain ⟨n, hn, ht⟩ := (h.nodes a t).1 (h.running t a hr)
  refine ⟨n, hn, ht, ?_, ?_⟩
  · simp only [Threads.setDone, load, hn]
    rfl
  have hself : Function.update m.worker t (some Worker.done) t = some .done := Function.update_self ..
  have hends : Known { m with worker := Function.update m.worker t (some .done) } all := by
    refine h.ends (.inl rfl) ?_ ?_ rfl rfl rfl hself fun u hu => Function.update_of_ne hu _ _
    · rw [hr]
      exact Option.some_ne_none _
    · rw [hr]
      exact fun he => by cases he
  exact hends.flags hn ht hself rfl rfl rfl (Function.update_self ..) fun b hb => Function.update_of_ne hb _ _

theorem Known.returns (h : m.Known all) (hd : m.worker t = some .done) : (m.leave t).Known all := by
  refine h.ends (.inr rfl) ?_ (fun _ => rfl) rfl rfl rfl (Function.update_self ..) fun u hu => Function.update_of_ne hu _ _
  rw [hd]
  exact Option.some_ne_none _

theorem Known.free (h : m.Known (all ++ [(a, t)])) (hj : t ∈ m.joined) (w : Walk) :
    Known { m with nodes := Function.update m.nodes a none, walk := w } all := by
  have hself : ({ m with nodes := Function.update m.nodes a none, walk := w } : Threads).nodes a = none :=
    Function.update_self ..
  have hother : ∀ {b}, b ≠ a → ({ m with nodes := Function.update m.nodes a none, walk := w } : Threads).nodes b = m.nodes b :=
    fun he => Function.update_of_ne he _ _
  have hmem : (a, t) ∈ all ++ [(a, t)] := List.mem_append_right _ (List.mem_singleton_self _)
  have hgone : ∀ u, (a, u) ∉ all := by
    intro u hm
    have := h.addrs
    rw [List.map_append, List.map_singleton, List.nodup_append] at this
    exact this.2.2 a (List.mem_map.2 ⟨_, hm, rfl⟩) a (List.mem_singleton_self _) rfl
  refine ⟨?_, fun b u => ?_, ?_, ?_, fun u hu => ?_, fun u hu => ?_, h.once, h.ended, h.born, fun u b hr => ?_,
    fun b n u hn hu hd => ?_⟩
  · obtain ⟨d, hd, hnone⟩ := h.dummy
    exact ⟨d, (hother (h.ne_dummy hmem).symm).trans hd, hnone⟩
  · by_cases hb : b = a
    · rw [hb, hself]
      exact iff_of_false (hgone u) (by rintro ⟨_, hn, -⟩; cases hn)
    · rw [hother hb, ← h.nodes, List.mem_append, List.mem_singleton]
      exact (or_iff_left fun he => hb (Prod.mk.inj he).1).symm
  · have := h.addrs
    rw [List.map_append] at this
    exact this.of_append_left
  · have := h.threads
    rw [List.map_append] at this
    exact this.of_append_left
  · have := h.known u hu
    rw [List.map_append, List.mem_append, List.map_singleton, List.mem_singleton] at this
    rcases this with (hm | rfl) | hj'
    · exact .inl hm
    · exact .inr hj
    · exact .inr hj'
  · exact h.bound u (hu.imp_left fun hm => by rw [List.map_append]; exact List.mem_append_left _ hm)
  · have := h.running u b hr
    rw [List.mem_append, List.mem_singleton] at this
    rcases this with hm | he
    · exact hm
    · -- a thread that has been joined has returned
      obtain ⟨rfl, rfl⟩ := Prod.mk.inj he
      rw [h.ended _ hj] at hr
      cases hr
  · by_cases hb : b = a
    · rw [hb, hself] at hn
      cases hn
    · rw [hother hb] at hn
      exact h.flagged b n u hn hu hd

theorem Known.join (h : m.Known all) (hm : (a, t) ∈ all) (hj : t ∉ m.joined) (hw : m.worker t = some .returned) (w : Walk) :
    Known { m with joined := m.joined ++ [t], walk := w } all := by
  refine { h with
    known := fun u hu => (h.known u hu).imp_right (List.mem_append_left _)
    bound := fun u hu => ?_
    once := List.nodup_append.2 ⟨h.once, List.nodup_singleton t, ?_⟩
    ended := fun u hu => ?_ }
  · rcases hu with hu | hu
    · exact h.bound u (.inl hu)
    · rcases List.mem_append.1 hu with hu | hu
      · exact h.bound u (.inr hu)
      · obtain rfl := List.mem_singleton.1 hu
        exact h.bound u (.inl (List.mem_map.2 ⟨_, hm, rfl⟩))
  · rintro u hu v hv rfl
    obtain rfl := List.mem_singleton.1 hv
    exact hj hu
  · rcases List.mem_append.1 hu with hu | hu
    · exact h.ended u hu
    · obtain rfl := List.mem_singleton.1 hu
      exact hw

end Known

end Threads

end Aesd
