import Aesd.Lifecycle
/-!
# What a reload leaves behind

Nothing that was done before an unload shows after it, with one exception. A
write that loses the pending bytes keeps their number, and the write after it
leaves as many bytes of its block as they were. These are whatever was in the
memory before. A cell of such a byte is `none`: it has no value of its own, and
two answers that agree may differ there. `reload_forgets` says when there is none.
-/

namespace Aesd

open SysLib

/-- Every byte of the device is one that has been written to it. -/
structure Device.Written (d : Device) : Prop where
  contents : none ∉ d.log.contents
  pending : none ∉ d.log.pending
  kept : d.lost = false

/-- The pending bytes get lost in a call. -/
def Device.Loses (k : Kernel) (i : Invocation) (d : Device) : Prop :=
  ∃ f src, i.accept k = .ok f ∧ i.call = .write (some src) ∧ d.lock = false ∧
    k.Refuses i.outcome.krealloc (d.log.pending.length + src.length) ∧ d.log.pending ≠ []

section Device

variable {k : Kernel} {i : Invocation} {d : Device}

theorem Device.Written.setLock (h : d.Written) (lock : Bool) : Device.Written { d with lock := lock } :=
  ⟨h.contents, h.pending, h.kept⟩

/-- What is written are bytes. -/
theorem Device.Written.write (h : d.Written) {o : Outcome} {src : List UInt8}
    (hno : k.Refuses o.krealloc (d.log.pending.length + src.length) → d.log.pending = []) :
    (d.write k o src).2.Written := by
  unfold Device.write
  split
  next hr =>
    have hnil := hno hr
    refine ⟨h.contents, ?_, ?_⟩
    · simp [hnil]
    · simp [hnil]
  next =>
    have hin : ∀ c, c ∈ (d.log.append maxWriteOperationsSupported isNewline (src.map some)).contents ∨
        c ∈ (d.log.append maxWriteOperationsSupported isNewline (src.map some)).pending → c ≠ none := by
      rintro c hc rfl
      rcases LineLog.mem_append _ _ hc with hc | hc | hc
      · exact h.contents hc
      · exact h.pending hc
      · simp at hc
    exact ⟨fun hc => hin _ (.inl hc) rfl, fun hc => hin _ (.inr hc) rfl, rfl⟩

/-- What is read has been written. -/
theorem Device.Written.read (h : d.Written) (o : Outcome) (count : Nat) (fPos : Int) :
    none ∉ (d.read o count fPos).data := by
  have hrest : none ∉ restAt d.log.entries (toSizeT fPos) := fun hc => h.contents (restAt_subset _ _ hc)
  unfold Device.read
  dsimp only
  split
  · exact List.not_mem_nil
  · split
    · exact fun hc => hrest (List.mem_of_mem_take hc)
    · exact fun hc => hrest (List.mem_of_mem_take hc)

/-- One call. -/
theorem Device.Written.exec (h : d.Written) (hno : ¬ d.Loses k i) :
    none ∉ (Device.exec k i d).1.data ∧ (Device.exec k i d).2.Written := by
  cases ha : i.accept k with
  | error e =>
    rw [Device.exec_refused ha]
    exact ⟨List.not_mem_nil, h⟩
  | ok f =>
    cases hi : i.interrupted with
    | true =>
      rw [Device.exec_interrupted ha hi]
      exact ⟨List.not_mem_nil, h⟩
    | false =>
      cases hl : d.lock with
      | true =>
        rw [Device.exec_blocked ha hi hl]
        exact ⟨List.not_mem_nil, h⟩
      | false =>
        rw [Device.exec_locked ha hi hl]
        cases hc : i.call with
        | read buf count => exact ⟨h.read _ _ _, h.setLock _⟩
        | llseek offset whence => exact ⟨List.not_mem_nil, h.setLock _⟩
        | ioctl cmd seekto => exact ⟨List.not_mem_nil, h.setLock _⟩
        | write buf =>
          refine ⟨List.not_mem_nil, Device.Written.setLock (h.write fun hr => ?_) _⟩
          cases buf with
          | none =>
            -- a write without a buffer is not admitted
            simp [Invocation.accept, hc] at ha
          | some src =>
            by_contra hne
            exact hno ⟨f, src, ha, hc, hl, hr, hne⟩

end Device

/-! ## The driver loses what the device loses -/

section Refinement

variable {k : Kernel} {s : Sys} {ring rest : List (Nat × List Cell)} {pend : List Cell} {i : Invocation}

/-- A write that gets the lock comes to `krealloc`. -/
theorem reaches_of_accept {f : File} {src : List UInt8} (ha : i.accept k = .ok f) (hc : i.call = .write (some src))
    (hl : s.dev.lock = false) : Reaches k i.outcome i.filp (some src) s src := by
  have hf := Invocation.accept_file ha
  simp only [Invocation.accept, hc, hf] at ha
  by_cases hr : k.Refuses i.outcome.kmalloc src.length
  · rw [if_pos hr] at ha
    cases ha
  rw [if_neg hr] at ha
  by_cases hu : min i.outcome.uncopied src.length = 0
  case neg =>
    rw [if_pos hu] at ha
    cases ha
  rw [if_neg (not_not.2 hu)] at ha
  by_cases hpd : f.privateData = true
  case neg =>
    rw [if_neg hpd] at ha
    cases ha
  exact ⟨⟨f, hf, hpd⟩, rfl, hr, hu, hl⟩

theorem Owns.losesPending (h : Owns k s ring pend rest) (hkept : (Aesd.device s).lost = false)
    (hlose : (Aesd.device s).Loses k i) : LosesPending k i s := by
  obtain ⟨f, src, ha, hc, hl, hr, hne⟩ := hlose
  rw [h.device] at hkept hl hne hr
  refine ⟨src, hc, reaches_of_accept ha hc hl, ?_, ?_⟩
  · rw [h.newEntry.size_eq]
    exact hr
  · -- there is a block, and it is the pending bytes'
    rcases h.newEntry with ⟨hn, -⟩ | ⟨hp, -⟩
    · have hpos : pend.length ≠ 0 := fun h0 => hne (List.length_eq_zero_iff.1 h0)
      simp [hn, hpos] at hkept
    · cases hb : s.dev.newEntry.buffptr with
      | block j => exact ⟨j, rfl⟩
      | null => rw [hb] at hp; cases hp
      | zeroSize =>
        rw [hb] at hp
        cases hp
        exact absurd rfl hne

end Refinement

/-! ## Any operation -/

theorem OpenFile.signal_data {f : OpenFile} : f.signal.1.data = [] := by
  unfold OpenFile.signal
  split <;> rfl

def Node.Written (n : Node) : Prop := ∀ d, n.device = some d → d.Written

/-- An operation that loses no pending bytes. -/
theorem Node.Written.exec {k : Kernel} {n : Node} (h : n.Written) (op : Op)
    (hno : ∀ fd c o f d, op = .call fd c o → n.files.lookup fd = some f → f.busy = false → n.device = some d →
      ¬ d.Loses k ⟨some f.file, c, o⟩) : none ∉ (n.exec k op).1.data ∧ (n.exec k op).2.Written := by
  cases op with
  | initModule r =>
    cases hd : n.device with
    | some d => simpa only [Node.exec, hd] using ⟨List.not_mem_nil, h⟩
    | none =>
      simp only [Node.exec, hd]
      split
      · exact ⟨List.not_mem_nil, h⟩
      · split
        · exact ⟨List.not_mem_nil, h⟩
        · refine ⟨List.not_mem_nil, fun d hd' => ?_⟩
          obtain rfl := Option.some.inj hd'
          exact ⟨List.not_mem_nil, List.not_mem_nil, rfl⟩
  | cleanupModule =>
    cases hd : n.device with
    | none => simpa only [Node.exec, hd] using ⟨List.not_mem_nil, h⟩
    | some d =>
      simp only [Node.exec, hd]
      split
      · exact ⟨List.not_mem_nil, h⟩
      · exact ⟨List.not_mem_nil, fun d' hd' => by cases hd'⟩
  | openFile fd =>
    cases hd : n.device with
    | none => simpa only [Node.exec, hd] using ⟨List.not_mem_nil, h⟩
    | some d =>
      cases hf : n.files.lookup fd with
      | some f => simpa only [Node.exec, hd, hf] using ⟨List.not_mem_nil, h⟩
      | none =>
        simp only [Node.exec, hd, hf]
        exact ⟨List.not_mem_nil, fun d' hd' => h d' (hd.trans hd')⟩
  | call fd c o =>
    cases hd : n.device with
    | none => simpa only [Node.exec, hd] using ⟨List.not_mem_nil, h⟩
    | some d =>
      cases hf : n.files.lookup fd with
      | none => simpa only [Node.exec, hd, hf] using ⟨List.not_mem_nil, h⟩
      | some f =>
        cases hb : f.busy with
        | true => simpa only [Node.exec, hd, hf, hb, if_true] using ⟨List.not_mem_nil, h⟩
        | false =>
          obtain ⟨hdata, hwritten⟩ := (h d hd).exec (hno fd c o f d rfl hf hb hd)
          simp only [Node.exec, hd, hf, hb, Bool.false_eq_true, if_false]
          refine ⟨hdata, fun d' hd' => ?_⟩
          obtain rfl := Option.some.inj hd'
          exact hwritten
  | signal fd =>
    cases hf : n.files.lookup fd with
    | none => simpa only [Node.exec, hf] using ⟨List.not_mem_nil, h⟩
    | some f => simpa only [Node.exec, hf, OpenFile.signal_data] using ⟨List.not_mem_nil, h⟩
  | release fd =>
    cases hf : n.files.lookup fd with
    | none => simpa only [Node.exec, hf] using ⟨List.not_mem_nil, h⟩
    | some f =>
      cases hb : f.busy with
      | true => simpa only [Node.exec, hf, hb, if_true] using ⟨List.not_mem_nil, h⟩
      | false => simpa only [Node.exec, hf, hb, Bool.false_eq_true, if_false] using ⟨List.not_mem_nil, h⟩

/-- A write that loses the pending bytes. -/
def OpEvent.LosesPending (k : Kernel) (e : OpEvent) : Prop :=
  ∃ fd c o f, e.input = .call fd c o ∧ e.before.files.lookup fd = some f ∧ f.busy = false ∧
    Aesd.LosesPending k ⟨some f.file, c, o⟩ e.before.sys

namespace Host

variable {k : Kernel} {h h' : Host} {rest : List (Nat × List Cell)}

/-- From an unloaded module on, what is delivered has been written since, unless
pending bytes get lost. -/
theorem Sound.written (hs : h.Sound k rest) (hl : h.loaded = false) (ops : List Op) {l : List OpEvent} {g : Host}
    (hrun : runOps k ops h = .ok (l, g)) (hno : ∀ e ∈ l, ¬ e.LosesPending k) : ∀ e ∈ l, none ∉ e.output.1.data := by
  have hall : ∃ l g, runAll (Host.exec k) Prod.snd ops h = .ok (l, g) ∧ ∃ rest, g.Sound k rest ∧
      ((∀ e ∈ l, ¬ OpEvent.LosesPending k e) → g.node.Written ∧ ∀ e ∈ l, none ∉ e.output.1.data) := by
    refine runAll_induct (fun l g => ∃ rest, g.Sound k rest ∧
      ((∀ e ∈ l, ¬ OpEvent.LosesPending k e) → g.node.Written ∧ ∀ e ∈ l, none ∉ e.output.1.data)) ?_ ops
      ⟨rest, hs, fun _ => ⟨?_, List.forall_mem_nil _⟩⟩
    · rintro l m op ⟨rest₁, hs₁, hw₁⟩
      obtain ⟨reply, m', rest₂, he, hs₂, hn₂, -⟩ := hs₁.exec op
      refine ⟨(reply, m'), he, rest₂, hs₂, fun hno => ?_⟩
      rw [List.forall_mem_append, List.forall_mem_singleton] at hno
      obtain ⟨hw, hdata⟩ := hw₁ hno.1
      have hexec := hw.exec (k := k) op fun fd c o f d hop hf hb hd hlose => ?_
      · rw [hn₂] at hexec
        refine ⟨hexec.2, ?_⟩
        rw [List.forall_mem_append, List.forall_mem_singleton]
        exact ⟨hdata, hexec.1⟩
      · -- the driver would lose them, too
        have hl₁ : m.loaded = true := (hs₁.opened _ (Files.mem_of_lookup hf)).1
        rw [node_loaded hl₁] at hd hf
        obtain rfl := Option.some.inj hd
        obtain ⟨ring, pend, hh⟩ := hs₁.device hl₁
        have hkept := (hw _ (by rw [node_loaded hl₁])).kept
        exact hno.2 ⟨fd, c, o, f, hop, hf, hb, hh.losesPending hkept hlose⟩
    · intro d hd
      rw [node_unloaded hl] at hd
      cases hd
  obtain ⟨l', g', hrun', -, -, hend⟩ := hall
  obtain ⟨rfl, rfl⟩ := Prod.mk.inj (Except.ok.inj (hrun'.symm.trans hrun))
  exact (hend hno).2

end Host

/-- Nothing of what was done before an unload shows after it: two machines on
which the module is not loaded give the same answers from then on, whatever
happened on them before: the same values, positions and numbers of bytes, and the
same bytes where they have been written since. They have all been, unless a write
has lost pending bytes since. -/
theorem reload_forgets (k : Kernel) (before before' ops : List Op) :
    ∃ evs h evs' h', runOps k before Host.boot = .ok (evs, h) ∧ runOps k before' Host.boot = .ok (evs', h') ∧
      (h.loaded = false → h'.loaded = false →
        ∃ l g l' g', runOps k ops h = .ok (l, g) ∧ runOps k ops h' = .ok (l', g') ∧
          l.map (·.output.1) = l'.map (·.output.1) ∧
          ((∀ e ∈ l, ¬ e.LosesPending k) → ∀ e ∈ l, none ∉ e.output.1.data)) := by
  obtain ⟨evs, h, rest, hr, hs, -, -⟩ := (Host.boot_sound k).run before
  obtain ⟨evs', h', rest', hr', hs', -, -⟩ := (Host.boot_sound k).run before'
  refine ⟨evs, h, evs', h', hr, hr', ?_⟩
  intro hl hl'
  obtain ⟨l, g, -, hrun, -, hn, -⟩ := hs.run ops
  obtain ⟨l', g', -, hrun', -, hn', -⟩ := hs'.run ops
  refine ⟨l, g, l', g', hrun, hrun', ?_, hs.written hl ops hrun⟩
  rw [Host.node_unloaded hl, hs.no_files hl] at hn
  rw [Host.node_unloaded hl', hs'.no_files hl'] at hn'
  exact congrArg Prod.fst (hn.symm.trans hn')

end Aesd
