import Aesd.Lifecycle
/-!
# A lock that is never dropped

A read whose copy fails keeps the lock, and only a load of the module makes a new
one. `recovery_iff` says when that is still possible: as long as no write waits.
Who waits in another call can be sent a signal.
-/

namespace Aesd

open SysLib

section Files

variable {files : Files} {fd : Nat} {f : OpenFile}

theorem Files.lookup_put {fd' : Nat} (hne : fd' ≠ fd) : (files.put fd f).lookup fd' = files.lookup fd' := by
  induction files with
  | nil => rfl
  | cons x files ih =>
    have hcons : Files.put (x :: files) fd f = (if x.1 = fd then (fd, f) else x) :: Files.put files fd f := rfl
    rw [hcons, List.lookup_cons, List.lookup_cons, ih]
    by_cases hx : x.1 = fd
    · have hfd : (fd' == fd) = false := beq_false_of_ne hne
      rw [if_pos hx, hx, hfd]
    · rw [if_neg hx]

theorem Files.lookup_put_self {g : OpenFile} (h : files.lookup fd = some g) : (files.put fd f).lookup fd = some f := by
  induction files with
  | nil => cases h
  | cons x files ih =>
    have hcons : Files.put (x :: files) fd f = (if x.1 = fd then (fd, f) else x) :: Files.put files fd f := rfl
    rw [hcons, List.lookup_cons]
    by_cases hx : x.1 = fd
    · simp only [hx, if_true, beq_self_eq_true]
    · have hfd : (fd == x.1) = false := beq_false_of_ne (Ne.symm hx)
      rw [List.lookup_cons, hfd] at h
      simp only [if_neg hx, hfd]
      exact ih h

theorem Files.lookup_close {fd' : Nat} (hne : fd' ≠ fd) : (files.close fd).lookup fd' = files.lookup fd' := by
  induction files with
  | nil => rfl
  | cons x files ih =>
    by_cases hx : x.1 = fd
    · have hfd : (fd' == x.1) = false := beq_false_of_ne (hx ▸ hne)
      have hcons : Files.close (x :: files) fd = Files.close files fd := List.filter_cons_of_neg (by simp [hx])
      rw [hcons, ih, List.lookup_cons, hfd]
    · have hcons : Files.close (x :: files) fd = x :: Files.close files fd := List.filter_cons_of_pos (by simp [hx])
      rw [hcons, List.lookup_cons, List.lookup_cons, ih]

theorem Files.lookup_close_self : (files.close fd).lookup fd = none := by
  rw [List.lookup_eq_none_iff]
  intro x hx
  have hne : x.1 ≠ fd := of_decide_eq_true (List.mem_filter.1 hx).2
  exact bne_iff_ne.2 hne.symm

/-- Closing what is not open. -/
theorem Files.close_of_none (h : files.lookup fd = none) : files.close fd = files := by
  rw [List.lookup_eq_none_iff] at h
  exact List.filter_eq_self.2 fun x hx => decide_eq_true (bne_iff_ne.1 (h x hx)).symm

end Files

/-! ## A user who waits -/

/-- The user waits in `aesd_write`. -/
def OpenFile.Pins (f : OpenFile) : Prop := ∃ buf, f.waiting = some (.write buf)

section OpenFile

variable {f : OpenFile}

theorem OpenFile.Pins.busy (h : f.Pins) : f.busy = true := by
  obtain ⟨buf, hw⟩ := h
  rw [OpenFile.busy, hw]
  rfl

/-- A signal changes nothing there. -/
theorem OpenFile.Pins.signal (h : f.Pins) : f.signal.2 = f := by
  obtain ⟨buf, hw⟩ := h
  simp only [OpenFile.signal, hw]

/-- Any other call returns. -/
theorem OpenFile.signal_returns (h : ¬ f.Pins) : f.signal.2.busy = false := by
  unfold OpenFile.signal
  split
  next hw => simp only [OpenFile.busy, hw, Option.isSome_none]
  next buf hw => exact absurd ⟨buf, hw⟩ h
  next => rfl

end OpenFile

namespace Node

variable {k : Kernel} {n : Node}

/-- Some user waits in a write for a lock that is held. -/
def Pinned (n : Node) : Prop :=
  (∃ d, n.device = some d ∧ d.lock = true) ∧ ∃ fd f, n.files.lookup fd = some f ∧ f.Pins

/-- Nothing ends that. -/
theorem Pinned.exec (h : n.Pinned) (op : Op) : (n.exec k op).2.Pinned := by
  obtain ⟨⟨d, hd, hl⟩, fd, f, hf, hpins⟩ := h
  have hsame : n.Pinned := ⟨⟨d, hd, hl⟩, fd, f, hf, hpins⟩
  have hw := hpins.busy
  cases op with
  | initModule r =>
    simp only [Node.exec, hd]
    exact hsame
  | cleanupModule =>
    have hne : n.files ≠ [] := by
      intro hnil
      rw [hnil] at hf
      cases hf
    simp only [Node.exec, hd, if_pos hne]
    exact hsame
  | openFile fd' =>
    cases hf' : n.files.lookup fd' with
    | some f' =>
      simp only [Node.exec, hd, hf']
      exact hsame
    | none =>
      have hne : fd ≠ fd' := by
        rintro rfl
        rw [hf] at hf'
        cases hf'
      simp only [Node.exec, hd, hf']
      refine ⟨⟨d, rfl, hl⟩, fd, f, ?_, hpins⟩
      rw [List.lookup_cons, beq_false_of_ne hne]
      exact hf
  | call fd' c o =>
    cases hf' : n.files.lookup fd' with
    | none =>
      simp only [Node.exec, hd, hf']
      exact hsame
    | some f' =>
      cases hw' : f'.busy with
      | true =>
        simp only [Node.exec, hd, hf', hw', if_true]
        exact hsame
      | false =>
        have hne : fd ≠ fd' := by
          rintro rfl
          obtain rfl := Option.some.inj (hf.symm.trans hf')
          rw [hw] at hw'
          cases hw'
        simp only [Node.exec, hd, hf', hw', Bool.false_eq_true, if_false]
        exact ⟨⟨_, rfl, Device.exec_held hl⟩, fd, f, (Files.lookup_put hne).trans hf, hpins⟩
  | signal fd' =>
    cases hf' : n.files.lookup fd' with
    | none =>
      simp only [Node.exec, hf']
      exact hsame
    | some f' =>
      simp only [Node.exec, hf']
      by_cases hne : fd = fd'
      · subst hne
        obtain rfl := Option.some.inj (hf.symm.trans hf')
        exact ⟨⟨d, hd, hl⟩, fd, f, by rw [hpins.signal]; exact Files.lookup_put_self hf, hpins⟩
      · exact ⟨⟨d, hd, hl⟩, fd, f, (Files.lookup_put hne).trans hf, hpins⟩
  | release fd' =>
    cases hf' : n.files.lookup fd' with
    | none =>
      simp only [Node.exec, hf']
      exact hsame
    | some f' =>
      cases hw' : f'.busy with
      | true =>
        simp only [Node.exec, hf', hw', if_true]
        exact hsame
      | false =>
        have hne : fd ≠ fd' := by
          rintro rfl
          obtain rfl := Option.some.inj (hf.symm.trans hf')
          rw [hw] at hw'
          cases hw'
        simp only [Node.exec, hf', hw', Bool.false_eq_true, if_false]
        exact ⟨⟨d, hd, hl⟩, fd, f, (Files.lookup_close hne).trans hf, hpins⟩

/-! ## No write waits -/

/-- Every call on an open file has returned. -/
def Returned (n : Node) : Prop := ∀ fd f, n.files.lookup fd = some f → f.busy = false

/-- Signals bring that about. -/
theorem returned_of_signals (hno : ∀ fd f, n.files.lookup fd = some f → ¬ f.Pins) (fds : List Nat)
    (hfds : ∀ fd f, n.files.lookup fd = some f → f.busy = true → fd ∈ fds) :
    (n.run k (fds.map .signal)).2.Returned ∧ (n.run k (fds.map .signal)).2.device = n.device := by
  induction fds generalizing n with
  | nil =>
    refine ⟨fun fd f hf => ?_, rfl⟩
    by_contra hbusy
    exact List.not_mem_nil (hfds fd f hf (Bool.not_eq_false _ ▸ hbusy))
  | cons fd fds ih =>
    have hrun : (n.run k ((fd :: fds).map .signal)).2 = (Node.run k (fds.map .signal) (n.exec k (.signal fd)).2).2 := rfl
    have hdevice : (n.exec k (.signal fd)).2.device = n.device := by
      cases hf : n.files.lookup fd <;> simp only [Node.exec, hf]
    -- the file of `fd`, and the others
    have hafter : ∀ fd' f', (n.exec k (.signal fd)).2.files.lookup fd' = some f' →
        (fd' = fd ∧ f'.busy = false) ∨ (fd' ≠ fd ∧ n.files.lookup fd' = some f') := by
      intro fd' f' hf'
      by_cases hne : fd' = fd
      · subst hne
        refine .inl ⟨rfl, ?_⟩
        cases hf : n.files.lookup fd' with
        | none =>
          simp only [Node.exec, hf] at hf'
          cases hf'
        | some f =>
          simp only [Node.exec, hf, Files.lookup_put_self hf] at hf'
          obtain rfl := Option.some.inj hf'
          exact OpenFile.signal_returns (hno fd' f hf)
      · refine .inr ⟨hne, ?_⟩
        cases hf : n.files.lookup fd with
        | none => simpa only [Node.exec, hf] using hf'
        | some f => simpa only [Node.exec, hf, Files.lookup_put hne] using hf'
    rw [hrun, ← hdevice]
    refine ih (fun fd' f' hf' hpins => ?_) fun fd' f' hf' hbusy => ?_
    · rcases hafter fd' f' hf' with ⟨-, hidle⟩ | ⟨-, hold⟩
      · rw [hpins.busy] at hidle
        cases hidle
      · exact hno fd' f' hold hpins
    · rcases hafter fd' f' hf' with ⟨-, hidle⟩ | ⟨hne, hold⟩
      · rw [hidle] at hbusy
        cases hbusy
      · exact List.mem_of_ne_of_mem hne (hfds fd' f' hold hbusy)

/-- Then a file can be closed. -/
theorem Returned.release (h : n.Returned) (fd : Nat) :
    (n.exec k (.release fd)).2 = { n with files := n.files.close fd } := by
  cases hf : n.files.lookup fd with
  | none => simp only [Node.exec, hf, Files.close_of_none hf]
  | some f => simp only [Node.exec, hf, h fd f hf, Bool.false_eq_true, if_false]

theorem Returned.close (h : n.Returned) (fd : Nat) : Returned { n with files := n.files.close fd } := by
  intro fd' f hf
  by_cases hne : fd' = fd
  · subst hne
    rw [Files.lookup_close_self] at hf
    cases hf
  · exact h fd' f ((Files.lookup_close hne).symm.trans hf)

/-- So can any number of them, one after another. -/
theorem Returned.releases (h : n.Returned) (fds : List Nat) :
    (n.run k (fds.map .release)).2 = { n with files := n.files.filter fun x => x.1 ∉ fds } := by
  induction fds generalizing n with
  | nil => simp [Node.run]
  | cons fd fds ih =>
    have hrun : (n.run k ((fd :: fds).map .release)).2 =
        (Node.run k (fds.map .release) (n.exec k (.release fd)).2).2 := rfl
    rw [hrun, h.release, ih (h.close fd), Files.close, List.filter_filter]
    refine congrArg (Node.mk n.device) (List.filter_congr fun x _ => ?_)
    simp only [List.mem_cons, not_or, Bool.decide_and, Bool.and_comm, ne_eq]

/-- All of them closed, the module can be unloaded. -/
theorem Returned.unload (h : n.Returned) {d : Device} (hd : n.device = some d) :
    ∃ ops, (n.run k ops).2 = ⟨none, []⟩ := by
  refine ⟨(n.files.map Prod.fst).map .release ++ [.cleanupModule], ?_⟩
  have hnil : (n.files.filter fun x => x.1 ∉ n.files.map Prod.fst) = [] := by
    refine List.filter_eq_nil_iff.2 fun x hx => ?_
    simpa using ⟨x.2, hx⟩
  simp only [run_append, h.releases, hnil]
  simp [Node.run, Node.exec, hd]

end Node

namespace Host

variable {k : Kernel} {h h' : Host} {rest : List (Nat × List Cell)} {evs : List OpEvent} {later : List Op}

theorem Sound.node_run (hs : h.Sound k rest) (hrun : runOps k later h = .ok (evs, h')) :
    (h.node.run k later).2 = h'.node := by
  obtain ⟨_, _, -, hrun', -, hn, -⟩ := hs.run later
  obtain ⟨rfl, rfl⟩ := Prod.mk.inj (Except.ok.inj (hrun'.symm.trans hrun))
  rw [hn]

/-- Whether the module is loaded, and its device, can be read off the node. -/
theorem of_node {d : Device} (h : h'.node.device = some d) : h'.loaded = true ∧ h'.sys.dev.lock = d.lock := by
  cases hl : h'.loaded with
  | false =>
    rw [node_unloaded hl] at h
    cases h
  | true =>
    rw [node_loaded hl] at h
    obtain rfl := Option.some.inj h
    exact ⟨rfl, rfl⟩

theorem of_no_node (h : h'.node.device = none) : h'.loaded = false := by
  cases hl : h'.loaded with
  | false => rfl
  | true =>
    rw [node_loaded hl] at h
    cases h

/-- A waiting write keeps the module loaded and the lock held. -/
theorem Sound.pinned (hs : h.Sound k rest) (hl : h.loaded = true) (hrun : runOps k later h = .ok (evs, h'))
    (hwait : ¬ ∀ fd f buf, h.files.lookup fd = some f → f.waiting ≠ some (.write buf)) :
    h'.loaded = true ∧ h'.sys.dev.lock = true := by
  simp only [not_forall, not_not] at hwait
  obtain ⟨fd, f, buf, hf, hw⟩ := hwait
  have hpins : f.Pins := ⟨buf, hw⟩
  have hlock := (hs.opened _ (Files.mem_of_lookup hf)).2.2 hpins.busy
  have hpin : h.node.Pinned := by
    rw [node_loaded hl]
    exact ⟨⟨_, rfl, hlock⟩, fd, f, hf, hpins⟩
  have hend := Node.run_inv (P := Node.Pinned) (fun _ op h => Node.Pinned.exec h op) later hpin (k := k)
  rw [hs.node_run hrun] at hend
  obtain ⟨⟨d, hd, hdl⟩, -⟩ := hend
  exact ⟨(of_node hd).1, (of_node hd).2.trans hdl⟩

/-- Without one, the other waits are ended, the files closed and the module unloaded. -/
theorem unload_of_no_write (hl : h.loaded = true)
    (hno : ∀ fd f buf, h.files.lookup fd = some f → f.waiting ≠ some (.write buf)) :
    ∃ later, (h.node.run k later).2 = ⟨none, []⟩ := by
  obtain ⟨hreturned, hdevice⟩ := Node.returned_of_signals (k := k) (n := h.node)
    (fun fd f hf ⟨buf, hw⟩ => hno fd f buf hf hw) (h.files.map Prod.fst)
    fun fd f hf _ => List.mem_map_of_mem (Files.mem_of_lookup hf)
  obtain ⟨ops, hend⟩ := hreturned.unload (k := k) (hdevice.trans (congrArg Node.device (node_loaded hl)))
  exact ⟨_ ++ ops, by rw [Node.run_append]; exact hend⟩

end Host

/-- A registration that succeeds. -/
def Registration.done : Registration := ⟨0, 0, le_refl 0, le_refl 0⟩

/-- A machine on which the module is loaded. It can be unloaded at some later
time, whatever is done until then, exactly if no write waits for the lock; and a
lock that was never dropped is dropped by an unload and a load or not at all. -/
theorem recovery_iff (k : Kernel) (ops : List Op) :
    ∃ evs h, runOps k ops Host.boot = .ok (evs, h) ∧ (h.loaded = true →
      ((∃ later evs' h', runOps k later h = .ok (evs', h') ∧ h'.loaded = false) ↔
        ∀ fd f buf, h.files.lookup fd = some f → f.waiting ≠ some (.write buf)) ∧
      (h.sys.dev.lock = true →
        ((∃ later evs' h', runOps k later h = .ok (evs', h') ∧ h'.loaded = true ∧ h'.sys.dev.lock = false) ↔
          ∀ fd f buf, h.files.lookup fd = some f → f.waiting ≠ some (.write buf)))) := by
  obtain ⟨evs, h, rest, hr, hs, -, -⟩ := (Host.boot_sound k).run ops
  refine ⟨evs, h, hr, fun hl => ⟨⟨?_, fun hno => ?_⟩, fun _ => ⟨?_, fun hno => ?_⟩⟩⟩
  · rintro ⟨later, evs', h', hrun, hl'⟩
    by_contra hwait
    rw [(hs.pinned hl hrun hwait).1] at hl'
    cases hl'
  · obtain ⟨later, hend⟩ := Host.unload_of_no_write (k := k) hl hno
    obtain ⟨evs', h', -, hrun, -⟩ := hs.run later
    have hnode : h'.node.device = none := by rw [← hs.node_run hrun, hend]
    exact ⟨later, evs', h', hrun, Host.of_no_node hnode⟩
  · rintro ⟨later, evs', h', hrun, -, hlock'⟩
    by_contra hwait
    rw [(hs.pinned hl hrun hwait).2] at hlock'
    cases hlock'
  · obtain ⟨later, hend⟩ := Host.unload_of_no_write (k := k) hl hno
    obtain ⟨evs', h', -, hrun, -⟩ := hs.run (later ++ [.initModule .done])
    have hnode : h'.node.device = some Device.fresh := by
      rw [← hs.node_run hrun, Node.run_append, hend]
      rfl
    exact ⟨_, evs', h', hrun, Host.of_node hnode⟩

end Aesd
