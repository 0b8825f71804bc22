import Aesd.Device
/-!
# Failing calls

Two promises the driver breaks on rare faults. A read whose user copy fails
returns with `dev->lock` held, and nothing ever releases it. A write whose
`krealloc` fails forgets the pending bytes but not their number, so that the
next line starts with bytes nobody wrote. For both the theorem says exactly
which calls break the promise, and the run after it shows one that does.
-/

namespace Aesd

open SysLib

section Lock

variable {k : Kernel} {s : Sys} {ring rest : List (Nat × List Cell)} {pend : List Cell}

theorem lock_step (h : Holds k s ring pend rest) {i : Invocation} {r : Return} (he : i.exec k s = .ok r) :
    (FaultedRead i.outcome i.filp i.call s → r.sys.dev.lock = true) ∧
    (s.dev.lock = false → ¬ FaultedRead i.outcome i.filp i.call s → r.ret ≠ none ∧ r.sys.dev.lock = false) := by
  rcases exec_cases h he with ⟨buf, hw, -, -, heff⟩ | ⟨-, -, -, hlk⟩
  · constructor
    · rintro ⟨_, _, _, hc, _⟩
      rw [hw] at hc; cases hc
    · intro hl _
      obtain ⟨ret, data, fPos, s'⟩ := r
      cases heff with
      | refused => exact ⟨by simp, hl⟩
      | noMemory => exact ⟨by simp, hl⟩
      | dropped _ _ _ hstop _ hd =>
        refine ⟨?_, by rw [hd]; exact hl⟩
        rcases hstop with ⟨-, rfl⟩ | ⟨-, -, rfl⟩ | ⟨-, -, hl', -⟩
        · simp
        · simp
        · rw [hl] at hl'; cases hl'
      | lost _ _ hd => exact ⟨by simp, by rw [hd]; exact hl⟩
      | kept _ _ _ _ hl => exact ⟨by simp, hl⟩
      | committed _ _ _ _ hl => exact ⟨by simp, hl⟩
  · constructor
    · intro hf
      have hl : s.dev.lock = false := by obtain ⟨_, _, _, _, _, _, hl, _⟩ := hf; exact hl
      exact (hlk hl).2.2 hf
    · intro hl hf
      exact ⟨(hlk hl).1, by rw [← Bool.not_eq_true, (hlk hl).2]; exact hf⟩

end Lock

/-- Every call returns and leaves `dev->lock` free, exactly in the runs in which
no read that has data to deliver fails in `copy_to_user`. -/
theorem lock_free_iff (k : Kernel) (is : List Invocation) :
    ∃ evs s, runCalls k is aesdInitModule = .ok (evs, s) ∧
      ((∀ e ∈ evs, e.output.ret ≠ none ∧ e.output.sys.dev.lock = false) ↔
        ∀ e ∈ evs, ¬ FaultedRead e.input.outcome e.input.filp e.input.call e.before) := by
  obtain ⟨evs, s, hr, -, hf, hI⟩ := runCalls_induct k
    (fun evs s =>
      (∀ e ∈ evs, FaultedRead e.input.outcome e.input.filp e.input.call e.before →
        e.output.sys.dev.lock = true) ∧
      ((∀ e ∈ evs, ¬ FaultedRead e.input.outcome e.input.filp e.input.call e.before) →
        s.dev.lock = false ∧ ∀ e ∈ evs, e.output.ret ≠ none ∧ e.output.sys.dev.lock = false))
    ⟨by simp, fun _ => ⟨rfl, by simp⟩⟩
    (fun evs s i r ring pend rest h ⟨hf, hI⟩ he => by
      obtain ⟨hheld, hfree⟩ := lock_step h he
      simp only [List.forall_mem_append, List.forall_mem_singleton]
      refine ⟨⟨hf, hheld⟩, fun ⟨hn, hn'⟩ => ?_⟩
      obtain ⟨hl, hevs⟩ := hI hn
      exact ⟨(hfree hl hn').2, hevs, hfree hl hn'⟩)
    is
  refine ⟨evs, s, hr, fun hall e he hfault => ?_, fun hn => (hI hn).2⟩
  have := hf e he hfault
  rw [(hall e he).2] at this
  cases this

/-- A read that cannot copy its two bytes to the user leaves the lock held, and
the next write never returns. -/
theorem lock_stays_held :
    ∃ evs s, runCalls .pages4K
        [⟨some ⟨true, 0⟩, .write (some [97, newline]), ⟨false, some 0, some 0, 0⟩⟩,
         ⟨some ⟨true, 0⟩, .read true 2, ⟨false, none, none, 2⟩⟩,
         ⟨some ⟨true, 0⟩, .write (some [98]), ⟨false, some 0, some 0, 0⟩⟩] aesdInitModule = .ok (evs, s) ∧
      evs.map (·.output.ret) = [some 2, some 0, none] ∧
      evs.map (·.before.dev.lock) = [false, false, true] :=
  ⟨_, _, rfl, rfl, rfl⟩

/-! ## Failing writes -/

def failedWrite (e : CallEvent) : Bool :=
  match e.input.call, e.output.ret with
  | .write _, some ret => ret < 0
  | _, _ => false

section Writes

variable {k : Kernel} {s : Sys} {ring rest : List (Nat × List Cell)} {pend : List Cell}

theorem Pends.blank {e : BufferEntry} {c : List Cell} (h : Pends e c) (hnb : ¬ ∃ j, e.buffptr = .block j) :
    List.replicate c.length none = c ∧ (e.buffptr = .null ∨ c.length = 0) := by
  rcases h with ⟨hn, rfl⟩ | ⟨hp, -⟩
  · exact ⟨by rw [List.length_replicate], .inl hn⟩
  · generalize e.buffptr = p at hp hnb
    cases hp with
    | zeroSize => exact ⟨rfl, .inr rfl⟩
    | block j c _ => exact absurd ⟨j, rfl⟩ hnb

/-- A failed `krealloc` loses the pending bytes if they have a block, and nothing if they have none. -/
theorem lost_pending (h : Holds k s ring pend rest) {s' : Sys} {rest' : List (Nat × List Cell)}
    (hd : s'.dev = { s.dev with newEntry := ⟨.null, pend.length⟩ })
    (hh : Holds k s' ring (List.replicate pend.length none) rest') :
    ((¬ ∃ j, s.dev.newEntry.buffptr = .block j) → device s' = device s) ∧
      ((∃ j, s.dev.newEntry.buffptr = .block j) → pendCells s' ≠ pendCells s) := by
  constructor
  · intro hnb
    obtain ⟨hcells, hnull⟩ := h.newEntry.blank hnb
    rw [hh.device, h.device, hd, hcells]
    rcases hnull with hn | hz
    · simp [hn]
    · simp [hz]
  · rintro ⟨j, hj⟩
    rw [hh.pendCells, h.pendCells, hd, hj]
    simp only [if_true, reduceCtorEq, if_false]
    rcases h.newEntry with ⟨hn, -⟩ | ⟨hp, -⟩
    · rw [hj] at hn
      cases hn
    · rw [hj] at hp
      cases hp with
      | block _ _ hc => exact Ne.symm hc

theorem failedWrite_step (h : Holds k s ring pend rest) {i : Invocation} {r : Return} (he : i.exec k s = .ok r)
    (hf : failedWrite ⟨i, s, r⟩ = true) :
    (¬ LosesPending k i s → device r.sys = device s) ∧
    (LosesPending k i s → pendCells r.sys ≠ pendCells s) := by
  rcases exec_cases h he with ⟨buf, hw, -, -, heff⟩ | ⟨hw, -⟩
  case inr =>
    unfold failedWrite at hf
    split at hf
    · rename_i hc _; exact absurd hc (hw _)
    · cases hf
  obtain ⟨ret, data, fPos, s'⟩ := r
  -- a write that does not get to `krealloc`
  have hshort : (∀ src, buf = some src → ¬ Reaches k i.outcome i.filp (some src) s src) → device s' = device s →
      (¬ LosesPending k i s → device s' = device s) ∧ (LosesPending k i s → pendCells s' ≠ pendCells s) := by
    intro hn hd
    refine ⟨fun _ => hd, ?_⟩
    rintro ⟨src, hw', hreach, -⟩
    rw [hw, Call.write.injEq] at hw'
    exact absurd hreach (hn src hw')
  cases heff with
  | refused hr =>
    refine hshort (fun src hbuf hreach => ?_) rfl
    obtain ⟨f, hf, -⟩ := hreach.filp_eq
    rcases hr with hr | hr
    · rw [hr] at hf; cases hf
    · rw [hr] at hbuf; cases hbuf
  | noMemory _ hbuf hr =>
    refine hshort (fun src hbuf' hreach => hreach.allocated ?_) rfl
    rw [hbuf, Option.some.injEq] at hbuf'
    exact hbuf' ▸ hr
  | dropped hfilp hbuf _ hstop _ hd _ hh =>
    refine hshort (fun src hbuf' hreach => ?_) (by rw [hh.device, h.device, hd])
    rw [hbuf, Option.some.injEq] at hbuf'
    rw [← hbuf', hfilp] at hreach
    exact hstop.not_reaches hreach
  | lost hreach hr hd _ hh =>
    have hbuf := hreach.buf_eq
    obtain ⟨hsame, hdiff⟩ := lost_pending h hd hh
    constructor
    · intro hn
      refine hsame fun hj => hn ?_
      exact ⟨_, hbuf ▸ hw, hbuf ▸ hreach, by rw [h.newEntry.size_eq]; exact hr, hj⟩
    · rintro ⟨-, -, -, -, hj⟩
      exact hdiff hj
  | kept =>
    simp only [failedWrite, hw, decide_eq_true_eq] at hf
    omega
  | committed =>
    simp only [failedWrite, hw, decide_eq_true_eq] at hf
    omega

theorem exec_same (h : Ok k s) {s' : Sys} (h' : Ok k s') (hd : device s' = device s) {i : Invocation}
    {r : Return} (he : i.exec k s = .ok r) :
    ∃ r', i.exec k s' = .ok r' ∧ Ok k r'.sys ∧ r'.reply = r.reply ∧ device r'.sys = device r.sys := by
  obtain ⟨_, _, _, h⟩ := h
  obtain ⟨_, _, _, h'⟩ := h'
  obtain ⟨r', he'⟩ := exec_total h' i
  have heq : (r'.reply, device r'.sys) = (r.reply, device r.sys) := by
    rw [← exec_device h' he', ← exec_device h he, hd]
  obtain ⟨hreply, hdev⟩ := Prod.mk.inj heq
  exact ⟨r', he', exec_holds h' he', hreply, hdev⟩

end Writes

/-- The calls of a history without the writes that returned an error. -/
def withoutFailed (evs : List CallEvent) : List CallEvent := evs.filter fun e => !failedWrite e

/-- A write that returns an error leaves the ring, the pending bytes and their
number alone, unless it loses the pending bytes. In a run without such a write
the device holds what the successful writes wrote, and without the failed ones
every call answers the same and the device ends the same. -/
theorem failed_writes_atomic (k : Kernel) (is : List Invocation) :
    ∃ evs s, runCalls k is aesdInitModule = .ok (evs, s) ∧
      (∀ e ∈ evs, failedWrite e = true →
        ((ringCells e.output.sys = ringCells e.before ∧ pendCells e.output.sys = pendCells e.before ∧
          e.output.sys.dev.newEntry.size = e.before.dev.newEntry.size) ↔ ¬ LosesPending k e.input e.before)) ∧
      ((∀ e ∈ evs, ¬ LosesPending k e.input e.before) →
        s.committed.flatten ++ pendCells s = (evs.flatMap storedBy).map some ∧
        ∃ evs' s', runCalls k ((withoutFailed evs).map (·.input)) aesdInitModule = .ok (evs', s') ∧
          evs'.map (·.output.reply) = (withoutFailed evs).map (·.output.reply) ∧
          ringCells s' = ringCells s ∧ pendCells s' = pendCells s ∧
          s'.dev.newEntry.size = s.dev.newEntry.size) := by
  obtain ⟨evs, s, hr, hok, hevs, hI⟩ := runCalls_induct k
    (fun evs s =>
      (∀ e ∈ evs, failedWrite e = true →
        ((ringCells e.output.sys = ringCells e.before ∧ pendCells e.output.sys = pendCells e.before ∧
          e.output.sys.dev.newEntry.size = e.before.dev.newEntry.size) ↔ ¬ LosesPending k e.input e.before)) ∧
      ((∀ e ∈ evs, ¬ LosesPending k e.input e.before) →
        Conserved (evs.flatMap storedBy) s ∧
        ∃ evs' s', runCalls k ((withoutFailed evs).map (·.input)) aesdInitModule = .ok (evs', s') ∧ Ok k s' ∧
          evs'.map (·.output.reply) = (withoutFailed evs).map (·.output.reply) ∧ device s' = device s))
    ⟨by simp, fun _ => ⟨⟨rfl, fun _ => rfl⟩, [], aesdInitModule, rfl, ⟨[], [], [], holds_init k⟩, rfl, rfl⟩⟩
    (fun evs s i r ring pend rest h ⟨hevs, hI⟩ he => by
      have hok : Ok k s := ⟨ring, pend, rest, h⟩
      have hok' : Ok k r.sys := exec_holds h he
      simp only [List.forall_mem_append, List.forall_mem_singleton]
      refine ⟨⟨hevs, fun hf => ?_⟩, fun ⟨hn, hn'⟩ => ?_⟩
      · obtain ⟨hsame, hdiff⟩ := failedWrite_step h he hf
        refine ⟨fun hall hl => hdiff hl hall.2.1, fun hl => ?_⟩
        exact hok.same hok' (hsame hl)
      · obtain ⟨hc, evs', s', hr, hs', hreply, hd⟩ := hI hn
        refine ⟨by simpa using hc.exec h hn' he, ?_⟩
        cases hf : failedWrite ⟨i, s, r⟩ with
        | true =>
          have hdrop : withoutFailed (evs ++ [⟨i, s, r⟩]) = withoutFailed evs := by simp [withoutFailed, hf]
          rw [hdrop]
          exact ⟨evs', s', hr, hs', hreply, hd.trans ((failedWrite_step h he hf).1 hn').symm⟩
        | false =>
          have hkeep : withoutFailed (evs ++ [⟨i, s, r⟩]) = withoutFailed evs ++ [⟨i, s, r⟩] := by
            simp [withoutFailed, hf]
          obtain ⟨r', he', hr', hrep, hdev⟩ := exec_same hok hs' hd he
          refine ⟨evs' ++ [⟨i, s', r'⟩], r'.sys, ?_, hr', ?_, hdev⟩
          · rw [hkeep, List.map_append]
            exact runAll_append hr (runAll_single he')
          · rw [hkeep, List.map_append, List.map_append, hreply]
            simp [hrep])
    is
  refine ⟨evs, s, hr, hevs, fun hn => ?_⟩
  obtain ⟨hc, evs', s', hr', hok', hreply, hd⟩ := hI hn
  exact ⟨hc.bytes, evs', s', hr', hreply, hok.same hok' hd⟩

/-- "ab" is pending when the write of "c" and a newline fails in `krealloc`.
The line that "d" and a newline then end starts with two bytes nobody wrote. -/
theorem pending_bytes_lost :
    ∃ evs s, runCalls .pages4K
        [⟨some ⟨true, 0⟩, .write (some [97, 98]), ⟨false, some 0, some 0, 0⟩⟩,
         ⟨some ⟨true, 0⟩, .write (some [99, newline]), ⟨false, some 0, none, 0⟩⟩,
         ⟨some ⟨true, 0⟩, .write (some [100, newline]), ⟨false, some 0, some 0, 0⟩⟩,
         ⟨some ⟨true, 0⟩, .read true 9, ⟨false, none, none, 0⟩⟩] aesdInitModule = .ok (evs, s) ∧
      evs.map (·.output.ret) = [some 2, some (-ENOMEM), some 2, some 4] ∧
      evs.map (pendCells ·.before) = [[], [some 97, some 98], [], []] ∧
      evs.map (·.output.data) = [[], [], [], [none, none, some 100, some newline]] :=
  ⟨_, _, rfl, by decide +kernel, by decide +kernel, by decide +kernel⟩

end Aesd
