import Aesd.Effects
import Aesd.SysLib.Runs
/-!
# Runs of the driver, and conservation of bytes

A run is any sequence of calls, each with any file and any outcomes, from the
state `aesd_init_module` leaves. `runCalls_induct` is the induction every later
result uses: no run faults, and `Holds` is true after it.
-/

namespace Aesd

open SysLib

/-- A call, the file it is made on, and how its kernel calls go. -/
structure Invocation where
  filp : Option File
  call : Call
  outcome : Outcome
  deriving DecidableEq

def Invocation.exec (k : Kernel) (i : Invocation) (s : Sys) : Except Fault Return :=
  i.call.exec k i.outcome i.filp s

abbrev CallEvent := Event Invocation Sys Return

/-- Calls made one after another. -/
def runCalls (k : Kernel) (is : List Invocation) (s : Sys) : Except Fault (List CallEvent × Sys) :=
  runAll (Invocation.exec k) Return.sys is s

/-- The bytes of the stored entries, from the one at `out_offs` on. -/
def ringCells (s : Sys) : List (List Cell) :=
  s.dev.buffer.entries.map fun e => (cellsAt s.heap e.buffptr).getD []

/-- The bytes `new_entry.buffptr` points to. -/
def pendCells (s : Sys) : List Cell := (cellsAt s.heap s.dev.newEntry.buffptr).getD []

/-- The bytes a call asks the driver to store: those of a write with valid arguments. -/
def Invocation.bytes (i : Invocation) : List UInt8 :=
  match i.filp, i.call with
  | some f, .write (some src) => if f.privateData then src else []
  | _, _ => []

section Views

variable {k : Kernel} {s : Sys} {ring rest : List (Nat × List Cell)} {pend : List Cell}

theorem Owns.ringCells (h : Owns k s ring pend rest) : ringCells s = ring.map Prod.snd := by
  rw [Aesd.ringCells, h.entries, List.map_map]
  refine List.map_congr_left fun b hb => ?_
  have hc : s.heap.block b.1 = some b.2 := h.exactly.block (List.mem_append_left _ hb)
  simp [ringEntry, cellsAt, hc]

theorem Owns.pendCells (h : Owns k s ring pend rest) :
    pendCells s = if s.dev.newEntry.buffptr = .null then [] else pend := by
  rw [Aesd.pendCells]
  rcases h.newEntry with ⟨hn, -⟩ | ⟨hp, -⟩
  · rw [if_pos hn, hn]; rfl
  · rw [if_neg hp.ne_null, cellsAt_points hp h.exactly fun b hb =>
      List.mem_append_right _ (List.mem_append_left _ hb)]
    rfl

end Views

/-! ## The invariant of every run -/

/-- No call faults where the invariant holds. -/
theorem exec_total {k : Kernel} {s : Sys} {ring rest : List (Nat × List Cell)} {pend : List Cell}
    (h : Holds k s ring pend rest) (i : Invocation) : ∃ r, i.exec k s = .ok r := by
  by_cases hc : ∃ buf, i.call = .write buf
  · obtain ⟨buf, hc⟩ := hc
    obtain ⟨ret, s', he, -⟩ := aesdWrite_effect h i.outcome i.filp buf (filePos i.filp)
    exact ⟨_, by rw [Invocation.exec, hc]; exact he⟩
  · obtain ⟨r, he, -⟩ := exec_quiet h i.outcome i.filp (c := i.call) fun buf he => hc ⟨buf, he⟩
    exact ⟨r, he⟩

/-- What a call does: it is a write, or it moves no more than the lock. -/
theorem exec_cases {k : Kernel} {s : Sys} {ring rest : List (Nat × List Cell)} {pend : List Cell}
    (h : Holds k s ring pend rest) {i : Invocation} {r : Return} (he : i.exec k s = .ok r) :
    (∃ buf, i.call = .write buf ∧ r.data = [] ∧ r.fPos = filePos i.filp ∧
      WriteEffect k i.outcome i.filp buf s ring pend rest r.ret r.sys) ∨
    ((∀ buf, i.call ≠ .write buf) ∧ r.sys = s.setLock r.sys.dev.lock ∧
      (s.dev.lock = true → r.sys.dev.lock = true) ∧
      (s.dev.lock = false → r.ret ≠ none ∧
        (r.sys.dev.lock = true ↔ FaultedRead i.outcome i.filp i.call s))) := by
  by_cases hc : ∃ buf, i.call = .write buf
  · obtain ⟨buf, hc⟩ := hc
    obtain ⟨ret, s', he', hw⟩ := aesdWrite_effect h i.outcome i.filp buf (filePos i.filp)
    rw [Invocation.exec, hc] at he
    obtain rfl : r = ⟨ret, [], filePos i.filp, s'⟩ := Except.ok.inj (he.symm.trans he')
    exact .inl ⟨buf, hc, rfl, rfl, hw⟩
  · have hc' : ∀ buf, i.call ≠ .write buf := fun buf he => hc ⟨buf, he⟩
    obtain ⟨r', he', hq⟩ := exec_quiet h i.outcome i.filp hc'
    obtain rfl : r' = r := Except.ok.inj (he'.symm.trans he)
    exact .inr ⟨hc', hq⟩

/-- Every call keeps the invariant. -/
theorem exec_holds {k : Kernel} {s : Sys} {ring rest : List (Nat × List Cell)} {pend : List Cell}
    (h : Holds k s ring pend rest) {i : Invocation} {r : Return} (he : i.exec k s = .ok r) :
    ∃ ring' pend' rest', Holds k r.sys ring' pend' rest' := by
  rcases exec_cases h he with ⟨buf, -, -, -, hw⟩ | ⟨-, hs, -⟩
  · obtain ⟨ret, data, fPos, s'⟩ := r
    cases hw with
    | refused => exact ⟨_, _, _, h⟩
    | noMemory => exact ⟨_, _, _, h⟩
    | dropped _ _ _ _ _ _ _ hh => exact ⟨_, _, _, hh⟩
    | lost _ _ _ _ hh => exact ⟨_, _, _, hh⟩
    | kept _ _ _ _ _ _ _ hh => exact ⟨_, _, _, hh⟩
    | committed _ _ _ _ _ _ _ hh => exact ⟨_, _, _, hh⟩
  · exact ⟨ring, pend, rest, by rw [hs]; exact h.setLock _⟩

/-- `Holds` with some lists of blocks. -/
def Ok (k : Kernel) (s : Sys) : Prop := ∃ ring pend rest, Holds k s ring pend rest

/-- A property of the history that every call keeps where the invariant holds. -/
theorem runCalls_induct (k : Kernel) (I : List CallEvent → Sys → Prop) (h0 : I [] aesdInitModule)
    (hstep : ∀ evs s i r ring pend rest, Holds k s ring pend rest → I evs s → i.exec k s = .ok r →
      I (evs ++ [⟨i, s, r⟩]) r.sys) (is : List Invocation) :
    ∃ evs s, runCalls k is aesdInitModule = .ok (evs, s) ∧ Ok k s ∧ I evs s := by
  have hrun : ∃ evs s, runAll (Invocation.exec k) Return.sys is aesdInitModule = .ok (evs, s) ∧
      (Ok k s ∧ I evs s) := by
    refine runAll_induct (fun evs s => Ok k s ∧ I evs s) ?_ is ⟨⟨[], [], [], holds_init k⟩, h0⟩
    rintro evs s i ⟨⟨ring, pend, rest, h⟩, hI⟩
    obtain ⟨r, he⟩ := exec_total h i
    exact ⟨r, he, exec_holds h he, hstep evs s i r ring pend rest h hI he⟩
  obtain ⟨evs, s, hr, hok, hI⟩ := hrun
  exact ⟨evs, s, hr, hok, hI⟩

/-! ## Conservation of bytes -/

/-- A write that loses the pending bytes: its `krealloc` fails while the pending
entry holds a block, and overwrites the only pointer to it. -/
def LosesPending (k : Kernel) (i : Invocation) (s : Sys) : Prop :=
  ∃ src, i.call = .write (some src) ∧ Reaches k i.outcome i.filp (some src) s src ∧
    k.Refuses i.outcome.krealloc (s.dev.newEntry.size + src.length) ∧
    ∃ j, s.dev.newEntry.buffptr = .block j

/-- The bytes a call has stored: those of a write that returned no error. -/
def storedBy (e : CallEvent) : List UInt8 :=
  match e.input.call, e.output.ret with
  | .write (some src), some ret => if ret < 0 then [] else src
  | _, _ => []

/-- Every byte stored is in a committed entry or pending, in order, and the size
of the pending entry counts no byte that is gone. -/
structure Conserved (stored : List UInt8) (s : Sys) : Prop where
  bytes : s.committed.flatten ++ pendCells s = stored.map some
  attached : s.dev.newEntry.buffptr = .null → s.dev.newEntry.size = 0

section Conservation

variable {k : Kernel} {s : Sys} {ring rest : List (Nat × List Cell)} {pend : List Cell} {stored : List UInt8}

/-- With nothing lost, the pending entry points to the pending bytes. -/
theorem Owns.pendCells_eq (h : Owns k s ring pend rest)
    (hk : s.dev.newEntry.buffptr = .null → s.dev.newEntry.size = 0) : Aesd.pendCells s = pend := by
  rw [h.pendCells]
  split
  · rename_i hn
    have := h.newEntry.size_eq
    rw [hk hn] at this
    exact (List.length_eq_zero_iff.1 this.symm).symm
  · rfl

/-- A pending entry without a block has no bytes behind it, unless they are gone. -/
theorem Owns.pend_eq_nil (h : Owns k s ring pend rest)
    (hk : s.dev.newEntry.buffptr = .null → s.dev.newEntry.size = 0)
    (hb : ¬ ∃ j, s.dev.newEntry.buffptr = .block j) : pend = [] := by
  rcases h.newEntry with ⟨hn, rfl⟩ | ⟨hp, -⟩
  · rw [hk hn]; rfl
  · generalize s.dev.newEntry.buffptr = p at hp hb
    cases hp with
    | zeroSize => rfl
    | block j c _ => exact absurd ⟨j, rfl⟩ hb

theorem storedBy_write {e : CallEvent} {src : List UInt8} (hw : e.input.call = .write (some src))
    (hr : e.output.ret = some (src.length : Int)) : storedBy e = src := by
  rw [storedBy, hw, hr]
  exact if_neg (by omega)

theorem storedBy_of_error {e : CallEvent} (h : ∀ ret, e.output.ret = some ret → ret < 0) : storedBy e = [] := by
  unfold storedBy
  split
  · rename_i hr; rw [if_pos (h _ hr)]
  · rfl

/-- One call that loses nothing. -/
theorem Conserved.exec (hc : Conserved stored s) (h : Holds k s ring pend rest) {i : Invocation} {r : Return}
    (hn : ¬ LosesPending k i s) (he : i.exec k s = .ok r) : Conserved (stored ++ storedBy ⟨i, s, r⟩) r.sys := by
  have hpend := h.pendCells_eq hc.attached
  rcases exec_cases h he with ⟨buf, hw, -, -, heff⟩ | ⟨hw, hsys, -⟩
  · obtain ⟨ret, data, fPos, s'⟩ := r
    simp only at heff
    cases heff with
    | refused =>
      rw [storedBy_of_error (by simp [EINVAL]), List.append_nil]
      exact hc
    | noMemory =>
      rw [storedBy_of_error (by simp [ENOMEM]), List.append_nil]
      exact hc
    | dropped _ _ _ hstop _ hd hcom hh =>
      have hat : s'.dev.newEntry.buffptr = .null → s'.dev.newEntry.size = 0 := by rw [hd]; exact hc.attached
      rw [storedBy_of_error (by rcases hstop with ⟨-, rfl⟩ | ⟨-, -, rfl⟩ | ⟨-, -, -, rfl⟩ <;> simp [EFAULT, EINVAL]),
        List.append_nil]
      refine ⟨?_, hat⟩
      rw [hcom, hh.pendCells_eq hat, ← hpend]
      exact hc.bytes
    | lost hreach hr hd hcom hh =>
      -- only an empty accumulator can be given up
      have hnil : pend = [] := h.pend_eq_nil hc.attached fun hj =>
        hn ⟨_, hreach.buf_eq ▸ hw, hreach.buf_eq ▸ hreach, by rw [h.newEntry.size_eq]; exact hr, hj⟩
      subst hnil
      have hat : s'.dev.newEntry.buffptr = .null → s'.dev.newEntry.size = 0 := by rw [hd]; exact fun _ => rfl
      rw [storedBy_of_error (by simp [ENOMEM]), List.append_nil]
      refine ⟨?_, hat⟩
      rw [hcom, hh.pendCells_eq hat, ← hc.bytes, hpend]
      rfl
    | kept hreach _ _ _ _ hcom hne hh =>
      have hat : s'.dev.newEntry.buffptr = .null → s'.dev.newEntry.size = 0 := fun hn => absurd hn hne
      refine ⟨?_, hat⟩
      rw [hcom, hh.pendCells_eq hat, ← List.append_assoc, ← hpend, hc.bytes,
        storedBy_write (hreach.buf_eq ▸ hw) rfl]
      simp
    | committed hreach _ _ _ _ hcom _ hh =>
      have hat : s'.dev.newEntry.buffptr = .null → s'.dev.newEntry.size = 0 := fun _ => hh.newEntry.size_eq
      refine ⟨?_, hat⟩
      rw [hcom, hh.pendCells_eq hat, List.flatten_append, List.flatten_singleton, List.append_nil,
        ← List.append_assoc, ← hpend, hc.bytes, storedBy_write (hreach.buf_eq ▸ hw) rfl]
      simp
  · have hnil : storedBy ⟨i, s, r⟩ = [] := by
      unfold storedBy
      split
      · rename_i hcall _; exact absurd hcall (hw _)
      · rfl
    rw [hnil, List.append_nil, hsys]
    exact ⟨hc.bytes, hc.attached⟩

/-- The allocations and user copies of a call succeed. -/
def Served (k : Kernel) (i : Invocation) (s : Sys) : Prop :=
  i.outcome.uncopied = 0 ∧ ∀ src, i.call = .write (some src) →
    ¬ k.Refuses i.outcome.kmalloc src.length ∧
    ¬ k.Refuses i.outcome.krealloc (s.dev.newEntry.size + src.length)

theorem Served.not_losesPending {i : Invocation} (hs : Served k i s) : ¬ LosesPending k i s :=
  fun ⟨src, hw, _, hr, _⟩ => (hs.2 src hw).2 hr

/-- A served call stores all its bytes, and leaves the lock free. -/
theorem Served.storedBy (hl : s.dev.lock = false) (h : Holds k s ring pend rest) {i : Invocation} {r : Return}
    (hs : Served k i s) (he : i.exec k s = .ok r) :
    Aesd.storedBy ⟨i, s, r⟩ = i.bytes ∧ r.sys.dev.lock = false := by
  rcases exec_cases h he with ⟨buf, hw, -, -, heff⟩ | ⟨hw, -, -, hlk⟩
  · obtain ⟨ret, data, fPos, s'⟩ := r
    simp only at heff
    have hreached : ∀ src, Reaches k i.outcome i.filp buf s src →
        Aesd.storedBy ⟨i, s, ⟨some src.length, data, fPos, s'⟩⟩ = i.bytes := by
      intro src hreach
      obtain ⟨f, hf, hpd⟩ := hreach.filp_eq
      rw [storedBy_write (hreach.buf_eq ▸ hw) rfl]
      simp [Invocation.bytes, hf, hw, hreach.buf_eq, hpd]
    cases heff with
    | refused hr =>
      refine ⟨?_, hl⟩
      rw [storedBy_of_error (by simp [EINVAL])]
      unfold Invocation.bytes
      rcases hr with hr | hr <;> simp [hw, hr]
    | noMemory _ hbuf hr => exact absurd hr (hs.2 _ (hbuf ▸ hw)).1
    | dropped hf hbuf _ hstop _ hd =>
      refine ⟨?_, by rw [hd]; exact hl⟩
      rcases hstop with ⟨hu, -⟩ | ⟨-, hpd, rfl⟩ | ⟨-, -, hl', -⟩
      · rw [hs.1] at hu; simp at hu
      · rw [storedBy_of_error (by simp [EINVAL])]
        simp [Invocation.bytes, hf, hw, hbuf, hpd]
      · rw [hl] at hl'; cases hl'
    | lost hreach hr => exact absurd (h.newEntry.size_eq ▸ hr) (hs.2 _ (hreach.buf_eq ▸ hw)).2
    | kept hreach _ _ _ hl => exact ⟨hreached _ hreach, hl⟩
    | committed hreach _ _ _ hl => exact ⟨hreached _ hreach, hl⟩
  · constructor
    · unfold Aesd.storedBy Invocation.bytes
      split
      · rename_i hcall _; exact absurd hcall (hw _)
      · split
        · rename_i hcall; exact absurd hcall (hw _)
        · rfl
    · rw [← Bool.not_eq_true, (hlk hl).2]
      rintro ⟨f, count, -, -, -, -, -, -, -, hu⟩
      exact hu hs.1

/-- Served calls lose no byte. -/
theorem runCalls_conserved (k : Kernel) (is : List Invocation) :
    ∃ evs s, runCalls k is aesdInitModule = .ok (evs, s) ∧ Ok k s ∧
      ((∀ e ∈ evs, Served k e.input e.before) →
        s.dev.lock = false ∧ Conserved (is.flatMap Invocation.bytes) s) := by
  obtain ⟨evs, s, hr, hok, hI⟩ := runCalls_induct k
    (fun evs s => (∀ e ∈ evs, Served k e.input e.before) →
      s.dev.lock = false ∧ Conserved (evs.flatMap (·.input.bytes)) s)
    (fun _ => ⟨rfl, rfl, fun _ => rfl⟩)
    (fun evs s i r ring pend rest h hI he hs => by
      obtain ⟨hl, hc⟩ := hI fun e hm => hs e (List.mem_append_left _ hm)
      have hserved : Served k i s := hs ⟨i, s, r⟩ (by simp)
      obtain ⟨hstored, hl'⟩ := hserved.storedBy hl h he
      have := hc.exec h hserved.not_losesPending he
      rw [hstored] at this
      exact ⟨hl', by simpa using this⟩)
    is
  have hin : evs.flatMap (·.input.bytes) = is.flatMap Invocation.bytes := by
    rw [← runAll_inputs hr, List.flatMap_map]
  rw [hin] at hI
  exact ⟨evs, s, hr, hok, hI⟩

/-- Byte conservation: after any calls whose allocations and user copies
succeed, the evicted entries, the stored ones from `out_offs` on and the pending
bytes are, end to end, the bytes written so far. Pending bytes hold no newline,
every stored entry holds one, and the stored entries are the last ten committed. -/
theorem bytes_conserved (k : Kernel) (is : List Invocation) :
    ∃ evs s, runCalls k is aesdInitModule = .ok (evs, s) ∧
      ((∀ e ∈ evs, Served k e.input e.before) →
        s.evicted.flatten ++ (ringCells s).flatten ++ pendCells s = (is.flatMap Invocation.bytes).map some ∧
        some newline ∉ pendCells s ∧ (∀ c ∈ ringCells s, some newline ∈ c) ∧
        s.committed = s.evicted ++ ringCells s ∧
        ringCells s = s.committed.rtake maxWriteOperationsSupported) := by
  obtain ⟨evs, s, hr, ⟨ring, pend, rest, h⟩, hI⟩ := runCalls_conserved k is
  refine ⟨evs, s, hr, fun hs => ?_⟩
  obtain ⟨-, hc⟩ := hI hs
  rw [h.ringCells, h.pendCells_eq hc.attached]
  refine ⟨?_, h.pend_line, ?_, h.history, h.latest⟩
  · rw [← hc.bytes, h.history, h.pendCells_eq hc.attached, List.flatten_append]
  · intro c hm
    obtain ⟨b, hb, rfl⟩ := List.mem_map.1 hm
    exact h.lines b hb

end Conservation

/-- Two writes, of which the second ends the line the first has begun. -/
theorem bytes_conserved_line :
    ∃ evs s, runCalls .pages4K
        [⟨some ⟨true, 0⟩, .write (some [97]), ⟨false, some 0, some 0, 0⟩⟩,
         ⟨some ⟨true, 0⟩, .write (some [98, newline]), ⟨false, some 0, some 0, 0⟩⟩] aesdInitModule = .ok (evs, s) ∧
      s.evicted.flatten ++ (ringCells s).flatten ++ pendCells s = [some 97, some 98, some newline] := by
  obtain ⟨evs, s, hr, h⟩ := bytes_conserved .pages4K
    [⟨some ⟨true, 0⟩, .write (some [97]), ⟨false, some 0, some 0, 0⟩⟩,
     ⟨some ⟨true, 0⟩, .write (some [98, newline]), ⟨false, some 0, some 0, 0⟩⟩]
  refine ⟨evs, s, hr, (h ?_).1⟩
  obtain ⟨rfl, rfl⟩ := Prod.mk.inj (Except.ok.inj (hr.symm.trans rfl))
  intro e he
  simp only [List.mem_cons, List.not_mem_nil, or_false] at he
  rcases he with rfl | rfl
  all_goals
    refine ⟨rfl, fun src hsrc => ?_⟩
    obtain rfl := Option.some.inj (Call.write.inj hsrc)
    decide

end Aesd
