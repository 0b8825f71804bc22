import Aesd.Runs
/-!
# Writing a line in pieces

`aesd_write` looks for a newline in the bytes of the call, and commits all that
has collected when it finds one. So a line that arrives in several writes, some
of them empty, ends up as it would in one write: as the same entry in the same
slot, at the cost of the same old entry.
-/

namespace Aesd

open SysLib

/-! ## One write -/

theorem commitEntry_buffer {s t : Sys} (he : commitEntry s = .ok t) :
    t.dev.buffer = (s.dev.buffer.addEntry s.dev.newEntry).2 ∧ t.dev.newEntry = ⟨.null, 0⟩ := by
  simp only [commitEntry] at he
  split at he <;>
  · obtain ⟨heap, -, he⟩ := ok_of_bind he
    obtain rfl := Except.ok.inj he
    exact ⟨rfl, rfl⟩

/-- The locked part of a write moves the offsets of the ring only when it commits
an entry, which takes the pending one away. -/
theorem writeSection_buffer {k : Kernel} {o : Outcome} {kbuf : Ptr} {count : Nat} {writeToCb : Bool} {s : Sys}
    {out : Int × Sys} (he : writeSection k o kbuf count writeToCb s = .ok out) :
    out.1 = -ENOMEM ∨
      (out.2.dev.buffer = s.dev.buffer ∧ out.2.dev.newEntry.buffptr ≠ .null) ∨
      (∃ e, out.2.dev.buffer = (s.dev.buffer.addEntry e).2 ∧ out.2.dev.newEntry = ⟨.null, 0⟩) := by
  obtain ⟨⟨buffptr, heap⟩, -, he⟩ := ok_of_bind he
  by_cases hn : buffptr = .null
  · simp only [if_pos hn] at he
    obtain ⟨heap, -, he⟩ := ok_of_bind he
    obtain rfl := Except.ok.inj he
    exact .inl rfl
  · simp only [if_neg hn] at he
    obtain ⟨heap, -, he⟩ := ok_of_bind he
    cases writeToCb with
    | false =>
      obtain rfl := Except.ok.inj he
      exact .inr (.inl ⟨rfl, hn⟩)
    | true =>
      obtain ⟨t, hc, he⟩ := ok_of_bind he
      obtain rfl := Except.ok.inj he
      obtain ⟨hb, hnull⟩ := commitEntry_buffer hc
      exact .inr (.inr ⟨_, hb, hnull⟩)

theorem aesdWrite_buffer {k : Kernel} {o : Outcome} {filp : Option File} {buf : Option (List UInt8)} {fPos : Int}
    {s : Sys} {r : Return} (he : aesdWrite k o filp buf fPos s = .ok r) {ret : Int} (hret : r.ret = some ret)
    (h0 : 0 ≤ ret) :
    (r.sys.dev.buffer = s.dev.buffer ∧ r.sys.dev.newEntry.buffptr ≠ .null) ∨
      (∃ e, r.sys.dev.buffer = (s.dev.buffer.addEntry e).2 ∧ r.sys.dev.newEntry = ⟨.null, 0⟩) := by
  have hbad : ∀ {e : Int} {t : Sys}, 0 < e → Except.ok (ε := Fault) (⟨some (-e), [], fPos, t⟩ : Return) ≠ .ok r := by
    intro e t hpos heq
    rw [← Except.ok.inj heq] at hret
    have := Option.some.inj hret
    omega
  match filp, buf with
  | none, _ => exact absurd he (hbad (by decide))
  | some f, none => exact absurd he (hbad (by decide))
  | some f, some src =>
    simp only [aesdWrite] at he
    split at he
    · exact absurd he (hbad (by decide))
    obtain ⟨⟨heap, status⟩, -, he⟩ := ok_of_bind he
    simp only at he
    split at he
    · exact absurd he (hbad (by decide))
    obtain ⟨cells, -, he⟩ := ok_of_bind he
    split at he
    · exact absurd he (hbad (by decide))
    split at he
    · obtain ⟨out, hsec, he⟩ := ok_of_bind he
      obtain rfl := Except.ok.inj he
      rcases writeSection_buffer hsec with hneg | hmove
      · have : out.1 = ret := Option.some.inj hret
        rw [hneg] at this
        simp only [ENOMEM] at this
        omega
      · exact hmove
    · obtain rfl := Except.ok.inj he
      cases hret

section Pieces

variable {k : Kernel} {s t : Sys} {ring rest : List (Nat × List Cell)} {pend : List Cell} {o : Outcome} {f : File}
  {r : Return}

/-- A write whose allocations and copy succeed: it waits for ever, or it is complete. -/
theorem write_served (h : Holds k s ring pend rest) (hpd : f.privateData = true)
    {src : List UInt8} (hs : Served k ⟨some f, .write (some src), o⟩ s)
    (he : Call.exec k o (some f) (.write (some src)) s = .ok r) :
    (s.dev.lock = true ∧ r.ret = none) ∨
    (s.dev.lock = false ∧ r.ret = some (src.length : Int) ∧ r.sys.dev.lock = false ∧ ∃ rest',
      ((newline ∉ src ∧ r.sys.dev.buffer = s.dev.buffer ∧ r.sys.committed = s.committed ∧
        Holds k r.sys ring (pend ++ src.map some) rest') ∨
      (newline ∈ src ∧ (∃ e, r.sys.dev.buffer = (s.dev.buffer.addEntry e).2) ∧
        r.sys.committed = s.committed ++ [pend ++ src.map some] ∧
        ∃ i, Holds k r.sys (pushRing ring (i, pend ++ src.map some)) [] rest'))) := by
  obtain ⟨hu, hmem⟩ := hs
  obtain ⟨hkm, hkr⟩ := hmem src rfl
  rcases exec_cases (i := ⟨some f, .write (some src), o⟩) h he with ⟨buf, hw, -, -, heff⟩ | ⟨hw, -⟩
  case inr => exact absurd rfl (hw (some src))
  obtain rfl : some src = buf := Call.write.inj hw
  have hwrite : aesdWrite k o (some f) (some src) (filePos (some f)) s = .ok r := he
  have hmove := fun hret : r.ret = some (src.length : Int) => aesdWrite_buffer hwrite hret (Int.natCast_nonneg _)
  obtain ⟨ret, data, fPos, s'⟩ := r
  simp only at heff hmove
  cases heff with
  | refused hr => rcases hr with hr | hr <;> cases hr
  | noMemory hf hbuf hr =>
    obtain rfl := Option.some.inj hbuf
    exact absurd hr hkm
  | dropped hf hbuf _ hstop =>
    obtain rfl := Option.some.inj hf
    obtain rfl := Option.some.inj hbuf
    simp only at hu
    rcases hstop with ⟨hu', -⟩ | ⟨-, hpd', -⟩ | ⟨-, -, hl', hnone⟩
    · rw [hu, Nat.zero_min] at hu'
      exact absurd rfl hu'
    · rw [hpd] at hpd'; cases hpd'
    · exact .inl ⟨hl', hnone⟩
  | lost hreach hr =>
    obtain rfl := Option.some.inj hreach.buf_eq
    rw [← h.newEntry.size_eq] at hr
    exact absurd hr hkr
  | kept hreach _ hnl _ hl' hc hne hh =>
    obtain rfl := Option.some.inj hreach.buf_eq
    rcases hmove rfl with ⟨hb, -⟩ | ⟨_, -, hnull⟩
    · exact .inr ⟨hreach.unlocked, rfl, hl', _, .inl ⟨hnl, hb, hc, hh⟩⟩
    · rw [hnull] at hne
      exact absurd rfl hne
  | committed hreach _ hnl _ hl' hc hnull hh =>
    obtain rfl := Option.some.inj hreach.buf_eq
    rcases hmove rfl with ⟨-, hne⟩ | ⟨e, hb, -⟩
    · exact absurd hnull hne
    · exact .inr ⟨hreach.unlocked, rfl, hl', _, .inr ⟨hnl, ⟨e, hb⟩, hc, _, hh⟩⟩

theorem write_free (h : Holds k s ring pend rest) (hl : s.dev.lock = false) (hpd : f.privateData = true)
    {src : List UInt8} (hs : Served k ⟨some f, .write (some src), o⟩ s)
    (he : Call.exec k o (some f) (.write (some src)) s = .ok r) :
    r.ret = some (src.length : Int) ∧ r.sys.dev.lock = false ∧ ∃ rest',
      ((newline ∉ src ∧ r.sys.dev.buffer = s.dev.buffer ∧ r.sys.committed = s.committed ∧
        Holds k r.sys ring (pend ++ src.map some) rest') ∨
      (newline ∈ src ∧ (∃ e, r.sys.dev.buffer = (s.dev.buffer.addEntry e).2) ∧
        r.sys.committed = s.committed ++ [pend ++ src.map some] ∧
        ∃ i, Holds k r.sys (pushRing ring (i, pend ++ src.map some)) [] rest')) := by
  rcases write_served h hpd hs he with ⟨hl', -⟩ | ⟨-, hw⟩
  · rw [hl] at hl'
    cases hl'
  · exact hw

/-! ## The pieces -/

/-- Pieces written one after another on one file. -/
def writeCalls (f : File) (pieces : List (Outcome × List UInt8)) : List Invocation :=
  pieces.map fun p => ⟨some f, .write (some p.2), p.1⟩

/-- Pieces without a newline collect behind the pending bytes. -/
theorem writeCalls_kept (hpd : f.privateData = true) {pieces : List (Outcome × List UInt8)}
    (h : Holds k s ring pend rest) (hl : s.dev.lock = false) (hn : newline ∉ (pieces.map Prod.snd).flatten)
    {evs : List CallEvent} (hr : runCalls k (writeCalls f pieces) s = .ok (evs, t))
    (hs : ∀ e ∈ evs, Served k e.input e.before) :
    evs.map (·.output.ret) = pieces.map (fun p => some (p.2.length : Int)) ∧ t.dev.buffer = s.dev.buffer ∧
      t.committed = s.committed ∧ ∃ rest', Holds k t ring (pend ++ (pieces.map Prod.snd).flatten.map some) rest' := by
  induction pieces generalizing s pend rest evs with
  | nil =>
    obtain ⟨rfl, rfl⟩ := Prod.mk.inj (Except.ok.inj hr)
    exact ⟨rfl, rfl, rfl, rest, by simpa using h⟩
  | cons p pieces ih =>
    obtain ⟨r, evs', he, hr', rfl⟩ := runAll_cons hr
    rw [List.map_cons, List.flatten_cons, List.mem_append, not_or] at hn
    obtain ⟨hret, hl', rest', hw⟩ := write_free h hl hpd (hs _ List.mem_cons_self) he
    rcases hw with ⟨-, hb, hc, hh⟩ | ⟨hin, -⟩
    · obtain ⟨hrets, hb', hc', rest'', hh'⟩ := ih hh hl' hn.2 hr' fun e he => hs e (List.mem_cons_of_mem _ he)
      refine ⟨by rw [List.map_cons, List.map_cons, hret, hrets], hb'.trans hb, hc'.trans hc, rest'', ?_⟩
      rw [List.map_cons, List.flatten_cons, List.map_append, ← List.append_assoc]
      exact hh'
    · exact absurd hin hn.1

/-- A first piece of a line holds its end and is all of it, or is followed by the rest. -/
theorem cut_line {line bs cs : List UInt8} (hline : newline ∉ line) (h : bs ++ cs = line ++ [newline]) :
    (bs = line ++ [newline] ∧ cs = []) ∨ (newline ∉ bs ∧ ∃ line', line = bs ++ line' ∧ cs = line' ++ [newline]) := by
  rcases List.append_eq_append_iff.1 h with ⟨line', rfl, hcs⟩ | ⟨c, rfl, hend⟩
  · rw [List.mem_append, not_or] at hline
    exact .inr ⟨hline.1, line', rfl, hcs⟩
  · rcases List.append_eq_singleton_iff.1 hend.symm with ⟨rfl, rfl⟩ | ⟨rfl, rfl⟩
    · rw [List.append_nil]
      exact .inr ⟨hline, [], (List.append_nil _).symm, rfl⟩
    · exact .inl ⟨rfl, rfl⟩

/-- Pieces that make up a line are committed as one entry, behind the bytes that
were pending before them. -/
theorem writeCalls_line (hpd : f.privateData = true) {pieces : List (Outcome × List UInt8)} {line : List UInt8}
    (hline : newline ∉ line) (hcut : (pieces.map Prod.snd).flatten = line ++ [newline])
    (h : Holds k s ring pend rest) (hl : s.dev.lock = false)
    {evs : List CallEvent} (hr : runCalls k (writeCalls f pieces) s = .ok (evs, t))
    (hs : ∀ e ∈ evs, Served k e.input e.before) :
    evs.map (·.output.ret) = pieces.map (fun p => some (p.2.length : Int)) ∧
      (∃ e, t.dev.buffer = (s.dev.buffer.addEntry e).2) ∧
      t.committed = s.committed ++ [pend ++ (line ++ [newline]).map some] ∧
      ∃ i rest', Holds k t (pushRing ring (i, pend ++ (line ++ [newline]).map some)) [] rest' := by
  -- on the pieces, for any bytes pending before them
  induction pieces generalizing s pend rest evs line with
  | nil => simp at hcut
  | cons p pieces ih =>
    obtain ⟨r, evs', he, hr', rfl⟩ := runAll_cons hr
    obtain ⟨hret, hl', rest', hw⟩ := write_free h hl hpd (hs _ List.mem_cons_self) he
    have hs' : ∀ e ∈ evs', Served k e.input e.before := fun e he => hs e (List.mem_cons_of_mem _ he)
    rw [List.map_cons, List.flatten_cons] at hcut
    rcases cut_line hline hcut with ⟨hp, hnil⟩ | ⟨hp, line', rfl, hrest⟩
    · -- this piece ends the line; those behind it are empty
      have hin : newline ∈ p.2 := by rw [hp]; simp
      rcases hw with ⟨hn, -⟩ | ⟨-, hb, hc, i, hh⟩
      · exact absurd hin hn
      obtain ⟨hrets, hb', hc', rest'', hh'⟩ := writeCalls_kept hpd hh hl' (by rw [hnil]; exact List.not_mem_nil) hr' hs'
      rw [hnil, List.map_nil, List.append_nil] at hh'
      rw [hp] at hc hh'
      exact ⟨by rw [List.map_cons, List.map_cons, hret, hrets], by rw [hb']; exact hb, hc'.trans hc, i, rest'', hh'⟩
    · rcases hw with ⟨-, hb, hc, hh⟩ | ⟨hin, -⟩
      · rw [List.mem_append, not_or] at hline
        obtain ⟨hrets, hb', hc', i, rest'', hh'⟩ := ih hline.2 hrest hh hl' hr' hs'
        rw [hb] at hb'
        rw [hc] at hc'
        have hcells : pend ++ p.2.map some ++ (line' ++ [newline]).map some =
            pend ++ (p.2 ++ line' ++ [newline]).map some := by simp
        rw [hcells] at hc' hh'
        exact ⟨by rw [List.map_cons, List.map_cons, hret, hrets], hb', hc', i, rest'', hh'⟩
      · exact absurd hin hp

end Pieces

/-- The same ring, evicted entries, and pending bytes, of which there are none. -/
structure SameDevice (s t : Sys) : Prop where
  ringCells : ringCells s = ringCells t
  inOffs : s.dev.buffer.inOffs = t.dev.buffer.inOffs
  outOffs : s.dev.buffer.outOffs = t.dev.buffer.outOffs
  full : s.dev.buffer.full = t.dev.buffer.full
  evicted : s.evicted = t.evicted
  pending : pendCells s = [] ∧ s.dev.newEntry.size = 0 ∧ pendCells t = [] ∧ t.dev.newEntry.size = 0

section Same

variable {k : Kernel} {s t t' : Sys} {ring rest rest' : List (Nat × List Cell)} {i i' : Nat} {c : List Cell}
  {e e' : BufferEntry}

theorem sameDevice_of_push (hb : t.dev.buffer = (s.dev.buffer.addEntry e).2)
    (hb' : t'.dev.buffer = (s.dev.buffer.addEntry e').2) (hc : t.committed = s.committed ++ [c])
    (hc' : t'.committed = s.committed ++ [c]) (h : Holds k t (pushRing ring (i, c)) [] rest)
    (h' : Holds k t' (pushRing ring (i', c)) [] rest') : SameDevice t t' := by
  have hring : (pushRing ring (i, c)).map Prod.snd = (pushRing ring (i', c)).map Prod.snd := by
    rw [pushRing, pushRing, map_rtake, map_rtake, List.map_append, List.map_append]
    rfl
  have hhist : t.evicted ++ (pushRing ring (i, c)).map Prod.snd = t'.evicted ++ (pushRing ring (i, c)).map Prod.snd := by
    rw [← h.history, hring, ← h'.history, hc, hc']
  have hnone : ∀ {u : Sys} {l m : List (Nat × List Cell)}, Holds k u l [] m → pendCells u = [] ∧ u.dev.newEntry.size = 0 := by
    intro u l m hu
    refine ⟨?_, hu.newEntry.size_eq⟩
    rw [hu.pendCells]
    exact ite_self _
  refine ⟨?_, ?_, ?_, ?_, List.append_cancel_right hhist, (hnone h).1, (hnone h).2, (hnone h').1, (hnone h').2⟩
  · rw [h.ringCells, h'.ringCells, hring]
  · rw [hb, hb']; rfl
  · rw [hb, hb']; rfl
  · rw [hb, hb']; rfl

end Same

/-- On any device, with any bytes pending, a line written in any pieces, some of
them empty, leaves what one write of it leaves, if the allocations and copies
succeed and the one write returns: what the pieces return adds up to its length. -/
theorem write_split {k : Kernel} {s : Sys} (h : Ok k s) {f : File} (hpd : f.privateData = true) {line : List UInt8}
    (hline : newline ∉ line) {pieces : List (Outcome × List UInt8)}
    (hcut : (pieces.map Prod.snd).flatten = line ++ [newline]) (o : Outcome) :
    ∃ evs t r, runCalls k (writeCalls f pieces) s = .ok (evs, t) ∧
      Call.exec k o (some f) (.write (some (line ++ [newline]))) s = .ok r ∧
      (r.ret ≠ none → (∀ e ∈ evs, Served k e.input e.before) →
        Served k ⟨some f, .write (some (line ++ [newline])), o⟩ s →
        SameDevice t r.sys ∧ r.ret = some ((line ++ [newline]).length : Int) ∧
        ∃ rets : List Nat, evs.map (·.output.ret) = rets.map (fun n : Nat => some (n : Int)) ∧ rets.sum = (line ++ [newline]).length) := by
  have hrun : ∃ evs t, runCalls k (writeCalls f pieces) s = .ok (evs, t) ∧ Ok k t := by
    refine runAll_induct (fun _ s => Ok k s) ?_ _ h
    rintro _ s i ⟨_, _, _, h⟩
    obtain ⟨r, he⟩ := exec_total h i
    exact ⟨r, he, exec_holds h he⟩
  obtain ⟨evs, t, hr, -⟩ := hrun
  obtain ⟨ring, pend, rest, h⟩ := h
  obtain ⟨r, he⟩ := exec_total h ⟨some f, .write (some (line ++ [newline])), o⟩
  refine ⟨evs, t, r, hr, he, ?_⟩
  intro hret hs hs'
  rcases write_served h hpd hs' he with ⟨-, hnone⟩ | ⟨hl, hret', -, rest', hw⟩
  · exact absurd hnone hret
  rcases hw with ⟨hn, -⟩ | ⟨-, ⟨e, hb⟩, hc, i, hh⟩
  · simp at hn
  obtain ⟨hrets, ⟨e', hb'⟩, hc', i', rest'', hh'⟩ := writeCalls_line hpd hline hcut h hl hr hs
  refine ⟨sameDevice_of_push hb' hb hc' hc hh' hh, hret', pieces.map fun p => p.2.length, ?_, ?_⟩
  · rw [hrets, List.map_map]
    rfl
  · rw [← hcut, List.length_flatten, List.map_map]
    rfl

theorem write_split_line :
    ∃ evs t r, runCalls .pages4K (writeCalls ⟨true, 0⟩
        [(⟨false, some 0, some 0, 0⟩, [97]), (⟨false, some 0, some 0, 0⟩, [98, newline])]) aesdInitModule =
          .ok (evs, t) ∧
      Call.exec .pages4K ⟨false, some 0, some 0, 0⟩ (some ⟨true, 0⟩) (.write (some [97, 98, newline])) aesdInitModule =
        .ok r ∧ SameDevice t r.sys := by
  obtain ⟨evs, t, r, hr, he, h⟩ := @write_split .pages4K aesdInitModule ⟨[], [], [], holds_init .pages4K⟩ ⟨true, 0⟩ rfl
    [97, 98] (by decide) [(⟨false, some 0, some 0, 0⟩, [97]), (⟨false, some 0, some 0, 0⟩, [98, newline])] rfl
    ⟨false, some 0, some 0, 0⟩
  refine ⟨evs, t, r, hr, he, (h ?_ ?_ ?_).1⟩
  · obtain rfl := Except.ok.inj (he.symm.trans rfl)
    nofun
  · obtain ⟨rfl, rfl⟩ := Prod.mk.inj (Except.ok.inj (hr.symm.trans rfl))
    intro e he
    simp only [List.mem_cons, List.not_mem_nil, or_false] at he
    rcases he with rfl | rfl
    all_goals
      refine ⟨rfl, ?_⟩
      intro src hsrc
      obtain rfl := Option.some.inj (Call.write.inj hsrc)
      decide
  · refine ⟨rfl, ?_⟩
    intro src hsrc
    obtain rfl := Option.some.inj (Call.write.inj hsrc)
    decide

end Aesd
