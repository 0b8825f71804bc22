import Aesd.Calls
/-!
# Reading while others write

One open file is read from its start, while other processes write. The position
of the file counts from the oldest stored entry, so every eviction moves it
against the history of all bytes ever committed, but only forward: the reader
may miss bytes, and never gets one twice or out of order.
-/

namespace Aesd

open SysLib

/-- The system, the file that is read, and as history the bytes it has
delivered, each with its number among all bytes ever committed, and the bytes
the others have written. -/
structure Reading where
  sys : Sys
  file : File
  delivered : List (Cell × Nat)
  written : List UInt8

/-- The number of the byte at the position of the file. -/
def Reading.next (m : Reading) : Nat := m.sys.evicted.flatten.length + m.file.fPos.toNat

/-- The file is opened. -/
def Reading.start (s : Sys) : Reading := ⟨s, ⟨true, 0⟩, [], []⟩

/-- A read of the file, or a successful write of someone else. -/
inductive Reading.Step (k : Kernel) : Reading → Reading → Prop
  | read {m : Reading} {o : Outcome} {count : Nat} {r : Return} : o.uncopied = 0 →
      Call.exec k o (some m.file) (.read true count) m.sys = .ok r →
      Step k m ⟨r.sys, { m.file with fPos := r.fPos }, m.delivered ++ r.data.zipIdx m.next, m.written⟩
  | write {m : Reading} {o : Outcome} {f : File} {src : List UInt8} {r : Return} :
      Call.exec k o (some f) (.write (some src)) m.sys = .ok r → r.ret = some (src.length : Int) →
      Step k m { m with sys := r.sys, written := m.written ++ src }

/-- What holds of the file and the bytes it has delivered. -/
structure Reading.Ordered (k : Kernel) (m : Reading) : Prop where
  ok : Ok k m.sys
  free : m.sys.dev.lock = false
  seated : ∃ pos : Nat, m.file = ⟨true, pos⟩ ∧ pos < 2 ^ 63
  picks : Picks m.sys.committed.flatten m.next m.delivered

section Steps

variable {k : Kernel} {s : Sys} {m m' : Reading} {ring rest : List (Nat × List Cell)} {pend : List Cell} {o : Outcome}
  {f : File} {r : Return}

/-- The history from the oldest stored entry on is what is stored. -/
theorem Owns.committed_eq (h : Owns k s ring pend rest) :
    s.committed.flatten = s.evicted.flatten ++ contents ring := by
  rw [h.history, List.flatten_append, contents]

/-- A write adds to the history, and may evict. -/
theorem write_history (h : Holds k s ring pend rest) {src : List UInt8}
    (he : Call.exec k o (some f) (.write (some src)) s = .ok r) (hr : r.ret = some (src.length : Int)) :
    ∃ more, r.sys.committed = s.committed ++ more ∧ s.evicted.flatten.length ≤ r.sys.evicted.flatten.length := by
  obtain ⟨-, -, rest', hw⟩ := write_done h he hr
  rcases hw with ⟨-, hcom, -, hh⟩ | ⟨-, hcom, i, hh⟩
  · refine ⟨[], by rw [hcom, List.append_nil], Nat.le_of_eq ?_⟩
    have hsame : s.evicted.flatten ++ contents ring = r.sys.evicted.flatten ++ contents ring := by
      rw [← h.committed_eq, ← hh.committed_eq, hcom]
    rw [List.append_cancel_right hsame]
  · refine ⟨_, hcom, ?_⟩
    -- the ring has lost what it has not gained
    have hlen := congrArg List.length hh.committed_eq
    have hpush : (contents (pushRing ring (i, pend ++ src.map some))).length ≤
        (contents ring).length + (pend ++ src.map some).length := by
      have hsub : (pushRing ring (i, pend ++ src.map some)).map Prod.snd <:+ ring.map Prod.snd ++ [pend ++ src.map some] := by
        rw [pushRing, map_rtake, List.map_append, List.rtake]
        exact List.drop_suffix _ _
      obtain ⟨lost, hlost⟩ := hsub
      have := congrArg (fun l => l.flatten.length) hlost
      simp only [List.flatten_append, List.length_append, List.flatten_singleton] at this
      simp only [contents, List.length_append]
      omega
    rw [hcom, List.flatten_append, List.flatten_singleton, h.committed_eq] at hlen
    simp only [List.length_append] at hlen hpush
    omega

theorem Reading.Ordered.step (h : m.Ordered k) (hst : Reading.Step k m m') : m'.Ordered k := by
  obtain ⟨⟨ring, pend, rest, hh⟩, hl, ⟨pos, hfile, hlt⟩, hpicks⟩ := h
  cases hst with
  | @read o count r hu he =>
    cases hi : o.interrupted with
    | true =>
      rw [hfile] at he
      obtain rfl := Except.ok.inj ((read_interrupted rfl hi count).symm.trans he)
      refine ⟨⟨ring, pend, rest, hh⟩, hl, ⟨pos, by rw [hfile], hlt⟩, ?_⟩
      rw [List.zipIdx_nil, List.append_nil]
      rw [Reading.next, hfile] at hpicks
      exact hpicks
    | false =>
      rw [hfile] at he
      obtain ⟨hsys, hdata, hpos, -⟩ := read_done hh hl ⟨hi, hu⟩ rfl rfl hlt he
      have hprefix : r.data <+: (contents ring).drop pos := by
        rw [hdata, contents, drop_flatten]
        exact (List.take_prefix _ _).trans (List.prefix_append _ _)
      have hnext : m.next = m.sys.evicted.flatten.length + pos := by rw [Reading.next, hfile]; rfl
      have hend : pos + r.data.length < 2 ^ 63 := by
        have := hprefix.length_le
        have := hh.contents_lt
        rw [List.length_drop] at *
        omega
      refine ⟨by rw [hsys]; exact ⟨ring, pend, rest, hh⟩, by rw [hsys]; exact hl, ⟨_, by rw [hpos, hfile], hend⟩, ?_⟩
      rw [hnext] at hpicks ⊢
      have hdrop : m.sys.committed.flatten.drop (m.sys.evicted.flatten.length + pos) = (contents ring).drop pos := by
        rw [hh.committed_eq, ← List.drop_drop, List.drop_left]
      rw [← hdrop] at hprefix
      rw [Reading.next, hsys, hpos, Int.toNat_natCast, ← Nat.add_assoc]
      exact hpicks.read hprefix
  | @write o f src r he hr =>
    obtain ⟨-, hl', -⟩ := write_done hh he hr
    obtain ⟨more, hcom, hle⟩ := write_history hh he hr
    refine ⟨exec_holds (i := ⟨some f, .write (some src), o⟩) hh he, hl', ⟨pos, hfile, hlt⟩, ?_⟩
    have := hpicks.append more.flatten
    rw [← List.flatten_append, ← hcom] at this
    exact this.mono (Nat.add_le_add_right hle _)

/-- A write that is complete loses no byte. -/
theorem Conserved.write {stored : List UInt8} (hc : Conserved stored s) (h : Holds k s ring pend rest)
    {src : List UInt8} (he : Call.exec k o (some f) (.write (some src)) s = .ok r)
    (hr : r.ret = some (src.length : Int)) : Conserved (stored ++ src) r.sys := by
  have hpend := h.pendCells_eq hc.attached
  have hbytes := hc.bytes
  rw [hpend] at hbytes
  obtain ⟨-, -, rest', hw⟩ := write_done h he hr
  rcases hw with ⟨-, hcom, hne, hh⟩ | ⟨-, hcom, i, hh⟩
  · have hat : r.sys.dev.newEntry.buffptr = .null → r.sys.dev.newEntry.size = 0 := fun hn => absurd hn hne
    refine ⟨?_, hat⟩
    rw [hh.pendCells_eq hat, hcom, ← List.append_assoc, hbytes, List.map_append]
  · have hat : r.sys.dev.newEntry.buffptr = .null → r.sys.dev.newEntry.size = 0 := fun _ => hh.newEntry.size_eq
    refine ⟨?_, hat⟩
    rw [hh.pendCells_eq hat, hcom, List.flatten_append, List.flatten_singleton, List.append_nil, ← List.append_assoc,
      hbytes, List.map_append]

theorem Conserved.step {stored : List UInt8} (hc : Conserved (stored ++ m.written) m.sys) (h : m.Ordered k)
    (hst : Reading.Step k m m') : Conserved (stored ++ m'.written) m'.sys := by
  obtain ⟨⟨ring, pend, rest, hh⟩, hl, -, -⟩ := h
  cases hst with
  | @read o count r hu he =>
    have hsys : r.sys = m.sys := read_quiet hh hl (.inl hu) he
    rw [hsys]
    exact hc
  | write he hr =>
    have := hc.write hh he hr
    rwa [List.append_assoc] at this

end Steps

/-- One open file is read from position 0 in any reachable state, with the
reads of other counts and the successful writes of others in any order. The
numbers of the bytes delivered, among all bytes ever committed, increase, and
each is the committed byte with its number. If every call before was served,
the committed and the pending bytes are those that were written. -/
theorem reads_in_order (k : Kernel) (is : List Invocation) :
    ∃ evs s, runCalls k is aesdInitModule = .ok (evs, s) ∧
      (s.dev.lock = false → ∀ (l : List Reading) (m : Reading), Run (Reading.Step k) (Reading.start s) l m →
        (m.delivered.map Prod.snd).Pairwise (· < ·) ∧
        (∀ x ∈ m.delivered, m.sys.committed.flatten[x.2]? = some x.1) ∧
        ((∀ e ∈ evs, Served k e.input e.before) →
          m.sys.committed.flatten ++ pendCells m.sys = (is.flatMap Invocation.bytes ++ m.written).map some)) := by
  obtain ⟨evs, s, hr, hok, hcons⟩ := runCalls_conserved k is
  refine ⟨evs, s, hr, fun hl l m hrun => ?_⟩
  have hstart : (Reading.start s).Ordered k := ⟨hok, hl, ⟨0, rfl, by decide⟩, picks_nil _ _⟩
  have hord := hrun.inv (Reading.Ordered k) hstart fun _ _ h hst => h.step hst
  refine ⟨List.pairwise_map.2 hord.picks.increasing, hord.picks.numbered, fun hserved => ?_⟩
  obtain ⟨-, hc⟩ := hrun.inv (fun m => m.Ordered k ∧ Conserved (is.flatMap Invocation.bytes ++ m.written) m.sys)
    ⟨hstart, by rw [Reading.start, List.append_nil]; exact (hcons hserved).2⟩
    fun _ _ h hst => ⟨h.1.step hst, h.2.step h.1 hst⟩
  exact hc.bytes

/-- Ten lines, of which the file delivers the first; then another line evicts
it, and the next read goes on with the third. -/
theorem reads_in_order_evicted :
    ∃ evs s l m, runCalls .pages4K tenLines aesdInitModule = .ok (evs, s) ∧
      Run (Reading.Step .pages4K) (Reading.start s) l m ∧
      m.delivered.map Prod.fst = [some 48, some newline, some 50, some newline] ∧
      (m.delivered.map Prod.snd).Pairwise (· < ·) ∧
      (∀ x ∈ m.delivered, m.sys.committed.flatten[x.2]? = some x.1) := by
  obtain ⟨evs, s, hr, h⟩ := reads_in_order .pages4K tenLines
  obtain ⟨evs', s', hr', hok, hd⟩ := runCalls_tenLines
  obtain ⟨rfl, rfl⟩ := Prod.mk.inj (Except.ok.inj (hr'.symm.trans hr))
  let shifted : Device := ⟨⟨tenLinesDevice.log.entries.tail ++ [[some 98, some newline]], []⟩, false, false⟩
  obtain ⟨s1, he1, hok1, hd1⟩ := hok.exec
    ⟨some ⟨true, 0⟩, .read true 2, ⟨false, none, none, 0⟩⟩
    ⟨some 2, [some 48, some newline], 2⟩ tenLinesDevice (by rw [hd]; decide +kernel)
  obtain ⟨s2, he2, hok2, hd2⟩ := hok1.exec
    ⟨some ⟨true, 0⟩, .write (some [98, newline]), ⟨false, some 0, some 0, 0⟩⟩
    ⟨some 2, [], 0⟩ shifted (by rw [hd1]; decide +kernel)
  obtain ⟨s3, he3, hok3, hd3⟩ := hok2.exec
    ⟨some ⟨true, 2⟩, .read true 2, ⟨false, none, none, 0⟩⟩
    ⟨some 2, [some 50, some newline], 4⟩ shifted (by rw [hd2]; decide +kernel)
  have h0 : Run (Reading.Step .pages4K) (Reading.start s') [] _ := .nil
  have h1 := h0.snoc (.read rfl he1)
  have h2 := h1.snoc (.write he2 rfl)
  have h3 := h2.snoc (.read rfl he3)
  obtain ⟨hinc, hnum, -⟩ := h (congrArg Device.lock hd) _ _ h3
  exact ⟨evs', s', _, _, hr, h3, rfl, hinc, hnum⟩

end Aesd
