import Aesd.Calls
/-!
# Reading to the end

A process reads one file over and over until a read returns 0. Reads with the
lock cut the contents into pieces, whatever counts they ask for, and the first 0
comes at the end. A read whose user copy fails returns 0 as well, and leaves the
lock held: the end it reports is none, and no later read gets as far as that.
-/

namespace Aesd

open SysLib

/-! ## One read -/

/-- What a read owes its caller: it returns; 0 says that nothing was asked for or
nothing is left; a signal, or a copy that fails with data at hand, is an error
and leaves the position. -/
structure EofTruthful (s : Sys) (o : Outcome) (f : File) (count : Nat) (r : Return) : Prop where
  returns : r.ret ≠ none
  zero_iff : r.ret = some 0 ↔ o.interrupted = false ∧ (count = 0 ∨ s.contents.length ≤ f.fPos)
  interrupted : o.interrupted = true → (∃ e, r.ret = some e ∧ e < 0) ∧ r.fPos = f.fPos
  faulted : o.interrupted = false → count ≠ 0 → f.fPos < s.contents.length → o.uncopied ≠ 0 →
    (∃ e, r.ret = some e ∧ e < 0) ∧ r.fPos = f.fPos

section Read

variable {k : Kernel} {s : Sys} {ring rest : List (Nat × List Cell)} {pend : List Cell} {o : Outcome} {f : File}

theorem Holds.read_cases (h : Holds k s ring pend rest) (h0 : 0 ≤ f.fPos) (hlt : f.fPos < 2 ^ 63) (o : Outcome)
    (count : Nat) :
    (s.contents.length ≤ f.fPos ∧ (device s).read o count f.fPos = ⟨0, [], f.fPos, true⟩) ∨
    (f.fPos < s.contents.length ∧ count ≠ 0 ∧ o.uncopied ≠ 0 ∧ ((device s).read o count f.fPos).retval = 0) ∨
    (f.fPos < s.contents.length ∧ (count = 0 ∨ o.uncopied = 0) ∧
      (((device s).read o count f.fPos).retval = 0 ↔ count = 0)) := by
  have hsz : toSizeT f.fPos = f.fPos.toNat := by unfold toSizeT; omega
  rw [h.contents_eq, h.device, Device.read, hsz]
  dsimp only
  by_cases hnil : restAt (ring.map Prod.snd) f.fPos.toNat = []
  · refine .inl ⟨?_, if_pos hnil⟩
    rw [restAt_eq_nil_iff] at hnil
    rw [contents]
    omega
  · rw [if_neg hnil]
    have hpos := List.length_pos_iff.2 hnil
    have hin : f.fPos < ((contents ring).length : Int) := by
      rw [restAt_eq_nil_iff] at hnil
      rw [contents]
      omega
    by_cases hu : min o.uncopied (min count (restAt (ring.map Prod.snd) f.fPos.toNat).length) = 0
    · rw [if_pos hu]
      refine .inr (.inr ⟨hin, by omega, ?_⟩)
      dsimp only
      omega
    · rw [if_neg hu]
      exact .inr (.inl ⟨hin, by omega, by omega, rfl⟩)

theorem faultedRead_iff (h : Holds k s ring pend rest) (hpd : f.privateData = true) (h0 : 0 ≤ f.fPos)
    (hlt : f.fPos < 2 ^ 63) (count : Nat) :
    FaultedRead o (some f) (.read true count) s ↔ o.interrupted = false ∧ s.dev.lock = false ∧
      f.fPos < s.contents.length ∧ count ≠ 0 ∧ o.uncopied ≠ 0 := by
  have hsz : toSizeT f.fPos = f.fPos.toNat := by unfold toSizeT; omega
  have hin : toSizeT f.fPos < s.dev.buffer.getLength ↔ f.fPos < (s.contents.length : Int) := by
    rw [hsz, h.getLength, h.contents_eq]
    omega
  unfold FaultedRead
  constructor
  · rintro ⟨_, _, hf, hc, -, hi, hl, hp, hn, hu⟩
    obtain rfl := Option.some.inj hf
    obtain ⟨-, rfl⟩ := Call.read.inj hc
    exact ⟨hi, hl, hin.1 hp, hn, hu⟩
  · rintro ⟨hi, hl, hp, hn, hu⟩
    exact ⟨f, count, rfl, rfl, hpd, hi, hl, hin.2 hp, hn, hu⟩

end Read

/-- In every reachable state, a read reports the end truthfully if and only if
its own user copy does not fail with data at hand, and the lock has not been
left held by one that did, unless a signal ends the wait for it. -/
theorem eof_truthful_iff (k : Kernel) (is : List Invocation) :
    ∃ evs s, runCalls k is aesdInitModule = .ok (evs, s) ∧
      ∀ (o : Outcome) (f : File) (count : Nat), f.privateData = true → 0 ≤ f.fPos → f.fPos < 2 ^ 63 →
        ∃ r, Call.exec k o (some f) (.read true count) s = .ok r ∧
          (EofTruthful s o f count r ↔
            ¬ FaultedRead o (some f) (.read true count) s ∧ (s.dev.lock = false ∨ o.interrupted = true)) := by
  obtain ⟨evs, s, hr, ⟨_, _, _, h⟩, -⟩ := runCalls_induct k (fun _ _ => True) trivial
    (fun _ _ _ _ _ _ _ _ _ _ => trivial) is
  refine ⟨evs, s, hr, ?_⟩
  intro o f count hpd h0 hlt
  rw [faultedRead_iff h hpd h0 hlt]
  cases hi : o.interrupted with
  | true =>
    refine ⟨_, read_interrupted hpd hi count, iff_of_true ?_ (by simp)⟩
    refine ⟨by simp, ?_, fun _ => ⟨⟨_, rfl, by decide⟩, rfl⟩, by simp [hi]⟩
    rw [hi]
    exact iff_of_false (by simp [ERESTARTSYS]) (by simp)
  | false =>
  cases hl : s.dev.lock with
  | true =>
    refine ⟨_, read_blocked hpd hi hl count, iff_of_false ?_ (by simp)⟩
    exact fun ht => ht.returns rfl
  | false =>
    obtain ⟨t, he⟩ := read_locked h hpd hi hl count
    refine ⟨_, he, ?_⟩
    rcases h.read_cases h0 hlt o count with ⟨hend, hread⟩ | ⟨hin, hn, hu, hread⟩ | ⟨hin, hok, hread⟩
    · refine iff_of_true ⟨by simp, ?_, by simp [hi], fun _ _ hin => absurd hin (by omega)⟩
        ⟨fun hf => by omega, .inl rfl⟩
      rw [hread]
      exact iff_of_true rfl ⟨hi, .inr hend⟩
    · -- the copy fails with data at hand
      refine iff_of_false (fun ht => ?_) fun hno => hno.1 ⟨rfl, rfl, hin, hn, hu⟩
      obtain ⟨e, he0, hneg⟩ := (ht.faulted hi hn hin hu).1
      rw [hread] at he0
      obtain rfl : 0 = e := Option.some.inj he0
      omega
    · refine iff_of_true ⟨by simp, ?_, by simp [hi], fun _ hn _ hu => (by omega)⟩ ⟨fun hf => by omega, .inl rfl⟩
      rw [Option.some.injEq, hread]
      constructor
      · exact fun hz => ⟨hi, .inl hz⟩
      · rintro ⟨-, hz | hz⟩
        · exact hz
        · omega

theorem eof_truthful_line :
    ∃ evs s r, runCalls .pages4K [⟨some ⟨true, 0⟩, .write (some [97, newline]), ⟨false, some 0, some 0, 0⟩⟩]
        aesdInitModule = .ok (evs, s) ∧
      Call.exec .pages4K ⟨false, none, none, 0⟩ (some ⟨true, 0⟩) (.read true 2) s = .ok r ∧
      EofTruthful s ⟨false, none, none, 0⟩ ⟨true, 0⟩ 2 r := by
  obtain ⟨evs, s, hr, h⟩ := eof_truthful_iff .pages4K
    [⟨some ⟨true, 0⟩, .write (some [97, newline]), ⟨false, some 0, some 0, 0⟩⟩]
  obtain ⟨rfl, rfl⟩ := Prod.mk.inj (Except.ok.inj (hr.symm.trans rfl))
  obtain ⟨r, he, hiff⟩ := h ⟨false, none, none, 0⟩ ⟨true, 0⟩ 2 rfl (by decide) (by decide)
  refine ⟨_, _, r, hr, he, hiff.2 ⟨?_, .inl rfl⟩⟩
  rintro ⟨_, _, -, -, -, -, -, -, -, hu⟩
  exact hu rfl

/-- One line is stored; a read of it whose copy fails returns 0, as at the end. -/
theorem eof_reported_early :
    ∃ evs s r, runCalls .pages4K [⟨some ⟨true, 0⟩, .write (some [97, newline]), ⟨false, some 0, some 0, 0⟩⟩]
        aesdInitModule = .ok (evs, s) ∧ s.contents = [some 97, some newline] ∧
      Call.exec .pages4K ⟨false, none, none, 2⟩ (some ⟨true, 0⟩) (.read true 2) s = .ok r ∧
      r.ret = some 0 ∧ ¬ EofTruthful s ⟨false, none, none, 2⟩ ⟨true, 0⟩ 2 r := by
  obtain ⟨evs, s, hr, hok, hdev⟩ := runCalls_device .pages4K
    [⟨some ⟨true, 0⟩, .write (some [97, newline]), ⟨false, some 0, some 0, 0⟩⟩]
  have hd : device s = ⟨⟨[[some 97, some newline]], []⟩, false, false⟩ := by rw [hdev]; decide +kernel
  obtain ⟨s', he, -, -⟩ := hok.exec
    ⟨some ⟨true, 0⟩, .read true 2, ⟨false, none, none, 2⟩⟩
    ⟨some 0, [], 0⟩ ⟨⟨[[some 97, some newline]], []⟩, false, true⟩ (by rw [hd]; decide +kernel)
  have hcont : s.contents = [some 97, some newline] := congrArg (fun d => d.log.entries.flatten) hd
  refine ⟨evs, s, _, hr, hcont, he, rfl, ?_⟩
  intro ht
  obtain ⟨e, he0, hneg⟩ := (ht.faulted rfl (by decide) (by rw [hcont]; decide) (by decide)).1
  obtain rfl : 0 = e := Option.some.inj he0
  omega

/-! ## Read after read -/

/-- Read `n` of a process that reads one file over and over. -/
def readAgain (k : Kernel) (o : Nat → Outcome) (counts : Nat → Nat) (f : File) (s : Sys) : Nat → Except Fault Return
  | 0 => Call.exec k (o 0) (some f) (.read true (counts 0)) s
  | n + 1 => do
    let r ← readAgain k o counts f s n
    Call.exec k (o (n + 1)) (some { f with fPos := r.fPos }) (.read true (counts (n + 1))) r.sys

def posBefore (f : File) (r : Nat → Return) : Nat → Int
  | 0 => f.fPos
  | n + 1 => (r n).fPos

/-- The reads deliver the contents from the position of the file on, in pieces of
at least one byte and at most as many as were asked for. The read behind the
last piece and all later ones return 0. -/
def Reproduces (s : Sys) (f : File) (counts : Nat → Nat) (r : Nat → Return) : Prop :=
  ∃ n, (∀ m, m < n → ∃ c : Nat, 1 ≤ c ∧ c ≤ counts m ∧ (r m).ret = some (c : Int) ∧ (r m).data.length = c ∧
      (r m).fPos = posBefore f r m + c) ∧
    ((List.range n).flatMap fun m => (r m).data) = s.contents.drop f.fPos.toNat ∧
    ∀ m, n ≤ m → (r m).ret = some 0 ∧ (r m).data = [] ∧ (r m).fPos = posBefore f r m

section ReadAgain

variable {k : Kernel} {s : Sys} {ring rest : List (Nat × List Cell)} {pend : List Cell} {o : Nat → Outcome}
  {counts : Nat → Nat} {f : File}

theorem readAgain_total (h : Ok k s) (o : Nat → Outcome) (counts : Nat → Nat) (f : File) :
    ∃ r : Nat → Return, ∀ n, readAgain k o counts f s n = .ok (r n) := by
  have hall : ∀ n, ∃ r, readAgain k o counts f s n = .ok r ∧ Ok k r.sys := by
    intro n
    induction n with
    | zero =>
      obtain ⟨_, _, _, h⟩ := h
      obtain ⟨r, he⟩ := exec_total h ⟨some f, .read true (counts 0), o 0⟩
      exact ⟨r, he, exec_holds h he⟩
    | succ n ih =>
      obtain ⟨r, hr, _, _, _, h⟩ := ih
      obtain ⟨r', he⟩ := exec_total h ⟨some { f with fPos := r.fPos }, .read true (counts (n + 1)), o (n + 1)⟩
      refine ⟨r', ?_, exec_holds h he⟩
      rw [readAgain, hr]
      exact he
  choose r hr using hall
  exact ⟨r, fun n => (hr n).1⟩

/-- Reads that all get the lock and their copies: each delivers what is left of
the entry at its position, and the positions are those of `readPos`. -/
theorem readAgain_done (h : Holds k s ring pend rest) (hl : s.dev.lock = false) (ho : ∀ n, (o n).Good)
    (hpd : f.privateData = true) (h0 : 0 ≤ f.fPos) (hlt : f.fPos < 2 ^ 63) {r : Nat → Return}
    (hr : ∀ n, readAgain k o counts f s n = .ok (r n)) (n : Nat) :
    (r n).sys = s ∧
      (r n).data = (restAt (ring.map Prod.snd) (readPos (ring.map Prod.snd) counts f.fPos.toNat n)).take (counts n) ∧
      posBefore f r n = (readPos (ring.map Prod.snd) counts f.fPos.toNat n : Nat) ∧
      (r n).fPos = posBefore f r n + (r n).data.length ∧ (r n).ret = some ((r n).data.length : Int) := by
  have hbound : ∀ n, readPos (ring.map Prod.snd) counts f.fPos.toNat n < 2 ^ 63 := by
    intro n
    have hle := @readPos_le Cell (ring.map Prod.snd) counts f.fPos.toNat n
    have hcont := h.contents_lt
    rw [contents] at hcont
    omega
  induction n with
  | zero =>
    have hpos : f.fPos = (f.fPos.toNat : Nat) := by omega
    obtain ⟨hsys, hdata, hnext, hret⟩ := read_done h hl (ho 0) hpd hpos (hbound 0) (hr 0)
    refine ⟨hsys, hdata, hpos, ?_, hret⟩
    rw [hnext, posBefore]
    omega
  | succ n ih =>
    obtain ⟨hsys, hdata, hbefore, hnext, -⟩ := ih
    have hpos : (r n).fPos = (readPos (ring.map Prod.snd) counts f.fPos.toNat (n + 1) : Nat) := by
      rw [hnext, hbefore, hdata, readPos]
      omega
    have he := hr (n + 1)
    rw [readAgain, hr n, ok_bind, hsys] at he
    obtain ⟨hsys', hdata', hnext', hret'⟩ := read_done (f := { f with fPos := (r n).fPos }) h hl (ho (n + 1)) hpd hpos
      (hbound (n + 1)) he
    refine ⟨hsys', hdata', hpos, ?_, hret'⟩
    rw [hnext', posBefore, hpos]
    omega

theorem readAgain_reproduces (h : Holds k s ring pend rest) (hl : s.dev.lock = false) (ho : ∀ n, (o n).Good)
    (hc : ∀ n, 0 < counts n) (hpd : f.privateData = true) (h0 : 0 ≤ f.fPos) (hlt : f.fPos < 2 ^ 63)
    {r : Nat → Return} (hr : ∀ n, readAgain k o counts f s n = .ok (r n)) : Reproduces s f counts r := by
  have hdone := readAgain_done h hl ho hpd h0 hlt hr
  obtain ⟨n, hin, hend⟩ := readPos_end (ring.map Prod.snd) f.fPos.toNat hc
  refine ⟨n, ?_, ?_, ?_⟩
  · intro m hm
    obtain ⟨-, hdata, -, hnext, hret⟩ := hdone m
    have hne := List.length_pos_iff.2 (take_restAt_ne_nil _ (hin m hm) (hc m))
    rw [← hdata] at hne
    refine ⟨_, hne, ?_, hret, rfl, hnext⟩
    rw [hdata, List.length_take]
    omega
  · have hall := flatMap_readPos (ring.map Prod.snd) counts f.fPos.toNat n
    rw [List.drop_eq_nil_of_le hend, List.append_nil] at hall
    rw [h.contents_eq, contents, ← hall]
    exact List.flatMap_congr fun m _ => (hdone m).2.1
  · intro m hm
    obtain ⟨-, hdata, -, hnext, hret⟩ := hdone m
    have hnil : (r m).data = [] := by
      rw [hdata, readPos_stay _ _ hend hm, restAt_of_le hend, List.take_nil]
    rw [hnil] at hnext hret
    exact ⟨hret, hnil, by rw [hnext]; simp⟩

/-- A read that is interrupted, or waits for ever, is not among reads that reproduce anything. -/
theorem Reproduces.returned {r : Nat → Return} (h : Reproduces s f counts r) (n : Nat) : ∃ c : Nat, (r n).ret = some (c : Int) := by
  obtain ⟨len, hin, -, hend⟩ := h
  rcases Nat.lt_or_ge n len with hlt | hge
  · obtain ⟨c, -, -, hret, -⟩ := hin n hlt
    exact ⟨c, hret⟩
  · exact ⟨0, (hend n hge).1⟩

end ReadAgain

/-- In every reachable state, and from every position, a process that reads one
file over and over gets the contents from there on and then 0 for ever, if and
only if nobody has left the lock held and no signal interrupts a read. -/
theorem sequential_reads_iff (k : Kernel) (is : List Invocation) :
    ∃ evs s, runCalls k is aesdInitModule = .ok (evs, s) ∧
      ∀ (f : File) (counts : Nat → Nat) (o : Nat → Outcome), f.privateData = true → 0 ≤ f.fPos → f.fPos < 2 ^ 63 →
        (∀ n, 0 < counts n) → (∀ n, (o n).uncopied = 0) →
        ∃ r : Nat → Return, (∀ n, readAgain k o counts f s n = .ok (r n)) ∧
          (Reproduces s f counts r ↔ s.dev.lock = false ∧ ∀ n, (o n).interrupted = false) := by
  obtain ⟨evs, s, hr, hok, -⟩ := runCalls_induct k (fun _ _ => True) trivial
    (fun _ _ _ _ _ _ _ _ _ _ => trivial) is
  refine ⟨evs, s, hr, ?_⟩
  intro f counts o hpd h0 hlt hc hu
  obtain ⟨r, hreads⟩ := readAgain_total hok o counts f
  refine ⟨r, hreads, ?_, ?_⟩
  · intro hrep
    -- an interrupted read returns an error
    have hno : ∀ (t : Sys) (g : File) (n : Nat), g.privateData = true →
        Call.exec k (o n) (some g) (.read true (counts n)) t = .ok (r n) → (o n).interrupted = false := by
      intro t g n hg he
      by_contra hi
      rw [Bool.not_eq_false] at hi
      obtain ⟨c, hret⟩ := hrep.returned n
      rw [← Except.ok.inj ((read_interrupted hg hi _).symm.trans he)] at hret
      have := Option.some.inj hret
      simp only [ERESTARTSYS] at this
      omega
    have hi : ∀ n, (o n).interrupted = false := by
      intro n
      cases n with
      | zero => exact hno _ _ 0 hpd (hreads 0)
      | succ n =>
        have he := hreads (n + 1)
        rw [readAgain, hreads n, ok_bind] at he
        exact hno _ _ (n + 1) (by exact hpd) he
    refine ⟨?_, hi⟩
    by_contra hl
    rw [Bool.not_eq_false] at hl
    obtain ⟨c, hret⟩ := hrep.returned 0
    rw [← Except.ok.inj ((read_blocked hpd (hi 0) hl _).symm.trans (hreads 0))] at hret
    cases hret
  · rintro ⟨hl, hi⟩
    obtain ⟨_, _, _, h⟩ := hok
    exact readAgain_reproduces h hl (fun n => ⟨hi n, hu n⟩) hc hpd h0 hlt hreads

theorem sequential_reads_line :
    ∃ evs s r, runCalls .pages4K [⟨some ⟨true, 0⟩, .write (some [97, 98, newline]), ⟨false, some 0, some 0, 0⟩⟩]
        aesdInitModule = .ok (evs, s) ∧
      (∀ n, readAgain .pages4K (fun _ => ⟨false, none, none, 0⟩) (fun _ => 1) ⟨true, 1⟩ s n = .ok (r n)) ∧
      Reproduces s ⟨true, 1⟩ (fun _ => 1) r := by
  obtain ⟨evs, s, hr, h⟩ := sequential_reads_iff .pages4K
    [⟨some ⟨true, 0⟩, .write (some [97, 98, newline]), ⟨false, some 0, some 0, 0⟩⟩]
  obtain ⟨rfl, rfl⟩ := Prod.mk.inj (Except.ok.inj (hr.symm.trans rfl))
  obtain ⟨r, hreads, hiff⟩ := h ⟨true, 1⟩ (fun _ => 1) (fun _ => ⟨false, none, none, 0⟩) rfl (by decide) (by decide)
    (fun _ => by decide) fun _ => rfl
  exact ⟨_, _, r, hr, hreads, hiff.2 ⟨rfl, fun _ => rfl⟩⟩

/-- One line is stored, and a read of it has failed: the next read waits for ever. -/
theorem reads_wait_forever :
    ∃ evs s r, runCalls .pages4K
        [⟨some ⟨true, 0⟩, .write (some [97, newline]), ⟨false, some 0, some 0, 0⟩⟩,
         ⟨some ⟨true, 0⟩, .read true 2, ⟨false, none, none, 2⟩⟩] aesdInitModule = .ok (evs, s) ∧
      s.contents = [some 97, some newline] ∧
      (∀ n, readAgain .pages4K (fun _ => ⟨false, none, none, 0⟩) (fun _ => 2) ⟨true, 0⟩ s n = .ok (r n)) ∧
      (r 0).ret = none ∧ ¬ Reproduces s ⟨true, 0⟩ (fun _ => 2) r := by
  obtain ⟨evs, s, hr, hok, hdev⟩ := runCalls_device .pages4K
    [⟨some ⟨true, 0⟩, .write (some [97, newline]), ⟨false, some 0, some 0, 0⟩⟩,
     ⟨some ⟨true, 0⟩, .read true 2, ⟨false, none, none, 2⟩⟩]
  have hd : device s = ⟨⟨[[some 97, some newline]], []⟩, false, true⟩ := by rw [hdev]; decide +kernel
  obtain ⟨r, hreads⟩ := readAgain_total hok (fun _ => ⟨false, none, none, 0⟩) (fun _ => 2) ⟨true, 0⟩
  have hnone : (r 0).ret = none := by
    rw [← Except.ok.inj ((read_blocked rfl rfl (congrArg Device.lock hd) 2).symm.trans (hreads 0))]
  refine ⟨evs, s, r, hr, congrArg (fun d => d.log.entries.flatten) hd, hreads, hnone, ?_⟩
  intro hrep
  obtain ⟨c, hret⟩ := hrep.returned 0
  rw [hnone] at hret
  cases hret

end Aesd
