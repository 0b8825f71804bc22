import Aesd.Server.Disk
import Aesd.Server.Turns
/-!
# The file build at work

Any number of connections and calls of `timer_handler` share
`/var/tmp/aesdsocketdata` and `file_mutex`, and `main` removes the file behind
its loop. Each step is a step of `Process`, with its effect on the files.
-/

namespace Aesd

open SysLib

/-- The process and the files; `removed` is set once `main` has called `remove`. -/
structure FileServer where
  proc : Process
  disk : Disk
  removed : Bool

namespace FileServer

def start (before : Option (List UInt8)) : FileServer := ⟨.start, .start before, false⟩

inductive Step (stamp : Nat → List UInt8) : FileServer → FileServer → Prop
  | call {n : FileServer} {a : Process.Action} {p : Process} {d : Disk} : (a = .leave → n.removed = true) →
      Process.Step false a n.proc p → Disk.Effect stamp n.proc n.disk a d → Step stamp n ⟨p, d, n.removed⟩
  | remove {n : FileServer} : n.proc.main = .leaving → n.removed = false →
      Step stamp n { n with disk := { n.disk with path := none }, removed := true }
  | removeFails {n : FileServer} : n.proc.main = .leaving → n.removed = false →
      Step stamp n { n with removed := true }

/-- A step of a run. -/
def AnyStep (stamp : Nat → List UInt8) (n n' : FileServer) : Prop := n.proc.Alive ∧ Step stamp n n'

end FileServer

/-! ## What every step keeps -/

namespace FileServer

variable {stamp : Nat → List UInt8} {before : Option (List UInt8)} {n n' : FileServer} {o : Owner}

/-- What `o` has written is as far as it has come. -/
def Block (stamp : Nat → List UInt8) (p : Process) (d : Disk) : Owner → Prop
  | .thread t => (p.client t).conn.Block (d.written (.thread t)) (d.opened (.thread t)) (d.short (.thread t))
  | .timer i => Timer.Block (timestampLine (stamp i)) (p.timer i) (d.written (.timer i)) (d.opened (.timer i))
      (d.short (.timer i))

structure Stored (stamp : Nat → List UInt8) (before : Option (List UInt8)) (p : Process) (d : Disk) : Prop where
  locking : p.Locking
  unborn : p.Unborn
  killed : p.killed = false
  block : ∀ o, Block stamp p d o
  past : ∀ o ∈ d.acquired, p.Past o
  holder : ∀ o, p.mutex = some o → d.acquired.getLast? = some o
  ordered : d.Ordered before

section Step

variable {p p' : Process} {d d' : Disk} {a : Process.Action}

/-- Nothing of `o` changes on the disk. -/
def Keeps (d d' : Disk) (o : Owner) : Prop :=
  d'.written o = d.written o ∧ d'.opened o = d.opened o ∧ d'.short o = d.short o

theorem openFile_written (d : Disk) (o : Owner) : (d.openFile o).written = d.written := by
  unfold Disk.openFile
  split <;> rfl

theorem openFile_short (d : Disk) (o : Owner) : (d.openFile o).short = d.short := by
  unfold Disk.openFile
  split <;> rfl

theorem openFile_acquired (d : Disk) (o : Owner) : (d.openFile o).acquired = d.acquired := by
  unfold Disk.openFile
  split <;> rfl

theorem openFile_keeps (d : Disk) {q : Owner} (hq : some q ≠ some o) : Keeps d (d.openFile q) o := by
  have hne : o ≠ q := by
    rintro rfl
    exact hq rfl
  refine ⟨by rw [openFile_written], ?_, by rw [openFile_short]⟩
  unfold Disk.openFile
  split <;> exact Function.update_of_ne hne _ _

theorem fails_keeps (d : Disk) {q : Owner} (hq : some q ≠ some o) : Keeps d (d.fails q) o := by
  have hne : o ≠ q := by
    rintro rfl
    exact hq rfl
  exact ⟨rfl, rfl, Function.update_of_ne hne _ _⟩

theorem write_keeps (d : Disk) {q : Owner} (hq : some q ≠ some o) (f : Nat) (bytes : List UInt8) (len : Nat) :
    Keeps d (d.write q f bytes len) o := by
  have hne : o ≠ q := by
    rintro rfl
    exact hq rfl
  exact ⟨Function.update_of_ne hne _ _, rfl, Function.update_of_ne hne _ _⟩

/-- A step changes nothing of the others on the disk. -/
theorem effect_keeps (he : Disk.Effect stamp p d a d') (ho : a.owner ≠ some o) : Keeps d d' o := by
  cases he with
  | openFile t fd => exact openFile_keeps d ho
  | openFails t => exact fails_keeps d ho
  | timerOpen i fd => exact openFile_keeps d ho
  | timerOpenFails i => exact fails_keeps d ho
  | write k => exact write_keeps d ho _ _ _
  | timerWrite k => exact write_keeps d ho _ _ _
  | timerWriteFails i => exact fails_keeps d ho
  | _ => exact ⟨rfl, rfl, rfl⟩

theorem block_same (hs : p.Same p' o) (hk : Keeps d d' o) (h : Block stamp p d o) : Block stamp p' d' o := by
  obtain ⟨hw, hf, hb⟩ := hk
  cases o with
  | thread t =>
    rw [Block, hw, hf, hb, hs]
    exact h
  | timer i =>
    rcases hs with hs | ⟨hnone, hlock⟩
    · rw [Block, hw, hf, hb, hs]
      exact h
    · rw [Block, hnone] at h
      rw [Block, hw, hf, hb, hlock]
      exact h

theorem block_of_client {t : Nat} {c : Client} (hc : p'.client = Function.update p.client t c)
    (h : c.conn.Block (d'.written (.thread t)) (d'.opened (.thread t)) (d'.short (.thread t))) :
    Block stamp p' d' (.thread t) := by
  rw [Block, hc, Function.update_self]
  exact h

theorem block_of_timer {i : Nat} {s : Timer} (ht : p'.timer = Function.update p.timer i (some s))
    (h : Timer.Block (timestampLine (stamp i)) (some s) (d'.written (.timer i)) (d'.opened (.timer i))
      (d'.short (.timer i))) : Block stamp p' d' (.timer i) := by
  rw [Block, ht, Function.update_self]
  exact h

/-- What a thread has written, after a step of it. -/
theorem block_thread {t : Nat} (hst : Process.Step false a p p') (he : Disk.Effect stamp p d a d')
    (ho : a.owner = some (.thread t)) (h : Block stamp p d (.thread t)) : Block stamp p' d' (.thread t) := by
  cases hst with
  | recv bytes hat =>
    obtain rfl := Owner.thread.inj (Option.some.inj ho)
    cases he
    exact block_of_client rfl (Conn.Block.recv h hat.2 bytes)
  | lock hat hm =>
    obtain rfl := Owner.thread.inj (Option.some.inj ho)
    cases he with
    | lock => exact block_of_client rfl (Conn.Block.lock h hat.2)
    | quiet hq => exact hq.elim
  | @openFile _ t r hat =>
    obtain rfl := Owner.thread.inj (Option.some.inj ho)
    cases he with
    | openFile _ fd =>
      refine block_of_client rfl ?_
      rw [openFile_written]
      exact Conn.Block.openFile h hat.2 true (.inl rfl)
    | openFails =>
      refine block_of_client rfl ?_
      show Conn.Block _ _ _ (Function.update d.short _ true _)
      rw [Function.update_self]
      exact Conn.Block.openFile h hat.2 false (.inr rfl)
    | quiet hq => exact hq.elim
  | ioctl hat =>
    obtain rfl := Owner.thread.inj (Option.some.inj ho)
    cases he
    exact block_of_client rfl (Conn.Block.ioctl h hat.2)
  | @write _ t chunk node hat =>
    obtain rfl := Owner.thread.inj (Option.some.inj ho)
    cases he with
    | @write _ f chunk' node' k hs hf =>
      obtain ⟨rfl, rfl⟩ := List.cons.inj (Stage.write.inj (hat.2.symm.trans hs))
      refine block_of_client rfl ?_
      show Conn.Block _ (Function.update d.written _ _ _) _ (Function.update d.short _ _ _)
      rw [Function.update_self, Function.update_self]
      exact Conn.Block.write h hat.2 k
    | quiet hq => exact hq.elim
  | unlock hat =>
    obtain rfl := Owner.thread.inj (Option.some.inj ho)
    cases he
    exact block_of_client rfl (Conn.Block.unlock h hat.2)
  | read buffer hat =>
    obtain rfl := Owner.thread.inj (Option.some.inj ho)
    cases he with
    | read pos hf => exact block_of_client rfl (Conn.Block.read h hat.2)
    | quiet hq => exact hq.elim
  | @send _ t buffer hat =>
    obtain rfl := Owner.thread.inj (Option.some.inj ho)
    rw [Block, Conn.Block, hat.2] at h
    exact h.elim
  | closeFile hat =>
    obtain rfl := Owner.thread.inj (Option.some.inj ho)
    cases he
    exact block_of_client rfl h
  | closeClient hat =>
    obtain rfl := Owner.thread.inj (Option.some.inj ho)
    cases he
    exact block_of_client rfl (Conn.Block.close h hat.2)
  | setDone hr hfin =>
    obtain rfl := Owner.thread.inj (Option.some.inj ho)
    cases he
    exact h
  | returns hd =>
    obtain rfl := Owner.thread.inj (Option.some.inj ho)
    cases he
    exact h
  | _ => cases ho

theorem block_timer {i : Nat} (hst : Process.Step false a p p') (he : Disk.Effect stamp p d a d')
    (ho : a.owner = some (.timer i)) (h : Block stamp p d (.timer i)) : Block stamp p' d' (.timer i) := by
  cases hst with
  | timerLock hi hm =>
    obtain rfl := Owner.timer.inj (Option.some.inj ho)
    rw [Block, hi] at h
    cases he with
    | timerLock => exact block_of_timer rfl h.lock
    | quiet hq => exact hq.elim
  | timerOpen r hi =>
    obtain rfl := Owner.timer.inj (Option.some.inj ho)
    rw [Block, hi] at h
    cases he with
    | timerOpen _ fd =>
      refine block_of_timer rfl ?_
      rw [openFile_written]
      exact h.openFile fd
    | timerOpenFails =>
      refine block_of_timer rfl ?_
      show Timer.Block _ _ _ _ (Function.update d.short _ true _)
      rw [Function.update_self]
      exact Timer.block_failed h.1
    | quiet hq => exact hq.elim
  | timerWrite ok hi =>
    obtain rfl := Owner.timer.inj (Option.some.inj ho)
    rw [Block, hi] at h
    cases he with
    | timerWrite k hf =>
      refine block_of_timer rfl ?_
      show Timer.Block _ _ (Function.update d.written _ _ _) _ (Function.update d.short _ _ _)
      rw [Function.update_self, Function.update_self]
      exact h.write k
    | timerWriteFails =>
      refine block_of_timer rfl ?_
      show Timer.Block _ _ _ _ (Function.update d.short _ true _)
      rw [Function.update_self]
      exact Timer.block_failed h
    | quiet hq => exact hq.elim
  | timerClose hi =>
    obtain rfl := Owner.timer.inj (Option.some.inj ho)
    rw [Block, hi] at h
    cases he
    exact block_of_timer rfl h.close
  | timerUnlock hi =>
    obtain rfl := Owner.timer.inj (Option.some.inj ho)
    rw [Block, hi] at h
    cases he
    exact block_of_timer rfl h.unlock
  | _ => cases ho

/-- What the one that makes the step has written, after it. -/
theorem block_own (hst : Process.Step false a p p') (he : Disk.Effect stamp p d a d') (ho : a.owner = some o)
    (h : Block stamp p d o) : Block stamp p' d' o := by
  cases o with
  | thread t => exact block_thread hst he ho h
  | timer i => exact block_timer hst he ho h

/-- The one that has opened a file, or writes, is the last one to have acquired the mutex. -/
theorem Stored.last (h : Stored stamp before p d) (hin : p.Inside o) : d.acquired.getLast? = some o :=
  h.holder o ((h.locking.exclusive o).1 hin)

theorem Stored.ordered_step (h : Stored stamp before p d) (hst : Process.Step false a p p')
    (he : Disk.Effect stamp p d a d') : d'.Ordered before := by
  have hout : ∀ {o}, p.WaitsFor o → o ∉ d.acquired := fun hw hm => hw.not_past (h.past _ hm)
  have hmem : ∀ {o}, p.Inside o → o ∈ d.acquired := fun hin => List.mem_of_getLast? (h.last hin)
  cases he with
  | lock t =>
    cases hst with
    | lock hat hm => exact h.ordered.acquires (hout hat)
  | timerLock i =>
    cases hst with
    | timerLock hi hm => exact h.ordered.acquires (hout hi)
  | openFile t fd =>
    cases hst with
    | openFile r hat =>
      have hb := h.block (.thread t)
      rw [Block, Conn.Block, hat.2] at hb
      refine h.ordered.openFile (hmem ?_) hb.1
      rw [Process.Inside, hat.toUnlock]
      exact Nat.succ_pos _
  | timerOpen i fd =>
    cases hst with
    | timerOpen r hi =>
      have hb := h.block (.timer i)
      rw [Block, hi] at hb
      refine h.ordered.openFile (hmem ?_) hb.1
      rw [Process.Inside, Process.toUnlock_timer hi]
      exact Nat.succ_pos _
  | @write t f chunk node k hs hf =>
    cases hst with
    | write hat =>
      refine h.ordered.write hf (h.last ?_) _ _
      rw [Process.Inside, hat.toUnlock]
      exact Nat.succ_pos _
  | @timerWrite i f k hf =>
    cases hst with
    | timerWrite ok hi =>
      refine h.ordered.write hf (h.last ?_) _ _
      rw [Process.Inside, Process.toUnlock_timer hi]
      exact Nat.succ_pos _
  | openFails t => exact h.ordered.fails
  | timerOpenFails i => exact h.ordered.fails
  | timerWriteFails i => exact h.ordered.fails
  | read pos hf => exact h.ordered
  | quiet hq => exact h.ordered

/-- Only `pthread_mutex_lock` adds to the order. -/
theorem effect_acquired (he : Disk.Effect stamp p d a d') : d'.acquired = d.acquired ++ a.locks.toList := by
  cases he with
  | lock t => rfl
  | timerLock i => rfl
  | openFile t fd => rw [openFile_acquired]; exact (List.append_nil _).symm
  | timerOpen i fd => rw [openFile_acquired]; exact (List.append_nil _).symm
  | quiet hq =>
    cases a with
    | lock t => exact hq.elim
    | timerLock i => exact hq.elim
    | _ => exact (List.append_nil _).symm
  | _ => exact (List.append_nil _).symm

theorem Stored.call (h : Stored stamp before p d) (hst : Process.Step false a p p')
    (he : Disk.Effect stamp p d a d') : Stored stamp before p' d' := by
  have hs := h.locking.sound
  have hacq := effect_acquired he
  refine ⟨h.locking.step hst, h.unborn.step hst, ?_, fun o => ?_, fun o ho => ?_, fun o ho => ?_, h.ordered_step hst he⟩
  · -- nobody sends
    cases hst with
    | @send _ t buffer hat =>
      have hb := h.block (.thread t)
      rw [Block, Conn.Block, hat.2] at hb
      exact hb.elim
    | _ => exact h.killed
  · by_cases ho : a.owner = some o
    · exact block_own hst he ho (h.block o)
    · exact block_same (hst.same hs h.unborn ho) (effect_keeps he ho) (h.block o)
  · rw [hacq] at ho
    rcases List.mem_append.1 ho with ho | ho
    · exact hst.past hs h.unborn (h.past o ho)
    · rcases hst.mutex with ⟨q, hq, -, -, hpast⟩ | ⟨hnone, -⟩
      · rw [hq] at ho
        obtain rfl := List.mem_singleton.1 ho
        exact hpast
      · rw [hnone] at ho
        cases ho
  · rw [hacq]
    rcases hst.mutex with ⟨q, hq, -, hm, -⟩ | ⟨hnone, hm | hm⟩
    · obtain rfl := Option.some.inj (hm.symm.trans ho)
      rw [hq]
      exact List.getLast?_concat
    · rw [hnone]
      rw [hm] at ho
      exact (congrArg List.getLast? (List.append_nil _)).trans (h.holder o ho)
    · rw [hm] at ho
      cases ho

end Step

theorem Stored.step (h : Stored stamp before n.proc n.disk) (hst : Step stamp n n') :
    Stored stamp before n'.proc n'.disk := by
  cases hst with
  | call _ hst he => exact h.call hst he
  | remove => exact ⟨h.locking, h.unborn, h.killed, h.block, h.past, h.holder, h.ordered.unlink⟩
  | removeFails => exact h

theorem start_stored (stamp : Nat → List UInt8) (before : Option (List UInt8)) :
    Stored stamp before (start before).proc (start before).disk := by
  refine ⟨Process.start_locking, fun _ _ => rfl, rfl, fun o => ?_, fun o ho => (by cases ho), fun o ho => (by cases ho),
    Disk.start_ordered before⟩
  cases o <;> exact ⟨rfl, rfl⟩

theorem stored_of_run {states : List FileServer} (hrun : Run (AnyStep stamp) (start before) states n) :
    Stored stamp before n.proc n.disk :=
  hrun.inv (fun n => Stored stamp before n.proc n.disk) (start_stored stamp before) fun _ _ h hst => h.step hst.2

/-- What an owner of the mutex brings. -/
def offered (stamp : Nat → List UInt8) (n : FileServer) : Owner → List UInt8
  | .thread t => (n.proc.client t).conn.chunks.flatten
  | .timer i => timestampLine (stamp i)

/-- What it stores, if all its calls succeed. -/
def payload (stamp : Nat → List UInt8) (n : FileServer) : Owner → List UInt8
  | .thread t => (n.proc.client t).conn.packet
  | .timer i => timestampLine (stamp i)

/-- Behind its section, an owner has written part of what it brings, or its payload if nothing failed. -/
theorem Stored.written (h : Stored stamp before n.proc n.disk) (ho : o ∈ n.disk.acquired) (hout : ¬ n.proc.Inside o) :
    (n.disk.written o).Sublist (n.offered stamp o) ∧
      (n.disk.short o = false → n.disk.written o = n.payload stamp o) := by
  have hpast := h.past o ho
  have hb := h.block o
  cases o with
  | thread t =>
    rw [Block, Conn.Block] at hb
    rw [Process.Inside, Process.toUnlock, Conn.toUnlock] at hout
    cases hs : (n.proc.client t).conn.stage with
    | recv => exact absurd hs hpast.1
    | lock => exact absurd hs hpast.2
    | send buffer => rw [hs] at hb; exact hb.elim
    | read => rw [hs] at hb; exact hb
    | close => rw [hs] at hb; exact hb
    | finished => rw [hs] at hb; exact hb
    | _ => rw [hs] at hout; exact absurd (Nat.succ_pos _) hout
  | timer i =>
    rw [Process.Inside, Process.toUnlock] at hout
    cases hs : n.proc.timer i with
    | none => exact absurd hs hpast.1
    | some s =>
      rw [Block, hs] at hb
      rw [hs] at hout
      cases s with
      | lock => exact absurd hs hpast.2
      | returned => exact ⟨hb.1.sublist, hb.2⟩
      | _ => exact absurd (Nat.succ_pos _) hout

/-! ## After `remove` -/

/-- What lasts once the directory entry is gone: the files that were there are
not at `FILE_PATH`, and nobody opens them any more. -/
structure Unlinked (d d' : Disk) : Prop where
  count_le : d.count ≤ d'.count
  path_new : ∀ i, d'.path = some i → d.count ≤ i
  opened_new : ∀ o, d'.opened o = d.opened o ∨ (d.opened o = none ∧ ∃ i, d'.opened o = some i ∧ d.count ≤ i)

theorem Unlinked.openFile {d d' : Disk} (h : Unlinked d d') (ho : d'.opened o = none) : Unlinked d (d'.openFile o) := by
  have hold : d.opened o = none := by
    rcases h.opened_new o with he | ⟨hn, -⟩
    · rw [← he, ho]
    · exact hn
  have hopened : ∀ f, d.count ≤ f → ∀ q, Function.update d'.opened o (some f) q = d.opened q ∨
      (d.opened q = none ∧ ∃ i, Function.update d'.opened o (some f) q = some i ∧ d.count ≤ i) := by
    intro f hf q
    by_cases hq : q = o
    · subst hq
      exact .inr ⟨hold, f, Function.update_self .., hf⟩
    · rw [Function.update_of_ne hq]
      exact h.opened_new q
  cases hp : d'.path with
  | some f =>
    rw [Disk.openFile_existing hp]
    exact ⟨h.count_le, fun i hi => h.path_new i hi, hopened f (h.path_new f hp)⟩
  | none =>
    rw [Disk.openFile_new hp]
    refine ⟨Nat.le_succ_of_le h.count_le, fun i hi => ?_, hopened _ h.count_le⟩
    rw [← Option.some.inj hi]
    exact h.count_le

theorem Unlinked.step {d : Disk} (h : Unlinked d n.disk) (hs : Stored stamp before n.proc n.disk)
    (hst : Step stamp n n') : Unlinked d n'.disk := by
  cases hst with
  | call _ hst he =>
    cases he with
    | openFile t fd =>
      cases hst with
      | openFile r hat =>
        have hb := hs.block (.thread t)
        rw [Block, Conn.Block, hat.2] at hb
        exact h.openFile hb.2
    | timerOpen i fd =>
      cases hst with
      | timerOpen r hi =>
        have hb := hs.block (.timer i)
        rw [Block, hi] at hb
        exact h.openFile hb.2
    | _ => exact ⟨h.count_le, h.path_new, h.opened_new⟩
  | remove => exact ⟨h.count_le, fun i hi => (by cases hi), h.opened_new⟩
  | removeFails => exact h

end FileServer

open FileServer

/-! ## Every run -/

section Results

variable {stamp : Nat → List UInt8} {before : Option (List UInt8)} {states : List FileServer} {n : FileServer}

/-- On a server without a file: a connection writes a line and comes to its read,
and then a call of `timer_handler` writes one. -/
theorem line_and_stamp (stamp : Nat → List UInt8) : ∃ states n states' n',
    Run (FileServer.AnyStep stamp) (FileServer.start none) states n ∧ n.proc.At 0 .read ∧
    Run (FileServer.AnyStep stamp) n states' n' ∧ n'.disk.acquired = [.thread 0, .timer 0] ∧ n'.disk.count = 2 ∧
    (n'.proc.client 0).conn.chunks = [[97, newline]] ∧
    (n'.disk.opened (.thread 0) = some 1 ∧ ¬ n'.proc.Inside (.thread 0) ∧ n'.disk.short (.thread 0) = false) ∧
    n'.disk.opened (.timer 0) = some 1 ∧ ¬ n'.proc.Inside (.timer 0) ∧ n'.disk.short (.timer 0) = false := by
  have hlen : (false || decide (((timestampLine (stamp 0)).take (timestampLine (stamp 0)).length).length <
      (timestampLine (stamp 0)).length)) = false := by
    rw [List.take_length, Bool.false_or]
    exact decide_eq_false (Nat.lt_irrefl _)
  have h0 : Run (FileServer.AnyStep stamp) (FileServer.start none) [] _ := .nil
  have h1 := h0.snoc ⟨⟨nofun, rfl⟩, .call (by intro h; cases h) (.loopTest rfl) (.quiet trivial)⟩
  have h2 := h1.snoc ⟨⟨nofun, rfl⟩, .call (by intro h; cases h) (.accept (some 4) rfl (fun _ _ => rfl))
    (.quiet trivial)⟩
  have h3 := h2.snoc ⟨⟨nofun, rfl⟩, .call (by intro h; cases h) (.examine rfl) (.quiet trivial)⟩
  have h4 := h3.snoc ⟨⟨nofun, rfl⟩, .call (by intro h; cases h) (.create 1 rfl rfl) (.quiet trivial)⟩
  have h5 := h4.snoc ⟨⟨nofun, rfl⟩, .call (by intro h; cases h) (.recv (t := 0) [97, newline] ⟨⟨1, rfl⟩, rfl⟩ (by decide))
    (.quiet trivial)⟩
  have h6 := h5.snoc ⟨⟨nofun, rfl⟩, .call (by intro h; cases h) (.lock (t := 0) ⟨⟨1, rfl⟩, rfl⟩ rfl) (.lock 0)⟩
  have h7 := h6.snoc ⟨⟨nofun, rfl⟩, .call (by intro h; cases h)
    (.openFile (t := 0) (some 5) ⟨⟨1, rfl⟩, rfl⟩ (fun fd h => by cases h; rfl)) (.openFile 0 5)⟩
  have h8 := h7.snoc ⟨⟨nofun, rfl⟩, .call (by intro h; cases h)
    (.write (t := 0) ⟨⟨1, rfl⟩, rfl⟩)
    (.write (f := 1) 2 rfl rfl)⟩
  have h9 := h8.snoc ⟨⟨nofun, rfl⟩, .call (by intro h; cases h) (.unlock (t := 0) ⟨⟨1, rfl⟩, rfl⟩) (.quiet trivial)⟩
  have hnil : ∀ {l n}, Run (FileServer.AnyStep stamp) (FileServer.start none) l n →
      Run (FileServer.AnyStep stamp) n [] n := fun _ => .nil
  have g0 := hnil h9
  have g1 := g0.snoc ⟨⟨nofun, rfl⟩, .call (by intro h; cases h) (.tick 0 rfl rfl) (.quiet trivial)⟩
  have g2 := g1.snoc ⟨⟨nofun, rfl⟩, .call (by intro h; cases h) (.timerLock (i := 0) rfl rfl) (.timerLock 0)⟩
  have g3 := g2.snoc ⟨⟨nofun, rfl⟩, .call (by intro h; cases h)
    (.timerOpen (i := 0) (some 6) rfl (fun fd h => by cases h; rfl)) (.timerOpen 0 6)⟩
  have g4 := g3.snoc ⟨⟨nofun, rfl⟩, .call (by intro h; cases h) (.timerWrite (i := 0) true rfl)
    (.timerWrite (f := 1) (timestampLine (stamp 0)).length rfl)⟩
  have g5 := g4.snoc ⟨⟨nofun, rfl⟩, .call (by intro h; cases h) (.timerClose (i := 0) rfl) (.quiet trivial)⟩
  have g6 := g5.snoc ⟨⟨nofun, rfl⟩, .call (by intro h; cases h) (.timerUnlock (i := 0) rfl) (.quiet trivial)⟩
  exact ⟨_, _, _, _, h9, ⟨⟨1, rfl⟩, rfl⟩, g6, rfl, rfl, rfl, ⟨rfl, Nat.lt_irrefl 0, rfl⟩, rfl, Nat.lt_irrefl 0, hlen⟩

/-- The file build sends nothing back, to no client, and so no client can
terminate it by resetting its connection. -/
theorem file_build_silent (hrun : Run (FileServer.AnyStep stamp) (FileServer.start before) states n) :
    n.proc.killed = false ∧ ∀ t buffer, ¬ n.proc.At t (.send buffer) := by
  have h := stored_of_run hrun
  refine ⟨h.killed, fun t buffer hat => ?_⟩
  have hb := h.block (.thread t)
  rw [FileServer.Block, Conn.Block, hat.2] at hb
  exact hb

/-- A connection that reads next. -/
theorem file_build_silent_read : ∃ states n,
    Run (FileServer.AnyStep fun _ => []) (FileServer.start none) states n ∧ n.proc.At 0 .read ∧
    n.proc.killed = false ∧ ∀ states' n', Run (FileServer.AnyStep fun _ => []) n states' n' →
      ∀ buffer, ¬ n'.proc.At 0 (.send buffer) := by
  obtain ⟨states, n, _, _, hrun, hat, -⟩ := line_and_stamp fun _ => []
  exact ⟨states, n, hrun, hat, (file_build_silent hrun).1,
    fun _ _ hrun' => (file_build_silent (hrun.append hrun')).2 0⟩

/-- Once `main` has removed the file, what `FILE_PATH` leads to, if a thread or a
call of `timer_handler` has still created it anew, holds just what those have
written that opened it after the removal. -/
theorem file_removed (hrun : Run (FileServer.AnyStep stamp) (FileServer.start before) states n)
    (hpath : n.disk.path = none) {states' : List FileServer} {n' : FileServer}
    (hrun' : Run (FileServer.AnyStep stamp) n states' n') {i : Nat} (hi : n'.disk.path = some i) :
    (∀ o, n'.disk.opened o = some i → n.disk.opened o = none) ∧
      n'.disk.contents i = blocks n'.disk.acquired (fun o => decide (n'.disk.opened o = some i)) n'.disk.written := by
  have h := stored_of_run hrun
  have hkeep := hrun'.inv (fun m => Stored stamp before m.proc m.disk ∧ Unlinked n.disk m.disk) ?_ ?_
  · obtain ⟨h', hun⟩ := hkeep
    have hnew := hun.path_new i hi
    refine ⟨fun o ho => ?_, ?_⟩
    · rcases hun.opened_new o with he | ⟨hnone, -⟩
      · rw [he] at ho
        exact absurd (h.ordered.opened_lt o i ho) (Nat.not_lt.2 hnew)
      · exact hnone
    · have hne : i ≠ 0 := Nat.ne_of_gt (Nat.lt_of_lt_of_le h.ordered.pos hnew)
      rw [h'.ordered.contents i (h'.ordered.path_lt i hi), if_neg hne, List.nil_append]
  · exact ⟨h, Nat.le_refl _, fun i hi => (by rw [hpath] at hi; cases hi), fun _ => .inl rfl⟩
  · rintro m m' ⟨hm, hun⟩ ⟨-, hst⟩
    exact ⟨hm.step hst, hun.step hm hst⟩

/-- A line that comes between `remove` and the end of `main` creates the file anew. -/
theorem file_removed_timer : ∃ states n states' n',
    Run (FileServer.AnyStep fun _ => [49]) (FileServer.start (some [97])) states n ∧
    n.removed = true ∧ Run (FileServer.AnyStep fun _ => [49]) n states' n' ∧ n'.disk.path = some 1 ∧
      n.disk.opened (.timer 0) = none ∧ n'.disk.contents 1 = timestampLine [49] := by
  have h0 : Run (FileServer.AnyStep fun _ => [49]) (FileServer.start (some [97])) [] _ := .nil
  have h1 := h0.snoc ⟨⟨nofun, rfl⟩, .call (by intro h; cases h) (.loopTest rfl) (.quiet trivial)⟩
  have h2 := h1.snoc ⟨⟨nofun, rfl⟩, .call (by intro h; cases h) (.accept none rfl nofun) (.quiet trivial)⟩
  have h3 := h2.snoc ⟨⟨nofun, rfl⟩, .call (by intro h; cases h) (.examine rfl) (.quiet trivial)⟩
  have h4 := h3.snoc ⟨⟨nofun, rfl⟩, .remove rfl rfl⟩
  have hnil : ∀ {l n}, Run (FileServer.AnyStep fun _ => [49]) (FileServer.start (some [97])) l n →
      Run (FileServer.AnyStep fun _ => [49]) n [] n := fun _ => .nil
  have g0 := hnil h4
  have g1 := g0.snoc ⟨⟨nofun, rfl⟩, .call (fun _ => rfl) (.tick 0 rfl rfl) (.quiet trivial)⟩
  have g2 := g1.snoc ⟨⟨nofun, rfl⟩, .call (fun _ => rfl) (.timerLock rfl rfl) (.timerLock 0)⟩
  have g3 := g2.snoc ⟨⟨nofun, rfl⟩, .call (fun _ => rfl) (.timerOpen (some 5) rfl (fun _ _ => rfl)) (.timerOpen 0 5)⟩
  have g4 := g3.snoc ⟨⟨nofun, rfl⟩, .call (fun _ => rfl) (.timerWrite true rfl)
    (.timerWrite (f := 1) 12 (Function.update_self ..))⟩
  obtain ⟨hnew, hcontents⟩ := file_removed h4 rfl g4 (i := 1) rfl
  exact ⟨_, _, _, _, h4, rfl, g4, rfl, hnew (.timer 0) rfl, hcontents.trans (by decide)⟩

end Results

end Aesd
