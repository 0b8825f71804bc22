import Aesd.Server.Builds
import Aesd.Server.Process
import Aesd.SysLib.Blocks
/-!
# The files of the file build

With `USE_AESD_CHAR_DEVICE` set to 0, connections and calls of `timer_handler`
append to `/var/tmp/aesdsocketdata`. `Disk.Effect` says what each step of the
process does to the files. `open` may fail, and `write` may write less than it
is given.

A file that `remove` takes out of the directory goes on for those who have it
open. Files are numbered, and no number is used twice.
-/

namespace Aesd

open SysLib

/-! ## The time stamps -/

/-- `"timestamp:"` -/
def TIMESTAMP : List UInt8 := ['t', 'i', 'm', 'e', 's', 't', 'a', 'm', 'p', ':'].map fun c => c.toNat.toUInt8

/-- `line` of `timer_handler`, from what `strftime` has made of the time. -/
def timestampLine (timestamp : List UInt8) : List UInt8 := TIMESTAMP ++ timestamp ++ [newline]

/-! ## The files -/

/-- The file `FILE_PATH` leads to, and what the files hold. As history: which
file each owner of `file_mutex` has opened, who has acquired the mutex, in order,
what each has written, and whether a call of it has failed or written too little. -/
structure Disk where
  path : Option Nat
  contents : Nat → List UInt8
  count : Nat
  opened : Owner → Option Nat
  acquired : List Owner
  written : Owner → List UInt8
  short : Owner → Bool

namespace Disk

/-- `FILE_PATH` has these contents if it exists. -/
def start (before : Option (List UInt8)) : Disk where
  path := before.map fun _ => 0
  contents := fun i => if i = 0 then before.getD [] else []
  count := 1
  opened := fun _ => none
  acquired := []
  written := fun _ => []
  short := fun _ => false

variable (d : Disk)

def acquires (o : Owner) : Disk := { d with acquired := d.acquired ++ [o] }

/-- `open` with `O_CREAT` -/
def openFile (o : Owner) : Disk :=
  match d.path with
  | some i => { d with opened := Function.update d.opened o (some i) }
  | none =>
    { d with
      path := some d.count, contents := Function.update d.contents d.count [], count := d.count + 1,
      opened := Function.update d.opened o (some d.count) }

def fails (o : Owner) : Disk := { d with short := Function.update d.short o true }

/-- `write` with `O_APPEND` has written these bytes, out of `len`. -/
def write (o : Owner) (i : Nat) (bytes : List UInt8) (len : Nat) : Disk :=
  { d with
    contents := Function.update d.contents i (d.contents i ++ bytes),
    written := Function.update d.written o (d.written o ++ bytes),
    short := Function.update d.short o (d.short o || decide (bytes.length < len)) }

/-- The calls that leave the files alone, also as they fail. -/
def Quiet : Process.Action → Prop
  | .lock _ | .timerLock _ | .openFile _ _ | .timerOpen _ _ | .write _ | .timerWrite _ _ | .read _ _ => False
  | _ => True

/-- What a step of process `p` does to the files; `stamp i` is the time of call
`i` of `timer_handler`. -/
inductive Effect (stamp : Nat → List UInt8) (p : Process) (d : Disk) : Process.Action → Disk → Prop
  | lock (t : Nat) : Effect stamp p d (.lock t) (d.acquires (.thread t))
  | timerLock (i : Nat) : Effect stamp p d (.timerLock i) (d.acquires (.timer i))
  | openFile (t fd : Nat) : Effect stamp p d (.openFile t (some fd)) (d.openFile (.thread t))
  | openFails (t : Nat) : Effect stamp p d (.openFile t none) (d.fails (.thread t))
  | timerOpen (i fd : Nat) : Effect stamp p d (.timerOpen i (some fd)) (d.openFile (.timer i))
  | timerOpenFails (i : Nat) : Effect stamp p d (.timerOpen i none) (d.fails (.timer i))
  /-- An error writes nothing. -/
  | write {t f : Nat} {chunk : List UInt8} {node : List (List UInt8)} (n : Nat) :
      (p.client t).conn.stage = .write (chunk :: node) → d.opened (.thread t) = some f →
      Effect stamp p d (.write t) (d.write (.thread t) f (chunk.take n) chunk.length)
  | timerWrite {i f : Nat} (n : Nat) : d.opened (.timer i) = some f →
      Effect stamp p d (.timerWrite i true)
        (d.write (.timer i) f ((timestampLine (stamp i)).take n) (timestampLine (stamp i)).length)
  | timerWriteFails (i : Nat) : Effect stamp p d (.timerWrite i false) (d.fails (.timer i))
  /-- `O_WRONLY` -/
  | read {t f : Nat} (pos : Nat) : d.opened (.thread t) = some f →
      Effect stamp p d
        (.read t (((Descriptor.read ⟨.writeOnly, pos⟩ (d.contents f) BUFFER_SIZE).getD []).map some)) d
  | quiet {a : Process.Action} : Quiet a → Effect stamp p d a d

end Disk

/-! ## What one owner has written -/

/-- What a connection is to write into the file: what it has received, unless it is a seek command. -/
def Conn.packet (c : Conn) : List UInt8 :=
  if findCommand c.chunks AESDCHAR_IOCSEEKTO_CMD = none then c.chunks.flatten else []

/-- What a connection has written, the file it has opened, and whether it has failed to write something. -/
def Conn.Block (c : Conn) (written : List UInt8) (opened : Option Nat) (short : Bool) : Prop :=
  match c.stage with
  | .recv | .lock | .openFile => written = [] ∧ opened = none
  | .ioctl _ => written = [] ∧ findCommand c.chunks AESDCHAR_IOCSEEKTO_CMD ≠ none
  | .write node => c.fileFd = true ∧ findCommand c.chunks AESDCHAR_IOCSEEKTO_CMD = none ∧
      ∃ done, c.chunks = done ++ node ∧ written.Sublist done.flatten ∧ (short = false → written = done.flatten)
  | .send _ => False
  | .unlock | .read | .close | .finished => written.Sublist c.chunks.flatten ∧ (short = false → written = c.packet)

/-- The same for a call of `timer_handler`, whose line this is. -/
def Timer.Block (line : List UInt8) (s : Option Timer) (written : List UInt8) (opened : Option Nat) (short : Bool) :
    Prop :=
  match s with
  | none | some .lock | some .openFile => written = [] ∧ opened = none
  | some (.write _) => written = []
  | some (.close _) | some .unlock | some .returned => written <+: line ∧ (short = false → written = line)

namespace Conn

variable {c : Conn} {w : List UInt8} {f f' : Option Nat} {b b' : Bool}

theorem Block.recv (h : c.Block w f b) (hs : c.stage = .recv) (bytes : List UInt8) : (c.onRecv bytes).Block w f b := by
  simp only [Block, hs] at h
  by_cases hne : bytes = []
  · subst hne
    rw [onRecv_end, Block]
    exact h
  · by_cases hn : newline ∈ bytes
    · rw [onRecv_line c hne hn, Block]
      exact h
    · rw [onRecv_more c hne hn, Block]
      exact h

theorem Block.lock (h : c.Block w f b) (hs : c.stage = .lock) : c.onLock.Block w f b := by
  simp only [Block, hs] at h
  by_cases hne : c.chunks = []
  · rw [onLock_nothing c hne, Block]
    obtain ⟨rfl, -⟩ := h
    refine ⟨List.nil_sublist _, fun _ => ?_⟩
    rw [packet, hne]
    exact (ite_self _).symm
  · rw [onLock_data c hne, Block]
    exact h

/-- From `findCommand` on, if the file has been opened or that has failed. -/
theorem block_command (hf : c.fileFd = true ∨ b = true) : Conn.Block { c with stage := c.command } [] f b := by
  cases hfound : findCommand c.chunks AESDCHAR_IOCSEEKTO_CMD with
  | some seekto =>
    have hcmd : c.command = .ioctl seekto := by rw [command, hfound]
    simp only [hcmd, Block, hfound]
    exact ⟨trivial, Option.some_ne_none _⟩
  | none =>
    by_cases hloop : c.fileFd = true ∧ c.chunks ≠ []
    · have hcmd : c.command = .write c.chunks := by
        rw [command, hfound]
        exact if_pos hloop
      simp only [hcmd, Block, hfound]
      exact ⟨hloop.1, trivial, [], rfl, List.Sublist.refl _, fun _ => rfl⟩
    · have hcmd : c.command = .unlock := by
        rw [command, hfound]
        exact if_neg hloop
      simp only [hcmd, Block]
      refine ⟨List.nil_sublist _, fun hb => ?_⟩
      have hfd : c.fileFd = true := hf.resolve_right (by rw [hb]; exact Bool.false_ne_true)
      have hnil : c.chunks = [] := by
        by_contra hne
        exact hloop ⟨hfd, hne⟩
      rw [packet, hnil]
      exact (ite_self _).symm

theorem Block.openFile (h : c.Block w f b) (hs : c.stage = .openFile) (fileFd : Bool)
    (hb : fileFd = true ∨ b' = true) : (c.onOpen fileFd).Block w f' b' := by
  simp only [Block, hs] at h
  obtain ⟨rfl, -⟩ := h
  exact block_command (c := { c with fileFd := fileFd }) hb

theorem Block.ioctl (h : c.Block w f b) {seekto : AesdSeekto} (hs : c.stage = .ioctl seekto) :
    c.onIoctl.Block w f b := by
  simp only [Block, hs] at h
  obtain ⟨rfl, hfound⟩ := h
  refine ⟨List.nil_sublist _, fun _ => ?_⟩
  rw [packet, onIoctl, if_neg hfound]

/-- Part of the next chunk is written. -/
theorem Block.write (h : c.Block w f b) {chunk : List UInt8} {node : List (List UInt8)}
    (hs : c.stage = .write (chunk :: node)) (n : Nat) :
    (c.onWrite node).Block (w ++ chunk.take n) f (b || decide ((chunk.take n).length < chunk.length)) := by
  simp only [Block, hs] at h
  obtain ⟨hfd, hfound, done, hchunks, hsub, hfull⟩ := h
  have hchunks' : c.chunks = (done ++ [chunk]) ++ node := by rw [hchunks, List.append_assoc]; rfl
  have hsub' : (w ++ chunk.take n).Sublist (done ++ [chunk]).flatten := by
    rw [List.flatten_append, List.flatten_singleton]
    exact hsub.append (List.take_sublist _ _)
  have hfull' : (b || decide ((chunk.take n).length < chunk.length)) = false →
      w ++ chunk.take n = (done ++ [chunk]).flatten := by
    intro hb
    rw [Bool.or_eq_false_iff, decide_eq_false_iff_not, List.length_take] at hb
    have htake : chunk.take n = chunk := List.take_of_length_le (by omega)
    rw [htake, hfull hb.1, List.flatten_append, List.flatten_singleton]
  by_cases hnode : node = []
  · subst hnode
    rw [onWrite_last, Block]
    rw [List.append_nil] at hchunks'
    refine ⟨by rw [hchunks']; exact hsub', fun hb => ?_⟩
    rw [packet, if_pos hfound, hchunks']
    exact hfull' hb
  · rw [onWrite_more c hfd hnode, Block]
    exact ⟨hfd, hfound, _, hchunks', hsub', hfull'⟩

theorem Block.unlock (h : c.Block w f b) (hs : c.stage = .unlock) : c.onUnlock.Block w f b := by
  simp only [Block, hs] at h
  by_cases hfd : c.fileFd = true
  · simp only [onUnlock, if_pos hfd, Block]
    exact h
  · simp only [onUnlock, if_neg hfd, Block]
    exact h

/-- A read that fails is the last one. -/
theorem Block.read (h : c.Block w f b) (hs : c.stage = .read) : (c.onRead []).Block w f b := by
  simp only [Block, hs] at h
  exact h

theorem Block.close (h : c.Block w f b) (hs : c.stage = .close) : c.onClose.Block w f b := by
  simp only [Block, hs] at h
  exact h

end Conn

namespace Timer

variable {line w : List UInt8} {f f' : Option Nat} {b b' : Bool} {fd : Nat}

theorem Block.lock (h : Timer.Block line (some .lock) w f b) : Timer.Block line (some .openFile) w f b := h

theorem Block.openFile (h : Timer.Block line (some .openFile) w f b) (fd : Nat) :
    Timer.Block line (some (.write fd)) w f' b' := h.1

/-- `open` has failed, or `write` has. -/
theorem block_failed (hw : w = []) : Timer.Block line (some .unlock) w f true := by
  subst hw
  exact ⟨List.nil_prefix, fun hb => by cases hb⟩

/-- Part of the line is written. -/
theorem Block.write (h : Timer.Block line (some (.write fd)) w f b) (n : Nat) :
    Timer.Block line (some (.close fd)) (w ++ line.take n) f (b || decide ((line.take n).length < line.length)) := by
  obtain rfl : w = [] := h
  rw [List.nil_append]
  refine ⟨List.take_prefix _ _, fun hb => ?_⟩
  rw [Bool.or_eq_false_iff, decide_eq_false_iff_not, List.length_take] at hb
  exact List.take_of_length_le (by omega)

theorem Block.close (h : Timer.Block line (some (.close fd)) w f b) : Timer.Block line (some .unlock) w f b := h

theorem Block.unlock (h : Timer.Block line (some .unlock) w f b) : Timer.Block line (some .returned) w f b := h

end Timer

/-! ## The files, block by block -/

namespace Disk

variable {before : Option (List UInt8)} {d : Disk} {o : Owner}

/-- Every file holds what it held before and then the blocks of those who have
opened it, in the order in which they have acquired the mutex. -/
structure Ordered (before : Option (List UInt8)) (d : Disk) : Prop where
  nodup : d.acquired.Nodup
  opened_mem : ∀ o, d.opened o ≠ none → o ∈ d.acquired
  unopened : ∀ o, d.opened o = none → d.written o = []
  pos : 0 < d.count
  path_lt : ∀ i, d.path = some i → i < d.count
  opened_lt : ∀ o i, d.opened o = some i → i < d.count
  contents : ∀ i < d.count, d.contents i =
    (if i = 0 then before.getD [] else []) ++ blocks d.acquired (fun o => decide (d.opened o = some i)) d.written

theorem start_ordered (before : Option (List UInt8)) : (start before).Ordered before := by
  refine ⟨List.nodup_nil, fun o ho => absurd rfl ho, fun _ _ => rfl, Nat.one_pos, fun i hi => ?_, fun o i hi => ?_,
    fun i _ => ?_⟩
  · cases before with
    | none => cases hi
    | some bytes =>
      obtain rfl := Option.some.inj hi
      exact Nat.one_pos
  · cases hi
  · exact (List.append_nil _).symm

theorem Ordered.acquires (h : d.Ordered before) (ho : o ∉ d.acquired) : (d.acquires o).Ordered before := by
  have hnone : d.opened o = none := by
    by_contra hne
    exact ho (h.opened_mem o hne)
  refine ⟨?_, fun q hq => List.mem_append_left _ (h.opened_mem q hq), h.unopened, h.pos, h.path_lt, h.opened_lt,
    fun i hi => ?_⟩
  · rw [Disk.acquires, List.nodup_append]
    refine ⟨h.nodup, List.nodup_singleton o, fun q hq q' hq' => ?_⟩
    rw [List.mem_singleton] at hq'
    rintro rfl
    exact ho (hq' ▸ hq)
  · show d.contents i = _ ++ blocks (d.acquired ++ [o]) _ d.written
    rw [blocks_append, blocks_singleton, h.unopened o hnone, ite_self, List.append_nil]
    exact h.contents i hi

/-- What the opening owner has written does not count yet. -/
theorem blocks_openFile (hw : d.written o = []) (f i : Nat) :
    blocks d.acquired (fun q => decide (Function.update d.opened o (some f) q = some i)) d.written =
      blocks d.acquired (fun q => decide (d.opened q = some i)) d.written := by
  apply blocks_congr
  intro q _
  by_cases hq : q = o
  · exact .inr (hq ▸ hw)
  · exact .inl (by rw [Function.update_of_ne hq])

theorem openFile_existing {f : Nat} (hp : d.path = some f) :
    d.openFile o = { d with opened := Function.update d.opened o (some f) } := by rw [openFile, hp]

theorem openFile_new (hp : d.path = none) : d.openFile o =
    { d with
      path := some d.count, contents := Function.update d.contents d.count [], count := d.count + 1,
      opened := Function.update d.opened o (some d.count) } := by rw [openFile, hp]

theorem Ordered.openFile (h : d.Ordered before) (ho : o ∈ d.acquired) (hw : d.written o = []) :
    (d.openFile o).Ordered before := by
  -- who has opened a file, once `o` has opened `f`
  have hmem : ∀ (f : Nat) q, Function.update d.opened o (some f) q ≠ none → q ∈ d.acquired := by
    intro f q hq
    by_cases hqo : q = o
    · exact hqo ▸ ho
    · rw [Function.update_of_ne hqo] at hq
      exact h.opened_mem q hq
  have hunopened : ∀ (f : Nat) q, Function.update d.opened o (some f) q = none → d.written q = [] := by
    intro f q hq
    by_cases hqo : q = o
    · exact hqo ▸ hw
    · rw [Function.update_of_ne hqo] at hq
      exact h.unopened q hq
  have hlt : ∀ (f : Nat) q i, Function.update d.opened o (some f) q = some i → i = f ∨ i < d.count := by
    intro f q i hq
    by_cases hqo : q = o
    · rw [hqo, Function.update_self] at hq
      exact .inl (Option.some.inj hq).symm
    · rw [Function.update_of_ne hqo] at hq
      exact .inr (h.opened_lt q i hq)
  cases hp : d.path with
  | some f =>
    rw [openFile_existing hp]
    refine ⟨h.nodup, hmem f, hunopened f, h.pos, h.path_lt, fun q i hq => ?_, fun i hi => ?_⟩
    · rcases hlt f q i hq with rfl | hlt
      · exact h.path_lt _ hp
      · exact hlt
    · exact (h.contents i hi).trans (congrArg _ (blocks_openFile hw f i).symm)
  | none =>
    rw [openFile_new hp]
    refine ⟨h.nodup, hmem _, hunopened _, Nat.succ_pos _, fun i hi => ?_, fun q i hq => ?_, fun i hi => ?_⟩
    · rw [← Option.some.inj hi]
      exact Nat.lt_succ_self _
    · rcases hlt _ q i hq with rfl | hlt
      · exact Nat.lt_succ_self _
      · exact Nat.lt_succ_of_lt hlt
    · show Function.update d.contents d.count [] i = _ ++ blocks d.acquired _ d.written
      rw [blocks_openFile hw]
      by_cases hi' : i = d.count
      · subst hi'
        have hnone : blocks d.acquired (fun q => decide (d.opened q = some d.count)) d.written = [] := by
          apply blocks_eq_nil
          intro q _
          refine .inl (decide_eq_false fun hq => ?_)
          exact Nat.lt_irrefl _ (h.opened_lt q _ hq)
        rw [Function.update_self, hnone, if_neg (Nat.ne_of_gt h.pos), List.append_nil]
      · rw [Function.update_of_ne hi']
        exact h.contents i (Nat.lt_of_le_of_ne (Nat.le_of_lt_succ hi) hi')

theorem Ordered.fails (h : d.Ordered before) : (d.fails o).Ordered before :=
  ⟨h.nodup, h.opened_mem, h.unopened, h.pos, h.path_lt, h.opened_lt, h.contents⟩

/-- `remove` takes the file out of the directory. -/
theorem Ordered.unlink (h : d.Ordered before) : Ordered before { d with path := none } :=
  ⟨h.nodup, h.opened_mem, h.unopened, h.pos, fun _ hi => (by cases hi), h.opened_lt, h.contents⟩

theorem Ordered.write (h : d.Ordered before) {f : Nat} (hf : d.opened o = some f)
    (hlast : d.acquired.getLast? = some o) (bytes : List UInt8) (len : Nat) :
    (d.write o f bytes len).Ordered before := by
  refine ⟨h.nodup, h.opened_mem, fun q hq => ?_, h.pos, h.path_lt, h.opened_lt, fun i hi => ?_⟩
  · have hqo : q ≠ o := by
      rintro rfl
      rw [show d.opened q = none from hq] at hf
      cases hf
    show Function.update d.written o _ q = []
    rw [Function.update_of_ne hqo]
    exact h.unopened q hq
  · show Function.update d.contents f (d.contents f ++ bytes) i =
      _ ++ blocks d.acquired (fun q => decide (d.opened q = some i))
        (Function.update d.written o (d.written o ++ bytes))
    rw [blocks_update h.nodup hlast, ← List.append_assoc, ← h.contents i hi]
    by_cases hi' : i = f
    · subst hi'
      rw [Function.update_self, decide_eq_true hf, if_pos rfl]
    · have hne : decide (d.opened o = some i) = false :=
        decide_eq_false fun he => hi' (Option.some.inj (he.symm.trans hf))
      rw [Function.update_of_ne hi', hne, if_neg Bool.false_ne_true, List.append_nil]

end Disk

end Aesd
