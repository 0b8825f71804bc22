import Aesd.Memory
import Aesd.Device
/-!
# The life of the module

A run of the machine from boot: the module is loaded and unloaded, its device is
opened, called and released, in any order and any number of times. `Host.exec`
is one such operation. `aesd_init_module`, `aesd_cleanup_module`, `aesd_open` and
`aesd_release` are the driver's; the rest is the kernel's, after its documentation:
an operation without a device, a file or a module to work on is refused, a module
in use is not unloaded, memory that is not freed outlives the module, and a signal
ends a wait in `mutex_lock_interruptible`.

`Node` is what of this the users see, a device that is there or is not. Every
operation answers as it does on the node (`Host.Sound.exec`).
-/

namespace Aesd

open SysLib

def ENOENT : Int := 2
def ENXIO : Int := 6
def EBADF : Int := 9
def EWOULDBLOCK : Int := 11
def EEXIST : Int := 17

/-- How a load's two registrations go: 0, or an error. -/
structure Registration where
  allocChrdevRegion : Int
  cdevAdd : Int
  alloc_le : allocChrdevRegion ≤ 0
  cdevAdd_le : cdevAdd ≤ 0

/-- An open file. Its one user may be in a call that waits for the device's lock. -/
structure OpenFile where
  file : File
  waiting : Option Call

abbrev Files := List (Nat × OpenFile)

/-- The machine: the device and the memory, whether the module has a device
number and a registered `cdev`, whether it is loaded, and the open files by
descriptor. `sys.dev` is the module's own memory: it means nothing while no
module is loaded. -/
structure Host where
  sys : Sys
  region : Bool
  cdev : Bool
  loaded : Bool
  files : Files

/-! ## Loading and unloading -/

/-- `aesd_setup_cdev` -/
def Host.setupCdev (r : Registration) (h : Host) : Int × Host :=
  if r.cdevAdd ≠ 0 then (r.cdevAdd, h) else (0, { h with cdev := true })

/-- `aesd_init_module` -/
def Host.initModule (r : Registration) (h : Host) : Int × Host :=
  if r.allocChrdevRegion < 0 then (r.allocChrdevRegion, h)
  else
    let h := { h with region := true, sys := { aesdInitModule with heap := h.sys.heap } }
    let (result, h) := h.setupCdev r
    if result ≠ 0 then (result, { h with region := false }) else (result, h)

/-- `aesd_cleanup_module` -/
def Host.cleanupModule (h : Host) : Except Fault Host := do
  let heap ← aesdCleanupModule h.sys
  .ok { h with sys := { h.sys with heap := heap }, cdev := false, region := false }

/-! ## Operations -/

inductive Op where
  | initModule (r : Registration)
  | cleanupModule
  | openFile (fd : Nat)
  | call (fd : Nat) (c : Call) (o : Outcome)
  /-- The user of the file gets a signal. -/
  | signal (fd : Nat)
  | release (fd : Nat)

/-- An answer that is no more than a value. -/
def Reply.code (ret : Int) : Reply := ⟨some ret, [], 0⟩

def OpenFile.busy (f : OpenFile) : Bool := f.waiting.isSome

/-- The file after a call: the kernel writes the position back. -/
def OpenFile.after (f : OpenFile) (c : Call) (r : Reply) : OpenFile :=
  ⟨{ f.file with fPos := r.fPos }, if r.ret = none then some c else none⟩

/-- The user is inside a call that does not return. -/
def OpenFile.stuck (f : OpenFile) : Reply := ⟨none, [], f.file.fPos⟩

/-- A signal ends a wait in `mutex_lock_interruptible`, and the call returns its
error. It does not end the wait of `aesd_write`, which is in `mutex_lock`. -/
def OpenFile.signal (f : OpenFile) : Reply × OpenFile :=
  match f.waiting with
  | none => (.code 0, f)
  | some (.write _) => (f.stuck, f)
  | some _ => (⟨some (-ERESTARTSYS), [], f.file.fPos⟩, { f with waiting := none })

def Files.put (files : Files) (fd : Nat) (f : OpenFile) : Files :=
  files.map fun x => if x.1 = fd then (fd, f) else x

def Files.close (files : Files) (fd : Nat) : Files := files.filter fun x => x.1 ≠ fd

def Host.exec (k : Kernel) (op : Op) (h : Host) : Except Fault (Reply × Host) :=
  match op with
  | .initModule r =>
    if h.loaded = true then .ok (.code (-EEXIST), h)
    else
      let (result, h) := h.initModule r
      .ok (.code result, { h with loaded := result = 0 })
  | .cleanupModule =>
    if h.loaded = false then .ok (.code (-ENOENT), h)
    else if h.files ≠ [] then .ok (.code (-EWOULDBLOCK), h)
    else do
      let h ← h.cleanupModule
      .ok (.code 0, { h with loaded := false })
  | .openFile fd =>
    if h.cdev = false then .ok (.code (- ENXIO), h)
    else
      match h.files.lookup fd with
      | some _ => .ok (.code (-EBADF), h)
      | none =>
        let (ret, filp) := aesdOpen ⟨false, 0⟩
        .ok (.code ret, { h with files := (fd, ⟨filp, none⟩) :: h.files })
  | .call fd c o =>
    match h.files.lookup fd with
    | none => .ok (.code (-EBADF), h)
    | some f =>
      if f.busy = true then .ok (f.stuck, h)
      else do
        let r ← Invocation.exec k ⟨some f.file, c, o⟩ h.sys
        .ok (r.reply, { h with sys := r.sys, files := h.files.put fd (f.after c r.reply) })
  | .signal fd =>
    match h.files.lookup fd with
    | none => .ok (.code (-EBADF), h)
    | some f => .ok (f.signal.1, { h with files := h.files.put fd f.signal.2 })
  | .release fd =>
    match h.files.lookup fd with
    | none => .ok (.code (-EBADF), h)
    | some f =>
      if f.busy = true then .ok (f.stuck, h)
      else .ok (.code (aesdRelease f.file).1, { h with files := h.files.close fd })

/-- A machine that has just booted. -/
def Host.boot : Host := ⟨aesdInitModule, false, false, false, []⟩

abbrev OpEvent := Event Op Host (Reply × Host)

/-- Operations one after another. -/
def runOps (k : Kernel) (ops : List Op) (h : Host) : Except Fault (List OpEvent × Host) :=
  runAll (Host.exec k) Prod.snd ops h

/-- An operation that leaks: a call that loses the pending bytes or its `kbuf`. -/
def OpEvent.Leaks (k : Kernel) (e : OpEvent) : Prop :=
  ∃ fd c o f, e.input = .call fd c o ∧ e.before.files.lookup fd = some f ∧ f.busy = false ∧
    (LosesPending k ⟨some f.file, c, o⟩ e.before.sys ∨ LeavesKbuf k ⟨some f.file, c, o⟩ e.before.sys)

/-! ## What the users see -/

/-- A device that is there or is not, and the open files. -/
structure Node where
  device : Option Device
  files : Files

/-- The device of a module that has just been loaded. -/
def Device.fresh : Device := ⟨⟨[], []⟩, false, false⟩

def Node.exec (k : Kernel) (op : Op) (n : Node) : Reply × Node :=
  match op, n.device with
  | .initModule _, some _ => (.code (-EEXIST), n)
  | .initModule r, none =>
    if r.allocChrdevRegion < 0 then (.code r.allocChrdevRegion, n)
    else if r.cdevAdd ≠ 0 then (.code r.cdevAdd, n)
    else (.code 0, { n with device := some Device.fresh })
  | .cleanupModule, none => (.code (-ENOENT), n)
  | .cleanupModule, some _ =>
    if n.files ≠ [] then (.code (-EWOULDBLOCK), n) else (.code 0, { n with device := none })
  | .openFile _, none => (.code (- ENXIO), n)
  | .openFile fd, some _ =>
    match n.files.lookup fd with
    | some _ => (.code (-EBADF), n)
    | none => (.code 0, { n with files := (fd, ⟨⟨true, 0⟩, none⟩) :: n.files })
  | .call fd c o, some d =>
    match n.files.lookup fd with
    | none => (.code (-EBADF), n)
    | some f =>
      if f.busy = true then (f.stuck, n)
      else
        let (reply, d') := d.exec k ⟨some f.file, c, o⟩
        (reply, ⟨some d', n.files.put fd (f.after c reply)⟩)
  | .call _ _ _, none => (.code (-EBADF), n)
  | .signal fd, _ =>
    match n.files.lookup fd with
    | none => (.code (-EBADF), n)
    | some f => (f.signal.1, { n with files := n.files.put fd f.signal.2 })
  | .release fd, _ =>
    match n.files.lookup fd with
    | none => (.code (-EBADF), n)
    | some f => if f.busy = true then (f.stuck, n) else (.code 0, { n with files := n.files.close fd })

/-- Operations one after another, with their answers. -/
def Node.run (k : Kernel) : List Op → Node → List Reply × Node
  | [], n => ([], n)
  | op :: ops, n =>
    let (reply, n) := n.exec k op
    let (replies, n) := Node.run k ops n
    (reply :: replies, n)

/-- The node a machine shows. -/
def Host.node (h : Host) : Node := ⟨if h.loaded = true then some (device h.sys) else none, h.files⟩

section Node

variable {k : Kernel} {n : Node}

theorem Node.run_append (ops ops' : List Op) : n.run k (ops ++ ops') =
    ((n.run k ops).1 ++ ((n.run k ops).2.run k ops').1, ((n.run k ops).2.run k ops').2) := by
  induction ops generalizing n with
  | nil => rfl
  | cons op ops ih => simp only [List.cons_append, Node.run, ih]

theorem Node.run_inv {P : Node → Prop} (hstep : ∀ n op, P n → P (n.exec k op).2) (ops : List Op) (h : P n) :
    P (n.run k ops).2 := by
  induction ops generalizing n with
  | nil => exact h
  | cons op ops ih => exact ih (hstep n op h)

end Node

/-! ## The invariant -/

/-- The module is registered exactly while it is loaded, files are open on it
only then, and a user waits only for a lock that is held. `rest` lists the live
blocks that no device points to. -/
structure Host.Sound (k : Kernel) (h : Host) (rest : List (Nat × List Cell)) : Prop where
  registered : h.cdev = h.loaded ∧ h.region = h.loaded
  device : h.loaded = true → ∃ ring pend, Holds k h.sys ring pend rest
  memory : h.loaded = false → h.sys.heap.Exactly rest
  opened : ∀ x ∈ h.files, h.loaded = true ∧ x.2.file.privateData = true ∧
    (x.2.busy = true → h.sys.dev.lock = true)

section Files

variable {files : Files} {fd : Nat} {f : OpenFile} {x : Nat × OpenFile}

theorem Files.mem_of_lookup (h : files.lookup fd = some f) : (fd, f) ∈ files := by
  induction files with
  | nil => cases h
  | cons x files ih =>
    rw [List.lookup_cons] at h
    split at h
    · rename_i he
      obtain rfl := Option.some.inj h
      rw [eq_of_beq he]
      exact List.mem_cons_self
    · exact List.mem_cons_of_mem _ (ih h)

theorem Files.mem_put (h : x ∈ files.put fd f) : x ∈ files ∨ x = (fd, f) := by
  obtain ⟨y, hy, rfl⟩ := List.mem_map.1 h
  split
  · exact .inr rfl
  · exact .inl hy

theorem Files.mem_close (h : x ∈ files.close fd) : x ∈ files := (List.mem_filter.1 h).1

/-- Who waits after a call is in a call that has not returned. -/
theorem OpenFile.after_busy {c : Call} {r : Reply} : (f.after c r).busy = true ↔ r.ret = none := by
  by_cases hr : r.ret = none <;> simp [OpenFile.after, OpenFile.busy, hr]

/-- Who waits after a signal has waited before. -/
theorem OpenFile.signal_busy (h : f.signal.2.busy = true) : f.busy = true := by
  unfold OpenFile.signal at h
  split at h
  next hw =>
    rw [OpenFile.busy, hw] at h
    cases h
  next hw => simp [OpenFile.busy, hw]
  next => cases h

theorem OpenFile.signal_file : f.signal.2.file = f.file := by
  unfold OpenFile.signal
  split <;> rfl

end Files

section Device

variable {k : Kernel} {i : Invocation} {d : Device}

/-- A lock that is held stays held. -/
theorem Device.exec_held (hl : d.lock = true) : (Device.exec k i d).2.lock = true := by
  unfold Device.exec
  split
  · exact hl
  · rw [if_pos hl]
    split <;> exact hl

/-- A call that does not return waits for it. -/
theorem Device.exec_waits (hr : (Device.exec k i d).1.ret = none) : d.lock = true := by
  by_contra hl
  rw [Bool.not_eq_true] at hl
  cases ha : i.accept k with
  | error e =>
    rw [Device.exec_refused ha] at hr
    cases hr
  | ok f =>
    cases hi : i.interrupted with
    | true =>
      rw [Device.exec_interrupted ha hi] at hr
      cases hr
    | false =>
      rw [Device.exec_locked ha hi hl] at hr
      cases hc : i.call <;> simp [hc, Device.locked, Left.finish] at hr

end Device

namespace Host

variable {k : Kernel} {h : Host} {rest : List (Nat × List Cell)}

theorem boot_sound (k : Kernel) : boot.Sound k [] where
  registered := ⟨rfl, rfl⟩
  device hl := by cases hl
  memory _ := Heap.exactly_empty
  opened _ hx := by cases hx

/-- With no file open, a module that is not loaded leaves no more than memory. -/
theorem Sound.no_files (hs : h.Sound k rest) (hl : h.loaded = false) : h.files = [] := by
  rw [List.eq_nil_iff_forall_not_mem]
  intro x hx
  rw [(hs.opened x hx).1] at hl
  cases hl

theorem node_loaded (hl : h.loaded = true) : h.node = ⟨some (Aesd.device h.sys), h.files⟩ := by
  rw [node, if_pos hl]

theorem node_unloaded (hl : h.loaded = false) : h.node = ⟨none, h.files⟩ := by
  rw [node, hl]
  rfl

/-! ## One operation -/

/-- What an operation must show: it does not fault, it does what it does to the
node, and it adds to `rest` exactly if it leaks. -/
def Kept (k : Kernel) (op : Op) (h : Host) (rest : List (Nat × List Cell)) : Prop :=
  ∃ reply h' rest', h.exec k op = .ok (reply, h') ∧ h'.Sound k rest' ∧ h.node.exec k op = (reply, h'.node) ∧
    (rest' = [] ↔ rest = [] ∧ ¬ OpEvent.Leaks k ⟨op, h, (reply, h')⟩)

/-- An operation that is no call leaks nothing. -/
theorem kept_of_same {op : Op} (reply : Reply) (h' : Host) (hop : ∀ fd c o, op ≠ .call fd c o)
    (he : h.exec k op = .ok (reply, h')) (hs : h'.Sound k rest) (hn : h.node.exec k op = (reply, h'.node)) :
    Kept k op h rest := by
  refine ⟨reply, h', rest, he, hs, hn, ?_⟩
  have hno : ¬ OpEvent.Leaks k ⟨op, h, (reply, h')⟩ := by
    rintro ⟨fd, c, o, _, heq, -⟩
    exact hop fd c o heq
  simp [hno]

theorem Sound.initModule (hs : h.Sound k rest) (r : Registration) : Kept k (.initModule r) h rest := by
  cases hl : h.loaded with
  | true =>
    refine kept_of_same (.code (-EEXIST)) h (by simp) ?_ hs ?_
    · simp only [exec, hl, if_true]
    · simp only [node_loaded hl, Node.exec]
  | false =>
    by_cases ha : r.allocChrdevRegion < 0
    · -- no device number
      refine kept_of_same (.code r.allocChrdevRegion) h (by simp) ?_ hs ?_
      · have hne : r.allocChrdevRegion ≠ 0 := by omega
        simp only [exec, hl, Bool.false_eq_true, if_false, Host.initModule, if_pos ha, hne, decide_false]
        rw [← hl]
      · simp only [node_unloaded hl, Node.exec, if_pos ha]
    · by_cases hc : r.cdevAdd = 0
      · have hh : Holds k { aesdInitModule with heap := h.sys.heap } [] [] rest :=
          { holds_init k with exactly := hs.memory hl }
        refine kept_of_same (.code 0) ⟨{ aesdInitModule with heap := h.sys.heap }, true, true, true, h.files⟩
          (by simp) ?_ ?_ ?_
        · simp [exec, hl, Host.initModule, ha, setupCdev, hc]
        · exact ⟨⟨rfl, rfl⟩, fun _ => ⟨[], [], hh⟩, by simp, by simp [hs.no_files hl]⟩
        · have hd : Aesd.device { aesdInitModule with heap := h.sys.heap } = Device.fresh := by
            rw [hh.device]
            simp [Device.fresh, aesdInitModule]
          simp [node, hl, Node.exec, ha, hc, hd]
      · -- the number is given back
        refine kept_of_same (.code r.cdevAdd)
          ⟨{ aesdInitModule with heap := h.sys.heap }, false, h.cdev, false, h.files⟩
          (by simp) ?_ ?_ ?_
        · simp [exec, hl, Host.initModule, ha, setupCdev, hc]
        · refine ⟨⟨by rw [hs.registered.1, hl], rfl⟩, by simp, fun _ => hs.memory hl, by simp [hs.no_files hl]⟩
        · simp only [node_unloaded hl, Node.exec, if_neg ha, ne_eq, hc, not_false_eq_true, if_true]
          rfl

theorem Sound.cleanupModule (hs : h.Sound k rest) : Kept k .cleanupModule h rest := by
  cases hl : h.loaded with
  | false =>
    refine kept_of_same (.code (-ENOENT)) h (by simp) ?_ hs ?_
    · simp only [exec, hl, if_true]
    · simp only [node_unloaded hl, Node.exec]
  | true =>
    by_cases hf : h.files = []
    · obtain ⟨ring, pend, hh⟩ := hs.device hl
      obtain ⟨heap, hc, hex⟩ := hh.cleanup
      refine kept_of_same (.code 0) ⟨{ h.sys with heap := heap }, false, false, false, h.files⟩ (by simp) ?_ ?_ ?_
      · simp only [exec, hl, hf, Bool.true_eq_false, ne_eq, not_true_eq_false, if_false, Host.cleanupModule, hc,
          ok_bind]
      · exact ⟨⟨rfl, rfl⟩, by simp, fun _ => hex, by simp [hf]⟩
      · simp only [node_loaded hl, Node.exec, hf, ne_eq, not_true_eq_false, if_false]
        rfl
    · refine kept_of_same (.code (-EWOULDBLOCK)) h (by simp) ?_ hs ?_
      · simp only [exec, hl, Bool.true_eq_false, if_false, ne_eq, hf, not_false_eq_true, if_true]
      · simp only [node_loaded hl, Node.exec, ne_eq, hf, not_false_eq_true, if_true]

theorem Sound.openFile (hs : h.Sound k rest) (fd : Nat) : Kept k (.openFile fd) h rest := by
  cases hl : h.loaded with
  | false =>
    refine kept_of_same (.code (- ENXIO)) h (by simp) ?_ hs ?_
    · simp only [exec, hs.registered.1, hl, if_true]
    · simp only [node_unloaded hl, Node.exec]
  | true =>
    have hcdev : h.cdev = true := hs.registered.1.trans hl
    cases hf : h.files.lookup fd with
    | some f =>
      refine kept_of_same (.code (-EBADF)) h (by simp) ?_ hs ?_
      · simp only [exec, hcdev, Bool.true_eq_false, if_false, hf]
      · simp only [node_loaded hl, Node.exec, hf]
    | none =>
      refine kept_of_same (.code 0) { h with files := (fd, ⟨⟨true, 0⟩, none⟩) :: h.files } (by simp) ?_ ?_ ?_
      · simp only [exec, hcdev, Bool.true_eq_false, if_false, hf, aesdOpen]
      · refine { hs with opened := fun x hx => ?_ }
        rcases List.mem_cons.1 hx with rfl | hx
        · exact ⟨hl, rfl, fun hw => by cases hw⟩
        · exact hs.opened x hx
      · simp only [node, hl, if_true, Node.exec, hf]

theorem Sound.release (hs : h.Sound k rest) (fd : Nat) : Kept k (.release fd) h rest := by
  cases hf : h.files.lookup fd with
  | none =>
    refine kept_of_same (.code (-EBADF)) h (by simp) ?_ hs ?_
    · simp only [exec, hf]
    · simp only [Node.exec, node, hf]
  | some f =>
    cases hw : f.busy with
    | true =>
      refine kept_of_same f.stuck h (by simp) ?_ hs ?_
      · simp only [exec, hf, hw, if_true]
      · simp only [Node.exec, node, hf, hw, if_true]
    | false =>
      refine kept_of_same (.code 0) { h with files := h.files.close fd } (by simp) ?_ ?_ ?_
      · simp only [exec, hf, hw, Bool.false_eq_true, if_false, aesdRelease]
      · exact { hs with opened := fun x hx => hs.opened x (Files.mem_close hx) }
      · simp only [Node.exec, node, hf, hw, Bool.false_eq_true, if_false]

theorem Sound.signal (hs : h.Sound k rest) (fd : Nat) : Kept k (.signal fd) h rest := by
  cases hf : h.files.lookup fd with
  | none =>
    refine kept_of_same (.code (-EBADF)) h (by simp) ?_ hs ?_
    · simp only [exec, hf]
    · simp only [Node.exec, node, hf]
  | some f =>
    have hold := hs.opened _ (Files.mem_of_lookup hf)
    refine kept_of_same f.signal.1 { h with files := h.files.put fd f.signal.2 } (by simp) ?_ ?_ ?_
    · simp only [exec, hf]
    · refine { hs with opened := fun x hx => ?_ }
      rcases Files.mem_put hx with hx | rfl
      · exact hs.opened x hx
      · refine ⟨hold.1, ?_, fun hw => hold.2.2 (OpenFile.signal_busy hw)⟩
        rw [OpenFile.signal_file]
        exact hold.2.1
    · simp only [Node.exec, node, hf]

theorem Sound.call (hs : h.Sound k rest) (fd : Nat) (c : Call) (o : Outcome) : Kept k (.call fd c o) h rest := by
  cases hf : h.files.lookup fd with
  | none =>
    refine ⟨.code (-EBADF), h, rest, ?_, hs, ?_, ?_⟩
    · simp only [exec, hf]
    · cases hl : h.loaded with
      | true => simp only [node_loaded hl, Node.exec, hf]
      | false => simp only [node_unloaded hl, Node.exec]
    · have hno : ¬ OpEvent.Leaks k ⟨.call fd c o, h, (.code (-EBADF), h)⟩ := by
        rintro ⟨_, _, _, _, heq, hf', -⟩
        obtain ⟨rfl, rfl, rfl⟩ := Op.call.inj heq
        rw [hf] at hf'
        cases hf'
      simp [hno]
  | some f =>
    obtain ⟨hl, hpd, hwait⟩ := hs.opened _ (Files.mem_of_lookup hf)
    cases hw : f.busy with
    | true =>
      refine ⟨f.stuck, h, rest, ?_, hs, ?_, ?_⟩
      · simp only [exec, hf, hw, if_true]
      · simp only [node_loaded hl, Node.exec, hf, hw, if_true]
      · have hno : ¬ OpEvent.Leaks k ⟨.call fd c o, h, (f.stuck, h)⟩ := by
          rintro ⟨_, _, _, _, heq, hf', hw', -⟩
          obtain ⟨rfl, rfl, rfl⟩ := Op.call.inj heq
          obtain rfl := Option.some.inj (hf.symm.trans hf')
          rw [hw] at hw'
          cases hw'
        simp [hno]
    | false =>
      obtain ⟨ring, pend, hh⟩ := hs.device hl
      obtain ⟨r, he⟩ := exec_total hh ⟨some f.file, c, o⟩
      obtain ⟨ring', pend', rest', hh', hleak⟩ := leak_step hh he
      have hdev := exec_device hh he
      refine ⟨r.reply, { h with sys := r.sys, files := h.files.put fd (f.after c r.reply) }, rest', ?_, ?_, ?_, ?_⟩
      · simp only [exec, hf, hw, Bool.false_eq_true, if_false, he, ok_bind]
      · refine ⟨hs.registered, fun _ => ⟨ring', pend', hh'⟩, by simp [hl], fun x hx => ⟨hl, ?_⟩⟩
        rcases Files.mem_put hx with hx | rfl
        · refine ⟨(hs.opened x hx).2.1, fun hwx => ?_⟩
          have hheld := Device.exec_held (k := k) (i := ⟨some f.file, c, o⟩) (d := Aesd.device h.sys)
            ((hs.opened x hx).2.2 hwx)
          rw [hdev] at hheld
          exact hheld
        · refine ⟨hpd, fun hwx => ?_⟩
          have hnone : (Device.exec k ⟨some f.file, c, o⟩ (Aesd.device h.sys)).1.ret = none := by
            rw [hdev]
            exact OpenFile.after_busy.1 hwx
          have hheld := Device.exec_held (k := k) (i := ⟨some f.file, c, o⟩) (Device.exec_waits hnone)
          rw [hdev] at hheld
          exact hheld
      · simp only [node, hl, if_true, Node.exec, hf, hw, Bool.false_eq_true, if_false, hdev]
      · rw [hleak, ← not_or]
        refine and_congr_right fun _ => not_congr ?_
        constructor
        · exact fun hleaks => ⟨fd, c, o, f, rfl, hf, hw, hleaks⟩
        · rintro ⟨_, _, _, _, heq, hf', -, hleaks⟩
          obtain ⟨rfl, rfl, rfl⟩ := Op.call.inj heq
          obtain rfl := Option.some.inj (hf.symm.trans hf')
          exact hleaks

theorem Sound.exec (hs : h.Sound k rest) (op : Op) : Kept k op h rest := by
  cases op with
  | initModule r => exact hs.initModule r
  | cleanupModule => exact hs.cleanupModule
  | openFile fd => exact hs.openFile fd
  | call fd c o => exact hs.call fd c o
  | signal fd => exact hs.signal fd
  | release fd => exact hs.release fd

/-- Any number of operations. -/
theorem Sound.run (hs : h.Sound k rest) (ops : List Op) :
    ∃ evs h' rest', runOps k ops h = .ok (evs, h') ∧ h'.Sound k rest' ∧
      h.node.run k ops = (evs.map (·.output.1), h'.node) ∧
      (rest' = [] ↔ rest = [] ∧ ∀ e ∈ evs, ¬ e.Leaks k) := by
  have hrun : ∃ evs h', runAll (Host.exec k) Prod.snd ops h = .ok (evs, h') ∧ ∃ rest', h'.Sound k rest' ∧
      h.node.run k (evs.map (·.input)) = (evs.map (·.output.1), h'.node) ∧
      (rest' = [] ↔ rest = [] ∧ ∀ e ∈ evs, ¬ OpEvent.Leaks k e) := by
    refine runAll_induct (fun evs h' => ∃ rest', h'.Sound k rest' ∧
      h.node.run k (evs.map (·.input)) = (evs.map (·.output.1), h'.node) ∧
      (rest' = [] ↔ rest = [] ∧ ∀ e ∈ evs, ¬ OpEvent.Leaks k e)) ?_ ops ⟨rest, hs, rfl, by simp⟩
    rintro evs m op ⟨rest₁, hs₁, hn₁, hleak₁⟩
    obtain ⟨reply, m', rest₂, he, hs₂, hn₂, hleak₂⟩ := hs₁.exec op
    refine ⟨(reply, m'), he, rest₂, hs₂, ?_, ?_⟩
    · rw [List.map_append, Node.run_append, hn₁, List.map_append]
      simp only [List.map_singleton, Node.run, hn₂]
    · rw [hleak₂, hleak₁, and_assoc, List.forall_mem_append, List.forall_mem_singleton]
  obtain ⟨evs, h', hr, rest', hs', hn, hleak⟩ := hrun
  exact ⟨evs, h', rest', hr, hs', by rw [← runAll_inputs hr]; exact hn, hleak⟩

end Host

/-! ## What holds of every run -/

/-- Whatever is loaded, unloaded, opened, called and released since boot, and
however its kernel calls go: nothing makes a wrong use of memory, the module is
registered exactly while it is loaded, a file is open only then and has its
device, and the pointers of a loaded device are distinct live blocks. -/
theorem lifecycle_sound (k : Kernel) (ops : List Op) :
    ∃ evs h, runOps k ops Host.boot = .ok (evs, h) ∧ h.cdev = h.loaded ∧ h.region = h.loaded ∧
      (∀ x ∈ h.files, h.loaded = true ∧ x.2.file.privateData = true) ∧ (h.loaded = true → BlocksOk h.sys) := by
  obtain ⟨evs, h, rest, hr, hs, -, -⟩ := (Host.boot_sound k).run ops
  refine ⟨evs, h, hr, hs.registered.1, hs.registered.2, ?_, ?_⟩
  · intro x hx
    exact ⟨(hs.opened x hx).1, (hs.opened x hx).2.1⟩
  · intro hl
    obtain ⟨ring, pend, hh⟩ := hs.device hl
    exact hh.blocksOk

/-- Over any number of loads, the memory in use is that of the loaded device, or
none at all, exactly if no write since boot has leaked. -/
theorem lifecycle_leak_free_iff (k : Kernel) (ops : List Op) :
    ∃ evs h, runOps k ops Host.boot = .ok (evs, h) ∧
      ((∀ i, h.sys.heap.Live i ↔ h.loaded = true ∧ i ∈ ownedIds h.sys.dev) ↔ ∀ e ∈ evs, ¬ e.Leaks k) := by
  obtain ⟨evs, h, rest, hr, hs, -, hleak⟩ := (Host.boot_sound k).run ops
  refine ⟨evs, h, hr, ?_⟩
  have hnil : rest = [] ↔ ∀ e ∈ evs, ¬ e.Leaks k := by rw [hleak]; simp
  rw [← hnil]
  cases hl : h.loaded with
  | true =>
    obtain ⟨ring, pend, hh⟩ := hs.device hl
    rw [hh.rest_eq_nil_iff]
    simp
  | false =>
    have hex := hs.memory hl
    constructor
    · intro hall
      rw [List.eq_nil_iff_forall_not_mem]
      intro b hb
      have hlive : h.sys.heap.Live b.1 := hex.live_iff.2 (List.mem_map_of_mem hb)
      cases ((hall b.1).1 hlive).1
    · rintro rfl i
      simp [hex.nil i]

/-- Everything the users are answered, over any number of loads, is what a node
answers whose device is empty after each load. -/
theorem lifecycle_node (k : Kernel) (ops : List Op) :
    ∃ evs h, runOps k ops Host.boot = .ok (evs, h) ∧ Node.run k ops ⟨none, []⟩ = (evs.map (·.output.1), h.node) := by
  obtain ⟨evs, h, -, hr, -, hn, -⟩ := (Host.boot_sound k).run ops
  exact ⟨evs, h, hr, hn⟩

end Aesd
