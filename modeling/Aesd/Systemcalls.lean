import Mathlib.Data.List.Forall2
import Aesd.SysLib.FdTable
/-!
# Commands run in a child process

`systemcalls.c`: `do_system`, `do_exec` and `do_exec_redirect` run a command in a
child and tell whether it exited with 0. The kernel's part and that of the program
are in `ChildOutcome`; `fork` gives the child a copy of the caller's descriptors
and of what its `stdout` stream has not written yet, and `exit` writes that copy
out. The lists of arguments are left out: they go to `execv` as they are.
-/

namespace Aesd.Systemcalls

open SysLib

abbrev Bytes := List UInt8

def STDOUT_FILENO : Nat := 1
def STDERR_FILENO : Nat := 2
def EXIT_FAILURE : Nat := 1

/-! ## How a child ends -/

inductive Fate where
  | exited (code : Nat)
  | signaled (sig : Nat) (core : Bool) (lt : 0 < sig ∧ sig < 127)

/-- The status `waitpid` stores. -/
def Fate.status : Fate → Nat
  | .exited code => code % 256 * 256
  | .signaled sig core _ => sig + if core then 128 else 0

def WIFEXITED (status : Nat) : Bool := status &&& 0x7f == 0

def WEXITSTATUS (status : Nat) : Nat := (status &&& 0xff00) >>> 8

theorem wifexited_iff (fate : Fate) : WIFEXITED fate.status = true ↔ ∃ code, fate = .exited code := by
  have hmask (n : Nat) : n &&& 0x7f = n % 128 := Nat.and_two_pow_sub_one_eq_mod n 7
  rw [WIFEXITED, beq_iff_eq, hmask]
  cases fate with
  | exited code =>
    simp only [Fate.status, Fate.exited.injEq, exists_eq', iff_true]
    omega
  | signaled sig core lt =>
    simp only [Fate.status, reduceCtorEq, exists_false, iff_false]
    split <;> omega

theorem wexitstatus_exited (code : Nat) : WEXITSTATUS (Fate.exited code).status = code % 256 := by
  have hmask (n : Nat) : (n &&& 0xff00) >>> 8 = n / 256 % 256 := by
    rw [Nat.shiftRight_and_distrib, Nat.shiftRight_eq_div_pow]
    exact Nat.and_two_pow_sub_one_eq_mod _ 8
  rw [WEXITSTATUS, hmask, Fate.status]
  omega

/-! ## The processes -/

/-- What a descriptor refers to: something the caller had open, or the output
file of a call, by its path. -/
inductive Target (P : Type) where
  | inherited (n : Nat)
  | outputFile (path : P)

inductive Writer where
  | caller
  | child
  | program
  deriving DecidableEq

/-- What happens to files, in order. -/
inductive Event (P : Type) where
  | truncate (path : P)
  | write (writer : Writer) (target : Target P) (data : Bytes)

/-- The process that makes the calls: its descriptors, what its `stdout` stream has
not written yet, what has been written so far by it and its children, whether it
ignores `SIGCHLD`, so that the kernel keeps no child that has ended, and the number
of its children that are left for somebody to wait for. -/
structure Caller (P : Type) where
  fds : FdTable (Target P)
  buffer : Bytes
  events : List (Event P)
  ignoresChld : Bool
  zombies : Nat

/-- How `waitpid` goes: with the child's status, or with -1 for `EINTR`, and the
child runs on, or for `ECHILD`, and the child is gone. -/
inductive Waitpid where
  | reaped
  | interrupted
  | noChild
  deriving DecidableEq

/-- How the system calls of one call go. `output` is what the program writes to its
descriptors, `fate` how it ends. -/
structure ChildOutcome where
  fork : Bool
  openFile : Bool
  dup2 : Bool
  execv : Bool
  output : List (Nat × Bytes)
  fate : Fate
  waitpid : Waitpid

section Model

variable {P : Type}

/-- `write`; nothing arrives through a closed descriptor. -/
def writeTo (writer : Writer) (fds : FdTable (Target P)) (fd : Nat) (data : Bytes) : List (Event P) :=
  match fds.get fd with
  | none => []
  | some target => if data = [] then [] else [.write writer target data]

/-- What the program writes. -/
def ChildOutcome.writes (o : ChildOutcome) (fds : FdTable (Target P)) : List (Event P) :=
  o.output.flatMap fun x => writeTo .program fds x.1 x.2

/-- `printf`: the stream then writes out the first `flushed` bytes it holds. -/
def Caller.printf (data : Bytes) (flushed : Nat) (s : Caller P) : Caller P :=
  { s with
    buffer := (s.buffer ++ data).drop flushed
    events := s.events ++ writeTo .caller s.fds STDOUT_FILENO ((s.buffer ++ data).take flushed) }

/-- `exit(EXIT_FAILURE)` in the child, with the stream it has inherited. -/
def exitFailure (fds : FdTable (Target P)) (buffer : Bytes) : List (Event P) × Fate :=
  (writeTo .child fds STDOUT_FILENO buffer, .exited EXIT_FAILURE)

/-- `execv`, and `exit` if it returns. -/
def execv (o : ChildOutcome) (fds : FdTable (Target P)) (buffer : Bytes) : List (Event P) × Fate :=
  if o.execv = true then (o.writes fds, o.fate) else exitFailure fds buffer

/-- The child of `do_exec_redirect`. -/
def redirectChild (outputfile : P) (o : ChildOutcome) (fds : FdTable (Target P)) (buffer : Bytes) :
    List (Event P) × Fate :=
  if o.openFile = false then exitFailure fds buffer
  else
    let (fd, fds) := fds.alloc (.outputFile outputfile)
    let (events, fate) :=
      if o.dup2 = false then exitFailure (fds.close fd) buffer
      else execv o ((fds.dup2 fd STDOUT_FILENO).close fd) buffer
    (.truncate outputfile :: events, fate)

/-- `waitpid` has failed. -/
def Caller.abandon (w : Waitpid) (s : Caller P) : Caller P :=
  if w = .interrupted ∧ s.ignoresChld = false then { s with zombies := s.zombies + 1 } else s

/-- The parent's part of `do_exec` and `do_exec_redirect`. -/
def Caller.wait (o : ChildOutcome) (child : List (Event P) × Fate) (s : Caller P) : Bool × Caller P :=
  let s := { s with events := s.events ++ child.1 }
  if o.waitpid ≠ .reaped then (false, s.abandon o.waitpid)
  else
    let status := child.2.status
    if WIFEXITED status = true ∧ WEXITSTATUS status = 0 then (true, s) else (false, s)

/-- `do_exec` -/
def Caller.doExec (o : ChildOutcome) (s : Caller P) : Bool × Caller P :=
  if o.fork = false then (false, s) else s.wait o (execv o s.fds s.buffer)

/-- `do_exec_redirect` -/
def Caller.doExecRedirect (outputfile : P) (o : ChildOutcome) (s : Caller P) : Bool × Caller P :=
  if o.fork = false then (false, s) else s.wait o (redirectChild outputfile o s.fds s.buffer)

/-- What `do_system` prints. -/
def exitedText (exitStatus : Nat) : Bytes :=
  s!"Process exited normally with exit code {exitStatus}\n".toUTF8.toList

def notNormalText : Bytes := "Command did not exit normally\n".toUTF8.toList

/-- `do_system`; `cmd` tells whether the command is not `NULL`. The shell is the
program; `system` returns -1 if there is no child or nobody to wait for it. -/
def Caller.doSystem (cmd : Bool) (o : ChildOutcome) (perror : Bytes) (flushed flushed' : Nat) (s : Caller P) :
    Bool × Caller P :=
  if cmd = false then (false, s)
  else if o.fork = false then (false, { s with events := s.events ++ writeTo .caller s.fds STDERR_FILENO perror })
  else
    let s := { s with events := s.events ++ o.writes s.fds }
    if o.waitpid ≠ .reaped then
      (false, { s.abandon o.waitpid with events := s.events ++ writeTo .caller s.fds STDERR_FILENO perror })
    else
      let status := o.fate.status
      if WIFEXITED status = true then
        let exitStatus := WEXITSTATUS status
        let s := s.printf (exitedText exitStatus) flushed
        if exitStatus = 0 then (true, s) else (false, s.printf notNormalText flushed')
      else (false, s.printf notNormalText flushed')

inductive SysCall (P : Type) where
  | system (cmd : Bool) (o : ChildOutcome) (perror : Bytes) (flushed flushed' : Nat)
  | exec (o : ChildOutcome)
  | execRedirect (outputfile : P) (o : ChildOutcome)

def SysCall.call (s : Caller P) : SysCall P → Bool × Caller P
  | .system cmd o perror flushed flushed' => s.doSystem cmd o perror flushed flushed'
  | .exec o => s.doExec o
  | .execRedirect outputfile o => s.doExecRedirect outputfile o

/-- Calls one after another: what each returns, and the caller after them. -/
def Caller.run : List (SysCall P) → Caller P → List Bool × Caller P
  | [], s => ([], s)
  | c :: cs, s =>
    let (ret, s) := c.call s
    let (rets, s) := Caller.run cs s
    (ret :: rets, s)

/-- Each call, with the caller before it. -/
def Caller.history : List (SysCall P) → Caller P → List (SysCall P × Caller P)
  | [], _ => []
  | c :: cs, s => (c, s) :: Caller.history cs (c.call s).2

/-! ## What the calls return -/

variable {s : Caller P} {o : ChildOutcome} {fate : Fate} {events : List (Event P)}

theorem exit_zero_iff (fate : Fate) : (WIFEXITED fate.status = true ∧ WEXITSTATUS fate.status = 0) ↔
    ∃ code, fate = .exited code ∧ code % 256 = 0 := by
  constructor
  · rintro ⟨hexited, hzero⟩
    obtain ⟨code, rfl⟩ := (wifexited_iff fate).1 hexited
    exact ⟨code, rfl, by rw [← wexitstatus_exited]; exact hzero⟩
  · rintro ⟨code, rfl, hzero⟩
    exact ⟨(wifexited_iff _).2 ⟨code, rfl⟩, by rw [wexitstatus_exited]; exact hzero⟩

/-- How many children a call leaves behind whose `waitpid` goes like this. -/
def Caller.left (s : Caller P) (w : Waitpid) : Nat := if w = .interrupted ∧ s.ignoresChld = false then 1 else 0

theorem abandon_eq (s : Caller P) (w : Waitpid) : s.abandon w = { s with zombies := s.zombies + s.left w } := by
  unfold Caller.abandon Caller.left
  split <;> rfl

@[simp] theorem left_reaped (s : Caller P) : s.left .reaped = 0 := rfl

/-- The parent's part, whatever the child did. -/
theorem wait_spec (s : Caller P) (o : ChildOutcome) (child : List (Event P) × Fate) :
    ((s.wait o child).1 = true ↔ o.waitpid = .reaped ∧ ∃ code, child.2 = .exited code ∧ code % 256 = 0) ∧
      (s.wait o child).2 = { s with events := s.events ++ child.1, zombies := s.zombies + s.left o.waitpid } := by
  rw [← exit_zero_iff]
  unfold Caller.wait
  by_cases hw : o.waitpid = .reaped
  · simp only [hw, ne_eq, not_true_eq_false, if_false, left_reaped, true_and, Nat.add_zero]
    split
    · rename_i hz
      simp [hz]
    · rename_i hz
      simp [hz]
  · simp [hw, abandon_eq, Caller.left]

/-- `open` returns the descriptor of `stdout`. -/
theorem lowest_stdout_iff (fds : FdTable (Target P)) :
    fds.lowest = STDOUT_FILENO ↔ ¬ (fds.get 0 = none ∨ fds.get STDOUT_FILENO ≠ none) := by
  rw [FdTable.lowest_eq_iff, not_or, not_not, and_comm]
  refine and_congr_left fun _ => ⟨fun h => h 0 Nat.zero_lt_one, fun h m hm => ?_⟩
  obtain rfl : m = 0 := Nat.lt_one_iff.1 hm
  exact h

/-- A program that `do_exec_redirect` runs finds the caller's descriptors, with
the file, cut off before, as its `stdout`; only where the caller has `stdin` open
and `stdout` closed does it find no `stdout` at all. -/
theorem redirect_output (s : Caller P) (outputfile : P) {o : ChildOutcome} (hfork : o.fork = true)
    (hopen : o.openFile = true) (hdup : o.dup2 = true) (hexec : o.execv = true) :
    (s.doExecRedirect outputfile o).2.events = s.events ++ .truncate outputfile :: o.output.flatMap fun x =>
      if x.1 = STDOUT_FILENO then
        if (s.fds.get 0 = none ∨ s.fds.get STDOUT_FILENO ≠ none) ∧ x.2 ≠ [] then
          [.write .program (.outputFile outputfile) x.2] else []
      else writeTo .program s.fds x.1 x.2 := by
  obtain ⟨-, hs⟩ := wait_spec s o (redirectChild outputfile o s.fds s.buffer)
  simp only [Caller.doExecRedirect, hfork, Bool.true_eq_false, if_false, hs]
  refine congrArg _ ?_
  simp only [redirectChild, hopen, hdup, Bool.true_eq_false, if_false, execv, hexec, if_true, ChildOutcome.writes]
  rw [List.flatMap_def, List.flatMap_def]
  refine congrArg _ (congrArg List.flatten (List.map_congr_left fun x _ => ?_))
  simp only [writeTo, FdTable.redirect_get]
  by_cases hx : x.1 = STDOUT_FILENO
  · rw [if_pos hx, if_pos hx]
    by_cases hstd : s.fds.get 0 = none ∨ s.fds.get STDOUT_FILENO ≠ none
    · have hne : s.fds.lowest ≠ STDOUT_FILENO := fun h => (lowest_stdout_iff s.fds).1 h hstd
      by_cases hnil : x.2 = [] <;> simp [hstd, hne, hnil]
    · have heq := (lowest_stdout_iff s.fds).2 hstd
      simp [hstd, heq]
  · rw [if_neg hx, if_neg hx]

/-- A caller without a `stdout`: what the program writes there is lost. -/
theorem redirect_output_lost : ∃ (s : Caller Unit) (o : ChildOutcome), o.output = [(STDOUT_FILENO, [97])] ∧
    (s.doExecRedirect () o).2.events = [.truncate ()] := by
  refine ⟨⟨FdTable.empty.set 0 (some (.inherited 0)), [], [], false, 0⟩,
    ⟨true, true, true, true, [(STDOUT_FILENO, [97])], .exited 0, .reaped⟩, rfl, ?_⟩
  rw [redirect_output _ _ rfl rfl rfl rfl]
  rfl

/-! ## Text that comes twice -/

/-- A write by a child that has not executed its program: a copy of text that the
caller has printed, and will write itself. -/
def Event.copies : Event P → Bool
  | .write .child _ _ => true
  | _ => false

/-- The child of a call exits on its own, with its `stdout` open. -/
def SysCall.exits (s : Caller P) : SysCall P → Bool
  | .system _ _ _ _ _ => false
  | .exec o => o.fork && !o.execv && (s.fds.get STDOUT_FILENO).isSome
  | .execRedirect _ o =>
    o.fork &&
      if o.openFile = true ∧ o.dup2 = true then
        !o.execv && ((s.fds.get 0).isNone || (s.fds.get STDOUT_FILENO).isSome)
      else (s.fds.get STDOUT_FILENO).isSome

@[simp] theorem truncate_copies (path : P) : (Event.truncate path).copies = false := rfl

theorem writeTo_copies (writer : Writer) (fds : FdTable (Target P)) (fd : Nat) (data : Bytes) :
    (writeTo writer fds fd data).any Event.copies =
      (writer == .child && (fds.get fd).isSome && decide (data ≠ [])) := by
  unfold writeTo
  cases fds.get fd with
  | none => simp
  | some target => by_cases hd : data = [] <;> cases writer <;> simp [hd, Event.copies]

theorem writes_copies (o : ChildOutcome) (fds : FdTable (Target P)) : (o.writes fds).any Event.copies = false := by
  rw [ChildOutcome.writes, List.any_flatMap, List.any_eq_false]
  intro x _
  rw [writeTo_copies]
  simp

theorem execv_copies (o : ChildOutcome) (fds : FdTable (Target P)) (buffer : Bytes) :
    (execv o fds buffer).1.any Event.copies =
      (!o.execv && (fds.get STDOUT_FILENO).isSome && decide (buffer ≠ [])) := by
  unfold execv
  cases h : o.execv with
  | true => simp [writes_copies]
  | false => simp [exitFailure, writeTo_copies]

theorem redirectChild_copies (outputfile : P) (o : ChildOutcome) (s : Caller P) :
    (o.fork && (redirectChild outputfile o s.fds s.buffer).1.any Event.copies) =
      ((SysCall.execRedirect outputfile o).exits s && decide (s.buffer ≠ [])) := by
  unfold SysCall.exits
  rw [Bool.and_assoc]
  refine congrArg _ ?_
  cases ho : o.openFile with
  | false => simp [redirectChild, ho, exitFailure, writeTo_copies]
  | true =>
    cases hd : o.dup2 with
    | false =>
      simp only [redirectChild, ho, hd, Bool.true_eq_false, if_false, if_true, exitFailure, List.any_cons,
        writeTo_copies, FdTable.alloc_close_get, truncate_copies]
      simp
    | true =>
      simp only [redirectChild, ho, hd, Bool.true_eq_false, if_false, List.any_cons, execv_copies,
        FdTable.redirect_get, truncate_copies]
      by_cases hlow : s.fds.lowest = STDOUT_FILENO
      · have hstd := (lowest_stdout_iff s.fds).1 hlow
        simp only [not_or, not_not] at hstd
        simp [hlow, hstd]
      · have hstd := not_not.1 fun h => hlow ((lowest_stdout_iff s.fds).2 h)
        rcases hstd with hstd | hstd
        · simp [hlow, hstd]
        · have hsome := Option.isSome_iff_ne_none.2 hstd
          simp [hlow, hsome]

theorem call_copies (s : Caller P) (c : SysCall P) : (c.call s).2.events.any Event.copies =
    (s.events.any Event.copies || (c.exits s && decide (s.buffer ≠ []))) := by
  cases c with
  | exec o =>
    unfold SysCall.call Caller.doExec SysCall.exits
    cases hf : o.fork with
    | false => simp [hf]
    | true =>
      obtain ⟨-, hs⟩ := wait_spec s o (execv o s.fds s.buffer)
      simp only [hf, Bool.true_eq_false, if_false, hs, List.any_append, execv_copies, Bool.true_and]
  | execRedirect outputfile o =>
    have hchild := redirectChild_copies outputfile o s
    rw [← hchild]
    unfold SysCall.call Caller.doExecRedirect
    cases hf : o.fork with
    | false => simp [hf]
    | true =>
      obtain ⟨-, hs⟩ := wait_spec s o (redirectChild outputfile o s.fds s.buffer)
      simp only [hf, Bool.true_eq_false, if_false, hs, List.any_append, Bool.true_and]
  | system cmd o perror flushed flushed' =>
    unfold SysCall.call Caller.doSystem SysCall.exits
    simp only [Bool.false_and, Bool.or_false]
    repeat' split
    all_goals simp [Caller.printf, writeTo_copies, writes_copies]

/-- In any sequence of calls some text of the caller is written by a child as well,
and so twice, exactly if some child exits without its program while the caller has
text that it has not written yet. -/
theorem text_copied_iff (cs : List (SysCall P)) (s : Caller P) :
    (s.run cs).2.events.any Event.copies = true ↔
      s.events.any Event.copies = true ∨ ∃ x ∈ s.history cs, x.1.exits x.2 = true ∧ x.2.buffer ≠ [] := by
  induction cs generalizing s with
  | nil => simp [Caller.run, Caller.history]
  | cons c cs ih =>
    have hrun : (s.run (c :: cs)).2 = ((c.call s).2.run cs).2 := rfl
    rw [hrun, ih, call_copies, Caller.history]
    simp [or_assoc]

end Model

end Aesd.Systemcalls
