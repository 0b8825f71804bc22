import Mathlib.Data.List.Count
import Aesd.SysLib.FdTable
/-!
# Starting the server

`main` as far as its loop, with `createSocket` and `createDaemon`. The daemon
closes descriptors 0, 1 and 2 after the socket is there, so that where it was
started with some of them closed, the socket itself may be among those three.
`start_spec` says exactly when somebody serves, and what the process that was
started reports.

`openlog` opens nothing: the log gets its descriptor with the first message.
Addresses, ports and texts are left out.
-/

namespace Aesd.Startup

open SysLib

/-- What a descriptor refers to. -/
inductive Desc where
  | inherited (n : Nat)
  | log
  | socket
  deriving DecidableEq

/-- A process: its descriptors, and whether it is connected to the log. -/
structure Proc where
  fds : FdTable Desc
  logged : Bool

/-- How the calls of a start go; `connectLog` is the connection to the log. -/
structure StartOutcome where
  connectLog : Bool
  socket : Bool
  setsockopt : Bool
  bind : Bool
  fork : Bool
  setsid : Bool
  listen : Bool

/-- `syslog`, of a process that has called `openlog`. -/
def Proc.syslog (o : StartOutcome) (p : Proc) : Proc :=
  if p.logged = true ∨ o.connectLog = false then p else ⟨(p.fds.alloc .log).2, true⟩

/-- `createDaemon` in the child, after `fork`. -/
def createDaemon (o : StartOutcome) (p : Proc) : Option Proc :=
  if o.setsid = false then none else some { p with fds := ((p.fds.close 0).close 1).close 2 }

/-- The end of `createSocket`. The kernel listens on nothing but a socket. -/
def listen (o : StartOutcome) (sockfd : Nat) (p : Proc) : Option (Proc × Nat) :=
  if p.fds.get sockfd = some .socket ∧ o.listen = true then some (p, sockfd) else none

/-- What a start comes to: the value that the process which was started has
exited with, if it has, and the process that serves with its socket. -/
structure Started where
  status : Option Int
  server : Option (Proc × Nat)

/-- `createSocket`, and how `main` goes on with its result. The parent's
`exit(EXIT_SUCCESS)` is in `createDaemon`. -/
def createSocket (o : StartOutcome) (daemonMode : Bool) (p : Proc) : Started :=
  if o.socket = false then ⟨some (-1), none⟩
  else
    let (sockfd, fds) := p.fds.alloc .socket
    let p := { p with fds := fds }
    if o.setsockopt = false then ⟨some (-1), none⟩
    else if o.bind = false then ⟨some (-1), none⟩
    else if daemonMode = true then
      if o.fork = false then ⟨some (-1), none⟩
      else ⟨some 0, (createDaemon o p).bind (listen o sockfd)⟩
    else
      match listen o sockfd p with
      | none => ⟨some (-1), none⟩
      | some server => ⟨none, some server⟩

/-- `main`, with the arguments behind the program's name. -/
def main (o : StartOutcome) (args : List String) (fds : FdTable Desc) : Started :=
  let daemonMode : Bool := args = ["-d"]
  let p : Proc := ⟨fds, false⟩
  createSocket o daemonMode (if daemonMode = true then p.syslog o else p)

/-- How many of the three standard descriptors are closed. -/
def closedStd (fds : FdTable Desc) : Nat := [0, 1, 2].countP fun n => (fds.get n).isNone

section Results

variable {o : StartOutcome} {p : Proc} {fds : FdTable Desc} {sockfd : Nat}

theorem listen_isSome : (listen o sockfd p).isSome = true ↔ p.fds.get sockfd = some .socket ∧ o.listen = true := by
  unfold listen
  split <;> simp_all

/-- The daemon's socket is still there if it is none of the three. -/
theorem daemon_isSome : ((createDaemon o { p with fds := (p.fds.alloc .socket).2 }).bind
      (listen o (p.fds.alloc .socket).1)).isSome = true ↔ o.setsid = true ∧ 3 ≤ p.fds.lowest ∧ o.listen = true := by
  unfold createDaemon
  cases ho : o.setsid with
  | false => simp
  | true =>
    simp only [Bool.true_eq_false, if_false, Option.bind_some, listen_isSome, FdTable.close_get, FdTable.alloc,
      FdTable.set_get, if_true, true_and]
    refine and_congr_left fun _ => ?_
    by_cases hge : 3 ≤ p.fds.lowest
    · have h0 : p.fds.lowest ≠ 0 := by omega
      have h1 : p.fds.lowest ≠ 1 := by omega
      have h2 : p.fds.lowest ≠ 2 := by omega
      simp [h0, h1, h2, hge]
    · have hcases : p.fds.lowest = 0 ∨ p.fds.lowest = 1 ∨ p.fds.lowest = 2 := by omega
      rcases hcases with h | h | h <;> simp [h]

theorem closedStd_eq_zero_iff : closedStd fds = 0 ↔ 3 ≤ fds.lowest := by
  rw [FdTable.le_lowest_iff, closedStd, List.countP_eq_zero]
  simp only [List.mem_cons, List.not_mem_nil, or_false, Option.isNone_iff_eq_none]
  constructor
  · exact fun h m hm => h m (by omega)
  · exact fun h m hm => h m (by omega)

/-- With the log connected, one closed descriptor is made up for. -/
theorem closedStd_le_one_iff : closedStd fds ≤ 1 ↔ 3 ≤ (fds.alloc .log).2.lowest := by
  have hfree := fds.lowest_free
  have hle (n : Nat) (h : fds.get n = none) : fds.lowest ≤ n := FdTable.lowest_le h
  have hsmall : (∀ m < 3, (fds.alloc Desc.log).2.get m ≠ none) ↔ ∀ m < 3, fds.get m = none → m = fds.lowest := by
    refine forall_congr' fun m => imp_congr_right fun _ => ?_
    simp only [FdTable.alloc, FdTable.set_get]
    by_cases hm : m = fds.lowest
    · simp [hm]
    · simp [hm]
  have hsum : closedStd fds = (if fds.get 0 = none then 1 else 0) + (if fds.get 1 = none then 1 else 0) +
      if fds.get 2 = none then 1 else 0 := by
    simp only [closedStd, List.countP_cons, List.countP_nil, Option.isNone_iff_eq_none]
    omega
  rw [FdTable.le_lowest_iff, hsmall, hsum]
  constructor
  · intro hcount m hm hnone
    by_contra hne
    have hlt : fds.lowest < m := by have := hle m hnone; omega
    -- `m` and the lowest free descriptor are both closed
    have hcases : (fds.lowest = 0 ∧ m = 1) ∨ (fds.lowest = 0 ∧ m = 2) ∨ (fds.lowest = 1 ∧ m = 2) := by omega
    rcases hcases with ⟨hl, rfl⟩ | ⟨hl, rfl⟩ | ⟨hl, rfl⟩ <;> rw [hl] at hfree <;>
      simp only [hfree, hnone, if_true] at hcount <;> split at hcount <;> omega
  · intro hall
    have h0 := hall 0 (by omega)
    have h1 := hall 1 (by omega)
    have h2 := hall 2 (by omega)
    split <;> split <;> split <;> simp_all <;> omega

/-- Somebody serves exactly if every call succeeds and, in daemon mode, at most one
of the standard descriptors was closed (none, if there is no log to take its
place). The process that was started reports success in daemon mode alone, and
then as soon as the address is bound and the daemon forked: also where `setsid`
or `listen` fails, or where the daemon has closed its own socket. -/
theorem start_spec (o : StartOutcome) (args : List String) (fds : FdTable Desc) :
    ((main o args fds).server.isSome = true ↔ o.socket = true ∧ o.setsockopt = true ∧ o.bind = true ∧
      o.listen = true ∧ (args = ["-d"] → o.fork = true ∧ o.setsid = true ∧
        closedStd fds ≤ if o.connectLog = true then 1 else 0)) ∧
    ((main o args fds).status = some 0 ↔
      args = ["-d"] ∧ o.socket = true ∧ o.setsockopt = true ∧ o.bind = true ∧ o.fork = true) := by
  unfold main createSocket
  cases hsock : o.socket with
  | false => simp
  | true =>
    cases hopt : o.setsockopt with
    | false => simp
    | true =>
      cases hbind : o.bind with
      | false => simp
      | true =>
        by_cases hd : args = ["-d"]
        · cases hfork : o.fork with
          | false => simp [hd]
          | true =>
            have hserve := daemon_isSome (o := o) (p := Proc.syslog o ⟨fds, false⟩)
            have hlow : 3 ≤ (Proc.syslog o ⟨fds, false⟩).fds.lowest ↔
                closedStd fds ≤ if o.connectLog = true then 1 else 0 := by
              unfold Proc.syslog
              cases hlog : o.connectLog with
              | false => simp [← closedStd_eq_zero_iff]
              | true => simp [← closedStd_le_one_iff]
            rw [hlow] at hserve
            simp only [hd, decide_true, if_true, Bool.true_eq_false, if_false, hserve, true_and, and_true, forall_const]
            constructor
            · rintro ⟨hsetsid, hclosed, hlisten⟩
              exact ⟨hlisten, hsetsid, hclosed⟩
            · rintro ⟨hlisten, hsetsid, hclosed⟩
              exact ⟨hsetsid, hclosed, hlisten⟩
        · simp only [hd, decide_false, Bool.false_eq_true, if_false]
          cases hl : o.listen <;> simp [listen, hl, FdTable.alloc]

end Results

end Aesd.Startup
