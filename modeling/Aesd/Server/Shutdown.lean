import Aesd.Server.Process
/-!
# How the server stops

`SIGINT` and `SIGTERM` set `exit_requested`, and `main` leaves its loop. But a
failed `accept` makes it leave as well, and a `send` on a connection that its
client has reset terminates the process. When `main` returns, it has joined
just the threads that were done when the last traversal came to their nodes.
-/

namespace Aesd

open SysLib

namespace Process

variable {device : Bool} {p p' : Process} {a : Action}

/-- `main` has left its loop, or the process has been terminated. -/
def Stopped (p : Process) : Prop := p.main = .leaving ∨ p.main = .returned ∨ p.killed = true

/-- A step that does not stop the server: unless `exit_requested` is set, `main`
does not find that `accept` has failed, and no thread sends on a connection that
has been reset. -/
def Harmless (p : Process) : Action → Prop
  | .examine => p.main = .accepted none → p.exitRequested = true
  | .send t => p.reset t = true → p.exitRequested = true
  | _ => True

/-- Nothing has stopped the server but a signal. -/
def Serving (p : Process) : Prop := p.Stopped → p.exitRequested = true

theorem Serving.loops (h : p.Serving) (hk : p'.killed = p.killed) (hx : p'.exitRequested = p.exitRequested)
    (hl : p'.main ≠ .leaving) (hr : p'.main ≠ .returned) : p'.Serving := by
  rintro (he | he | he)
  · exact absurd he hl
  · exact absurd he hr
  · rw [hx]
    exact h (.inr (.inr (hk.symm.trans he)))

theorem examine_serving {r : Option Nat} (h : p.Serving) (hm : p.main = .accepted r) :
    (p.examine r).Serving ↔ p.Harmless .examine := by
  cases hx : p.exitRequested with
  | true => exact ⟨fun _ _ => hx, fun _ _ => hx⟩
  | false =>
    cases r with
    | none =>
      -- `return -1`
      have hstop : (p.examine none).main = .leaving := by
        unfold examine
        simp only [hx, Bool.false_eq_true, if_false]
      have hexit : (p.examine none).exitRequested = false := hx
      refine ⟨fun hs => ?_, fun hh => ?_⟩
      · rw [hs (.inl hstop)] at hexit
        cases hexit
      · rw [hh hm] at hx
        cases hx
    | some fd =>
      have hgo : (p.examine (some fd)).main = .create fd := by
        unfold examine
        simp only [hx, Bool.false_eq_true, if_false]
      refine ⟨fun _ he => ?_, fun _ => ?_⟩
      · rw [hm] at he
        cases he
      · refine h.loops rfl rfl ?_ ?_ <;> rw [hgo] <;> exact fun he => by cases he

theorem send_serving (h : p.Serving) (t : Nat) : (p.send t).Serving ↔ p.Harmless (.send t) := by
  unfold Process.send
  cases hr : p.reset t with
  | true =>
    rw [if_pos rfl]
    exact ⟨fun hs _ => hs (.inr (.inr rfl)), fun hh _ => hh hr⟩
  | false =>
    rw [if_neg Bool.false_ne_true]
    refine ⟨fun _ hreset => ?_, fun _ => h⟩
    rw [hr] at hreset
    cases hreset

/-- A step of a server that nothing has stopped but a signal leaves it so exactly if it is harmless. -/
theorem Step.serving (hst : Step device a p p') (h : p.Serving) : p'.Serving ↔ p.Harmless a := by
  cases hst with
  | signal => exact ⟨fun _ => trivial, fun _ _ => rfl⟩
  | loopTest hm =>
    refine ⟨fun _ => trivial, fun _ => ?_⟩
    cases hx : p.exitRequested with
    | true => exact fun _ => rfl
    | false => exact h.loops rfl hx.symm (by simp) (by simp)
  | accept r hm => exact ⟨fun _ => trivial, fun _ => h.loops rfl rfl (by simp) (by simp)⟩
  | examine hm => exact examine_serving h hm
  | create arg hm => exact ⟨fun _ => trivial, fun _ => h.loops rfl rfl (by simp [Process.create]) (by simp [Process.create])⟩
  | createFails arg hm => exact ⟨fun _ => trivial, fun _ => h.loops rfl rfl (by simp) (by simp)⟩
  | @walk _ m hm =>
    refine ⟨fun _ => trivial, fun _ => h.loops rfl rfl ?_ ?_⟩
    · show (if m.walk = .idle then Main.loop else .walks) ≠ .leaving
      split <;> simp
    · show (if m.walk = .idle then Main.loop else .walks) ≠ .returned
      split <;> simp
  | leave hm => exact ⟨fun _ => trivial, fun _ _ => h (.inl hm)⟩
  | @send _ t buffer hat => exact send_serving h t
  | _ => exact ⟨fun _ => trivial, fun _ => h⟩

def HarmlessStep (device : Bool) (p p' : Process) : Prop := p.Alive ∧ ∃ a, Step device a p p' ∧ p.Harmless a

end Process

open Process

/-! ## What stops the server -/

/-- In every run of harmless steps, `main` leaves its loop and the process ends
only after a signal; and a next step leaves it so exactly if it is harmless. -/
theorem stopped_by_signal {device : Bool} {states : List Process} {p : Process}
    (hrun : Run (HarmlessStep device) Process.start states p) :
    (p.Stopped → p.exitRequested = true) ∧ ∀ a p', p.Alive → Process.Step device a p p' →
      ((p'.Stopped → p'.exitRequested = true) ↔ p.Harmless a) := by
  have hserving : p.Serving := by
    refine hrun.inv Serving ?_ fun _ _ h ⟨_, _, hst, hh⟩ => (hst.serving h).2 hh
    rintro (he | he | he) <;> cases he
  exact ⟨hserving, fun a p' _ hst => hst.serving hserving⟩

theorem stopped_by_signal_term : ∃ states p, Run (HarmlessStep true) Process.start states p ∧ p.main = .returned ∧
    p.exitRequested = true := by
  have h0 : Run (HarmlessStep true) Process.start [] _ := .nil
  have h1 := h0.snoc ⟨⟨nofun, rfl⟩, _, .loopTest rfl, trivial⟩
  have h2 := h1.snoc ⟨⟨nofun, rfl⟩, _, .accept none rfl (fun _ hfd => by cases hfd), trivial⟩
  have h3 := h2.snoc ⟨⟨nofun, rfl⟩, _, .signal, trivial⟩
  have h4 := h3.snoc ⟨⟨nofun, rfl⟩, _, .examine rfl, fun _ => rfl⟩
  have h5 := h4.snoc ⟨⟨nofun, rfl⟩, _, .loopTest rfl, trivial⟩
  have h6 := h5.snoc ⟨⟨nofun, rfl⟩, _, .leave rfl, trivial⟩
  exact ⟨_, _, h6, rfl, (stopped_by_signal h6).1 (.inr (.inl rfl))⟩

/-- A client that aborts its connection before it is accepted, and one that
resets it before the response is sent: no signal has come. -/
theorem stopped_by_client :
    (∃ states p, Run (AnyStep true) Process.start states p ∧ p.main = .returned ∧ p.exitRequested = false) ∧
    ∃ states p, Run (AnyStep true) Process.start states p ∧ p.killed = true ∧ p.exitRequested = false := by
  have h0 : Run (AnyStep true) Process.start [] _ := .nil
  have h1 := h0.snoc ⟨⟨nofun, rfl⟩, _, .loopTest rfl⟩
  constructor
  · have h2 := h1.snoc ⟨⟨nofun, rfl⟩, _, .accept none rfl (fun _ hfd => by cases hfd)⟩
    have h3 := h2.snoc ⟨⟨nofun, rfl⟩, _, .examine rfl⟩
    have h4 := h3.snoc ⟨⟨nofun, rfl⟩, _, .leave rfl⟩
    exact ⟨_, _, h4, rfl, rfl⟩
  · have h2 := h1.snoc ⟨⟨nofun, rfl⟩, _, .accept (some 4) rfl (fun _ _ => rfl)⟩
    have h3 := h2.snoc ⟨⟨nofun, rfl⟩, _, .examine rfl⟩
    have h4 := h3.snoc ⟨⟨nofun, rfl⟩, _, .create 1 rfl rfl⟩
    have h5 := h4.snoc ⟨⟨nofun, rfl⟩, _, .recv (t := 0) [97, 10] ⟨⟨1, rfl⟩, rfl⟩ (by decide)⟩
    have h6 := h5.snoc ⟨⟨nofun, rfl⟩, _, .lock (t := 0) ⟨⟨1, rfl⟩, rfl⟩ rfl⟩
    have h7 := h6.snoc ⟨⟨nofun, rfl⟩, _,
      .openFile (t := 0) (some 5) ⟨⟨1, rfl⟩, rfl⟩ (fun _ hfd => by cases hfd; rfl)⟩
    have h8 := h7.snoc ⟨⟨nofun, rfl⟩, _, .write (t := 0) ⟨⟨1, rfl⟩, rfl⟩⟩
    have h9 := h8.snoc ⟨⟨nofun, rfl⟩, _, .unlock (t := 0) ⟨⟨1, rfl⟩, rfl⟩⟩
    have h10 := h9.snoc ⟨⟨nofun, rfl⟩, _,
      .read (t := 0) [some 97, some 10] ⟨⟨1, rfl⟩, rfl⟩ (by decide)⟩
    have h11 := h10.snoc ⟨⟨nofun, rfl⟩, _, .reset 0⟩
    have h12 := h11.snoc ⟨⟨nofun, rfl⟩, _, .send (t := 0) ⟨⟨1, rfl⟩, rfl⟩⟩
    exact ⟨_, _, h12, rfl, rfl⟩

/-! ## What is left when `main` returns -/

/-- Thread `t` has returned, it has been joined, and its node is freed. -/
def Process.Reaped (p : Process) (t : Nat) : Prop :=
  p.threads.worker t = some .returned ∧ t ∈ p.threads.joined ∧ ∀ a n, p.threads.nodes a = some n → n.thread ≠ some t

theorem passed_met {device : Bool} {states : List Process} {p : Process}
    (hrun : Run (AnyStep device) Process.start states p) :
    ∀ t ∈ p.threads.passed, ∃ q ∈ Process.start :: states, q.threads.Meets t false := by
  refine (hrun.induct (fun states p => p.Sound ∧ p ∈ Process.start :: states ∧
    ∀ t ∈ p.threads.passed, ∃ q ∈ Process.start :: states, q.threads.Meets t false) ?_ ?_).2.2
  · exact ⟨start_sound, List.mem_singleton_self _, fun t ht => by cases ht⟩
  · rintro states p p' - ⟨hs, hmem, h⟩ ⟨-, a, hst⟩
    have hgrow : ∀ q ∈ Process.start :: states, q ∈ Process.start :: (states ++ [p']) := fun q hq => by
      rw [← List.cons_append]
      exact List.mem_append_left _ hq
    refine ⟨hs.step hst, by simp, fun t ht => ?_⟩
    have hbefore : t ∈ p.threads.passed ∨ p.threads.Meets t false := by
      rcases hst.threads fun ⟨_, hm⟩ => hs.idle_create hm with he | hthreads
      · exact .inl (he ▸ ht)
      · exact hthreads.passed t ht
    rcases hbefore with hpassed | hmeets
    · obtain ⟨q, hq, hmeets⟩ := h t hpassed
      exact ⟨q, hgrow q hq, hmeets⟩
    · exact ⟨p, hgrow p hmem, hmeets⟩

/-- In every run, when `main` has returned every thread is reaped exactly if the
last traversal has passed no thread, and it has passed those that it met before
they had set their flags. -/
theorem reaped_iff {device : Bool} {states : List Process} {p : Process}
    (hrun : Run (AnyStep device) Process.start states p) (hm : p.main = .returned) :
    ((∀ t < p.threads.count, p.Reaped t) ↔ p.threads.passed = []) ∧
      ∀ t ∈ p.threads.passed, ∃ q ∈ Process.start :: states, q.threads.Meets t false := by
  refine ⟨?_, passed_met hrun⟩
  have hs := sound_of_run hrun
  obtain ⟨l, extra, hinv⟩ := hs.inv
  have hidle : p.threads.walk = .idle := hs.idle (by rw [hm]; simp)
  have hbetween := hinv.between hidle
  constructor
  · intro h
    rw [hbetween.passed, List.map_eq_nil_iff]
    refine List.eq_nil_iff_forall_not_mem.2 fun x hx => ?_
    have hmem : x.2 ∈ l.map Prod.snd := List.mem_map.2 ⟨x, hx, rfl⟩
    have hlt : x.2 < p.threads.count := by
      refine hinv.bound x.2 (.inl ?_)
      rw [List.map_append]
      exact List.mem_append_left _ hmem
    exact hinv.listed x.2 hmem (h x.2 hlt).2.1
  · intro hnil t ht
    rw [hbetween.passed] at hnil
    rcases hbetween.once t ht with ⟨hl, -⟩ | ⟨hj, -, hfree⟩
    · rw [hnil] at hl
      cases hl
    · exact ⟨hinv.ended t hj, hj, hfree⟩

/-- The only thread ends while `main` walks to the end of the list, and is found done. -/
theorem reaped_iff_one : ∃ states p, Run (AnyStep true) Process.start states p ∧ p.main = .returned ∧
    p.threads.count = 1 ∧ ∀ t < p.threads.count, p.Reaped t := by
  have h0 : Run (AnyStep true) Process.start [] _ := .nil
  have h1 := h0.snoc ⟨⟨nofun, rfl⟩, _, .loopTest rfl⟩
  have h2 := h1.snoc ⟨⟨nofun, rfl⟩, _, .accept (some 4) rfl (fun _ _ => rfl)⟩
  have h3 := h2.snoc ⟨⟨nofun, rfl⟩, _, .examine rfl⟩
  have h4 := h3.snoc ⟨⟨nofun, rfl⟩, _, .create 1 rfl rfl⟩
  have h5 := h4.snoc ⟨⟨nofun, rfl⟩, _, .recv (t := 0) [] ⟨⟨1, rfl⟩, rfl⟩ (by decide)⟩
  have h6 := h5.snoc ⟨⟨nofun, rfl⟩, _, .lock (t := 0) ⟨⟨1, rfl⟩, rfl⟩ rfl⟩
  have h7 := h6.snoc ⟨⟨nofun, rfl⟩, _, .unlock (t := 0) ⟨⟨1, rfl⟩, rfl⟩⟩
  have h8 := h7.snoc ⟨⟨nofun, rfl⟩, _, .closeClient (t := 0) ⟨⟨1, rfl⟩, rfl⟩ rfl rfl⟩
  have h9 := h8.snoc ⟨⟨nofun, rfl⟩, _, .setDone (t := 0) rfl rfl rfl⟩
  have h10 := h9.snoc ⟨⟨nofun, rfl⟩, _, .returns (t := 0) rfl⟩
  have h11 := h10.snoc ⟨⟨nofun, rfl⟩, _, .walk rfl nofun (Threads.not_waits nofun) rfl⟩
  have h12 := h11.snoc ⟨⟨nofun, rfl⟩, _, .walk rfl nofun (Threads.not_waits nofun) rfl⟩
  have h13 := h12.snoc ⟨⟨nofun, rfl⟩, _, .walk rfl nofun (Threads.not_waits nofun) rfl⟩
  have h14 := h13.snoc ⟨⟨nofun, rfl⟩, _, .walk rfl nofun (Threads.not_waits_returned rfl rfl rfl rfl) rfl⟩
  have h15 := h14.snoc ⟨⟨nofun, rfl⟩, _, .walk rfl nofun (Threads.not_waits nofun) rfl⟩
  have h16 := h15.snoc ⟨⟨nofun, rfl⟩, _, .walk rfl nofun (Threads.not_waits nofun) rfl⟩
  have h17 := h16.snoc ⟨⟨nofun, rfl⟩, _, .signal⟩
  have h18 := h17.snoc ⟨⟨nofun, rfl⟩, _, .loopTest rfl⟩
  have h19 := h18.snoc ⟨⟨nofun, rfl⟩, _, .leave rfl⟩
  exact ⟨_, _, h19, rfl, rfl, (reaped_iff h19 rfl).1.2 rfl⟩

/-- The client of the only thread has sent its packet, when a signal ends the
loop: `main` returns, and the packet is not committed. -/
theorem thread_cut_off : ∃ states p, Run (AnyStep true) Process.start states p ∧ p.exitRequested = true ∧
    p.main = .returned ∧ p.threads.count = 1 ∧ ¬ p.Reaped 0 ∧ p.At 0 .lock ∧ (p.client 0).conn.chunks = [[97, 10]] := by
  have h0 : Run (AnyStep true) Process.start [] _ := .nil
  have h1 := h0.snoc ⟨⟨nofun, rfl⟩, _, .loopTest rfl⟩
  have h2 := h1.snoc ⟨⟨nofun, rfl⟩, _, .accept (some 4) rfl (fun _ _ => rfl)⟩
  have h3 := h2.snoc ⟨⟨nofun, rfl⟩, _, .examine rfl⟩
  have h4 := h3.snoc ⟨⟨nofun, rfl⟩, _, .create 1 rfl rfl⟩
  have h5 := h4.snoc ⟨⟨nofun, rfl⟩, _, .walk rfl nofun (Threads.not_waits nofun) rfl⟩
  have h6 := h5.snoc ⟨⟨nofun, rfl⟩, _, .walk rfl nofun (Threads.not_waits nofun) rfl⟩
  have h7 := h6.snoc ⟨⟨nofun, rfl⟩, _, .walk rfl nofun (Threads.not_waits nofun) rfl⟩
  have h8 := h7.snoc ⟨⟨nofun, rfl⟩, _, .walk rfl nofun (Threads.not_waits nofun) rfl⟩
  have h9 := h8.snoc ⟨⟨nofun, rfl⟩, _, .recv (t := 0) [97, 10] ⟨⟨1, rfl⟩, rfl⟩ (by decide)⟩
  have h10 := h9.snoc ⟨⟨nofun, rfl⟩, _, .signal⟩
  have h11 := h10.snoc ⟨⟨nofun, rfl⟩, _, .loopTest rfl⟩
  have h12 := h11.snoc ⟨⟨nofun, rfl⟩, _, .leave rfl⟩
  refine ⟨_, _, h12, rfl, rfl, rfl, fun h => ?_, ⟨⟨1, rfl⟩, rfl⟩, rfl⟩
  exact List.not_mem_nil h.2.1

end Aesd
