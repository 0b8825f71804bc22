import Aesd.Server.Commit
import Aesd.Server.Snapshot
/-!
# One connection

What a connection does to the device and what it answers, as a function of the
bytes it has collected: a seek command moves its file, anything else is stored;
then everything from the file's position on is sent. `connection_answers` proves
that every complete run of the server does this, and `connection_completes` that
a connection which has its message does complete.
-/

namespace Aesd

open SysLib

/-! ## What a message does -/

namespace Device

/-- A message is stored. -/
def store (d : Device) (message : List UInt8) : Device :=
  ⟨d.log.append maxWriteOperationsSupported isNewline (message.map some), false, d.lock⟩

/-- Chunks are stored one after another. -/
def storeAll (d : Device) (chunks : List (List UInt8)) : Device :=
  ⟨d.log.appendAll maxWriteOperationsSupported isNewline (chunks.map (List.map some)), d.lost && chunks.isEmpty, d.lock⟩

/-- The device after a connection has handled its message. -/
def after (d : Device) (message : List UInt8) : Device :=
  if message = [] then d
  else
    match findCommand [message] AESDCHAR_IOCSEEKTO_CMD with
    | some _ => d
    | none => d.store message

/-- Where the response begins. -/
def startAt (d : Device) (message : List UInt8) : Int :=
  ((findCommand [message] AESDCHAR_IOCSEEKTO_CMD).map fun seekto => (ioctlFinish (d.place seekto) ⟨true, 0⟩).2).getD 0

/-- The response; there is none if no byte came. -/
def response (d : Device) (message : List UInt8) : List Cell :=
  if message = [] then [] else (d.after message).log.contents.drop (d.startAt message).toNat

theorem storeAll_snoc (d : Device) (chunks : List (List UInt8)) (c : List UInt8) :
    d.storeAll (chunks ++ [c]) = (d.storeAll chunks).store c := by
  simp [storeAll, store, LineLog.appendAll]

/-- Chunks of which only the last may have a newline are stored as one message. -/
theorem storeAll_eq (d : Device) {chunks : List (List UInt8)} (hne : chunks ≠ []) (h : Collected chunks) :
    d.storeAll chunks = d.store chunks.flatten := by
  obtain ⟨cs, last, rfl⟩ : ∃ cs last, chunks = cs ++ [last] :=
    ⟨_, _, (List.dropLast_append_getLast hne).symm⟩
  have hno : ∀ p ∈ cs.map (List.map some), p.any isNewline = false := by
    intro p hp
    obtain ⟨c, hc, rfl⟩ := List.mem_map.1 hp
    rw [← Bool.not_eq_true, any_isNewline]
    simpa using h c (by rw [List.dropLast_concat]; exact hc)
  rw [storeAll, store, List.map_append, List.map_singleton, LineLog.appendAll_eq _ _ _ _ _ hno]
  simp [List.map_flatten]

theorem after_command {d : Device} {message : List UInt8} {seekto : AesdSeekto}
    (h : findCommand [message] AESDCHAR_IOCSEEKTO_CMD = some seekto) : d.after message = d := by
  rw [after, h]
  exact ite_self d

theorem after_data {d : Device} {message : List UInt8} (hne : message ≠ [])
    (h : findCommand [message] AESDCHAR_IOCSEEKTO_CMD = none) : d.after message = d.store message := by
  rw [after, if_neg hne, h]

theorem startAt_command {d : Device} {message : List UInt8} {seekto : AesdSeekto}
    (h : findCommand [message] AESDCHAR_IOCSEEKTO_CMD = some seekto) :
    d.startAt message = (ioctlFinish (d.place seekto) ⟨true, 0⟩).2 := by
  rw [startAt, h, Option.map_some, Option.getD_some]

theorem startAt_data {d : Device} {message : List UInt8}
    (h : findCommand [message] AESDCHAR_IOCSEEKTO_CMD = none) : d.startAt message = 0 := by
  rw [startAt, h, Option.map_none, Option.getD_none]

end Device

/-! ## What recv collects -/

/-- What has been collected when `recv` stops: a part of the stream, cut after
the first chunk that has a newline, or all of it. -/
structure Gathered (stream : List UInt8) (chunks : List (List UInt8)) : Prop where
  collected : Collected chunks
  nonempty : [] ∉ chunks
  part : ∃ left, chunks.flatten ++ left = stream ∧ (newline ∈ chunks.flatten ∨ left = [])

theorem flatten_eq_nil {chunks : List (List UInt8)} (h : [] ∉ chunks) : chunks.flatten = [] ↔ chunks = [] := by
  rw [List.flatten_eq_nil_iff]
  constructor
  · intro hall
    cases chunks with
    | nil => rfl
    | cons c cs =>
      refine absurd ?_ h
      rw [hall c List.mem_cons_self]
      exact List.mem_cons_self
  · rintro rfl
    simp

theorem Gathered.findCommand {stream : List UInt8} {chunks : List (List UInt8)} (h : Gathered stream chunks)
    (hne : chunks ≠ []) (command : List UInt8) :
    Aesd.findCommand chunks command = Aesd.findCommand [chunks.flatten] command :=
  findCommand_flatten command hne h.collected

/-- A chunk with the first newline ends the collecting. -/
theorem gathered_snoc {stream bytes left : List UInt8} {chunks : List (List UInt8)} (hnl : newline ∉ chunks.flatten)
    (hemp : [] ∉ chunks) (hne : bytes ≠ []) (hb : newline ∈ bytes) (hflat : chunks.flatten ++ (bytes ++ left) = stream) :
    Gathered stream (chunks ++ [bytes]) :=
  ⟨collected_snoc hnl bytes, by simpa using ⟨hemp, hne⟩, left, by simpa using hflat, .inl (by simp [hb])⟩

/-- A chunk without one leaves more to collect. -/
theorem gathering_snoc {stream bytes left : List UInt8} {chunks : List (List UInt8)} (hnl : newline ∉ chunks.flatten)
    (hemp : [] ∉ chunks) (hne : bytes ≠ []) (hb : newline ∉ bytes) (hflat : chunks.flatten ++ (bytes ++ left) = stream) :
    (chunks ++ [bytes]).flatten ++ left = stream ∧ newline ∉ (chunks ++ [bytes]).flatten ∧ [] ∉ chunks ++ [bytes] := by
  refine ⟨by simpa using hflat, ?_, by simpa using ⟨hemp, hne⟩⟩
  rw [List.flatten_append, List.flatten_singleton, List.mem_append]
  exact fun hn => hn.elim hnl hb

/-- The end of the stream ends it too. -/
theorem gathered_end {stream : List UInt8} {chunks : List (List UInt8)} (hnl : newline ∉ chunks.flatten)
    (hemp : [] ∉ chunks) (hflat : chunks.flatten ++ [] = stream) : Gathered stream chunks := by
  refine ⟨fun c hc hn => hnl ?_, hemp, [], hflat, .inr rfl⟩
  exact List.mem_flatten.2 ⟨c, (List.dropLast_sublist _).mem hc, hn⟩

/-- A complete write stores its bytes. -/
theorem write_stores {k : Kernel} {s : Sys} {ring rest : List (Nat × List Cell)} {pend : List Cell} {o : Outcome}
    {f : File} {r : Return} {src : List UInt8} (h : Holds k s ring pend rest) (hl : s.dev.lock = false)
    (he : Call.exec k o (some f) (.write (some src)) s = .ok r) (hr : r.ret = some (src.length : Int)) :
    Ok k r.sys ∧ r.sys.dev.lock = false ∧ r.fPos = f.fPos ∧ device r.sys = (device s).store src := by
  obtain ⟨hp, hl', rest', hw⟩ := write_done h he hr
  rw [h.device, Device.store, hl]
  rcases hw with ⟨hn, -, hne, hh⟩ | ⟨hn, -, i, hh⟩
  · refine ⟨⟨_, _, _, hh⟩, hl', hp, ?_⟩
    rw [hh.device, append_kept _ _ hn, hl']
    simp [hne]
  · refine ⟨⟨_, _, _, hh⟩, hl', hp, ?_⟩
    rw [hh.device, append_committed _ _ i hn, hl']
    simp

/-- The response begins at a position that is not negative. -/
theorem startAt_cases {k : Kernel} {s : Sys} {ring rest : List (Nat × List Cell)} {pend : List Cell}
    (h : Holds k s ring pend rest) (message : List UInt8) :
    ∃ pos : Nat, (device s).startAt message = pos ∧ pos < 2 ^ 63 := by
  cases hc : findCommand [message] AESDCHAR_IOCSEEKTO_CMD with
  | some seekto =>
    rw [Device.startAt_command hc]
    rcases h.place_cases seekto with hfail | ⟨pos, hp, hlt⟩
    · rw [hfail, ioctlFinish, if_pos rfl]; exact ⟨0, rfl, by decide⟩
    · rw [hp, ioctlFinish, if_neg (by omega)]; exact ⟨pos, rfl, hlt⟩
  | none =>
    rw [Device.startAt_data hc]
    exact ⟨0, rfl, by decide⟩

/-! ## The connection's run -/

/-- What holds of the only connection, if the device was `d` when it began. -/
def Answering (d : Device) (stream : List UInt8) (n : Net Unit) : Prop :=
  let c := n.conn ()
  let message := c.chunks.flatten
  match c.stage with
  | .recv => n.mutex = none ∧ c.fileFd = false ∧ n.response () = [] ∧ device n.sys = d ∧
      message ++ n.incoming () = stream ∧ newline ∉ message ∧ [] ∉ c.chunks
  | .lock => n.mutex = none ∧ c.fileFd = false ∧ n.response () = [] ∧ device n.sys = d ∧ Gathered stream c.chunks
  | .openFile => n.response () = [] ∧ device n.sys = d ∧ Gathered stream c.chunks ∧ c.chunks ≠ []
  | .ioctl seekto => n.response () = [] ∧ device n.sys = d ∧ Gathered stream c.chunks ∧ c.chunks ≠ [] ∧
      c.fileFd = true ∧ n.file () = ⟨true, 0⟩ ∧ findCommand [message] AESDCHAR_IOCSEEKTO_CMD = some seekto
  | .write node => n.response () = [] ∧ Gathered stream c.chunks ∧ node ≠ [] ∧ c.fileFd = true ∧
      n.file () = ⟨true, 0⟩ ∧ findCommand [message] AESDCHAR_IOCSEEKTO_CMD = none ∧
      ∃ done, c.chunks = done ++ node ∧ device n.sys = d.storeAll done
  | .unlock => n.response () = [] ∧ device n.sys = d.after message ∧ Gathered stream c.chunks ∧
      ((c.chunks = [] ∧ c.fileFd = false) ∨
        (c.chunks ≠ [] ∧ c.fileFd = true ∧ n.file () = ⟨true, d.startAt message⟩))
  | .read => device n.sys = d.after message ∧ Gathered stream c.chunks ∧ c.chunks ≠ [] ∧
      Delivered n.sys (n.file ()) (d.startAt message) (n.response ())
  | .send buffer => device n.sys = d.after message ∧ Gathered stream c.chunks ∧ c.chunks ≠ [] ∧
      Delivered n.sys (n.file ()) (d.startAt message) (n.response () ++ buffer)
  | .close => device n.sys = d.after message ∧ Gathered stream c.chunks ∧ n.response () = d.response message
  | .finished => device n.sys = d.after message ∧ Gathered stream c.chunks ∧ n.response () = d.response message

section Run

variable {k : Kernel} {s₀ : Sys} {stream : List UInt8} {n n' : Net Unit}

theorem answering_start (s₀ : Sys) (stream : List UInt8) : Answering (device s₀) stream (Net.start s₀ fun _ => stream) :=
  ⟨rfl, rfl, rfl, rfl, rfl, List.not_mem_nil, List.not_mem_nil⟩

theorem device_contents (s : Sys) : s.contents = (device s).log.contents := rfl

theorem Answering.recv (h : Answering (device s₀) stream n) {bytes left : List UInt8} (hs : (n.conn ()).stage = .recv)
    (hin : n.incoming () = bytes ++ left) (hne : bytes ≠ []) :
    Answering (device s₀) stream
      { n.goto () ((n.conn ()).onRecv bytes) with incoming := Function.update n.incoming () left } := by
  simp only [Answering, hs] at h
  obtain ⟨hm, hfd, hresp, hdev, hflat, hnl, hemp⟩ := h
  rw [hin] at hflat
  by_cases hb : newline ∈ bytes
  · simp only [Answering, Net.goto, Function.update_self, Conn.onRecv_line _ hne hb]
    exact ⟨hm, hfd, hresp, hdev, gathered_snoc hnl hemp hne hb hflat⟩
  · simp only [Answering, Net.goto, Function.update_self, Conn.onRecv_more _ hne hb]
    exact ⟨hm, hfd, hresp, hdev, gathering_snoc hnl hemp hne hb hflat⟩

theorem Answering.hangup (h : Answering (device s₀) stream n) (hs : (n.conn ()).stage = .recv)
    (hin : n.incoming () = []) : Answering (device s₀) stream (n.goto () ((n.conn ()).onRecv [])) := by
  simp only [Answering, hs] at h
  obtain ⟨hm, hfd, hresp, hdev, hflat, hnl, hemp⟩ := h
  simp only [Answering, Net.goto, Function.update_self, Conn.onRecv_end]
  exact ⟨hm, hfd, hresp, hdev, gathered_end hnl hemp (by rw [← hin]; exact hflat)⟩

/-- Only a connection that has received something goes on to `open`. -/
theorem Answering.lock (h : Answering (device s₀) stream n) (hs : (n.conn ()).stage = .lock) :
    Answering (device s₀) stream
      { n.goto () (n.conn ()).onLock with mutex := some (), acquired := n.acquired ++ [()] } := by
  simp only [Answering, hs] at h
  obtain ⟨-, hfd, hresp, hdev, hg⟩ := h
  by_cases hne : (n.conn ()).chunks = []
  · simp only [Answering, Net.goto, Function.update_self, Conn.onLock_nothing _ hne]
    refine ⟨hresp, ?_, hg, .inl ⟨hne, hfd⟩⟩
    rw [hne, List.flatten_nil, Device.after, if_pos rfl]
    exact hdev
  · simp only [Answering, Net.goto, Function.update_self, Conn.onLock_data _ hne]
    exact ⟨hresp, hdev, hg, hne⟩

/-- The file is open at position 0, and the message is parsed. -/
theorem Answering.openFile (h : Answering (device s₀) stream n) (hs : (n.conn ()).stage = .openFile) :
    Answering (device s₀) stream
      { n.goto () ((n.conn ()).onOpen true) with file := Function.update n.file () (aesdOpen ⟨false, 0⟩).2 } := by
  simp only [Answering, hs] at h
  obtain ⟨hresp, hdev, hg, hne⟩ := h
  have hcmd := hg.findCommand hne AESDCHAR_IOCSEEKTO_CMD
  rcases Conn.onOpen_cases _ hne with ⟨seekto, hfound, hopen⟩ | ⟨hfound, hopen⟩
  · rw [hcmd] at hfound
    simp only [Answering, Net.goto, Function.update_self, hopen]
    exact ⟨hresp, hdev, hg, hne, trivial, rfl, hfound⟩
  · rw [hcmd] at hfound
    simp only [Answering, Net.goto, Function.update_self, hopen]
    refine ⟨hresp, hg, hne, trivial, rfl, hfound, [], rfl, ?_⟩
    rw [hdev]
    simp [Device.storeAll, LineLog.appendAll]

/-- A chunk has been stored. After the last one the message is. -/
theorem Answering.write (h : Answering (device s₀) stream n) {chunk : List UInt8} {node : List (List UInt8)} {r : Return}
    (hs : (n.conn ()).stage = .write (chunk :: node)) (hpos : r.fPos = (n.file ()).fPos)
    (hstore : device r.sys = (device n.sys).store chunk) :
    Answering (device s₀) stream ((n.goto () ((n.conn ()).onWrite node)).returned () r) := by
  simp only [Answering, hs] at h
  obtain ⟨hresp, hg, -, hfd, hf, hfound, done, hchunks, hdev⟩ := h
  have hdone : (n.conn ()).chunks = (done ++ [chunk]) ++ node := by simp [hchunks]
  have hdev' : device r.sys = (device s₀).storeAll (done ++ [chunk]) := by
    rw [hstore, hdev, Device.storeAll_snoc]
  have hfile : ({ n.file () with fPos := r.fPos } : File) = ⟨true, 0⟩ := by rw [hpos, hf]
  by_cases hnode : node = []
  · subst hnode
    have hne : (n.conn ()).chunks ≠ [] := by rw [hchunks]; simp
    simp only [Answering, Net.goto, Net.returned, Function.update_self, Conn.onWrite_last]
    refine ⟨hresp, ?_, hg, .inr ⟨hne, hfd, ?_⟩⟩
    · rw [List.append_nil] at hdone
      rw [hdev', ← hdone, Device.storeAll_eq _ hne hg.collected,
        Device.after_data (mt (flatten_eq_nil hg.nonempty).1 hne) hfound]
    · rw [hfile, Device.startAt_data hfound]
  · simp only [Answering, Net.goto, Net.returned, Function.update_self, Conn.onWrite_more _ hfd hnode]
    exact ⟨hresp, hg, hnode, hfd, hfile, hfound, done ++ [chunk], hdone, hdev'⟩

/-- A connection with an open file starts to read; any other has nothing to send. -/
theorem Answering.unlock (h₀ : Ok k s₀) (h : Answering (device s₀) stream n) (hs : (n.conn ()).stage = .unlock)
    (mutex : Option Unit) (readFrom : Unit → Int) :
    Answering (device s₀) stream { n.goto () (n.conn ()).onUnlock with mutex := mutex, readFrom := readFrom } := by
  simp only [Answering, hs] at h
  obtain ⟨hresp, hdev, hg, hfile⟩ := h
  rcases hfile with ⟨hnil, hfd⟩ | ⟨hne, hfd, hf⟩
  · simp only [Answering, Net.goto, Function.update_self, Conn.onUnlock, hfd, Bool.false_eq_true, if_false]
    refine ⟨hdev, hg, ?_⟩
    rw [hresp, Device.response, if_pos (by rw [hnil]; rfl)]
  · obtain ⟨ring, pend, rest, h₀⟩ := h₀
    obtain ⟨pos, hpos, hlt⟩ := startAt_cases h₀ (n.conn ()).chunks.flatten
    simp only [Answering, Net.goto, Function.update_self, Conn.onUnlock, hfd, if_true]
    refine ⟨hdev, hg, hne, pos, pos, by rw [hf, hpos], hlt, hpos, ?_⟩
    rw [hresp]
    exact follows_nil_iff.2 rfl

/-- A read delivers more of the response, or it is complete. -/
theorem Answering.read (h : Answering (device s₀) stream n) (hok : Ok k n.sys) (hl : n.sys.dev.lock = false) {o : Outcome}
    {r : Return} (hs : (n.conn ()).stage = .read) (ho : o.Good)
    (he : Call.exec k o (some (n.file ())) (.read true BUFFER_SIZE) n.sys = .ok r) :
    r.sys = n.sys ∧ Answering (device s₀) stream ((n.goto () ((n.conn ()).onRead r.data)).returned () r) := by
  simp only [Answering, hs] at h
  obtain ⟨hdev, hg, hne, hdel⟩ := h
  obtain ⟨ring, pend, rest, hh⟩ := hok
  obtain ⟨hsys, hread⟩ := hdel.read hh hl ho he
  refine ⟨hsys, ?_⟩
  simp only [Answering, Net.goto, Net.returned, Function.update_self, Conn.onRead]
  rcases hread with ⟨hd, hall⟩ | ⟨hd, -, -, hdel'⟩
  · simp only [if_pos hd]
    refine ⟨by rw [hsys]; exact hdev, hg, ?_⟩
    rw [hall, device_contents, hdev, Device.response, if_neg (mt (flatten_eq_nil hg.nonempty).1 hne)]
  · simp only [if_neg hd]
    exact ⟨by rw [hsys]; exact hdev, hg, hne, by rw [hsys]; exact hdel'⟩

/-- Every call of the connection keeps the invariant. -/
theorem Answering.step (h₀ : Ok k s₀) (h : Answering (device s₀) stream n) (hok : Ok k n.sys) (hl : n.sys.dev.lock = false)
    (hst : Net.Step k () n n') :
    Answering (device s₀) stream n' ∧ Ok k n'.sys ∧ n'.sys.dev.lock = false := by
  cases hst with
  | recv bytes left hs hin hne hlen => exact ⟨h.recv hs hin hne, hok, hl⟩
  | hangup hs hin => exact ⟨h.hangup hs hin, hok, hl⟩
  | lock hs hfree => exact ⟨h.lock hs, hok, hl⟩
  | openFile hs => exact ⟨h.openFile hs, hok, hl⟩
  | @ioctl seekto o r hs ho he =>
    simp only [Answering, hs] at h
    obtain ⟨hresp, hdev, hg, hne, hfd, hf, hfound⟩ := h
    obtain ⟨ring, pend, rest, hh⟩ := hok
    rw [hf] at he
    have hsys : r.sys = n.sys := ioctl_quiet hh hl he
    have hpos := ioctl_place hh hl ho rfl he
    have hok' : Ok k r.sys ∧ r.sys.dev.lock = false := by rw [hsys]; exact ⟨⟨ring, pend, rest, hh⟩, hl⟩
    refine ⟨?_, hok'⟩
    simp only [Answering, Net.goto, Net.returned, Function.update_self, Conn.onIoctl]
    refine ⟨hresp, ?_, hg, .inr ⟨hne, hfd, ?_⟩⟩
    · rw [hsys, hdev, Device.after_command hfound]
    · rw [hf, hpos, hdev, Device.startAt_command hfound]
  | @write chunk node o r hs he hr =>
    obtain ⟨ring, pend, rest, hh⟩ := hok
    obtain ⟨hok', hl', hpos, hstore⟩ := write_stores hh hl he hr
    exact ⟨h.write hs hpos hstore, hok', hl'⟩
  | unlock hs => exact ⟨h.unlock h₀ hs _ _, hok, hl⟩
  | @read o r hs ho he =>
    obtain ⟨hsys, h'⟩ := h.read hok hl hs ho he
    exact ⟨h', by rw [show ((n.goto () ((n.conn ()).onRead r.data)).returned () r).sys = r.sys from rfl, hsys]; exact ⟨hok, hl⟩⟩
  | send hs =>
    simp only [Answering, hs] at h
    refine ⟨?_, hok, hl⟩
    simp only [Answering, Net.goto, Function.update_self, Conn.onSend]
    exact h
  | close hs =>
    simp only [Answering, hs] at h
    refine ⟨?_, hok, hl⟩
    simp only [Answering, Net.goto, Function.update_self, Conn.onClose]
    exact h

/-- The connection on a device that is not locked. -/
structure Running (k : Kernel) (s₀ : Sys) (stream : List UInt8) (n : Net Unit) : Prop where
  ok : Ok k n.sys
  free : n.sys.dev.lock = false
  answering : Answering (device s₀) stream n

theorem running_start (h₀ : Ok k s₀) (hl : s₀.dev.lock = false) (stream : List UInt8) :
    Running k s₀ stream (Net.start s₀ fun _ => stream) :=
  ⟨h₀, hl, answering_start s₀ stream⟩

theorem Running.step (h₀ : Ok k s₀) (h : Running k s₀ stream n) (hst : Net.Step k () n n') :
    Running k s₀ stream n' := by
  obtain ⟨ha, hok, hl⟩ := h.answering.step h₀ h.ok h.free hst
  exact ⟨hok, hl, ha⟩

/-- A connection that runs alone and completes has handled what it collected, as
`Device.after` and `Device.response` say. -/
theorem connection_answers (h₀ : Ok k s₀) (hl : s₀.dev.lock = false) {l : List (Net Unit)}
    (hrun : Run (Net.AnyStep k) (Net.start s₀ fun _ => stream) l n) (hfin : (n.conn ()).stage = .finished) :
    Ok k n.sys ∧ Gathered stream (n.conn ()).chunks ∧
      device n.sys = (device s₀).after (n.conn ()).chunks.flatten ∧
      n.response () = (device s₀).response (n.conn ()).chunks.flatten := by
  have h := hrun.inv (Running k s₀ stream) (running_start h₀ hl stream) fun _ _ h ⟨_, hst⟩ => h.step h₀ hst
  have ha := h.answering
  simp only [Answering, hfin] at ha
  exact ⟨h.ok, ha.2.1, ha.1, ha.2.2⟩

/-! ## Completion -/

/-- The connection can complete, having collected these chunks. -/
def Completes (k : Kernel) (n : Net Unit) (chunks : List (List UInt8)) : Prop :=
  ∃ l n', Run (Net.AnyStep k) n l n' ∧ (n'.conn ()).stage = .finished ∧ (n'.conn ()).chunks = chunks

theorem Completes.step {chunks : List (List UInt8)} (h : Completes k n' chunks) (hst : Net.Step k () n n') :
    Completes k n chunks := by
  obtain ⟨l, m, hrun, hfin, hchunks⟩ := h
  exact ⟨n' :: l, m, hrun.head ⟨(), hst⟩, hfin, hchunks⟩

variable {chunks : List (List UInt8)}

theorem completes_close (hs : (n.conn ()).stage = .close) (hc : (n.conn ()).chunks = chunks) :
    Completes k n chunks := by
  refine ⟨_, _, Run.nil.snoc ⟨(), .close hs⟩, ?_, ?_⟩
  · simp only [Net.goto, Function.update_self, Conn.onClose]
  · simp only [Net.goto, Function.update_self, Conn.onClose, hc]

/-- The loop that reads the device back ends: each read that delivers something
leaves less to deliver. -/
theorem completes_read (h₀ : Ok k s₀) (h : Running k s₀ stream n) (hs : (n.conn ()).stage = .read)
    (hc : (n.conn ()).chunks = chunks) : Completes k n chunks := by
  generalize hm : n.sys.contents.length - (n.file ()).fPos.toNat = m
  induction m using Nat.strong_induction_on generalizing n with
  | _ m ih =>
    have ha := h.answering
    simp only [Answering, hs] at ha
    obtain ⟨ring, pend, rest, hh⟩ := h.ok
    have hgood : (⟨false, none, none, 0⟩ : Outcome).Good := ⟨rfl, rfl⟩
    obtain ⟨r, he⟩ := exec_total hh ⟨some (n.file ()), .read true BUFFER_SIZE, ⟨false, none, none, 0⟩⟩
    obtain ⟨hsys, hread⟩ := ha.2.2.2.read hh h.free hgood he
    have hst : Net.Step k () n ((n.goto () ((n.conn ()).onRead r.data)).returned () r) := .read hs hgood he
    refine Completes.step ?_ hst
    rcases hread with ⟨hd, -⟩ | ⟨hd, hlt, hle, -⟩
    · -- the last read
      apply completes_close
      · simp only [Net.goto, Net.returned, Function.update_self, Conn.onRead, if_pos hd]
      · simp only [Net.goto, Net.returned, Function.update_self, Conn.onRead, hc]
    · -- more is sent, and the next read starts further on
      have hstage : (((n.goto () ((n.conn ()).onRead r.data)).returned () r).conn ()).stage = .send r.data := by
        simp only [Net.goto, Net.returned, Function.update_self, Conn.onRead, if_neg hd]
      have hsend := Net.Step.send (k := k) hstage
      refine Completes.step (ih _ ?_ ((h.step h₀ hst).step h₀ hsend) ?_ ?_ rfl) hsend
      · simp only [Net.goto, Net.returned, Function.update_self]
        rw [hsys]
        omega
      · simp only [Net.goto, Net.returned, Function.update_self, Conn.onSend]
      · simp only [Net.goto, Net.returned, Function.update_self, Conn.onSend, Conn.onRead, hc]

theorem completes_unlock (h₀ : Ok k s₀) (h : Running k s₀ stream n) (hs : (n.conn ()).stage = .unlock)
    (hc : (n.conn ()).chunks = chunks) : Completes k n chunks := by
  have hst := Net.Step.unlock (k := k) hs
  refine Completes.step ?_ hst
  by_cases hfd : (n.conn ()).fileFd = true
  · refine completes_read h₀ (h.step h₀ hst) ?_ ?_
    · simp only [Net.goto, Function.update_self, Conn.onUnlock, if_pos hfd]
    · simp only [Net.goto, Function.update_self, Conn.onUnlock, hc]
  · apply completes_close
    · simp only [Net.goto, Function.update_self, Conn.onUnlock, if_neg hfd]
    · simp only [Net.goto, Function.update_self, Conn.onUnlock, hc]

theorem completes_ioctl (h₀ : Ok k s₀) (h : Running k s₀ stream n) {seekto : AesdSeekto}
    (hs : (n.conn ()).stage = .ioctl seekto) (hc : (n.conn ()).chunks = chunks) : Completes k n chunks := by
  obtain ⟨ring, pend, rest, hh⟩ := h.ok
  obtain ⟨r, he⟩ := exec_total hh ⟨some (n.file ()), .ioctl AESDCHAR_IOCSEEKTO seekto, ⟨false, none, none, 0⟩⟩
  have hst := Net.Step.ioctl (k := k) hs (o := ⟨false, none, none, 0⟩) ⟨rfl, rfl⟩ he
  refine Completes.step (completes_unlock h₀ (h.step h₀ hst) ?_ ?_) hst
  · simp only [Net.goto, Net.returned, Function.update_self, Conn.onIoctl]
  · simp only [Net.goto, Net.returned, Function.update_self, Conn.onIoctl, hc]

/-- A write for which there is room succeeds. -/
theorem write_fits {s : Sys} {ring rest : List (Nat × List Cell)} {pend : List Cell}
    (h : Holds k s ring pend rest) (hl : s.dev.lock = false) (src : List UInt8) (pos : Int)
    (hroom : (device s).log.pending.length + src.length ≤ k.kmallocMaxSize) :
    ∃ r, Call.exec k ⟨false, some 0, some 0, 0⟩ (some ⟨true, pos⟩) (.write (some src)) s = .ok r ∧
      r.ret = some (src.length : Int) := by
  obtain ⟨r, he⟩ := exec_total h ⟨some ⟨true, pos⟩, .write (some src), ⟨false, some 0, some 0, 0⟩⟩
  refine ⟨r, he, ?_⟩
  have hk : ¬ k.Refuses (some 0) src.length := by
    rintro ⟨-, h | h⟩
    · cases h
    · omega
  have hr : ¬ k.Refuses (some 0) ((device s).log.pending.length + src.length) := by
    rintro ⟨-, h | h⟩
    · cases h
    · omega
  have ha : Invocation.accept k ⟨some ⟨true, pos⟩, .write (some src), ⟨false, some 0, some 0, 0⟩⟩ = .ok ⟨true, pos⟩ := by
    simp [Invocation.accept, hk]
  have hdev := exec_device h he
  rw [Device.exec_locked ha rfl hl] at hdev
  simp only [Device.locked, Left.finish, Return.reply, Prod.mk.injEq, Reply.mk.injEq, Device.write, Option.getD_some,
    if_neg hr] at hdev
  exact hdev.1.1.symm

/-- The loop that writes the chunks ends, if there is room for all of them. -/
theorem completes_write (h₀ : Ok k s₀) (h : Running k s₀ stream n) {node : List (List UInt8)}
    (hs : (n.conn ()).stage = .write node) (hc : (n.conn ()).chunks = chunks)
    (hroom : (device n.sys).log.pending.length + node.flatten.length ≤ k.kmallocMaxSize) : Completes k n chunks := by
  induction node generalizing n with
  | nil =>
    have ha := h.answering
    simp only [Answering, hs] at ha
    exact absurd rfl ha.2.2.1
  | cons chunk node ih =>
    have ha := h.answering
    simp only [Answering, hs] at ha
    obtain ⟨-, -, -, hfd, hf, -⟩ := ha
    obtain ⟨ring, pend, rest, hh⟩ := h.ok
    rw [List.flatten_cons, List.length_append] at hroom
    obtain ⟨r, he, hr⟩ := write_fits hh h.free chunk 0 (by omega)
    rw [← hf] at he
    have hst := Net.Step.write (k := k) hs he hr
    obtain ⟨-, -, -, hstore⟩ := write_stores hh h.free he hr
    refine Completes.step ?_ hst
    by_cases hnode : node = []
    · subst hnode
      refine completes_unlock h₀ (h.step h₀ hst) ?_ ?_
      · simp only [Net.goto, Net.returned, Function.update_self, Conn.onWrite_last]
      · simp only [Net.goto, Net.returned, Function.update_self, Conn.onWrite_last, hc]
    · refine ih (h.step h₀ hst) ?_ ?_ ?_
      · simp only [Net.goto, Net.returned, Function.update_self, Conn.onWrite_more _ hfd hnode]
      · simp only [Net.goto, Net.returned, Function.update_self, Conn.onWrite_more _ hfd hnode, hc]
      · have hle := LineLog.append_pending_le maxWriteOperationsSupported isNewline (device n.sys).log (chunk.map some)
        rw [List.length_map] at hle
        simp only [Net.returned, hstore, Device.store]
        omega

theorem completes_open (h₀ : Ok k s₀) (h : Running k s₀ stream n) (hs : (n.conn ()).stage = .openFile)
    (hc : (n.conn ()).chunks = chunks)
    (hroom : findCommand chunks AESDCHAR_IOCSEEKTO_CMD = none →
      (device n.sys).log.pending.length + chunks.flatten.length ≤ k.kmallocMaxSize) : Completes k n chunks := by
  have hst := Net.Step.openFile (k := k) hs
  have ha := h.answering
  simp only [Answering, hs] at ha
  refine Completes.step ?_ hst
  rcases Conn.onOpen_cases _ ha.2.2.2 with ⟨seekto, -, hopen⟩ | ⟨hfound, hopen⟩
  · rw [← Net.goto_conn n () ((n.conn ()).onOpen true)] at hopen
    exact completes_ioctl h₀ (h.step h₀ hst) (congrArg Conn.stage hopen) ((congrArg Conn.chunks hopen).trans hc)
  · rw [← Net.goto_conn n () ((n.conn ()).onOpen true), hc] at hopen
    exact completes_write h₀ (h.step h₀ hst) (congrArg Conn.stage hopen) (congrArg Conn.chunks hopen)
      (hroom (hc ▸ hfound))

theorem completes_lock (h₀ : Ok k s₀) (h : Running k s₀ stream n) (hs : (n.conn ()).stage = .lock)
    (hc : (n.conn ()).chunks = chunks)
    (hroom : findCommand chunks AESDCHAR_IOCSEEKTO_CMD = none →
      (device n.sys).log.pending.length + chunks.flatten.length ≤ k.kmallocMaxSize) : Completes k n chunks := by
  have ha := h.answering
  simp only [Answering, hs] at ha
  have hst := Net.Step.lock (k := k) hs ha.1
  refine Completes.step ?_ hst
  by_cases hne : (n.conn ()).chunks = []
  · refine completes_unlock h₀ (h.step h₀ hst) ?_ ?_
    · simp only [Net.goto, Function.update_self, Conn.onLock_nothing _ hne]
    · simp only [Net.goto, Function.update_self, Conn.onLock_nothing _ hne, hc]
  · refine completes_open h₀ (h.step h₀ hst) ?_ ?_ hroom
    · simp only [Net.goto, Function.update_self, Conn.onLock_data _ hne]
    · simp only [Net.goto, Function.update_self, Conn.onLock_data _ hne, hc]

/-- The loop that receives the chunks still to come. -/
theorem completes_recv (h₀ : Ok k s₀) (h : Running k s₀ stream n) (hs : (n.conn ()).stage = .recv)
    {todo : List (List UInt8)} (hc : (n.conn ()).chunks ++ todo = chunks) (hg : Gathered stream chunks)
    (hsize : ∀ c ∈ chunks, c.length ≤ BUFFER_SIZE)
    (hroom : findCommand chunks AESDCHAR_IOCSEEKTO_CMD = none →
      (device n.sys).log.pending.length + chunks.flatten.length ≤ k.kmallocMaxSize) : Completes k n chunks := by
  obtain ⟨left, hleft, hend⟩ := hg.part
  induction todo generalizing n with
  | nil =>
    -- no chunk has had a newline, so nothing is left and the client hangs up
    have ha := h.answering
    simp only [Answering, hs] at ha
    obtain ⟨-, -, -, -, hflat, hnl, -⟩ := ha
    rw [List.append_nil] at hc
    rw [hc] at hflat hnl
    have hin : n.incoming () = [] := by
      rw [List.append_cancel_left (hflat.trans hleft.symm)]
      exact hend.resolve_left hnl
    have hst := Net.Step.hangup (k := k) hs hin
    refine Completes.step (completes_lock h₀ (h.step h₀ hst) ?_ ?_ hroom) hst
    · simp only [Net.goto, Function.update_self, Conn.onRecv_end]
    · simp only [Net.goto, Function.update_self, Conn.onRecv_end, hc]
  | cons c todo ih =>
    have ha := h.answering
    simp only [Answering, hs] at ha
    obtain ⟨-, -, -, -, hflat, -⟩ := ha
    have hmem : c ∈ chunks := by rw [← hc]; simp
    have hne : c ≠ [] := fun he => hg.nonempty (he ▸ hmem)
    have hin : n.incoming () = c ++ (todo.flatten ++ left) := by
      rw [← hleft, ← hc] at hflat
      simpa using hflat
    have hst := Net.Step.recv (k := k) c _ hs hin hne (hsize c hmem)
    refine Completes.step ?_ hst
    by_cases hn : newline ∈ c
    · have htodo : todo = [] := by
        by_contra hne'
        refine hg.collected c ?_ hn
        rw [← hc, List.dropLast_append_of_ne_nil (by simp), List.dropLast_cons_of_ne_nil hne']
        simp
      refine completes_lock h₀ (h.step h₀ hst) ?_ ?_ hroom
      · simp only [Net.goto, Function.update_self, Conn.onRecv_line _ hne hn]
      · simp only [Net.goto, Function.update_self, Conn.onRecv_line _ hne hn]
        rw [← hc, htodo]
    · refine ih (h.step h₀ hst) ?_ ?_ hroom
      · simp only [Net.goto, Function.update_self, Conn.onRecv_more _ hne hn]
      · simp only [Net.goto, Function.update_self, Conn.onRecv_more _ hne hn]
        rw [← hc]; simp

/-- Whichever way the stream is cut, the connection completes if the device has
room for what it collects, or if that is a seek command. -/
theorem connection_completes (h₀ : Ok k s₀) (hl : s₀.dev.lock = false) (hg : Gathered stream chunks)
    (hsize : ∀ c ∈ chunks, c.length ≤ BUFFER_SIZE)
    (hroom : findCommand chunks AESDCHAR_IOCSEEKTO_CMD = none →
      s₀.dev.newEntry.size + chunks.flatten.length ≤ k.kmallocMaxSize) :
    Completes k (Net.start s₀ fun _ => stream) chunks := by
  refine completes_recv h₀ (running_start h₀ hl stream) rfl (List.nil_append chunks) hg hsize ?_
  obtain ⟨_, _, _, h₀⟩ := h₀
  rw [show (Net.start s₀ fun _ : Unit => stream).sys = s₀ from rfl, ← h₀.size_device]
  exact hroom

end Run

end Aesd
