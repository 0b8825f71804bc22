import Aesd.Server.Response
import Aesd.Server.Segmentation
/-!
# The two builds

With `USE_AESD_CHAR_DEVICE` set to 0 the server stores the packets in a regular
file. The connection is the same but for the flags of `open`:
`O_WRONLY | O_CREAT | O_APPEND`. So the packets reach the file, but the loop
that reads them back fails at its first `read`, and nothing is sent; the device
build sends back all packets so far.
-/

namespace Aesd

open SysLib

/-! ## Regular files -/

inductive AccessMode where
  | readWrite
  | writeOnly
  deriving DecidableEq

/-- An open regular file: its access mode and its position. -/
structure Descriptor where
  mode : AccessMode
  pos : Nat
  deriving DecidableEq

/-- `read`; `none` for an error. -/
def Descriptor.read (d : Descriptor) (contents : List UInt8) (count : Nat) : Option (List UInt8) :=
  match d.mode with
  | .readWrite => some ((contents.drop d.pos).take count)
  | .writeOnly => none

/-- `write` with `O_APPEND`: the contents, and the descriptor, whose position is behind the bytes. -/
def Descriptor.append (d : Descriptor) (contents bytes : List UInt8) : List UInt8 × Descriptor :=
  (contents ++ bytes, { d with pos := (contents ++ bytes).length })

/-! ## The file build -/

/-- A connection of the file build: its thread, what `recv` has not delivered,
the file `/var/tmp/aesdsocketdata` if it exists, `file_fd`, and the bytes sent. -/
structure FileBuild where
  conn : Conn
  incoming : List UInt8
  store : Option (List UInt8)
  fd : Option Descriptor
  response : List Cell

namespace FileBuild

def start (store : Option (List UInt8)) (packet : List UInt8) : FileBuild := ⟨.start, packet, store, none, []⟩

/-- The next call of the connection. -/
inductive Step : FileBuild → FileBuild → Prop
  | recv {n : FileBuild} (bytes rest : List UInt8) : n.conn.stage = .recv → n.incoming = bytes ++ rest →
      bytes ≠ [] → bytes.length ≤ BUFFER_SIZE → Step n { n with conn := n.conn.onRecv bytes, incoming := rest }
  | hangup {n : FileBuild} : n.conn.stage = .recv → n.incoming = [] → Step n { n with conn := n.conn.onRecv [] }
  | lock {n : FileBuild} : n.conn.stage = .lock → Step n { n with conn := n.conn.onLock }
  /-- `O_CREAT` creates the file. -/
  | openFile {n : FileBuild} : n.conn.stage = .openFile →
      Step n { n with conn := n.conn.onOpen true, store := some (n.store.getD []), fd := some ⟨.writeOnly, 0⟩ }
  /-- A regular file has no `AESDCHAR_IOCSEEKTO`. -/
  | ioctl {n : FileBuild} {seekto : AesdSeekto} : n.conn.stage = .ioctl seekto →
      Step n { n with conn := n.conn.onIoctl }
  | write {n : FileBuild} {d : Descriptor} {contents chunk : List UInt8} {node : List (List UInt8)} :
      n.conn.stage = .write (chunk :: node) → n.fd = some d → n.store = some contents →
      Step n { n with
        conn := n.conn.onWrite node, store := some (d.append contents chunk).1, fd := some (d.append contents chunk).2 }
  | unlock {n : FileBuild} : n.conn.stage = .unlock → Step n { n with conn := n.conn.onUnlock }
  | read {n : FileBuild} {d : Descriptor} {contents : List UInt8} : n.conn.stage = .read → n.fd = some d →
      n.store = some contents →
      Step n { n with
        conn := n.conn.onRead (((d.read contents BUFFER_SIZE).getD []).map some)
        fd := some { d with pos := d.pos + ((d.read contents BUFFER_SIZE).getD []).length } }
  | send {n : FileBuild} {buffer : List Cell} : n.conn.stage = .send buffer →
      Step n { n with conn := n.conn.onSend, response := n.response ++ buffer }
  | close {n : FileBuild} : n.conn.stage = .close → Step n { n with conn := n.conn.onClose }

/-- The file, once these chunks are written. -/
def Filed (before : Option (List UInt8)) (chunks : List (List UInt8)) (n : FileBuild) : Prop :=
  n.store = some (before.getD [] ++ chunks.flatten)

/-- What holds of the connection, if the file was `before` when it began. -/
def Filing (before : Option (List UInt8)) (stream : List UInt8) (n : FileBuild) : Prop :=
  let chunks := n.conn.chunks
  let rejected := findCommand chunks AESDCHAR_IOCSEEKTO_CMD = none
  match n.conn.stage with
  | .recv => n.store = before ∧ n.conn.fileFd = false ∧ chunks.flatten ++ n.incoming = stream ∧
      newline ∉ chunks.flatten ∧ [] ∉ chunks
  | .lock => n.store = before ∧ n.conn.fileFd = false ∧ Gathered stream chunks
  | .openFile => n.store = before ∧ Gathered stream chunks ∧ chunks ≠ []
  | .ioctl _ => Gathered stream chunks ∧ n.fd.map (·.mode) = some .writeOnly ∧ ¬ rejected
  | .write node => Gathered stream chunks ∧ n.conn.fileFd = true ∧ n.fd.map (·.mode) = some .writeOnly ∧
      ∃ done, chunks = done ++ node ∧ Filed before done n
  | .unlock => Gathered stream chunks ∧ (n.conn.fileFd = true → n.fd.map (·.mode) = some .writeOnly) ∧
      (chunks ≠ [] → rejected → Filed before chunks n)
  | .read => Gathered stream chunks ∧ n.fd.map (·.mode) = some .writeOnly ∧
      (chunks ≠ [] → rejected → Filed before chunks n)
  | .send _ => False
  | .close => Gathered stream chunks ∧ (chunks ≠ [] → rejected → Filed before chunks n)
  | .finished => Gathered stream chunks ∧ (chunks ≠ [] → rejected → Filed before chunks n)

section Run

variable {before : Option (List UInt8)} {stream : List UInt8} {n n' : FileBuild}

theorem Filing.recv (h : Filing before stream n) (hs : n.conn.stage = .recv) {bytes rest : List UInt8}
    (hin : n.incoming = bytes ++ rest) (hne : bytes ≠ []) :
    Filing before stream { n with conn := n.conn.onRecv bytes, incoming := rest } := by
  simp only [Filing, hs] at h
  obtain ⟨hstore, hfd, hflat, hnl, hemp⟩ := h
  rw [hin] at hflat
  by_cases hb : newline ∈ bytes
  · simp only [Filing, Conn.onRecv_line _ hne hb]
    exact ⟨hstore, hfd, gathered_snoc hnl hemp hne hb hflat⟩
  · simp only [Filing, Conn.onRecv_more _ hne hb]
    exact ⟨hstore, hfd, gathering_snoc hnl hemp hne hb hflat⟩

theorem Filing.openFile (h : Filing before stream n) (hs : n.conn.stage = .openFile) :
    Filing before stream
      { n with conn := n.conn.onOpen true, store := some (n.store.getD []), fd := some ⟨.writeOnly, 0⟩ } := by
  simp only [Filing, hs] at h
  obtain ⟨hstore, hg, hne⟩ := h
  rcases Conn.onOpen_cases _ hne with ⟨seekto, hfound, hopen⟩ | ⟨hfound, hopen⟩
  · simp only [Filing, hopen]
    exact ⟨hg, rfl, by rw [hfound]; exact Option.some_ne_none _⟩
  · simp only [Filing, hopen]
    refine ⟨hg, trivial, rfl, [], rfl, ?_⟩
    rw [Filed, List.flatten_nil, List.append_nil, hstore]

theorem Filing.write (h : Filing before stream n) {d : Descriptor} {contents chunk : List UInt8}
    {node : List (List UInt8)} (hs : n.conn.stage = .write (chunk :: node)) (hfd : n.fd = some d)
    (hstore : n.store = some contents) :
    Filing before stream { n with
      conn := n.conn.onWrite node, store := some (d.append contents chunk).1, fd := some (d.append contents chunk).2 } := by
  simp only [Filing, hs] at h
  obtain ⟨hg, hopen, hmode, done, hchunks, hfiled⟩ := h
  have hmode' : (some (d.append contents chunk).2).map (·.mode) = some AccessMode.writeOnly := by
    rw [hfd] at hmode
    exact hmode
  have hstore' : some (d.append contents chunk).1 = some (before.getD [] ++ (done ++ [chunk]).flatten) := by
    rw [Filed, hstore, Option.some.injEq] at hfiled
    rw [Descriptor.append, hfiled]
    simp
  by_cases hnode : node = []
  · subst hnode
    simp only [Filing, Conn.onWrite_last]
    refine ⟨hg, fun _ => hmode', fun _ _ => ?_⟩
    rw [hchunks]
    exact hstore'
  · simp only [Filing, Conn.onWrite_more _ hopen hnode]
    exact ⟨hg, hopen, hmode', done ++ [chunk], by rw [hchunks, List.append_assoc]; rfl, hstore'⟩

/-- Every call of the connection keeps the invariant, and nothing is sent. -/
theorem Filing.step (h : Filing before stream n) (hst : Step n n') :
    Filing before stream n' ∧ n'.response = n.response := by
  cases hst with
  | recv bytes rest hs hin hne hlen => exact ⟨h.recv hs hin hne, rfl⟩
  | hangup hs hin =>
    simp only [Filing, hs] at h
    obtain ⟨hstore, hfd, hflat, hnl, hemp⟩ := h
    refine ⟨?_, rfl⟩
    simp only [Filing, Conn.onRecv_end]
    exact ⟨hstore, hfd, gathered_end hnl hemp (by rw [← hin]; exact hflat)⟩
  | lock hs =>
    simp only [Filing, hs] at h
    obtain ⟨hstore, hfd, hg⟩ := h
    refine ⟨?_, rfl⟩
    by_cases hne : n.conn.chunks = []
    · simp only [Filing, Conn.onLock_nothing _ hne, hfd]
      exact ⟨hg, fun h => (by cases h), fun hne' => absurd hne hne'⟩
    · simp only [Filing, Conn.onLock_data _ hne]
      exact ⟨hstore, hg, hne⟩
  | openFile hs => exact ⟨h.openFile hs, rfl⟩
  | ioctl hs =>
    simp only [Filing, hs] at h
    obtain ⟨hg, hfd, hfound⟩ := h
    refine ⟨?_, rfl⟩
    simp only [Filing, Conn.onIoctl]
    exact ⟨hg, fun _ => hfd, fun _ hnone => absurd hnone hfound⟩
  | write hs hfd hstore => exact ⟨h.write hs hfd hstore, rfl⟩
  | unlock hs =>
    simp only [Filing, hs] at h
    obtain ⟨hg, hfd, hfiled⟩ := h
    refine ⟨?_, rfl⟩
    by_cases hopen : n.conn.fileFd = true
    · simp only [Filing, Conn.onUnlock, if_pos hopen]
      exact ⟨hg, hfd hopen, hfiled⟩
    · simp only [Filing, Conn.onUnlock, if_neg hopen]
      exact ⟨hg, hfiled⟩
  | @read d contents hs hfd hstore =>
    simp only [Filing, hs] at h
    obtain ⟨hg, hmode, hfiled⟩ := h
    refine ⟨?_, rfl⟩
    -- the descriptor is write-only
    have hfail : d.read contents BUFFER_SIZE = none := by
      rw [hfd, Option.map_some, Option.some.injEq] at hmode
      rw [Descriptor.read, hmode]
    simp only [Filing, Conn.onRead, hfail, Option.getD_none, List.map_nil, if_true]
    exact ⟨hg, hfiled⟩
  | send hs =>
    simp only [Filing, hs] at h
  | close hs =>
    simp only [Filing, hs] at h
    refine ⟨?_, rfl⟩
    simp only [Filing, Conn.onClose]
    exact h

/-- A connection that completes has sent nothing; if it brought data, this is at
the end of the file. -/
theorem connection_files {l : List FileBuild} (hrun : SysLib.Run Step (start before stream) l n)
    (hfin : n.conn.stage = .finished) :
    n.response = [] ∧ Gathered stream n.conn.chunks ∧
      (n.conn.chunks ≠ [] → findCommand n.conn.chunks AESDCHAR_IOCSEEKTO_CMD = none → Filed before n.conn.chunks n) := by
  have h := hrun.inv (fun n => Filing before stream n ∧ n.response = [])
    ⟨⟨rfl, rfl, rfl, List.not_mem_nil, List.not_mem_nil⟩, rfl⟩ fun _ _ h hst => by
      obtain ⟨hf, hr⟩ := h.1.step hst
      exact ⟨hf, hr.trans h.2⟩
  obtain ⟨hf, hr⟩ := h
  simp only [Filing, hfin] at hf
  exact ⟨hr, hf⟩

end Run

end FileBuild

/-! ## Connections one after another -/

/-- The device build serves these packets, with these responses. -/
inductive DeviceServes (k : Kernel) : Sys → List (List UInt8) → List (List Cell) → Prop
  | nil (s : Sys) : DeviceServes k s [] []
  | cons {s : Sys} {packet : List UInt8} {packets : List (List UInt8)} {responses : List (List Cell)}
      {l : List (Net Unit)} {n : Net Unit} : Run (Net.AnyStep k) (Net.start s fun _ => packet) l n →
      (n.conn ()).stage = .finished → DeviceServes k n.sys packets responses →
      DeviceServes k s (packet :: packets) (n.response () :: responses)

/-- The file build serves these packets, with these responses, and leaves this file. -/
inductive FileServes : Option (List UInt8) → List (List UInt8) → List (List Cell) → Option (List UInt8) → Prop
  | nil (store : Option (List UInt8)) : FileServes store [] [] store
  | cons {store store' : Option (List UInt8)} {packet : List UInt8} {packets : List (List UInt8)}
      {responses : List (List Cell)} {l : List FileBuild} {n : FileBuild} :
      Run FileBuild.Step (FileBuild.start store packet) l n → n.conn.stage = .finished →
      FileServes n.store packets responses store' →
      FileServes store (packet :: packets) (n.response :: responses) store'

/-- All packets received so far, for each of these packets. -/
def soFar (before : List (List UInt8)) : List (List UInt8) → List (List Cell)
  | [] => []
  | packet :: packets => (before ++ [packet]).flatten.map some :: soFar (before ++ [packet]) packets

/-- A packet that ends with its only newline, and is no command. -/
def DataPacket (packet : List UInt8) : Prop :=
  findCommand [packet] AESDCHAR_IOCSEEKTO_CMD = none ∧ ∃ body, packet = body ++ [newline] ∧ newline ∉ body

/-- Both builds serve the packets with the same responses: what has been received so far. -/
def BuildsAgree (k : Kernel) (packets : List (List UInt8)) : Prop :=
  DeviceServes k aesdInitModule packets (soFar [] packets) ∧ ∃ store, FileServes none packets (soFar [] packets) store

section Serves

variable {k : Kernel} {s : Sys} {before packets : List (List UInt8)} {responses : List (List Cell)}

theorem Gathered.line {body : List UInt8} {chunks : List (List UInt8)} (h : Gathered (body ++ [newline]) chunks)
    (hn : newline ∉ body) : chunks.flatten = body ++ [newline] := by
  obtain ⟨extra, left, he, hnil⟩ := h.packet hn
  rw [he, (List.append_eq_nil_iff.1 hnil).1]

/-- While the ring has room, the device build sends back all packets so far. -/
theorem DeviceServes.soFar (h : DeviceServes k s packets responses) (hok : Ok k s) (hl : s.dev.lock = false)
    (hlog : (device s).log = ⟨before.map (List.map some), []⟩)
    (hroom : before.length + packets.length ≤ maxWriteOperationsSupported) (hpk : ∀ p ∈ packets, DataPacket p) :
    responses = Aesd.soFar before packets := by
  induction h generalizing before with
  | nil => rfl
  | @cons s packet packets responses l n hrun hfin _ ih =>
    obtain ⟨hcmd, body, rfl, hn⟩ := hpk packet List.mem_cons_self
    obtain ⟨hok', hg, hdev, hresp⟩ := connection_answers hok hl hrun hfin
    have hfree : n.sys.dev.lock = false :=
      (hrun.inv (Running k s (body ++ [newline])) (running_start hok hl _) fun _ _ h ⟨_, hst⟩ => h.step hok hst).free
    rw [hg.line hn] at hdev hresp
    obtain ⟨hafter, hsent⟩ := response_line (device s) (congrArg LineLog.pending hlog) hcmd
    have hring : ((device s).log.entries ++ [(body ++ [newline]).map some]).rtake maxWriteOperationsSupported =
        (before ++ [body ++ [newline]]).map (List.map some) := by
      have hmap : (before ++ [body ++ [newline]]).map (List.map some) =
          before.map (List.map some) ++ [(body ++ [newline]).map some] := List.map_append
      rw [hlog, hmap]
      refine rtake_of_length_le ?_
      rw [List.length_append, List.length_map, List.length_singleton]
      rw [List.length_cons] at hroom
      omega
    rw [hring] at hafter hsent
    rw [Aesd.soFar, hresp, hsent, List.map_flatten]
    refine congrArg _ (ih hok' hfree (by rw [hdev, hafter]) ?_ fun p hp => hpk p (List.mem_cons_of_mem _ hp))
    simp only [List.length_append, List.length_cons, List.length_nil] at hroom ⊢
    omega

/-- The file build stores all packets, and answers none. -/
theorem FileServes.silent {store store' : Option (List UInt8)} (h : FileServes store packets responses store')
    (hpk : ∀ p ∈ packets, DataPacket p) :
    responses = packets.map (fun _ => []) ∧ (packets ≠ [] → store' = some (store.getD [] ++ packets.flatten)) := by
  induction h with
  | nil => exact ⟨rfl, fun hne => absurd rfl hne⟩
  | @cons store store' packet packets responses l n hrun hfin hrest ih =>
    obtain ⟨hcmd, body, rfl, hn⟩ := hpk packet List.mem_cons_self
    obtain ⟨hresp, hg, hfiled⟩ := FileBuild.connection_files hrun hfin
    have hflat := hg.line hn
    have hne : n.conn.chunks ≠ [] := by
      intro hnil
      rw [hnil] at hflat
      simp at hflat
    have hrej := hg.findCommand hne AESDCHAR_IOCSEEKTO_CMD
    rw [hflat, hcmd] at hrej
    have hstore := hfiled hne hrej
    rw [FileBuild.Filed, hflat] at hstore
    obtain ⟨hresps, hstores⟩ := ih fun p hp => hpk p (List.mem_cons_of_mem _ hp)
    refine ⟨by rw [hresp, hresps]; rfl, fun _ => ?_⟩
    by_cases hnil : packets = []
    · subst hnil
      cases hrest
      simpa using hstore
    · rw [hstores hnil, hstore]
      simp

/-- At most ten packets from an empty store. The device build sends back all
packets so far, the file build sends back nothing, and so the builds agree only
if there is no packet at all. -/
theorem builds_agree_iff (k : Kernel) (packets : List (List UInt8)) (hlen : packets.length ≤ maxWriteOperationsSupported)
    (hpk : ∀ p ∈ packets, DataPacket p) :
    (∀ responses, DeviceServes k aesdInitModule packets responses → responses = soFar [] packets) ∧
      (∀ responses store, FileServes none packets responses store → responses = packets.map fun _ => []) ∧
      (BuildsAgree k packets ↔ packets = []) := by
  have hfile : ∀ responses store, FileServes none packets responses store → responses = packets.map fun _ => [] :=
    fun responses store h => (h.silent hpk).1
  refine ⟨fun responses h => ?_, hfile, ?_, ?_⟩
  · exact h.soFar ⟨_, _, _, holds_init k⟩ rfl rfl (by simpa using hlen) hpk
  · rintro ⟨-, store, h⟩
    cases packets with
    | nil => rfl
    | cons packet packets =>
      -- the first response would have to be the first packet
      have hsame := hfile _ _ h
      rw [soFar, List.map_cons, List.cons.injEq] at hsame
      obtain ⟨-, body, rfl, -⟩ := hpk packet List.mem_cons_self
      simp at hsame
  · rintro rfl
    exact ⟨.nil _, none, .nil _⟩

end Serves

theorem builds_agree_iff_line : (∀ store, ¬ FileServes none [[97, newline]] [[some 97, some newline]] store) ∧
    ¬ BuildsAgree .pages4K [[97, newline]] := by
  obtain ⟨-, hfile, hiff⟩ := builds_agree_iff .pages4K [[97, newline]] (by decide)
    (by
      intro p hp
      obtain rfl := List.mem_singleton.1 hp
      exact ⟨by decide +kernel, [97], rfl, by decide⟩)
  exact ⟨fun store h => absurd (hfile _ store h) (by decide), fun hagree => absurd (hiff.1 hagree) (by decide)⟩

/-- One connection that sends `"a\n"` is sent back `"a\n"` by the device build
and nothing by the file build. -/
theorem builds_disagree :
    DeviceServes .pages4K aesdInitModule [[97, newline]] [[some 97, some newline]] ∧
      FileServes none [[97, newline]] [[]] (some [97, newline]) ∧
      ∀ responses store, DeviceServes .pages4K aesdInitModule [[97, newline]] responses →
        FileServes none [[97, newline]] responses store → False := by
  have hpk : ∀ p ∈ [[97, newline]], DataPacket p := by
    intro p hp
    obtain rfl := List.mem_singleton.1 hp
    exact ⟨by decide +kernel, [97], rfl, by decide⟩
  have h0 : Run (Net.AnyStep .pages4K) (Net.start aesdInitModule fun _ : Unit => [97, newline]) [] _ := .nil
  have h1 := h0.snoc ⟨(), .recv [97, newline] [] rfl rfl (by decide) (by decide)⟩
  have h2 := h1.snoc ⟨(), .lock rfl rfl⟩
  have h3 := h2.snoc ⟨(), .openFile rfl⟩
  have h4 := h3.snoc ⟨(), .write (o := ⟨false, some 0, some 0, 0⟩) rfl rfl rfl⟩
  have h5 := h4.snoc ⟨(), .unlock rfl⟩
  have h6 := h5.snoc ⟨(), .read (o := ⟨false, none, none, 0⟩) rfl ⟨rfl, rfl⟩ rfl⟩
  have h7 := h6.snoc ⟨(), .send rfl⟩
  have h8 := h7.snoc ⟨(), .read (o := ⟨false, none, none, 0⟩) rfl ⟨rfl, rfl⟩ rfl⟩
  have h9 := h8.snoc ⟨(), .close rfl⟩
  have g0 : Run FileBuild.Step (FileBuild.start none [97, newline]) [] _ := .nil
  have g1 := g0.snoc (.recv [97, newline] [] rfl rfl (by decide) (by decide))
  have g2 := g1.snoc (.lock rfl)
  have g3 := g2.snoc (.openFile rfl)
  have g4 := g3.snoc (.write rfl rfl rfl)
  have g5 := g4.snoc (.unlock rfl)
  have g6 := g5.snoc (.read rfl rfl rfl)
  have g7 := g6.snoc (.close rfl)
  refine ⟨.cons h9 rfl (.nil _), .cons g7 rfl (.nil _), fun responses store hd hf => ?_⟩
  have hdev : responses = soFar [] _ := hd.soFar ⟨_, _, _, holds_init _⟩ rfl rfl (by decide) hpk
  have hfile := (hf.silent hpk).1
  rw [hdev] at hfile
  exact absurd hfile (by decide)

end Aesd
