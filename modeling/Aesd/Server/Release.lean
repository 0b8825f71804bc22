import Aesd.Server.Packet
/-!
# When the list of chunks is freed

The memory is a list of chunks, each with its node and its buffer, and what has
been given to `free` and what is on the list is what `malloc` has given out. No
call ever finds a block gone. The list is emptied by the loop that writes the
chunks, and only there: it stays when the message is a seek command or the file
could not be opened.
-/

namespace Aesd

open SysLib

/-- A chunk in memory: its node, its buffer, and its bytes. -/
structure Chunk where
  node : Nat
  buffer : Nat
  bytes : List UInt8

def Chunk.blocks (c : Chunk) : List Nat := [c.buffer, c.node]

/-- The chunk is in this memory, wherever its node leads. -/
structure Chunk.In (c : Chunk) (mem : Nat → Option Block) : Prop where
  node : ∃ n, mem c.node = some (.node n) ∧ n.buffer = some c.buffer ∧ n.len = c.bytes.length
  buffer : mem c.buffer = some (.chunk c.bytes)

section Chunk

variable {c : Chunk} {mem : Nat → Option Block} {a : Nat}

theorem Chunk.In.live (h : c.In mem) (ha : a ∈ c.blocks) : mem a ≠ none := by
  obtain ⟨n, hn, -⟩ := h.node
  rcases List.mem_pair.1 ha with rfl | rfl
  · rw [h.buffer]; exact Option.some_ne_none _
  · rw [hn]; exact Option.some_ne_none _

/-- Another block changes. -/
theorem Chunk.In.update (h : c.In mem) (ha : a ∉ c.blocks) (b : Option Block) : c.In (Function.update mem a b) := by
  rw [blocks, List.mem_pair, not_or] at ha
  refine ⟨?_, ?_⟩
  · rw [Function.update_of_ne (Ne.symm ha.2)]
    exact h.node
  · rw [Function.update_of_ne (Ne.symm ha.1)]
    exact h.buffer

/-- A node leads to another place. -/
theorem Chunk.In.redirect (h : c.In mem) {n : RecvDataLinkedList} (hn : mem a = some (.node n)) (next : Option Nat) :
    c.In (Function.update mem a (some (.node { n with next := next }))) := by
  have hb : c.buffer ≠ a := by
    rintro rfl
    rw [h.buffer] at hn
    cases hn
  refine ⟨?_, ?_⟩
  · obtain ⟨n', hn', hbuf, hlen⟩ := h.node
    by_cases he : c.node = a
    · subst he
      obtain rfl : n' = n := by rw [hn'] at hn; cases hn; rfl
      exact ⟨_, Function.update_self .., hbuf, hlen⟩
    · exact ⟨n', (Function.update_of_ne he _ _).trans hn', hbuf, hlen⟩
  · rw [Function.update_of_ne hb]
    exact h.buffer

end Chunk

namespace Packet

variable {p p' : Packet} {l : List Chunk} {c : Chunk} {n : RecvDataLinkedList} {a : Nat}

/-! ## What an access finds -/

theorem load_eq (h : p.mem a = some (.node n)) : p.load (some a) = .ok n := by
  rw [load, h]

theorem store_eq (h : p.mem a = some (.node n)) (n' : RecvDataLinkedList) :
    p.store (some a) n' = .ok { p with mem := Function.update p.mem a (some (.node n')) } := by
  rw [store, h]

theorem free_eq {b : Block} (h : p.mem a = some b) :
    p.free (some a) = .ok { p with mem := Function.update p.mem a none, freed := p.freed ++ [a] } := by
  rw [free, h]

theorem bytes_eq (h : c.In p.mem) (hbuf : n.buffer = some c.buffer) (hlen : n.len = c.bytes.length) :
    p.bytes n = .ok c.bytes := by
  rw [bytes, hbuf]
  simp only [h.buffer, hlen, Nat.le_refl, if_true, List.take_length]

/-- `findCommand` returns false. -/
theorem onFindCommand_none {bytes : List UInt8} {st : Parse} (hn : p.load (some a) = .ok n)
    (hb : p.bytes n = .ok bytes) (h : st.buffer AESDCHAR_IOCSEEKTO_CMD bytes = none) :
    p.onFindCommand st (some a) = .ok { p with stage := p.copyLoop } := by
  rw [onFindCommand, hn, ok_bind, hb, ok_bind, h]

/-- `findCommand` goes on to the next node. -/
theorem onFindCommand_some {bytes : List UInt8} {st st' : Parse} (hn : p.load (some a) = .ok n)
    (hb : p.bytes n = .ok bytes) (h : st.buffer AESDCHAR_IOCSEEKTO_CMD bytes = some st') :
    p.onFindCommand st (some a) = .ok { p with stage := .findCommand st' n.next } := by
  rw [onFindCommand, hn, ok_bind, hb, ok_bind, h]

/-! ## The blocks of the list -/

/-- The chunks are in memory, in different blocks, and account for all the
blocks that have not been freed. -/
structure Owns (p : Packet) (l : List Chunk) : Prop where
  chunks : ∀ c ∈ l, c.In p.mem
  dummy : ∃ d, p.mem dummyhead = some (.node d)
  nodup : (dummyhead :: l.flatMap Chunk.blocks).Nodup
  account : (p.freed ++ l.flatMap Chunk.blocks).Perm p.allocated

/-- The nodes from `node` on are those of the list. -/
def Listed (p : Packet) (node : Option Nat) (l : List Chunk) : Prop :=
  Seg Block.next p.mem node (l.map Chunk.node) none

theorem Owns.congr (h : p.Owns l) (hm : p'.mem = p.mem) (hf : p'.freed = p.freed) (ha : p'.allocated = p.allocated) :
    p'.Owns l := by
  obtain ⟨hchunks, hdummy, hnodup, haccount⟩ := h
  rw [← hm] at hchunks hdummy
  rw [← hf, ← ha] at haccount
  exact ⟨hchunks, hdummy, hnodup, haccount⟩

theorem Owns.live (h : p.Owns l) (ha : a ∈ dummyhead :: l.flatMap Chunk.blocks) : p.mem a ≠ none := by
  rcases List.mem_cons.1 ha with rfl | ha
  · obtain ⟨d, hd⟩ := h.dummy
    rw [hd]
    exact Option.some_ne_none _
  · obtain ⟨c, hc, ha⟩ := List.mem_flatMap.1 ha
    exact (h.chunks c hc).live ha

/-- The blocks of `dummyhead` and the nodes. -/
theorem nodes_sublist (l : List Chunk) : (dummyhead :: l.map Chunk.node).Sublist (dummyhead :: l.flatMap Chunk.blocks) := by
  apply List.Sublist.cons_cons
  induction l with
  | nil => exact List.Sublist.refl _
  | cons c l ih => exact (ih.cons_cons c.node).cons c.buffer

theorem Owns.node (h : p.Owns l) (ha : a ∈ dummyhead :: l.map Chunk.node) : ∃ n, p.mem a = some (.node n) := by
  rcases List.mem_cons.1 ha with rfl | ha
  · exact h.dummy
  · obtain ⟨c, hc, rfl⟩ := List.mem_map.1 ha
    obtain ⟨n, hn, -⟩ := (h.chunks c hc).node
    exact ⟨n, hn⟩

/-- The list is empty exactly if all blocks have been freed. -/
theorem Owns.released_iff (h : p.Owns l) : p.Released ↔ l = [] := by
  constructor
  · intro hr
    have hlen := (h.account.trans hr.symm).length_eq
    cases l with
    | nil => rfl
    | cons c l =>
      simp only [List.length_append, List.flatMap_cons, Chunk.blocks, List.length_cons, List.length_nil] at hlen
      omega
  · rintro rfl
    have := h.account
    rwa [List.flatMap_nil, List.append_nil] at this

/-- The first chunk is written and freed. -/
theorem Owns.onWrite (h : p.Owns (c :: l)) (hl : p.Listed p.node (c :: l)) :
    ∃ p' : Packet, p.onWrite = .ok { p' with stage := p'.copyLoop } ∧ p'.Owns l ∧ p'.Listed p'.node l ∧
      p'.fileFd = p.fileFd ∧ p'.received = p.received := by
  obtain ⟨hnode, b, hb, hrest⟩ := hl
  have hc := h.chunks c List.mem_cons_self
  obtain ⟨n, hn, hbuf, hlen⟩ := hc.node
  obtain rfl : b = .node n := Option.some.inj (hb.symm.trans hn)
  have hnodup := h.nodup
  simp only [List.flatMap_cons, Chunk.blocks, List.cons_append, List.nil_append, List.nodup_cons, List.mem_cons,
    not_or] at hnodup
  obtain ⟨⟨hdb, hdn, hd⟩, ⟨hbn, hbl⟩, hnl, hl⟩ := hnodup
  have hn' : Function.update p.mem c.buffer none c.node = some (.node n) :=
    (Function.update_of_ne (Ne.symm hbn) _ _).trans hn
  refine ⟨{ p with
    mem := Function.update (Function.update (Function.update p.mem c.buffer none) c.node
      (some (.node { n with buffer := none }))) c.node none,
    node := n.next, freed := p.freed ++ [c.buffer] ++ [c.node] }, ?_, ⟨?_, ?_, ?_, ?_⟩, ?_, rfl, rfl⟩
  · unfold Packet.onWrite
    rw [hnode, load_eq hn, ok_bind, bytes_eq hc hbuf hlen, ok_bind, hbuf, free_eq hc.buffer, ok_bind]
    simp only [hnode]
    rw [load_eq hn', ok_bind, store_eq hn', ok_bind]
    simp only
    rw [load_eq (Function.update_self ..), ok_bind, free_eq (Function.update_self ..)]
    rfl
  · intro c' hc'
    have hdisj : ∀ a ∈ c'.blocks, a ∈ l.flatMap Chunk.blocks := fun a ha => List.mem_flatMap.2 ⟨c', hc', ha⟩
    have hb' : c.buffer ∉ c'.blocks := fun ha => hbl (hdisj _ ha)
    have hn' : c.node ∉ c'.blocks := fun ha => hnl (hdisj _ ha)
    exact (((h.chunks c' (List.mem_cons_of_mem _ hc')).update hb' _).update hn' _).update hn' _
  · obtain ⟨d, hd⟩ := h.dummy
    refine ⟨d, ?_⟩
    simp only
    rw [Function.update_of_ne hdn, Function.update_of_ne hdn, Function.update_of_ne hdb, hd]
  · exact List.nodup_cons.2 ⟨hd, hl⟩
  · have := h.account
    rw [List.flatMap_cons, ← List.append_assoc] at this
    rwa [List.append_assoc p.freed]
  · have hsub := (nodes_sublist l).subset
    have hb' : c.buffer ∉ l.map Chunk.node := fun ha =>
      (List.mem_cons.1 (hsub (List.mem_cons_of_mem _ ha))).elim (fun he => hdb he.symm) hbl
    have hn' : c.node ∉ l.map Chunk.node := fun ha =>
      (List.mem_cons.1 (hsub (List.mem_cons_of_mem _ ha))).elim (fun he => hdn he.symm) hnl
    exact ((hrest.update hb' _).update hn' _).update hn' _

/-! ## A new chunk -/

/-- The nodes behind `dummyhead` are those of the list, and `node` is the last of them. -/
structure Collecting (p : Packet) (l : List Chunk) : Prop where
  list : Seg Block.next p.mem (some dummyhead) (dummyhead :: l.map Chunk.node) none
  last : ∃ pre last, p.node = some last ∧ dummyhead :: l.map Chunk.node = pre ++ [last]

/-- The buffer and the node, when the node is not linked yet. -/
theorem Owns.malloc (h : p.Owns l) {b : Nat} (hb : p.mem b = none) (ha : p.mem a = none) (hab : a ≠ b)
    (bytes : List UInt8) :
    ((p.malloc b (.chunk bytes)).malloc a (.node ⟨some b, bytes.length, none⟩)).Owns (l ++ [⟨a, b, bytes⟩]) := by
  have hfresh : ∀ {a}, p.mem a = none → a ∉ dummyhead :: l.flatMap Chunk.blocks := fun ha hm => h.live hm ha
  refine ⟨?_, ?_, ?_, ?_⟩
  · intro c hc
    rcases List.mem_append.1 hc with hc | hc
    · have hdisj : ∀ {a}, p.mem a = none → a ∉ c.blocks := fun ha hm => (h.chunks c hc).live hm ha
      exact ((h.chunks c hc).update (hdisj hb) _).update (hdisj ha) _
    · obtain rfl := List.mem_singleton.1 hc
      refine ⟨⟨_, Function.update_self .., rfl, rfl⟩, ?_⟩
      exact (Function.update_of_ne (Ne.symm hab) _ _).trans (Function.update_self ..)
  · obtain ⟨d, hd⟩ := h.dummy
    have hne : ∀ {a}, p.mem a = none → dummyhead ≠ a := fun ha he => hfresh ha (he ▸ List.mem_cons_self)
    exact ⟨d, (Function.update_of_ne (hne ha) _ _).trans ((Function.update_of_ne (hne hb) _ _).trans hd)⟩
  · rw [List.flatMap_append, ← List.cons_append, List.nodup_append]
    refine ⟨h.nodup, List.nodup_cons.2 ⟨by simpa using Ne.symm hab, List.nodup_singleton _⟩, ?_⟩
    intro x hx y hy he
    subst he
    rcases List.mem_pair.1 hy with rfl | rfl
    · exact hfresh hb hx
    · exact hfresh ha hx
  · have hall : ((p.malloc b (.chunk bytes)).malloc a (.node ⟨some b, bytes.length, none⟩)).allocated =
        p.allocated ++ [b, a] := List.append_assoc ..
    rw [List.flatMap_append, ← List.append_assoc, hall]
    exact h.account.append_right [b, a]

/-- A node of the list leads to another place. -/
theorem Owns.redirect (h : p.Owns l) (hn : p.mem a = some (.node n)) (next : Option Nat) :
    Owns { p with mem := Function.update p.mem a (some (.node { n with next := next })) } l := by
  refine ⟨fun c hc => (h.chunks c hc).redirect hn next, ?_, h.nodup, h.account⟩
  by_cases hd : dummyhead = a
  · subst hd
    exact ⟨{ n with next := next }, Function.update_self dummyhead _ p.mem⟩
  · obtain ⟨d, hd'⟩ := h.dummy
    exact ⟨d, (Function.update_of_ne hd _ _).trans hd'⟩

/-- The chunk that has been received is stored at the end of the list. -/
theorem Owns.onRecv (h : p.Owns l) (hl : p.Collecting l) {b : Nat} (hb : p.mem b = none) (ha : p.mem a = none)
    (hab : a ≠ b) {bytes : List UInt8} (hne : bytes ≠ []) :
    ∃ p' : Packet, p.onRecv bytes (some b) a = (if newline ∈ bytes then p'.endRecv else .ok p') ∧
      p'.Owns (l ++ [⟨a, b, bytes⟩]) ∧ p'.Collecting (l ++ [⟨a, b, bytes⟩]) ∧
      p'.fileFd = p.fileFd ∧ p'.received = p.received ++ [bytes] ∧ p'.stage = p.stage := by
  obtain ⟨pre, last, hnode, hpre⟩ := hl.last
  have hchunk : dummyhead :: (l ++ [(⟨a, b, bytes⟩ : Chunk)]).map Chunk.node = pre ++ [last] ++ [a] := by
    rw [← hpre, List.map_append]
    rfl
  have hmem : last ∈ dummyhead :: l.map Chunk.node := by rw [hpre]; simp
  have hfresh : ∀ {a}, p.mem a = none → a ∉ dummyhead :: l.map Chunk.node := fun ha hm =>
    h.live ((nodes_sublist l).subset hm) ha
  have hlast : last ∉ pre := by
    have hnodup := h.nodup.sublist (nodes_sublist l)
    rw [hpre, List.nodup_append] at hnodup
    exact fun hm => hnodup.2.2 _ hm _ (List.mem_singleton_self _) rfl
  have hla : last ≠ a := fun he => hfresh ha (he ▸ hmem)
  -- the two blocks, then the link
  have hnew := h.malloc hb ha hab bytes
  obtain ⟨n, hn⟩ := hnew.node (a := last) (by rw [hchunk]; simp)
  have hseg := (hl.list.update (hfresh hb) (some (.chunk bytes))).update (hfresh ha)
    (some (.node ⟨some b, bytes.length, none⟩))
  rw [hpre] at hseg
  refine ⟨{ (p.malloc b (.chunk bytes)).malloc a (.node ⟨some b, bytes.length, none⟩) with
    mem := Function.update ((p.malloc b (.chunk bytes)).malloc a (.node ⟨some b, bytes.length, none⟩)).mem last
      (some (.node { n with next := some a })),
    node := some a, received := p.received ++ [bytes] }, ?_, ?_, ?_, rfl, rfl, rfl⟩
  · have hnode' : ((p.malloc b (.chunk bytes)).malloc a (.node ⟨some b, bytes.length, none⟩)).node = some last := hnode
    unfold Packet.onRecv
    rw [if_neg hne]
    simp only [hnode']
    rw [load_eq hn, ok_bind, store_eq hn, ok_bind]
    simp only [hnode']
    rw [load_eq (Function.update_self ..), ok_bind]
    rfl
  · exact (hnew.redirect hn (some a)).congr rfl rfl rfl
  · refine ⟨?_, pre ++ [last], a, rfl, hchunk⟩
    rw [hchunk, seg_append]
    have ha' := (Function.update_of_ne (Ne.symm hla) (some (.node { n with next := some a }))
      ((p.malloc b (.chunk bytes)).malloc a (.node ⟨some b, bytes.length, none⟩)).mem).trans (Function.update_self ..)
    exact ⟨some a, hseg.redirect hlast rfl, (seg_single ha').2 rfl⟩

/-- Behind the loop of `recv`. -/
theorem Owns.endRecv (h : p.Owns l) (hl : p.Collecting l) :
    ∃ p' : Packet, p.endRecv = .ok { p' with stage := .lock } ∧ p'.Owns l ∧ p'.Listed p'.node l ∧
      p'.fileFd = p.fileFd ∧ p'.received = p.received := by
  obtain ⟨-, b, hb, hrest⟩ := hl.list
  obtain ⟨d, hd⟩ := h.dummy
  obtain rfl : b = .node d := Option.some.inj (hb.symm.trans hd)
  refine ⟨{ p with node := d.next }, ?_, h.congr rfl rfl rfl, hrest, rfl, rfl⟩
  rw [Packet.endRecv, load_eq hd]
  rfl

end Packet

/-! ## The connection that the memory shows -/

/-- A call of a connection returns, whatever it returns. -/
inductive Conn.Next : Conn → Conn → Prop
  | recv {c : Conn} (bytes : List UInt8) : c.stage = .recv → bytes.length ≤ BUFFER_SIZE → Next c (c.onRecv bytes)
  | lock {c : Conn} : c.stage = .lock → Next c c.onLock
  | openFile {c : Conn} (fileFd : Bool) : c.stage = .openFile → Next c (c.onOpen fileFd)
  | ioctl {c : Conn} {seekto : AesdSeekto} : c.stage = .ioctl seekto → Next c c.onIoctl
  | write {c : Conn} {chunk : List UInt8} {node : List (List UInt8)} : c.stage = .write (chunk :: node) →
      Next c (c.onWrite node)
  | unlock {c : Conn} : c.stage = .unlock → Next c c.onUnlock
  | read {c : Conn} (buffer : List Cell) : c.stage = .read → Next c (c.onRead buffer)
  | send {c : Conn} {buffer : List Cell} : c.stage = .send buffer → Next c c.onSend
  | close {c : Conn} : c.stage = .close → Next c c.onClose

namespace Packet

/-- Nothing has been received, or the file is open and the message is no seek command. -/
def Frees (fileFd : Bool) (received : List (List UInt8)) : Prop :=
  received = [] ∨ (fileFd = true ∧ findCommand received AESDCHAR_IOCSEEKTO_CMD = none)

/-- The connection's next call, and what is on the list by then. -/
def Stands (p : Packet) (l : List Chunk) (c : Conn) : PacketStage → Prop
  | .recv => c.stage = .recv ∧ l.map Chunk.bytes = c.chunks ∧ p.Collecting l
  | .lock => c.stage = .lock ∧ l.map Chunk.bytes = c.chunks ∧ p.Listed p.node l
  | .openFile => c.stage = .openFile ∧ l.map Chunk.bytes = c.chunks ∧ p.Listed p.node l
  | .findCommand st head => c.stage = c.command ∧ l.map Chunk.bytes = c.chunks ∧ p.Listed p.node l ∧
      ∃ front back, l = front ++ back ∧ p.Listed head back ∧
        Parse.start.list AESDCHAR_IOCSEEKTO_CMD c.chunks = st.list AESDCHAR_IOCSEEKTO_CMD (back.map Chunk.bytes)
  | .ioctl seekto => c.stage = .ioctl seekto ∧ (l = [] ↔ Frees c.fileFd c.chunks)
  | .write => c.stage = .write (l.map Chunk.bytes) ∧ l ≠ [] ∧ p.Listed p.node l ∧ c.fileFd = true ∧
      findCommand c.chunks AESDCHAR_IOCSEEKTO_CMD = none
  | .unlock => c.stage = .unlock ∧ (l = [] ↔ Frees c.fileFd c.chunks)
  | .read => c.stage = .read ∧ (l = [] ↔ Frees c.fileFd c.chunks)
  | .send buffer => c.stage = .send buffer ∧ (l = [] ↔ Frees c.fileFd c.chunks)
  | .close => c.stage = .close ∧ (l = [] ↔ Frees c.fileFd c.chunks)
  | .finished => c.stage = .finished ∧ (l = [] ↔ Frees c.fileFd c.chunks)

/-- The memory and the variables are those of the connection. -/
structure Shows (p : Packet) (l : List Chunk) (c : Conn) : Prop where
  owns : p.Owns l
  chunks : c.chunks = p.received
  fileFd : c.fileFd = p.fileFd
  stands : p.Stands l c p.stage

section Shows

variable {p : Packet} {l : List Chunk} {c : Conn}

theorem findCommand_frees {fileFd : Bool} {received : List (List UInt8)} {seekto : AesdSeekto}
    (h : findCommand received AESDCHAR_IOCSEEKTO_CMD = some seekto) : ¬ Frees fileFd received := by
  rintro (rfl | ⟨-, hnone⟩)
  · cases h
  · rw [h] at hnone
    cases hnone

/-- `findCommand`, when the bytes of all chunks have been parsed. -/
theorem findCommand_list {command : List UInt8} {received : List (List UInt8)} {st : Parse}
    (h : Parse.start.list command received = some st) :
    findCommand received command = if st.writeCmdFound = false then none else some ⟨st.writeCmd, st.writeCmdOffset⟩ := by
  unfold findCommand
  by_cases hne : received = []
  · subst hne
    obtain rfl := Option.some.inj h
    rfl
  · rw [if_neg hne, h]

theorem Listed.eq_nil_iff {node : Option Nat} (h : p.Listed node l) : node = none ↔ l = [] := by
  constructor
  · rintro rfl
    exact List.map_eq_nil_iff.1 (Seg.none_nil h)
  · rintro rfl
    exact h

/-- The head of the loop that copies the chunks. -/
theorem Shows.copyLoop (ho : p.Owns l) (hc : c.chunks = p.received) (hf : c.fileFd = p.fileFd)
    (hl : p.Listed p.node l) (hnone : findCommand c.chunks AESDCHAR_IOCSEEKTO_CMD = none)
    (hall : c.fileFd = true ∨ l.map Chunk.bytes = c.chunks) :
    Shows { p with stage := p.copyLoop } l { c with stage := Conn.copyLoop c.fileFd (l.map Chunk.bytes) } := by
  refine ⟨ho.congr rfl rfl rfl, hc, hf, ?_⟩
  have hnil : l.map Chunk.bytes = [] ↔ l = [] := List.map_eq_nil_iff
  by_cases hgo : p.fileFd = true ∧ p.node ≠ none
  · have hne : l ≠ [] := fun he => hgo.2 (hl.eq_nil_iff.2 he)
    have hc' : Conn.copyLoop c.fileFd (l.map Chunk.bytes) = .write (l.map Chunk.bytes) :=
      if_pos ⟨hf.trans hgo.1, fun he => hne (hnil.1 he)⟩
    unfold Packet.copyLoop
    rw [if_pos hgo, hc']
    exact ⟨rfl, hne, hl, hf.trans hgo.1, hnone⟩
  · have hc' : Conn.copyLoop c.fileFd (l.map Chunk.bytes) = .unlock := by
      refine if_neg fun h => hgo ⟨hf.symm.trans h.1, fun he => h.2 (hnil.2 (hl.eq_nil_iff.1 he))⟩
    unfold Packet.copyLoop
    rw [if_neg hgo, hc']
    refine ⟨rfl, ?_⟩
    rw [not_and, Decidable.not_not, hl.eq_nil_iff] at hgo
    constructor
    · rintro rfl
      exact hall.elim (fun ht => .inr ⟨ht, hnone⟩) fun he => .inl he.symm
    · rintro (he | ⟨ht, -⟩)
      · rcases hall with ht | hb
        · exact hgo (hf.symm.trans ht)
        · exact hnil.1 (hb.trans he)
      · exact hgo (hf.symm.trans ht)

/-- Before `findCommand`. -/
theorem Shows.command (ho : p.Owns l) (hc : c.chunks = p.received) (hf : c.fileFd = p.fileFd)
    (hb : l.map Chunk.bytes = c.chunks) (hl : p.Listed p.node l) :
    Shows { p with stage := .findCommand .start p.node } l { c with stage := c.command } :=
  ⟨ho.congr rfl rfl rfl, hc, hf, rfl, hb, hl, [], l, rfl, hl, by rw [← hb]⟩

/-- Behind the loop of `recv`. -/
theorem Shows.endRecv (ho : p.Owns l) (hl : p.Collecting l) (hc : c.chunks = p.received) (hf : c.fileFd = p.fileFd)
    (hb : l.map Chunk.bytes = c.chunks) : ∃ p', p.endRecv = .ok p' ∧ p'.Shows l { c with stage := .lock } := by
  obtain ⟨p', he, ho', hl', hf', hr'⟩ := ho.endRecv hl
  exact ⟨_, he, ho'.congr rfl rfl rfl, hc.trans hr'.symm, hf.trans hf'.symm, rfl, hb, hl'⟩

/-- `recv` has returned. Where `malloc` of the buffer fails, the bytes are lost. -/
theorem Shows.onRecv (h : p.Shows l c) (hs : p.stage = .recv) {bytes : List UInt8} {temp : Option Nat} {a : Nat}
    (hlen : bytes.length ≤ BUFFER_SIZE) (htemp : ∀ b, temp = some b → p.mem b = none ∧ a ≠ b) (ha : p.mem a = none) :
    ∃ p' l' c', p.onRecv bytes temp a = .ok p' ∧ Conn.Next c c' ∧ p'.Shows l' c' := by
  obtain ⟨ho, hc, hf, hst⟩ := h
  rw [hs] at hst
  obtain ⟨hstage, hb, hl⟩ := hst
  by_cases hne : bytes = []
  · obtain ⟨p', he, hshows⟩ := Shows.endRecv ho hl hc hf hb
    refine ⟨p', l, _, ?_, .recv [] hstage (Nat.zero_le _), hshows⟩
    unfold Packet.onRecv
    rw [if_pos hne]
    exact he
  cases temp with
  | none =>
    obtain ⟨p', he, hshows⟩ := Shows.endRecv ho hl hc hf hb
    refine ⟨p', l, _, ?_, .recv [] hstage (Nat.zero_le _), hshows⟩
    unfold Packet.onRecv
    rw [if_neg hne]
    exact he
  | some b =>
    obtain ⟨hbmem, hab⟩ := htemp b rfl
    obtain ⟨p₁, he, ho₁, hl₁, hf₁, hr₁, hs₁⟩ := ho.onRecv hl hbmem ha hab hne
    have hc₁ : c.chunks ++ [bytes] = p₁.received := by rw [hc, hr₁]
    have hb₁ : (l ++ [(⟨a, b, bytes⟩ : Chunk)]).map Chunk.bytes = c.chunks ++ [bytes] := by
      rw [List.map_append, hb]
      rfl
    have hnext := Conn.Next.recv bytes hstage hlen
    unfold Conn.onRecv at hnext
    rw [if_neg hne] at hnext
    rw [he]
    by_cases hnl : newline ∈ bytes
    · rw [if_pos hnl] at hnext ⊢
      obtain ⟨p', he', hshows⟩ := Shows.endRecv (c := { c with chunks := c.chunks ++ [bytes] }) ho₁ hl₁ hc₁
        (hf.trans hf₁.symm) hb₁
      exact ⟨p', _, _, he', hnext, hshows⟩
    · rw [if_neg hnl] at hnext ⊢
      refine ⟨p₁, _, _, rfl, hnext, ho₁, hc₁, hf.trans hf₁.symm, ?_⟩
      rw [hs₁, hs]
      exact ⟨rfl, hb₁, hl₁⟩

/-- `pthread_mutex_lock` has returned. -/
theorem Shows.onLock (h : p.Shows l c) (hs : p.stage = .lock) : Conn.Next c c.onLock ∧ p.onLock.Shows l c.onLock := by
  obtain ⟨ho, hc, hf, hst⟩ := h
  rw [hs] at hst
  obtain ⟨hstage, hb, hl⟩ := hst
  refine ⟨.lock hstage, ?_⟩
  have hnil : p.node = none ↔ c.chunks = [] := by rw [hl.eq_nil_iff, ← hb, List.map_eq_nil_iff]
  unfold Packet.onLock Conn.onLock
  by_cases hne : c.chunks = []
  · rw [if_neg (not_not.2 (hnil.2 hne)), if_neg (not_not.2 hne)]
    exact Shows.command ho hc hf hb hl
  · rw [if_pos (mt hnil.1 hne), if_pos hne]
    exact ⟨ho.congr rfl rfl rfl, hc, hf, rfl, hb, hl⟩

/-- A node of `findCommand`, or its end. -/
theorem Shows.onFindCommand (h : p.Shows l c) {st : Parse} {head : Option Nat} (hs : p.stage = .findCommand st head) :
    ∃ p', p.onFindCommand st head = .ok p' ∧ p'.Shows l c := by
  obtain ⟨ho, hc, hf, hst⟩ := h
  rw [hs] at hst
  obtain ⟨hstage, hb, hl, front, back, hsplit, hback, hparse⟩ := hst
  -- where the message is no command
  have hno : findCommand c.chunks AESDCHAR_IOCSEEKTO_CMD = none →
      Shows { p with stage := p.copyLoop } l c := fun hnone => by
    have hcopy := Shows.copyLoop ho hc hf hl hnone (.inr hb)
    have hsame : c.stage = Conn.copyLoop c.fileFd (l.map Chunk.bytes) := by
      rw [hstage, Conn.command, hnone, hb]
    rwa [← hsame] at hcopy
  cases back with
  | nil =>
    obtain rfl : head = none := hback.eq_nil_iff.2 rfl
    rw [List.map_nil, Parse.list] at hparse
    have hfound := findCommand_list hparse
    refine ⟨_, rfl, ?_⟩
    cases hw : st.writeCmdFound with
    | false =>
      rw [hw, if_pos rfl] at hfound
      exact hno hfound
    | true =>
      rw [hw, if_neg Bool.noConfusion] at hfound
      rw [Conn.command, hfound] at hstage
      refine ⟨ho.congr rfl rfl rfl, hc, hf, hstage, ?_⟩
      refine iff_of_false (fun he => ?_) (findCommand_frees hfound)
      rw [← hb, he] at hfound
      cases hfound
  | cons k back =>
    obtain ⟨rfl, b, hmem, hrest⟩ := hback
    have hk := ho.chunks k (by rw [hsplit]; simp)
    obtain ⟨n, hn, hbuf, hlen⟩ := hk.node
    obtain rfl : b = .node n := Option.some.inj (hmem.symm.trans hn)
    rw [List.map_cons, Parse.list] at hparse
    cases hbuffer : st.buffer AESDCHAR_IOCSEEKTO_CMD k.bytes with
    | none =>
      rw [hbuffer] at hparse
      refine ⟨_, onFindCommand_none (load_eq hn) (bytes_eq hk hbuf hlen) hbuffer, hno ?_⟩
      unfold findCommand
      rw [hparse, ite_self]
    | some st' =>
      rw [hbuffer] at hparse
      refine ⟨_, onFindCommand_some (load_eq hn) (bytes_eq hk hbuf hlen) hbuffer, ho.congr rfl rfl rfl, hc, hf, hstage,
        hb, hl, front ++ [k], back, ?_, hrest, hparse⟩
      rw [hsplit, List.append_assoc]
      rfl

/-- A chunk is written. -/
theorem Shows.onWrite (h : p.Shows l c) (hs : p.stage = .write) :
    ∃ p' l' c', p.onWrite = .ok p' ∧ Conn.Next c c' ∧ p'.Shows l' c' := by
  obtain ⟨ho, hc, hf, hst⟩ := h
  rw [hs] at hst
  obtain ⟨hstage, hne, hl, hfd, hnone⟩ := hst
  cases l with
  | nil => exact absurd rfl hne
  | cons k l =>
    obtain ⟨p', he, ho', hl', hf', hr'⟩ := ho.onWrite hl
    exact ⟨_, l, _, he, .write hstage,
      Shows.copyLoop ho' (hc.trans hr'.symm) (hf.trans hf'.symm) hl' hnone (.inl hfd)⟩

/-- Whatever a call returns, no access is bad, and the connection that the
memory shows makes the same call; in `findCommand` it waits. -/
theorem Call.shows (h : p.Shows l c) {r : Except BadAccess Packet} (hcall : Call p r) :
    ∃ p' l' c', r = .ok p' ∧ (c' = c ∨ Conn.Next c c') ∧ p'.Shows l' c' := by
  cases hcall with
  | recv bytes temp newnode hs hlen htemp ha =>
    obtain ⟨p', l', c', he, hnext, hshows⟩ := h.onRecv hs hlen htemp ha
    exact ⟨p', l', c', he, .inr hnext, hshows⟩
  | lock hs => exact ⟨_, l, _, rfl, .inr (h.onLock hs).1, (h.onLock hs).2⟩
  | findCommand hs =>
    obtain ⟨p', he, hshows⟩ := h.onFindCommand hs
    exact ⟨p', l, c, he, .inl rfl, hshows⟩
  | write hs =>
    obtain ⟨p', l', c', he, hnext, hshows⟩ := h.onWrite hs
    exact ⟨p', l', c', he, .inr hnext, hshows⟩
  | openFile fileFd hs =>
    obtain ⟨ho, hc, hf, hst⟩ := h
    rw [hs] at hst
    obtain ⟨hstage, hb, hl⟩ := hst
    exact ⟨_, l, _, rfl, .inr (.openFile fileFd hstage),
      Shows.command (p := { p with fileFd := fileFd }) (c := { c with fileFd := fileFd }) (ho.congr rfl rfl rfl) hc rfl hb hl⟩
  | ioctl hs =>
    obtain ⟨ho, hc, hf, hst⟩ := h
    rw [hs] at hst
    exact ⟨_, l, _, rfl, .inr (.ioctl hst.1), ho.congr rfl rfl rfl, hc, hf, rfl, hst.2⟩
  | unlock hs =>
    obtain ⟨ho, hc, hf, hst⟩ := h
    rw [hs] at hst
    refine ⟨_, l, _, rfl, .inr (.unlock hst.1), ho.congr rfl rfl rfl, hc, hf, ?_⟩
    unfold Conn.onUnlock
    by_cases hfd : c.fileFd = true
    · rw [if_pos hfd, if_pos (hf ▸ hfd)]
      exact ⟨rfl, hst.2⟩
    · rw [if_neg hfd, if_neg (hf ▸ hfd)]
      exact ⟨rfl, hst.2⟩
  | read buffer hs =>
    obtain ⟨ho, hc, hf, hst⟩ := h
    rw [hs] at hst
    refine ⟨_, l, _, rfl, .inr (.read buffer hst.1), ho.congr rfl rfl rfl, hc, hf, ?_⟩
    unfold Conn.onRead
    by_cases hb : buffer = []
    · rw [if_pos hb, if_pos hb]
      exact ⟨rfl, hst.2⟩
    · rw [if_neg hb, if_neg hb]
      exact ⟨rfl, hst.2⟩
  | send hs =>
    obtain ⟨ho, hc, hf, hst⟩ := h
    rw [hs] at hst
    exact ⟨_, l, _, rfl, .inr (.send hst.1), ho.congr rfl rfl rfl, hc, hf, rfl, hst.2⟩
  | close hs =>
    obtain ⟨ho, hc, hf, hst⟩ := h
    rw [hs] at hst
    exact ⟨_, l, _, rfl, .inr (.close hst.1), ho.congr rfl rfl rfl, hc, hf, rfl, hst.2⟩

theorem Call.next {p' : Packet} {r : Except BadAccess Packet} (h : Call p r) (he : r = .ok p') : Step p p' := by
  subst he
  exact h

end Shows

theorem start_shows : start.Shows [] Conn.start := by
  refine ⟨⟨?_, ⟨_, rfl⟩, ?_, List.Perm.refl _⟩, rfl, rfl, rfl, rfl, ⟨rfl, _, rfl, rfl⟩, [], dummyhead, rfl, rfl⟩
  · intro c hc
    cases hc
  · exact List.nodup_singleton _

end Packet

open Packet

/-- Every run of the code with its memory shows a run of the connection. -/
theorem shows_of_run {states : List Packet} {p : Packet} (hrun : Run Packet.Step Packet.start states p) :
    ∃ l c conns, Run Conn.Next Conn.start conns c ∧ p.Shows l c := by
  refine hrun.inv (fun p => ∃ l c conns, Run Conn.Next Conn.start conns c ∧ p.Shows l c)
    ⟨[], .start, [], .nil, start_shows⟩ ?_
  rintro p p' ⟨l, c, conns, hconn, h⟩ hst
  obtain ⟨_, l', c', hok, hnext, h'⟩ := Call.shows h hst
  obtain rfl := Except.ok.inj hok
  rcases hnext with rfl | hnext
  · exact ⟨l', c', conns, hconn, h'⟩
  · exact ⟨l', c', _, hconn.snoc hnext, h'⟩

/-- In every run, whatever the calls return, no access to the memory is bad. When
the connection is finished, every block it has allocated has been freed, and
freed once, if and only if nothing was received, or the file was opened and the
message is no seek command. -/
theorem packet_released_iff {states : List Packet} {p : Packet} (hrun : Run Packet.Step Packet.start states p) :
    (∀ bad, ¬ Packet.Call p (.error bad)) ∧
      (p.stage = .finished → (p.Released ↔ p.received = [] ∨
        (p.fileFd = true ∧ findCommand p.received AESDCHAR_IOCSEEKTO_CMD = none))) := by
  obtain ⟨l, c, -, -, h⟩ := shows_of_run hrun
  constructor
  · intro bad hcall
    obtain ⟨_, _, _, he, -⟩ := Call.shows h hcall
    cases he
  · intro hs
    obtain ⟨ho, hc, hf, hst⟩ := h
    rw [hs] at hst
    rw [ho.released_iff, hst.2, hc, hf]
    rfl

/-- A line is received, in two chunks, and written. -/
theorem packet_released_line : ∃ states p, Run Packet.Step Packet.start states p ∧ p.stage = .finished ∧ p.Released := by
  have h0 : Run Packet.Step Packet.start [] _ := .nil
  have h1 := h0.snoc (.recv [97] (some 1) 2 rfl (by decide) (fun b hb => by cases hb; exact ⟨rfl, by decide⟩) rfl)
  have h2 := h1.snoc (.recv [newline] (some 3) 4 rfl (by decide) (fun b hb => by cases hb; exact ⟨rfl, by decide⟩) rfl)
  have h3 := h2.snoc (.lock rfl)
  have h4 := h3.snoc (.openFile true rfl)
  have h5 := h4.snoc (Call.next (.findCommand rfl) (onFindCommand_none rfl rfl (by decide +kernel)))
  have h6 := h5.snoc (.write rfl)
  have h7 := h6.snoc (.write rfl)
  have h8 := h7.snoc (.unlock rfl)
  have h9 := h8.snoc (.read [] rfl)
  have h10 := h9.snoc (.close rfl)
  exact ⟨_, _, h10, rfl, ((packet_released_iff h10).2 rfl).2 (.inr ⟨rfl, by decide +kernel⟩)⟩

/-- A seek command is received and carried out: its node and its buffer are not freed. -/
theorem packet_leaked : ∃ states p, Run Packet.Step Packet.start states p ∧ p.stage = .finished ∧ ¬ p.Released := by
  have hbuffer : Parse.start.buffer AESDCHAR_IOCSEEKTO_CMD (seekCommand [48] [48] ++ [newline]) =
      some ⟨19, true, true, 0, 0⟩ := by decide +kernel
  have h0 : Run Packet.Step Packet.start [] _ := .nil
  have h1 := h0.snoc (.recv (seekCommand [48] [48] ++ [newline]) (some 1) 2 rfl (by decide +kernel)
    (fun b hb => by cases hb; exact ⟨rfl, by decide⟩) rfl)
  have h2 := h1.snoc (.lock rfl)
  have h3 := h2.snoc (.openFile true rfl)
  have h4 := h3.snoc (Call.next (.findCommand rfl) (onFindCommand_some rfl rfl hbuffer))
  have h5 := h4.snoc (@Call.findCommand _ ⟨19, true, true, 0, 0⟩ none rfl)
  have h6 := h5.snoc (.ioctl rfl)
  have h7 := h6.snoc (.unlock rfl)
  have h8 := h7.snoc (.read [] rfl)
  have h9 := h8.snoc (.close rfl)
  exact ⟨_, _, h9, rfl, fun h => absurd h.length_eq (by decide)⟩

end Aesd
