import Aesd.Server.Answer
/-!
# How a stream is cut

`recv` stops at the first chunk that has a newline, but keeps all of that chunk,
and what follows the newline is written with the packet. So where the stream goes
on behind its first newline, the entry stored depends on how much of it came in
that chunk; if the packet is a seek command, on nothing.
-/

namespace Aesd

open SysLib

/-- Two connections have left the device alike and sent the same. -/
structure SameEnd (n n' : Net Unit) : Prop where
  ring : ringCells n.sys = ringCells n'.sys
  pending : pendCells n.sys = pendCells n'.sys
  pendingSize : n.sys.dev.newEntry.size = n'.sys.dev.newEntry.size
  response : n.response () = n'.response ()

/-- However the stream is cut, a connection that runs alone and completes ends alike. -/
def SegmentationIndependent (k : Kernel) (s : Sys) (stream : List UInt8) : Prop :=
  ∀ l n l' n', Run (Net.AnyStep k) (Net.start s fun _ : Unit => stream) l n → (n.conn ()).stage = .finished →
    Run (Net.AnyStep k) (Net.start s fun _ : Unit => stream) l' n' → (n'.conn ()).stage = .finished → SameEnd n n'

/-- Nothing follows the first newline, or what is before it is a seek command, or
the device has no room for a byte that follows it. -/
def NothingToCut (k : Kernel) (s : Sys) (stream : List UInt8) : Prop :=
  ∀ pre post, stream = pre ++ newline :: post → newline ∉ pre →
    post = [] ∨ (findCommand [pre] AESDCHAR_IOCSEEKTO_CMD).isSome ∨
      k.kmallocMaxSize < s.dev.newEntry.size + pre.length + 2

/-! ## Packets -/

section Packets

theorem first_newline {a a' b b' : List UInt8} (ha : newline ∉ a) (ha' : newline ∉ a')
    (h : a ++ newline :: b = a' ++ newline :: b') : a = a' ∧ b = b' := by
  induction a generalizing a' with
  | nil =>
    cases a' with
    | nil => exact ⟨rfl, (List.cons.inj h).2⟩
    | cons x a' => exact absurd ((List.cons.inj h).1 ▸ List.mem_cons_self) ha'
  | cons x a ih =>
    cases a' with
    | nil => exact absurd ((List.cons.inj h).1 ▸ List.mem_cons_self) ha
    | cons x' a' =>
      obtain ⟨rfl, htail⟩ := List.cons.inj h
      obtain ⟨rfl, rfl⟩ := ih (fun hm => ha (List.mem_cons_of_mem _ hm)) (fun hm => ha' (List.mem_cons_of_mem _ hm)) htail
      exact ⟨rfl, rfl⟩

/-- Without a newline all of the stream is collected. -/
theorem Gathered.all {stream : List UInt8} {chunks : List (List UInt8)} (h : Gathered stream chunks)
    (hn : newline ∉ stream) : chunks.flatten = stream := by
  obtain ⟨left, rfl, hor⟩ := h.part
  rcases hor with hm | rfl
  · exact absurd (List.mem_append_left _ hm) hn
  · rw [List.append_nil]

theorem Gathered.packet {pre post : List UInt8} {chunks : List (List UInt8)}
    (h : Gathered (pre ++ newline :: post) chunks) (hn : newline ∉ pre) :
    ∃ extra left, chunks.flatten = pre ++ newline :: extra ∧ extra ++ left = post := by
  obtain ⟨left, hleft, hor⟩ := h.part
  have hm : newline ∈ chunks.flatten := by
    rcases hor with hm | rfl
    · exact hm
    · rw [List.append_nil] at hleft
      rw [hleft]; simp
  obtain ⟨pre', extra, he, hn'⟩ := List.eq_append_cons_of_mem hm
  rw [he, List.append_assoc, List.cons_append] at hleft
  obtain ⟨rfl, hpost⟩ := first_newline hn' hn hleft
  exact ⟨extra, left, he, hpost⟩

/-- A packet stored on a device fits into one block. -/
theorem store_fits {k : Kernel} {s : Sys} (h : Ok k s) {d : Device} {message : List UInt8} (hn : newline ∈ message)
    (hd : device s = d.store message) : d.log.pending.length + message.length ≤ k.kmallocMaxSize := by
  obtain ⟨ring, pend, rest, h⟩ := h
  have hany : (message.map some).any isNewline = true := by rw [any_isNewline]; simpa using hn
  have hentries : ring.map Prod.snd = (d.log.entries ++ [d.log.pending ++ message.map some]).rtake maxWriteOperationsSupported := by
    have he := congrArg (·.log.entries) hd
    simpa only [h.device, Device.store, LineLog.append, hany, if_true] using he
  have hmem : d.log.pending ++ message.map some ∈ ring.map Prod.snd := by
    rw [hentries, show maxWriteOperationsSupported = 9 + 1 from rfl, List.rtake_concat_succ]
    simp
  obtain ⟨b, hb, he⟩ := List.mem_map.1 hmem
  have hle := h.ring_small b hb
  rw [he, List.length_append, List.length_map] at hle
  exact hle

theorem store_inj {d : Device} {message message' : List UInt8} (hn : newline ∈ message) (hn' : newline ∈ message')
    (h : (d.store message).log.entries = (d.store message').log.entries) : message = message' := by
  have hany : ∀ m : List UInt8, newline ∈ m → (m.map some).any isNewline = true := fun m hm => by
    rw [any_isNewline]; simpa using hm
  simp only [Device.store, LineLog.append, hany _ hn, hany _ hn', if_true] at h
  rw [show maxWriteOperationsSupported = 9 + 1 from rfl, List.rtake_concat_succ, List.rtake_concat_succ] at h
  have hlast := List.append_cancel_left (List.singleton_injective (List.append_inj' h rfl).2)
  exact List.map_injective_iff.2 (Option.some_injective _) hlast

end Packets

/-! ## When the cut matters -/

section Independence

variable {k : Kernel} {s : Sys} {stream : List UInt8} {n n' : Net Unit}

/-- Messages with one effect and one response. -/
theorem same_end {m m' : List UInt8} (hok : Ok k n.sys) (hok' : Ok k n'.sys)
    (hd : device n.sys = (device s).after m) (hd' : device n'.sys = (device s).after m')
    (hr : n.response () = (device s).response m) (hr' : n'.response () = (device s).response m')
    (hafter : (device s).after m = (device s).after m') (hresp : (device s).response m = (device s).response m') :
    SameEnd n n' := by
  obtain ⟨hring, hpend, hsize⟩ := hok'.same hok (by rw [hd, hd', hafter])
  exact ⟨hring, hpend, hsize, by rw [hr, hr', hresp]⟩

theorem command_same {d : Device} {pre : List UInt8} (hn : newline ∉ pre) {seekto : AesdSeekto}
    (h : findCommand [pre] AESDCHAR_IOCSEEKTO_CMD = some seekto) (extra : List UInt8) :
    d.after (pre ++ newline :: extra) = d ∧
      d.response (pre ++ newline :: extra) = d.log.contents.drop (ioctlFinish (d.place seekto) ⟨true, 0⟩).2.toNat := by
  have hfound := (findCommand_line AESDCHAR_IOCSEEKTO_CMD hn extra).trans h
  have hafter : d.after (pre ++ newline :: extra) = d := Device.after_command hfound
  refine ⟨hafter, ?_⟩
  rw [Device.response, if_neg (by simp), hafter, Device.startAt_command hfound]

/-- The stream cut into single bytes up to its first newline, which comes with `extra`. -/
def cutBehind (pre extra : List UInt8) : List (List UInt8) := pre.map (fun b => [b]) ++ [newline :: extra]

theorem flatten_cutBehind (pre extra : List UInt8) : (cutBehind pre extra).flatten = pre ++ newline :: extra := by
  rw [cutBehind, List.flatten_append, List.flatten_singleton]
  congr 1
  induction pre with
  | nil => rfl
  | cons b pre ih => simp [ih]

theorem gathered_cutBehind {pre extra left : List UInt8} (hn : newline ∉ pre) :
    Gathered (pre ++ newline :: (extra ++ left)) (cutBehind pre extra) where
  collected c hc := by
    rw [cutBehind, List.dropLast_concat, List.mem_map] at hc
    obtain ⟨b, hb, rfl⟩ := hc
    rw [List.mem_singleton]
    rintro rfl
    exact hn hb
  nonempty := by simp [cutBehind]
  part := ⟨left, by rw [flatten_cutBehind]; simp, .inl (by rw [flatten_cutBehind]; simp)⟩

/-- A run can keep a byte that follows the newline, or none. -/
theorem run_keeps {k : Kernel} {s : Sys} (h : Ok k s) (hl : s.dev.lock = false) {pre extra left : List UInt8}
    (hn : newline ∉ pre) (hnone : findCommand [pre] AESDCHAR_IOCSEEKTO_CMD = none) (hlen : extra.length ≤ 1)
    (hroom : s.dev.newEntry.size + pre.length + 2 ≤ k.kmallocMaxSize) :
    ∃ l n, Run (Net.AnyStep k) (Net.start s fun _ : Unit => pre ++ newline :: (extra ++ left)) l n ∧
      (n.conn ()).stage = .finished ∧ ringCells n.sys = ((device s).store (pre ++ newline :: extra)).log.entries := by
  have hsize : ∀ c ∈ cutBehind pre extra, c.length ≤ BUFFER_SIZE := by
    intro c hc
    rw [cutBehind, List.mem_append, List.mem_map, List.mem_singleton] at hc
    rcases hc with ⟨_, -, rfl⟩ | rfl
    · exact Nat.le_of_ble_eq_true rfl
    · rw [List.length_cons]
      have : BUFFER_SIZE = 1024 := rfl
      omega
  obtain ⟨l, n, hrun, hfin, hchunks⟩ := connection_completes h hl (gathered_cutBehind hn) hsize
    fun _ => by rw [flatten_cutBehind, List.length_append, List.length_cons]; omega
  obtain ⟨hok, -, hd, -⟩ := connection_answers h hl hrun hfin
  rw [hchunks, flatten_cutBehind, Device.after_data (by simp)
    ((findCommand_line AESDCHAR_IOCSEEKTO_CMD hn extra).trans hnone)] at hd
  exact ⟨l, n, hrun, hfin, congrArg (·.log.entries) hd⟩

/-- No run keeps what follows the newline if there is no room for a byte of it. -/
theorem run_drops {k : Kernel} {s : Sys} (h : Ok k s) {n : Net Unit} (hok : Ok k n.sys) {pre extra : List UInt8}
    (hn : newline ∉ pre) (hnone : findCommand [pre] AESDCHAR_IOCSEEKTO_CMD = none)
    (hroom : k.kmallocMaxSize < s.dev.newEntry.size + pre.length + 2)
    (hd : device n.sys = (device s).after (pre ++ newline :: extra)) : extra = [] := by
  rw [Device.after_data (by simp) ((findCommand_line AESDCHAR_IOCSEEKTO_CMD hn extra).trans hnone)] at hd
  have hfits := store_fits hok (by simp) hd
  obtain ⟨_, _, _, h⟩ := h
  rw [← h.size_device, List.length_append, List.length_cons] at hfits
  exact List.length_eq_zero_iff.1 (by omega)

end Independence

/-- How the stream is cut makes no difference exactly if nothing follows its
first newline, the packet is a seek command, or no run keeps what follows. -/
theorem segmentation_independent_iff (k : Kernel) {s : Sys} (h : Ok k s) (hl : s.dev.lock = false)
    (stream : List UInt8) : SegmentationIndependent k s stream ↔ NothingToCut k s stream := by
  constructor
  · intro hind pre post hstream hn
    by_contra hcut
    simp only [not_or, Option.not_isSome_iff_eq_none, Nat.not_lt] at hcut
    obtain ⟨hpost, hnone, hroom⟩ := hcut
    obtain ⟨b, post, rfl⟩ := List.exists_cons_of_ne_nil hpost
    -- the packet alone, and the packet with the byte that follows
    subst hstream
    obtain ⟨l, n, hr, hfin, hring⟩ := @run_keeps k s h hl pre [] (b :: post) hn hnone (Nat.zero_le _) hroom
    obtain ⟨l', n', hr', hfin', hring'⟩ := @run_keeps k s h hl pre [b] post hn hnone (Nat.le_refl _) hroom
    have hsame := (hind l n l' n' hr hfin hr' hfin').ring
    rw [hring, hring'] at hsame
    have heq := store_inj (by simp) (by simp) hsame
    simp at heq
  · intro hcut l n l' n' hr hfin hr' hfin'
    obtain ⟨hok, hg, hd, hresp⟩ := connection_answers h hl hr hfin
    obtain ⟨hok', hg', hd', hresp'⟩ := connection_answers h hl hr' hfin'
    -- one message on both sides
    have hone : (n.conn ()).chunks.flatten = (n'.conn ()).chunks.flatten → SameEnd n n' := fun he =>
      same_end hok hok' hd hd' hresp hresp' (by rw [he]) (by rw [he])
    by_cases hmem : newline ∈ stream
    · obtain ⟨pre, post, rfl, hn⟩ := List.eq_append_cons_of_mem hmem
      obtain ⟨extra, left, hm, he⟩ := hg.packet hn
      obtain ⟨extra', left', hm', he'⟩ := hg'.packet hn
      cases hfound : findCommand [pre] AESDCHAR_IOCSEEKTO_CMD with
      | some seekto =>
        rw [hm] at hd hresp
        rw [hm'] at hd' hresp'
        have h1 := command_same (d := device s) hn hfound extra
        have h2 := command_same (d := device s) hn hfound extra'
        exact same_end hok hok' hd hd' hresp hresp' (h1.1.trans h2.1.symm) (h1.2.trans h2.2.symm)
      | none =>
        -- no run keeps a byte that follows the newline
        have hextra : ∀ {n : Net Unit} {extra left : List UInt8}, Ok k n.sys →
            device n.sys = (device s).after (pre ++ newline :: extra) → extra ++ left = post → extra = [] := by
          intro n extra left hok hd he
          rcases hcut pre post rfl hn with rfl | hsome | hbig
          · exact (List.append_eq_nil_iff.1 he).1
          · rw [hfound] at hsome; cases hsome
          · exact run_drops h hok hn hfound hbig hd
        apply hone
        rw [hm, hm', hextra hok (hm ▸ hd) he, hextra hok' (hm' ▸ hd') he']
    · exact hone (by rw [hg.all hmem, hg'.all hmem])

/-- A line alone can be cut in any way. -/
theorem segmentation_independent_line : SegmentationIndependent .pages4K aesdInitModule [97, newline] := by
  refine (segmentation_independent_iff .pages4K ⟨[], [], [], holds_init _⟩ rfl [97, newline]).2 ?_
  intro pre post h hn
  exact .inl (first_newline (a := [97]) (b := []) (by decide) hn h).2.symm

/-- `"a\nb"`, in one chunk or with the last byte in a chunk of its own. -/
theorem segmentation_matters : ¬ SegmentationIndependent .pages4K aesdInitModule [97, newline, 98] := by
  have h0 : Run (Net.AnyStep .pages4K) (Net.start aesdInitModule fun _ : Unit => [97, newline, 98]) [] _ := .nil
  -- one chunk
  have h1 := h0.snoc ⟨(), .recv [97, newline, 98] [] rfl rfl (by decide) (by decide)⟩
  have h2 := h1.snoc ⟨(), .lock rfl rfl⟩
  have h3 := h2.snoc ⟨(), .openFile rfl⟩
  have h4 := h3.snoc ⟨(), .write (o := ⟨false, some 0, some 0, 0⟩) rfl rfl rfl⟩
  have h5 := h4.snoc ⟨(), .unlock rfl⟩
  have h6 := h5.snoc ⟨(), .read (o := ⟨false, none, none, 0⟩) rfl ⟨rfl, rfl⟩ rfl⟩
  have h7 := h6.snoc ⟨(), .send rfl⟩
  have h8 := h7.snoc ⟨(), .read (o := ⟨false, none, none, 0⟩) rfl ⟨rfl, rfl⟩ rfl⟩
  have h9 := h8.snoc ⟨(), .close rfl⟩
  -- the newline ends a chunk
  have g1 := h0.snoc ⟨(), .recv [97, newline] [98] rfl rfl (by decide) (by decide)⟩
  have g2 := g1.snoc ⟨(), .lock rfl rfl⟩
  have g3 := g2.snoc ⟨(), .openFile rfl⟩
  have g4 := g3.snoc ⟨(), .write (o := ⟨false, some 0, some 0, 0⟩) rfl rfl rfl⟩
  have g5 := g4.snoc ⟨(), .unlock rfl⟩
  have g6 := g5.snoc ⟨(), .read (o := ⟨false, none, none, 0⟩) rfl ⟨rfl, rfl⟩ rfl⟩
  have g7 := g6.snoc ⟨(), .send rfl⟩
  have g8 := g7.snoc ⟨(), .read (o := ⟨false, none, none, 0⟩) rfl ⟨rfl, rfl⟩ rfl⟩
  have g9 := g8.snoc ⟨(), .close rfl⟩
  intro hind
  have hsame : [some 97, some newline, some 98] = [some 97, some newline] := (hind _ _ _ _ h9 rfl g9 rfl).response
  cases hsame

end Aesd
