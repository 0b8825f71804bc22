import Aesd.Server.Answer
import Aesd.Seek
/-!
# The response to one message

A message that ends with its only newline, whichever way it is cut into chunks:
data becomes the newest entry, and everything stored is sent back; a seek
command to a stored byte stores nothing, and everything from that byte on is
sent back.
-/

namespace Aesd

open SysLib

/-- A stream as `recv` may deliver it. -/
structure Cut (stream : List UInt8) (chunks : List (List UInt8)) : Prop where
  flatten : chunks.flatten = stream
  nonempty : [] ∉ chunks
  small : ∀ c ∈ chunks, c.length ≤ BUFFER_SIZE

section Message

variable {body : List UInt8} {chunks : List (List UInt8)}

/-- Only the last chunk of a line has a newline. -/
theorem Cut.collected (h : Cut (body ++ [newline]) chunks) (hn : newline ∉ body) : Collected chunks := by
  have hne : chunks ≠ [] := by
    rintro rfl
    have := h.flatten
    simp at this
  have hsplit := List.dropLast_append_getLast hne
  have hflat := h.flatten
  rw [← hsplit, List.flatten_append, List.flatten_singleton] at hflat
  have hlast : chunks.getLast hne ≠ [] := fun he => h.nonempty (he ▸ List.getLast_mem hne)
  obtain ⟨cs, c, hc⟩ : ∃ cs c, chunks.getLast hne = cs ++ [c] :=
    ⟨_, _, (List.dropLast_append_getLast hlast).symm⟩
  rw [hc, ← List.append_assoc] at hflat
  have hbody : chunks.dropLast.flatten ++ cs = body := (List.append_inj_left' hflat rfl)
  intro d hd hnd
  refine hn ?_
  rw [← hbody]
  exact List.mem_append_left _ (List.mem_flatten.2 ⟨d, hd, hnd⟩)

theorem Cut.gathered (h : Cut (body ++ [newline]) chunks) (hn : newline ∉ body) : Gathered (body ++ [newline]) chunks :=
  ⟨h.collected hn, h.nonempty, [], by rw [h.flatten, List.append_nil], .inr rfl⟩

end Message

/-! ## The device -/

namespace Device

theorem store_line {d : Device} (hd : d.log.pending = []) (body : List UInt8) :
    (d.store (body ++ [newline])).log =
      ⟨(d.log.entries ++ [(body ++ [newline]).map some]).rtake maxWriteOperationsSupported, []⟩ := by
  have hany : ((body ++ [newline]).map some).any isNewline = true := by
    rw [any_isNewline]
    simp
  rw [store, LineLog.append, hany, hd]
  rfl

theorem drop_entryPos (entries : List (List Cell)) (seekto : AesdSeekto) :
    entries.flatten.drop (entryPos (entries.map List.length) seekto) =
      (entries.drop seekto.writeCmd).flatten.drop seekto.writeCmdOffset := by
  have htake : ((entries.map List.length).take seekto.writeCmd).sum = (entries.take seekto.writeCmd).flatten.length := by
    rw [← List.map_take, List.length_flatten]
  rw [entryPos, ← List.drop_drop, htake]
  conv_lhs => rw [← List.take_append_drop seekto.writeCmd entries, List.flatten_append]
  rw [List.take_append_drop, List.drop_left]

end Device

section Run

variable {k : Kernel} {s : Sys} {body xs ys : List UInt8}

/-- The response to a line. -/
theorem response_line (d : Device) (hd : d.log.pending = [])
    (hcmd : findCommand [body ++ [newline]] AESDCHAR_IOCSEEKTO_CMD = none) :
    (d.after (body ++ [newline])).log =
        ⟨(d.log.entries ++ [(body ++ [newline]).map some]).rtake maxWriteOperationsSupported, []⟩ ∧
      d.response (body ++ [newline]) =
        ((d.log.entries ++ [(body ++ [newline]).map some]).rtake maxWriteOperationsSupported).flatten := by
  have hne : body ++ [newline] ≠ [] := by simp
  have hafter : (d.after (body ++ [newline])).log =
      ⟨(d.log.entries ++ [(body ++ [newline]).map some]).rtake maxWriteOperationsSupported, []⟩ := by
    rw [Device.after_data hne hcmd, Device.store_line hd]
  refine ⟨hafter, ?_⟩
  rw [Device.response, if_neg hne, Device.startAt_data hcmd, LineLog.contents, hafter]
  rfl

/-- The response to a seek command that names a stored byte. -/
theorem response_seek {ring rest : List (Nat × List Cell)} {pend : List Cell} (h : Holds k s ring pend rest)
    {message : List UInt8} {seekto : AesdSeekto} (hne : message ≠ [])
    (hcmd : findCommand [message] AESDCHAR_IOCSEEKTO_CMD = some seekto) (hd : Designates s.sizes seekto) :
    (device s).after message = device s ∧
      (device s).response message = ((ringCells s).drop seekto.writeCmd).flatten.drop seekto.writeCmdOffset := by
  have hafter := Device.after_command (d := device s) hcmd
  refine ⟨hafter, ?_⟩
  have hplace := (seek_place h.toOwns seekto).1 (.inl hd)
  rw [Device.response, if_neg hne, hafter, Device.startAt_command hcmd, hplace, ioctlFinish, if_neg (by omega),
    Int.toNat_natCast]
  exact Device.drop_entryPos (ringCells s) seekto

/-- A device without pending bytes, and a message whose only newline is its last
byte. Every way to cut the message that the device has room for has a complete
run. In every complete run that cut it so, data is added to the ring as one
entry and the whole ring is sent back; and a seek command with numbers below
`2 ^ 32` that name a stored byte changes nothing, and the ring from that byte on
is sent back. -/
theorem response_end_to_end (k : Kernel) (is : List Invocation) :
    ∃ evs s, runCalls k is aesdInitModule = .ok (evs, s) ∧
      (s.dev.lock = false → s.dev.newEntry.size = 0 → ∀ (body : List UInt8) (chunks : List (List UInt8)),
        newline ∉ body → Cut (body ++ [newline]) chunks →
        ((findCommand chunks AESDCHAR_IOCSEEKTO_CMD = none → (body ++ [newline]).length ≤ k.kmallocMaxSize) →
          Completes k (Net.start s fun _ => body ++ [newline]) chunks) ∧
        ∀ (l : List (Net Unit)) (n : Net Unit), Run (Net.AnyStep k) (Net.start s fun _ => body ++ [newline]) l n →
          (n.conn ()).stage = .finished → (n.conn ()).chunks = chunks →
          (findCommand chunks AESDCHAR_IOCSEEKTO_CMD = none →
            ringCells n.sys = (ringCells s ++ [(body ++ [newline]).map some]).rtake maxWriteOperationsSupported ∧
            pendCells n.sys = [] ∧ n.sys.dev.newEntry.size = 0 ∧
            n.response () = (ringCells n.sys).flatten) ∧
          (∀ xs ys, Numeral xs → Numeral ys → body = seekCommand xs ys →
            numeralValue xs < 2 ^ 32 → numeralValue ys < 2 ^ 32 →
            Designates s.sizes ⟨numeralValue xs, numeralValue ys⟩ →
            ringCells n.sys = ringCells s ∧ pendCells n.sys = [] ∧ n.sys.dev.newEntry.size = 0 ∧
            n.response () = ((ringCells s).drop (numeralValue xs)).flatten.drop (numeralValue ys))) := by
  obtain ⟨evs, s, hr, hok, -⟩ := runCalls_induct k (fun _ _ => True) trivial
    (fun _ _ _ _ _ _ _ _ _ _ => trivial) is
  refine ⟨evs, s, hr, fun hl hsize body chunks hn hcut => ⟨fun hroom => ?_, fun l n hrun hfin hchunks => ?_⟩⟩
  · refine connection_completes hok hl (hcut.gathered hn) hcut.small fun hcmd => ?_
    rw [hsize, hcut.flatten, Nat.zero_add]
    exact hroom hcmd
  obtain ⟨hok', -, hdev, hresp⟩ := connection_answers hok hl hrun hfin
  obtain ⟨ring, pend, rest, h⟩ := hok
  obtain ⟨ring', pend', rest', h'⟩ := hok'
  have hne : chunks ≠ [] := by
    rintro rfl
    have := hcut.flatten
    simp at this
  have hcmd := (hcut.gathered hn).findCommand hne AESDCHAR_IOCSEEKTO_CMD
  rw [hchunks, hcut.flatten] at hdev hresp
  rw [hcut.flatten] at hcmd
  have hpend : (device s).log.pending = [] := by
    rw [← List.length_eq_zero_iff, ← h.size_device]
    exact hsize
  have hnone : ∀ {d : Device}, d.log.pending = [] → device n.sys = d →
      pendCells n.sys = [] ∧ n.sys.dev.newEntry.size = 0 := by
    rintro d hd rfl
    rw [h'.pendCells_device, h'.size_device, hd]
    exact ⟨ite_self [], rfl⟩
  constructor
  · intro hdata
    obtain ⟨hlog, hall⟩ := response_line (device s) hpend (hcmd.symm.trans hdata)
    have hring : ringCells n.sys = _ := congrArg (fun d => d.log.entries) hdev
    rw [hlog] at hring
    obtain ⟨hp, hz⟩ := hnone (congrArg LineLog.pending hlog) hdev
    exact ⟨hring, hp, hz, by rw [hresp, hall, hring]⟩
  · rintro xs ys hx hy rfl hvx hvy hd
    obtain ⟨hsame, hall⟩ := response_seek h (by simp) (findCommand_seekCommand hx hy hvx hvy []) hd
    rw [hsame] at hdev
    obtain ⟨hp, hz⟩ := hnone hpend hdev
    exact ⟨congrArg (fun d => d.log.entries) hdev, hp, hz, hresp.trans hall⟩

end Run

/-- The device holds `"ab\n"`: the responses to `"c\n"` and to the seek command for byte 1 of entry 0. -/
theorem response_end_to_end_two :
    ∃ evs s, runCalls .pages4K [⟨some ⟨true, 0⟩, .write (some [97, 98, newline]), ⟨false, some 0, some 0, 0⟩⟩]
        aesdInitModule = .ok (evs, s) ∧
      (∃ l n, Run (Net.AnyStep .pages4K) (Net.start s fun _ : Unit => [99, newline]) l n ∧
        ringCells n.sys = [[some 97, some 98, some newline], [some 99, some newline]] ∧
        n.response () = [some 97, some 98, some newline, some 99, some newline]) ∧
      (∃ l n, Run (Net.AnyStep .pages4K) (Net.start s fun _ : Unit => seekCommand [48] [49] ++ [newline]) l n ∧
        ringCells n.sys = [[some 97, some 98, some newline]] ∧ n.response () = [some 98, some newline]) := by
  obtain ⟨evs, s, hr, h⟩ := response_end_to_end .pages4K
    [⟨some ⟨true, 0⟩, .write (some [97, 98, newline]), ⟨false, some 0, some 0, 0⟩⟩]
  obtain ⟨evs', s', hr', -, hdev⟩ := runCalls_device .pages4K
    [⟨some ⟨true, 0⟩, .write (some [97, 98, newline]), ⟨false, some 0, some 0, 0⟩⟩]
  obtain ⟨rfl, rfl⟩ := Prod.mk.inj (Except.ok.inj (hr'.symm.trans hr))
  have hd : device s' = ⟨⟨[[some 97, some 98, some newline]], []⟩, false, false⟩ := by rw [hdev]; decide +kernel
  have hring : ringCells s' = [[some 97, some 98, some newline]] := congrArg (fun d => d.log.entries) hd
  have hfree : s'.dev.lock = false := congrArg Device.lock hd
  have hempty : s'.dev.newEntry.size = 0 := by
    obtain ⟨rfl, rfl⟩ := Prod.mk.inj (Except.ok.inj (hr'.symm.trans rfl))
    rfl
  obtain ⟨hrun, hend⟩ := h hfree hempty [99] [[99, newline]] (by decide) ⟨rfl, by decide, by decide⟩
  obtain ⟨l, n, hrun, hfin, hchunks⟩ := hrun fun _ => by decide
  obtain ⟨hdata, -⟩ := hend l n hrun hfin hchunks
  obtain ⟨hring', -, -, hresp⟩ := hdata (by decide +kernel)
  obtain ⟨hrun2, hend2⟩ := h hfree hempty (seekCommand [48] [49]) [seekCommand [48] [49] ++ [newline]]
    (by decide +kernel) ⟨rfl, by decide +kernel, by decide +kernel⟩
  obtain ⟨l2, n2, hrun2, hfin2, hchunks2⟩ := hrun2 fun _ => by decide +kernel
  obtain ⟨-, hseek⟩ := hend2 l2 n2 hrun2 hfin2 hchunks2
  obtain ⟨hsame, -, -, hresp2⟩ := hseek [48] [49] ⟨nofun, by decide +kernel⟩ ⟨nofun, by decide +kernel⟩ rfl
    (by decide +kernel) (by decide +kernel) ⟨3, by rw [Sys.sizes, hring]; rfl, by decide⟩
  rw [hring] at hring' hsame hresp2
  rw [hring'] at hresp
  exact ⟨_, _, hr, ⟨l, n, hrun, hring', hresp⟩, l2, n2, hrun2, hsame, hresp2⟩

end Aesd
