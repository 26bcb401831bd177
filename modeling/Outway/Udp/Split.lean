import Outway.Udp.Coalesce

/-!
# Outway.Udp.Split

The split of a coalesced read.

`readGRO` leaves the first segment where it was read to and copies the others into buffers of
their own.  Two specifications meet in `readGRO_splits`: what the packets contain, which is
`wp_splitSegments`, and that no two of them share a buffer, which holds because the pool hands
out buffers that are not in use.
-/

namespace Outway.Udp

open Prog

variable {size : Nat}

/-! ## Segments -/

/-- The number of segments is the length over the segment size, rounded up. -/
theorem segmentCount_eq_ceil {n s : Nat} (hpos : 0 < s) : segmentCount n s = (n + s - 1) / s := by
  refine eq_of_forall_ge_iff fun k => ?_
  rw [segmentCount_le_iff hpos, Nat.div_le_iff_le_mul_add_pred hpos, Nat.mul_comm]
  omega

/-- Segment `i` is the part from `i * s` to `(i + 1) * s` or to the end. -/
theorem segmentAt_eq (data : List UInt8) (s i : Nat) :
    segmentAt data s i = (data.drop (i * s)).take (min ((i + 1) * s) data.length - i * s) := by
  rw [segmentAt, List.take_eq_take_iff, List.length_drop, Nat.succ_mul]
  omega

/-- The first segments, one after the other, are the front of the read. -/
theorem flatten_map_segmentAt (data : List UInt8) (s k : Nat) :
    ((List.range k).map (segmentAt data s)).flatten = data.take (k * s) := by
  induction k with
  | zero => simp
  | succ k ih =>
      rw [List.range_succ, List.map_append, List.flatten_append, ih, Nat.succ_mul, List.take_add]
      simp [segmentAt]

/-! ## The pool -/

/-- The pool hands out buffers that are not in use, and the socket answers a read. -/
def poolAct (answer : (len oobLen : Nat) → ReadMsg len oobLen) (inUse : Finset Nat) :
    (o : Op size) → Res o → Finset Nat → Prop
  | .getBuffer, buf, inUse' => buf.id ∉ inUse ∧ inUse' = insert buf.id inUse
  | .putBuffer buf, _, inUse' => inUse' = inUse.erase buf.id
  | .readMsgUDP _ into oobLen, res, inUse' =>
      res = .ok (answer into.len oobLen) ∧ inUse' = inUse
  | _, _, inUse' => inUse' = inUse

/-- The packets are in buffers that were not in use before, each in its own. -/
structure Fresh (before : Finset Nat) (packets : List (ReadPacket size)) (inUse : Finset Nat) :
    Prop where
  distinct : (packets.map fun p => p.buffer.id).Nodup
  taken : ∀ p ∈ packets, p.buffer.id ∈ inUse
  unused : ∀ p ∈ packets, p.buffer.id ∉ before
  kept : before ⊆ inUse

/-- The first packet is in `buffer`, as it was read to. -/
def StartsIn (buffer : Buffer size) (packets : List (ReadPacket size)) : Prop :=
  ∃ p rest, packets = p :: rest ∧ p.buffer = buffer

section Pool

variable {answer : (len oobLen : Nat) → ReadMsg len oobLen} {before inUse : Finset Nat}
  {r : BatchReader} {packets : List (ReadPacket size)}

theorem Fresh.nil : @Fresh size before [] before :=
  ⟨List.nodup_nil, by simp, by simp, subset_rfl⟩

/-- A packet in a buffer that the pool has just handed out. -/
theorem Fresh.concat (h : Fresh before packets inUse) {id : Nat} (hid : id ∉ inUse)
    {p : ReadPacket size} (hp : p.buffer.id = id) :
    Fresh before (packets ++ [p]) (insert id inUse) := by
  subst hp
  refine ⟨?_, ?_, ?_, h.kept.trans (Finset.subset_insert _ _)⟩
  · rw [List.map_append, List.nodup_append]
    refine ⟨h.distinct, List.nodup_singleton _, ?_⟩
    rintro _ hmem _ hlast rfl
    obtain ⟨q, hq, hsame⟩ := List.mem_map.mp hmem
    obtain rfl : _ = p.buffer.id := List.mem_singleton.mp hlast
    exact hid (hsame ▸ h.taken q hq)
  · intro q hq
    obtain hq | rfl : q ∈ packets ∨ q = p := by simpa using hq
    · exact Finset.mem_insert_of_mem (h.taken q hq)
    · exact Finset.mem_insert_self _ _
  · simpa [or_imp, forall_and] using ⟨h.unused, fun hmem => hid (h.kept hmem)⟩

/-- The contract under which only buffers are accounted for. -/
def poolContract (answer : (len oobLen : Nat) → ReadMsg len oobLen) :
    Contract (Op size) Res (Finset Nat) :=
  ⟨fun _ _ => True, poolAct answer, True⟩

/-- The next buffer of the pool. -/
theorem wp_getBuffer_pool {Q : Buffer size → Finset Nat → Prop}
    (h : ∀ buf : Buffer size, buf.id ∉ inUse → Q buf (insert buf.id inUse)) :
    getBuffer.wp (poolContract answer) inUse Q := by
  refine ⟨trivial, ?_⟩
  rintro buf _ ⟨hnew, rfl⟩
  exact h buf hnew

theorem wp_count_pool {counter : Counter} {delta : Int} {Q : Unit → Finset Nat → Prop}
    (h : Q () inUse) : (count counter delta : Relay size Unit).wp
      (poolContract answer) inUse Q := by
  refine ⟨trivial, ?_⟩
  rintro _ _ rfl
  exact h

/-- A segment goes into a buffer that nobody uses. -/
theorem fresh_copySegment {first : Buffer size} (h : Fresh before packets inUse)
    (hfirst : StartsIn first packets) (buffer : Buffer size) (src : AddrPort) (n s i : Nat) :
    (copySegment r buffer src n s packets i).wp (poolContract answer) inUse fun packets inUse =>
      Fresh before packets inUse ∧ StartsIn first packets := by
  obtain ⟨p, rest, rfl, hp⟩ := hfirst
  refine wp_bind.mpr (wp_getBuffer_pool fun copied hnew => ?_)
  refine wp_bind.mpr (wp_slice_of_fault trivial ?_)
  refine wp_bind.mpr (wp_slice_of_fault trivial ?_)
  exact wp_push_of_fault trivial ⟨h.concat hnew rfl, p, _, rfl, hp⟩

/-- And so do all segments of a message. -/
theorem fresh_splitSegments {buffer : Buffer size} (hbuffer : buffer.id ∉ before) (src : AddrPort)
    (n s : Nat) :
    (splitSegments r buffer src n s).wp (poolContract answer) (insert buffer.id before)
      fun packets inUse => Fresh before packets inUse ∧ StartsIn buffer packets := by
  simp only [splitSegments]
  refine wp_seq (R := fun _ inUse => inUse = insert buffer.id before) ?_ ?_
  · unfold onlyIf
    split_ifs
    · exact wp_count_pool rfl
    · rfl
  · rintro _ _ rfl
    refine wp_bind.mpr (wp_count_pool (wp_bind.mpr (wp_push_of_fault trivial ?_)))
    exact wp_foldlM (fun _ packets inUse => Fresh before packets inUse ∧ StartsIn buffer packets)
      (fun i _ _ _ h => fresh_copySegment h.1 h.2 _ _ _ _ i)
      ⟨Fresh.nil.concat hbuffer rfl, _, [], rfl, rfl⟩

/-- And so the packets of a read. -/
theorem fresh_groPackets (buffer : Buffer size) (hbuffer : buffer.id ∉ before) {len : Nat}
    (msg : ReadMsg len groOOBLen) :
    (groPackets r buffer msg).wp (poolContract answer) (insert buffer.id before)
      fun packets inUse => Fresh before packets inUse ∧ StartsIn buffer packets := by
  have hone (n : Nat) (truncated : Bool) :
      Fresh before [⟨buffer, n, msg.addr, truncated, false⟩] (insert buffer.id before) ∧
        StartsIn buffer [⟨buffer, n, msg.addr, truncated, false⟩] :=
    ⟨Fresh.nil.concat hbuffer rfl, _, [], rfl, rfl⟩
  simp only [groPackets]
  split_ifs
  · exact wp_push_of_fault trivial (hone _ _)
  · exact wp_bind.mpr (wp_checkLen_of_fault trivial (wp_push_of_fault trivial (hone _ _)))
  · exact wp_bind.mpr (wp_checkLen_of_fault trivial (fresh_splitSegments hbuffer _ _ _))

/-- The buffers of the packets, and the one that was read to. -/
theorem fresh_readGRO :
    (readGRO r).wp (poolContract answer) before fun (res : Except NetError (List (ReadPacket size)))
      inUse => ∀ packets, res = .ok packets → Fresh before packets inUse ∧ ∃ buffer : Buffer size,
        StartsIn (buffer.overwrite r.offset (answer (size - r.offset) groOOBLen).data) packets := by
  refine wp_bind.mpr (wp_getBuffer_pool fun buffer hbuffer => ?_)
  refine wp_bind.mpr (wp_window_of_fault trivial ?_)
  simp only [perform_eq, step_bind, ret_bind, wp_step]
  refine ⟨trivial, ?_⟩
  rintro _ _ ⟨rfl, rfl⟩
  refine wp_seq (fresh_groPackets (buffer.overwrite _ _) hbuffer _) ?_
  rintro packets inUse ⟨hfresh, hstart⟩ _ ⟨⟩
  exact ⟨hfresh, buffer, hstart⟩

/-! ## The contents -/

theorem keepsLocal_pool : @KeepsLocal size _ (Contract.live (poolAct answer)) fun _ => True := by
  intro inUse o _ ho
  refine ⟨?_, fun _ _ _ => trivial⟩
  cases o with
  | getBuffer =>
      obtain ⟨id, hid⟩ := Infinite.exists_notMem_finset inUse
      exact ⟨⟨id, List.replicate size 0, List.length_replicate⟩, _, hid, rfl⟩
  | putBuffer _ => exact ⟨(), _, rfl⟩
  | _ => first | exact ⟨(nonempty_res _).some, inUse, rfl⟩ | cases ho

/-- `readGRO` on a read that is to be split. -/
theorem wp_readGRO_split (before : Finset Nat) {s : Nat} {msg : ReadMsg (size - r.offset) groOOBLen}
    (hanswer : answer (size - r.offset) groOOBLen = msg) (htrunc : msg.msgTrunc = false)
    (hsize : parseGROSize msg = s) (hpos : 0 < s) (hlimit : s ≤ r.limit)
    (hlong : s < msg.data.length) :
    (readGRO r : Relay size _).wp (Contract.live (poolAct answer)) before fun res _ =>
      ∃ packets, res = .ok packets ∧ List.Forall₂ (fun p i => p.Carries r.offset
        (segmentAt msg.data s i) msg.addr) packets
          (List.range (min (segmentCount msg.data.length s) groMaxSegments)) := by
  have hlen := msg.length_data
  have hsplit : ¬ (s = 0 ∨ r.limit < s ∨ msg.data.length ≤ s) := by omega
  refine wp_seq (keepsLocal_pool.wp_perform trivial (o := .getBuffer) trivial) fun buffer _ _ => ?_
  refine wp_bind.mpr (wp_window_of_le (by omega) le_rfl ?_)
  simp only [perform_eq, step_bind, ret_bind, wp_step]
  refine ⟨⟨_, _, rfl, rfl⟩, ?_⟩
  rintro _ _ ⟨rfl, rfl⟩
  have hroom : r.offset + msg.data.length ≤ size := by omega
  have hdata : ((buffer.overwrite r.offset msg.data).bytes.drop r.offset).take msg.data.length =
      msg.data := take_drop_overwrite (hroom.trans_eq buffer.length_bytes.symm)
  simp only [hanswer, groPackets, htrunc, hsize, if_neg hsplit, Bool.false_eq_true, if_false]
  refine wp_bind.mpr (wp_bind.mpr (wp_checkLen_of_le msg.oobn_le ?_))
  refine wp_mono (wp_splitSegments keepsLocal_pool trivial hroom hdata hpos hlong) ?_
  exact fun packets _ h => ⟨packets, rfl, h.2⟩

end Pool

/-! ## The theorem -/

/-- Write the buffers of the packets to a memory, one after the other. -/
def store (packets : List (ReadPacket size)) (mem : Nat → List UInt8) : Nat → List UInt8 :=
  packets.foldl (fun mem p => Function.update mem p.buffer.id p.buffer.bytes) mem

/-- The packets do not write into other buffers. -/
theorem store_of_notMem {packets : List (ReadPacket size)} {mem : Nat → List UInt8} {id : Nat}
    (h : id ∉ packets.map fun p => p.buffer.id) : store packets mem id = mem id := by
  induction packets generalizing mem with
  | nil => rfl
  | cons p rest ih =>
      rw [List.map_cons, List.mem_cons, not_or] at h
      exact (ih h.2).trans (Function.update_of_ne h.1 _ _)

/-- Buffers that are not shared keep their contents. -/
theorem store_of_nodup {packets : List (ReadPacket size)} (mem : Nat → List UInt8)
    (h : (packets.map fun p => p.buffer.id).Nodup) :
    ∀ p ∈ packets, store packets mem p.buffer.id = p.buffer.bytes := by
  induction packets generalizing mem with
  | nil => simp
  | cons p rest ih =>
      obtain ⟨hp, hrest⟩ := List.nodup_cons.mp h
      rintro q (_ | ⟨_, hq⟩)
      · exact (store_of_notMem hp).trans (Function.update_self _ _ _)
      · exact ih _ hrest q hq

/-- The packets of a read that was split exactly. -/
structure SplitsInto (offset s : Nat) (data : List UInt8) (packets : List (ReadPacket size)) :
    Prop where
  length : packets.length = (data.length + s - 1) / s
  distinct : (packets.map fun p => p.buffer.id).Nodup
  segment : ∀ i (h : i < packets.length), packets[i].payload offset =
    (data.drop (i * s)).take (min ((i + 1) * s) data.length - i * s)
  nonempty : ∀ p ∈ packets, p.payload offset ≠ []
  flatten : (packets.map (ReadPacket.payload offset)).flatten = data
  /-- in the memory of the buffers, the first still holds the whole read -/
  first : ∀ mem, ∃ p ∈ packets.head?,
    ((store packets mem p.buffer.id).drop offset).take data.length = data

/-- Packets that carry the segments are the split of the message. -/
theorem splitsInto_of_carries {offset s : Nat} {data : List UInt8} {src : AddrPort}
    {packets : List (ReadPacket size)} (hpos : 0 < s)
    (hcarries : List.Forall₂ (fun p i => p.Carries offset (segmentAt data s i) src) packets
      (List.range (segmentCount data.length s)))
    (hdistinct : (packets.map fun p => p.buffer.id).Nodup)
    (hfirst : ∃ p ∈ packets.head?, (p.buffer.bytes.drop offset).take data.length = data) :
    SplitsInto offset s data packets := by
  have hlength : packets.length = segmentCount data.length s := by
    simpa using hcarries.length_eq
  have hsegment (i : Nat) (h : i < packets.length) :
      packets[i].payload offset = segmentAt data s i := by
    have hp := hcarries.get (i := i) h (by simpa [hlength] using h)
    simpa using hp.payload
  have hmap : packets.map (ReadPacket.payload offset) =
      (List.range (segmentCount data.length s)).map (segmentAt data s) := by
    apply List.ext_getElem
    · simp [hlength]
    · intro i hi hi'
      simpa using hsegment i (by simpa using hi)
  refine ⟨hlength.trans (segmentCount_eq_ceil hpos), hdistinct, ?_, ?_, ?_, ?_⟩
  · intro i h
    rw [hsegment i h, segmentAt_eq]
  · intro p hp hnil
    obtain ⟨i, hi, rfl⟩ := List.mem_iff_getElem.mp hp
    rw [hsegment i hi, segmentAt, List.take_eq_nil_iff, List.drop_eq_nil_iff] at hnil
    have hlt := mul_lt_of_lt_segmentCount hpos (hlength ▸ hi)
    omega
  · rw [hmap, flatten_map_segmentAt, List.take_of_length_le ((segmentCount_le_iff hpos).mp le_rfl)]
  · intro mem
    obtain ⟨p, hp, hdata⟩ := hfirst
    exact ⟨p, hp, by rw [store_of_nodup mem hdistinct p (List.mem_of_mem_head? hp), hdata]⟩

/-- **The split of a coalesced read**: a read that is whole, whose segment size is within the
limit and that has at most 64 segments is cut into these segments, each in a buffer of its
own that nobody used. -/
theorem readGRO_splits (size : Nat) (r : BatchReader)
    (answer : (len oobLen : Nat) → ReadMsg len oobLen) (before : Finset Nat) {s : Nat}
    {msg : ReadMsg (size - r.offset) groOOBLen}
    (hanswer : answer (size - r.offset) groOOBLen = msg) (htrunc : msg.msgTrunc = false)
    (hsize : parseGROSize msg = s) (hpos : 0 < s) (hlimit : s ≤ r.limit)
    (hlong : s < msg.data.length) (hcount : (msg.data.length + s - 1) / s ≤ 64) :
    (∃ inUse res, Exec (poolAct answer) before (readGRO r : Relay size _) inUse res) ∧
      ∀ inUse res, Exec (poolAct answer) before (readGRO r : Relay size _) inUse res →
        ∃ packets, res = .ok packets ∧ SplitsInto r.offset s msg.data packets ∧
          ∀ p ∈ packets, p.addr = msg.addr ∧ p.truncated = false ∧ p.buffer.id ∉ before := by
  have hwp := wp_readGRO_split before hanswer htrunc hsize hpos hlimit hlong
  constructor
  · obtain ⟨inUse, res, hexec, -⟩ := exists_exec hwp
    exact ⟨inUse, res, hexec⟩
  · intro inUse res hexec
    obtain ⟨packets, rfl, hcarries⟩ := wp_exec hwp hexec
    obtain ⟨hfresh, buffer, hstart⟩ :=
      wp_exec (C := poolContract answer) fresh_readGRO hexec packets rfl
    have hroom : r.offset + msg.data.length ≤ size := by
      have := msg.length_data
      omega
    rw [min_eq_left (by rwa [segmentCount_eq_ceil hpos])] at hcarries
    refine ⟨packets, rfl, splitsInto_of_carries hpos hcarries hfresh.distinct ?_, ?_⟩
    · obtain ⟨p, rest, rfl, hp⟩ := hstart
      refine ⟨p, rfl, ?_⟩
      rw [hp, hanswer]
      exact take_drop_overwrite (hroom.trans_eq buffer.length_bytes.symm)
    · intro p hp
      obtain ⟨i, hi, rfl⟩ := List.mem_iff_getElem.mp hp
      have hcarry := hcarries.get (i := i) hi (hcarries.length_eq ▸ hi)
      exact ⟨hcarry.addr, hcarry.truncated, hfresh.unused _ hp⟩

/-- Two datagrams of two bytes in one read. -/
theorem readGRO_splits_pairOf :
    ∃ packets : List (ReadPacket 4), SplitsInto 0 2 [0, 0, 0, 0] packets := by
  obtain ⟨⟨inUse, res, hexec⟩, hall⟩ := readGRO_splits 4 ⟨.inbound, 0, 2, true⟩
    (pairOf 2 (by decide)).readMsg ∅ rfl rfl (parseGROSize_readMsg _ _) (by decide) (by decide)
    (by decide) (by decide)
  obtain ⟨packets, -, hsplits, -⟩ := hall inUse res hexec
  exact ⟨packets, hsplits⟩

end Outway.Udp
