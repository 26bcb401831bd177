import Outway.Udp.Bounds
import Outway.Udp.Queue

/-!
# Outway.Udp.Coalesce

Reading a queue of datagrams with coalescing on and off.

With `UDP_GRO` the kernel may hand out consecutive datagrams of one source as one
read (`Group`).  `ReadsAll` is the whole sequence of packets a reader makes of a
queue, whatever the kernel drains at a time and whatever the batch budget
allows.  `gro_transparent_iff` compares the two readers: the sequences agree
exactly when every group survives the size of the pooled buffer and the limit on
a segment.
-/

namespace Outway.Udp

open Prog

variable {size : Nat}

/-! ## The queue of a socket -/

/-- Consecutive datagrams of one source that the kernel hands out as one read: all of
one size except a possibly shorter last, at most 64 of them and at most 65535
bytes.  `full` is empty for a datagram on its own. -/
structure Group where
  src : AddrPort
  segmentSize : Nat
  full : List (List UInt8)
  last : List UInt8
  length_full : ∀ d ∈ full, d.length = segmentSize
  length_last : last.length ≤ segmentSize
  count_le : full.length + 1 ≤ 64
  length_le : full.length * segmentSize + last.length ≤ 65535

/-- The payloads of the group. -/
def Group.payloads (g : Group) : List (List UInt8) := g.full ++ [g.last]

def Group.datagrams (g : Group) : List Datagram := g.payloads.map (⟨·, g.src⟩)

/-- The bytes of the one read. -/
def Group.bytes (g : Group) : List UInt8 := g.payloads.flatten

/-- A 32-bit control message value in memory. -/
def uint32Bytes (n : Nat) : List UInt8 :=
  [UInt8.ofNat n, UInt8.ofNat (n / 256), UInt8.ofNat (n / 65536), UInt8.ofNat (n / 16777216)]

/-- The answer to a read of the group: cut and flagged when it is longer than the slice,
with the segment size when it was coalesced. -/
def Group.readMsg (g : Group) (len oobLen : Nat) : ReadMsg len oobLen where
  data := g.bytes.take len
  oobn := if g.full = [] then 0 else min 24 oobLen
  control := .ok [⟨ipprotoUDP, udpGRO, uint32Bytes g.segmentSize⟩]
  msgTrunc := len < g.bytes.length
  addr := g.src
  length_data := List.length_take_le _ _
  oobn_le := by split_ifs <;> omega

/-- A socket with `UDP_GRO` on. -/
def Group.act (q : List Group) : (o : Op size) → Res o → List Group → Prop
  | .readMsgUDP _ into oobLen, r, q' => ∃ g, q = g :: q' ∧ r = .ok (g.readMsg into.len oobLen)
  | _, _, q' => q' = q

/-- Reading a queue to its end produces these packets, without those marked truncated. -/
abbrev ReadsAll {β : Type} (size : Nat) (act : List β → (o : Op size) → Res o → List β → Prop)
    (rt : Runtime) (r : BatchReader) :
    List β → Bool → List (List UInt8 × AddrPort) → Prop :=
  Reads act (relayed r.offset) (r.read rt)

/-! ## With coalescing off -/

/-- What becomes of a datagram: it is relayed unless it is longer than the limit. -/
def Datagram.output (limit : Nat) (d : Datagram) : List (List UInt8 × AddrPort) :=
  if limit < d.data.length then [] else [(d.data, d.src)]

/-- What is relayed of a packet. -/
def PacketView.output (v : PacketView) : List (List UInt8 × AddrPort) :=
  if v.truncated then [] else [(v.payload, v.addr)]

/-- What is relayed, packet by packet. -/
theorem relayed_eq_flatMap_view (offset : Nat) (packets : List (ReadPacket size)) :
    relayed offset packets = (packets.map (ReadPacket.view offset)).flatMap PacketView.output := by
  rw [List.flatMap_map]
  rfl

/-- A datagram of its own is relayed as it came. -/
theorem Datagram.output_view (limit : Nat) (d : Datagram) :
    (d.view limit).output = d.output limit := by
  simp only [PacketView.output, Datagram.view, Datagram.output, decide_eq_true_iff]
  split_ifs with hlong
  · rfl
  · rw [List.take_of_length_le (by omega)]

/-- With coalescing off, every datagram within the limit is relayed. -/
theorem readsFront_datagrams (rt : Runtime) {r : BatchReader} (hroom : r.Fits size)
    (hgro : r.gro = false) :
    ReadsFront Datagram.act (relayed r.offset) (Datagram.output r.limit)
      (r.read rt : QueueReader size Bool) := by
  have hbatch := (readsFront_readBatch rt hroom).flatMap PacketView.output
  have hread : (r.read rt : QueueReader size Bool) = readBatch rt r := by
    funext batchDisabled
    simp [BatchReader.read, hgro]
  have hout : (fun packets : List (ReadPacket size) =>
      (packets.map (ReadPacket.view r.offset)).flatMap PacketView.output) = relayed r.offset :=
    funext fun packets => (relayed_eq_flatMap_view r.offset packets).symm
  have hview : (fun d : Datagram => [d.view r.limit].flatMap PacketView.output) =
      Datagram.output r.limit :=
    funext fun d => (List.flatMap_singleton _ _).trans (d.output_view r.limit)
  rw [hread, ← hout, ← hview]
  exact hbatch

/-! ## With coalescing on -/

theorem nativeUint_uint32Bytes {n : Nat} (h : n < 2 ^ 32) :
    nativeUint ((uint32Bytes n).take 4) = n := by
  simp [nativeUint, uint32Bytes]
  omega

/-- The bytes of a group are those of its segments. -/
theorem Group.length_bytes (g : Group) :
    g.bytes.length = g.full.length * g.segmentSize + g.last.length := by
  have hfull : g.full.map List.length = List.replicate g.full.length g.segmentSize :=
    List.eq_replicate_iff.mpr ⟨by simp, by simpa using g.length_full⟩
  simp [Group.bytes, Group.payloads, List.length_flatten, hfull]

theorem Group.segmentSize_le {g : Group} (h : g.full ≠ []) : g.segmentSize ≤ g.bytes.length := by
  have hpos := List.length_pos_iff.mpr h
  have hle := Nat.le_mul_of_pos_left g.segmentSize hpos
  rw [g.length_bytes]
  omega

/-- The segment size that `parseGROSize` finds. -/
def Group.reportedSize (g : Group) : Nat := if g.full = [] then 0 else g.segmentSize

/-- The segment size is read from the control message. -/
theorem parseGROSize_readMsg (g : Group) (len : Nat) :
    parseGROSize (g.readMsg len groOOBLen) = g.reportedSize := by
  by_cases h : g.full = []
  · simp [parseGROSize, Group.readMsg, Group.reportedSize, h]
  · have hsize : g.segmentSize < 2 ^ 32 := by
      have hle := Group.segmentSize_le h
      have hmax := g.length_le
      rw [g.length_bytes] at hle
      omega
    have hnative := nativeUint_uint32Bytes hsize
    simp [parseGROSize, Group.readMsg, Group.reportedSize, h, groOOBLen, groSizeOf, hnative]
    simp [uint32Bytes]

/-- What becomes of a group that is read to a slice of `cap` bytes. -/
def Group.output (limit cap : Nat) (g : Group) : List (List UInt8 × AddrPort) :=
  (groPayloads limit (decide (cap < g.bytes.length)) (g.bytes.take cap) g.reportedSize).map
    fun data => (data, g.src)

/-- Only reads take from the queue. -/
theorem Group.keepsLocal (q : List Group) :
    @KeepsLocal size _ (Contract.live Group.act) (· = q) := by
  intro q' o hq ho
  cases o <;>
    first | exact ⟨⟨(nonempty_res _).some, q', rfl⟩, fun _ _ h => Eq.trans h hq⟩ | cases ho

/-- With coalescing on, a read relays the payloads of one group. -/
theorem readsFront_groups (rt : Runtime) {r : BatchReader} (hroom : r.Fits size)
    (hgro : r.gro = true) :
    ReadsFront Group.act (relayed r.offset) (Group.output r.limit (size - r.offset))
      (r.read rt : QueueReader size Bool) := by
  intro batchDisabled g q
  have hfit : r.offset + r.limit < size := hroom
  simp only [BatchReader.read, hgro, if_true, readGRO, bind_assoc]
  refine wp_seq ((Group.keepsLocal (g :: q)).wp_perform rfl (o := .getBuffer) trivial) ?_
  rintro buffer _ rfl
  refine wp_bind.mpr (wp_window_of_le (by omega) le_rfl ?_)
  simp only [perform_eq, step_bind, ret_bind, wp_step]
  refine ⟨⟨_, q, g, rfl, rfl⟩, ?_⟩
  rintro _ q' ⟨g', hq, rfl⟩
  obtain ⟨rfl, rfl⟩ : g = g' ∧ q = q' := by simpa using hq
  simp only [bind_assoc]
  refine wp_seq (wp_groPackets (Group.keepsLocal q) rfl ?_) ?_
  · omega
  · rintro packets _ ⟨rfl, -, -, hrelayed⟩
    rw [parseGROSize_readMsg] at hrelayed
    exact ⟨packets, 0, Nat.zero_le _, rfl, rfl, hrelayed.trans (List.flatMap_singleton _ _).symm⟩

/-! ## Comparison -/

/-- A group that coalescing does not change: a single datagram, one whose every
datagram is over the limit, or one whose segments are within the limit, with a last
one that is not empty, and that fits the slice it is read to. -/
def Group.Kept (limit cap : Nat) (g : Group) : Prop :=
  g.full = [] ∨ limit < g.last.length ∨
    (0 < g.last.length ∧ g.segmentSize ≤ limit ∧ g.bytes.length ≤ cap)

/-- The segments at the multiples of the segment size are the payloads. -/
theorem map_segmentAt_payloads {segmentSize : Nat} {full : List (List UInt8)} {last : List UInt8}
    (hfull : ∀ d ∈ full, d.length = segmentSize) (hlast : last.length ≤ segmentSize) :
    (List.range (full.length + 1)).map (segmentAt (full ++ [last]).flatten segmentSize) =
      full ++ [last] := by
  induction full with
  | nil => simp [segmentAt, List.take_of_length_le hlast]
  | cons d full ih =>
      have hd : d.length = segmentSize := hfull d List.mem_cons_self
      have hrest := ih fun d' hd' => hfull d' (List.mem_cons_of_mem d hd')
      have hzero : segmentAt (d ++ (full ++ [last]).flatten) segmentSize 0 = d := by
        simp [segmentAt, ← hd]
      have hsucc (i : Nat) : segmentAt (d ++ (full ++ [last]).flatten) segmentSize (i + 1) =
          segmentAt (full ++ [last]).flatten segmentSize i := by
        rw [segmentAt, segmentAt, Nat.succ_mul, Nat.add_comm, ← List.drop_drop,
          List.drop_left' hd]
      rw [List.length_cons, List.range_succ_eq_map, List.cons_append, List.flatten_cons,
        List.map_cons, List.map_map, hzero]
      exact congrArg (d :: ·) ((List.map_congr_left fun i _ => hsucc i).trans hrest)

/-- A last segment that is shorter is one more. -/
theorem segmentCount_eq {k segmentSize t : Nat} (hpos : 0 < t) (hle : t ≤ segmentSize) :
    segmentCount (k * segmentSize + t) segmentSize = k + 1 := by
  refine eq_of_forall_ge_iff fun j => ?_
  rw [segmentCount_le_iff (hpos.trans_le hle)]
  constructor
  · intro h
    have hlt : k * segmentSize < j * segmentSize := by omega
    exact Nat.lt_of_mul_lt_mul_right hlt
  · intro h
    have hmul := Nat.mul_le_mul_right segmentSize h
    rw [Nat.succ_mul] at hmul
    omega

theorem segmentCount_mul {k segmentSize : Nat} (hpos : 0 < segmentSize) :
    segmentCount (k * segmentSize) segmentSize = k := by
  refine eq_of_forall_ge_iff fun j => ?_
  rw [segmentCount_le_iff hpos, Nat.mul_le_mul_right_iff hpos]

/-- Every datagram of a group within the limit is relayed on its own. -/
theorem Group.flatMap_output_of_le {g : Group} {limit : Nat} (h : g.segmentSize ≤ limit) :
    g.datagrams.flatMap (Datagram.output limit) = g.payloads.map fun data => (data, g.src) := by
  have hle : ∀ d ∈ g.payloads, ¬ limit < d.length := by
    intro d hd
    have hlast := g.length_last
    obtain hd | rfl : d ∈ g.full ∨ d = g.last := by simpa [Group.payloads] using hd
    · rw [g.length_full d hd]
      omega
    · omega
  rw [Group.datagrams, List.flatMap_map, List.map_eq_flatMap]
  exact List.flatMap_congr fun d hd => by simp [Datagram.output, hle d hd]

/-- A datagram over the limit is not relayed. -/
theorem Group.flatMap_output_of_lt {g : Group} {limit : Nat} (h : limit < g.last.length) :
    g.datagrams.flatMap (Datagram.output limit) = [] := by
  have hlong : ∀ d ∈ g.payloads, limit < d.length := by
    intro d hd
    have hlast := g.length_last
    obtain hd | rfl : d ∈ g.full ∨ d = g.last := by simpa [Group.payloads] using hd
    · rw [g.length_full d hd]
      omega
    · exact h
  rw [Group.datagrams, List.flatMap_map, List.flatMap_eq_nil_iff]
  exact fun d hd => by simp [Datagram.output, hlong d hd]

/-- A group that is cut, or whose segments are over the limit, is dropped as a whole. -/
theorem Group.output_eq_nil {g : Group} {limit cap : Nat}
    (h : cap < g.bytes.length ∨ (g.full ≠ [] ∧ limit < g.segmentSize)) :
    g.output limit cap = [] := by
  by_cases hcut : cap < g.bytes.length
  · simp [Group.output, groPayloads, hcut]
  · obtain ⟨hfull, hlimit⟩ := h.resolve_left hcut
    have hbytes : g.bytes.take cap = g.bytes := List.take_of_length_le (by omega)
    have hlong : limit < g.bytes.length := hlimit.trans_le (Group.segmentSize_le hfull)
    simp [Group.output, groPayloads, hcut, hbytes, Group.reportedSize, hfull, hlimit, hlong]

/-- A coalesced group within the limits is split into its payloads. -/
theorem Group.output_eq_payloads {g : Group} {limit cap : Nat} (hfull : g.full ≠ [])
    (hlast : 0 < g.last.length) (hlimit : g.segmentSize ≤ limit) (hcap : g.bytes.length ≤ cap) :
    g.output limit cap = g.payloads.map fun data => (data, g.src) := by
  have hlen := g.length_bytes
  have hle := g.length_last
  have hsize := Nat.le_mul_of_pos_left g.segmentSize (List.length_pos_iff.mpr hfull)
  have hcount : segmentCount g.bytes.length g.segmentSize = g.full.length + 1 := by
    rw [hlen, segmentCount_eq hlast hle]
  have hsplit : ¬ (g.segmentSize = 0 ∨ limit < g.segmentSize ∨ g.bytes.length ≤ g.segmentSize) := by
    omega
  have hmax : min (g.full.length + 1) groMaxSegments = g.full.length + 1 :=
    min_eq_left g.count_le
  have hbytes : g.bytes.take cap = g.bytes := List.take_of_length_le hcap
  have hsegments := map_segmentAt_payloads g.length_full g.length_last
  rw [Group.output, groPayloads, if_neg (by simpa using hcap), hbytes, Group.reportedSize,
    if_neg hfull, if_neg hsplit, hcount, hmax]
  exact congrArg (List.map fun data => (data, g.src)) hsegments

/-- A datagram on its own is cut only when it is over the limit anyway. -/
theorem Group.output_of_single {g : Group} {limit cap : Nat} (hcap : limit < cap)
    (hfull : g.full = []) :
    g.output limit cap = g.datagrams.flatMap (Datagram.output limit) := by
  have hbytes : g.bytes = g.last := by simp [Group.bytes, Group.payloads, hfull]
  have hdatagrams : g.datagrams.flatMap (Datagram.output limit) =
      Datagram.output limit ⟨g.last, g.src⟩ := by
    simp [Group.datagrams, Group.payloads, hfull]
  by_cases hcut : cap < g.last.length
  · rw [Group.flatMap_output_of_lt (hcap.trans hcut), Group.output_eq_nil (.inl (hbytes ▸ hcut))]
  · have htake : g.last.take cap = g.last := List.take_of_length_le (Nat.le_of_not_lt hcut)
    rw [hdatagrams, Group.output, hbytes, htake]
    by_cases hlong : limit < g.last.length <;>
      simp [groPayloads, Group.reportedSize, hfull, hcut, hlong, Datagram.output]

/-- A group that fits is relayed as its datagrams are. -/
theorem Group.output_of_kept {g : Group} {limit cap : Nat} (hcap : limit < cap)
    (h : g.Kept limit cap) : g.output limit cap = g.datagrams.flatMap (Datagram.output limit) := by
  by_cases hfull : g.full = []
  · exact Group.output_of_single hcap hfull
  · obtain hover | ⟨hlast, hlimit, hfits⟩ := h.resolve_left hfull
    · rw [Group.flatMap_output_of_lt hover,
        Group.output_eq_nil (.inr ⟨hfull, hover.trans_le g.length_last⟩)]
    · rw [Group.flatMap_output_of_le hlimit, Group.output_eq_payloads hfull hlast hlimit hfits]

/-- With an empty last datagram a group gives at most as many packets as it has full
segments. -/
theorem Group.output_length_le {g : Group} {limit cap : Nat} (hfull : g.full ≠ [])
    (hlast : g.last.length = 0) (hcap : g.bytes.length ≤ cap) :
    (g.output limit cap).length ≤ g.full.length := by
  have hpos := List.length_pos_iff.mpr hfull
  have hlen : g.bytes.length = g.full.length * g.segmentSize := by
    rw [g.length_bytes, hlast, Nat.add_zero]
  have hbytes : g.bytes.take cap = g.bytes := List.take_of_length_le hcap
  rw [Group.output, List.length_map, groPayloads, if_neg (by simpa using hcap), hbytes,
    Group.reportedSize, if_neg hfull]
  split_ifs with hsingle hlong
  · exact Nat.zero_le _
  · exact hpos
  · rw [List.length_map, List.length_range, hlen, segmentCount_mul (by omega)]
    exact min_le_left _ _

/-- One that does not loses a datagram. -/
theorem Group.output_length_lt {g : Group} {limit cap : Nat} (h : ¬ g.Kept limit cap) :
    (g.output limit cap).length < (g.datagrams.flatMap (Datagram.output limit)).length := by
  simp only [Group.Kept, not_or, not_and, Nat.not_lt, Nat.not_le] at h
  obtain ⟨hfull, hlast, hrest⟩ := h
  by_cases hdropped : cap < g.bytes.length ∨ limit < g.segmentSize
  · have hnil : g.output limit cap = [] :=
      Group.output_eq_nil (hdropped.imp_right fun h => ⟨hfull, h⟩)
    have hkept : Datagram.output limit ⟨g.last, g.src⟩ = [(g.last, g.src)] := by
      simp [Datagram.output, hlast]
    simp [hnil, Group.datagrams, Group.payloads, hkept]
  · obtain ⟨hcap, hlimit⟩ := not_or.mp hdropped
    have hempty : g.last.length = 0 := by
      by_contra hne
      exact hcap (hrest (by omega) (by omega))
    have hle : (g.output limit cap).length ≤ g.full.length :=
      Group.output_length_le hfull hempty (Nat.le_of_not_lt hcap)
    rw [Group.flatMap_output_of_le (by omega), List.length_map, Group.payloads, List.length_append,
      List.length_singleton]
    omega

/-- Whole queues agree exactly when every group is kept. -/
theorem flatMap_output_eq_iff {limit cap : Nat} (hcap : limit < cap) (groups : List Group) :
    groups.flatMap (Group.output limit cap) =
        (groups.flatMap Group.datagrams).flatMap (Datagram.output limit) ↔
      ∀ g ∈ groups, g.Kept limit cap := by
  have hlen (groups : List Group) : (groups.flatMap (Group.output limit cap)).length ≤
      ((groups.flatMap Group.datagrams).flatMap (Datagram.output limit)).length := by
    induction groups with
    | nil => rfl
    | cons g groups ih =>
        have hg : (g.output limit cap).length ≤
            (g.datagrams.flatMap (Datagram.output limit)).length := by
          by_cases hkept : g.Kept limit cap
          · exact (congrArg List.length (Group.output_of_kept hcap hkept)).le
          · exact (Group.output_length_lt hkept).le
        simp only [List.flatMap_cons, List.flatMap_append, List.length_append]
        omega
  induction groups with
  | nil => simp
  | cons g groups ih =>
      rw [List.flatMap_cons, List.flatMap_cons, List.flatMap_append, List.forall_mem_cons]
      by_cases hkept : g.Kept limit cap
      · rw [Group.output_of_kept hcap hkept, List.append_cancel_left_eq]
        exact ih.trans ⟨fun h => ⟨hkept, h⟩, And.right⟩
      · have hlt := Group.output_length_lt hkept
        have hrest := hlen groups
        refine iff_of_false (fun heq => ?_) (fun h => hkept h.1)
        have := congrArg List.length heq
        simp only [List.length_append] at this
        omega

/-! ## The theorem -/

/-- The reader of a relay socket. -/
def Association.reader (a : Association) (rt : Runtime) : Sock → BatchReader
  | .inbound => a.inboundReader rt
  | sock => (newUDPResponder rt a sock).reader

/-- The buffers have room for the reader's offset and limit. -/
theorem Association.reader_fits (a : Association) (rt : Runtime) (sock : Sock) :
    (a.reader rt sock).Fits rt.bufferSize := by
  cases sock with
  | inbound => exact inboundReader_fits rt a
  | preferred => exact responder_fits rt a .preferred
  | fallback => exact responder_fits rt a .fallback

/-- Both readers read the queue to its end, and produce the same packets. -/
def GroTransparent (rt : Runtime) (r : BatchReader) (groups : List Group) : Prop :=
  (∃ out, ReadsAll rt.bufferSize Group.act rt { r with gro := true } groups false out) ∧
    (∃ out, ReadsAll rt.bufferSize Datagram.act rt { r with gro := false }
      (groups.flatMap Group.datagrams) false out) ∧
    ∀ on off,
      ReadsAll rt.bufferSize Group.act rt { r with gro := true } groups false on →
      ReadsAll rt.bufferSize Datagram.act rt { r with gro := false }
        (groups.flatMap Group.datagrams) false off → on = off

/-- Coalescing is not seen exactly when every group fits. -/
theorem groTransparent_iff_kept {rt : Runtime} {r : BatchReader} (hroom : r.Fits rt.bufferSize)
    (groups : List Group) : GroTransparent rt r groups ↔
      ∀ g ∈ groups, g.Kept r.limit (rt.bufferSize - r.offset) := by
  have hcap : r.limit < rt.bufferSize - r.offset := by
    unfold BatchReader.Fits at hroom
    omega
  have hon : BatchReader.Fits { r with gro := true } rt.bufferSize := hroom
  have hoff : BatchReader.Fits { r with gro := false } rt.bufferSize := hroom
  have hgroups := readsFront_groups rt hon rfl
  have hdatagrams := readsFront_datagrams rt hoff rfl
  obtain ⟨on, hreadOn⟩ := exists_reads hgroups groups false
  obtain ⟨off, hreadOff⟩ := exists_reads hdatagrams (groups.flatMap Group.datagrams) false
  rw [← flatMap_output_eq_iff hcap groups]
  constructor
  · intro ⟨_, _, hall⟩
    have heq := hall on off hreadOn hreadOff
    rwa [hreadOn.eq_flatMap hgroups, hreadOff.eq_flatMap hdatagrams] at heq
  · intro heq
    refine ⟨⟨on, hreadOn⟩, ⟨off, hreadOff⟩, fun on' off' hon' hoff' => ?_⟩
    rw [hon'.eq_flatMap hgroups, hoff'.eq_flatMap hdatagrams]
    exact heq

/-- **Transparency of coalescing.**  On a relay socket of a validated configuration,
the packets read with `UDP_GRO` on are those read with it off exactly when every
group the kernel hands out is kept: it is a single datagram, or every datagram of it
is over the limit, or its segments are within the limit, the last one is not empty,
and all of it fits the rest of a pooled buffer. -/
theorem gro_transparent_iff {showPrefix : Prefix → String} {args : BootArgs}
    (h : args.validate showPrefix = .ok ()) (host : Host) (a : Association) (sock : Sock)
    (groups : List Group) :
    GroTransparent (newUDPRuntime host args (BootArgs.accepted_of_validate h))
        (a.reader (newUDPRuntime host args (BootArgs.accepted_of_validate h)) sock) groups ↔
      ∀ g ∈ groups, g.Kept
        (a.reader (newUDPRuntime host args (BootArgs.accepted_of_validate h)) sock).limit
        ((newUDPRuntime host args (BootArgs.accepted_of_validate h)).bufferSize -
          (a.reader (newUDPRuntime host args (BootArgs.accepted_of_validate h)) sock).offset) :=
  groTransparent_iff_kept (a.reader_fits _ sock) groups

/-- Two datagrams of `n` bytes from one source, coalesced. -/
def pairOf (n : Nat) (h : n + n ≤ 65535) : Group where
  src := ⟨.v4 0x7f000001, 9⟩
  segmentSize := n
  full := [List.replicate n 0]
  last := List.replicate n 0
  length_full := by simp
  length_last := by simp
  count_le := by simp
  length_le := by simpa using h

/-- Two datagrams of 400 bytes. -/
theorem gro_transparent_iff_pairOf :
    GroTransparent groRuntime (ipv4Association.reader groRuntime .inbound)
        [pairOf 400 (by decide)] ↔
      ∀ g ∈ [pairOf 400 (by decide)], g.Kept (ipv4Association.reader groRuntime .inbound).limit
        (groRuntime.bufferSize - (ipv4Association.reader groRuntime .inbound).offset) :=
  gro_transparent_iff groArgs_validate offloadHost ipv4Association .inbound [pairOf 400 (by decide)]

/-- The smallest packet size `validate` accepts, with coalesced reads on. -/
def smallArgs : BootArgs := { groArgs with udp := { groArgs.udp with maxPacketSize := 512 } }

/-- The settings pass `Validate`. -/
theorem smallArgs_validate : smallArgs.validate (fun _ => "") = .ok () := rfl

def smallRuntime : Runtime :=
  newUDPRuntime offloadHost smallArgs (BootArgs.accepted_of_validate smallArgs_validate)

/-- A pair within the limit that does not fit the buffer is not kept. -/
theorem not_kept_pairOf {n limit cap : Nat} (h : n + n ≤ 65535) (hlimit : n ≤ limit)
    (hcap : cap < n + n) : ¬ (pairOf n h).Kept limit cap := by
  have hlen : (pairOf n h).bytes.length = n + n := by
    rw [Group.length_bytes]
    simp [pairOf]
  rintro (hfull | hover | ⟨-, -, hfits⟩)
  · simp [pairOf] at hfull
  · simp only [pairOf, List.length_replicate] at hover
    omega
  · omega

/-- Two datagrams of 400 bytes are relayed with coalescing off and lost with it on, when
the packet size is 512 and a pooled buffer has 774 bytes. -/
theorem not_groTransparent_pairOf :
    ¬ GroTransparent smallRuntime (ipv4Association.reader smallRuntime .inbound)
      [pairOf 400 (by decide)] := by
  rw [groTransparent_iff_kept (ipv4Association.reader_fits _ .inbound)]
  intro hall
  exact not_kept_pairOf _ (by decide) (by decide) (hall _ List.mem_cons_self)

end Outway.Udp
