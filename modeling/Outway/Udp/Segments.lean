import Outway.Lib.Packing
import Outway.Udp.Batch

/-!
# Outway.Udp.Segments

What a segmented send puts on the wire.

`sendUDPGSO` packs a batch into super-datagrams of at most 64 datagrams and 64 KiB, and
the kernel cuts each of them at the segment size.  The packing is that of `Packing`, so
the two questions about it, whether the wire carries the batch and whether every
super-datagram is one that the kernel can send, are answered there for lists of one size.
-/

namespace Outway.Udp

open Prog Packing

variable {size : Nat}

/-! ## The kernel -/

/-- A super-datagram as it is handed to the kernel. -/
structure SuperDatagram where
  payloads : List Slice
  segment : UInt16
  dst : Sockaddr

namespace SuperDatagram

/-- `scratch[:total]`. -/
def data (d : SuperDatagram) : List UInt8 := d.payloads.flatMap Slice.bytes

/-- The datagrams the kernel makes of it. -/
def wire (d : SuperDatagram) : List (Sockaddr × List UInt8) :=
  (cut d.segment.toNat d.data).map (d.dst, ·)

end SuperDatagram

/-- The kernel accepts every super-datagram. -/
def acceptAll (s : List SuperDatagram) : (o : Op size) → Res o → List SuperDatagram → Prop
  | .sendmsgN _ payloads segment dst, err, s' => err = none ∧ s' = s ++ [⟨payloads, segment, dst⟩]
  | _, _, s' => s' = s

/-- A kernel that accepts everything answers every call. -/
theorem acceptAll_total (s : List SuperDatagram) (o : Op size) : ∃ r s', acceptAll s o r s' := by
  cases o with
  | sendmsgN sock payloads segment dst => exact ⟨none, _, rfl, rfl⟩
  | _ => exact ⟨(nonempty_res _).some, s, rfl⟩

/-! ## The groups of a batch -/

/-- The length of a datagram of a batch. -/
def WritePacket.len (p : WritePacket size) : Nat := p.buffer.bytes.length

/-- The limits of one segmented send. -/
def gsoLimits (size : Nat) : Limits (WritePacket size) where
  len := WritePacket.len
  count := gsoMaxSegments
  total := gsoScratchBytes

theorem len_gsoLimits (size : Nat) (p : WritePacket size) :
    (gsoLimits size).len p = p.buffer.bytes.length := rfl

theorem gsoLimits_count_pos : 0 < (gsoLimits size).count := Nat.succ_pos 63

/-- The packing loop takes the longest front that fits. -/
theorem gsoPack_eq_fit (batch : List (WritePacket size)) (total segments : Nat) :
    gsoPack batch total segments = (gsoLimits size).fit batch total segments := by
  induction batch generalizing total segments with
  | nil => rfl
  | cons p rest ih =>
      rw [gsoPack, Limits.fit, ih]
      rfl

/-- The super-datagram of a group. -/
def superDatagram (segment : UInt16) (dst : Sockaddr) (group : List (WritePacket size)) :
    SuperDatagram :=
  ⟨group.map WritePacket.buffer, segment, dst⟩

/-- When no datagram exceeds the scratch buffer, the loop sends the groups and counts all
datagrams. -/
theorem wp_sendSegments {sock : Sock} {dst : Sockaddr} {segment : UInt16} {rounds sent : Nat}
    {batch : List (WritePacket size)} {s : List SuperDatagram} (hrounds : batch.length ≤ rounds)
    (hfits : ∀ p ∈ batch, p.len ≤ gsoScratchBytes) :
    (sendSegments sock dst segment rounds batch sent).wp (Contract.live acceptAll) s
      fun res s' => res = (sent + batch.length, none) ∧
        s' = s ++ ((gsoLimits size).groups batch).map (superDatagram segment dst) := by
  induction rounds generalizing batch sent s with
  | zero =>
      obtain rfl : batch = [] := List.length_eq_zero_iff.mp (by omega)
      simp [sendSegments]
  | succ rounds ih =>
      cases batch with
      | nil => simp [sendSegments]
      | cons p rest =>
          have hpos := Limits.fit_cons_pos (L := gsoLimits size) (l := rest)
            gsoLimits_count_pos (hfits p List.mem_cons_self)
          have hle := (gsoLimits size).fit_le (p :: rest) 0 0
          rw [Limits.groups_cons gsoLimits_count_pos (hfits p List.mem_cons_self), sendSegments,
            gsoPack_eq_fit]
          simp only [if_neg hpos.ne', perform_eq, step_bind, ret_bind, wp_step]
          refine ⟨acceptAll_total s _, fun err s' hact => ?_⟩
          obtain ⟨rfl, rfl⟩ := hact
          refine wp_mono (ih ?_ fun q hq => hfits q (List.mem_of_mem_drop hq)) fun res s' h => ?_
          · simp only [List.length_drop]
            omega
          · obtain ⟨rfl, rfl⟩ := h
            constructor
            · simp only [List.length_drop]
              congr 1
              omega
            · simp [superDatagram]

/-! ## Eligible batches -/

/-- An eligible batch: one destination, one length, and a last packet that may be shorter. -/
theorem exists_of_gsoUniform {dst : AddrPort} {length : Nat} {packets : List (WritePacket size)}
    (hne : packets ≠ []) (h : gsoUniform dst length packets = true) :
    ∃ full last, packets = full ++ [last] ∧ (∀ p ∈ full, p.len = length ∧ p.addr = dst) ∧
      last.len ≤ length ∧ last.addr = dst := by
  induction packets with
  | nil => exact absurd rfl hne
  | cons p rest ih =>
      cases rest with
      | nil =>
          simp only [gsoUniform, Bool.and_eq_true, decide_eq_true_eq] at h
          exact ⟨[], p, rfl, by simp, h.2, h.1⟩
      | cons q rest =>
          simp only [gsoUniform, Bool.and_eq_true, decide_eq_true_eq] at h
          obtain ⟨full, last, hrest, hfull, hlast⟩ := ih (by simp) h.2
          refine ⟨p :: full, last, by rw [hrest, List.cons_append], ?_, hlast⟩
          simp only [List.forall_mem_cons]
          exact ⟨⟨h.1.2, h.1.1⟩, hfull⟩

/-- An eligible batch: datagrams of one size and a last one that is no larger, all to one
address. -/
theorem exists_of_gsoEligible {enabled : Bool} {batch : List (WritePacket size)} {gsoSize : Nat}
    (h : gsoEligible enabled batch = some gsoSize) :
    ∃ full last dst, batch = full ++ [last] ∧ full ≠ [] ∧ 0 < gsoSize ∧
      (∀ p ∈ full, p.len = gsoSize) ∧ last.len ≤ gsoSize ∧ ∀ p ∈ batch, p.addr = dst := by
  unfold gsoEligible at h
  split at h
  · next first second rest =>
      simp only [Option.ite_none_right_eq_some, Bool.and_eq_true, decide_eq_true_eq,
        Option.some.injEq] at h
      obtain ⟨⟨⟨-, hne⟩, huniform⟩, rfl⟩ := h
      obtain ⟨full, last, hrest, hfull, hlast, haddr⟩ := exists_of_gsoUniform (by simp) huniform
      refine ⟨first :: full, last, first.addr, by rw [hrest, List.cons_append], by simp,
        Nat.pos_of_ne_zero hne, ?_, hlast, ?_⟩
      · simp only [List.forall_mem_cons]
        exact ⟨rfl, fun p hp => (hfull p hp).1⟩
      · rw [hrest]
        simp only [List.forall_mem_cons, List.forall_mem_append]
        exact ⟨trivial, fun p hp => (hfull p hp).2, haddr, by simp⟩
  · cases h

/-- The length of the last datagram. -/
def lastLen (batch : List (WritePacket size)) : Nat := (batch.getLast?.map WritePacket.len).getD 0

@[simp] theorem lastLen_append (full : List (WritePacket size)) (last : WritePacket size) :
    lastLen (full ++ [last]) = last.len := by
  simp [lastLen]

/-! ## The outcome of a segmented send -/

/-- The send runs to its end when the kernel accepts what it is handed, and its result and
the super-datagrams it sent are as said. -/
def Sends (sock : Sock) (batch : List (WritePacket size)) (gsoSize : Nat)
    (Q : Nat × Option NetError → List SuperDatagram → Prop) : Prop :=
  (∃ s res, Exec acceptAll [] (sendUDPGSO sock batch gsoSize) s res) ∧
    ∀ s res, Exec acceptAll [] (sendUDPGSO sock batch gsoSize) s res → Q res s

section Outcome

variable {sock : Sock} {batch : List (WritePacket size)} {gsoSize : Nat}
  {Q : Nat × Option NetError → List SuperDatagram → Prop}

/-- What a batch sends is determined. -/
theorem sends_iff {res : Nat × Option NetError} {s : List SuperDatagram}
    (h : (sendUDPGSO sock batch gsoSize).wp (Contract.live acceptAll) []
      fun res' s' => res' = res ∧ s' = s) : Sends sock batch gsoSize Q ↔ Q res s := by
  obtain ⟨s', res', hexec, rfl, rfl⟩ := exists_exec h
  constructor
  · intro hsends
    exact hsends.2 _ _ hexec
  · intro hQ
    refine ⟨⟨_, _, hexec⟩, fun s'' res'' hexec' => ?_⟩
    obtain ⟨rfl, rfl⟩ := wp_exec (C := Contract.live acceptAll) h hexec'
    exact hQ

/-- Without a socket address nothing is sent. -/
theorem sends_of_none {dst : AddrPort} (hne : batch ≠ []) (hbatch : ∀ p ∈ batch, p.addr = dst)
    (hdst : sockaddrFromAddrPort dst = none) :
    Sends sock batch gsoSize Q ↔ Q (0, some .afNoSupport) [] := by
  apply sends_iff
  obtain ⟨p, rest, rfl⟩ := List.exists_cons_of_ne_nil hne
  rw [sendUDPGSO, hbatch p List.mem_cons_self, hdst]
  exact ⟨rfl, rfl⟩

/-- Datagrams larger than the scratch buffer are not sent. -/
theorem sends_of_large {dst : AddrPort} {sa : Sockaddr} {p : WritePacket size}
    {rest : List (WritePacket size)} (hbatch : batch = p :: rest) (hp : p.addr = dst)
    (hdst : sockaddrFromAddrPort dst = some sa) (hlarge : gsoScratchBytes < p.len) :
    Sends sock batch gsoSize Q ↔ Q (0, some .msgSize) [] := by
  apply sends_iff
  have hpack : gsoPack (p :: rest) 0 0 = 0 := by
    rw [gsoPack, if_neg]
    rintro ⟨-, hle⟩
    rw [WritePacket.len] at hlarge
    omega
  rw [hbatch, sendUDPGSO, hp, hdst, List.length_cons]
  simp only [sendSegments, hpack, if_true]
  exact ⟨rfl, rfl⟩

/-- Otherwise the groups are sent. -/
theorem sends_groups {dst : AddrPort} {sa : Sockaddr} (hne : batch ≠ [])
    (hbatch : ∀ p ∈ batch, p.addr = dst) (hdst : sockaddrFromAddrPort dst = some sa)
    (hfits : ∀ p ∈ batch, p.len ≤ gsoScratchBytes) :
    Sends sock batch gsoSize Q ↔ Q (batch.length, none)
      (((gsoLimits size).groups batch).map (superDatagram (UInt16.ofNat gsoSize) sa)) := by
  apply sends_iff
  have hwp : (sendSegments sock sa (UInt16.ofNat gsoSize) batch.length batch 0).wp
      (Contract.live acceptAll) [] fun res s' => res = (0 + batch.length, none) ∧
        s' = [] ++ ((gsoLimits size).groups batch).map (superDatagram (UInt16.ofNat gsoSize) sa) :=
    wp_sendSegments le_rfl hfits
  obtain ⟨p, rest, rfl⟩ := List.exists_cons_of_ne_nil hne
  rw [sendUDPGSO, hbatch p List.mem_cons_self, hdst]
  simpa using hwp

end Outcome

/-! ## What is on the wire -/

/-- The wire carries the datagrams of the batch, each to its address, and the result is
their number. -/
def CarriesBatch (batch : List (WritePacket size)) (res : Nat × Option NetError)
    (s : List SuperDatagram) : Prop :=
  (s.flatMap SuperDatagram.wire).map (fun d => (some d.1, d.2)) =
      batch.map (fun p => (sockaddrFromAddrPort p.addr, p.buffer.bytes)) ∧
    res.1 = (s.flatMap SuperDatagram.wire).length

/-- The wire after the super-datagrams of the groups. -/
theorem wire_superDatagrams (segment : UInt16) (dst : Sockaddr)
    (groups : List (List (WritePacket size))) :
    (groups.map (superDatagram segment dst)).flatMap SuperDatagram.wire =
      (groups.flatMap fun g => cut segment.toNat (g.flatMap fun p => p.buffer.bytes)).map
        (dst, ·) := by
  rw [List.flatMap_map, List.map_flatMap]
  simp only [SuperDatagram.wire, SuperDatagram.data, superDatagram, List.flatMap_map]

/-- The segment size handed to the kernel: a size of 64 KiB becomes 0. -/
theorem toNat_segment {gsoSize : Nat} (h : gsoSize ≤ gsoScratchBytes) :
    (UInt16.ofNat gsoSize).toNat = gsoSize ∨
      (UInt16.ofNat gsoSize).toNat = 0 ∧ gsoSize = gsoScratchBytes := by
  have hlt : gsoScratchBytes = 2 ^ 16 := rfl
  rw [UInt16.toNat_ofNat']
  omega

/-- A batch is not carried by nothing. -/
theorem not_carriesBatch_nil {batch : List (WritePacket size)} (hne : batch ≠ [])
    (res : Nat × Option NetError) : ¬ CarriesBatch batch res [] := by
  rintro ⟨hwire, -⟩
  exact hne (List.map_eq_nil_iff.mp hwire.symm)

/-- The groups of a batch put the given data on the wire. -/
theorem carriesBatch_iff {batch : List (WritePacket size)} {dst : AddrPort} {sa : Sockaddr}
    (hbatch : ∀ p ∈ batch, p.addr = dst) (hdst : sockaddrFromAddrPort dst = some sa)
    {segment : UInt16} {groups : List (List (WritePacket size))} {data : List (List UInt8)}
    (hdata : (groups.flatMap fun g => cut segment.toNat (g.flatMap fun p => p.buffer.bytes))
      = data) :
    CarriesBatch batch (batch.length, none) (groups.map (superDatagram segment sa)) ↔
      data = batch.map fun p => p.buffer.bytes := by
  have hexpected : batch.map (fun p => (sockaddrFromAddrPort p.addr, p.buffer.bytes)) =
      (batch.map fun p => p.buffer.bytes).map (some sa, ·) := by
    rw [List.map_map]
    exact List.map_congr_left fun p hp => by rw [hbatch p hp, hdst]; rfl
  have hinj : Function.Injective fun d : List UInt8 => (some sa, d) :=
    fun _ _ h => (Prod.mk.inj h).2
  rw [CarriesBatch, wire_superDatagrams, hdata, hexpected, List.map_map, List.length_map,
    show ((fun d => (some d.1, d.2)) ∘ (sa, ·) : List UInt8 → _) = (some sa, ·) from rfl,
    List.map_inj_right fun _ _ => hinj.eq_iff.mp]
  constructor
  · exact And.left
  · intro heq
    exact ⟨heq, by rw [heq, List.length_map]⟩

/-- 64 datagrams fit one super-datagram when they have 1024 bytes at most. -/
theorem perGroup_eq_count_iff {gsoSize : Nat} (hpos : 0 < gsoSize) :
    (gsoLimits size).perGroup gsoSize = (gsoLimits size).count ↔ gsoSize ≤ 1024 := by
  have hdiv : 64 ≤ 65536 / gsoSize ↔ gsoSize ≤ 1024 := by
    rw [Nat.le_div_iff_mul_le hpos]
    omega
  rw [Limits.perGroup, min_eq_left_iff, ← hdiv]
  rfl

/-- **Segmented sends**: an eligible batch is on the wire as it was batched, and counted as
such, exactly when its address can be used, its datagrams fit the scratch buffer, and an
empty last datagram starts a super-datagram of its own. -/
theorem sendUDPGSO_carries_iff {enabled : Bool} {batch : List (WritePacket size)} {gsoSize : Nat}
    (h : gsoEligible enabled batch = some gsoSize) (sock : Sock) :
    Sends sock batch gsoSize (CarriesBatch batch) ↔
      (∀ p ∈ batch, (sockaddrFromAddrPort p.addr).isSome) ∧ gsoSize ≤ gsoScratchBytes ∧
        (0 < lastLen batch ∨ gsoSize ≤ 1024 ∧ 64 ∣ batch.length - 1) := by
  obtain ⟨full, last, dst, hbatch, hne, hpos, hfull, hlast, haddr⟩ := exists_of_gsoEligible h
  have hne' : batch ≠ [] := by simp [hbatch]
  obtain ⟨p, hp⟩ := List.exists_mem_of_ne_nil full hne
  cases hdst : sockaddrFromAddrPort dst with
  | none =>
      rw [sends_of_none hne' haddr hdst, iff_false_left (not_carriesBatch_nil hne' _)]
      rintro ⟨hsome, -⟩
      have hp' : p ∈ batch := by simp [hbatch, hp]
      simpa [haddr p hp', hdst] using hsome p hp'
  | some sa =>
      have hsome : ∀ p ∈ batch, (sockaddrFromAddrPort p.addr).isSome := fun p hp => by
        rw [haddr p hp, hdst]; rfl
      by_cases hfits : gsoSize ≤ gsoScratchBytes
      · have hall : ∀ p ∈ batch, p.len ≤ gsoScratchBytes := by
          rw [hbatch]
          simp only [List.forall_mem_append, List.forall_mem_singleton]
          exact ⟨fun p hp => (hfull p hp).trans_le hfits, hlast.trans hfits⟩
        have hcut := cut_groups (len_gsoLimits size) (toNat_segment hfits) hpos gsoLimits_count_pos
          hfits hlast full hfull hne
        have hkept : (0 < last.len ∨ gsoSize ≤ 1024 ∧ 64 ∣ full.length) ↔
            (0 < lastLen batch ∨ gsoSize ≤ 1024 ∧ 64 ∣ batch.length - 1) := by
          rw [hbatch, lastLen_append, List.length_append, List.length_singleton, Nat.add_sub_cancel]
        rw [sends_groups hne' haddr hdst hall, hbatch, carriesBatch_iff (hbatch ▸ haddr) hdst hcut,
          ← hbatch, ← hkept, ← perGroup_eq_count_iff hpos,
          and_iff_right hsome, and_iff_right hfits]
        split_ifs with hcond
        · exact iff_of_true rfl hcond
        · -- one datagram is missing
          refine iff_of_false (fun heq => ?_) hcond
          have hlen := congrArg List.length heq
          simp [hbatch] at hlen
      · have hcons : ∃ first rest, batch = first :: rest ∧ first.len = gsoSize := by
          obtain ⟨first, rest, rfl⟩ := List.exists_cons_of_ne_nil hne
          exact ⟨first, rest ++ [last], hbatch, hfull first List.mem_cons_self⟩
        obtain ⟨first, rest, hcons, hfirst⟩ := hcons
        rw [sends_of_large hcons (haddr first (by simp [hcons])) hdst (by omega),
          iff_false_left (not_carriesBatch_nil hne' _)]
        exact fun hcond => hfits hcond.2.1

/-- A datagram to a name server. -/
def datagramOf (bytes : List UInt8) : WritePacket 2048 :=
  ⟨⟨some 0, bytes⟩, zeroBuffer 2048, ⟨.v4 0x08080808, 53⟩, false⟩

/-- Two datagrams, the second shorter. -/
theorem sendUDPGSO_carries_pair :
    gsoEligible true [datagramOf [1, 2], datagramOf [3]] = some 2 ∧
      Sends .preferred [datagramOf [1, 2], datagramOf [3]] 2
        (CarriesBatch [datagramOf [1, 2], datagramOf [3]]) := by
  have h : gsoEligible true [datagramOf [1, 2], datagramOf [3]] = some 2 := rfl
  refine ⟨h, (sendUDPGSO_carries_iff h .preferred).mpr ⟨?_, by decide, .inl (by decide)⟩⟩
  simp [datagramOf, sockaddrFromAddrPort, Addr.is4]

/-- An empty datagram behind one of a byte is not sent, but counted. -/
theorem not_carries_empty :
    gsoEligible true [datagramOf [1], datagramOf []] = some 1 ∧
      ¬ Sends .preferred [datagramOf [1], datagramOf []] 1
        (CarriesBatch [datagramOf [1], datagramOf []]) := by
  refine ⟨rfl, ?_⟩
  have haddr : ∀ p ∈ [datagramOf [1], datagramOf []], p.addr = ⟨.v4 0x08080808, 53⟩ := by
    simp [datagramOf]
  have hsegment : (UInt16.ofNat 1).toNat = 1 ∨ (UInt16.ofNat 1).toNat = 0 ∧ 1 = gsoScratchBytes :=
    .inl rfl
  have hlast : (gsoLimits 2048).len (datagramOf []) ≤ 1 := by decide
  have hcut := cut_groups (len_gsoLimits 2048) hsegment (by decide) gsoLimits_count_pos (by decide)
    hlast [datagramOf [1]] (by decide) (by decide)
  rw [if_neg (by decide)] at hcut
  rw [sends_groups (by simp) haddr rfl (by decide)]
  intro hcarries
  exact absurd ((carriesBatch_iff haddr rfl hcut).mp hcarries) (by decide)

/-! ## Sizes -/

/-- The largest payload of a UDP datagram over IPv4. -/
def maxUDPPayload : Nat := 65507

/-- The super-datagrams hold the batch in order, none is empty, and each has at most 64
datagrams and the size of one UDP datagram. -/
def PacksBatch (batch : List (WritePacket size)) (res : Nat × Option NetError)
    (s : List SuperDatagram) : Prop :=
  res = (batch.length, none) ∧ s.flatMap SuperDatagram.payloads = batch.map WritePacket.buffer ∧
    ∀ d ∈ s, d.payloads ≠ [] ∧ d.payloads.length ≤ gsoMaxSegments ∧ d.data.length ≤ maxUDPPayload

/-- A super-datagram has the bytes of its packets. -/
theorem length_data_superDatagram (segment : UInt16) (dst : Sockaddr)
    (group : List (WritePacket size)) :
    (superDatagram segment dst group).data.length = (gsoLimits size).size group := by
  simp only [SuperDatagram.data, superDatagram, List.flatMap_map, List.length_flatMap]
  rfl

/-- The packing loop partitions every batch whose datagrams fit the scratch buffer, so only
the sizes are in question. -/
theorem packsBatch_iff {batch : List (WritePacket size)}
    (hfits : ∀ p ∈ batch, p.len ≤ gsoScratchBytes) (segment : UInt16) (dst : Sockaddr) :
    PacksBatch batch (batch.length, none)
        (((gsoLimits size).groups batch).map (superDatagram segment dst)) ↔
      ∀ g ∈ (gsoLimits size).groups batch, (gsoLimits size).size g ≤ maxUDPPayload := by
  have hflat := Limits.flatten_groups (L := gsoLimits size) gsoLimits_count_pos batch hfits
  have hpayloads : (((gsoLimits size).groups batch).map (superDatagram segment dst)).flatMap
      SuperDatagram.payloads = batch.map WritePacket.buffer := by
    conv_rhs => rw [← hflat]
    simp only [List.flatMap_def, List.map_map, List.map_flatten]
    rfl
  simp only [PacksBatch, hpayloads, true_and, List.forall_mem_map, length_data_superDatagram]
  constructor
  · exact fun h g hg => (h g hg).2.2
  · intro h g hg
    refine ⟨?_, ?_, h g hg⟩
    · simpa [superDatagram] using Limits.groups_ne_nil batch g hg
    · rw [superDatagram, List.length_map]
      exact Limits.length_groups_le batch g hg

/-- **Sizes of segmented sends**: an eligible batch of datagrams that can be sent one by one
is partitioned into super-datagrams that can be sent exactly when its address can be used
and the full groups, and the group of the last datagram, keep the limit. -/
theorem sendUDPGSO_packs_iff {enabled : Bool} {batch : List (WritePacket size)} {gsoSize : Nat}
    (h : gsoEligible enabled batch = some gsoSize) (hsmall : ∀ p ∈ batch, p.len ≤ maxUDPPayload)
    (sock : Sock) :
    Sends sock batch gsoSize (PacksBatch batch) ↔
      (∀ p ∈ batch, (sockaddrFromAddrPort p.addr).isSome) ∧
        (gsoLimits size).Bounded gsoSize (batch.length - 1) (lastLen batch) maxUDPPayload := by
  obtain ⟨full, last, dst, rfl, hne, hpos, hfull, hlast, haddr⟩ := exists_of_gsoEligible h
  have hfits : ∀ p ∈ full ++ [last], p.len ≤ gsoScratchBytes :=
    fun p hp => (hsmall p hp).trans (by decide)
  obtain ⟨p, hp⟩ := List.exists_mem_of_ne_nil full hne
  have hsize : gsoSize ≤ gsoScratchBytes :=
    (hfull p hp).symm.trans_le (hfits p (List.mem_append_left _ hp))
  cases hdst : sockaddrFromAddrPort dst with
  | none =>
      have hfails : ¬ PacksBatch (full ++ [last]) (0, some .afNoSupport) [] := by
        rintro ⟨hres, -⟩
        exact nomatch congrArg Prod.snd hres
      rw [sends_of_none (by simp) haddr hdst, iff_false_left hfails]
      rintro ⟨hsome, -⟩
      have hp' : p ∈ full ++ [last] := List.mem_append_left _ hp
      simpa [haddr p hp', hdst] using hsome p hp'
  | some sa =>
      have hsome : ∀ p ∈ full ++ [last], (sockaddrFromAddrPort p.addr).isSome := fun p hp => by
        rw [haddr p hp, hdst]; rfl
      rw [sends_groups (by simp) haddr hdst hfits, packsBatch_iff hfits, and_iff_right hsome,
        Limits.size_groups_le_iff gsoLimits_count_pos hpos hsize hlast
          (hsmall last (by simp)) full hfull hne,
        lastLen_append, List.length_append, List.length_singleton, Nat.add_sub_cancel]
      rfl

/-- The same two go into one super-datagram. -/
theorem sendUDPGSO_packs_pair :
    gsoEligible true [datagramOf [1, 2], datagramOf [3]] = some 2 ∧
      Sends .preferred [datagramOf [1, 2], datagramOf [3]] 2
        (PacksBatch [datagramOf [1, 2], datagramOf [3]]) := by
  have h : gsoEligible true [datagramOf [1, 2], datagramOf [3]] = some 2 := rfl
  refine ⟨h, (sendUDPGSO_packs_iff h (by decide) .preferred).mpr ⟨?_, ?_⟩⟩
  · simp [datagramOf, sockaddrFromAddrPort, Addr.is4]
  · decide +kernel

/-- A datagram of 1024 bytes. -/
def kilobyte : WritePacket 2048 := datagramOf (List.replicate 1024 0)

theorem len_kilobyte : kilobyte.len = 1024 := List.length_replicate

/-- 64 datagrams of 1024 bytes make one super-datagram of 65536 bytes. -/
theorem not_packs_full :
    gsoEligible true (List.replicate 64 kilobyte) = some 1024 ∧
      (∀ p ∈ List.replicate 64 kilobyte, p.len ≤ maxUDPPayload) ∧
      ¬ Sends .preferred (List.replicate 64 kilobyte) 1024
        (PacksBatch (List.replicate 64 kilobyte)) := by
  have hfits : ∀ p ∈ List.replicate 64 kilobyte, p.len ≤ gsoScratchBytes := fun p hp => by
    rw [List.eq_of_mem_replicate hp, len_kilobyte]; decide
  have haddr : ∀ p ∈ List.replicate 64 kilobyte, p.addr = ⟨.v4 0x08080808, 53⟩ := fun p hp => by
    rw [List.eq_of_mem_replicate hp]; rfl
  have hfull : ∀ p ∈ List.replicate 63 kilobyte, (gsoLimits 2048).len p = 1024 := fun p hp => by
    rw [List.eq_of_mem_replicate hp]; exact len_kilobyte
  have hlast : (gsoLimits 2048).len kilobyte ≤ 1024 := len_kilobyte.le
  have hbound : (gsoLimits 2048).len kilobyte ≤ maxUDPPayload := len_kilobyte.trans_le (by decide)
  have hsizes := Limits.size_groups_le_iff gsoLimits_count_pos (by decide) (by decide) hlast hbound
    _ hfull (List.ne_nil_of_length_pos (by decide))
  refine ⟨by decide +kernel, fun p hp => ?_, ?_⟩
  · rw [List.eq_of_mem_replicate hp, len_kilobyte]
    decide
  · rw [sends_groups (List.ne_nil_of_length_pos (by decide)) haddr rfl hfits, packsBatch_iff hfits,
      List.replicate_succ', hsizes, show (gsoLimits 2048).len kilobyte = 1024 from len_kilobyte]
    decide +kernel

end Outway.Udp
