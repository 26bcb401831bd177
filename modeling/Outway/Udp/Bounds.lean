import Outway.Udp.Packets

/-!
# Outway.Udp.Bounds

No index or slice expression of the relay path goes out of range, as long as a
batch writer has room for what one read can return.

`Prog.Ensures` reads a program against every result its operations may have, so
`ensures_inboundThread` and `ensures_responderThread` are about every sequence of
reads the kernel may answer with.  A coalesced read returns up to
`groMaxSegments` packets whatever the batch size is: this is the one place where
the sizes do not fit together, and `exists_fault_of_gro` runs into it.
-/

namespace Outway.Udp

open Prog Socks

variable {size : Nat} {α : Type}

/-! ## Checked expressions -/

/-- A slice expression faults outside its buffer. -/
@[simp] theorem ensures_slice {b : Buffer size} {lo hi : Nat} {Q : Slice → Prop} :
    (b.slice lo hi).Ensures Q ↔
      (lo ≤ hi ∧ hi ≤ size) ∧ Q ⟨some b.id, (b.bytes.drop lo).take (hi - lo)⟩ := by
  unfold Buffer.slice
  split_ifs with h <;> simp [h]

/-- So does one that is handed to the kernel. -/
@[simp] theorem ensures_window {b : Buffer size} {lo hi : Nat} {Q : Window → Prop} :
    (b.window lo hi).Ensures Q ↔ (lo ≤ hi ∧ hi ≤ size) ∧ Q ⟨b.id, hi - lo⟩ := by
  unfold Buffer.window
  split_ifs with h <;> simp [h]

/-- An append into a fixed array faults when the array is full. -/
@[simp] theorem ensures_push {cap : Nat} {xs : List α} {x : α} {Q : List α → Prop} :
    (push cap xs x : Relay size _).Ensures Q ↔ xs.length < cap ∧ Q (xs ++ [x]) := by
  unfold push
  split_ifs with h <;> simp [h]

/-- A length beyond the capacity faults. -/
@[simp] theorem ensures_checkLen {n cap : Nat} {Q : Unit → Prop} :
    (checkLen n cap : Relay size Unit).Ensures Q ↔ n ≤ cap ∧ Q () := by
  unfold checkLen
  split_ifs with h <;> simp [h]

@[simp] theorem ensures_putBuffer {b : Buffer size} {Q : Unit → Prop} :
    (putBuffer b).Ensures Q ↔ Q () :=
  ensures_step.trans ⟨fun h => h (), fun h _ => h⟩

@[simp] theorem ensures_count {c : Counter} {delta : Int} {Q : Unit → Prop} :
    (count c delta : Relay size Unit).Ensures Q ↔ Q () :=
  ensures_step.trans ⟨fun h => h (), fun h _ => h⟩

/-- Giving a buffer back cannot fault. -/
@[simp] theorem ensures_releaseBuffer {b : Buffer size} {slot : Bool} {Q : Unit → Prop} :
    (releaseBuffer b slot).Ensures Q ↔ Q () := by
  cases slot with
  | false => simp [releaseBuffer]
  | true =>
      simp only [releaseBuffer, if_true, perform_eq, step_bind, ret_bind, ensures_step,
        ensures_putBuffer]
      exact ⟨fun h => h (), fun h _ => h⟩

@[simp] theorem ensures_releaseReadPacket {p : ReadPacket size} {Q : Unit → Prop} :
    (releaseReadPacket p).Ensures Q ↔ Q () := ensures_releaseBuffer

@[simp] theorem ensures_releaseInboundPacket {p : InboundPacket size} {Q : Unit → Prop} :
    (releaseInboundPacket p).Ensures Q ↔ Q () := ensures_releaseBuffer

/-- A guarded step is safe when the step is. -/
theorem ensures_onlyIf {c : Prop} [Decidable c] {p : Relay size Unit}
    (h : p.Ensures fun _ => True) : (onlyIf c p).Ensures fun _ => True := by
  unfold onlyIf
  split_ifs
  · exact h
  · trivial

/-! ## Reading -/

/-- A packet that is not marked truncated stays within the limit. -/
def ReadPacket.Within (limit : Nat) (p : ReadPacket size) : Prop :=
  p.truncated = false → p.n ≤ limit

/-- What a read may return: at most `cap` packets, each within the limit. -/
def ReadWithin (cap limit : Nat) : Except NetError (List (ReadPacket size)) → Prop
  | .error _ => True
  | .ok packets => packets.length ≤ cap ∧ ∀ p ∈ packets, p.Within limit

/-- One coalesced message yields at most `groMaxSegments` packets, each within the reader's limit.
-/
theorem ensures_groPackets {r : BatchReader} {buffer : Buffer size} {len : Nat}
    (hlen : r.offset + len ≤ size) (msg : ReadMsg len groOOBLen) :
    (groPackets r (buffer.overwrite r.offset msg.data) msg).Ensures fun packets =>
      packets.length ≤ groMaxSegments ∧ ∀ p ∈ packets, p.Within r.limit :=
  wp_mono (wp_groPackets (I := fun _ => True) (fun _ _ _ _ => ⟨trivial, fun _ _ _ => trivial⟩)
    trivial hlen) fun _ _ h => ⟨h.2.1, h.2.2.1⟩

/-- A GRO read stays in its buffer, whatever segment size the kernel reports. -/
theorem ensures_readGRO {r : BatchReader} (hfit : r.Fits size) :
    (readGRO r : Relay size _).Ensures (ReadWithin groMaxSegments r.limit) := by
  have hoff : r.offset ≤ size := by
    unfold BatchReader.Fits at hfit
    omega
  simp only [readGRO, getBuffer, perform_eq, step_bind, ret_bind, ensures_step, ensures_bind,
    ensures_window]
  intro buffer
  refine ⟨⟨hoff, le_rfl⟩, ?_⟩
  rintro (err | msg)
  · simp [ReadWithin]
  · simp only [ensures_bind]
    exact (ensures_groPackets (by simp only []; omega) msg).mono fun packets h => h

/-- The batch has one message for each buffer but the first, and no more buffers than its size. -/
theorem ensures_takeExtraBuffers {rt : Runtime} {r : BatchReader} (hfit : r.Fits size)
    {first : Buffer size} :
    (takeExtraBuffers rt r (rt.batchSize - 1) [first] []).Ensures fun p =>
      p.1.length ≤ rt.batchSize ∧ p.1.length = p.2.length + 1 :=
  wp_mono (wp_takeExtraBuffers (I := fun _ => True)
    (fun _ _ _ _ => ⟨trivial, fun _ _ _ => trivial⟩) hfit trivial) fun _ _ h => ⟨h.2.1, h.2.2.1⟩

/-- Draining adds to the first packet at most the rest of the batch. -/
theorem ensures_drainBatch {rt : Runtime} {r : BatchReader} {packets : List (ReadPacket size)}
    {bufs : List (Buffer size)} {msgs : List Window} (hbufs : bufs.length ≤ rt.batchSize)
    (hmsgs : bufs.length = msgs.length + 1) (hlen : packets.length = 1)
    (hwithin : ∀ p ∈ packets, p.Within r.limit) :
    (drainBatch rt r packets bufs msgs).Ensures fun res =>
      res.1.length ≤ rt.batchSize ∧ ∀ p ∈ res.1, p.Within r.limit := by
  have hrelease (bufs : List (Buffer size)) :
      (bufs.forM (releaseBuffer · true)).Ensures fun _ => True :=
    ensures_forM fun b _ => by simp
  simp only [drainBatch, perform_eq, step_bind, ret_bind, ensures_step]
  rintro (err | drained)
  · refine (hrelease bufs.tail).bind fun _ _ => ?_
    have hone : packets.length ≤ rt.batchSize := hlen.trans_le rt.batchSize_pos
    split_ifs
    · exact ⟨hone, hwithin⟩
    · simpa using And.intro hone hwithin
  · have hdrained := drained.length_messages
    -- one packet per message behind the first
    let inv (rest : List (RecvMsg × Buffer size)) (packets : List (ReadPacket size)) : Prop :=
      packets.length + rest.length ≤ rt.batchSize ∧ ∀ p ∈ packets, p.Within r.limit
    refine Ensures.bind (R := inv []) (ensures_foldlM inv ?_ ⟨?_, hwithin⟩) fun packets h =>
      (hrelease _).bind fun _ _ => ⟨by simpa using h.1, h.2⟩
    · rintro ⟨m, buf⟩ rest packets ⟨hcap, hwithin⟩
      have hcap' : packets.length + (rest.length + 1) ≤ rt.batchSize := by simpa using hcap
      rw [ensures_push]
      refine ⟨by omega, by simp; omega, fun q hq => ?_⟩
      obtain hq | rfl : q ∈ packets ∨ q = drainedPacket r m buf := by simpa using hq
      · exact hwithin q hq
      · simp [ReadPacket.Within, drainedPacket]
    · simp only [hlen, List.length_zip, List.length_tail]
      omega

/-- A batch read yields at most a batch of packets within the limit. -/
theorem ensures_readBatch {rt : Runtime} {r : BatchReader} (hfit : r.Fits size)
    (batchDisabled : Bool) :
    (readBatch rt r batchDisabled : Relay size _).Ensures fun res =>
      ReadWithin rt.batchSize r.limit res.1 := by
  have hpos := rt.batchSize_pos
  simp only [readBatch, getBuffer, perform_eq, step_bind, ret_bind, ensures_step, ensures_bind,
    ensures_window]
  intro first
  refine ⟨by unfold BatchReader.Fits at hfit; omega, ?_⟩
  rintro (err | msg)
  · simp [ReadWithin]
  · simp only [ensures_bind, batchPackets, ensures_push]
    refine ⟨hpos, hpos, ?_⟩
    have hwithin : ∀ p ∈ [] ++ [(⟨first.overwrite r.offset msg.data, msg.data.length, msg.addr,
        msg.msgTrunc || r.limit < msg.data.length, false⟩ : ReadPacket size)],
          p.Within r.limit := by
      simp [ReadPacket.Within]
    split_ifs with hone hdisabled
    · exact ⟨hpos, hwithin⟩
    · exact ⟨hpos, hwithin⟩
    · refine (ensures_takeExtraBuffers hfit).bind ?_
      rintro ⟨bufs, msgs⟩ ⟨hbufs, hmsgs⟩
      simp only []
      split_ifs
      · exact ⟨hpos, hwithin⟩
      · exact (ensures_drainBatch hbufs hmsgs rfl hwithin).mono fun _ h => h

/-- The packets one read can return. -/
def BatchReader.cap (r : BatchReader) (rt : Runtime) : Nat :=
  if r.gro then groMaxSegments else rt.batchSize

/-- Both kinds of read stay within the reader's cap. -/
theorem ensures_read {rt : Runtime} {r : BatchReader} (hfit : r.Fits size) (batchDisabled : Bool) :
    (r.read rt batchDisabled : Relay size _).Ensures fun res =>
      ReadWithin (r.cap rt) r.limit res.1 := by
  simp only [BatchReader.read, BatchReader.cap]
  split_ifs
  · rw [ensures_bind]
    exact ensures_readGRO hfit
  · exact ensures_readBatch hfit batchDisabled

/-! ## Writing -/

/-- Sending messages cannot fault. -/
theorem ensures_writeMessages {sock : Sock} {rounds : Nat} {total : Int} {messages : List Message} :
    (writeMessages sock rounds messages total : Relay size _).Ensures fun _ => True := by
  induction rounds generalizing messages total with
  | zero => trivial
  | succ rounds ih =>
      cases messages with
      | nil => trivial
      | cons m rest =>
          simp only [writeMessages, perform_eq, step_bind, ret_bind, ensures_step]
          intro written
          cases written.err with
          | some err => trivial
          | none =>
              simp only []
              split_ifs
              · trivial
              · exact ih

/-- Handing more packets to `Write` than it was built for is out of range, and
nothing else is. -/
theorem ensures_write_iff {w : BatchWriter} {packets : List (WritePacket size)} :
    (w.write packets).Ensures (fun _ => True) ↔ packets.length ≤ w.batchSize := by
  simp only [BatchWriter.write]
  split_ifs with hempty hv4
  · simp [hempty]
  · simp [writeIPv4Messages, ensures_writeMessages]
  · simp [writeIPv6Messages, ensures_writeMessages]

theorem ensures_sendSegments {sock : Sock} {sa : Sockaddr} {segment : UInt16} {rounds sent : Nat}
    {batch : List (WritePacket size)} :
    (sendSegments sock sa segment rounds batch sent).Ensures fun _ => True := by
  induction rounds generalizing batch sent with
  | zero => trivial
  | succ rounds ih =>
      cases batch with
      | nil => trivial
      | cons p rest =>
          simp only [sendSegments, perform_eq, step_bind, ret_bind]
          split_ifs
          · trivial
          · rw [ensures_step]
            rintro (_ | err)
            · exact ih
            · trivial

theorem ensures_sendUDPGSO {sock : Sock} {batch : List (WritePacket size)} {gsoSize : Nat} :
    (sendUDPGSO sock batch gsoSize).Ensures fun _ => True := by
  cases batch with
  | nil => trivial
  | cons p rest =>
      simp only [sendUDPGSO]
      split
      · trivial
      · exact ensures_sendSegments

/-- Neither can counting what was sent. -/
theorem ensures_reportWrite {written : Int} {expected : Nat} {writeErr : Option NetError} :
    (reportWrite written writeErr expected : Relay size Unit).Ensures fun _ => True :=
  ensures_onlyIf (by simp)

theorem ensures_reportRead {err : NetError} :
    (reportRead err : Relay size Unit).Ensures fun _ => True := by
  simp only [reportRead, perform_eq, step_bind, ret_bind, ensures_step]
  intro ctxErr
  split_ifs <;> simp

/-- A batch that fits its writer is flushed without a fault. -/
theorem ensures_flushBatch {rt : Runtime} {writer : BatchWriter} {batch : List (WritePacket size)}
    (h : batch.length ≤ writer.batchSize) : (flushBatch rt writer batch).Ensures fun _ => True := by
  simp only [flushBatch]
  split_ifs
  · trivial
  · refine Ensures.bind (R := fun _ => True) ?_ fun res _ => ?_
    · unfold sendBatch
      split
      · exact ensures_sendUDPGSO.bind fun _ _ => trivial
      · exact ensures_write_iff.mpr h
    · exact (ensures_forM fun write _ => by simp).bind fun _ _ => ensures_reportWrite

/-! ## The request pump -/

/-- The batches hold at most `k` packets each, and none for a socket that is not
there. -/
structure Batches.Bounded (a : Association) (k : Nat) (b : Batches size) : Prop where
  preferred : b.preferredBatch.length ≤ k
  fallback : b.fallbackBatch.length ≤ k
  absent : a.fallbackV4 = none → b.fallbackBatch = []

theorem Batches.Bounded.mono {a : Association} {k k' : Nat} {b : Batches size} (h : b.Bounded a k)
    (hk : k ≤ k') : b.Bounded a k' :=
  ⟨h.preferred.trans hk, h.fallback.trans hk, h.absent⟩

/-- One packet more makes a batch longer by one at most. -/
theorem Batches.Bounded.enqueue {a : Association} {k : Nat} {b : Batches size} (h : b.Bounded a k)
    (pkt : InboundPacket size) (target : AddrPort) :
      (b.enqueue a pkt target).Bounded a (k + 1) := by
  simp only [Batches.enqueue]
  split_ifs with hfallback
  · refine ⟨Nat.le_succ_of_le h.preferred, by simpa using h.fallback, fun hnone => ?_⟩
    simp [hnone] at hfallback
  · exact ⟨by simpa using h.preferred, Nat.le_succ_of_le h.fallback, h.absent⟩

/-- Handing a job to its shard cannot fault. -/
theorem ensures_dispatch {rt : Runtime} {job : SendJob size} :
    (dispatch rt job).Ensures fun _ => True := by
  simp only [dispatch, perform_eq, step_bind, ret_bind, ensures_step]
  intro lifetimeErr
  split_ifs
  · trivial
  · rw [ensures_step]
    intro sent
    split_ifs <;> simp

/-- A datagram of the client fills the batches by one at most. -/
theorem ensures_processInbound {rt : Runtime} {a : Association} {k : Nat} {b : Batches size}
    {pkt : InboundPacket size} (h : b.Bounded a k) :
    (processInbound rt a b pkt).Ensures fun res => res.1.Bounded a (k + 1) := by
  have hkeep : b.Bounded a (k + 1) := h.mono (Nat.le_succ k)
  have haccept : (b.accept pkt).Bounded a k := ⟨h.preferred, h.fallback, h.absent⟩
  simp only [processInbound]
  split_ifs
  · simpa using hkeep
  · simpa using hkeep
  · simp only [perform_eq, step_bind, ret_bind, ensures_step]
    intro _
    cases pkt.dst with
    | socket ap => exact haccept.enqueue pkt _
    | domain name port =>
        simp only [cachedTargetForFamily, perform_eq, step_bind, ret_bind, ensures_step]
        intro cached
        refine Ensures.bind (R := fun _ => True) ?_ fun target _ => ?_
        · cases cached <;> trivial
        · cases target with
          | some target => exact haccept.enqueue pkt target
          | none =>
              refine ensures_dispatch.bind fun sent _ => ?_
              cases sent
              · simpa using haccept.mono (Nat.le_succ k)
              · exact haccept.mono (Nat.le_succ k)

/-- The slices of one packet lie in its buffer, and the batches grow by one at most. -/
theorem ensures_relayPacket {rt : Runtime} {a : Association} {k limit : Nat} {b : Batches size}
    {packet : ReadPacket size} (hlimit : limit ≤ size) (hpacket : packet.Within limit)
    (h : b.Bounded a k) :
    (relayPacket rt a b packet).Ensures fun b' => b'.Bounded a (k + 1) := by
  have hkeep : b.Bounded a (k + 1) := h.mono (Nat.le_succ k)
  simp only [relayPacket]
  split_ifs with htrunc
  · simpa using hkeep
  · have hn : packet.n ≤ size := (hpacket (by simpa using htrunc)).trans hlimit
    rw [ensures_bind, ensures_slice]
    refine ⟨⟨Nat.zero_le _, hn⟩, ?_⟩
    split
    · simpa using hkeep
    · next hdr hlen hparse =>
        have hle := (wireDatagram_of_parseUdpHeader hparse).1
        have hbytes : packet.buffer.bytes.length = size := packet.buffer.length_bytes
        simp only [List.drop_zero, Nat.sub_zero, List.length_take] at hle
        rw [ensures_bind, ensures_slice]
        refine ⟨⟨by omega, hn⟩, (ensures_processInbound h).bind ?_⟩
        rintro ⟨b', active⟩ hb'
        exact ⟨hb'.preferred, hb'.fallback, hb'.absent⟩

/-- So they grow by at most one for every packet of a read. -/
theorem ensures_relayPackets {rt : Runtime} {a : Association} {limit : Nat} (hlimit : limit ≤ size)
    {packets : List (ReadPacket size)} (hpackets : ∀ p ∈ packets, p.Within limit) {b : Batches size}
    (h : b.Bounded a 0) :
    (packets.foldlM (relayPacket rt a) b).Ensures fun b' => b'.Bounded a packets.length := by
  let inv (rest : List (ReadPacket size)) (b : Batches size) : Prop :=
    (∀ p ∈ rest, p.Within limit) ∧ ∃ k, b.Bounded a k ∧ k + rest.length ≤ packets.length
  refine (ensures_foldlM inv ?_ ⟨hpackets, 0, h, by simp⟩).mono ?_
  · rintro p rest b ⟨hwithin, k, hb, hk⟩
    refine (ensures_relayPacket hlimit (hwithin p List.mem_cons_self) hb).mono fun b' hb' => ?_
    refine ⟨fun q hq => hwithin q (List.mem_cons_of_mem p hq), k + 1, hb', ?_⟩
    rw [List.length_cons] at hk
    omega
  · rintro b ⟨-, k, hb, hk⟩
    exact hb.mono (by simpa using hk)

/-- Batches that hold no more than a read fit their writers. -/
theorem ensures_flushBatches {rt : Runtime} {a : Association} {b : Batches size}
    (h : b.Bounded a rt.batchSize) :
    (a.flushBatches rt b).Ensures fun fallback => fallback = [] := by
  simp only [Association.flushBatches, Association.fallbackWriter]
  refine (ensures_onlyIf (by simp)).bind fun _ _ => ?_
  refine (ensures_flushBatch h.preferred).bind fun _ _ => ?_
  cases hfallback : a.fallbackV4 with
  | none => exact h.absent hfallback
  | some v4 => exact (ensures_flushBatch h.fallback).bind fun _ _ => rfl

/-- A pump starts with empty batches. -/
def InboundPump.Empty (st : InboundPump size) : Prop :=
  st.preferredBatch = [] ∧ st.fallbackBatch = []

/-- The inbound reader's buffers have room for its offset and its limit. -/
theorem inboundReader_fits (rt : Runtime) (a : Association) :
    (a.inboundReader rt).Fits rt.bufferSize := by
  simp only [BatchReader.Fits, Association.inboundReader, newUDPBatchReader, Runtime.bufferSize,
    protoUDPHeaderMaxLen]
  omega

/-- A round of the inbound pump starts and ends with empty batches and does not fault in between.
-/
theorem ensures_inboundPump {rt : Runtime} {a : Association}
    (hcap : (a.inboundReader rt).cap rt ≤ rt.batchSize) {st : InboundPump rt.bufferSize}
    (hst : st.Empty) :
    (inboundPump rt a st).Ensures fun st' => ∀ st'', st' = some st'' → st''.Empty := by
  have hlimit : (a.inboundReader rt).limit ≤ rt.bufferSize := by
    have := inboundReader_fits rt a
    unfold BatchReader.Fits at this
    omega
  simp only [inboundPump]
  refine (ensures_read (inboundReader_fits rt a) st.batchDisabled).bind ?_
  rintro ⟨err | packets, batchDisabled⟩ hread
  · refine ensures_reportRead.bind fun _ _ => ?_
    simp
  · obtain ⟨hlen, hwithin⟩ := hread
    have hempty : Batches.Bounded a 0
        (⟨st.preferredBatch, st.fallbackBatch, 0, 0, false⟩ : Batches rt.bufferSize) :=
      ⟨by simp [hst.1], by simp [hst.2], fun _ => hst.2⟩
    refine (ensures_relayPackets hlimit hwithin hempty).bind fun b hb => ?_
    refine (ensures_flushBatches (hb.mono (hlen.trans hcap))).bind fun fallback hfallback => ?_
    refine (ensures_onlyIf (by simp)).bind fun _ _ => ?_
    rintro st'' ⟨⟩
    exact ⟨rfl, hfallback⟩

/-- No round of the inbound thread faults. -/
theorem ensures_inboundThread {rt : Runtime} {a : Association}
    (hcap : (a.inboundReader rt).cap rt ≤ rt.batchSize) (rounds : Nat) :
    (inboundThread rt a rounds).Ensures fun _ => True := by
  refine ensures_iterate InboundPump.Empty ?_ ⟨rfl, rfl⟩
  intro st hst
  simp only [perform_eq, step_bind, ret_bind, ensures_step]
  exact fun _ => ensures_inboundPump hcap hst

/-! ## The response pump -/

theorem ensures_prepareUDPResponse {payload : Slice} {buffer : Buffer size} {remote : AddrPort} :
    (prepareUDPResponse payload buffer remote).Ensures fun _ => True := by
  have hmax : udpHeaderMaxLen = 262 := rfl
  simp only [prepareUDPResponse]
  split_ifs with hroom h4
  · simp only [ensures_bind, ensures_slice, pure_eq, ensures_ret, and_true]
    omega
  · simp only [ensures_bind, ensures_slice, pure_eq, ensures_ret, and_true]
    omega
  · trivial

/-- The reply has its header in front of the payload, in the room the reader left for it. -/
theorem ensures_respondPacket {clientAddr : AddrPort} {limit : Nat} {packet : ReadPacket size}
    {writes : List (WritePacket size × Nat)} (hlimit : udpHeaderMaxLen + limit ≤ size)
    (hpacket : packet.Within limit) :
    (respondPacket clientAddr writes packet).Ensures fun writes' =>
      writes'.length ≤ writes.length + 1 := by
  simp only [respondPacket]
  split_ifs with htrunc
  · simp
  · simp
  · have hn := hpacket (by simpa using htrunc)
    rw [ensures_bind, ensures_slice, Nat.add_sub_cancel_left]
    exact ⟨by omega, ensures_prepareUDPResponse.bind fun _ _ => by simp⟩

/-- There is at most one reply for each packet read. -/
theorem ensures_respondPackets {clientAddr : AddrPort} {limit : Nat}
    (hlimit : udpHeaderMaxLen + limit ≤ size) {packets : List (ReadPacket size)}
    (hpackets : ∀ p ∈ packets, p.Within limit) :
    (packets.foldlM (respondPacket clientAddr) []).Ensures fun writes =>
      writes.length ≤ packets.length := by
  let inv (rest : List (ReadPacket size)) (writes : List (WritePacket size × Nat)) : Prop :=
    (∀ p ∈ rest, p.Within limit) ∧ writes.length + rest.length ≤ packets.length
  refine (ensures_foldlM inv ?_ ⟨hpackets, by simp⟩).mono fun writes h => by simpa using h.2
  rintro p rest writes ⟨hwithin, hlen⟩
  refine (ensures_respondPacket hlimit (hwithin p List.mem_cons_self)).mono fun writes' h' => ?_
  rw [List.length_cons] at hlen
  exact ⟨fun q hq => hwithin q (List.mem_cons_of_mem p hq), by omega⟩

/-- Replies that fit the writer are sent without a fault. -/
theorem ensures_respond {p : Responder} {writes : List (WritePacket size × Nat)}
    (h : writes.length ≤ p.writer.batchSize) : (p.respond writes).Ensures fun _ => True := by
  simp only [Responder.respond]
  refine (ensures_write_iff.mpr (by simpa using h)).bind fun res _ => ?_
  refine (ensures_forM fun write _ => by simp).bind fun _ _ => ?_
  refine (ensures_onlyIf (by simp)).bind fun _ _ => ?_
  exact ensures_reportWrite.bind fun _ _ => ensures_onlyIf (by simp)

/-- The responder's buffers have room for the header, its offset and its limit. -/
theorem responder_fits (rt : Runtime) (a : Association) (outbound : Sock) :
    (newUDPResponder rt a outbound).reader.Fits rt.bufferSize := by
  have := rt.le_maxPacketSize
  simp only [BatchReader.Fits, newUDPResponder, newUDPBatchReader, Runtime.bufferSize,
    protoUDPHeaderMaxLen, udpHeaderMaxLen, maxSerializedLen, maxUDPResponseHeaderLen]
  omega

/-- A round of the responder does not fault when its reads fit its batch. -/
theorem ensures_pumpOnce {rt : Runtime} {a : Association} {outbound : Sock}
    (hcap : (newUDPResponder rt a outbound).reader.cap rt ≤ rt.batchSize) (batchDisabled : Bool) :
    ((newUDPResponder rt a outbound).pumpOnce rt batchDisabled :
      Relay rt.bufferSize _).Ensures fun _ => True := by
  have hfits := responder_fits rt a outbound
  simp only [Responder.pumpOnce]
  refine (ensures_read hfits batchDisabled).bind ?_
  rintro ⟨err | packets, batchDisabled⟩ hread
  · exact ensures_reportRead.bind fun _ _ => trivial
  · obtain ⟨hlen, hwithin⟩ := hread
    simp only [perform_eq, step_bind, ret_bind, ensures_step]
    intro port
    refine (ensures_respondPackets (Nat.le_of_lt hfits) hwithin).bind fun writes hwrites => ?_
    exact (ensures_respond ((hwrites.trans hlen).trans hcap)).bind fun _ _ => trivial

/-- No round of the responder faults. -/
theorem ensures_responderThread {rt : Runtime} {a : Association} {outbound : Sock}
    (hcap : (newUDPResponder rt a outbound).reader.cap rt ≤ rt.batchSize) (rounds : Nat) :
    (responderThread rt a outbound rounds).Ensures fun _ => True := by
  refine ensures_iterate (fun _ => True) ?_ trivial
  intro batchDisabled _
  simp only [perform_eq, step_bind, ret_bind, ensures_step]
  exact fun _ => (ensures_pumpOnce hcap batchDisabled).mono fun _ _ _ _ => trivial

/-! ## A coalesced read that does not fit -/

/-- A slice can be taken exactly when it lies in its buffer. -/
@[simp] theorem may_slice {b : Buffer size} {lo hi : Nat} {Q : Slice → Prop} :
    (b.slice lo hi).May Q ↔
      (lo ≤ hi ∧ hi ≤ size) ∧ Q ⟨some b.id, (b.bytes.drop lo).take (hi - lo)⟩ := by
  unfold Buffer.slice
  split_ifs with h <;> simp [h]

@[simp] theorem may_window {b : Buffer size} {lo hi : Nat} {Q : Window → Prop} :
    (b.window lo hi).May Q ↔ (lo ≤ hi ∧ hi ≤ size) ∧ Q ⟨b.id, hi - lo⟩ := by
  unfold Buffer.window
  split_ifs with h <;> simp [h]

/-- An append can go through exactly when there is room. -/
@[simp] theorem may_push {cap : Nat} {xs : List α} {x : α} {Q : List α → Prop} :
    (push cap xs x : Relay size _).May Q ↔ xs.length < cap ∧ Q (xs ++ [x]) := by
  unfold push
  split_ifs with h <;> simp [h]

@[simp] theorem may_checkLen {n cap : Nat} {Q : Unit → Prop} :
    (checkLen n cap : Relay size Unit).May Q ↔ n ≤ cap ∧ Q () := by
  unfold checkLen
  split_ifs with h <;> simp [h]

/-- The kernel's answer to a read of 64 coalesced datagrams of one byte each. -/
def coalescedBytes (len : Nat) (h : groMaxSegments ≤ len) : ReadMsg len groOOBLen where
  data := List.replicate groMaxSegments 0
  oobn := 20
  control := .ok [⟨ipprotoUDP, udpGRO, [1, 0, 0, 0]⟩]
  msgTrunc := false
  addr := ⟨.v4 0x7f000001, 9⟩
  length_data := by simpa using h
  oobn_le := by decide

/-- A packet of one byte. -/
def ReadPacket.OneByte (p : ReadPacket size) : Prop := p.truncated = false ∧ p.n = 1

/-- A segment of one byte becomes one packet. -/
theorem may_copySegment {r : BatchReader} (hroom : r.offset + groMaxSegments ≤ size)
    {buffer : Buffer size} {src : AddrPort} {packets : List (ReadPacket size)} {i : Nat}
    (hi : i < groMaxSegments) (hlen : packets.length < groMaxSegments) :
    (copySegment r buffer src groMaxSegments 1 packets i).May fun packets' =>
      ∃ p : ReadPacket size, p.OneByte ∧ packets' = packets ++ [p] := by
  have hone : segmentLen groMaxSegments 1 i = 1 := by
    rw [segmentLen, Nat.div_one, if_neg (Nat.ne_of_lt hi)]
  simp only [copySegment, getBuffer, perform_eq, step_bind, ret_bind, may_step, may_bind, may_slice,
    may_push, hone]
  exact ⟨zeroBuffer size, by omega, by omega, hlen, _, ⟨rfl, rfl⟩, rfl⟩

/-- A read of `groMaxSegments` bytes in segments of one byte becomes as many packets. -/
theorem may_splitSegments {r : BatchReader} (hroom : r.offset + groMaxSegments ≤ size)
    {buffer : Buffer size} {src : AddrPort} :
    (splitSegments r buffer src groMaxSegments 1).May fun packets =>
      packets.length = groMaxSegments ∧ ∀ p ∈ packets, p.OneByte := by
  have hcount : segmentCount groMaxSegments 1 = groMaxSegments := rfl
  simp only [splitSegments, hcount, onlyIf, lt_irrefl, if_false, ret_bind, count, perform_eq,
    step_bind, may_step, may_bind, may_push]
  refine ⟨(), Nat.zero_lt_succ 63, ?_⟩
  -- each round adds one packet for one index
  let inv (rest : List Nat) (packets : List (ReadPacket size)) : Prop :=
    packets.length + rest.length = groMaxSegments ∧ (∀ i ∈ rest, i < groMaxSegments) ∧
      ∀ p ∈ packets, p.OneByte
  refine (may_foldlM inv ?_ ⟨by simp [groMaxSegments], ?_, ?_⟩).mono ?_
  · rintro i rest packets ⟨hlen, hrest, hall⟩
    rw [List.length_cons] at hlen
    refine (may_copySegment hroom (hrest i List.mem_cons_self) (by omega)).mono ?_
    rintro _ ⟨p, hp, rfl⟩
    refine ⟨by simp; omega, fun j hj => hrest j (List.mem_cons_of_mem i hj), fun q hq => ?_⟩
    obtain hq | rfl : q ∈ packets ∨ q = p := by simpa using hq
    · exact hall q hq
    · exact hp
  · intro i hi
    simp only [List.mem_range'_1, groMaxSegments] at *
    omega
  · simp [ReadPacket.OneByte]
  · rintro packets ⟨hlen, -, hall⟩
    exact ⟨by simpa using hlen, hall⟩

/-- The kernel can coalesce `groMaxSegments` datagrams of one byte. -/
theorem may_readGRO {r : BatchReader} (hlimit : 0 < r.limit)
    (hroom : r.offset + groMaxSegments ≤ size) :
    (readGRO r : Relay size _).May fun res => ∃ packets, res = .ok packets ∧
      packets.length = groMaxSegments ∧ ∀ p ∈ packets, p.OneByte := by
  simp only [readGRO, getBuffer, perform_eq, step_bind, ret_bind, may_step, may_bind, may_window]
  refine ⟨zeroBuffer size, ⟨by omega, le_rfl⟩,
    .ok (coalescedBytes _ (by simp only []; omega)), ?_⟩
  have hsize (len : Nat) (h : groMaxSegments ≤ len) : parseGROSize (coalescedBytes len h) = 1 := rfl
  have hlen (len : Nat) (h : groMaxSegments ≤ len) :
      (coalescedBytes len h).data.length = groMaxSegments := List.length_replicate
  simp only [groPackets, hsize, hlen, may_bind]
  rw [if_neg (by simp [coalescedBytes]), may_bind, may_checkLen]
  refine ⟨(coalescedBytes _ _).oobn_le, ?_⟩
  rw [if_neg (by simp [groMaxSegments]; omega)]
  exact (may_splitSegments hroom).mono fun packets h => ⟨packets, rfl, h⟩

theorem may_prepareUDPResponse {payload : Slice} {buffer : Buffer size} {remote : AddrPort} :
    (prepareUDPResponse payload buffer remote).May fun _ => True := by
  have hmax : udpHeaderMaxLen = 262 := rfl
  simp only [prepareUDPResponse]
  split_ifs with hroom h4
  · simp only [may_bind, may_slice, pure_eq, may_ret, and_true]
    omega
  · simp only [may_bind, may_slice, pure_eq, may_ret, and_true]
    omega
  · trivial

/-- Every packet of one byte can get its reply. -/
theorem may_respondPackets {clientAddr : AddrPort} (hport : clientAddr.port ≠ 0)
    (hroom : udpHeaderMaxLen + 1 ≤ size) {packets : List (ReadPacket size)}
    (hall : ∀ p ∈ packets, p.OneByte) :
    (packets.foldlM (respondPacket clientAddr) []).May fun writes =>
      writes.length = packets.length := by
  let inv (rest : List (ReadPacket size)) (writes : List (WritePacket size × Nat)) : Prop :=
    writes.length + rest.length = packets.length ∧ ∀ p ∈ rest, p.OneByte
  refine (may_foldlM inv ?_ ⟨by simp, hall⟩).mono fun writes h => by simpa using h.1
  rintro p rest writes ⟨hlen, hrest⟩
  obtain ⟨htrunc, hn⟩ := hrest p List.mem_cons_self
  rw [List.length_cons] at hlen
  simp only [respondPacket, htrunc, hn, Bool.false_eq_true, if_false, hport, may_bind, may_slice]
  refine ⟨by omega, may_prepareUDPResponse.mono fun _ _ => ?_⟩
  exact ⟨by simp; omega, fun q hq => hrest q (List.mem_cons_of_mem p hq)⟩

/-- A reader with coalescing on can return more packets than the writer behind it has
room for. -/
theorem not_ensures_responderThread {rt : Runtime} {a : Association} {outbound : Sock}
    (hgro : (newUDPResponder rt a outbound).reader.gro = true)
    (hbatch : rt.batchSize < groMaxSegments) :
    ¬ (responderThread rt a outbound 1).Ensures fun _ => True := by
  intro h
  have hmax := rt.le_maxPacketSize
  simp only [responderThread, iterate, perform_eq, step_bind, ret_bind, ensures_step, ensures_bind,
    Responder.pumpOnce, BatchReader.read, hgro, if_true] at h
  obtain ⟨res, hres, packets, rfl, hlen, hall⟩ := (h ()).and_may (may_readGRO
    (by simp only [newUDPResponder, newUDPBatchReader, maxUDPResponseHeaderLen]; omega)
    (by simp only [newUDPResponder, newUDPBatchReader, Runtime.bufferSize, udpHeaderMaxLen,
          maxSerializedLen, protoUDPHeaderMaxLen, groMaxSegments]; omega))
  simp only [pure_eq, ensures_ret, ensures_step, ensures_bind] at hres
  have hport : (⟨a.srcIP, UInt32.toUInt16 1⟩ : AddrPort).port ≠ 0 := by
    change UInt32.toUInt16 1 ≠ 0
    decide
  have hroom : udpHeaderMaxLen + 1 ≤ rt.bufferSize := by
    simp only [Runtime.bufferSize, udpHeaderMaxLen, maxSerializedLen, protoUDPHeaderMaxLen]
    omega
  obtain ⟨writes, hrespond, hwrites⟩ :=
    (hres (1 : UInt32)).and_may (may_respondPackets hport hroom hall)
  simp only [Responder.respond, ensures_bind] at hrespond
  have hle := ensures_write_iff.mp (hrespond.mono fun _ _ => trivial)
  rw [List.length_map, hwrites, hlen] at hle
  exact absurd hle (Nat.not_le_of_lt hbatch)

/-! ## The configurations that fit -/

/-- Every thread of every association runs without an index or a slice out of range,
for any number of calls of its pump and any results of its system calls. -/
def Runtime.InBounds (rt : Runtime) : Prop :=
  ∀ (a : Association) (rounds : Nat),
    (inboundThread rt a rounds).Ensures (fun _ => True) ∧
      ∀ outbound, (responderThread rt a outbound rounds).Ensures fun _ => True

/-- The relay is in bounds when coalesced reads fit a batch. -/
theorem inBounds_of_cap {rt : Runtime} (h : rt.gro = true → rt.groSupported = true →
    groMaxSegments ≤ rt.batchSize) : rt.InBounds := by
  have hcap (sock : Sock) (enabled : Bool) (offset limit : Nat) :
      (newUDPBatchReader rt sock enabled offset limit).cap rt ≤ rt.batchSize := by
    simp only [BatchReader.cap, newUDPBatchReader, Bool.and_eq_true]
    split_ifs with hgro
    · exact h hgro.1.1 hgro.1.2
    · exact le_rfl
  exact fun a rounds => ⟨ensures_inboundThread (hcap _ _ _ _) rounds,
    fun outbound => ensures_responderThread (hcap _ _ _ _) rounds⟩

/-- A host that supports segmentation offload in both directions. -/
def offloadHost : Host := ⟨true, true, 8⟩

/-- An association over IPv4 on sockets that accept `UDP_GRO`. -/
def ipv4Association : Association where
  index := 0
  associationID := 1
  srcIP := .v4 0x7f000001
  inboundV4 := true
  preferredV4 := true
  fallbackV4 := none
  groEnabled _ := true

/-- **Bounds of the relay path.**  For a validated configuration the relay path stays
in range on every host, in every association and for every sequence of reads
exactly when coalesced reads are off or a batch has room for the 64 packets one of
them can return.  Handing `Write` more packets than it was built for is out of
range (`ensures_write_iff`), so this bounds every batch as well. -/
theorem relay_inBounds_iff {showPrefix : Prefix → String} {args : BootArgs}
    (h : args.validate showPrefix = .ok ()) :
    (∀ host, (newUDPRuntime host args (BootArgs.accepted_of_validate h)).InBounds) ↔
      (args.udp.gro = false ∨ 64 ≤ args.udp.batchSize) := by
  have hacc := BootArgs.accepted_of_validate h
  have hbatch (host : Host) :
      (newUDPRuntime host args hacc).batchSize = args.udp.batchSize.toNat := by
    simp only [newUDPRuntime, normalizeUDPConfig_eq hacc]
  constructor
  · intro hall
    by_contra hcond
    obtain ⟨hgro, hsmall⟩ := not_or.mp hcond
    have hin := (hall offloadHost ipv4Association 1).2 .preferred
    refine not_ensures_responderThread ?_ ?_ hin
    · simpa [newUDPResponder, newUDPBatchReader, newUDPRuntime, offloadHost, ipv4Association]
        using hgro
    · rw [hbatch, groMaxSegments]
      omega
  · intro hcond host
    refine inBounds_of_cap fun hgro _ => ?_
    have hgro' : args.udp.gro = true := hgro
    rw [hbatch, groMaxSegments]
    rcases hcond with hoff | hroom
    · simp [hgro'] at hoff
    · omega

/-- The default UDP settings with coalesced reads on. -/
def groArgs : BootArgs where
  concurrent := 1024
  workers := 0
  cidr := none
  cidrRange := none
  connectTimeout := 10
  udp :=
    { maxPacketSize := defaultUDPMaxPacketSize
      batchSize := defaultUDPBatchSize
      batchBufferBudget := defaultUDPBatchBufferBudget
      sendQueueSize := defaultUDPSendQueueSize
      sendWorkers := 0
      socketBufferBytes := 0
      maxAssociations := 0
      gso := false
      gro := true }
  auth := ⟨[], []⟩
  tlsCert := ""
  tlsKey := ""

/-- The settings pass `Validate`. -/
theorem groArgs_validate : groArgs.validate (fun _ => "") = .ok () := rfl

/-- A runtime of these settings, with coalesced reads on. -/
def groRuntime : Runtime :=
  newUDPRuntime offloadHost groArgs (BootArgs.accepted_of_validate groArgs_validate)

/-- The default settings with GRO on. -/
theorem relay_inBounds_iff_groArgs :
    (∀ host, (newUDPRuntime host groArgs
      (BootArgs.accepted_of_validate groArgs_validate)).InBounds) ↔
      (groArgs.udp.gro = false ∨ 64 ≤ groArgs.udp.batchSize) :=
  relay_inBounds_iff groArgs_validate

/-- With the default batch size of 32 one coalesced read of 64 datagrams is enough to
go out of range. -/
theorem responder_out_of_bounds :
    ¬ (responderThread (newUDPRuntime offloadHost groArgs
      (BootArgs.accepted_of_validate groArgs_validate)) ipv4Association .preferred 1).Ensures
        fun _ => True :=
  not_ensures_responderThread rfl (by decide)

end Outway.Udp
