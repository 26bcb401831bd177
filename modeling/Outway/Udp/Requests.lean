import Outway.Udp.Bounds
import Outway.Udp.Fate

/-!
# Outway.Udp.Requests

Where the traffic of the request thread comes from.

A `Request` is a complete datagram in the history of the thread that is a whole,
unfragmented relay datagram of the authorized source.  `inboundPermits` asks that
everything the thread sends, queues or remembers is one, and `wp_inboundThread`
proves it of its program.  A history only grows, and a request stays one.
-/

namespace Outway.Udp

open Prog
open Socks (Address WireDatagram parseUdpHeader wireDatagram_of_parseUdpHeader)

variable {size : Nat}

/-! ## Requests -/

/-- `IsDatagram sock e d src`: the read `e` of the socket returned the complete datagram
`d` from `src`, on its own, as a segment of a coalesced read, or in a batch. -/
inductive IsDatagram (sock : Sock) : Event size → List UInt8 → AddrPort → Prop where
  | whole {into : Window} {oobLen : Nat} (msg : ReadMsg into.len oobLen)
      (htrunc : msg.msgTrunc = false)
      (hsize : parseGROSize msg = 0 ∨ msg.data.length ≤ parseGROSize msg) :
      IsDatagram sock ⟨.readMsgUDP sock into oobLen, .ok msg⟩ msg.data msg.addr
  | segment {into : Window} {oobLen : Nat} (msg : ReadMsg into.len oobLen)
      (htrunc : msg.msgTrunc = false) (hpos : 0 < parseGROSize msg) (i : Nat)
      (hi : i < segmentCount msg.data.length (parseGROSize msg)) :
      IsDatagram sock ⟨.readMsgUDP sock into oobLen, .ok msg⟩
        (segmentAt msg.data (parseGROSize msg) i) msg.addr
  | drained {into : List Window} (drained : Drained into) (m : RecvMsg)
      (hm : m ∈ drained.messages) (htrunc : m.msgTrunc = false) :
      IsDatagram sock ⟨.readBatch sock into, .ok drained⟩ m.data m.addr

/-- The history has a read of the complete datagram. -/
def IsRead (sock : Sock) (es : List (Event size)) (d : List UInt8) (src : AddrPort) : Prop :=
  ∃ e ∈ es, IsDatagram sock e d src

/-- A complete, well-formed, unfragmented datagram of the authorized source, up to the
mapping of IPv4 addresses into IPv6. -/
def Request (a : Association) (es : List (Event size)) (src : AddrPort) (dst : Address)
    (payload : List UInt8) : Prop :=
  src.addr.unmap = a.srcIP.unmap ∧ ∃ d, IsRead .inbound es d src ∧ WireDatagram d 0 dst payload

/-- The payload of some request. -/
def Requested (a : Association) (es : List (Event size)) (payload : List UInt8) : Prop :=
  ∃ src dst, Request a es src dst payload

section Requests

variable {a : Association} {es es' : List (Event size)} {payload : List UInt8}

/-- What was read stays read. -/
theorem IsRead.mono {sock : Sock} {d : List UInt8} {src : AddrPort} (h : IsRead sock es d src)
    (hes : es ⊆ es') : IsRead sock es' d src := by
  obtain ⟨e, he, hd⟩ := h
  exact ⟨e, hes he, hd⟩

theorem Request.mono {src : AddrPort} {dst : Address} (h : Request a es src dst payload)
    (hes : es ⊆ es') : Request a es' src dst payload := by
  obtain ⟨hsrc, d, hread, hwire⟩ := h
  exact ⟨hsrc, d, hread.mono hes, hwire⟩

/-- What was asked for stays so. -/
theorem Requested.mono (h : Requested a es payload) (hes : es ⊆ es') :
    Requested a es' payload := by
  obtain ⟨src, dst, hrequest⟩ := h
  exact ⟨src, dst, hrequest.mono hes⟩

/-- An authorized source has the authorized address, up to mapping. -/
theorem unmap_eq_of_isAuthorized {src : AddrPort} {expected : Addr}
    (h : isAuthorized src expected = true) : src.addr.unmap = expected.unmap := by
  have hv4 {ip : Addr} (hip : ip.is4 = true) : ip.unmap = ip := by
    cases ip <;> simp_all [Addr.is4, Addr.unmap]
  simp only [isAuthorized, Bool.or_eq_true, Bool.and_eq_true, decide_eq_true_eq] at h
  obtain (rfl | ⟨⟨-, h4⟩, hunmap⟩) | ⟨⟨h4, -⟩, hunmap⟩ := h
  · rfl
  · rw [hunmap, hv4 h4]
  · rw [hunmap, hv4 h4]

/-- What the checks let through is a request. -/
theorem request_of_verdict {packet : ReadPacket size} {pkt : InboundPacket size}
    (hread : packet.truncated = false → IsRead .inbound es (packet.payload 0) packet.addr)
    (h : a.verdict packet = .ok pkt) : Request a es pkt.src pkt.dst pkt.payload.bytes := by
  obtain ⟨htrunc, hdr, hlen, hparse, hfrag, hauth, rfl⟩ := Association.verdict_eq_ok h
  obtain ⟨-, hwire⟩ := wireDatagram_of_parseUdpHeader hparse
  rw [hfrag, List.drop_take] at hwire
  refine ⟨unmap_eq_of_isAuthorized hauth, _, hread htrunc, ?_⟩
  rwa [ReadPacket.payload, List.drop_zero]

end Requests

/-! ## Reading -/

/-- The operations that send, queue and remember nothing. -/
def Op.IsInternal : Op size → Prop
  | .writeBatch _ _ | .sendmsgN _ _ _ _ | .trySend _ _ | .storePort _ | .sendPacket _ => False
  | _ => True

section Read

variable {permits : List (Event size) → Op size → Prop} {es : List (Event size)}
  {r : BatchReader} {rt : Runtime}

/-- An operation that is permitted is recorded. -/
theorem wp_log {o : Op size} (h : permits es o) :
    (perform o).wp (.logging permits) es fun r es' => es' = es ++ [⟨o, r⟩] :=
  ⟨h, fun _ _ hes => hes⟩

/-- A history only grows. -/
theorem keepsLocal_logging (hfree : ∀ es o, o.IsInternal → permits es o)
    (es₀ : List (Event size)) : KeepsLocal (.logging permits) (es₀ ⊆ ·) := by
  intro es o hes ho
  refine ⟨hfree es o (by cases o <;> trivial), fun _ _ hes' => ?_⟩
  rw [hes']
  exact List.subset_append_of_subset_left _ hes

/-- Every packet that is not marked truncated is a complete datagram of the history. -/
def AllRead (r : BatchReader) (es : List (Event size)) (packets : List (ReadPacket size)) : Prop :=
  ∀ p ∈ packets, p.truncated = false → IsRead r.sock es (p.payload r.offset) p.addr

theorem AllRead.mono {es' : List (Event size)} {packets : List (ReadPacket size)}
    (h : AllRead r es packets) (hes : es ⊆ es') : AllRead r es' packets :=
  fun p hp htrunc => (h p hp htrunc).mono hes

/-- A packet that was read whole is relayed. -/
theorem mem_relayed {offset : Nat} {packets : List (ReadPacket size)} {p : ReadPacket size}
    (hp : p ∈ packets) (htrunc : p.truncated = false) :
    (p.payload offset, p.addr) ∈ relayed offset packets :=
  List.mem_flatMap.mpr ⟨p, hp, by simp [htrunc]⟩

/-- A segment of a coalesced message is a datagram. -/
theorem isDatagram_of_mem_groPayloads {sock : Sock} {into : Window} {oobLen limit : Nat}
    {msg : ReadMsg into.len oobLen} {d : List UInt8}
    (h : d ∈ groPayloads limit msg.msgTrunc msg.data (parseGROSize msg)) :
    IsDatagram sock (⟨.readMsgUDP sock into oobLen, .ok msg⟩ : Event size) d msg.addr := by
  unfold groPayloads at h
  split_ifs at h with htrunc hsingle hlong
  · simp at h
  · simp at h
  · obtain rfl := List.mem_singleton.mp h
    exact .whole msg (by simpa using htrunc) (by omega)
  · obtain ⟨i, hi, rfl⟩ := List.mem_map.mp h
    have hi := List.mem_range.mp hi
    exact .segment msg (by simpa using htrunc) (by omega) i (by omega)

/-- The packets of a coalesced read are its segments. -/
theorem wp_readGRO (hfree : ∀ es o, o.IsInternal → permits es o) (hfit : r.Fits size) :
    (readGRO r).wp (.logging permits) es fun res es' =>
      es ⊆ es' ∧ ∀ packets, res = .ok packets → AllRead r es' packets := by
  unfold BatchReader.Fits at hfit
  have hkeeps := keepsLocal_logging hfree
  refine wp_seq ((hkeeps es).wp_perform (List.Subset.refl es) (o := .getBuffer) trivial)
    fun buffer es₁ h₁ => ?_
  refine wp_bind.mpr (wp_window_of_le (by omega) le_rfl ?_)
  refine wp_seq (wp_log (hfree _ _ trivial)) fun res es₂ h₂ => ?_
  have hgrows : es ⊆ es₂ := h₂ ▸ List.subset_append_of_subset_left _ h₁
  cases res with
  | error err =>
      exact wp_seq ((hkeeps es).wp_perform hgrows (o := .putBuffer buffer) trivial)
        fun _ _ h₃ => ⟨h₃, by simp⟩
  | ok msg =>
      refine wp_seq (wp_groPackets (hkeeps es₂) (List.Subset.refl es₂) (by simp only []; omega)) ?_
      rintro packets es₃ ⟨h₃, -, -, hrelayed⟩
      refine ⟨List.Subset.trans hgrows h₃, fun packets' hpackets' p hp htrunc => ?_⟩
      obtain rfl : packets = packets' := by simpa using hpackets'
      have hmem : (p.payload r.offset, p.addr) ∈ relayed r.offset packets := mem_relayed hp htrunc
      rw [hrelayed] at hmem
      obtain ⟨d, hd, heq⟩ := List.mem_map.mp hmem
      obtain ⟨hpayload, haddr⟩ := Prod.mk.inj heq
      rw [← hpayload, ← haddr]
      refine ⟨_, h₃ ?_, isDatagram_of_mem_groPayloads hd⟩
      rw [h₂]
      exact List.mem_append_right _ (List.mem_singleton_self _)

/-- The packets of a batch read are its messages. -/
theorem allRead_drained (hfit : r.Fits size) {into : List Window} {drained : Drained into}
    {bufs : List (Buffer size)} (hread : (⟨.readBatch r.sock into, .ok drained⟩ :
      Event size) ∈ es) :
    AllRead r es ((drained.messages.zip bufs).map fun p => drainedPacket r p.1 p.2) := by
  unfold BatchReader.Fits at hfit
  intro p hp htrunc
  obtain ⟨⟨m, buf⟩, hzip, rfl⟩ := List.mem_map.mp hp
  simp only [drainedPacket, Bool.or_eq_false_iff, decide_eq_false_iff_not] at htrunc
  have hpayload : (drainedPacket r m buf).payload r.offset = m.data := payload_overwrite (by omega)
  rw [hpayload]
  exact ⟨_, hread, .drained drained m (List.of_mem_zip hzip).1 htrunc.1⟩

/-- The drained packets were read. -/
theorem wp_drainBatch_log (hfree : ∀ es o, o.IsInternal → permits es o) (hfit : r.Fits size)
    {packets : List (ReadPacket size)} {bufs : List (Buffer size)} {msgs : List Window}
    (hpackets : AllRead r es packets) :
    (drainBatch rt r packets bufs msgs).wp (.logging permits) es fun p es' =>
      es ⊆ es' ∧ AllRead r es' p.1 := by
  have hkeeps := keepsLocal_logging hfree
  refine wp_seq (wp_log (hfree _ (.readBatch r.sock msgs) trivial)) fun res es₁ h₁ => ?_
  have hgrows : es ⊆ es₁ := h₁ ▸ List.subset_append_left _ _
  cases res with
  | error err =>
      refine wp_seq ((hkeeps es).wp_releaseAll id (fun _ => true) hgrows _) fun _ es₂ h₂ => ?_
      simp only [pure_eq]
      split_ifs
      · exact ⟨h₂, hpackets.mono h₂⟩
      · refine wp_seq ((hkeeps es).wp_perform h₂ (o := .count .batchFallbacks 1) trivial)
          fun _ es₃ h₃ => ?_
        exact ⟨h₃, hpackets.mono h₃⟩
  | ok drained =>
      refine wp_bind.mpr (wp_foldlM_push_of_fault trivial ?_)
      refine wp_seq ((hkeeps es₁).wp_releaseAll id (fun _ => true) (List.Subset.refl es₁) _)
        fun _ es₂ h₂ => ?_
      have hdrained : AllRead r es₁ ((drained.messages.zip bufs.tail).map fun p =>
          drainedPacket r p.1 p.2) :=
        allRead_drained hfit (h₁ ▸ List.mem_append_right _ (List.mem_singleton_self _))
      refine ⟨List.Subset.trans hgrows h₂, fun p hp => ?_⟩
      obtain hp | hp := List.mem_append.mp hp
      · exact (hpackets.mono (List.Subset.trans hgrows h₂)) p hp
      · exact (hdrained.mono h₂) p hp

/-- All packets of a batch were read. -/
theorem wp_batchPackets_log (hfree : ∀ es o, o.IsInternal → permits es o) (hfit : r.Fits size)
    {batchDisabled : Bool} {first : Buffer size} {len : Nat} {msg : ReadMsg len 0}
    (hfirst : msg.msgTrunc = false → IsRead r.sock es msg.data msg.addr) :
    (batchPackets rt r batchDisabled (first.overwrite r.offset msg.data) msg).wp (.logging permits)
      es fun p es' => es ⊆ es' ∧ AllRead r es' p.1 := by
  have hroom : r.offset + r.limit < size := hfit
  have hone : AllRead r es [⟨first.overwrite r.offset msg.data, msg.data.length, msg.addr,
      msg.msgTrunc || decide (r.limit < msg.data.length), false⟩] := by
    intro p hp htrunc
    obtain rfl := List.mem_singleton.mp hp
    simp only [Bool.or_eq_false_iff, decide_eq_false_iff_not] at htrunc
    rw [payload_overwrite (by omega)]
    exact hfirst htrunc.1
  simp only [batchPackets]
  refine wp_bind.mpr (wp_push_of_fault trivial (wp_bind.mpr (wp_push_of_fault trivial ?_)))
  simp only [pure_eq, List.nil_append]
  split_ifs
  · exact ⟨List.Subset.refl es, hone⟩
  · exact ⟨List.Subset.refl es, hone⟩
  · refine wp_seq (wp_takeExtraBuffers (keepsLocal_logging hfree es) hfit (List.Subset.refl es)) ?_
    rintro ⟨bufs, msgs⟩ es₁ ⟨h₁, -, -, -⟩
    simp only
    split_ifs
    · exact ⟨h₁, hone.mono h₁⟩
    · refine wp_mono (wp_drainBatch_log hfree hfit (hone.mono h₁)) fun p es₂ h₂ => ?_
      exact ⟨List.Subset.trans h₁ h₂.1, h₂.2⟩

/-- Every packet of a read that is not marked truncated is a complete datagram. -/
theorem wp_read_log (hfree : ∀ es o, o.IsInternal → permits es o) (hfit : r.Fits size)
    {batchDisabled : Bool} :
    (r.read rt batchDisabled).wp (.logging permits) es fun p es' =>
      es ⊆ es' ∧ ∀ packets, p.1 = .ok packets → AllRead r es' packets := by
  have hkeeps := keepsLocal_logging hfree
  unfold BatchReader.read
  split_ifs
  · exact wp_seq (wp_readGRO hfree hfit) fun _ _ h => h
  · refine wp_seq ((hkeeps es).wp_perform (List.Subset.refl es) (o := .getBuffer) trivial)
      fun first es₁ h₁ => ?_
    refine wp_bind.mpr (wp_window_of_fault trivial ?_)
    refine wp_seq (wp_log (hfree _ _ trivial)) fun res es₂ h₂ => ?_
    have hgrows : es ⊆ es₂ := h₂ ▸ List.subset_append_of_subset_left _ h₁
    cases res with
    | error err =>
        exact wp_seq ((hkeeps es).wp_perform hgrows (o := .putBuffer first) trivial)
          fun _ _ h₃ => ⟨h₃, by simp⟩
    | ok msg =>
        -- without a control buffer there is no segment size
        have hsize : parseGROSize msg = 0 := by
          have := msg.oobn_le
          rw [parseGROSize, if_pos (by omega)]
        have hfirst (htrunc : msg.msgTrunc = false) : IsRead r.sock es₂ msg.data msg.addr :=
          ⟨_, h₂ ▸ List.mem_append_right _ (List.mem_singleton_self _),
            .whole msg htrunc (.inl hsize)⟩
        refine wp_seq (wp_batchPackets_log hfree hfit hfirst) fun p es₃ h₃ => ?_
        refine ⟨List.Subset.trans hgrows h₃.1, fun packets hpackets => ?_⟩
        obtain rfl : p.1 = packets := by simpa using hpackets
        exact h₃.2

end Read

/-! ## The request thread -/

/-- What the request thread may do: what it sends, and not to the client, or queues is
the payload of a request, and the port it remembers is the source port of one. -/
def inboundPermits (a : Association) (es : List (Event size)) : Op size → Prop
  | .writeBatch sock messages => sock ≠ .inbound ∧ ∀ m ∈ messages, Requested a es m.payload.bytes
  | .sendmsgN sock payloads _ _ => sock ≠ .inbound ∧ ∀ p ∈ payloads, Requested a es p.bytes
  | .trySend _ job => job.assoc = a.index ∧ Requested a es job.packet.payload.bytes
  | .storePort port => ∃ src dst payload, Request a es src dst payload ∧ port = src.port.toUInt32
  | .sendPacket _ => False
  | _ => True

/-- What stays inside the relay is always permitted. -/
theorem inboundPermits_of_isInternal (a : Association) (es : List (Event size)) (o : Op size)
    (ho : o.IsInternal) : inboundPermits a es o := by
  cases o <;> trivial

/-- The contract of the request thread. -/
abbrev inboundLog (size : Nat) (a : Association) : Contract (Op size) Res (List (Event size)) :=
  .logging (inboundPermits a)

/-- Every write of the batch sends the payload of a request. -/
def AllRequested (a : Association) (es : List (Event size)) (batch : List (WritePacket size)) :
    Prop :=
  ∀ w ∈ batch, Requested a es w.buffer.bytes

/-- Both batches hold requests only. -/
def Batches.Requested (a : Association) (es : List (Event size)) (b : Batches size) : Prop :=
  AllRequested a es b.preferredBatch ∧ AllRequested a es b.fallbackBatch

section Inbound

variable {a : Association} {rt : Runtime} {es es' : List (Event size)} {b : Batches size}
  {batch : List (WritePacket size)}

theorem AllRequested.mono (h : AllRequested a es batch) (hes : es ⊆ es') :
    AllRequested a es' batch :=
  fun w hw => (h w hw).mono hes

/-- One packet more. -/
theorem AllRequested.concat (h : AllRequested a es batch) {w : WritePacket size}
    (hw : Requested a es w.buffer.bytes) : AllRequested a es (batch ++ [w]) := by
  intro w' hw'
  obtain hw' | rfl : w' ∈ batch ∨ w' = w := by simpa using hw'
  · exact h w' hw'
  · exact hw

theorem Batches.Requested.mono (h : b.Requested a es) (hes : es ⊆ es') : b.Requested a es' :=
  ⟨h.1.mono hes, h.2.mono hes⟩

/-- A packet that was asked for goes into a batch. -/
theorem Batches.Requested.enqueue (h : b.Requested a es) {pkt : InboundPacket size}
    (hpkt : Udp.Requested a es pkt.payload.bytes) (target : AddrPort) :
    ((b.accept pkt).enqueue a pkt target).Requested a es := by
  unfold Batches.enqueue
  split_ifs
  · exact ⟨h.1, h.2.concat hpkt⟩
  · exact ⟨h.1.concat hpkt, h.2⟩

/-- What stays inside the relay keeps all entries. -/
theorem keepsLocal_inboundLog (a : Association) (es₀ : List (Event size)) :
    KeepsLocal (inboundLog size a) (es₀ ⊆ ·) :=
  keepsLocal_logging (inboundPermits_of_isInternal a) es₀

/-- An internal operation of the request thread. -/
theorem wp_internal {o : Op size} (ho : o.IsInternal) :
    (perform o).wp (inboundLog size a) es fun _ es' => es ⊆ es' :=
  wp_mono (wp_log (inboundPermits_of_isInternal a es o ho)) fun _ _ h =>
    h ▸ List.subset_append_left _ _

/-- A job carries what was asked for. -/
theorem wp_dispatch_log {job : SendJob size} (hjob : job.assoc = a.index)
    (h : Requested a es job.packet.payload.bytes) :
    (dispatch rt job).wp (inboundLog size a) es fun _ es' => es ⊆ es' := by
  refine wp_seq (wp_internal (o := .lifetimeErr) trivial) fun ended es₁ h₁ => ?_
  cases ended with
  | true => exact h₁
  | false =>
      refine wp_seq (wp_log (o := .trySend _ job) ⟨hjob, h.mono h₁⟩) fun sent es₂ h₂ => ?_
      have hgrows : es ⊆ es₂ := h₂ ▸ List.subset_append_of_subset_left _ h₁
      cases sent with
      | true =>
          exact wp_seq (wp_internal (o := .count .queueDepth 1) trivial)
            fun _ _ h₃ => List.Subset.trans hgrows h₃
      | false =>
          exact wp_seq (wp_internal (o := .count .queueDrops 1) trivial)
            fun _ _ h₃ => List.Subset.trans hgrows h₃

/-- Counting and releasing a packet. -/
theorem wp_drop_log {α : Type} (c : Counter) (buf : Buffer size) (slot : Bool) (x : α) :
    (do count c 1; releaseBuffer buf slot; return x).wp (inboundLog size a) es fun y es' =>
      es ⊆ es' ∧ y = x := by
  refine wp_seq ((keepsLocal_inboundLog a es).wp_perform (List.Subset.refl es)
    (o := .count c 1) trivial) fun _ es₁ h₁ => ?_
  exact wp_seq ((keepsLocal_inboundLog a es).wp_releaseBuffer h₁ buf slot) fun _ _ h₂ => ⟨h₂, rfl⟩

/-- A packet that passes the checks may be remembered, queued and sent. -/
theorem wp_accept_log {pkt : InboundPacket size} (hfrag : pkt.frag = 0)
    (hauth : isAuthorized pkt.src a.srcIP = true)
    (hpkt : Request a es pkt.src pkt.dst pkt.payload.bytes) (hb : b.Requested a es) :
    (processInbound rt a b pkt).wp (inboundLog size a) es fun p es' =>
      es ⊆ es' ∧ p.1.Requested a es' := by
  have hrequested : Requested a es pkt.payload.bytes := ⟨_, _, hpkt⟩
  simp only [processInbound, hfrag, hauth, ne_eq, not_true_eq_false, Bool.not_true,
    Bool.false_eq_true, if_false]
  refine wp_seq (wp_log (o := .storePort pkt.src.port.toUInt32) ⟨_, _, _, hpkt, rfl⟩)
    fun _ es₁ h₁ => ?_
  have hgrows : es ⊆ es₁ := h₁ ▸ List.subset_append_left _ _
  have hqueued (target : AddrPort) {es' : List (Event size)} (hes : es ⊆ es') :
      es ⊆ es' ∧ ((b.accept pkt).enqueue a pkt target).Requested a es' :=
    ⟨hes, (hb.mono hes).enqueue (hrequested.mono hes) target⟩
  cases hdst : pkt.dst with
  | socket ap => exact hqueued _ hgrows
  | domain name port =>
      refine wp_seq (R := fun _ es' => es ⊆ es') ?_ fun target es₂ h₂ => ?_
      · refine wp_seq (wp_internal (o := .lookupCachedHost name) trivial) fun cached es₂ h₂ => ?_
        cases cached with
        | none => exact List.Subset.trans hgrows h₂
        | some addrs => exact List.Subset.trans hgrows h₂
      cases target with
      | some target => exact hqueued target h₂
      | none =>
          refine wp_seq (wp_dispatch_log rfl (hrequested.mono h₂)) fun sent es₃ h₃ => ?_
          have hgrows₃ := List.Subset.trans h₂ h₃
          cases sent with
          | true => exact ⟨hgrows₃, hb.mono hgrows₃⟩
          | false =>
              exact wp_seq ((keepsLocal_inboundLog a es).wp_releaseBuffer hgrows₃ _ _)
                fun _ _ h₄ => ⟨h₄, hb.mono h₄⟩

/-- A packet of the client is asked for, or dropped. -/
theorem wp_relayPacket_log {packet : ReadPacket size}
    (hread : packet.truncated = false → IsRead .inbound es (packet.payload 0) packet.addr)
    (hb : b.Requested a es) :
    (relayPacket rt a b packet).wp (inboundLog size a) es fun b' es' =>
      es ⊆ es' ∧ b'.Requested a es' := by
  have hdropped (c : Counter) : (do
      count c 1
      releaseReadPacket packet
      return b : Relay size (Batches size)).wp (inboundLog size a) es fun b' es' =>
        es ⊆ es' ∧ b'.Requested a es' := by
    refine wp_mono (wp_drop_log c packet.buffer packet.batchSlot b) fun b' es₁ h₁ => ?_
    rw [h₁.2]
    exact ⟨h₁.1, hb.mono h₁.1⟩
  simp only [relayPacket]
  split_ifs with htrunc
  · exact hdropped _
  refine wp_bind.mpr (wp_slice_of_fault trivial ?_)
  simp only [List.drop_zero, Nat.sub_zero]
  cases hparse : parseUdpHeader (packet.buffer.bytes.take packet.n) with
  | error err => exact hdropped _
  | ok parsed =>
      obtain ⟨hdr, hlen⟩ := parsed
      refine wp_bind.mpr (wp_slice_of_fault trivial ?_)
      refine wp_seq (R := fun p es' => es ⊆ es' ∧ p.1.Requested a es') ?_ fun p es₁ h₁ => h₁
      by_cases hfrag : hdr.frag = 0
      · cases hauth : isAuthorized packet.addr a.srcIP with
        | true =>
            have hverdict : a.verdict packet = .ok (packet.parsed hdr hlen) := by
              simp [Association.verdict, htrunc, hparse, hfrag, hauth]
            exact wp_accept_log hfrag hauth (request_of_verdict hread hverdict) hb
        | false =>
            rw [processInbound, if_neg (not_not.mpr hfrag), if_pos (by simp [hauth])]
            refine wp_mono (wp_drop_log _ _ _ _) fun p es₁ h₁ => ?_
            rw [h₁.2]
            exact ⟨h₁.1, hb.mono h₁.1⟩
      · rw [processInbound, if_pos hfrag]
        refine wp_mono (wp_drop_log _ _ _ _) fun p es₁ h₁ => ?_
        rw [h₁.2]
        exact ⟨h₁.1, hb.mono h₁.1⟩

/-- And so is every packet of a read. -/
theorem wp_relayPackets_log {packets : List (ReadPacket size)}
    (hread : AllRead (a.inboundReader rt) es packets) (hb : b.Requested a es) :
    (packets.foldlM (relayPacket rt a) b).wp (inboundLog size a) es fun b' es' =>
      es ⊆ es' ∧ b'.Requested a es' := by
  refine wp_mono (wp_foldlM (fun rest b es' => es ⊆ es' ∧ AllRead (a.inboundReader rt) es' rest ∧
    b.Requested a es') ?_ ⟨List.Subset.refl es, hread, hb⟩) fun b' es' h => ⟨h.1, h.2.2⟩
  intro packet rest b es₁ ⟨hes, hread, hb⟩
  refine wp_mono (wp_relayPacket_log (hread packet List.mem_cons_self) hb) fun b' es₂ h₂ => ?_
  refine ⟨List.Subset.trans hes h₂.1, fun p hp => ?_, h₂.2⟩
  exact (hread.mono h₂.1) p (List.mem_cons_of_mem packet hp)

/-- What is sent to a target was asked for. -/
theorem wp_writeMessages_log {sock : Sock} (hsock : sock ≠ .inbound) {rounds : Nat} {total : Int}
    {messages : List Message} (h : ∀ m ∈ messages, Requested a es m.payload.bytes) :
    (writeMessages sock rounds messages total).wp (inboundLog size a) es fun _ es' => es ⊆ es' := by
  induction rounds generalizing messages total es with
  | zero => exact List.Subset.refl es
  | succ rounds ih =>
      cases messages with
      | nil => exact List.Subset.refl es
      | cons m rest =>
          rw [writeMessages]
          refine wp_seq (wp_log (o := .writeBatch sock (m :: rest)) ⟨hsock, h⟩)
            fun written es₁ h₁ => ?_
          have hgrows : es ⊆ es₁ := h₁ ▸ List.subset_append_left _ _
          cases written.err with
          | some err => exact hgrows
          | none =>
              simp only [pure_eq]
              split_ifs
              · exact hgrows
              · refine wp_mono (ih fun m' hm' => (h m' (List.mem_of_mem_drop hm')).mono hgrows)
                  fun _ _ h₂ => List.Subset.trans hgrows h₂

theorem wp_write_log {writer : BatchWriter} (hsock : writer.sock ≠ .inbound)
    (h : AllRequested a es batch) :
    (writer.write batch).wp (inboundLog size a) es fun _ es' => es ⊆ es' := by
  unfold BatchWriter.write
  split_ifs
  · exact List.Subset.refl es
  all_goals
    refine wp_bind.mpr (wp_checkLen_of_fault trivial (wp_writeMessages_log hsock fun m hm => ?_))
    obtain ⟨w, hw, rfl⟩ := List.mem_map.mp hm
    exact h w hw

theorem wp_sendSegments_log {sock : Sock} (hsock : sock ≠ .inbound) {sa : Sockaddr}
    {segment : UInt16} {rounds sent : Nat} (h : AllRequested a es batch) :
    (sendSegments sock sa segment rounds batch sent).wp (inboundLog size a) es fun _ es' =>
      es ⊆ es' := by
  induction rounds generalizing batch sent es with
  | zero => exact List.Subset.refl es
  | succ rounds ih =>
      cases batch with
      | nil => exact List.Subset.refl es
      | cons p rest =>
          simp only [sendSegments, pure_eq]
          split_ifs
          · exact List.Subset.refl es
          refine wp_seq (wp_log ⟨hsock, fun s hs => ?_⟩) fun res es₁ h₁ => ?_
          · obtain ⟨w, hw, rfl⟩ := List.mem_map.mp hs
            exact h w (List.mem_of_mem_take hw)
          have hgrows : es ⊆ es₁ := h₁ ▸ List.subset_append_left _ _
          cases res with
          | some err => exact hgrows
          | none =>
              refine wp_mono (ih fun w hw => (h w (List.mem_of_mem_drop hw)).mono hgrows)
                fun _ _ h₂ => List.Subset.trans hgrows h₂

/-- A flush sends what was asked for. -/
theorem wp_flushBatch_log {writer : BatchWriter} (hsock : writer.sock ≠ .inbound)
    (h : AllRequested a es batch) :
    (flushBatch rt writer batch).wp (inboundLog size a) es fun _ es' => es ⊆ es' := by
  have hkeeps := keepsLocal_inboundLog a es
  unfold flushBatch
  split_ifs
  · exact List.Subset.refl es
  refine wp_seq (R := fun _ es' => es ⊆ es') ?_ fun res es₁ h₁ => ?_
  · unfold sendBatch
    split
    · refine wp_seq (R := fun _ es' => es ⊆ es') ?_ fun _ _ h₁ => h₁
      unfold sendUDPGSO
      split
      · exact List.Subset.refl es
      · split
        · exact List.Subset.refl es
        · exact wp_sendSegments_log hsock h
    · exact wp_write_log hsock h
  · refine wp_seq (hkeeps.wp_releaseAll WritePacket.owner WritePacket.batchSlot h₁ _)
      fun _ es₂ h₂ => ?_
    exact hkeeps.wp_reportWrite h₂ _ _ _

/-- And so do both. -/
theorem wp_flushBatches_log (hb : b.Requested a es) :
    (a.flushBatches rt b).wp (inboundLog size a) es fun rest es' =>
      es ⊆ es' ∧ AllRequested a es' rest := by
  have hkeeps := keepsLocal_inboundLog a es
  simp only [Association.flushBatches, pure_eq]
  refine wp_seq (KeepsLocal.wp_onlyIf (List.Subset.refl es)
    (wp_seq (hkeeps.wp_perform (List.Subset.refl es) trivial)
      fun _ _ h₁ => hkeeps.wp_perform h₁ trivial)) fun _ es₁ h₁ => ?_
  refine wp_seq (wp_flushBatch_log (by simp [Association.preferredWriter]) (hb.1.mono h₁))
    fun _ es₂ h₂ => ?_
  have hgrows := List.Subset.trans h₁ h₂
  cases hwriter : a.fallbackWriter rt with
  | none => exact ⟨hgrows, hb.2.mono hgrows⟩
  | some writer =>
      have hsock : writer.sock ≠ .inbound := by
        obtain ⟨v4, -, rfl⟩ := Option.map_eq_some_iff.mp hwriter
        simp
      refine wp_seq (wp_flushBatch_log hsock (hb.2.mono hgrows)) fun _ es₃ h₃ => ?_
      exact ⟨List.Subset.trans hgrows h₃, by simp [AllRequested]⟩

theorem wp_reportRead_log {err : NetError} :
    (reportRead err).wp (inboundLog size a) es fun _ es' => es ⊆ es' := by
  refine wp_seq (wp_internal (o := .ctxErr) trivial) fun ended es₁ h₁ => ?_
  cases ended with
  | true => exact h₁
  | false =>
      simp only [Bool.false_eq_true, if_false]
      split_ifs
      · exact h₁
      · refine wp_seq (wp_internal (o := .count .errors 1) trivial) fun _ es₂ h₂ => ?_
        refine wp_mono (wp_internal (o := .reportUDPError err) trivial) fun _ es₃ h₃ => ?_
        exact List.Subset.trans h₁ (List.Subset.trans h₂ h₃)

end Inbound

section Thread

variable {a : Association} {rt : Runtime} {es : List (Event rt.bufferSize)}

/-- A round of the pump leaves only such packets in its batches. -/
theorem wp_inboundPump_log {st : InboundPump rt.bufferSize}
    (hpreferred : AllRequested a es st.preferredBatch)
    (hfallback : AllRequested a es st.fallbackBatch) :
    (inboundPump rt a st).wp (inboundLog rt.bufferSize a) es fun st' es' => ∀ st₁, st' = some st₁ →
      AllRequested a es' st₁.preferredBatch ∧ AllRequested a es' st₁.fallbackBatch := by
  refine wp_seq (wp_read_log (inboundPermits_of_isInternal a) (inboundReader_fits rt a))
    fun ⟨res, batchDisabled⟩ es₁ h₁ => ?_
  cases res with
  | error err => exact wp_seq wp_reportRead_log fun _ _ _ => by simp
  | ok packets =>
      refine wp_seq (wp_relayPackets_log (h₁.2 packets rfl)
        ⟨hpreferred.mono h₁.1, hfallback.mono h₁.1⟩) fun b es₂ h₂ => ?_
      refine wp_seq (wp_flushBatches_log h₂.2) fun rest es₃ h₃ => ?_
      refine wp_seq (R := fun _ es' => es₃ ⊆ es') ?_ fun _ es₄ h₄ => ?_
      · exact KeepsLocal.wp_onlyIf (List.Subset.refl es₃) (wp_internal (o := .touch) trivial)
      · rintro st₁ hst₁
        obtain rfl := Option.some.inj hst₁
        exact ⟨by simp [AllRequested], h₃.2.mono h₄⟩

/-- The request thread sends, queues and remembers requests only. -/
theorem wp_inboundThread_log {rounds : Nat} :
    (inboundThread rt a rounds).wp (inboundLog rt.bufferSize a) es fun _ _ => True := by
  refine wp_iterate (fun st es => AllRequested a es st.preferredBatch ∧
    AllRequested a es st.fallbackBatch) (fun _ _ _ => trivial) ?_
    ⟨by simp [AllRequested], by simp [AllRequested]⟩
  intro st es ⟨hpreferred, hfallback⟩
  refine wp_seq (wp_internal (o := .pump .inbound) trivial) fun _ es₁ h₁ => ?_
  refine wp_mono (wp_inboundPump_log (hpreferred.mono h₁) (hfallback.mono h₁)) fun st' es₂ h₂ => ?_
  cases st' with
  | none => trivial
  | some st₁ => exact h₂ st₁ rfl

end Thread

end Outway.Udp
