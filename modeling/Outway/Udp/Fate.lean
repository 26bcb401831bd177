import Outway.Lib.Monitor
import Outway.Udp.Packets

/-!
# Outway.Udp.Fate

What `inboundPump` does with one packet of a read.

`Association.verdict` is what the checks make of a packet: the counter it is
dropped with, or the parsed packet.  `Fated` lists the operations the loop body
performs for each fate of a packet, and `fated_of_exec` says that there is no
other.
-/

namespace Outway.Udp

open Prog
open Socks (parseUdpHeader)

variable {size : Nat}

/-! ## Histories -/

/-- An operation with its result. -/
abbrev Event (size : Nat) : Type := Prog.Event (Op size) Res

/-- The contract that only records the operations of a program. -/
def history (size : Nat) : Contract (Op size) Res (List (Event size)) :=
  .logging fun _ _ => True

section History

variable {es : List (Event size)}

theorem history_perform (o : Op size) :
    (perform o).wp (history size) es fun r es' => es' = es ++ [⟨o, r⟩] :=
  ⟨trivial, fun _ _ h => h⟩

/-- The operations of `releaseBuffer`. -/
def releaseEvents (buf : Buffer size) (slot : Bool) : List (Event size) :=
  if slot then [⟨.recvBatchSlot buf, ()⟩, ⟨.putBuffer buf, ()⟩] else [⟨.putBuffer buf, ()⟩]

/-- Giving a buffer back, entry by entry. -/
theorem history_releaseBuffer (buf : Buffer size) (slot : Bool) :
    (releaseBuffer buf slot).wp (history size) es fun _ es' =>
      es' = es ++ releaseEvents buf slot := by
  cases slot with
  | false => exact history_perform (.putBuffer buf)
  | true =>
      refine wp_seq (history_perform (.recvBatchSlot buf)) fun _ es₁ h₁ => ?_
      refine wp_mono (history_perform (.putBuffer buf)) fun _ es₂ h₂ => ?_
      rw [h₂, h₁, List.append_assoc]
      rfl

end History

/-! ## Verdicts -/

/-- The parsed packet of a datagram with the header `hdr`, `hlen` bytes long. -/
def ReadPacket.parsed (packet : ReadPacket size) (hdr : Socks.UdpHeader) (hlen : Nat) :
    InboundPacket size where
  payload := ⟨some packet.buffer.id, (packet.buffer.bytes.drop hlen).take (packet.n - hlen)⟩
  buffer := packet.buffer
  frag := hdr.frag
  dst := hdr.address
  src := packet.addr
  batchSlot := packet.batchSlot

/-- What the checks make of a packet: the counter of its drop, or the parsed packet. -/
def Association.verdict (a : Association) (packet : ReadPacket size) :
    Except Counter (InboundPacket size) :=
  if packet.truncated then .error .truncatedDrops
  else
    match parseUdpHeader (packet.buffer.bytes.take packet.n) with
    | .error _ => .error .malformedDrops
    | .ok (hdr, hlen) =>
        if hdr.frag ≠ 0 then .error .fragmentDrops
        else if !isAuthorized packet.addr a.srcIP then .error .unauthorizedDrops
        else .ok (packet.parsed hdr hlen)

/-- A datagram that passes: whole, with a header, no fragment, from the client's address. -/
theorem Association.verdict_eq_ok {a : Association} {packet : ReadPacket size}
    {pkt : InboundPacket size} (h : a.verdict packet = .ok pkt) :
    packet.truncated = false ∧ ∃ hdr hlen,
      parseUdpHeader (packet.buffer.bytes.take packet.n) = .ok (hdr, hlen) ∧ hdr.frag = 0 ∧
        isAuthorized packet.addr a.srcIP = true ∧ pkt = packet.parsed hdr hlen := by
  unfold Association.verdict at h
  cases htrunc : packet.truncated with
  | true => simp [htrunc] at h
  | false =>
      rw [htrunc] at h
      cases hparse : parseUdpHeader (packet.buffer.bytes.take packet.n) with
      | error err => simp [hparse] at h
      | ok parsed =>
          obtain ⟨hdr, hlen⟩ := parsed
          simp only [hparse, Bool.false_eq_true, if_false] at h
          split_ifs at h with hfrag hauth
          · cases h
            exact ⟨rfl, hdr, hlen, rfl, not_not.mp hfrag, by simpa using hauth, rfl⟩

/-- The fates of a packet. -/
inductive Fate where
  | dropped (c : Counter)
  | batched (sock : Sock)
  | queued
  | refused
  deriving DecidableEq

/-- The socket whose batch takes a packet for `target`. -/
def Association.sockFor (a : Association) (target : AddrPort) : Sock :=
  if a.preferredV4 ≠ target.addr.is4 ∧ a.fallbackV4 = some target.addr.is4 then .fallback
  else .preferred

/-- The cached address `cachedTargetForFamily` chooses. -/
def Association.servedTarget (a : Association) (cached : Option (List Addr)) (port : UInt16) :
    Option AddrPort :=
  cached.bind fun addrs =>
    ((addrs.map Addr.unmap).find? fun ip =>
      a.preferredV4 = ip.is4 || a.fallbackV4 = some ip.is4).map fun ip => ⟨ip, port⟩

/-- An accepted packet counts as activity. -/
def Batches.activate (b : Batches size) : Batches size := { b with active := true }

/-- The operations of an accepted packet, and the batches it leaves. -/
inductive Routed (rt : Runtime) (a : Association) (b : Batches size) (pkt : InboundPacket size) :
    Fate → List (Event size) → Batches size → Prop where
  | direct (ap : AddrPort) (hdst : pkt.dst = .socket ap) :
      Routed rt a b pkt (.batched (a.sockFor ⟨ap.addr.unmap, ap.port⟩)) []
        ((b.accept pkt).enqueue a pkt ⟨ap.addr.unmap, ap.port⟩)
  | cached (name : List UInt8) (port : UInt16) (hdst : pkt.dst = .domain name port)
      (cached : Option (List Addr)) (target : AddrPort)
      (htarget : a.servedTarget cached port = some target) :
      Routed rt a b pkt (.batched (a.sockFor target)) [⟨.lookupCachedHost name, cached⟩]
        ((b.accept pkt).enqueue a pkt target)
  | queued (name : List UInt8) (port : UInt16) (hdst : pkt.dst = .domain name port)
      (cached : Option (List Addr)) (htarget : a.servedTarget cached port = none) :
      Routed rt a b pkt .queued
        [⟨.lookupCachedHost name, cached⟩, ⟨.lifetimeErr, false⟩,
          ⟨.trySend (rt.shardOf a.associationID) (a.job pkt name port), true⟩,
          ⟨.count .queueDepth 1, ()⟩]
        (b.accept pkt)
  | refused (name : List UInt8) (port : UInt16) (hdst : pkt.dst = .domain name port)
      (cached : Option (List Addr)) (htarget : a.servedTarget cached port = none) :
      Routed rt a b pkt .refused
        ([⟨.lookupCachedHost name, cached⟩, ⟨.lifetimeErr, false⟩,
          ⟨.trySend (rt.shardOf a.associationID) (a.job pkt name port), false⟩,
          ⟨.count .queueDrops 1, ()⟩] ++ releaseEvents pkt.buffer pkt.batchSlot)
        (b.accept pkt)
  | ended (name : List UInt8) (port : UInt16) (hdst : pkt.dst = .domain name port)
      (cached : Option (List Addr)) (htarget : a.servedTarget cached port = none) :
      Routed rt a b pkt .refused
        ([⟨.lookupCachedHost name, cached⟩, ⟨.lifetimeErr, true⟩] ++
          releaseEvents pkt.buffer pkt.batchSlot)
        (b.accept pkt)

/-- The operations of a packet, and the batches it leaves, for each fate: a dropped packet
is counted and released, an accepted one stores its source port and is routed. -/
inductive Fated (rt : Runtime) (a : Association) (b : Batches size) (packet : ReadPacket size) :
    Fate → List (Event size) → Batches size → Prop where
  | dropped (c : Counter) (h : a.verdict packet = .error c) :
      Fated rt a b packet (.dropped c)
        (⟨.count c 1, ()⟩ :: releaseEvents packet.buffer packet.batchSlot) b
  | accepted (pkt : InboundPacket size) (h : a.verdict packet = .ok pkt) {f : Fate}
      {es : List (Event size)} {b' : Batches size} (hrouted : Routed rt a b pkt f es b') :
      Fated rt a b packet f (⟨.storePort pkt.src.port.toUInt32, ()⟩ :: es) b'.activate

/-! ## The loop body -/

section Relay

variable {rt : Runtime} {a : Association} {b : Batches size} {es : List (Event size)}

/-- A name is looked up in the cache, for the families that can be sent to. -/
theorem history_cachedTargetForFamily (name : List UInt8) (port : UInt16) :
    (cachedTargetForFamily name port a.preferredV4 a.fallbackV4).wp (history size) es
      fun target es' => ∃ cached, es' = es ++ [⟨.lookupCachedHost name, cached⟩] ∧
        target = a.servedTarget cached port := by
  refine wp_seq (history_perform (.lookupCachedHost name)) fun cached es₁ h₁ => ?_
  cases cached with
  | none => exact ⟨none, h₁, rfl⟩
  | some addrs => exact ⟨some addrs, h₁, rfl⟩

/-- The operations of a drop. -/
theorem history_drop (c : Counter) (buf : Buffer size) (slot : Bool) {α : Type} {x : α}
    {Q : α → List (Event size) → Prop}
    (h : Q x (es ++ ⟨.count c 1, ()⟩ :: releaseEvents buf slot)) :
    (do count c 1; releaseBuffer buf slot; return x).wp (history size) es Q := by
  refine wp_seq (history_perform (.count c 1)) fun _ es₁ h₁ => ?_
  refine wp_seq (history_releaseBuffer buf slot) fun _ es₂ h₂ => ?_
  rwa [pure_eq, wp_ret, h₂, h₁, List.append_assoc]

/-- The operations of `dispatch`. -/
inductive Dispatched (shard : Nat) (job : SendJob size) : Bool → List (Event size) → Prop where
  | queued : Dispatched shard job true
      [⟨.lifetimeErr, false⟩, ⟨.trySend shard job, true⟩, ⟨.count .queueDepth 1, ()⟩]
  | refused : Dispatched shard job false
      [⟨.lifetimeErr, false⟩, ⟨.trySend shard job, false⟩, ⟨.count .queueDrops 1, ()⟩]
  | ended : Dispatched shard job false [⟨.lifetimeErr, true⟩]

/-- A job is handed to its shard, or not. -/
theorem history_dispatch (job : SendJob size) :
    (dispatch rt job).wp (history size) es fun sent es' =>
      ∃ es₁, es' = es ++ es₁ ∧ Dispatched (rt.shardOf job.associationID) job sent es₁ := by
  refine wp_seq (history_perform .lifetimeErr) fun ended es₁ h₁ => ?_
  subst h₁
  cases ended with
  | true => exact ⟨_, rfl, .ended⟩
  | false =>
      refine wp_seq (history_perform (.trySend (rt.shardOf job.associationID) job))
        fun sent es₂ h₂ => ?_
      subst h₂
      cases sent with
      | true =>
          refine wp_seq (history_perform (.count .queueDepth 1)) fun _ es₃ h₃ => ?_
          exact ⟨_, by rw [h₃, List.append_assoc, List.append_assoc]; rfl, .queued⟩
      | false =>
          refine wp_seq (history_perform (.count .queueDrops 1)) fun _ es₃ h₃ => ?_
          exact ⟨_, by rw [h₃, List.append_assoc, List.append_assoc]; rfl, .refused⟩

/-- A packet that passes the checks of `processInbound`. -/
theorem history_accept {pkt : InboundPacket size} (hfrag : pkt.frag = 0)
    (hauth : isAuthorized pkt.src a.srcIP = true) :
    (processInbound rt a b pkt).wp (history size) es fun p es' => p.2 = true ∧
      ∃ f es₁, es' = es ++ ⟨.storePort pkt.src.port.toUInt32, ()⟩ :: es₁ ∧
        Routed rt a b pkt f es₁ p.1 := by
  simp only [processInbound, hfrag, hauth, ne_eq, not_true_eq_false, Bool.not_true,
    Bool.false_eq_true, if_false]
  refine wp_seq (history_perform (.storePort pkt.src.port.toUInt32)) fun _ es₁ h₁ => ?_
  cases hdst : pkt.dst with
  | socket ap => exact ⟨rfl, _, [], h₁, .direct ap hdst⟩
  | domain name port =>
      refine wp_seq (history_cachedTargetForFamily name port) ?_
      rintro target es₂ ⟨cached, rfl, htarget⟩
      subst h₁
      cases target with
      | some target =>
          exact ⟨rfl, _, _, List.append_assoc _ _ _,
            .cached name port hdst cached target htarget.symm⟩
      | none =>
          refine wp_seq (history_dispatch (a.job pkt name port)) ?_
          rintro sent es₃ ⟨es₁, rfl, hsent⟩
          cases hsent with
          | queued =>
              exact ⟨rfl, _, _, by rw [List.append_assoc, List.append_assoc]; rfl,
                .queued name port hdst cached htarget.symm⟩
          | refused =>
              refine wp_seq (history_releaseBuffer pkt.buffer pkt.batchSlot) fun _ es₄ h₄ => ?_
              refine ⟨rfl, _, _, ?_, .refused name port hdst cached htarget.symm⟩
              rw [h₄, List.append_assoc, List.append_assoc, List.append_assoc]
              rfl
          | ended =>
              refine wp_seq (history_releaseBuffer pkt.buffer pkt.batchSlot) fun _ es₄ h₄ => ?_
              refine ⟨rfl, _, _, ?_, .ended name port hdst cached htarget.symm⟩
              rw [h₄, List.append_assoc, List.append_assoc, List.append_assoc]
              rfl

/-- A packet that fails one of the checks of `processInbound`. -/
theorem history_reject {pkt : InboundPacket size} {c : Counter}
    (h : pkt.frag ≠ 0 ∧ c = .fragmentDrops ∨
      pkt.frag = 0 ∧ isAuthorized pkt.src a.srcIP = false ∧ c = .unauthorizedDrops) :
    (processInbound rt a b pkt).wp (history size) es fun p es' =>
      p = (b, false) ∧ es' = es ++ ⟨.count c 1, ()⟩ :: releaseEvents pkt.buffer pkt.batchSlot := by
  obtain ⟨hfrag, rfl⟩ | ⟨hfrag, hauth, rfl⟩ := h
  · rw [processInbound, if_pos hfrag]
    exact history_drop _ _ _ ⟨rfl, rfl⟩
  · rw [processInbound, if_neg (not_not.mpr hfrag), if_pos (by rw [hauth]; rfl)]
    exact history_drop _ _ _ ⟨rfl, rfl⟩

/-- The loop body of `inboundPump` gives every packet one of its fates. -/
theorem history_relayPacket (packet : ReadPacket size) :
    (relayPacket rt a b packet).wp (history size) es fun b' es' =>
      ∃ f es₁, es' = es ++ es₁ ∧ Fated rt a b packet f es₁ b' := by
  simp only [relayPacket]
  split_ifs with htrunc
  · exact history_drop _ _ _ ⟨_, _, rfl, .dropped _ (by simp [Association.verdict, htrunc])⟩
  refine wp_bind.mpr (wp_slice_of_fault trivial ?_)
  simp only [List.drop_zero, Nat.sub_zero]
  cases hparse : parseUdpHeader (packet.buffer.bytes.take packet.n) with
  | error err =>
      exact history_drop _ _ _
        ⟨_, _, rfl, .dropped _ (by simp [Association.verdict, htrunc, hparse])⟩
  | ok parsed =>
      obtain ⟨hdr, hlen⟩ := parsed
      refine wp_bind.mpr (wp_slice_of_fault trivial ?_)
      -- the verdict follows the checks of `processInbound`
      obtain ⟨c, hverdict, hreject⟩ | ⟨hfrag, hauth⟩ : (∃ c, a.verdict packet = .error c ∧
          (hdr.frag ≠ 0 ∧ c = .fragmentDrops ∨
            hdr.frag = 0 ∧ isAuthorized packet.addr a.srcIP = false ∧ c = .unauthorizedDrops)) ∨
          hdr.frag = 0 ∧ isAuthorized packet.addr a.srcIP = true := by
        by_cases hfrag : hdr.frag = 0
        · cases hauth : isAuthorized packet.addr a.srcIP with
          | true => exact .inr ⟨hfrag, rfl⟩
          | false =>
              refine .inl ⟨.unauthorizedDrops, ?_, .inr ⟨hfrag, rfl, rfl⟩⟩
              simp [Association.verdict, htrunc, hparse, hfrag, hauth]
        · refine .inl ⟨.fragmentDrops, ?_, .inl ⟨hfrag, rfl⟩⟩
          simp [Association.verdict, htrunc, hparse, hfrag]
      · refine wp_seq (history_reject hreject) ?_
        rintro _ es' ⟨rfl, hes'⟩
        simp only [Bool.or_false]
        exact ⟨_, _, hes', .dropped c hverdict⟩
      · have hverdict : a.verdict packet = .ok (packet.parsed hdr hlen) := by
          simp [Association.verdict, htrunc, hparse, hfrag, hauth]
        refine wp_seq (history_accept hfrag hauth) ?_
        rintro ⟨b', _⟩ es' ⟨rfl, f, es₁, hes', hrouted⟩
        simp only [Bool.or_true]
        exact ⟨f, _, hes', .accepted _ hverdict hrouted⟩

end Relay

/-! ## One fate each -/

/-- The counters of dropped packets. -/
def Counter.isDrop : Counter → Bool
  | .truncatedDrops | .malformedDrops | .fragmentDrops | .unauthorizedDrops => true
  | _ => false

/-- The fate an operation decides. -/
def Event.fate? : Event size → Option Fate
  | ⟨.count c _, _⟩ => if c.isDrop then some (.dropped c) else none
  | ⟨.trySend _ _, true⟩ => some .queued
  | ⟨.trySend _ _, false⟩ => some .refused
  | ⟨.lifetimeErr, true⟩ => some .refused
  | _ => none

/-- The fate of a packet, read off its operations and the batches before and after. -/
def fateOf (b : Batches size) (es : List (Event size)) (b' : Batches size) : Fate :=
  match es.findSome? Event.fate? with
  | some f => f
  | none =>
      if b'.fallbackBatch.length = b.fallbackBatch.length then .batched .preferred
      else .batched .fallback

section Each

variable {rt : Runtime} {a : Association} {b b' : Batches size} {es : List (Event size)} {f : Fate}

/-- A datagram that does not pass is counted as dropped. -/
theorem isDrop_of_verdict {packet : ReadPacket size} {c : Counter}
    (h : a.verdict packet = .error c) : c.isDrop = true := by
  unfold Association.verdict at h
  repeat' split at h
  all_goals cases h <;> rfl

/-- A packet in a batch. -/
theorem fateOf_enqueue (pkt : InboundPacket size) (target : AddrPort)
    (hes : es.findSome? Event.fate? = none) :
    fateOf b es ((b.accept pkt).enqueue a pkt target).activate = .batched (a.sockFor target) := by
  simp only [fateOf, hes, Batches.enqueue, Association.sockFor]
  split_ifs <;> simp_all [Batches.activate, Batches.accept]

/-- The fate of an accepted datagram can be read off its entries. -/
theorem Routed.fateOf_eq {pkt : InboundPacket size} (h : Routed rt a b pkt f es b') :
    fateOf b (⟨.storePort pkt.src.port.toUInt32, ()⟩ :: es) b'.activate = f := by
  cases h with
  | direct ap hdst => exact fateOf_enqueue pkt _ rfl
  | cached name port hdst cached target htarget => exact fateOf_enqueue pkt _ rfl
  | queued name port hdst cached htarget => rfl
  | refused name port hdst cached htarget => rfl
  | ended name port hdst cached htarget => rfl

/-- So can that of any datagram. -/
theorem Fated.fateOf_eq {packet : ReadPacket size} (h : Fated rt a b packet f es b') :
    fateOf b es b' = f := by
  cases h with
  | dropped c hverdict => simp [fateOf, Event.fate?, isDrop_of_verdict hverdict]
  | accepted pkt hverdict hrouted => exact hrouted.fateOf_eq

/-- Each packet of a list has exactly one fate, one after the other. -/
inductive FatedEach (rt : Runtime) (a : Association) :
    List (ReadPacket size) → Batches size → List (Event size) → Batches size → Prop where
  | nil (b : Batches size) : FatedEach rt a [] b [] b
  | cons {packet : ReadPacket size} {rest : List (ReadPacket size)} {b b₁ b' : Batches size}
      {es es' : List (Event size)} (h : ∃! f, Fated rt a b packet f es b₁)
      (hrest : FatedEach rt a rest b₁ es' b') : FatedEach rt a (packet :: rest) b (es ++ es') b'

/-- Every packet of a read has its fate, in order. -/
theorem history_relayPackets (packets : List (ReadPacket size)) :
    (packets.foldlM (relayPacket rt a) b).wp (history size) es fun b' es' =>
      ∃ es₁, es' = es ++ es₁ ∧ FatedEach rt a packets b es₁ b' := by
  induction packets generalizing b es with
  | nil => exact ⟨[], (List.append_nil es).symm, .nil b⟩
  | cons packet rest ih =>
      rw [List.foldlM_cons]
      refine wp_seq (history_relayPacket packet) ?_
      rintro b₁ _ ⟨f, es₁, rfl, hf⟩
      refine wp_mono ih ?_
      rintro b' _ ⟨es₂, rfl, hrest⟩
      have hunique : ∃! f, Fated rt a b packet f es₁ b₁ :=
        ⟨f, hf, fun f' hf' => by rw [← hf'.fateOf_eq, hf.fateOf_eq]⟩
      exact ⟨es₁ ++ es₂, List.append_assoc _ _ _, .cons hunique hrest⟩

/-- A loop of `inboundPump` that is over has given each packet exactly one fate. -/
theorem fatedEach_of_after {packets : List (ReadPacket size)}
    (h : (packets.foldlM (relayPacket rt a) b).After es (.ret b')) :
    FatedEach rt a packets b es b' := by
  obtain ⟨es₁, hes, heach⟩ := h.wp_logging (history_relayPackets packets)
  rw [List.nil_append] at hes
  rwa [hes]

end Each

/-! ## Calls of the pump -/

/-- The batches a call starts with. -/
def InboundPump.batches (st : InboundPump size) : Batches size :=
  ⟨st.preferredBatch, st.fallbackBatch, 0, 0, false⟩

/-- The read of a call. -/
def Association.readPackets (a : Association) (rt : Runtime) (st : InboundPump size) :
    Relay size (Except NetError (List (ReadPacket size)) × Bool) :=
  (a.inboundReader rt).read rt st.batchDisabled

/-- The end of a call that has relayed its packets. -/
def Association.finishCall (a : Association) (rt : Runtime) (b : Batches size)
    (batchDisabled : Bool) : Relay size (Option (InboundPump size)) := do
  let fallbackBatch ← a.flushBatches rt b
  onlyIf b.active (perform .touch)
  return some ⟨batchDisabled, [], fallbackBatch⟩

/-- What a call of `inboundPump` has done so far.  The packets that the reader returned get
their fates in turn: those before the one at hand have each got exactly one. -/
inductive Calling (rt : Runtime) (a : Association) (st : InboundPump size) :
    List (Event size) → Prop where
  | reading {es : List (Event size)} {p} (h : (a.readPackets rt st).After es p) : Calling rt a st es
  | failed {es es₁ : List (Event size)} {err : NetError} {disabled : Bool} {p}
      (hread : (a.readPackets rt st).After es (.ret (.error err, disabled)))
      (h : (reportRead err).After es₁ p) : Calling rt a st (es ++ es₁)
  | relaying {es es₁ es₂ : List (Event size)} {done rest : List (ReadPacket size)}
      {packet : ReadPacket size} {disabled : Bool} {b : Batches size} {p}
      (hread : (a.readPackets rt st).After es (.ret (.ok (done ++ packet :: rest), disabled)))
      (hdone : FatedEach rt a done st.batches es₁ b) (h : (relayPacket rt a b packet).After es₂ p) :
      Calling rt a st (es ++ (es₁ ++ es₂))
  | finishing {es es₁ es₂ : List (Event size)} {packets : List (ReadPacket size)} {disabled : Bool}
      {b : Batches size} {p}
      (hread : (a.readPackets rt st).After es (.ret (.ok packets, disabled)))
      (hdone : FatedEach rt a packets st.batches es₁ b)
      (h : (a.finishCall rt b disabled).After es₂ p) : Calling rt a st (es ++ (es₁ ++ es₂))

/-- A call of `inboundPump` that is followed by another: each packet that the reader returned
has got exactly one fate. -/
inductive Called (rt : Runtime) (a : Association) (st : InboundPump size) :
    List (Event size) → InboundPump size → Prop where
  | mk {es es₁ es₂ : List (Event size)} {packets : List (ReadPacket size)} {disabled : Bool}
      {b : Batches size} {st' : InboundPump size}
      (hread : (a.readPackets rt st).After es (.ret (.ok packets, disabled)))
      (hdone : FatedEach rt a packets st.batches es₁ b)
      (h : (a.finishCall rt b disabled).After es₂ (.ret (some st'))) :
      Called rt a st (es ++ (es₁ ++ es₂)) st'

/-- What the request thread of an association has done, call after call. -/
inductive Served (rt : Runtime) (a : Association) :
    InboundPump size → List (Event size) → Prop where
  | idle (st : InboundPump size) : Served rt a st []
  | now {st : InboundPump size} {es : List (Event size)} (h : Calling rt a st es) :
      Served rt a st (⟨.pump .inbound, ()⟩ :: es)
  | next {st st' : InboundPump size} {es es' : List (Event size)} (h : Called rt a st es st')
      (hrest : Served rt a st' es') : Served rt a st (⟨.pump .inbound, ()⟩ :: es ++ es')

section Calls

variable {rt : Runtime} {a : Association} {st : InboundPump size} {es : List (Event size)}

/-- The entries of a call of the pump that is still running. -/
theorem calling_of_after {p : Relay size (Option (InboundPump size))}
    (h : (inboundPump rt a st).After es p) : Calling rt a st es := by
  obtain ⟨p', hread, -⟩ | ⟨es₁, es₂, ⟨res, disabled⟩, rfl, hread, h⟩ := h.of_bind
  · exact .reading hread
  cases res with
  | error err =>
      obtain ⟨p', hreport, -⟩ | ⟨es₃, es₄, _, rfl, hreport, h⟩ := h.of_bind
      · exact .failed hread hreport
      · obtain ⟨rfl, -⟩ := h.eq_of_ret
        rw [List.append_nil]
        exact .failed hread hreport
  | ok packets =>
      obtain ⟨p', hrelay, -⟩ | ⟨es₃, es₄, b, rfl, hrelay, h⟩ := h.of_bind
      · obtain ⟨b, rfl⟩ | ⟨done, packet, rest, b, es₃, es₄, p', rfl, rfl, hdone, hpacket⟩ :=
          hrelay.of_foldlM
        · rw [← List.append_nil es₂]
          exact .finishing hread (fatedEach_of_after hrelay) .start
        · exact .relaying hread (fatedEach_of_after hdone) hpacket
      · exact .finishing hread (fatedEach_of_after hrelay) h

/-- And of one that has returned. -/
theorem called_of_after {st' : InboundPump size}
    (h : (inboundPump rt a st).After es (.ret (some st'))) : Called rt a st es st' := by
  obtain ⟨es₁, es₂, ⟨res, disabled⟩, rfl, hread, h⟩ := h.of_bind_ret
  cases res with
  | error err =>
      obtain ⟨es₃, es₄, _, rfl, hreport, h⟩ := h.of_bind_ret
      cases h.eq_of_ret.2
  | ok packets =>
      obtain ⟨es₃, es₄, b, rfl, hrelay, h⟩ := h.of_bind_ret
      exact .mk hread (fatedEach_of_after hrelay) h

/-- The calls of the pump, one after the other. -/
theorem served_of_rounds (h : Rounds (fun st => do
    perform (.pump .inbound)
    inboundPump rt a st) st es) : Served rt a st es := by
  induction h with
  | now hnow =>
      obtain rfl | ⟨_, es', rfl, hcall⟩ := hnow.of_step
      · exact .idle _
      · exact .now (calling_of_after hcall)
  | next hnext _ ih =>
      obtain rfl | ⟨_, es', rfl, hcall⟩ := hnext.of_step
      · cases hnext.eq_of_nil
      · exact .next (called_of_after hcall) ih

/-- Any run of a request thread, to its end or not, gives each packet that its reader returns
exactly one fate. -/
theorem served_of_after {rounds : Nat} {es : List (Event rt.bufferSize)}
    {q : Relay rt.bufferSize Unit} (h : (inboundThread rt a rounds).After es q) :
    Served rt a ⟨false, [], []⟩ es := served_of_rounds h.rounds

end Calls

end Outway.Udp
