import Outway.Udp.Batch

/-!
# Outway.Udp.Association

One UDP association: the request pump `inboundPump` with `processInbound` and
`flushBatch`, the response pump `pumpOnce`, and the threads that call them.

Each socket's pump is called from one thread at a time, by the reactor or by the
goroutine of the socket, so a pump is a sequential program here and its
association's pumps run next to each other.
-/

namespace Outway.Udp

open Socks (Address addrIPv4 addrIPv6 appendUint16 buildUdpPacket parseUdpHeader udpHeaderMaxLen)

variable {size : Nat}

/-- What `handleUDP` has settled before the pumps start. -/
structure Association where
  /-- names the association in the jobs it dispatches -/
  index : Nat
  associationID : UInt64
  /-- the authorized source address -/
  srcIP : Addr
  inboundV4 : Bool
  preferredV4 : Bool
  /-- the family of the fallback socket, if there is one -/
  fallbackV4 : Option Bool
  /-- whether `enableUDPGRO` succeeds on a socket -/
  groEnabled : Sock → Bool

/-! ## Requests -/

/-- `isAuthorized`. -/
def isAuthorized (src : AddrPort) (expected : Addr) : Bool :=
  src.addr = expected ||
    (src.addr.is4In6 && expected.is4 && src.addr.unmap = expected) ||
    (src.addr.is4 && expected.is4In6 && expected.unmap = src.addr)

/-- `cachedTargetForFamily`: a cached address whose family has an outbound socket. -/
def cachedTargetForFamily (domain : List UInt8) (port : UInt16) (preferredV4 : Bool)
    (fallbackV4 : Option Bool) : Relay size (Option AddrPort) := do
  match ← perform (.lookupCachedHost domain) with
  | none => return none
  | some addrs =>
      let served (ip : Addr) : Bool := preferredV4 = ip.is4 || fallbackV4 = some ip.is4
      return ((addrs.map Addr.unmap).find? served).map fun ip => ⟨ip, port⟩

/-- What one call of `inboundPump` accumulates. -/
structure Batches (size : Nat) where
  preferredBatch : List (WritePacket size)
  fallbackBatch : List (WritePacket size)
  batchInPackets : Nat
  batchInBytes : Nat
  active : Bool

/-- Append a packet to the batch of the socket that serves the target's family. -/
def Batches.enqueue (b : Batches size) (a : Association) (pkt : InboundPacket size)
    (target : AddrPort) : Batches size :=
  let write : WritePacket size := ⟨pkt.payload, pkt.buffer, target, pkt.batchSlot⟩
  if a.preferredV4 ≠ target.addr.is4 ∧ a.fallbackV4 = some target.addr.is4 then
    { b with fallbackBatch := b.fallbackBatch ++ [write] }
  else { b with preferredBatch := b.preferredBatch ++ [write] }

/-- Count an accepted packet. -/
def Batches.accept (b : Batches size) (pkt : InboundPacket size) : Batches size :=
  { b with
    batchInPackets := b.batchInPackets + 1
    batchInBytes := b.batchInBytes + pkt.payload.bytes.length }

/-- The send job of a packet with an unresolved target. -/
def Association.job (a : Association) (pkt : InboundPacket size) (host : List UInt8)
    (port : UInt16) : SendJob size :=
  ⟨a.associationID, a.index, pkt, host, port⟩

/-- `processInbound`; the result says whether the packet counts as activity. -/
def processInbound (rt : Runtime) (a : Association) (b : Batches size)
    (pkt : InboundPacket size) : Relay size (Batches size × Bool) := do
  if pkt.frag ≠ 0 then
    count .fragmentDrops 1
    releaseInboundPacket pkt
    return (b, false)
  else if !isAuthorized pkt.src a.srcIP then
    count .unauthorizedDrops 1
    releaseInboundPacket pkt
    return (b, false)
  else
    perform (.storePort pkt.src.port.toUInt32)
    let b := b.accept pkt
    match pkt.dst with
    | .socket ap => return (b.enqueue a pkt ⟨ap.addr.unmap, ap.port⟩, true)
    | .domain name port =>
        match ← cachedTargetForFamily name port a.preferredV4 a.fallbackV4 with
        | some target => return (b.enqueue a pkt target, true)
        | none =>
            if ← dispatch rt (a.job pkt name port) then return (b, true)
            else
              releaseInboundPacket pkt
              return (b, true)

/-- The loop body of `inboundPump`. -/
def relayPacket (rt : Runtime) (a : Association) (b : Batches size) (packet : ReadPacket size) :
    Relay size (Batches size) := do
  if packet.truncated then
    count .truncatedDrops 1
    releaseReadPacket packet
    return b
  else
    let datagram ← packet.buffer.slice 0 packet.n
    match parseUdpHeader datagram.bytes with
    | .error _ =>
        count .malformedDrops 1
        releaseReadPacket packet
        return b
    | .ok (hdr, hlen) =>
        let payload ← packet.buffer.slice hlen packet.n
        let (b, active) ← processInbound rt a b
          ⟨payload, packet.buffer, hdr.frag, hdr.address, packet.addr, packet.batchSlot⟩
        return { b with active := b.active || active }

/-- `reportUDPError` after a send that failed or fell short. -/
def reportWrite (written : Int) (writeErr : Option NetError) (expected : Nat) :
    Relay size Unit :=
  onlyIf (writeErr ≠ none ∨ written ≠ expected) do
    count .errors 1
    perform (.reportUDPError (writeErr.getD .shortWrite))

/-- The send of `flushBatch`: segmented where the batch allows it. -/
def sendBatch (rt : Runtime) (writer : BatchWriter) (batch : List (WritePacket size)) :
    Relay size (Int × Option NetError) :=
  match gsoEligible (rt.gso && rt.gsoSupported) batch with
  | some gsoSize => do
      let (written, writeErr) ← sendUDPGSO writer.sock batch gsoSize
      return (written, writeErr)
  | none => writer.write batch

/-- `flushBatch`; the batch it leaves is empty. -/
def flushBatch (rt : Runtime) (writer : BatchWriter) (batch : List (WritePacket size)) :
    Relay size Unit := do
  if batch.length = 0 then return ()
  else
    let (written, writeErr) ← sendBatch rt writer batch
    batch.forM fun write => releaseBuffer write.owner write.batchSlot
    reportWrite written writeErr batch.length

/-- The variables `inboundPump` keeps between calls. -/
structure InboundPump (size : Nat) where
  batchDisabled : Bool
  preferredBatch : List (WritePacket size)
  fallbackBatch : List (WritePacket size)

def Association.inboundReader (a : Association) (rt : Runtime) : BatchReader :=
  newUDPBatchReader rt .inbound (a.groEnabled .inbound) 0 rt.maxPacketSize

def Association.preferredWriter (a : Association) (rt : Runtime) : BatchWriter :=
  ⟨.preferred, a.preferredV4, rt.batchSize⟩

def Association.fallbackWriter (a : Association) (rt : Runtime) : Option BatchWriter :=
  a.fallbackV4.map fun v4 => ⟨.fallback, v4, rt.batchSize⟩

/-- What a pump does about a read error. -/
def reportRead (err : NetError) : Relay size Unit := do
  if ← perform .ctxErr then return ()
  else if err = .closed then return ()
  else
    count .errors 1
    perform (.reportUDPError err)

/-- The end of a call of `inboundPump`: the counters and the flushes. -/
def Association.flushBatches (a : Association) (rt : Runtime) (b : Batches size) :
    Relay size (List (WritePacket size)) := do
  onlyIf (0 < b.batchInPackets) do
    count .inPackets b.batchInPackets
    count .inBytes b.batchInBytes
  flushBatch rt (a.preferredWriter rt) b.preferredBatch
  match a.fallbackWriter rt with
  | none => return b.fallbackBatch
  | some writer =>
      flushBatch rt writer b.fallbackBatch
      return []

/-- `inboundPump` reads one batch of client datagrams and forwards them; `none` when
the relay socket is done. -/
def inboundPump (rt : Runtime) (a : Association) (st : InboundPump size) :
    Relay size (Option (InboundPump size)) := do
  let (res, batchDisabled) ← (a.inboundReader rt).read rt st.batchDisabled
  match res with
  | .error err =>
      reportRead err
      return none
  | .ok packets =>
      let b ← packets.foldlM (relayPacket rt a) ⟨st.preferredBatch, st.fallbackBatch, 0, 0, false⟩
      let fallbackBatch ← a.flushBatches rt b
      onlyIf b.active (perform .touch)
      return some ⟨batchDisabled, [], fallbackBatch⟩

/-! ## Responses -/

/-- The header of a response from `remote`. -/
def responseHeader (remote : AddrPort) : List UInt8 :=
  if remote.addr.is4 then
    appendUint16 ([0, 0, 0, addrIPv4] ++ remote.addr.as4.toList) remote.port
  else appendUint16 ([0, 0, 0, addrIPv6] ++ remote.addr.as16.toList) remote.port

/-- `prepareUDPResponse` writes the header in front of the payload, in place when the
buffer has the room; it returns the response and the buffer it is part of. -/
def prepareUDPResponse (payload : Slice) (buffer : Buffer size) (remote : AddrPort) :
    Relay size (Slice × Buffer size) := do
  if udpHeaderMaxLen + payload.bytes.length ≤ size then
    let remote : AddrPort := ⟨remote.addr.unmap, remote.port⟩
    let headerLength := if remote.addr.is4 then 3 + 1 + 4 + 2 else 3 + 1 + 16 + 2
    let start := udpHeaderMaxLen - headerLength
    let _ ← buffer.slice start udpHeaderMaxLen
    let buffer := buffer.overwrite start (responseHeader remote)
    let response ← buffer.slice start (udpHeaderMaxLen + payload.bytes.length)
    return (response, buffer)
  else return (⟨none, buildUdpPacket 0 (.socket remote) payload.bytes⟩, buffer)

/-- `udpResponder` on one outbound socket, for the association it belongs to. -/
structure Responder where
  clientIP : Addr
  reader : BatchReader
  writer : BatchWriter

/-- `newUDPResponder`. -/
def newUDPResponder (rt : Runtime) (a : Association) (outbound : Sock) : Responder where
  clientIP := a.srcIP
  reader := newUDPBatchReader rt outbound (a.groEnabled outbound) udpHeaderMaxLen
    (rt.maxPacketSize - maxUDPResponseHeaderLen)
  writer := ⟨.inbound, a.inboundV4, rt.batchSize⟩

/-- The loop body of `pumpOnce`.  Each entry of `writes` has the payload length that the
source keeps in `payloadBytes` next to it. -/
def respondPacket (clientAddr : AddrPort) (writes : List (WritePacket size × Nat))
    (packet : ReadPacket size) : Relay size (List (WritePacket size × Nat)) := do
  if packet.truncated then
    count .truncatedDrops 1
    releaseReadPacket packet
    return writes
  else if clientAddr.port = 0 then
    releaseReadPacket packet
    return writes
  else
    let payload ← packet.buffer.slice udpHeaderMaxLen (udpHeaderMaxLen + packet.n)
    let (response, buffer) ← prepareUDPResponse payload packet.buffer packet.addr
    return writes ++ [(⟨response, buffer, clientAddr, packet.batchSlot⟩, packet.n)]

/-- The end of a call of `pumpOnce`: the write, the releases and the counters. -/
def Responder.respond (p : Responder) (writes : List (WritePacket size × Nat)) :
    Relay size Unit := do
  let (written, writeErr) ← p.writer.write (writes.map Prod.fst)
  let sent := writes.take written.toNat
  writes.forM fun write => releaseBuffer write.1.owner write.1.batchSlot
  onlyIf (0 < sent.length) do
    count .outPackets sent.length
    count .outBytes (sent.map Prod.snd).sum
  reportWrite written writeErr writes.length
  onlyIf (0 < written) (perform .touch)

/-- `pumpOnce` reads one batch of target responses and forwards them to the client;
`none` when the outbound socket is done. -/
def Responder.pumpOnce (rt : Runtime) (p : Responder) (batchDisabled : Bool) :
    Relay size (Option Bool) := do
  let (res, batchDisabled) ← p.reader.read rt batchDisabled
  match res with
  | .error err =>
      reportRead err
      return none
  | .ok packets =>
      let port ← perform .loadPort
      let clientAddr : AddrPort := ⟨p.clientIP, port.toUInt16⟩
      let writes ← packets.foldlM (respondPacket clientAddr) []
      p.respond writes
      return some batchDisabled

/-! ## Threads -/

/-- The request thread of an association, for `rounds` calls of its pump. -/
def inboundThread (rt : Runtime) (a : Association) (rounds : Nat) : Relay rt.bufferSize Unit :=
  Prog.iterate (.ret ()) (fun st => do
    perform (.pump .inbound)
    inboundPump rt a st) rounds ⟨false, [], []⟩

/-- The response thread of an outbound socket, for `rounds` calls of its pump. -/
def responderThread (rt : Runtime) (a : Association) (outbound : Sock) (rounds : Nat) :
    Relay rt.bufferSize Unit :=
  Prog.iterate (.ret ()) (fun batchDisabled => do
    perform (.pump outbound)
    (newUDPResponder rt a outbound).pumpOnce rt batchDisabled) rounds false

/-- A send worker, for `rounds` jobs. -/
def workerThread (rt : Runtime) (shard rounds fuel : Nat) : Relay rt.bufferSize Unit :=
  Prog.iterate (.ret ()) (fun _ => workerRound shard fuel) rounds ()

end Outway.Udp
