import Outway.Udp.Runtime

/-!
# Outway.Udp.Batch

The Linux batch reader and the batch writers.

A reader returns the packets of one blocking read: `readGRO` splits a coalesced
read into its segments, `readBatch` adds what a non-blocking batch read finds
behind the first datagram.  `linuxUDPBatchWriter.Write` sends a batch with
`sendmmsg`, `sendUDPGSO` a uniform batch with `UDP_SEGMENT`.

The scratch arrays a reader or writer keeps between calls are filled from the
front on every call before they are read, so the model keeps their filled part
and checks it against their length.
-/

namespace Outway.Udp

open Socks (addrIPv4 addrIPv6 appendUint16)

variable {size : Nat}

/-! ## Reading -/

/-- `linuxUDPBatchReader`; `gro` is set when `UDP_GRO` is configured, supported and
could be enabled on the socket. -/
structure BatchReader where
  sock : Sock
  offset : Nat
  limit : Nat
  gro : Bool

/-- `newUDPBatchReader`; `enabled` says whether `enableUDPGRO` succeeds. -/
def newUDPBatchReader (rt : Runtime) (sock : Sock) (enabled : Bool) (offset limit : Nat) :
    BatchReader where
  sock := sock
  offset := offset
  limit := limit
  gro := rt.gro && rt.groSupported && enabled

def groMaxSegments : Nat := 64

/-- `len(r.groOOB)`. -/
def groOOBLen : Nat := 128

/-- `unix.IPPROTO_UDP`. -/
def ipprotoUDP : Nat := 17

/-- `unix.UDP_GRO`. -/
def udpGRO : Nat := 104

/-- `binary.NativeEndian` on the little-endian hosts the proxy is built for. -/
def nativeUint (data : List UInt8) : Nat := data.foldr (fun b acc => b.toNat + 256 * acc) 0

/-- The loop of `parseGROSize` over the control messages. -/
def groSizeOf : List ControlMessage → Nat
  | [] => 0
  | m :: rest =>
      if m.level ≠ ipprotoUDP ∨ m.type ≠ udpGRO then groSizeOf rest
      else if 4 ≤ m.data.length then nativeUint (m.data.take 4)
      else if 2 ≤ m.data.length then nativeUint (m.data.take 2)
      else groSizeOf rest

/-- `parseGROSize`: the segment size of a coalesced read, zero otherwise. -/
def parseGROSize {len oobLen : Nat} (msg : ReadMsg len oobLen) : Nat :=
  if msg.oobn = 0 then 0
  else
    match msg.control with
    | .error _ => 0
    | .ok messages => groSizeOf messages

/-- The number of segments of a coalesced read of `n` bytes. -/
def segmentCount (n segmentSize : Nat) : Nat :=
  if 0 < n % segmentSize then n / segmentSize + 1 else n / segmentSize

/-- The length of segment `i`. -/
def segmentLen (n segmentSize i : Nat) : Nat :=
  if i = n / segmentSize then n % segmentSize else segmentSize

/-- One round of the split in `readGRO`: segment `i` goes into a buffer of its own. -/
def copySegment (r : BatchReader) (buffer : Buffer size) (src : AddrPort) (n segmentSize : Nat)
    (packets : List (ReadPacket size)) (i : Nat) : Relay size (List (ReadPacket size)) := do
  let len := segmentLen n segmentSize i
  let copied ← getBuffer
  let start := r.offset + i * segmentSize
  let _ ← copied.slice r.offset (r.offset + len)
  let segment ← buffer.slice start (start + len)
  push groMaxSegments packets ⟨copied.overwrite r.offset segment.bytes, len, src, false, false⟩

/-- The split of a coalesced read: the first segment stays in the buffer that was read
to, the others are copied out. -/
def splitSegments (r : BatchReader) (buffer : Buffer size) (src : AddrPort) (n segmentSize : Nat) :
    Relay size (List (ReadPacket size)) := do
  let segments := segmentCount n segmentSize
  onlyIf (groMaxSegments < segments) (count .groTruncatedReads 1)
  count .groCoalescedReads 1
  let packets ← push groMaxSegments [] ⟨buffer, segmentSize, src, false, false⟩
  (List.range' 1 (min segments groMaxSegments - 1)).foldlM
    (copySegment r buffer src n segmentSize) packets

/-- The packets of a successful read of `readGRO`. -/
def groPackets (r : BatchReader) (buffer : Buffer size) {len : Nat} (msg : ReadMsg len groOOBLen) :
    Relay size (List (ReadPacket size)) := do
  let n := msg.data.length
  if msg.msgTrunc then push groMaxSegments [] ⟨buffer, n, msg.addr, true, false⟩
  else
    -- r.groOOB[:oobn]
    checkLen msg.oobn groOOBLen
    let segmentSize := parseGROSize msg
    if segmentSize = 0 ∨ r.limit < segmentSize ∨ n ≤ segmentSize then
      push groMaxSegments [] ⟨buffer, n, msg.addr, r.limit < n, false⟩
    else splitSegments r buffer msg.addr n segmentSize

/-- `readGRO` performs one blocking read on a `UDP_GRO` socket, into the whole rest of
the buffer, and splits what the kernel coalesced back into packets. -/
def readGRO (r : BatchReader) : Relay size (Except NetError (List (ReadPacket size))) := do
  let buffer ← getBuffer
  let into ← buffer.window r.offset size
  match ← perform (.readMsgUDP r.sock into groOOBLen) with
  | .error err =>
      putBuffer buffer
      return .error err
  | .ok msg => return .ok (← groPackets r (buffer.overwrite r.offset msg.data) msg)

/-- The loop of `readBatch` that takes budgeted buffers for the batch read, `todo` of
them at most.  `bufs` and `msgs` are the filled parts of `r.bufs` and `r.v4msgs`
(or `r.v6msgs`). -/
def takeExtraBuffers (rt : Runtime) (r : BatchReader) :
    Nat → List (Buffer size) → List Window → Relay size (List (Buffer size) × List Window)
  | 0, bufs, msgs => pure (bufs, msgs)
  | todo + 1, bufs, msgs => do
      if ← tryAcquireBatchBuffer rt then
        let buf ← getBuffer
        let bufs ← push rt.batchSize bufs buf
        let into ← buf.window r.offset (r.offset + r.limit + 1)
        let msgs ← push (rt.batchSize - 1) msgs into
        takeExtraBuffers rt r todo bufs msgs
      else return (bufs, msgs)

/-- The packet made of one message of the batch read and the buffer it was read to. -/
def drainedPacket (r : BatchReader) (m : RecvMsg) (buf : Buffer size) : ReadPacket size :=
  ⟨buf.overwrite r.offset m.data, m.data.length, m.addr,
    m.msgTrunc || r.limit < m.data.length, true⟩

/-- The batch read of `readBatch` into the extra buffers `bufs[1:]`: what was read is
added to `packets`, the buffers left over are released. -/
def drainBatch (rt : Runtime) (r : BatchReader) (packets : List (ReadPacket size))
    (bufs : List (Buffer size)) (msgs : List Window) :
    Relay size (List (ReadPacket size) × Bool) := do
  match ← perform (.readBatch r.sock msgs) with
  | .error err =>
      bufs.tail.forM (releaseBuffer · true)
      if err = .wouldBlock then return (packets, false)
      else
        count .batchFallbacks 1
        return (packets, true)
  | .ok drained =>
      let packets ← (drained.messages.zip bufs.tail).foldlM
        (fun packets p => push rt.batchSize packets (drainedPacket r p.1 p.2)) packets
      (bufs.drop (drained.messages.length + 1)).forM (releaseBuffer · true)
      return (packets, false)

/-- The packets of a successful blocking read of `readBatch`, and the reader's
`batchDisabled` after it. -/
def batchPackets (rt : Runtime) (r : BatchReader) (batchDisabled : Bool) (first : Buffer size)
    {len : Nat} (msg : ReadMsg len 0) : Relay size (List (ReadPacket size) × Bool) := do
  let n := msg.data.length
  let bufs ← push rt.batchSize [] first
  let packets ← push rt.batchSize [] ⟨first, n, msg.addr, msg.msgTrunc || r.limit < n, false⟩
  if rt.batchSize = 1 then return (packets, batchDisabled)
  else if batchDisabled then return (packets, batchDisabled)
  else
    let (bufs, msgs) ← takeExtraBuffers rt r (rt.batchSize - 1) bufs []
    if msgs.length = 0 then return (packets, batchDisabled)
    else drainBatch rt r packets bufs msgs

/-- `readBatch`: one blocking read, then a non-blocking batch read into buffers taken
against the budget. -/
def readBatch (rt : Runtime) (r : BatchReader) (batchDisabled : Bool) :
    Relay size (Except NetError (List (ReadPacket size)) × Bool) := do
  let first ← getBuffer
  let into ← first.window r.offset (r.offset + r.limit + 1)
  match ← perform (.readMsgUDP r.sock into 0) with
  | .error err =>
      putBuffer first
      return (.error err, batchDisabled)
  | .ok msg =>
      let (packets, batchDisabled) ←
        batchPackets rt r batchDisabled (first.overwrite r.offset msg.data) msg
      return (.ok packets, batchDisabled)

/-- `Read`. -/
def BatchReader.read (rt : Runtime) (r : BatchReader) (batchDisabled : Bool) :
    Relay size (Except NetError (List (ReadPacket size)) × Bool) := do
  if r.gro then return (← readGRO r, batchDisabled)
  else readBatch rt r batchDisabled

/-! ## Writing -/

/-- `setUDPAddr`: the address as bytes of its own family, without its zone. -/
def setUDPAddr (ap : AddrPort) : UDPAddr :=
  if ap.addr.is4 then ⟨ap.addr.as4.toList, ap.port⟩ else ⟨ap.addr.as16.toList, ap.port⟩

/-- The message `Write` makes of a packet. -/
def WritePacket.message (packet : WritePacket size) : Message :=
  ⟨packet.buffer, setUDPAddr packet.addr⟩

/-- The loop of `writeIPv4Messages` and `writeIPv6Messages` over the messages not yet
sent.  Every round that goes on has sent one at least, so as many rounds as there
are messages are enough.  The count of a failed call is added like any other. -/
def writeMessages (sock : Sock) :
    Nat → List Message → Int → Relay size (Int × Option NetError)
  | 0, _, total => pure (total, none)
  | _ + 1, [], total => pure (total, none)
  | rounds + 1, m :: rest, total => do
      let written ← perform (.writeBatch sock (m :: rest))
      match written.err with
      | some err => return (total + written.n, some err)
      | none =>
          if written.n = 0 then return (total, none)
          else writeMessages sock rounds ((m :: rest).drop written.n.toNat) (total + written.n)

def writeIPv4Messages (sock : Sock) (messages : List Message) :
    Relay size (Int × Option NetError) :=
  writeMessages sock messages.length messages 0

def writeIPv6Messages (sock : Sock) (messages : List Message) :
    Relay size (Int × Option NetError) :=
  writeMessages sock messages.length messages 0

/-- `linuxUDPBatchWriter`: the socket, its family, and the number of messages its
scratch arrays hold. -/
structure BatchWriter where
  sock : Sock
  v4 : Bool
  batchSize : Nat

/-- `Write`. -/
def BatchWriter.write (w : BatchWriter) (packets : List (WritePacket size)) :
    Relay size (Int × Option NetError) := do
  if packets.length = 0 then return (0, none)
  else
    -- w.v4msgs[:len(packets)], w.v6msgs[:len(packets)]
    checkLen packets.length w.batchSize
    let messages := packets.map WritePacket.message
    if w.v4 then writeIPv4Messages w.sock messages else writeIPv6Messages w.sock messages

/-! ## Segmented sends -/

def gsoMaxSegments : Nat := 64

def gsoScratchBytes : Nat := 64 * 1024

/-- The loop of `gsoEligible` over the packets after the first. -/
def gsoUniform (dst : AddrPort) (length : Nat) : List (WritePacket size) → Bool
  | [] => true
  | [last] => last.addr = dst && last.buffer.bytes.length ≤ length
  | p :: rest => p.addr = dst && p.buffer.bytes.length = length && gsoUniform dst length rest

/-- `gsoEligible`: the segment size when the whole batch can be one segmented send. -/
def gsoEligible (enabled : Bool) (batch : List (WritePacket size)) : Option Nat :=
  match batch with
  | first :: second :: rest =>
      let length := first.buffer.bytes.length
      if enabled && length ≠ 0 && gsoUniform first.addr length (second :: rest) then some length
      else none
  | _ => none

/-- `sockaddrFromAddrPort`. -/
def sockaddrFromAddrPort (ap : AddrPort) : Option Sockaddr :=
  if ap.addr.is4 then some (.inet4 ap.port ap.addr.as4)
  else if ap.addr.is6 then some (.inet6 ap.port ap.addr.as16)
  else none

/-- How many packets fit into one segmented send that already holds `segments` of
them, `total` bytes long. -/
def gsoPack : List (WritePacket size) → Nat → Nat → Nat
  | [], _, segments => segments
  | p :: rest, total, segments =>
      if segments < gsoMaxSegments ∧ total + p.buffer.bytes.length ≤ gsoScratchBytes then
        gsoPack rest (total + p.buffer.bytes.length) (segments + 1)
      else segments

/-- The loop of `sendUDPGSO` over the packets not yet sent. -/
def sendSegments (sock : Sock) (sa : Sockaddr) (segment : UInt16) :
    Nat → List (WritePacket size) → Nat → Relay size (Nat × Option NetError)
  | 0, _, sent => pure (sent, none)
  | _ + 1, [], sent => pure (sent, none)
  | rounds + 1, p :: rest, sent => do
      let segments := gsoPack (p :: rest) 0 0
      if segments = 0 then return (sent, some .msgSize)
      else
        let payloads := ((p :: rest).take segments).map WritePacket.buffer
        match ← perform (.sendmsgN sock payloads segment sa) with
        | some err => return (sent, some err)
        | none => sendSegments sock sa segment rounds ((p :: rest).drop segments) (sent + segments)

/-- `sendUDPGSO`. -/
def sendUDPGSO (sock : Sock) (batch : List (WritePacket size)) (gsoSize : Nat) :
    Relay size (Nat × Option NetError) :=
  match batch with
  | [] => pure (0, none)
  | p :: _ =>
      match sockaddrFromAddrPort p.addr with
      | none => pure (0, some .afNoSupport)
      | some sa => sendSegments sock sa (UInt16.ofNat gsoSize) batch.length batch 0

end Outway.Udp
