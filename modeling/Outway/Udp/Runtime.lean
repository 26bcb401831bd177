import Outway.Config
import Outway.Socks.Address
import Outway.Lib.Prog

/-!
# Outway.Udp.Runtime

The UDP runtime shared by all associations, and the operations its code performs.

The relay code is modelled as programs (`Prog`) over the operations `Op`: pool,
budget and queue operations of the runtime, system calls on the sockets, and the
atomics an association shares between its pumps.  The result types `Res` carry
the contracts of the kernel: a read returns at most the bytes of the slice it was
given, a batch read at most as many messages as it was given buffers, a batch
write reports at most as many messages as it was handed.  An index or a slice
expression out of range is `Prog.fault`, Go's panic.

A pooled buffer is a value with an identity.  While one owner at a time holds a
buffer, which `Outway.Udp.Ledger` proves, passing the contents along as a value
and writing them in place are the same.
-/

namespace Outway.Udp

open Socks (Address udpHeaderMaxLen)

/-! ## Configuration -/

/-- `normalizeUDPConfig` fills in defaults for zero fields. -/
def normalizeUDPConfig (cfg : UDPConfig) : UDPConfig :=
  { cfg with
    maxPacketSize := if cfg.maxPacketSize = 0 then defaultUDPMaxPacketSize else cfg.maxPacketSize
    batchSize := if cfg.batchSize = 0 then defaultUDPBatchSize else cfg.batchSize
    sendQueueSize :=
      if cfg.sendQueueSize = 0 then defaultUDPSendQueueSize else cfg.sendQueueSize }

/-- `protoUDPHeaderMaxLen`. -/
def protoUDPHeaderMaxLen : Nat := 3 + 1 + 1 + 255 + 2

/-- `maxUDPResponseHeaderLen`. -/
def maxUDPResponseHeaderLen : Nat := 3 + 1 + 16 + 2

/-- `udpRuntime`: the configuration it runs on, in the ranges validation leaves, and
what the host reports about itself. -/
structure Runtime where
  maxPacketSize : Nat
  batchSize : Nat
  batchBufferBudget : Nat
  sendQueueSize : Nat
  sendWorkers : Nat
  gso : Bool
  gro : Bool
  /-- `udpGSOSupported()` -/
  gsoSupported : Bool
  /-- `udpGROSupported()` -/
  groSupported : Bool
  /-- `runtime.GOMAXPROCS(0)` -/
  gomaxprocs : Nat
  le_maxPacketSize : 512 ≤ maxPacketSize
  maxPacketSize_le : maxPacketSize ≤ 65535
  batchSize_pos : 1 ≤ batchSize
  sendQueueSize_pos : 1 ≤ sendQueueSize

/-- A runtime that reads in batches of two, with one token in its budget. -/
def batchRuntime : Runtime where
  maxPacketSize := 512
  batchSize := 2
  batchBufferBudget := 1
  sendQueueSize := 1
  sendWorkers := 1
  gso := false
  gro := false
  gsoSupported := false
  groSupported := false
  gomaxprocs := 1
  le_maxPacketSize := by decide
  maxPacketSize_le := by decide
  batchSize_pos := by decide
  sendQueueSize_pos := by decide

/-- The host a runtime is created on. -/
structure Host where
  gsoSupported : Bool
  groSupported : Bool
  gomaxprocs : Nat

/-- Settings that pass `Validate` are taken as they are. -/
theorem normalizeUDPConfig_eq {a : BootArgs} (h : a.Accepted) :
    normalizeUDPConfig a.udp = a.udp := by
  have hmax := h.maxPacketSize
  have hbatch := h.batchSize
  have hqueue := h.sendQueueSize
  simp [normalizeUDPConfig, show a.udp.maxPacketSize ≠ 0 by omega,
    show a.udp.batchSize ≠ 0 by omega, show a.udp.sendQueueSize ≠ 0 by omega]

/-- `newUDPRuntime` on a validated configuration. -/
def newUDPRuntime (host : Host) (a : BootArgs) (h : a.Accepted) : Runtime where
  maxPacketSize := (normalizeUDPConfig a.udp).maxPacketSize.toNat
  batchSize := (normalizeUDPConfig a.udp).batchSize.toNat
  batchBufferBudget := a.udp.batchBufferBudget.toNat
  sendQueueSize := (normalizeUDPConfig a.udp).sendQueueSize.toNat
  sendWorkers := a.udp.sendWorkers.toNat
  gso := a.udp.gso
  gro := a.udp.gro
  gsoSupported := host.gsoSupported
  groSupported := host.groSupported
  gomaxprocs := host.gomaxprocs
  le_maxPacketSize := by
    have := h.maxPacketSize
    rw [normalizeUDPConfig_eq h]
    omega
  maxPacketSize_le := by
    have := h.maxPacketSize
    rw [normalizeUDPConfig_eq h]
    omega
  batchSize_pos := by
    have := h.batchSize
    rw [normalizeUDPConfig_eq h]
    omega
  sendQueueSize_pos := by
    have := h.sendQueueSize
    rw [normalizeUDPConfig_eq h]
    omega

/-- The length of a pooled buffer, `pool.New`. -/
def Runtime.bufferSize (rt : Runtime) : Nat := rt.maxPacketSize + protoUDPHeaderMaxLen

/-! ## Buffers, slices and packets -/

/-- A pooled buffer of `size` bytes. -/
structure Buffer (size : Nat) where
  id : Nat
  bytes : List UInt8
  length_bytes : bytes.length = size

/-- A byte slice: its contents, and the pooled buffer it is part of, if any. -/
structure Slice where
  backing : Option Nat
  bytes : List UInt8
  deriving DecidableEq

/-- A part of a pooled buffer that the kernel is to fill. -/
structure Window where
  backing : Nat
  len : Nat
  deriving DecidableEq

/-- `udpReadPacket`. -/
structure ReadPacket (size : Nat) where
  buffer : Buffer size
  n : Nat
  addr : AddrPort
  truncated : Bool
  batchSlot : Bool

/-- `udpWritePacket`. -/
structure WritePacket (size : Nat) where
  buffer : Slice
  owner : Buffer size
  addr : AddrPort
  batchSlot : Bool

/-- `inboundPacket`: a parsed relay packet from the client. -/
structure InboundPacket (size : Nat) where
  payload : Slice
  buffer : Buffer size
  frag : UInt8
  dst : Address
  src : AddrPort
  batchSlot : Bool

/-- `udpSendJob`.  The context, the connector, the sockets and the error channel it
carries are those of one association, which `assoc` names. -/
structure SendJob (size : Nat) where
  associationID : UInt64
  assoc : Nat
  packet : InboundPacket size
  host : List UInt8
  port : UInt16

/-! ## Sockets and the kernel -/

/-- The sockets of an association: the relay socket the client talks to and the
two outbound sockets. -/
inductive Sock where
  | inbound
  | preferred
  | fallback
  deriving DecidableEq, Repr

/-- The errors the relay distinguishes. -/
inductive NetError where
  | closed
  | wouldBlock
  | afNoSupport
  | msgSize
  | shortWrite
  | other (errno : Nat)
  deriving DecidableEq, Repr

/-- `net.UDPAddr` as `setUDPAddr` leaves it, without a zone. -/
structure UDPAddr where
  ip : List UInt8
  port : UInt16
  deriving DecidableEq

/-- `unix.Sockaddr`. -/
inductive Sockaddr where
  | inet4 (port : UInt16) (addr : Bytes4)
  | inet6 (port : UInt16) (addr : Bytes16)

/-- A message of a batch write. -/
structure Message where
  payload : Slice
  addr : UDPAddr
  deriving DecidableEq

/-- One socket control message. -/
structure ControlMessage where
  level : Nat
  type : Nat
  data : List UInt8

/-- What `ReadMsgUDP` returns for a slice of `len` bytes and `oobLen` bytes of
control buffer; `control` is what `ParseSocketControlMessage` finds in the first
`oobn` bytes of it. -/
structure ReadMsg (len oobLen : Nat) where
  data : List UInt8
  oobn : Nat
  control : Except NetError (List ControlMessage)
  msgTrunc : Bool
  addr : AddrPort
  length_data : data.length ≤ len
  oobn_le : oobn ≤ oobLen

/-- One message of a batch read; the address is the zero one when the kernel's is
not a UDP address. -/
structure RecvMsg where
  data : List UInt8
  msgTrunc : Bool
  addr : AddrPort

/-- What a batch read returns for the windows it was given. -/
structure Drained (into : List Window) where
  messages : List RecvMsg
  length_messages : messages.length ≤ into.length
  length_data : ∀ p ∈ messages.zip into, p.1.data.length ≤ p.2.len

/-- What a batch write of `count` messages returns: with an error the count is the one of
the system call, -1. -/
structure Written (count : Nat) where
  n : Int
  err : Option NetError
  le_n : -1 ≤ n
  n_le : n ≤ count
  err_of_neg : n < 0 → err ≠ none

/-- The counters of `udpMetrics` that the relay path updates. -/
inductive Counter where
  | inPackets
  | inBytes
  | outPackets
  | outBytes
  | queueDrops
  | truncatedDrops
  | malformedDrops
  | fragmentDrops
  | unauthorizedDrops
  | errors
  | queueDepth
  | batchFallbacks
  | groCoalescedReads
  | groTruncatedReads
  deriving DecidableEq, Repr

/-! ## Operations -/

/-- The operations of the relay code. -/
inductive Op (size : Nat) where
  /-- a pump is called for a readable socket -/
  | pump (sock : Sock)
  | getBuffer
  | putBuffer (buf : Buffer size)
  /-- the non-blocking send to `batchSlots` -/
  | sendBatchSlot
  /-- `<-r.batchSlots`, for the buffer about to be released -/
  | recvBatchSlot (buf : Buffer size)
  | readMsgUDP (sock : Sock) (into : Window) (oobLen : Nat)
  | readBatch (sock : Sock) (into : List Window)
  | writeBatch (sock : Sock) (messages : List Message)
  /-- `SendmsgN` of the payloads packed together, with a `UDP_SEGMENT` size -/
  | sendmsgN (sock : Sock) (payloads : List Slice) (segment : UInt16) (sa : Sockaddr)
  | storePort (port : UInt32)
  | loadPort
  | lookupCachedHost (host : List UInt8)
  | lifetimeErr
  | ctxErr
  /-- the non-blocking send of a job to a shard -/
  | trySend (shard : Nat) (job : SendJob size)
  /-- a worker's select: the next job, or the end of the runtime's lifetime -/
  | selectJob (shard : Nat)
  /-- a worker's non-blocking receive -/
  | tryReceive (shard : Nat)
  /-- `UdpConnector.SendPacket` -/
  | sendPacket (job : SendJob size)
  | count (counter : Counter) (delta : Int)
  | reportUDPError (err : NetError)
  /-- `lastActivity.Store(now)` -/
  | touch

/-- The results of the operations. -/
@[reducible] def Res {size : Nat} : Op size → Type
  | .getBuffer => Buffer size
  | .sendBatchSlot => Bool
  | .readMsgUDP _ into oobLen => Except NetError (ReadMsg into.len oobLen)
  | .readBatch _ into => Except NetError (Drained into)
  | .writeBatch _ messages => Written messages.length
  | .sendmsgN _ _ _ _ => Option NetError
  | .loadPort => UInt32
  | .lookupCachedHost _ => Option (List Addr)
  | .lifetimeErr => Bool
  | .ctxErr => Bool
  | .trySend _ _ => Bool
  | .selectJob _ => Option (SendJob size)
  | .tryReceive _ => Option (SendJob size)
  | .sendPacket _ => Option NetError
  | _ => Unit

/-- A buffer fresh from the pool. -/
def zeroBuffer (size : Nat) : Buffer size := ⟨0, List.replicate size 0, List.length_replicate⟩

/-- Every operation has a result. -/
theorem nonempty_res {size : Nat} (o : Op size) : Nonempty (Res o) := by
  cases o with
  | getBuffer => exact ⟨zeroBuffer size⟩
  | readMsgUDP _ _ _ => exact ⟨.error .closed⟩
  | readBatch _ _ => exact ⟨.error .closed⟩
  | writeBatch _ _ => exact ⟨⟨0, none, by decide, Int.natCast_nonneg _, nofun⟩⟩
  | sendBatchSlot => exact ⟨false⟩
  | lifetimeErr => exact ⟨false⟩
  | ctxErr => exact ⟨false⟩
  | trySend _ _ => exact ⟨false⟩
  | loadPort => exact ⟨(0 : UInt32)⟩
  | sendmsgN _ _ _ _ => exact ⟨none⟩
  | lookupCachedHost _ => exact ⟨none⟩
  | selectJob _ => exact ⟨none⟩
  | tryReceive _ => exact ⟨none⟩
  | sendPacket _ => exact ⟨none⟩
  | pump _ => exact ⟨()⟩
  | putBuffer _ => exact ⟨()⟩
  | recvBatchSlot _ => exact ⟨()⟩
  | storePort _ => exact ⟨()⟩
  | count _ _ => exact ⟨()⟩
  | reportUDPError _ => exact ⟨()⟩
  | touch => exact ⟨()⟩

/-- The programs of the relay. -/
abbrev Relay (size : Nat) (α : Type) := Prog (Op size) Res α

variable {size : Nat}

/-- Perform one operation. -/
def perform (o : Op size) : Relay size (Res o) := .step o .ret

@[simp] theorem perform_eq (o : Op size) : perform o = .step o .ret := rfl

/-- An `if` statement without an else branch. -/
def onlyIf (c : Prop) [Decidable c] (p : Relay size Unit) : Relay size Unit :=
  if c then p else .ret ()

/-! ## Slices -/

/-- `copy(bs[off:], data)`. -/
def overwrite (bs : List UInt8) (off : Nat) (data : List UInt8) : List UInt8 :=
  bs.take off ++ data.take (bs.length - off) ++ bs.drop (off + data.length)

/-- A read does not change the size of its buffer. -/
@[simp] theorem length_overwrite (bs : List UInt8) (off : Nat) (data : List UInt8) :
    (overwrite bs off data).length = bs.length := by
  simp only [overwrite, List.length_append, List.length_take, List.length_drop]
  omega

/-- What was written is read back. -/
theorem take_drop_overwrite {bs : List UInt8} {off : Nat} {data : List UInt8}
    (h : off + data.length ≤ bs.length) :
    ((overwrite bs off data).drop off).take data.length = data := by
  have hoff : (bs.take off).length = off := by
    rw [List.length_take]
    omega
  have hdata : data.take (bs.length - off) = data := List.take_of_length_le (by omega)
  rw [overwrite, hdata, List.append_assoc, List.drop_left' hoff, List.take_left]

/-- `copy(b[off:], data)` into a pooled buffer. -/
def Buffer.overwrite (b : Buffer size) (off : Nat) (data : List UInt8) : Buffer size where
  id := b.id
  bytes := Udp.overwrite b.bytes off data
  length_bytes := by rw [length_overwrite, b.length_bytes]

@[simp] theorem Buffer.overwrite_id (b : Buffer size) (off : Nat) (data : List UInt8) :
    (b.overwrite off data).id = b.id := rfl

/-- The slice expression `b[lo:hi]`. -/
def Buffer.slice (b : Buffer size) (lo hi : Nat) : Relay size Slice :=
  if lo ≤ hi ∧ hi ≤ size then .ret ⟨some b.id, (b.bytes.drop lo).take (hi - lo)⟩ else .fault

/-- The slice expression `b[lo:hi]` as a destination for the kernel. -/
def Buffer.window (b : Buffer size) (lo hi : Nat) : Relay size Window :=
  if lo ≤ hi ∧ hi ≤ size then .ret ⟨b.id, hi - lo⟩ else .fault

/-- `xs[i] = x` in an array of length `cap` that is filled from the front: the model
keeps the filled part, and `i` is its length. -/
def push {α : Type} (cap : Nat) (xs : List α) (x : α) : Relay size (List α) :=
  if xs.length < cap then .ret (xs ++ [x]) else .fault

/-- A slice expression `xs[:n]` of an array of length `cap`. -/
def checkLen (n cap : Nat) : Relay size Unit := if n ≤ cap then .ret () else .fault

/-! ## The buffer pool and the batch budget -/

def getBuffer : Relay size (Buffer size) := perform .getBuffer

def putBuffer (buf : Buffer size) : Relay size Unit := perform (.putBuffer buf)

def count (c : Counter) (delta : Int) : Relay size Unit := perform (.count c delta)

/-- `tryAcquireBatchBuffer`: `batchSlots` is nil without a budget. -/
def tryAcquireBatchBuffer (rt : Runtime) : Relay size Bool :=
  if rt.batchBufferBudget = 0 then .ret false else perform .sendBatchSlot

def releaseBuffer (buf : Buffer size) (batchSlot : Bool) : Relay size Unit := do
  if batchSlot then
    perform (.recvBatchSlot buf)
    putBuffer buf
  else putBuffer buf

def releaseReadPacket (packet : ReadPacket size) : Relay size Unit :=
  releaseBuffer packet.buffer packet.batchSlot

def releaseInboundPacket (packet : InboundPacket size) : Relay size Unit :=
  releaseBuffer packet.buffer packet.batchSlot

/-! ## Send jobs -/

/-- The number of shards `startDispatcher` creates. -/
def Runtime.shardCount (rt : Runtime) : Nat :=
  let workers := if rt.sendWorkers = 0 then min (max (rt.gomaxprocs * 2) 4) 64 else rt.sendWorkers
  min workers rt.sendQueueSize

/-- There is at least one shard. -/
theorem Runtime.shardCount_pos (rt : Runtime) : 0 < rt.shardCount := by
  have := rt.sendQueueSize_pos
  simp only [Runtime.shardCount]
  split_ifs <;> omega

/-- The capacity `startDispatcher` gives to the shard at `index`. -/
def Runtime.shardCapacity (rt : Runtime) (index : Nat) : Nat :=
  rt.sendQueueSize / rt.shardCount + if index < rt.sendQueueSize % rt.shardCount then 1 else 0

/-- The shard that owns an association. -/
def Runtime.shardOf (rt : Runtime) (associationID : UInt64) : Nat :=
  associationID.toNat % rt.shardCount

/-- `dispatch` enqueues a send job onto the shard owning the association. -/
def dispatch (rt : Runtime) (job : SendJob size) : Relay size Bool := do
  if ← perform .lifetimeErr then return false
  else if ← perform (.trySend (rt.shardOf job.associationID) job) then
    count .queueDepth 1
    return true
  else
    count .queueDrops 1
    return false

/-- `runSendJob` performs one outbound send and releases the packet buffer. -/
def runSendJob (job : SendJob size) : Relay size Unit := do
  count .queueDepth (-1)
  let ctxErr ← perform .ctxErr
  onlyIf (ctxErr = false) do
    match ← perform (.sendPacket job) with
    | none => pure ()
    | some err =>
        count .errors 1
        perform (.reportUDPError err)
  releaseInboundPacket job.packet

/-- The drain of a worker at the end of the lifetime, cut after `fuel` jobs. -/
def drainShard (shard : Nat) : Nat → Relay size Unit
  | 0 => pure ()
  | fuel + 1 => do
      match ← perform (.tryReceive shard) with
      | none => pure ()
      | some job =>
          count .queueDepth (-1)
          releaseInboundPacket job.packet
          drainShard shard fuel

/-- One round of a worker of `startDispatcher`; `none` when it exits. -/
def workerRound (shard fuel : Nat) : Relay size (Option Unit) := do
  match ← perform (.selectJob shard) with
  | some job =>
      runSendJob job
      return some ()
  | none =>
      drainShard shard fuel
      return none

end Outway.Udp
