import Outway.Lib.Log
import Outway.Udp.Fate

/-!
# Outway.Udp.Dispatcher

The sharded send queues of the UDP runtime, on their own: any number of concurrent calls of
`dispatch` on any jobs, the send workers, and the end of the runtime's lifetime.

The calls and the workers are the programs of `Outway.Udp.Runtime`.  The caller releases the
packet of a job that is refused, as `processInbound` does.  `startOnce` has run before a job
reaches a queue, and a worker that it has not started yet is one that has not been scheduled,
so the shards and the workers are there from the beginning.  A token of `batchSlots` is there
for every packet that has one (`Outway.Udp.Ledger`), so giving it back does not wait.

A job has no identity of its own, since a buffer that was released may come back in another
packet.  The calls have: `accepted` is the list of the calls whose jobs were enqueued, in
that order, and the other lists are compared with theirs.
-/

namespace Outway.Udp

open Prog

/-! ## The shards -/

namespace Runtime

variable (rt : Runtime)

/-- `startDispatcher`: the capacities of the shards it creates. -/
def startDispatcher : List Nat := (List.range rt.shardCount).map rt.shardCapacity

/-- There are no more shards than places in the queues. -/
theorem shardCount_le : rt.shardCount ≤ rt.sendQueueSize := by
  simp only [shardCount]
  omega

/-- Every association has a shard. -/
theorem shardOf_lt (associationID : UInt64) : rt.shardOf associationID < rt.shardCount :=
  Nat.mod_lt _ rt.shardCount_pos

/-- Every shard has room for a job. -/
theorem one_le_shardCapacity (index : Nat) : 1 ≤ rt.shardCapacity index := by
  have hdiv : 1 ≤ rt.sendQueueSize / rt.shardCount :=
    (Nat.one_le_div_iff rt.shardCount_pos).mpr rt.shardCount_le
  unfold shardCapacity
  omega

/-- The slots of the queue are split without a loss. -/
theorem sum_shardCapacity :
    ∑ index ∈ Finset.range rt.shardCount, rt.shardCapacity index = rt.sendQueueSize := by
  have hextra : ∑ index ∈ Finset.range rt.shardCount,
      (if index < rt.sendQueueSize % rt.shardCount then 1 else 0) =
        rt.sendQueueSize % rt.shardCount := by
    have hlt := Nat.mod_lt rt.sendQueueSize rt.shardCount_pos
    have hfilter : (Finset.range rt.shardCount).filter (· < rt.sendQueueSize % rt.shardCount) =
        Finset.range (rt.sendQueueSize % rt.shardCount) := by
      ext index
      simp only [Finset.mem_filter, Finset.mem_range]
      omega
    rw [← Finset.sum_filter, hfilter, Finset.sum_const, Finset.card_range, smul_eq_mul, mul_one]
  unfold shardCapacity
  rw [Finset.sum_add_distrib, hextra, Finset.sum_const, Finset.card_range, smul_eq_mul,
    Nat.div_add_mod]

theorem shardOf_lt_length (associationID : UInt64) :
    rt.shardOf associationID < rt.startDispatcher.length := by
  rw [startDispatcher, List.length_map, List.length_range]
  exact rt.shardOf_lt associationID

theorem one_le_of_mem_startDispatcher (capacity : Nat) (h : capacity ∈ rt.startDispatcher) :
    1 ≤ capacity := by
  obtain ⟨index, -, rfl⟩ := List.mem_map.mp h
  exact rt.one_le_shardCapacity index

/-- The places of the shards add up to the configured size. -/
theorem sum_startDispatcher : rt.startDispatcher.sum = rt.sendQueueSize := by
  rw [← rt.sum_shardCapacity]
  rfl

end Runtime

/-! ## The system -/

/-- A call of `dispatch` by `processInbound`: a refused packet stays its own to release. -/
def dispatchCall (rt : Runtime) (job : SendJob rt.bufferSize) : Relay rt.bufferSize Unit := do
  if ← dispatch rt job then return ()
  else releaseInboundPacket job.packet

/-- The runtime, the jobs of the calls, and how far the workers are followed. -/
structure Dispatcher where
  rt : Runtime
  job : Nat → SendJob rt.bufferSize
  rounds : Nat

namespace Dispatcher

inductive Thread (shards : Nat) where
  | call (n : Nat)
  | worker (shard : Fin shards)
  deriving DecidableEq

variable (d : Dispatcher)

abbrev size : Nat := d.rt.bufferSize

abbrev ι : Type := Thread d.rt.shardCount

abbrev Job : Type := SendJob d.size

/-- The program of a thread. -/
def program : d.ι → Relay d.size Unit
  | .call n => dispatchCall d.rt (d.job n)
  | .worker shard => workerThread d.rt shard d.rounds d.rounds

structure State where
  /-- the lifetime has ended -/
  done : Bool
  queue : Nat → List d.Job
  queueDepth : Int
  log : List (d.ι × Event d.size)

/-- Nothing has happened. -/
def init : d.State where
  done := false
  queue _ := []
  queueDepth := 0
  log := []

variable {d}

/-- What an operation does to the shared state, apart from the log. -/
def effect (s : d.State) : (o : Op d.size) → Res o → d.State → Prop
  | .lifetimeErr, err, t => err = s.done ∧ t = s
  | .trySend shard job, sent, t =>
      if (s.queue shard).length < d.rt.shardCapacity shard then
        sent = true ∧ t = { s with queue := Function.update s.queue shard (s.queue shard ++ [job]) }
      else sent = false ∧ t = s
  | .selectJob shard, some job, t =>
      ∃ rest, s.queue shard = job :: rest ∧
        t = { s with queue := Function.update s.queue shard rest }
  | .selectJob _, none, t => s.done = true ∧ t = s
  | .tryReceive shard, some job, t =>
      ∃ rest, s.queue shard = job :: rest ∧
        t = { s with queue := Function.update s.queue shard rest }
  | .tryReceive shard, none, t => s.queue shard = [] ∧ t = s
  | .count .queueDepth delta, _, t => t = { s with queueDepth := s.queueDepth + delta }
  | _, _, t => t = s

/-- What an operation of thread `i` does; the lifetime may end before it. -/
def act (i : d.ι) (s : d.State) (o : Op d.size) (r : Res o) (s' : d.State) : Prop :=
  ∃ done t, (s.done = true → done = true) ∧ effect { s with done := done } o r t ∧
    s' = { t with log := s.log ++ [(i, ⟨o, r⟩)] }

theorem log_of_act {i : d.ι} {s s' : d.State} {o : Op d.size} {r : Res o} (h : act i s o r s') :
    s'.log = s.log ++ [(i, ⟨o, r⟩)] := by
  obtain ⟨done, t, -, -, rfl⟩ := h
  rfl

variable (d) in
/-- The states of the dispatcher's runs: any interleaving of its threads. -/
def Reaches (now : (d.ι → Relay d.size Unit) × d.State) : Prop :=
  Threads.Reachable act (d.program, d.init) now

theorem Reaches.step {ps : d.ι → Relay d.size Unit} {s s' : d.State} (h : d.Reaches (ps, s))
    {i : d.ι} {o : Op d.size} {k : Res o → Relay d.size Unit} (hp : ps i = .step o k) (r : Res o)
    (ha : act i s o r s') : d.Reaches (Function.update ps i (k r), s') :=
  h.tail (.mk i o k r hp ha)

/-! ## What a run shows -/

section Entries

variable {size : Nat}

/-- The job that an entry takes from a queue to run it. -/
def runs : Event size → Option (SendJob size)
  | ⟨.selectJob _, job⟩ => job
  | _ => none

/-- The job that an entry takes from a queue, to run it or to drain the queue. -/
def takes : Event size → Option (SendJob size)
  | ⟨.selectJob _, job⟩ => job
  | ⟨.tryReceive _, job⟩ => job
  | _ => none

/-- The job whose packet an entry sends. -/
def sends : Event size → Option (SendJob size)
  | ⟨.sendPacket job, _⟩ => some job
  | _ => none

/-- The buffer that an entry releases. -/
def releases : Event size → Option (Buffer size)
  | ⟨.putBuffer b, _⟩ => some b
  | _ => none

/-- What an entry adds to `queueDepth`. -/
def raises : Event size → Int
  | ⟨.count .queueDepth delta, _⟩ => delta
  | _ => 0

/-- The jobs that are being run after an entry; `runSendJob` ends with the release of the
packet. -/
def runningAfter (jobs : List (SendJob size)) : Event size → List (SendJob size)
  | ⟨.selectJob _, some job⟩ => jobs ++ [job]
  | ⟨.putBuffer _, _⟩ => jobs.tail
  | _ => jobs

/-- The jobs a worker has begun to run and not finished. -/
def executing (es : List (Event size)) : List (SendJob size) := es.foldl runningAfter []

/-- The entry with which the worker of shard `w` leaves. -/
def leaves (w : Nat) : Event size → Bool
  | ⟨.tryReceive shard, none⟩ => shard = w
  | _ => false

/-- The entry puts a job into a queue. -/
def admits : Event size → Bool
  | ⟨.trySend _ _, sent⟩ => sent
  | _ => false

/-- What `dispatch` returns after an entry, if that was its last. -/
def outcome : Event size → Option Bool
  | ⟨.lifetimeErr, true⟩ => some false
  | ⟨.count .queueDepth _, _⟩ => some true
  | ⟨.count .queueDrops _, _⟩ => some false
  | _ => none

/-- What a call of `dispatch` has returned. -/
def returned (es : List (Event size)) : Option Bool := es.findSome? outcome

end Entries

/-- The call whose job an entry enqueues. -/
def accepts : d.ι × Event d.size → Option Nat
  | (.call n, e) => if admits e then some n else none
  | (.worker _, _) => none

/-- The calls whose jobs were enqueued, in that order. -/
def accepted (log : List (d.ι × Event d.size)) : List Nat := log.filterMap accepts

/-- The association of a call. -/
def association (d : Dispatcher) (n : Nat) : UInt64 := (d.job n).associationID

/-- The shard of a call. -/
def shard (d : Dispatcher) (n : Nat) : Nat := d.rt.shardOf (d.association n)

/-- The entries of a worker. -/
def worked (s : d.State) (w : Fin d.rt.shardCount) : List (Event d.size) :=
  Threads.own s.log (.worker w)

/-- The entries of a call. -/
def called (s : d.State) (n : Nat) : List (Event d.size) := Threads.own s.log (.call n)

/-- The calls whose jobs were enqueued on a shard that its worker had left. -/
def late (log : List (d.ι × Event d.size)) (w : Nat) : List Nat :=
  (accepted (log.dropWhile fun x => !leaves w x.2)).filter fun n => d.shard n = w

end Dispatcher

end Outway.Udp
