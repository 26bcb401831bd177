import Outway.Udp.Bounds
import Outway.Udp.Fate

/-!
# Outway.Udp.System

The relay as a whole: the request and response threads of any number of
associations and the send workers, over one runtime.

`State` is what they share: the buffer pool, the tokens in `batchSlots`, the
queues of the shards and each association's remembered client port.  `act` says
what an operation does to it; what the kernel, the DNS cache or a context may
answer is left open.  The state also keeps the log of all operations with their
results, which the properties are stated on.
-/

namespace Outway.Udp

open Prog

/-- A relay: the runtime, its associations, and how far its threads are followed. -/
structure System where
  rt : Runtime
  count : Nat
  association : Fin count → Association
  /-- a job names the association that dispatched it -/
  index_eq : ∀ a, (association a).index = a
  /-- the calls of its pump, or the jobs, a thread is followed for -/
  rounds : Nat

/-- The threads of a relay; the response threads of an association are those of its
outbound sockets. -/
inductive Thread (count shards : Nat) where
  | inbound (a : Fin count)
  | preferred (a : Fin count)
  | fallback (a : Fin count)
  | worker (shard : Fin shards)
  deriving DecidableEq, Fintype

namespace System

variable (sys : System)

/-- The length of the pooled buffers. -/
abbrev size : Nat := sys.rt.bufferSize

/-- The threads of the relay. -/
abbrev ι : Type := Thread sys.count sys.rt.shardCount

/-- The program of a thread. -/
def program : sys.ι → Relay sys.size Unit
  | .inbound a => inboundThread sys.rt (sys.association a) sys.rounds
  | .preferred a => responderThread sys.rt (sys.association a) .preferred sys.rounds
  | .fallback a =>
      match (sys.association a).fallbackV4 with
      | none => .ret ()
      | some _ => responderThread sys.rt (sys.association a) .fallback sys.rounds
  | .worker shard => workerThread sys.rt shard sys.rounds sys.rounds

/-- The shared state. -/
structure State where
  /-- the buffers in the pool -/
  pool : Multiset Nat
  /-- the buffers from here on have not been allocated -/
  fresh : Nat
  /-- `len(r.batchSlots)` -/
  tokens : Nat
  shards : Nat → List (SendJob sys.size)
  /-- `srcPort` of each association -/
  port : Fin sys.count → UInt32
  log : List (sys.ι × Event sys.size)

/-- Nothing has happened. -/
def init : sys.State where
  pool := 0
  fresh := 0
  tokens := 0
  shards _ := []
  port _ := 0
  log := []

variable {sys}

/-- The association whose port a thread uses. -/
def portOwner : sys.ι → Option (Fin sys.count)
  | .inbound a => some a
  | .preferred a => some a
  | .fallback a => some a
  | .worker _ => none

/-- What an operation of thread `i` does to the shared state, apart from the log. -/
def effect (i : sys.ι) (s : sys.State) : (o : Op sys.size) → Res o → sys.State → Prop
  | .getBuffer, b, s' =>
      -- `pool.Get` returns a pooled buffer or calls `pool.New`
      b.id ∈ s.pool ∧ s' = { s with pool := s.pool.erase b.id } ∨
        b.id = s.fresh ∧ s' = { s with fresh := s.fresh + 1 }
  | .putBuffer b, _, s' => s' = { s with pool := b.id ::ₘ s.pool }
  | .sendBatchSlot, sent, s' =>
      if s.tokens < sys.rt.batchBufferBudget then
        sent = true ∧ s' = { s with tokens := s.tokens + 1 }
      else sent = false ∧ s' = s
  | .recvBatchSlot _, _, s' => 0 < s.tokens ∧ s' = { s with tokens := s.tokens - 1 }
  | .storePort p, _, s' =>
      ∃ a, portOwner i = some a ∧ s' = { s with port := Function.update s.port a p }
  | .loadPort, p, s' => ∃ a, portOwner i = some a ∧ p = s.port a ∧ s' = s
  | .trySend shard job, sent, s' =>
      if (s.shards shard).length < sys.rt.shardCapacity shard then
        sent = true ∧
          s' = { s with shards := Function.update s.shards shard (s.shards shard ++ [job]) }
      else sent = false ∧ s' = s
  | .selectJob shard, some job, s' =>
      ∃ rest, s.shards shard = job :: rest ∧
        s' = { s with shards := Function.update s.shards shard rest }
  | .tryReceive shard, some job, s' =>
      ∃ rest, s.shards shard = job :: rest ∧
        s' = { s with shards := Function.update s.shards shard rest }
  | .tryReceive shard, none, s' => s.shards shard = [] ∧ s' = s
  | _, _, s' => s' = s

/-- What is left of a queue after a receive was in it before. -/
theorem mem_of_mem_update {shards : Nat → List (SendJob sys.size)} {shard k : Nat}
    {job received : SendJob sys.size} {rest : List (SendJob sys.size)}
    (hqueue : shards shard = received :: rest) (hjob : job ∈ Function.update shards shard rest k) :
    job ∈ shards k := by
  by_cases hk : k = shard
  · subst hk
    rw [Function.update_self] at hjob
    rw [hqueue]
    exact List.mem_cons_of_mem _ hjob
  · rwa [Function.update_of_ne hk] at hjob

theorem mem_of_mem_update_concat {shards : Nat → List (SendJob sys.size)} {shard k : Nat}
    {job queued : SendJob sys.size}
    (hjob : job ∈ Function.update shards shard (shards shard ++ [queued]) k) :
    job ∈ shards k ∨ k = shard ∧ job = queued := by
  by_cases hk : k = shard
  · subst hk
    rw [Function.update_self, List.mem_append, List.mem_singleton] at hjob
    exact hjob.imp_right fun h => ⟨rfl, h⟩
  · rw [Function.update_of_ne hk] at hjob
    exact .inl hjob

/-- Only a store changes a port. -/
theorem effect_port_eq {i : sys.ι} {s t : sys.State} {o : Op sys.size} {r : Res o}
    (ht : effect i s o r t) (ho : ∀ port, o ≠ .storePort port) : t.port = s.port := by
  cases o with
  | getBuffer => obtain ⟨-, rfl⟩ | ⟨-, rfl⟩ := ht <;> rfl
  | sendBatchSlot =>
      simp only [effect] at ht
      split_ifs at ht <;> obtain ⟨-, rfl⟩ := ht <;> rfl
  | recvBatchSlot b => obtain ⟨-, rfl⟩ := ht; rfl
  | storePort port => exact absurd rfl (ho port)
  | loadPort => obtain ⟨-, -, -, rfl⟩ := ht; rfl
  | trySend shard job =>
      simp only [effect] at ht
      split_ifs at ht <;> obtain ⟨-, rfl⟩ := ht <;> rfl
  | selectJob shard =>
      cases r with
      | none => obtain rfl := ht; rfl
      | some job => obtain ⟨-, -, rfl⟩ := ht; rfl
  | tryReceive shard =>
      cases r with
      | none => obtain ⟨-, rfl⟩ := ht; rfl
      | some job => obtain ⟨-, -, rfl⟩ := ht; rfl
  | _ => obtain rfl := ht; rfl

/-- A job in a queue was there before, or is the one just queued. -/
theorem mem_shards_of_effect {i : sys.ι} {s t : sys.State} {o : Op sys.size} {r : Res o}
    (ht : effect i s o r t) {k : Nat} {job : SendJob sys.size} (hjob : job ∈ t.shards k) :
    job ∈ s.shards k ∨ (⟨o, r⟩ : Event sys.size) = ⟨.trySend k job, true⟩ := by
  cases o with
  | getBuffer => obtain ⟨-, rfl⟩ | ⟨-, rfl⟩ := ht <;> exact .inl hjob
  | sendBatchSlot =>
      simp only [effect] at ht
      split_ifs at ht <;> obtain ⟨-, rfl⟩ := ht <;> exact .inl hjob
  | recvBatchSlot b => obtain ⟨-, rfl⟩ := ht; exact .inl hjob
  | storePort port => obtain ⟨a, -, rfl⟩ := ht; exact .inl hjob
  | loadPort => obtain ⟨-, -, -, rfl⟩ := ht; exact .inl hjob
  | trySend shard queued =>
      simp only [effect] at ht
      split_ifs at ht <;> obtain ⟨rfl, rfl⟩ := ht
      · obtain hjob | ⟨rfl, rfl⟩ := mem_of_mem_update_concat hjob
        · exact .inl hjob
        · exact .inr rfl
      · exact .inl hjob
  | selectJob shard =>
      cases r with
      | none => obtain rfl := ht; exact .inl hjob
      | some received =>
          obtain ⟨rest, hqueue, rfl⟩ := ht
          exact .inl (mem_of_mem_update hqueue hjob)
  | tryReceive shard =>
      cases r with
      | none => obtain ⟨-, rfl⟩ := ht; exact .inl hjob
      | some received =>
          obtain ⟨rest, hqueue, rfl⟩ := ht
          exact .inl (mem_of_mem_update hqueue hjob)
  | _ => obtain rfl := ht; exact .inl hjob

/-- What an operation of thread `i` does to the shared state. -/
def act (i : sys.ι) (s : sys.State) (o : Op sys.size) (r : Res o) (s' : sys.State) : Prop :=
  ∃ t, effect i s o r t ∧ s' = { t with log := s.log ++ [(i, ⟨o, r⟩)] }

theorem log_of_act {i : sys.ι} {s s' : sys.State} {o : Op sys.size} {r : Res o}
    (h : act i s o r s') : s'.log = s.log ++ [(i, ⟨o, r⟩)] := by
  obtain ⟨t, -, rfl⟩ := h
  rfl

/-- The states of the relay's runs: any interleaving of its threads. -/
def Reaches (sys : System) (ps : sys.ι → Relay sys.size Unit) (s : sys.State) : Prop :=
  Threads.Reachable act (sys.program, sys.init) (ps, s)

theorem Reaches.step {sys : System} {ps : sys.ι → Relay sys.size Unit} {s s' : sys.State}
    (h : Reaches sys ps s) {i : sys.ι} {o : Op sys.size} {k : Res o → Relay sys.size Unit}
    (hp : ps i = .step o k) (r : Res o) (ha : act i s o r s') :
    Reaches sys (Function.update ps i (k r)) s' := h.tail (.mk i o k r hp ha)

/-- In every state, an inbound thread's entries are those of its pump, datagram by datagram. -/
theorem served_of_reaches {ps : sys.ι → Relay sys.size Unit} {s : sys.State} (h : Reaches sys ps s)
    (a : Fin sys.count) :
    Served sys.rt (sys.association a) ⟨false, [], []⟩ (Threads.own s.log (.inbound a)) :=
  served_of_after (Threads.Reachable.after State.log log_of_act rfl h (.inbound a))

/-! ## A run -/

/-- One association over `batchRuntime`. -/
abbrev solo : System where
  rt := batchRuntime
  count := 1
  association _ := ipv4Association
  index_eq a := by rw [Fin.fin_one_eq_zero a]; rfl
  rounds := 1

/-- What a run of `solo` has been through. -/
structure SoloRun (log : List (solo.ι × Event solo.size)) : Prop where
  /-- a datagram of the client is accepted and sent to its target -/
  accepted : (.inbound 0, ⟨.storePort 4000, ()⟩) ∈ log
  forwarded : ∃ w, (.inbound 0, ⟨.writeBatch .preferred [⟨⟨some 0, [1]⟩, ⟨[8, 8, 8, 8], 53⟩⟩],
    w⟩) ∈ log
  /-- a stranger's behind it, read for a token, is rejected and its token given back -/
  token : (.inbound 0, ⟨.sendBatchSlot, true⟩) ∈ log
  rejected : (.inbound 0, ⟨.count .unauthorizedDrops 1, ()⟩) ∈ log
  released : ∃ buf, (.inbound 0, ⟨.recvBatchSlot buf, ()⟩) ∈ log
  /-- the answer of the target goes to the client -/
  answered : ∃ w, (.preferred 0, ⟨.writeBatch .inbound
    [⟨⟨some 0, [0, 0, 0, 1, 8, 8, 8, 8, 0, 53, 7]⟩, ⟨[127, 0, 0, 1], 4000⟩⟩], w⟩) ∈ log

/-- The buffer that the pool hands out under a number. -/
def pooled (id : Nat) : Buffer solo.size := { zeroBuffer solo.size with id }

set_option maxRecDepth 4000 in
/-- There is such a run, and it has given everything back. -/
theorem reaches_solo : ∃ ps s, Reaches solo ps s ∧ SoloRun s.log ∧ s.fresh = 3 ∧ s.tokens = 0 := by
  have h : Reaches solo solo.program solo.init := .refl
  have h := h.step (i := .inbound 0) rfl () ⟨_, rfl, rfl⟩
  have h := h.step (i := .inbound 0) rfl (pooled 0) ⟨_, .inr ⟨rfl, rfl⟩, rfl⟩
  have h := h.step (i := .inbound 0) rfl (.ok ⟨[0, 0, 0, 1, 8, 8, 8, 8, 0, 53, 1], 0, .ok [], false,
    ⟨.v4 0x7f000001, 4000⟩, by decide, by decide⟩) ⟨_, rfl, rfl⟩
  have h := h.step (i := .inbound 0) rfl true ⟨_, ⟨rfl, rfl⟩, rfl⟩
  have h := h.step (i := .inbound 0) rfl (pooled 1) ⟨_, .inr ⟨rfl, rfl⟩, rfl⟩
  have h := h.step (i := .inbound 0) rfl (.ok ⟨[⟨[0, 0, 0, 1, 8, 8, 8, 8, 0, 53, 2], false,
    ⟨.v4 0x0a000001, 4001⟩⟩], by decide, by decide⟩) ⟨_, rfl, rfl⟩
  have h := h.step (i := .inbound 0) rfl () ⟨_, ⟨0, rfl, rfl⟩, rfl⟩
  -- the second packet is dropped
  have h := h.step (i := .inbound 0) rfl () ⟨_, rfl, rfl⟩
  have h := h.step (i := .inbound 0) rfl () ⟨_, ⟨by decide, rfl⟩, rfl⟩
  have h := h.step (i := .inbound 0) rfl () ⟨_, rfl, rfl⟩
  -- the first is counted and sent
  have h := h.step (i := .inbound 0) rfl () ⟨_, rfl, rfl⟩
  have h := h.step (i := .inbound 0) rfl () ⟨_, rfl, rfl⟩
  have h := h.step (i := .inbound 0) rfl ⟨1, none, by decide, by decide, nofun⟩ ⟨_, rfl, rfl⟩
  have h := h.step (i := .inbound 0) rfl () ⟨_, rfl, rfl⟩
  have h := h.step (i := .inbound 0) rfl () ⟨_, rfl, rfl⟩
  -- a response, in a buffer that was returned; no other is behind it
  have h := h.step (i := .preferred 0) rfl () ⟨_, rfl, rfl⟩
  have h := h.step (i := .preferred 0) rfl (pooled 0) ⟨_, .inl ⟨by simp [init, pooled], rfl⟩, rfl⟩
  have h := h.step (i := .preferred 0) rfl (.ok ⟨[7], 0, .ok [], false, ⟨.v4 0x08080808, 53⟩,
    by decide, by decide⟩) ⟨_, rfl, rfl⟩
  have h := h.step (i := .preferred 0) rfl true ⟨_, ⟨rfl, rfl⟩, rfl⟩
  have h := h.step (i := .preferred 0) rfl (pooled 2) ⟨_, .inr ⟨rfl, rfl⟩, rfl⟩
  have h := h.step (i := .preferred 0) rfl (.error .wouldBlock) ⟨_, rfl, rfl⟩
  have h := h.step (i := .preferred 0) rfl () ⟨_, ⟨by decide, rfl⟩, rfl⟩
  have h := h.step (i := .preferred 0) rfl () ⟨_, rfl, rfl⟩
  have h := h.step (i := .preferred 0) rfl 4000 ⟨_, ⟨0, rfl, rfl, rfl⟩, rfl⟩
  have h := h.step (i := .preferred 0) rfl ⟨1, none, by decide, by decide, nofun⟩ ⟨_, rfl, rfl⟩
  have h := h.step (i := .preferred 0) rfl () ⟨_, rfl, rfl⟩
  exact ⟨_, _, h, ⟨List.mem_of_getElem? (i := 6) rfl, ⟨_, List.mem_of_getElem? (i := 12) rfl⟩,
    List.mem_of_getElem? (i := 3) rfl, List.mem_of_getElem? (i := 7) rfl,
    ⟨_, List.mem_of_getElem? (i := 8) rfl⟩, ⟨_, List.mem_of_getElem? (i := 24) rfl⟩⟩, rfl, rfl⟩

end System

end Outway.Udp
