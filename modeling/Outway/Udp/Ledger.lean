import Outway.Udp.Bounds
import Outway.Udp.Holdings
import Outway.Udp.System

/-!
# Outway.Udp.Ledger

The accounts of the whole relay: where every pooled buffer and every token of the
batch budget is, in every state of every run.

A buffer that was taken from the pool is in flight, held by one thread or by one
queued job, until it is returned.  `Balanced` keeps the accounts over all threads
and queues; `balanced_step` carries them over one operation of any thread that
keeps to its own ledger, which `Outway.Udp.Holdings` proves of all of them.
-/

namespace Outway.Udp

open Prog

namespace System

variable {sys : System}

/-! ## Accounts -/

/-- What each thread holds, read off its own entries of the log. -/
def holdings (log : List (sys.ι × Event sys.size)) (i : sys.ι) : Holdings :=
  (Threads.own log i).foldl (fun g e => g.next e.1 e.2) .empty

/-- An entry changes the books of its own thread. -/
theorem holdings_concat (log : List (sys.ι × Event sys.size)) (i : sys.ι) (o : Op sys.size)
    (r : Res o) :
    holdings (log ++ [(i, ⟨o, r⟩)]) =
      Function.update (holdings log) i ((holdings log i).next o r) := by
  funext j
  by_cases hj : j = i
  · subst hj
    simp [holdings, Threads.own_concat]
  · simp [holdings, Threads.own_concat, Function.update_of_ne hj]

/-- The buffers of the jobs in the queues. -/
def queued (shards : Nat → List (SendJob sys.size)) : Multiset Entry :=
  ∑ shard ∈ Finset.range sys.rt.shardCount, (↑((shards shard).map SendJob.entry) : Multiset Entry)

/-- The buffers that are out of the pool: those the threads hold and those of the
queued jobs. -/
def inFlight (gs : sys.ι → Holdings) (shards : Nat → List (SendJob sys.size)) : Multiset Entry :=
  ∑ i, (gs i).held + queued shards

/-- How many of the buffers have a token. -/
def slotted (T : Multiset Entry) : Nat := T.countP fun e => e.2 = true

/-- A buffer more, with its slot or without. -/
theorem slotted_cons (id : Nat) (slot : Bool) (T : Multiset Entry) :
    slotted ((id, slot) ::ₘ T) = slot.toNat + slotted T := by
  rw [slotted, slotted, Multiset.countP_cons, add_comm]
  cases slot <;> rfl

/-- The threads that have taken a token and are about to take its buffer. -/
def reservations (gs : sys.ι → Holdings) : Nat := ∑ i, (gs i).reserved.toNat

/-- How often an event takes the buffer `id` from the pool. -/
def takes (id : Nat) : Event sys.size → Nat
  | ⟨.getBuffer, b⟩ => if b.id = id then 1 else 0
  | _ => 0

/-- How often an event returns the buffer `id` to the pool. -/
def returns (id : Nat) : Event sys.size → Nat
  | ⟨.putBuffer b, _⟩ => if b.id = id then 1 else 0
  | _ => 0

/-- How often the buffer `id` was taken from the pool. -/
def taken (log : List (sys.ι × Event sys.size)) (id : Nat) : Nat :=
  (log.map fun e => takes id e.2).sum

/-- How often the buffer `id` was returned to the pool. -/
def returned (log : List (sys.ι × Event sys.size)) (id : Nat) : Nat :=
  (log.map fun e => returns id e.2).sum

/-- The accounts are balanced. -/
structure Balanced (gs : sys.ι → Holdings) (s : sys.State) : Prop where
  /-- no buffer is in two places -/
  nodup : ((inFlight gs s.shards).map Prod.fst + s.pool).Nodup
  lt_fresh : ∀ id ∈ (inFlight gs s.shards).map Prod.fst + s.pool, id < s.fresh
  tokens_eq : s.tokens = slotted (inFlight gs s.shards) + reservations gs
  tokens_le : s.tokens ≤ sys.rt.batchBufferBudget
  taken_eq : ∀ id, taken s.log id =
    returned s.log id + ((inFlight gs s.shards).map Prod.fst).count id
  queued_part : ∀ shard, ∀ job ∈ s.shards shard, job.packet.payload.IsPartOf job.packet.buffer

section Flow

variable {gs : sys.ι → Holdings} {s : sys.State} {i : sys.ι}

/-- One thread's books change what is in flight by their difference. -/
theorem inFlight_update (gs : sys.ι → Holdings) (shards : Nat → List (SendJob sys.size)) (i : sys.ι)
    (g : Holdings) :
    inFlight (Function.update gs i g) shards + (gs i).held = inFlight gs shards + g.held := by
  have := Threads.sum_update_add (Finset.mem_univ i) Holdings.held gs g
  rw [inFlight, inFlight, add_right_comm, this, add_right_comm]

theorem reservations_update (gs : sys.ι → Holdings) (i : sys.ι) (g : Holdings) :
    reservations (Function.update gs i g) + (gs i).reserved.toNat =
      reservations gs + g.reserved.toNat :=
  Threads.sum_update_add (Finset.mem_univ i) (fun g : Holdings => g.reserved.toNat) gs g

theorem queued_update (shards : Nat → List (SendJob sys.size)) {shard : Nat}
    (hshard : shard < sys.rt.shardCount) (jobs : List (SendJob sys.size)) :
    queued (Function.update shards shard jobs) + ↑((shards shard).map SendJob.entry) =
      queued shards + ↑(jobs.map SendJob.entry) :=
  Threads.sum_update_add (Finset.mem_range.mpr hshard)
    (fun jobs : List (SendJob sys.size) => (↑(jobs.map SendJob.entry) : Multiset Entry)) shards jobs

/-- What one thread holds is in flight. -/
theorem held_le_inFlight (gs : sys.ι → Holdings) (shards : Nat → List (SendJob sys.size))
    (i : sys.ι) : (gs i).held ≤ inFlight gs shards :=
  (Finset.single_le_sum (f := fun i => (gs i).held) (fun _ _ => Multiset.zero_le _)
    (Finset.mem_univ i)).trans (Multiset.le_add_right _ _)

/-- No thread holds a buffer twice. -/
theorem Balanced.nodup_held (h : Balanced gs s) (i : sys.ι) : ((gs i).held.map Prod.fst).Nodup :=
  Multiset.nodup_of_le (Multiset.map_le_map (held_le_inFlight gs s.shards i))
    (Multiset.nodup_add.mp h.nodup).1

/-- A buffer is taken from the pool with the last entry, or was before. -/
theorem taken_concat (log : List (sys.ι × Event sys.size)) (i : sys.ι) (e : Event sys.size)
    (id : Nat) :
    taken (log ++ [(i, e)]) id = taken log id + takes id e := by
  simp [taken]

theorem returned_concat (log : List (sys.ι × Event sys.size)) (i : sys.ι) (e : Event sys.size)
    (id : Nat) :
    returned (log ++ [(i, e)]) id = returned log id + returns id e := by
  simp [returned]

end Flow

/-! ## One operation

`record t s i e` is the state after an event that leaves `t` of the state `s`. -/

/-- The state `t` with the event added to the log of `s`. -/
def record (s t : sys.State) (i : sys.ι) (e : Event sys.size) : sys.State :=
  { t with log := s.log ++ [(i, e)] }

section Step

variable {gs : sys.ι → Holdings} {s t : sys.State} {i : sys.ι}

/-- An operation that moves no buffer into or out of the pool. -/
theorem Balanced.of_ids {o : Op sys.size} {r : Res o} (h : Balanced gs s) {g : Holdings}
    (hids : (inFlight (Function.update gs i g) t.shards).map Prod.fst =
      (inFlight gs s.shards).map Prod.fst)
    (hpool : t.pool = s.pool) (hfresh : t.fresh = s.fresh)
    (htokens : t.tokens = slotted (inFlight (Function.update gs i g) t.shards) +
      reservations (Function.update gs i g))
    (hle : t.tokens ≤ sys.rt.batchBufferBudget)
    (hparts : ∀ shard, ∀ job ∈ t.shards shard, job.packet.payload.IsPartOf job.packet.buffer)
    (htakes : ∀ id, takes id (⟨o, r⟩ : Event sys.size) = 0)
    (hreturns : ∀ id, returns id (⟨o, r⟩ : Event sys.size) = 0) :
    Balanced (Function.update gs i g) (record s t i ⟨o, r⟩) where
  nodup := by simpa only [record, hids, hpool] using h.nodup
  lt_fresh := by simpa only [record, hids, hpool, hfresh] using h.lt_fresh
  tokens_eq := htokens
  tokens_le := hle
  taken_eq id := by
    simpa only [record, taken_concat, returned_concat, hids, htakes, hreturns, add_zero] using
      h.taken_eq id
  queued_part := hparts

/-- An operation that also moves no token. -/
theorem Balanced.of_inFlight {o : Op sys.size} {r : Res o} (h : Balanced gs s) {g : Holdings}
    (hflight : inFlight (Function.update gs i g) t.shards = inFlight gs s.shards)
    (hreserved : g.reserved = (gs i).reserved) (hpool : t.pool = s.pool)
    (hfresh : t.fresh = s.fresh) (htokens : t.tokens = s.tokens)
    (hparts : ∀ shard, ∀ job ∈ t.shards shard, job.packet.payload.IsPartOf job.packet.buffer)
    (htakes : ∀ id, takes id (⟨o, r⟩ : Event sys.size) = 0)
    (hreturns : ∀ id, returns id (⟨o, r⟩ : Event sys.size) = 0) :
    Balanced (Function.update gs i g) (record s t i ⟨o, r⟩) := by
  have hsum := reservations_update gs i g
  rw [hreserved, Nat.add_right_cancel_iff] at hsum
  refine h.of_ids (by rw [hflight]) hpool hfresh ?_ (htokens ▸ h.tokens_le) hparts htakes hreturns
  rw [hflight, hsum, htokens, h.tokens_eq]

/-- A buffer from the pool comes into flight. -/
theorem inFlight_of_get {b : Buffer sys.size} :
    inFlight (Function.update gs i ((gs i).next .getBuffer b)) s.shards =
      (b.id, (gs i).reserved) ::ₘ inFlight gs s.shards := by
  have hsum := inFlight_update gs s.shards i ((gs i).next .getBuffer b)
  rw [show ((gs i).next .getBuffer b).held = (b.id, (gs i).reserved) ::ₘ (gs i).held from rfl,
    Multiset.add_cons, ← Multiset.cons_add] at hsum
  exact add_right_cancel hsum

/-- Taking a buffer leaves the tokens balanced: a token that was reserved is now in
flight with the buffer. -/
theorem tokens_eq_of_get {b : Buffer sys.size} (h : Balanced gs s) :
    s.tokens = slotted ((b.id, (gs i).reserved) ::ₘ inFlight gs s.shards) +
      reservations (Function.update gs i ((gs i).next .getBuffer b)) := by
  have hsum := reservations_update gs i ((gs i).next .getBuffer b)
  have hdone : ((gs i).next .getBuffer b).reserved = false := rfl
  rw [hdone, Bool.toNat_false, add_zero] at hsum
  rw [slotted_cons, h.tokens_eq, ← hsum]
  omega

theorem taken_eq_of_get {b : Buffer sys.size} (h : Balanced gs s) (id : Nat) :
    taken (s.log ++ [(i, ⟨.getBuffer, b⟩)]) id =
      returned (s.log ++ [(i, ⟨.getBuffer, b⟩)]) id +
        (((b.id, (gs i).reserved) ::ₘ inFlight gs s.shards).map Prod.fst).count id := by
  rw [taken_concat, returned_concat, Multiset.map_cons, Multiset.count_cons, h.taken_eq]
  simp only [takes, returns, eq_comm (a := id)]
  omega

/-- Taking a buffer, with the slot if one is reserved. -/
theorem balanced_getBuffer {b : Buffer sys.size} (h : Balanced gs s)
    (ht : effect i s .getBuffer b t) :
    Balanced (Function.update gs i ((gs i).next .getBuffer b)) (record s t i ⟨.getBuffer, b⟩) := by
  obtain ⟨hmem, rfl⟩ | ⟨hfresh, rfl⟩ := ht
  · have hids : ((b.id, (gs i).reserved) ::ₘ inFlight gs s.shards).map Prod.fst +
        s.pool.erase b.id = (inFlight gs s.shards).map Prod.fst + s.pool := by
      rw [Multiset.map_cons, Multiset.cons_add, ← Multiset.add_cons, Multiset.cons_erase hmem]
    refine ⟨?_, ?_, ?_, h.tokens_le, ?_, h.queued_part⟩ <;>
      simp only [record, inFlight_of_get]
    · exact hids ▸ h.nodup
    · exact hids ▸ h.lt_fresh
    · exact tokens_eq_of_get h
    · exact taken_eq_of_get h
  · have hids : ((b.id, (gs i).reserved) ::ₘ inFlight gs s.shards).map Prod.fst + s.pool =
        s.fresh ::ₘ ((inFlight gs s.shards).map Prod.fst + s.pool) := by
      rw [Multiset.map_cons, Multiset.cons_add, hfresh]
    refine ⟨?_, ?_, ?_, h.tokens_le, ?_, h.queued_part⟩ <;>
      simp only [record, inFlight_of_get]
    · rw [hids]
      exact Multiset.nodup_cons.mpr ⟨fun hin => (h.lt_fresh _ hin).false, h.nodup⟩
    · intro id hid
      rw [hids, Multiset.mem_cons] at hid
      obtain rfl | hid := hid
      · exact Nat.lt_succ_self _
      · exact Nat.lt_succ_of_lt (h.lt_fresh id hid)
    · exact tokens_eq_of_get h
    · exact taken_eq_of_get h

/-- A buffer that is given back goes out of flight. -/
theorem inFlight_of_put {b : Buffer sys.size} (hmem : (b.id, false) ∈ (gs i).held) :
    inFlight gs s.shards = (b.id, false) ::ₘ
      inFlight (Function.update gs i ((gs i).next (.putBuffer b) ())) s.shards := by
  have hsum := inFlight_update gs s.shards i ((gs i).next (.putBuffer b) ())
  rw [show ((gs i).next (.putBuffer b) ()).held = (gs i).held.erase (b.id, false) from rfl] at hsum
  conv_lhs at hsum => rw [← Multiset.cons_erase hmem, Multiset.add_cons, ← Multiset.cons_add]
  exact (add_right_cancel hsum).symm

/-- Giving a buffer back. -/
theorem balanced_putBuffer {b : Buffer sys.size} (h : Balanced gs s)
    (hmem : (b.id, false) ∈ (gs i).held) (ht : effect i s (.putBuffer b) () t) :
    Balanced (Function.update gs i ((gs i).next (.putBuffer b) ()))
      (record s t i ⟨.putBuffer b, ()⟩) := by
  obtain rfl : t = { s with pool := b.id ::ₘ s.pool } := ht
  have hflight := inFlight_of_put (s := s) hmem
  have hsum := reservations_update gs i ((gs i).next (.putBuffer b) ())
  rw [show ((gs i).next (.putBuffer b) ()).reserved = (gs i).reserved from rfl,
    Nat.add_right_cancel_iff] at hsum
  generalize hT : inFlight (Function.update gs i ((gs i).next (.putBuffer b) ())) s.shards
    = T at hflight
  have hids : T.map Prod.fst + b.id ::ₘ s.pool = (inFlight gs s.shards).map Prod.fst + s.pool := by
    rw [hflight, Multiset.map_cons, Multiset.cons_add, Multiset.add_cons]
  refine ⟨?_, ?_, ?_, h.tokens_le, ?_, h.queued_part⟩ <;> simp only [record, hT]
  · exact hids ▸ h.nodup
  · exact hids ▸ h.lt_fresh
  · rw [hsum, h.tokens_eq, hflight, slotted_cons, Bool.toNat_false, zero_add]
  · intro id
    have htaken := h.taken_eq id
    rw [hflight, Multiset.map_cons, Multiset.count_cons] at htaken
    rw [taken_concat, returned_concat, htaken]
    simp only [takes, returns, eq_comm (a := b.id)]
    omega

/-- Reserving a slot. -/
theorem balanced_sendBatchSlot {sent : Bool} (h : Balanced gs s) (hfree : (gs i).reserved = false)
    (ht : effect i s .sendBatchSlot sent t) :
    Balanced (Function.update gs i { gs i with reserved := sent })
      (record s t i ⟨.sendBatchSlot, sent⟩) := by
  have hflight : inFlight (Function.update gs i { gs i with reserved := sent }) s.shards =
      inFlight gs s.shards := add_right_cancel (inFlight_update gs s.shards i _)
  have hsum := reservations_update gs i { gs i with reserved := sent }
  rw [hfree, Bool.toNat_false, add_zero] at hsum
  simp only [effect] at ht
  split_ifs at ht with hroom
  · obtain ⟨rfl, rfl⟩ := ht
    refine h.of_ids (by rw [hflight]) rfl rfl ?_ hroom h.queued_part (fun _ => rfl) fun _ => rfl
    rw [hflight, hsum, h.tokens_eq]
    rfl
  · obtain ⟨rfl, rfl⟩ := ht
    refine h.of_ids (by rw [hflight]) rfl rfl ?_ h.tokens_le h.queued_part (fun _ => rfl)
      fun _ => rfl
    rw [hflight, hsum, h.tokens_eq]
    rfl

/-- Giving a slot back. -/
theorem balanced_recvBatchSlot {b : Buffer sys.size} (h : Balanced gs s)
    (hmem : (b.id, true) ∈ (gs i).held) (ht : effect i s (.recvBatchSlot b) () t) :
    Balanced (Function.update gs i ((gs i).next (.recvBatchSlot b) ()))
      (record s t i ⟨.recvBatchSlot b, ()⟩) := by
  obtain ⟨hpos, rfl⟩ := ht
  have hflight : (b.id, true) ::ₘ
      inFlight (Function.update gs i ((gs i).next (.recvBatchSlot b) ())) s.shards =
        (b.id, false) ::ₘ inFlight gs s.shards := by
    have hsum := inFlight_update gs s.shards i ((gs i).next (.recvBatchSlot b) ())
    rw [show ((gs i).next (.recvBatchSlot b) ()).held =
      (b.id, false) ::ₘ (gs i).held.erase (b.id, true) from rfl] at hsum
    conv_lhs at hsum => rw [← Multiset.cons_erase hmem]
    rw [Multiset.add_cons, Multiset.add_cons, ← Multiset.cons_add, ← Multiset.cons_add] at hsum
    exact add_right_cancel hsum
  have hreserved := reservations_update gs i ((gs i).next (.recvBatchSlot b) ())
  rw [show ((gs i).next (.recvBatchSlot b) ()).reserved = (gs i).reserved from rfl,
    Nat.add_right_cancel_iff] at hreserved
  have hids := congrArg (Multiset.map Prod.fst) hflight
  rw [Multiset.map_cons, Multiset.map_cons, Multiset.cons_inj_right] at hids
  have hslots := congrArg slotted hflight
  rw [slotted_cons, slotted_cons, Bool.toNat_true, Bool.toNat_false, zero_add] at hslots
  refine h.of_ids hids rfl rfl ?_ (Nat.sub_le_of_le_add (h.tokens_le.trans (Nat.le_add_right _ _)))
    h.queued_part (fun _ => rfl) fun _ => rfl
  rw [hreserved, h.tokens_eq, ← hslots]
  dsimp only
  omega

/-- A job changes hands between a thread and a queue. -/
theorem inFlight_update_queue (gs : sys.ι → Holdings) (shards : Nat → List (SendJob sys.size))
    (i : sys.ι) (g : Holdings) {shard : Nat} (hshard : shard < sys.rt.shardCount)
    {jobs : List (SendJob sys.size)}
    (hsame : g.held + ↑(jobs.map SendJob.entry) =
      (gs i).held + ↑((shards shard).map SendJob.entry)) :
    inFlight (Function.update gs i g) (Function.update shards shard jobs) =
      inFlight gs shards := by
  have hheld := Threads.sum_update_add (Finset.mem_univ i) Holdings.held gs g
  have hqueue := queued_update shards hshard jobs
  refine add_right_cancel (b := (gs i).held + ↑((shards shard).map SendJob.entry)) ?_
  rw [inFlight, inFlight, add_add_add_comm, hheld, hqueue, add_add_add_comm, hsame]

/-- The payloads in the queues stay in their buffers. -/
theorem queued_part_update {shards : Nat → List (SendJob sys.size)} {shard : Nat}
    {jobs : List (SendJob sys.size)}
    (h : ∀ shard, ∀ job ∈ shards shard, job.packet.payload.IsPartOf job.packet.buffer)
    (hjobs : ∀ job ∈ jobs, job.packet.payload.IsPartOf job.packet.buffer) (k : Nat) :
    ∀ job ∈ Function.update shards shard jobs k,
      job.packet.payload.IsPartOf job.packet.buffer := by
  by_cases hk : k = shard
  · subst hk
    rwa [Function.update_self]
  · rw [Function.update_of_ne hk]
    exact h k

/-- A job goes into a queue with its buffer. -/
theorem balanced_trySend {shard : Nat} {job : SendJob sys.size} {sent : Bool} (h : Balanced gs s)
    (hshard : shard < sys.rt.shardCount) (hmem : job.entry ∈ (gs i).held)
    (hpart : job.packet.payload.IsPartOf job.packet.buffer)
    (ht : effect i s (.trySend shard job) sent t) :
    Balanced (Function.update gs i ((gs i).next (.trySend shard job) sent))
      (record s t i ⟨.trySend shard job, sent⟩) := by
  simp only [effect] at ht
  split_ifs at ht with hroom
  · obtain ⟨rfl, rfl⟩ := ht
    refine h.of_inFlight (inFlight_update_queue gs s.shards i _ hshard ?_) rfl rfl rfl rfl
      (queued_part_update h.queued_part ?_) (fun _ => rfl) fun _ => rfl
    · have hheld : (gs i).held.erase job.entry + ↑[job.entry] = (gs i).held := by
        rw [Multiset.coe_singleton, add_comm, Multiset.singleton_add, Multiset.cons_erase hmem]
      rw [List.map_append, ← Multiset.coe_add, ← add_assoc, add_right_comm]
      exact congrArg (· + _) hheld
    · intro job' hjob'
      obtain hjob' | rfl : job' ∈ s.shards shard ∨ job' = job := by simpa using hjob'
      · exact h.queued_part shard job' hjob'
      · exact hpart
  · obtain ⟨rfl, rfl⟩ := ht
    rw [show (gs i).next (.trySend shard job) false = gs i from rfl]
    exact h.of_inFlight (by rw [Function.update_eq_self]) rfl rfl rfl rfl h.queued_part
      (fun _ => rfl) fun _ => rfl

/-- A thread receives the next job of a queue. -/
theorem balanced_receive {shard : Nat} {job : SendJob sys.size} {rest : List (SendJob sys.size)}
    {o : Op sys.size} {r : Res o} (h : Balanced gs s) (hshard : shard < sys.rt.shardCount)
    (hqueue : s.shards shard = job :: rest) (htakes : ∀ id, takes id (⟨o, r⟩ : Event sys.size) = 0)
    (hreturns : ∀ id, returns id (⟨o, r⟩ : Event sys.size) = 0) :
    Balanced (Function.update gs i { gs i with held := job.entry ::ₘ (gs i).held, returned := 0 })
      (record s { s with shards := Function.update s.shards shard rest } i ⟨o, r⟩) := by
  refine h.of_inFlight (inFlight_update_queue gs s.shards i _ hshard ?_) rfl rfl rfl rfl
    (queued_part_update h.queued_part fun job' hjob' => ?_) htakes hreturns
  · rw [hqueue, List.map_cons, ← Multiset.cons_coe, Multiset.add_cons, Multiset.cons_add]
  · exact h.queued_part shard job' (hqueue ▸ List.mem_cons_of_mem job hjob')

/-- An operation that changes neither the accounts nor the shared state they are about. -/
theorem balanced_same {o : Op sys.size} {r : Res o} (h : Balanced gs s) {g : Holdings}
    (hheld : g.held = (gs i).held) (hreserved : g.reserved = (gs i).reserved)
    (hpool : t.pool = s.pool) (hfresh : t.fresh = s.fresh) (htokens : t.tokens = s.tokens)
    (hshards : t.shards = s.shards) (htakes : ∀ id, takes id (⟨o, r⟩ : Event sys.size) = 0)
    (hreturns : ∀ id, returns id (⟨o, r⟩ : Event sys.size) = 0) :
    Balanced (Function.update gs i g) (record s t i ⟨o, r⟩) := by
  refine h.of_inFlight ?_ hreserved hpool hfresh htokens (hshards ▸ h.queued_part) htakes hreturns
  have hsum := inFlight_update gs s.shards i g
  rw [hheld] at hsum
  rw [hshards]
  exact add_right_cancel hsum

/-- **One operation keeps the accounts balanced.** -/
theorem balanced_step {o : Op sys.size} {r : Res o} {s' : sys.State} (h : Balanced gs s)
    (hok : (gs i).Permits sys.rt.shardCount o) (ha : act i s o r s') :
    Balanced (Function.update gs i ((gs i).next o r)) s' ∧ Delivered o r := by
  obtain ⟨t, ht, rfl⟩ := ha
  have hfree : o ≠ .getBuffer → (gs i).reserved = false := fun hne =>
    Bool.eq_false_iff.mpr fun hres => hne (hok.1 hres)
  cases o with
  | getBuffer => exact ⟨balanced_getBuffer h ht, trivial⟩
  | putBuffer b => exact ⟨balanced_putBuffer h hok.2 ht, trivial⟩
  | sendBatchSlot => exact ⟨balanced_sendBatchSlot h (hfree (by simp)) ht, trivial⟩
  | recvBatchSlot b => exact ⟨balanced_recvBatchSlot h hok.2 ht, trivial⟩
  | trySend shard job =>
      obtain ⟨hshard, hmem, hpart⟩ := hok.2
      exact ⟨balanced_trySend h hshard hmem hpart ht, trivial⟩
  | selectJob shard =>
      cases r with
      | none =>
          obtain rfl := ht
          exact ⟨balanced_same h rfl rfl rfl rfl rfl rfl (fun _ => rfl) fun _ => rfl, trivial⟩
      | some job =>
          obtain ⟨rest, hqueue, rfl⟩ := ht
          exact ⟨balanced_receive h hok.2.2 hqueue (fun _ => rfl) fun _ => rfl,
            h.queued_part shard job (hqueue ▸ List.mem_cons_self)⟩
  | tryReceive shard =>
      cases r with
      | none =>
          obtain ⟨-, rfl⟩ := ht
          exact ⟨balanced_same h rfl rfl rfl rfl rfl rfl (fun _ => rfl) fun _ => rfl, trivial⟩
      | some job =>
          obtain ⟨rest, hqueue, rfl⟩ := ht
          exact ⟨balanced_receive h hok.2.2 hqueue (fun _ => rfl) fun _ => rfl,
            h.queued_part shard job (hqueue ▸ List.mem_cons_self)⟩
  | storePort p =>
      obtain ⟨a, -, rfl⟩ := ht
      exact ⟨balanced_same h rfl rfl rfl rfl rfl rfl (fun _ => rfl) fun _ => rfl, trivial⟩
  | loadPort =>
      obtain ⟨a, -, -, rfl⟩ := ht
      exact ⟨balanced_same h rfl rfl rfl rfl rfl rfl (fun _ => rfl) fun _ => rfl, trivial⟩
  | _ =>
      obtain rfl := ht
      exact ⟨balanced_same h rfl rfl rfl rfl rfl rfl (fun _ => rfl) fun _ => rfl, trivial⟩

end Step

/-! ## Whole runs -/

section Run

variable {ps : sys.ι → Relay sys.size Unit} {s : sys.State}

/-- Nothing is in flight when all threads rest and the queues are empty. -/
theorem inFlight_eq_zero {gs : sys.ι → Holdings} {shards : Nat → List (SendJob sys.size)}
    (hrest : ∀ i, (gs i).AtRest) (hempty : ∀ shard < sys.rt.shardCount, shards shard = []) :
    inFlight gs shards = 0 := by
  have hheld : ∑ i, (gs i).held = 0 := Finset.sum_eq_zero fun i _ => (hrest i).1
  have hqueued : queued shards = 0 := Finset.sum_eq_zero fun shard hshard => by
    rw [hempty shard (Finset.mem_range.mp hshard)]
    rfl
  rw [inFlight, hheld, hqueued, add_zero]

theorem reservations_eq_zero {gs : sys.ι → Holdings} (hrest : ∀ i, (gs i).AtRest) :
    reservations gs = 0 :=
  Finset.sum_eq_zero fun i _ => by rw [(hrest i).2, Bool.toNat_false]

/-- Nothing has been taken. -/
theorem balanced_init : Balanced (holdings sys.init.log) sys.init := by
  have hrest (i : sys.ι) : (holdings sys.init.log i).AtRest := ⟨rfl, rfl⟩
  have hflight : inFlight (holdings sys.init.log) sys.init.shards = 0 :=
    inFlight_eq_zero hrest fun _ _ => rfl
  refine ⟨?_, ?_, ?_, Nat.zero_le _, fun id => ?_, fun _ _ hjob => by simp [init] at hjob⟩ <;>
    rw [hflight]
  · exact Multiset.nodup_zero
  · exact fun id hid => by simp [init] at hid
  · rw [reservations_eq_zero hrest]
    rfl
  · rfl

/-- Every thread keeps its books. -/
theorem wp_program (i : sys.ι) :
    (sys.program i).wp (ledger sys.size sys.rt.shardCount) .empty fun _ g => g.AtRest := by
  have hrest : Holdings.empty.AtRest := ⟨rfl, rfl⟩
  cases i with
  | inbound a => exact Holdings.wp_inboundThread hrest
  | preferred a => exact Holdings.wp_responderThread hrest
  | fallback a =>
      simp only [program]
      cases (sys.association a).fallbackV4 with
      | none => exact hrest
      | some v4 => exact Holdings.wp_responderThread hrest
  | worker shard => exact Holdings.wp_workerThread shard.isLt hrest

/-- In every run the accounts are balanced, and every thread keeps to its ledger. -/
theorem balanced_of_reaches (h : Reaches sys ps s) :
    Balanced (holdings s.log) s ∧ ∀ i, (ps i).wp (ledger sys.size sys.rt.shardCount)
      (holdings s.log i) fun _ g => g.AtRest := by
  obtain ⟨gs, ⟨rfl, hbalanced⟩, hwp⟩ := Threads.invariant
    (fun _ => ledger sys.size sys.rt.shardCount)
    (fun gs (s : sys.State) => gs = holdings s.log ∧ Balanced gs s) (fun _ g => g.AtRest)
    (fun {gs s i o r s'} ⟨hgs, hbalanced⟩ hok ha => by
      obtain ⟨hbalanced', hdelivered⟩ := balanced_step hbalanced hok ha
      have hnodup := hbalanced'.nodup_held i
      rw [Function.update_self] at hnodup
      refine ⟨(gs i).next o r, ⟨rfl, hdelivered, hnodup⟩, ?_, hbalanced'⟩
      obtain ⟨t, -, rfl⟩ := ha
      rw [holdings_concat, hgs])
    ⟨rfl, balanced_init⟩ wp_program h
  exact ⟨hbalanced, hwp⟩

/-- What the accounts say about a state of a run. -/
structure Accounted (ps : sys.ι → Relay sys.size Unit) (s : sys.State) : Prop where
  /-- the tokens in `batchSlots` are those of the packets in flight that took one, and
  those a reader is about to take the buffer for -/
  tokens_eq : s.tokens = slotted (inFlight (holdings s.log) s.shards) +
    reservations (holdings s.log)
  tokens_le : s.tokens ≤ sys.rt.batchBufferBudget
  /-- a buffer that was taken is returned once, or in flight in one place -/
  taken_eq : ∀ id, taken s.log id = returned s.log id +
    ((inFlight (holdings s.log) s.shards).map Prod.fst).count id
  nodup : ((inFlight (holdings s.log) s.shards).map Prod.fst).Nodup
  /-- every thread is about to do something that its holdings permit -/
  permits : ∀ {i o k}, ps i = .step o k → (holdings s.log i).Permits sys.rt.shardCount o
  /-- `releaseBuffer` does not wait for a token -/
  tokens_pos : ∀ {i b k}, ps i = .step (.recvBatchSlot b) k → 0 < s.tokens
  /-- no job in a queue and no other thread refers to a buffer that is being returned -/
  unshared : ∀ {i b k}, ps i = .step (.putBuffer b) k →
    (∀ shard < sys.rt.shardCount, ∀ job ∈ s.shards shard,
      job.packet.buffer.id ≠ b.id ∧ b.id ∉ job.packet.payload.backing) ∧
    ∀ j ≠ i, b.id ∉ (holdings s.log j).held.map Prod.fst
  /-- a thread that has ended holds nothing -/
  atRest : ∀ {i}, ps i = .ret () → (holdings s.log i).AtRest
  /-- when no thread holds a buffer and no job is queued, everything was given back -/
  settled : (∀ i, (holdings s.log i).AtRest) → (∀ shard < sys.rt.shardCount, s.shards shard = []) →
    s.tokens = 0 ∧ ∀ id, taken s.log id = returned s.log id

/-- What one thread holds is apart from what the others hold and from the queues. -/
theorem disjoint_of_held {gs : sys.ι → Holdings} {shards : Nat → List (SendJob sys.size)}
    (hnodup : ((inFlight gs shards).map Prod.fst).Nodup) {i : sys.ι} {id : Nat}
    (hid : id ∈ (gs i).held.map Prod.fst) :
    (∀ j ≠ i, id ∉ (gs j).held.map Prod.fst) ∧
      ∀ shard < sys.rt.shardCount, ∀ job ∈ shards shard, job.packet.buffer.id ≠ id := by
  rw [inFlight, ← Finset.add_sum_erase _ _ (Finset.mem_univ i), add_assoc,
    Multiset.map_add] at hnodup
  have hdisjoint := Multiset.disjoint_left.mp (Multiset.nodup_add.mp hnodup).2.2 hid
  refine ⟨fun j hj hmem => hdisjoint ?_, fun shard hshard job hjob hsame => hdisjoint ?_⟩
  · have hle : (gs j).held ≤ ∑ k ∈ Finset.univ.erase i, (gs k).held :=
      Finset.single_le_sum (f := fun k => (gs k).held) (fun _ _ => Multiset.zero_le _)
        (Finset.mem_erase.mpr ⟨hj, Finset.mem_univ j⟩)
    exact Multiset.mem_of_le (Multiset.map_le_map (hle.trans (Multiset.le_add_right _ _))) hmem
  · have hle : (↑((shards shard).map SendJob.entry) : Multiset Entry) ≤ queued shards :=
      Finset.single_le_sum (f := fun shard =>
        (↑((shards shard).map SendJob.entry) : Multiset Entry))
        (fun _ _ => Multiset.zero_le _) (Finset.mem_range.mpr hshard)
    have hentry : job.entry ∈ (↑((shards shard).map SendJob.entry) : Multiset Entry) :=
      Multiset.mem_coe.mpr (List.mem_map_of_mem hjob)
    exact Multiset.mem_map.mpr ⟨job.entry, Multiset.mem_of_le
      (hle.trans (Multiset.le_add_left _ _)) hentry, hsame⟩

theorem accounted_of_reaches (h : Reaches sys ps s) : Accounted ps s := by
  obtain ⟨hbalanced, hwp⟩ := balanced_of_reaches h
  have hnodup := (Multiset.nodup_add.mp hbalanced.nodup).1
  have hpermits {i : sys.ι} {o : Op sys.size} {k : Res o → Relay sys.size Unit}
      (hi : ps i = .step o k) : (holdings s.log i).Permits sys.rt.shardCount o := by
    have hstep := hwp i
    rw [hi] at hstep
    exact hstep.1
  refine ⟨hbalanced.tokens_eq, hbalanced.tokens_le, hbalanced.taken_eq, hnodup, hpermits,
    fun {i b k} hi => ?_, fun {i b k} hi => ?_, fun {i} hi => ?_, fun hrest hempty => ?_⟩
  · have hmem : (b.id, true) ∈ inFlight (holdings s.log) s.shards :=
      Multiset.mem_of_le (held_le_inFlight _ _ i) (hpermits hi).2
    rw [hbalanced.tokens_eq, ← Multiset.cons_erase hmem, slotted_cons, Bool.toNat_true]
    omega
  · have hmem : b.id ∈ (holdings s.log i).held.map Prod.fst :=
      Multiset.mem_map.mpr ⟨_, (hpermits hi).2, rfl⟩
    obtain ⟨hothers, hqueues⟩ := disjoint_of_held hnodup hmem
    refine ⟨fun shard hshard job hjob => ⟨hqueues shard hshard job hjob, fun hback => ?_⟩, hothers⟩
    exact hqueues shard hshard job hjob (hbalanced.queued_part shard job hjob b.id hback).symm
  · have hret := hwp i
    rwa [hi] at hret
  · have hflight := inFlight_eq_zero hrest hempty
    refine ⟨?_, fun id => ?_⟩
    · rw [hbalanced.tokens_eq, hflight, reservations_eq_zero hrest]
      rfl
    · rw [hbalanced.taken_eq, hflight]
      rfl

/-- **The accounts of the relay.**  In every state of every run, whatever the kernel
returns: every buffer taken from the pool is in flight in one place or was returned
once, a token of the budget is held exactly for the packets that took one, no
release waits, and no buffer is returned while something still refers to it.  The history
of each request thread is a sequence of calls of `inboundPump` in which every packet that
the reader returned has exactly one fate, the packet at hand in the last call apart. -/
theorem buffers_accounted (h : Reaches sys ps s) :
    Accounted ps s ∧ ∀ a : Fin sys.count,
      Served sys.rt (sys.association a) ⟨false, [], []⟩ (Threads.own s.log (.inbound a)) :=
  ⟨accounted_of_reaches h, served_of_reaches h⟩

end Run

/-- After a run in which three buffers and the token were taken, none is in flight. -/
theorem buffers_accounted_solo : ∃ ps s, Reaches solo ps s ∧ SoloRun s.log ∧ s.fresh = 3 ∧
    s.tokens = 0 ∧ Accounted ps s ∧ Served solo.rt (solo.association 0) ⟨false, [], []⟩
      (Threads.own s.log (.inbound 0)) := by
  obtain ⟨ps, s, hs, hrun, hfresh, htokens⟩ := reaches_solo
  obtain ⟨haccounted, hserved⟩ := buffers_accounted hs
  exact ⟨ps, s, hs, hrun, hfresh, htokens, haccounted, hserved 0⟩

end System

end Outway.Udp
