import Outway.Udp.DispatchThreads

/-!
# Outway.Udp.DispatchOrder

What holds in every run of the dispatcher: the jobs of an association run one at a time and in
the order in which they were accepted, and no more of them wait than the queue has slots.

`Change` is what one step does to the queues, and `Tracks` ties the queues to the log: what
a shard has accepted is what its worker has taken, and then what is in its queue.
-/

namespace Outway.Udp.Dispatcher

open Prog

variable {d : Dispatcher} {s s' : d.State} {i : d.ι} {o : Op d.size} {r : Res o}

/-! ## One step -/

/-- What an entry does to the queues. -/
inductive Change (s s' : d.State) (i : d.ι) (e : Event d.size) : Prop where
  | keep (hqueue : s'.queue = s.queue) (haccepts : accepts (i, e) = none) (htakes : takes e = none)
  | enqueue (n : Nat) (hfree : (s.queue (d.shard n)).length < d.rt.shardCapacity (d.shard n))
      (hqueue : s'.queue =
        Function.update s.queue (d.shard n) (s.queue (d.shard n) ++ [d.job n]))
      (hi : i = .call n) (haccepts : accepts (i, e) = some n) (htakes : takes e = none)
  | take (w : Fin d.rt.shardCount) (job : d.Job) (rest : List d.Job)
      (hqueue : s.queue w = job :: rest) (hqueue' : s'.queue = Function.update s.queue w rest)
      (hi : i = .worker w) (haccepts : accepts (i, e) = none) (htakes : takes e = some job)

/-- What an operation adds to `queueDepth`. -/
theorem queueDepth_of_act (h : act i s o r s') : s'.queueDepth = s.queueDepth + raises ⟨o, r⟩ := by
  obtain ⟨done, t, -, ht, rfl⟩ := h
  have hkeep {o : Op d.size} {r : Res o} (ho : raises ⟨o, r⟩ = 0)
      (ht : t.queueDepth = s.queueDepth) : t.queueDepth = s.queueDepth + raises ⟨o, r⟩ := by
    rw [ht, ho, add_zero]
  cases o with
  | lifetimeErr =>
      obtain ⟨-, rfl⟩ := ht
      exact hkeep rfl rfl
  | trySend k job =>
      simp only [effect] at ht
      split_ifs at ht <;> obtain ⟨-, rfl⟩ := ht <;> exact hkeep rfl rfl
  | selectJob k | tryReceive k =>
      cases r with
      | none =>
          obtain ⟨-, rfl⟩ := ht
          exact hkeep rfl rfl
      | some job =>
          obtain ⟨rest, -, rfl⟩ := ht
          exact hkeep rfl rfl
  | count c delta =>
      cases c with
      | queueDepth =>
          obtain rfl := ht
          rfl
      | _ =>
          obtain rfl := ht
          exact hkeep rfl rfl
  | _ =>
      obtain rfl := ht
      exact hkeep rfl rfl

/-- The operations of a job on its sockets leave the queues alone. -/
theorem effect_of_quiet {t : d.State} (ho : Work.Quiet o) (h : effect s o r t) : t = s := by
  cases o with
  | ctxErr | reportUDPError err | recvBatchSlot b => exact h
  | count c delta =>
      cases c with
      | errors => exact h
      | _ => exact ho.elim
  | _ => exact ho.elim

theorem change_of_call {n : Nat} (hok : callPermits (d.shard n) (d.job n) (called s n) o)
    (h : act (.call n) s o r s') : Change s s' (.call n) ⟨o, r⟩ := by
  obtain ⟨done, t, -, ht, rfl⟩ := h
  have hmove := Call.Allows.move hok r
  generalize progress (called s n) = p at hmove
  generalize p.next ⟨o, r⟩ = p' at hmove
  cases hmove with
  | expired | check =>
      obtain ⟨-, rfl⟩ := ht
      exact .keep rfl rfl rfl
  | enqueue =>
      simp only [effect] at ht
      split_ifs at ht with hfree
      · obtain ⟨-, rfl⟩ := ht
        exact .enqueue n hfree rfl rfl rfl rfl
      · exact ht.1.elim
  | drop =>
      simp only [effect] at ht
      split_ifs at ht with hfree
      · exact ht.1.elim
      · obtain ⟨-, rfl⟩ := ht
        exact .keep rfl rfl rfl
  | raise | countDrop delta | giveSlot b | release b =>
      obtain rfl := ht
      exact .keep rfl rfl rfl

theorem change_of_worker {w : Fin d.rt.shardCount} (hok : workPermits w (worked s w) o)
    (h : act (.worker w) s o r s') : Change s s' (.worker w) ⟨o, r⟩ := by
  obtain ⟨done, t, -, ht, rfl⟩ := h
  have hmove := Work.Allows.move hok r
  generalize work (worked s w) = p at hmove
  generalize p.next ⟨o, r⟩ = p' at hmove
  cases hmove with
  | take job | drain job =>
      obtain ⟨rest, hqueue, rfl⟩ := ht
      exact .take w job rest hqueue rfl rfl rfl rfl
  | stop | leave =>
      obtain ⟨-, rfl⟩ := ht
      exact .keep rfl rfl rfl
  | quiet job run sent r ho =>
      obtain rfl := effect_of_quiet ho ht
      exact .keep rfl rfl (Work.silent_of_quiet ho r).takes_eq
  | lower job run | send job err | release job run sent =>
      obtain rfl := ht
      exact .keep rfl rfl rfl

/-- What one operation changes. -/
theorem change_of_act (hok : permits i (Threads.own s.log i) o) (h : act i s o r s') :
    Change s s' i ⟨o, r⟩ := by
  cases i with
  | call n => exact change_of_call hok h
  | worker w => exact change_of_worker hok h

/-! ## The queues and the log -/

@[simp] theorem accepted_concat (log : List (d.ι × Event d.size)) (x : d.ι × Event d.size) :
    accepted (log ++ [x]) = accepted log ++ (accepts x).toList := filterMap_concat _ _ _

/-- The calls that a shard has accepted. -/
def acceptedBy (log : List (d.ι × Event d.size)) (w : Nat) : List Nat :=
  (accepted log).filter fun n => d.shard n = w

/-- A shard accepts with the last entry, or has before. -/
theorem acceptedBy_concat (log : List (d.ι × Event d.size)) (x : d.ι × Event d.size) (w : Nat) :
    acceptedBy (log ++ [x]) w =
      acceptedBy log w ++ (accepts x).toList.filter fun n => d.shard n = w := by
  rw [acceptedBy, accepted_concat, List.filter_append]
  rfl

/-- An entry is one of its own worker. -/
theorem worked_of_act (h : act i s o r s') (w : Fin d.rt.shardCount) :
    worked s' w = if i = .worker w then worked s w ++ [⟨o, r⟩] else worked s w := by
  rw [worked, log_of_act h, Threads.own_concat, Function.update_apply]
  split_ifs with hi hi' hi'
  · rw [← hi]
    rfl
  · exact absurd hi.symm hi'
  · exact absurd hi'.symm hi
  · rfl

/-- A worker takes from its own queue. -/
theorem takes_of_act (h : act i s o r s') (w : Fin d.rt.shardCount) :
    (worked s' w).filterMap takes = (worked s w).filterMap takes ++
      if i = .worker w then (takes ⟨o, r⟩).toList else [] := by
  rw [worked_of_act h]
  split_ifs with hi
  · rw [filterMap_concat]
  · rw [List.append_nil]

/-- What is put into a queue goes to its end, and what its worker takes comes from its front. -/
theorem Change.queue_eq {e : Event d.size} (h : Change s s' i e) (w : Fin d.rt.shardCount) :
    s.queue w ++ ((accepts (i, e)).toList.filter fun n => d.shard n = w).map d.job =
      (if i = .worker w then (takes e).toList else []) ++ s'.queue w := by
  cases h with
  | keep hqueue haccepts htakes =>
      rw [haccepts, htakes, hqueue]
      simp
  | enqueue n hfree hqueue hi haccepts htakes =>
      rw [haccepts, htakes, hqueue]
      by_cases hw : d.shard n = w
      · rw [← hw, Function.update_self]
        simp
      · rw [Function.update_of_ne (Ne.symm hw)]
        simp [hw]
  | take v job rest hqueue hqueue' hi haccepts htakes =>
      rw [haccepts, htakes, hqueue', hi]
      by_cases hv : v = w
      · rw [hv] at hqueue ⊢
        rw [if_pos rfl, Function.update_self, hqueue]
        simp
      · have hne : (w : Nat) ≠ v := fun heq => hv (Fin.ext heq.symm)
        rw [if_neg (by simpa using hv), Function.update_of_ne hne]
        simp

/-- How the queues follow from the log. -/
structure Tracks (s : d.State) : Prop where
  fifo : ∀ w : Fin d.rt.shardCount,
    (acceptedBy s.log w).map d.job = (worked s w).filterMap takes ++ s.queue w
  capacity : ∀ k, (s.queue k).length ≤ d.rt.shardCapacity k
  total : (accepted s.log).length = (s.log.filterMap fun x => takes x.2).length +
    ∑ k ∈ Finset.range d.rt.shardCount, (s.queue k).length
  depth : s.queueDepth = (s.log.map fun x => raises x.2).sum

/-- The queues are empty. -/
theorem tracks_init : Tracks d.init := by
  constructor
  · intro w
    rfl
  · intro k
    exact Nat.zero_le _
  · simp [init, accepted]
  · rfl

section Step

variable (h : Tracks s) (hok : permits i (Threads.own s.log i) o) (ha : act i s o r s')
include h hok ha

/-- A queue is what was accepted and not taken, in order. -/
theorem Tracks.fifo_step (w : Fin d.rt.shardCount) :
    (acceptedBy s'.log w).map d.job = (worked s' w).filterMap takes ++ s'.queue w := by
  rw [log_of_act ha, acceptedBy_concat, List.map_append, h.fifo w, takes_of_act ha,
    List.append_assoc, List.append_assoc, (change_of_act hok ha).queue_eq w]

/-- No queue is longer than its capacity. -/
theorem Tracks.capacity_step (k : Nat) : (s'.queue k).length ≤ d.rt.shardCapacity k := by
  have hk := h.capacity k
  cases change_of_act hok ha with
  | keep hqueue haccepts htakes => rwa [hqueue]
  | enqueue n hfree hqueue hi haccepts htakes =>
      rw [hqueue, Function.update_apply]
      split_ifs with hn
      · rw [hn, List.length_append, List.length_singleton]
        omega
      · exact hk
  | take v job rest hqueue hqueue' hi haccepts htakes =>
      rw [hqueue', Function.update_apply]
      split_ifs with hv
      · rw [hv, hqueue, List.length_cons] at hk
        rw [hv]
        omega
      · exact hk

/-- All that was accepted was taken or waits. -/
theorem Tracks.total_step : (accepted s'.log).length =
    (s'.log.filterMap fun x => takes x.2).length +
    ∑ k ∈ Finset.range d.rt.shardCount, (s'.queue k).length := by
  rw [log_of_act ha, accepted_concat, filterMap_concat, List.length_append, List.length_append,
    h.total]
  cases change_of_act hok ha with
  | keep hqueue haccepts htakes =>
      rw [haccepts, htakes, hqueue]
      simp
  | enqueue n hfree hqueue hi haccepts htakes =>
      have hmem : d.shard n ∈ Finset.range d.rt.shardCount :=
        Finset.mem_range.mpr (d.rt.shardOf_lt _)
      have hsum := Threads.sum_update_add hmem List.length s.queue
        (s.queue (d.shard n) ++ [d.job n])
      rw [List.length_append, List.length_singleton] at hsum
      rw [haccepts, htakes, hqueue]
      simp only [Option.toList_some, Option.toList_none, List.length_singleton, List.length_nil]
      omega
  | take v job rest hqueue hqueue' hi haccepts htakes =>
      have hsum := Threads.sum_update_add (Finset.mem_range.mpr v.isLt) List.length s.queue rest
      rw [hqueue, List.length_cons] at hsum
      rw [haccepts, htakes, hqueue']
      simp only [Option.toList_some, Option.toList_none, List.length_singleton, List.length_nil]
      omega

theorem Tracks.step : Tracks s' := by
  refine ⟨h.fifo_step hok ha, h.capacity_step hok ha, h.total_step hok ha, ?_⟩
  rw [queueDepth_of_act ha, log_of_act ha, h.depth]
  simp

end Step

variable {ps : d.ι → Relay d.size Unit}

theorem Reaches.tracks (h : d.Reaches (ps, s)) : Tracks s :=
  (Threads.logged State.log log_of_act permits (fun _ _ => True) Tracks
    (fun h hok ha => h.step hok ha) rfl tracks_init wp_program h).1

/-! ## The order of the jobs -/

/-- The jobs of an association that workers have begun to run, in that order. -/
def executions (log : List (d.ι × Event d.size)) (id : UInt64) : List d.Job :=
  (log.filterMap fun x => runs x.2).filter fun job => job.associationID = id

/-- The jobs of an association whose packets workers have sent, in that order. -/
def packets (log : List (d.ι × Event d.size)) (id : UInt64) : List d.Job :=
  (log.filterMap fun x => sends x.2).filter fun job => job.associationID = id

/-- The calls of an association that were accepted, in that order. -/
def acceptedOf (log : List (d.ι × Event d.size)) (id : UInt64) : List Nat :=
  (accepted log).filter fun n => d.association n = id

/-- What a client of the dispatcher relies on. -/
structure Orderly (s : d.State) : Prop where
  /-- the jobs of an association run in the order in which they were accepted -/
  ordered : ∀ id, executions s.log id <+: (acceptedOf s.log id).map d.job
  /-- a call is accepted once -/
  once : (accepted s.log).Nodup
  /-- a packet is sent when its job runs, once -/
  sent : ∀ id, (packets s.log id).Sublist (executions s.log id)
  /-- no two jobs of an association run at a time -/
  alone : ∀ id, ∑ w, (executing (worked s w)).countP (·.associationID = id) ≤ 1
  /-- the accepted jobs that were not taken from their queues -/
  waiting : (accepted s.log).length ≤
    (s.log.filterMap fun x => takes x.2).length + d.rt.sendQueueSize
  refused : ∀ n, returned (called s n) = some false → n ∉ accepted s.log

/-- A job that is run was taken. -/
theorem takes_of_runs {size : Nat} {e : Event size} {job : SendJob size} (h : runs e = some job) :
    takes e = some job := by
  unfold runs at h
  split at h
  · exact h
  · cases h

/-- How often a call was accepted. -/
theorem count_accepted (s : d.State) (n : Nat) :
    (accepted s.log).count n = (called s n).countP admits := by
  rw [accepted, called, Threads.own, List.count, List.countP_filterMap, List.countP_filterMap]
  refine List.countP_congr fun x _ => ?_
  obtain ⟨i, e⟩ := x
  cases i with
  | worker w => simp [accepts]
  | call m =>
      cases hadmits : admits e <;> by_cases hm : m = n <;> simp [accepts, hadmits, hm]

/-- The worker of an association's shard. -/
def workerOf (d : Dispatcher) (id : UInt64) : Fin d.rt.shardCount :=
  ⟨d.rt.shardOf id, d.rt.shardOf_lt id⟩

/-- The calls of an association are accepted by one shard. -/
theorem filter_acceptedBy (log : List (d.ι × Event d.size)) (id : UInt64) :
    ((acceptedBy log (d.workerOf id)).map d.job).filter (fun job => job.associationID = id) =
      (acceptedOf log id).map d.job := by
  rw [List.filter_map, acceptedBy, List.filter_filter, acceptedOf]
  refine congrArg _ (List.filter_congr fun n _ => ?_)
  show (decide (d.association n = id) && decide (d.shard n = d.workerOf id)) =
    decide (d.association n = id)
  by_cases hn : d.association n = id
  · have hshard : d.shard n = d.workerOf id := congrArg d.rt.shardOf hn
    rw [decide_eq_true hshard, Bool.and_true]
  · rw [decide_eq_false hn, Bool.false_and]

section Order

variable (h : d.Reaches (ps, s))
include h

/-- A job is accepted when its call was let in. -/
theorem Reaches.mem_accepted_iff (n : Nat) :
    n ∈ accepted s.log ↔ (progress (called s n)).admitted = true := by
  rw [← List.count_pos_iff, count_accepted, (h.calls n).countP_admits]
  cases (progress (called s n)).admitted <;> simp

/-- A worker takes the jobs of its own shard. -/
theorem Reaches.shardOf_of_mem_takes {w : Fin d.rt.shardCount} {job : d.Job}
    (hjob : job ∈ (worked s w).filterMap takes) : d.rt.shardOf job.associationID = w := by
  have hmem : job ∈ (acceptedBy s.log w).map d.job := by
    rw [h.tracks.fifo w]
    exact List.mem_append_left _ hjob
  obtain ⟨n, hn, rfl⟩ := List.mem_map.mp hmem
  exact of_decide_eq_true (List.mem_filter.mp hn).2

/-- What is done with the jobs of an association can be read off the entries of one worker. -/
theorem Reaches.filter_filterMap_eq {f : Event d.size → Option d.Job}
    (hcall : ∀ n, (called s n).filterMap f = [])
    (hwork : ∀ w, (worked s w).filterMap f ⊆ (worked s w).filterMap takes) (id : UInt64) :
    (s.log.filterMap fun x => f x.2).filter (fun job => job.associationID = id) =
      ((worked s (d.workerOf id)).filterMap f).filter fun job => job.associationID = id := by
  rw [List.filter_filterMap, List.filter_filterMap]
  symm
  apply Threads.filterMap_own
  intro x hx hne
  obtain ⟨i, e⟩ := x
  cases hf : f e with
  | none => rfl
  | some job =>
      cases i with
      | call n =>
          have := List.filterMap_eq_nil_iff.mp (hcall n) e (Threads.mem_own.mpr hx)
          rw [hf] at this
          cases this
      | worker v =>
          have hjob : job ∈ (worked s v).filterMap f :=
            List.mem_filterMap.mpr ⟨e, Threads.mem_own.mpr hx, hf⟩
          have hshard := h.shardOf_of_mem_takes (hwork v hjob)
          have hid : job.associationID ≠ id := by
            intro hid
            rw [hid] at hshard
            exact hne (congrArg Thread.worker (Fin.ext hshard.symm))
          simp [Option.filter, hid]

/-- The jobs of an association are run by one worker. -/
theorem Reaches.executions_eq (id : UInt64) : executions s.log id =
    ((worked s (d.workerOf id)).filterMap runs).filter fun job => job.associationID = id := by
  refine h.filter_filterMap_eq (fun n => ?_) (fun w => (h.works w).runs_initial.subset) id
  refine List.filterMap_eq_nil_iff.mpr fun e he => ?_
  have htakes := List.filterMap_eq_nil_iff.mp (h.calls n).takes_eq e he
  cases hruns : runs e with
  | none => rfl
  | some job => rw [takes_of_runs hruns] at htakes; cases htakes

/-- What a worker sends it has begun to run, in that order. -/
theorem Reaches.sends_sublist (w : Fin d.rt.shardCount) :
    ((worked s w).filterMap sends).Sublist ((worked s w).filterMap runs) :=
  (List.sublist_append_left _ _).trans (h.works w).sends_sublist

/-- The packets of an association leave by one worker. -/
theorem Reaches.packets_eq (id : UInt64) : packets s.log id =
    ((worked s (d.workerOf id)).filterMap sends).filter fun job => job.associationID = id :=
  h.filter_filterMap_eq (fun n => (h.calls n).sends_eq)
    (fun w => List.Subset.trans (h.sends_sublist w).subset (h.works w).runs_initial.subset) id

/-- An association's jobs are run in the order they were accepted. -/
theorem Reaches.ordered (id : UInt64) :
    executions s.log id <+: (acceptedOf s.log id).map d.job := by
  have htaken : (worked s (d.workerOf id)).filterMap takes <+:
      (acceptedBy s.log (d.workerOf id)).map d.job := by
    rw [h.tracks.fifo]
    exact List.prefix_append _ _
  rw [h.executions_eq, ← filter_acceptedBy]
  exact ((h.works _).runs_initial.trans htaken).filter _

/-- One at a time. -/
theorem Reaches.alone (id : UInt64) :
    ∑ w, (executing (worked s w)).countP (·.associationID = id) ≤ 1 := by
  have hother (w : Fin d.rt.shardCount) (hw : w ≠ d.workerOf id) :
      (executing (worked s w)).countP (·.associationID = id) = 0 := by
    rw [List.countP_eq_zero, (h.works w).executing_eq]
    intro job hjob hid
    have htaken := (h.works w).hand_subset (Work.running_subset _ hjob)
    have hshard := h.shardOf_of_mem_takes htaken
    rw [of_decide_eq_true hid] at hshard
    exact hw (Fin.ext hshard.symm)
  rw [Finset.sum_eq_single (d.workerOf id) (fun w _ hw => hother w hw) (by simp),
    (h.works _).executing_eq]
  exact List.countP_le_length.trans (Work.length_running_le _)

/-- And no more wait than the queues have room for. -/
theorem Reaches.waiting : (accepted s.log).length ≤
    (s.log.filterMap fun x => takes x.2).length + d.rt.sendQueueSize := by
  rw [h.tracks.total, ← d.rt.sum_shardCapacity]
  exact Nat.add_le_add_left (Finset.sum_le_sum fun k _ => h.tracks.capacity k) _

theorem Reaches.orderly : Orderly s where
  ordered := h.ordered
  once := by
    rw [List.nodup_iff_count_le_one]
    intro n
    rw [count_accepted, (h.calls n).countP_admits]
    exact Bool.toNat_le _
  sent id := by
    rw [h.packets_eq, h.executions_eq]
    exact (h.sends_sublist _).filter _
  alone := h.alone
  waiting := h.waiting
  refused n hn := by
    rw [h.mem_accepted_iff]
    rw [(h.calls n).returned_eq] at hn
    cases hp : progress (called s n) <;> simp_all [Call.result, Call.admitted]

end Order

/-- Every shard exists and has a slot, the slots are those of the configured queue, and whatever
the calls and the workers do, the jobs are handled in order. -/
theorem dispatch_orderly (d : Dispatcher) (ps : d.ι → Relay d.size Unit) (s : d.State)
    (h : d.Reaches (ps, s)) :
    ((∀ id, d.rt.shardOf id < d.rt.startDispatcher.length) ∧
      (∀ capacity ∈ d.rt.startDispatcher, 1 ≤ capacity) ∧
      d.rt.startDispatcher.sum = d.rt.sendQueueSize) ∧ Orderly s :=
  ⟨⟨d.rt.shardOf_lt_length, d.rt.one_le_of_mem_startDispatcher, d.rt.sum_startDispatcher⟩,
    h.orderly⟩

/-! ### Runs -/

/-- A queue of one slot. -/
def oneSlot : Runtime :=
  { batchRuntime with
    batchSize := 1
    batchBufferBudget := 0
    sendWorkers := 0
    batchSize_pos := le_rfl }

/-- Calls with a packet for a host that is not cached. -/
def single : Dispatcher where
  rt := oneSlot
  job _ :=
    { associationID := 1
      assoc := 0
      packet :=
        { payload := ⟨some 0, [0x2a]⟩
          buffer := zeroBuffer oneSlot.bufferSize
          frag := 0
          dst := .domain [0x61] 53
          src := ⟨.v4 0x7f000001#32, 4000⟩
          batchSlot := false }
      host := [0x61]
      port := 53 }
  rounds := 2

/-- The shard of `single`. -/
def singleShard : Fin single.rt.shardCount := ⟨0, by decide⟩

/-- The first call is accepted and the second finds the queue full; then the worker takes the
job. -/
theorem reaches_full : ∃ ps s, single.Reaches (ps, s) ∧ accepted s.log = [0] ∧
    returned (called s 1) = some false ∧ executing (worked s singleShard) = [single.job 0] := by
  have hstart : single.Reaches (single.program, single.init) := .refl
  have h₁ := hstart.step (i := .call 0) (o := .lifetimeErr) rfl false
    ⟨false, _, id, ⟨rfl, rfl⟩, rfl⟩
  have h₂ := h₁.step (i := .call 0) (o := .trySend 0 (single.job 0)) rfl true
    ⟨false, _, id, ⟨rfl, rfl⟩, rfl⟩
  have h₃ := h₂.step (i := .call 1) (o := .lifetimeErr) rfl false
    ⟨false, _, id, ⟨rfl, rfl⟩, rfl⟩
  have h₄ := h₃.step (i := .call 1) (o := .trySend 0 (single.job 1)) rfl false
    ⟨false, _, id, ⟨rfl, rfl⟩, rfl⟩
  have h₅ := h₄.step (i := .call 1) (o := .count .queueDrops 1) rfl () ⟨false, _, id, rfl, rfl⟩
  have h₆ := h₅.step (i := .worker singleShard) (o := .selectJob 0) rfl (some (single.job 0))
    ⟨false, _, id, ⟨_, rfl, rfl⟩, rfl⟩
  exact ⟨_, _, h₆, rfl, rfl, rfl⟩

/-- The second job finds the queue full. -/
theorem dispatch_orderly_full : ∃ ps s, single.Reaches (ps, s) ∧ accepted s.log = [0] ∧
    returned (called s 1) = some false ∧ Orderly s := by
  obtain ⟨ps, s, h, haccepted, hrefused, -⟩ := reaches_full
  exact ⟨ps, s, h, haccepted, hrefused, (dispatch_orderly single ps s h).2⟩

end Outway.Udp.Dispatcher
