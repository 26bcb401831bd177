import Outway.Udp.DispatchOrder

/-!
# Outway.Udp.DispatchShutdown

What is left of the accepted jobs when the dispatcher has stopped.

`dispatch` checks the lifetime and enqueues in two steps, and a worker may have drained its
queue and left in between.  `settled_iff` says that this is the only way to lose a job: the
jobs in the queues are then the ones that were enqueued late.
-/

namespace Outway.Udp.Dispatcher

open Prog

variable {d : Dispatcher} {s s' : d.State} {i : d.ι} {o : Op d.size} {r : Res o}

/-! ## Late jobs -/

/-- The worker of shard `w` has left. -/
def Left (log : List (d.ι × Event d.size)) (w : Nat) : Prop := ∃ x ∈ log, leaves w x.2 = true

/-- A worker leaves with its last entry. -/
theorem left_concat {log : List (d.ι × Event d.size)} {x : d.ι × Event d.size} {w : Nat} :
    Left (log ++ [x]) w ↔ Left log w ∨ leaves w x.2 = true := by
  simp [Left, or_and_right, exists_or]

theorem dropWhile_eq_nil_iff_not_left {log : List (d.ι × Event d.size)} {w : Nat} :
    (log.dropWhile fun x => !leaves w x.2) = [] ↔ ¬ Left log w := by
  simp only [List.dropWhile_eq_nil_iff, Left, Bool.not_eq_true', not_exists, not_and,
    Bool.not_eq_true]

/-- What is accepted behind that is late. -/
theorem late_concat_of_left {log : List (d.ι × Event d.size)} {w : Nat} (h : Left log w)
    (x : d.ι × Event d.size) :
    late (log ++ [x]) w = late log w ++ (accepts x).toList.filter fun n => d.shard n = w := by
  have hne : ¬ (log.dropWhile fun x => !leaves w x.2).isEmpty = true := by
    rw [List.isEmpty_iff, dropWhile_eq_nil_iff_not_left, not_not]
    exact h
  rw [late, List.dropWhile_append, if_neg hne, accepted_concat, List.filter_append]
  rfl

theorem late_concat_of_leaves {log : List (d.ι × Event d.size)} {w : Nat} (h : ¬ Left log w)
    {x : d.ι × Event d.size} (hx : leaves w x.2 = true) :
    late (log ++ [x]) w = (accepts x).toList.filter fun n => d.shard n = w := by
  have hnil := dropWhile_eq_nil_iff_not_left.mpr h
  have haccepted : accepted [x] = (accepts x).toList := accepted_concat [] x
  rw [late, List.dropWhile_append, hnil, List.isEmpty_nil, if_pos rfl, List.dropWhile_cons, hx,
    ← haccepted]
  rfl

/-- What a shard holds when its worker has left. -/
structure Strands (s : d.State) : Prop where
  gone : ∀ w : Fin d.rt.shardCount, Left s.log w → work (worked s w) = .gone
  queue_eq : ∀ w : Fin d.rt.shardCount, Left s.log w → s.queue w = (late s.log w).map d.job

/-- Nobody has left. -/
theorem strands_init : Strands d.init := by
  constructor <;> simp [init, Left]

/-- Leaving takes nothing. -/
theorem takes_of_leaves {size w : Nat} {e : Event size} (h : leaves w e = true) :
    takes e = none := by
  unfold leaves at h
  split at h
  · rfl
  · cases h

/-- The entry with which a worker leaves is its own. -/
theorem worker_of_leaves (hok : permits i (Threads.own s.log i) o) {w : Fin d.rt.shardCount}
    (hw : leaves w ⟨o, r⟩ = true) :
    i = .worker w ∧ (work (worked s w)).next ⟨o, r⟩ = .gone := by
  cases i with
  | call n =>
      rw [(Call.Allows.move hok r).leaves_eq] at hw
      cases hw
  | worker v =>
      have hmove := Work.Allows.move hok r
      obtain rfl : v = w := Fin.ext (hmove.eq_shard hw)
      exact ⟨rfl, hmove.leaves_eq.mp hw⟩

/-- A worker leaves when its queue is empty. -/
theorem empty_of_leaves (h : act i s o r s') {w : Nat} (hw : leaves w ⟨o, r⟩ = true) :
    s.queue w = [] := by
  obtain ⟨done, t, -, ht, rfl⟩ := h
  cases o with
  | tryReceive k =>
      cases r with
      | none =>
          obtain rfl : k = w := of_decide_eq_true hw
          exact ht.1
      | some job => cases hw
  | _ => cases hw

section Step

variable (h : Strands s) (hok : permits i (Threads.own s.log i) o) (ha : act i s o r s')
include h hok ha

/-- A worker that has left does nothing more. -/
theorem Strands.ne_worker {w : Fin d.rt.shardCount} (hleft : Left s.log w) : i ≠ .worker w := by
  rintro rfl
  exact (Work.Allows.move hok r).ne_gone (h.gone w hleft)

/-- A worker that has left does not come back. -/
theorem Strands.gone_step (w : Fin d.rt.shardCount) (hleft : Left s'.log w) :
    work (worked s' w) = .gone := by
  rw [log_of_act ha, left_concat] at hleft
  rw [worked_of_act ha]
  obtain hleft | hleaves := hleft
  · rw [if_neg (h.ne_worker hok ha hleft)]
    exact h.gone w hleft
  · obtain ⟨rfl, hgone⟩ := worker_of_leaves hok hleaves
    rw [if_pos rfl, work_concat, hgone]

/-- What is left in its queue is what was accepted too late. -/
theorem Strands.queue_step (w : Fin d.rt.shardCount) (hleft : Left s'.log w) :
    s'.queue w = (late s'.log w).map d.job := by
  rw [log_of_act ha] at hleft ⊢
  have hqueue := (change_of_act hok ha).queue_eq w
  by_cases hbefore : Left s.log w
  · rw [if_neg (h.ne_worker hok ha hbefore), List.nil_append] at hqueue
    rw [late_concat_of_left hbefore, List.map_append, ← h.queue_eq w hbefore, hqueue]
  · -- the worker finds its queue empty and leaves
    have hleaves := (left_concat.mp hleft).resolve_left hbefore
    obtain ⟨rfl, -⟩ := worker_of_leaves hok hleaves
    rw [if_pos rfl, takes_of_leaves hleaves, empty_of_leaves ha hleaves] at hqueue
    rw [late_concat_of_leaves hbefore hleaves]
    exact hqueue.symm

theorem Strands.step : Strands s' := ⟨h.gone_step hok ha, h.queue_step hok ha⟩

end Step

variable {ps : d.ι → Relay d.size Unit}

theorem Reaches.strands (h : d.Reaches (ps, s)) : Strands s :=
  (Threads.logged State.log log_of_act permits (fun _ _ => True) Strands
    (fun h hok ha => h.step hok ha) rfl strands_init wp_program h).1

/-! ## The end -/

/-- Every worker has left, and every call that was made has returned. -/
structure Stopped (s : d.State) : Prop where
  left : ∀ w : Fin d.rt.shardCount, Left s.log w
  returned : ∀ n, called s n = [] ∨ (returned (called s n)).isSome = true

/-- No accepted job is lost. -/
structure Settled (s : d.State) : Prop where
  /-- the calls that returned true are those whose jobs were enqueued -/
  accepted_iff : ∀ n, returned (called s n) = some true ↔ n ∈ accepted s.log
  /-- the worker has released the packets of the jobs that its shard accepted, one by one -/
  released : ∀ w : Fin d.rt.shardCount, (worked s w).filterMap releases =
    (acceptedBy s.log w).map fun n => (d.job n).packet.buffer
  /-- and the callers have not released them as well -/
  kept : ∀ n ∈ accepted s.log, (called s n).filterMap releases = []
  empty : ∀ w : Fin d.rt.shardCount, s.queue w = []
  queueDepth_eq : s.queueDepth = 0

/-- What an entry changes of the count of jobs in the queues that `queueDepth` should be. -/
def balance {size : Nat} (e : Event size) : Int :=
  raises e - (admits e).toNat + (takes e).toList.length

/-- The counter of queued packets, by the entries. -/
theorem sum_balance {size : Nat} (es : List (Event size)) : (es.map balance).sum =
    (es.map raises).sum - es.countP admits + (es.filterMap takes).length := by
  induction es using List.reverseRecOn with
  | nil => rfl
  | append_singleton es e ih =>
      rw [List.map_append, List.sum_append, ih, List.map_append, List.sum_append, countP_concat,
        filterMap_concat, List.length_append]
      simp [balance]
      ring

/-- Every accepted job was let in once. -/
theorem Reaches.length_accepted (h : d.Reaches (ps, s)) :
    (accepted s.log).length = s.log.countP fun x => admits x.2 := by
  rw [accepted, List.length_filterMap_eq_countP]
  refine List.countP_congr fun x hx => ?_
  obtain ⟨i, e⟩ := x
  cases i with
  | call n => cases hadmits : admits e <;> simp [accepts, hadmits]
  | worker w =>
      have hnever := List.countP_eq_zero.mp (h.works w).countP_admits e (Threads.mem_own.mpr hx)
      simp [accepts, hnever]

section Stopped

variable (h : d.Reaches (ps, s)) (hstop : Stopped s)
include h hstop

/-- When all have stopped, every worker is gone. -/
theorem Reaches.work_of_stopped (w : Fin d.rt.shardCount) : work (worked s w) = .gone :=
  h.strands.gone w (hstop.left w)

/-- And every call has ended. -/
theorem Reaches.progress_of_stopped (n : Nat) : progress (called s n) = .entered ∨
    progress (called s n) = .accepted ∨ progress (called s n) = .refused := by
  obtain hnil | hreturned := hstop.returned n
  · rw [hnil]
    exact .inl rfl
  · rw [(h.calls n).returned_eq] at hreturned
    cases hp : progress (called s n) <;> simp_all [Call.result]

/-- No thread has a job that it has moved and not counted. -/
theorem Reaches.balance_of_stopped (i : d.ι) : ((Threads.own s.log i).map balance).sum = 0 := by
  rw [sum_balance]
  cases i with
  | call n =>
      have hcall := h.calls n
      rw [called] at hcall
      rw [hcall.depth, hcall.countP_admits, hcall.takes_eq]
      obtain hp | hp | hp := h.progress_of_stopped hstop n <;> rw [called] at hp <;> rw [hp] <;> rfl
  | worker w =>
      have hwork := h.works w
      have hgone := h.work_of_stopped hstop w
      have hdepth := hwork.depth
      rw [hgone] at hdepth
      rw [worked] at hwork hdepth
      rw [hwork.countP_admits]
      simpa [Work.uncounted] using hdepth

/-- The jobs that `queueDepth` counts are those in the queues. -/
theorem Reaches.queueDepth_of_stopped :
    s.queueDepth = ∑ k ∈ Finset.range d.rt.shardCount, ((s.queue k).length : Int) := by
  have hzero : (s.log.map fun x => balance x.2).sum = 0 := by
    have hmem : ∀ x ∈ s.log, x.1 ∈ (s.log.map Prod.fst).toFinset := fun x hx =>
      List.mem_toFinset.mpr (List.mem_map_of_mem hx)
    rw [← Threads.sum_own balance hmem]
    exact Finset.sum_eq_zero fun i _ => h.balance_of_stopped hstop i
  have hsum := sum_balance (s.log.map Prod.snd)
  rw [List.map_map, List.map_map, List.countP_map, List.filterMap_map] at hsum
  have htotal : ((accepted s.log).length : Int) = _ := congrArg Nat.cast h.tracks.total
  rw [h.length_accepted] at htotal
  push_cast at htotal
  have hdepth := h.tracks.depth
  simp only [Function.comp_def] at hsum
  linarith

/-- A call returned true exactly when its job was accepted. -/
theorem Reaches.accepted_iff_of_stopped (n : Nat) :
    returned (called s n) = some true ↔ n ∈ accepted s.log := by
  rw [h.mem_accepted_iff, (h.calls n).returned_eq]
  obtain hp | hp | hp := h.progress_of_stopped hstop n <;> rw [hp] <;> decide

/-- A worker that leaves an empty queue has released all its packets. -/
theorem Reaches.released_of_empty (w : Fin d.rt.shardCount) (hempty : s.queue w = []) :
    (worked s w).filterMap releases =
      (acceptedBy s.log w).map fun n => (d.job n).packet.buffer := by
  have hreleases := (h.works w).releases_eq
  have hfifo := h.tracks.fifo w
  have hhand : (Work.gone : Work d.size).hand = [] := rfl
  rw [h.work_of_stopped hstop w, hhand, List.map_nil, List.append_nil] at hreleases
  rw [hempty, List.append_nil] at hfifo
  rw [hreleases, ← hfifo, List.map_map]
  rfl

/-- So nothing is left if no queue has anything. -/
theorem Reaches.settled_of_empty (hempty : ∀ w : Fin d.rt.shardCount, s.queue w = []) :
    Settled s where
  accepted_iff := h.accepted_iff_of_stopped hstop
  released w := h.released_of_empty hstop w (hempty w)
  kept n hn := by
    refine (h.calls n).releases_eq fun hp => ?_
    rw [h.mem_accepted_iff, hp] at hn
    cases hn
  empty := hempty
  queueDepth_eq := by
    rw [h.queueDepth_of_stopped hstop]
    refine Finset.sum_eq_zero fun k hk => ?_
    rw [hempty ⟨k, Finset.mem_range.mp hk⟩]
    rfl

end Stopped

/-- When the dispatcher has stopped, no accepted job is lost exactly if no job was enqueued on
a shard that its worker had left. -/
theorem settled_iff (d : Dispatcher) (ps : d.ι → Relay d.size Unit) (s : d.State)
    (h : d.Reaches (ps, s)) (hstop : Stopped s) :
    Settled s ↔ ∀ w : Fin d.rt.shardCount, late s.log w = [] := by
  have hqueue (w : Fin d.rt.shardCount) : s.queue w = [] ↔ late s.log w = [] := by
    rw [h.strands.queue_eq w (hstop.left w), List.map_eq_nil_iff]
  constructor
  · intro hsettled w
    exact (hqueue w).mp (hsettled.empty w)
  · intro hlate
    exact h.settled_of_empty hstop fun w => (hqueue w).mpr (hlate w)

/-! ### Runs -/

theorem left_singleShard {s : single.State} (h : Left s.log singleShard)
    (w : Fin single.rt.shardCount) : Left s.log w := by
  have hw : w = singleShard := Fin.ext (Nat.lt_one_iff.mp w.isLt)
  rwa [hw]

/-- The worker runs the job, sees the end of the lifetime and leaves. -/
theorem reaches_served : ∃ ps s, single.Reaches (ps, s) ∧ Stopped s ∧
    accepted s.log = [0] ∧ late s.log singleShard = [] := by
  have hstart : single.Reaches (single.program, single.init) := .refl
  have h₁ := hstart.step (i := .call 0) (o := .lifetimeErr) rfl false
    ⟨false, _, id, ⟨rfl, rfl⟩, rfl⟩
  have h₂ := h₁.step (i := .call 0) (o := .trySend 0 (single.job 0)) rfl true
    ⟨false, _, id, ⟨rfl, rfl⟩, rfl⟩
  have h₃ := h₂.step (i := .call 0) (o := .count .queueDepth 1) rfl () ⟨false, _, id, rfl, rfl⟩
  have h₄ := h₃.step (i := .worker singleShard) (o := .selectJob 0) rfl (some (single.job 0))
    ⟨false, _, id, ⟨_, rfl, rfl⟩, rfl⟩
  have h₅ := h₄.step (i := .worker singleShard) (o := .count .queueDepth (-1)) rfl ()
    ⟨false, _, id, rfl, rfl⟩
  have h₆ := h₅.step (i := .worker singleShard) (o := .ctxErr) rfl true ⟨false, _, id, rfl, rfl⟩
  have h₇ := h₆.step (i := .worker singleShard)
    (o := .putBuffer (single.job 0).packet.buffer) rfl ()
    ⟨false, _, id, rfl, rfl⟩
  have h₈ := h₇.step (i := .worker singleShard) (o := .selectJob 0) rfl none
    ⟨true, _, fun _ => rfl, ⟨rfl, rfl⟩, rfl⟩
  have h₉ := h₈.step (i := .worker singleShard) (o := .tryReceive 0) rfl none
    ⟨true, _, fun _ => rfl, ⟨rfl, rfl⟩, rfl⟩
  refine ⟨_, _, h₉, ⟨left_singleShard (left_concat.mpr (.inr rfl)), fun n => ?_⟩, rfl, rfl⟩
  cases n with
  | zero => exact .inr rfl
  | succ n => exact .inl rfl

/-- The call has checked the lifetime when it ends; the worker drains its queue and leaves
before the call enqueues its job. -/
theorem reaches_stranded : ∃ ps s, single.Reaches (ps, s) ∧ Stopped s ∧
    returned (called s 0) = some true ∧ s.queue singleShard = [single.job 0] := by
  have hstart : single.Reaches (single.program, single.init) := .refl
  have h₁ := hstart.step (i := .call 0) (o := .lifetimeErr) rfl false
    ⟨false, _, id, ⟨rfl, rfl⟩, rfl⟩
  have h₂ := h₁.step (i := .worker singleShard) (o := .selectJob 0) rfl none
    ⟨true, _, fun _ => rfl, ⟨rfl, rfl⟩, rfl⟩
  have h₃ := h₂.step (i := .worker singleShard) (o := .tryReceive 0) rfl none
    ⟨true, _, fun _ => rfl, ⟨rfl, rfl⟩, rfl⟩
  have h₄ := h₃.step (i := .call 0) (o := .trySend 0 (single.job 0)) rfl true
    ⟨true, _, fun _ => rfl, ⟨rfl, rfl⟩, rfl⟩
  have h₅ := h₄.step (i := .call 0) (o := .count .queueDepth 1) rfl ()
    ⟨true, _, fun _ => rfl, rfl, rfl⟩
  refine ⟨_, _, h₅, ⟨left_singleShard ?_, fun n => ?_⟩, rfl, rfl⟩
  · exact left_concat.mpr (.inl (left_concat.mpr (.inl (left_concat.mpr (.inr rfl)))))
  · cases n with
    | zero => exact .inr rfl
    | succ n => exact .inl rfl

/-- A job that was accepted before the end. -/
theorem settled_served : ∃ ps s, single.Reaches (ps, s) ∧ Stopped s ∧ accepted s.log = [0] ∧
    Settled s := by
  obtain ⟨ps, s, h, hstop, haccepted, hlate⟩ := reaches_served
  refine ⟨ps, s, h, hstop, haccepted, (settled_iff single ps s h hstop).mpr fun w => ?_⟩
  have hw : w = singleShard := Fin.ext (Nat.lt_one_iff.mp w.isLt)
  rw [hw, hlate]

/-- A job that was accepted behind it. -/
theorem not_settled_stranded : ∃ ps s, single.Reaches (ps, s) ∧ Stopped s ∧
    returned (called s 0) = some true ∧ ¬ Settled s := by
  obtain ⟨ps, s, h, hstop, hreturned, hqueue⟩ := reaches_stranded
  refine ⟨ps, s, h, hstop, hreturned, fun hsettled => ?_⟩
  have hempty := hsettled.empty singleShard
  rw [hqueue] at hempty
  cases hempty

end Outway.Udp.Dispatcher
