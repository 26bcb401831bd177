import Outway.Udp.Dispatcher

/-!
# Outway.Udp.DispatchThreads

What a call of `dispatch` and a send worker do, each on its own.

`Call` and `Work` are how far they are, read off their own entries; the `Move` relations list
what they may do from there, and `wp_program` says that their programs do.  `Called` and
`Worked` are what follows about the entries, whatever the other threads do.
-/

namespace Outway.Udp.Dispatcher

open Prog

/-! ## Calls -/

/-- How far a call is. -/
inductive Call where
  | entered
  /-- the lifetime has not ended -/
  | checked
  /-- the job is in the queue, and not counted yet -/
  | enqueued
  /-- the queue was full, and the drop is not counted yet -/
  | full
  | accepted
  | refused
  deriving DecidableEq

namespace Call

variable {size : Nat}

def next : Call → Event size → Call
  | .entered, ⟨.lifetimeErr, true⟩ => .refused
  | .entered, ⟨.lifetimeErr, false⟩ => .checked
  | .checked, ⟨.trySend _ _, true⟩ => .enqueued
  | .checked, ⟨.trySend _ _, false⟩ => .full
  | .enqueued, ⟨.count _ _, _⟩ => .accepted
  | .full, ⟨.count _ _, _⟩ => .refused
  | p, _ => p

/-- What a call with a job for `shard` may do next. -/
def Allows (shard : Nat) (job : SendJob size) (p : Call) : Op size → Prop
  | .lifetimeErr => p = .entered
  | .trySend k j => p = .checked ∧ k = shard ∧ j = job
  | .count c delta => p = .enqueued ∧ c = .queueDepth ∧ delta = 1 ∨ p = .full ∧ c = .queueDrops
  | .recvBatchSlot _ | .putBuffer _ => p = .refused
  | _ => False

/-- The moves of a call. -/
inductive Move (shard : Nat) (job : SendJob size) : Call → Event size → Call → Prop where
  | expired : Move shard job .entered ⟨.lifetimeErr, true⟩ .refused
  | check : Move shard job .entered ⟨.lifetimeErr, false⟩ .checked
  | enqueue : Move shard job .checked ⟨.trySend shard job, true⟩ .enqueued
  | drop : Move shard job .checked ⟨.trySend shard job, false⟩ .full
  | raise : Move shard job .enqueued ⟨.count .queueDepth 1, ()⟩ .accepted
  | countDrop (delta : Int) : Move shard job .full ⟨.count .queueDrops delta, ()⟩ .refused
  | giveSlot (b : Buffer size) : Move shard job .refused ⟨.recvBatchSlot b, ()⟩ .refused
  | release (b : Buffer size) : Move shard job .refused ⟨.putBuffer b, ()⟩ .refused

/-- The job is or was in the queue. -/
def admitted : Call → Bool
  | .enqueued | .accepted => true
  | _ => false

/-- What `dispatch` has returned. -/
def result : Call → Option Bool
  | .accepted => some true
  | .refused => some false
  | _ => none

variable {shard : Nat} {job : SendJob size} {p : Call}

/-- What a call may do moves it on. -/
theorem Allows.move {o : Op size} (h : p.Allows shard job o) (r : Res o) :
    Move shard job p ⟨o, r⟩ (p.next ⟨o, r⟩) := by
  cases o with
  | lifetimeErr =>
      obtain rfl := h
      cases r
      · exact .check
      · exact .expired
  | trySend k j =>
      obtain ⟨rfl, rfl, rfl⟩ := h
      cases r
      · exact .drop
      · exact .enqueue
  | count c delta =>
      obtain ⟨rfl, rfl, rfl⟩ | ⟨rfl, rfl⟩ := h
      · exact .raise
      · exact .countDrop delta
  | recvBatchSlot b =>
      obtain rfl := h
      exact .giveSlot b
  | putBuffer b =>
      obtain rfl := h
      exact .release b
  | _ => exact h.elim

section Moves

variable {e : Event size} {p' : Call} (h : Move shard job p e p')
include h

/-- A call has its result from the entry that gives it. -/
theorem Move.result_eq : p'.result = p.result.or (outcome e) := by
  cases h <;> rfl

/-- The packet is counted as queued while its job is accepted. -/
theorem Move.raises_eq :
    (if p = .accepted then 1 else 0) + raises e = if p' = .accepted then 1 else 0 := by
  cases h <;> rfl

/-- A call is let in at most once. -/
theorem Move.admits_eq : p.admitted.toNat + (admits e).toNat = p'.admitted.toNat := by
  cases h <;> rfl

/-- A call takes no job. -/
theorem Move.takes_eq : takes e = none := by
  cases h <;> rfl

theorem Move.sends_eq : sends e = none := by
  cases h <;> rfl

/-- A call is no worker that leaves. -/
theorem Move.leaves_eq (w : Nat) : leaves w e = false := by
  cases h <;> rfl

/-- A call releases its job only when it was refused. -/
theorem Move.releases_eq (hp' : p' ≠ .refused) : p ≠ .refused ∧ releases e = none := by
  cases h <;> first | exact ⟨by decide, rfl⟩ | exact absurd rfl hp'

end Moves

end Call

section Calls

variable {size : Nat}

/-- How far a call is after its entries. -/
def progress (es : List (Event size)) : Call := es.foldl Call.next .entered

@[simp] theorem progress_concat (es : List (Event size)) (e : Event size) :
    progress (es ++ [e]) = (progress es).next e := by
  simp [progress]

def callPermits (shard : Nat) (job : SendJob size) (es : List (Event size)) (o : Op size) : Prop :=
  (progress es).Allows shard job o

variable {shard : Nat} {job : SendJob size} {es : List (Event size)}

theorem progress_of_next {p p' : Call} (hes : progress es = p) (e : Event size)
    (hp : p.next e = p') : progress (es ++ [e]) = p' := by
  rw [progress_concat, hes, hp]

/-- What the entries of a call show. -/
structure Called (es : List (Event size)) : Prop where
  returned_eq : returned es = (progress es).result
  depth : (es.map raises).sum = if progress es = .accepted then 1 else 0
  countP_admits : es.countP admits = (progress es).admitted.toNat
  takes_eq : es.filterMap takes = []
  sends_eq : es.filterMap sends = []
  releases_eq : progress es ≠ .refused → es.filterMap releases = []

/-- A call that has done nothing. -/
theorem called_nil : Called ([] : List (Event size)) := ⟨rfl, rfl, rfl, rfl, rfl, fun _ => rfl⟩

/-- An entry that the call may make keeps the books. -/
theorem Called.concat (h : Called es) {e : Event size} (hok : callPermits shard job es e.1) :
    Called (es ++ [e]) := by
  have hmove := Call.Allows.move hok e.2
  constructor
  · rw [progress_concat, hmove.result_eq, ← h.returned_eq, returned, List.findSome?_append]
    simp [returned]
  · rw [progress_concat, ← hmove.raises_eq, ← h.depth]
    simp
  · rw [progress_concat, ← hmove.admits_eq, ← h.countP_admits, countP_concat]
  · rw [filterMap_concat, h.takes_eq, hmove.takes_eq]
    rfl
  · rw [filterMap_concat, h.sends_eq, hmove.sends_eq]
    rfl
  · intro hp
    rw [progress_concat] at hp
    obtain ⟨hp, he⟩ := hmove.releases_eq hp
    rw [filterMap_concat, h.releases_eq hp, he]
    rfl

/-- The call releases the packet of a job it could not hand over. -/
theorem wp_releaseInboundPacket_refused (hes : progress es = .refused)
    (packet : InboundPacket size) :
    (releaseInboundPacket packet).wp (Contract.logging (callPermits shard job)) es
      fun _ _ => True := by
  unfold releaseInboundPacket releaseBuffer
  split_ifs with hslot
  · refine wp_bind.mpr (wp_op hes fun _ => ?_)
    have hes := progress_of_next hes ⟨.recvBatchSlot packet.buffer, ()⟩ rfl
    exact wp_op hes fun _ => trivial
  · exact wp_op hes fun _ => trivial

/-- `dispatch` makes only the entries of a call. -/
theorem wp_dispatchCall (rt : Runtime) (job : SendJob rt.bufferSize) :
    (dispatchCall rt job).wp
      (Contract.logging (callPermits (rt.shardOf job.associationID) job)) [] fun _ _ => True := by
  have hentered : progress ([] : List (Event rt.bufferSize)) = .entered := rfl
  refine wp_seq (R := fun sent es => sent = true ∨ progress es = .refused) ?_ fun sent es hes => ?_
  · refine wp_bind.mpr (wp_op hentered fun expired => ?_)
    have hnext := progress_of_next hentered ⟨.lifetimeErr, expired⟩ rfl
    cases expired with
    | true => exact .inr hnext
    | false =>
        refine wp_bind.mpr (wp_op ⟨hnext, rfl, rfl⟩ fun sent => ?_)
        have hsent := progress_of_next hnext
          ⟨.trySend (rt.shardOf job.associationID) job, sent⟩ rfl
        cases sent with
        | true => exact wp_bind.mpr (wp_op (.inl ⟨hsent, rfl, rfl⟩) fun _ => .inl rfl)
        | false =>
            exact wp_bind.mpr (wp_op (.inr ⟨hsent, rfl⟩) fun _ =>
              .inr (progress_of_next hsent ⟨.count .queueDrops 1, ()⟩ rfl))
  · cases sent with
    | true => trivial
    | false =>
        exact wp_releaseInboundPacket_refused (hes.resolve_left Bool.false_ne_true) job.packet

end Calls

/-! ## Workers -/

/-- What a worker has in hand; `run` tells a job to run from a job of the drain. -/
inductive Work (size : Nat) where
  | idle
  /-- taken from the queue, and not counted yet -/
  | took (job : SendJob size) (run : Bool)
  | counted (job : SendJob size) (run sent : Bool)
  | draining
  | gone

namespace Work

variable {size : Nat}

/-- Where a worker goes on after a job. -/
def resume : Bool → Work size
  | true => .idle
  | false => .draining

def next : Work size → Event size → Work size
  | .idle, ⟨.selectJob _, some job⟩ => .took job true
  | .idle, ⟨.selectJob _, none⟩ => .draining
  | .draining, ⟨.tryReceive _, some job⟩ => .took job false
  | .draining, ⟨.tryReceive _, none⟩ => .gone
  | .took job run, ⟨.count _ _, _⟩ => .counted job run false
  | .counted job run _, ⟨.sendPacket _, _⟩ => .counted job run true
  | .counted _ run _, ⟨.putBuffer _, _⟩ => resume run
  | p, _ => p

/-- The operations on a job in hand that change nothing here. -/
def Quiet : Op size → Prop
  | .ctxErr | .count .errors _ | .reportUDPError _ | .recvBatchSlot _ => True
  | _ => False

/-- What the worker of `shard` may do next. -/
def Allows (shard : Nat) (p : Work size) : Op size → Prop
  | .selectJob k => p = .idle ∧ k = shard
  | .tryReceive k => p = .draining ∧ k = shard
  | .count .queueDepth delta => delta = -1 ∧ ∃ job run, p = .took job run
  | .sendPacket job => p = .counted job true false
  | .putBuffer b => ∃ job run sent, p = .counted job run sent ∧ b = job.packet.buffer
  | o => Quiet o ∧ ∃ job run sent, p = .counted job run sent

/-- The moves of a worker. -/
inductive Move (shard : Nat) : Work size → Event size → Work size → Prop where
  | take (job : SendJob size) : Move shard .idle ⟨.selectJob shard, some job⟩ (.took job true)
  | stop : Move shard .idle ⟨.selectJob shard, none⟩ .draining
  | drain (job : SendJob size) :
      Move shard .draining ⟨.tryReceive shard, some job⟩ (.took job false)
  | leave : Move shard .draining ⟨.tryReceive shard, none⟩ .gone
  | lower (job : SendJob size) (run : Bool) :
      Move shard (.took job run) ⟨.count .queueDepth (-1), ()⟩ (.counted job run false)
  | send (job : SendJob size) (err : Option NetError) :
      Move shard (.counted job true false) ⟨.sendPacket job, err⟩ (.counted job true true)
  | quiet (job : SendJob size) (run sent : Bool) {o : Op size} (r : Res o) (ho : Quiet o) :
      Move shard (.counted job run sent) ⟨o, r⟩ (.counted job run sent)
  | release (job : SendJob size) (run sent : Bool) :
      Move shard (.counted job run sent) ⟨.putBuffer job.packet.buffer, ()⟩ (resume run)

/-- What a worker may do moves it on. -/
theorem Allows.move {shard : Nat} {p : Work size} {o : Op size} (h : p.Allows shard o) (r : Res o) :
    Move shard p ⟨o, r⟩ (p.next ⟨o, r⟩) := by
  cases o with
  | selectJob k =>
      obtain ⟨rfl, rfl⟩ := h
      cases r with
      | none => exact .stop
      | some job => exact .take job
  | tryReceive k =>
      obtain ⟨rfl, rfl⟩ := h
      cases r with
      | none => exact .leave
      | some job => exact .drain job
  | sendPacket job =>
      obtain rfl := h
      exact .send job r
  | putBuffer b =>
      obtain ⟨job, run, sent, rfl, rfl⟩ := h
      exact .release job run sent
  | count c delta =>
      cases c with
      | queueDepth =>
          obtain ⟨rfl, job, run, rfl⟩ := h
          exact .lower job run
      | errors =>
          obtain ⟨ho, job, run, sent, rfl⟩ := h
          exact .quiet job run sent r ho
      | _ => exact h.1.elim
  | ctxErr | reportUDPError err | recvBatchSlot b =>
      obtain ⟨ho, job, run, sent, rfl⟩ := h
      exact .quiet job run sent r ho
  | _ => exact h.1.elim

/-- The job in hand. -/
def hand : Work size → List (SendJob size)
  | .took job _ | .counted job _ _ => [job]
  | _ => []

/-- The job it runs. -/
def running : Work size → List (SendJob size)
  | .took job true | .counted job true _ => [job]
  | _ => []

/-- The job it runs and has not sent. -/
def unsent : Work size → List (SendJob size)
  | .took job true | .counted job true false => [job]
  | _ => []

/-- How many jobs it has taken that `queueDepth` still counts. -/
def uncounted : Work size → Int
  | .took _ _ => 1
  | _ => 0

/-- It has seen the end of the lifetime. -/
def stopping : Work size → Bool
  | .draining | .gone | .took _ false | .counted _ false _ => true
  | _ => false

/-- An entry that moves no job. -/
structure Silent (e : Event size) : Prop where
  takes_eq : takes e = none
  runs_eq : runs e = none
  sends_eq : sends e = none
  releases_eq : releases e = none
  raises_eq : raises e = 0
  admits_eq : admits e = false
  leaves_eq : ∀ w, leaves w e = false
  running_eq : ∀ jobs, runningAfter jobs e = jobs

/-- The operations of `runSendJob` on its sockets and buffers are none of the queue's. -/
theorem silent_of_quiet {o : Op size} (ho : Quiet o) (r : Res o) : Silent ⟨o, r⟩ := by
  cases o with
  | ctxErr | reportUDPError err | recvBatchSlot b =>
      exact ⟨rfl, rfl, rfl, rfl, rfl, rfl, fun _ => rfl, fun _ => rfl⟩
  | count c delta =>
      cases c with
      | errors => exact ⟨rfl, rfl, rfl, rfl, rfl, rfl, fun _ => rfl, fun _ => rfl⟩
      | _ => exact ho.elim
  | _ => exact ho.elim

/-- The job that is being run is in hand. -/
theorem running_subset (p : Work size) : p.running ⊆ p.hand := by
  cases p with
  | took job run => cases run <;> simp [running, hand]
  | counted job run sent => cases run <;> simp [running, hand]
  | _ => simp [running]

/-- A worker runs one job at a time. -/
theorem length_running_le (p : Work size) : p.running.length ≤ 1 := by
  cases p with
  | took job run => cases run <;> simp [running]
  | counted job run sent => cases run <;> simp [running]
  | _ => simp [running]

section Moves

variable {shard : Nat} {p p' : Work size} {e : Event size} (h : Move shard p e p')
include h

/-- A job that is taken comes to hand, and one in hand stays there until its packet is
released. -/
theorem Move.releases_eq :
    (releases e).toList ++ p'.hand.map (·.packet.buffer) =
      p.hand.map (·.packet.buffer) ++ (takes e).toList.map (·.packet.buffer) := by
  cases h with
  | quiet job run sent r ho =>
      have h := silent_of_quiet ho r
      rw [h.takes_eq, h.releases_eq]
      rfl
  | release job run sent => cases run <;> rfl
  | _ => rfl

/-- What a worker has in hand it had before or takes now. -/
theorem Move.hand_subset : p'.hand ⊆ p.hand ++ (takes e).toList := by
  cases h with
  | quiet job run sent r ho => exact List.subset_append_left _ _
  | release job run sent => cases run <;> exact List.nil_subset _
  | _ => simp [hand, takes]

/-- A job is run as it is taken, unless the worker is stopping. -/
theorem Move.runs_eq : runs e = takes e ∧ p'.stopping = p.stopping ∨
    runs e = none ∧ p'.stopping = true := by
  cases h with
  | quiet job run sent r ho =>
      have h := silent_of_quiet ho r
      exact .inl ⟨h.runs_eq.trans h.takes_eq.symm, rfl⟩
  | stop | drain job | leave => exact .inr ⟨rfl, rfl⟩
  | release job run sent => cases run <;> exact .inl ⟨rfl, rfl⟩
  | lower job run => cases run <;> exact .inl ⟨rfl, rfl⟩
  | take job | send job err => exact .inl ⟨rfl, rfl⟩

/-- A worker that is stopping runs nothing. -/
theorem Move.stopping_eq (hp : p.stopping = true) : runs e = none := by
  cases h with
  | quiet job run sent r ho => exact (silent_of_quiet ho r).runs_eq
  | take job => simp [stopping] at hp
  | _ => rfl

/-- What is sent, and what may still be sent, was taken to be run, in that order. -/
theorem Move.sends_sublist : ((sends e).toList ++ p'.unsent).Sublist
    (p.unsent ++ (runs e).toList) := by
  cases h with
  | quiet job run sent r ho =>
      have h := silent_of_quiet ho r
      rw [h.runs_eq, h.sends_eq, Option.toList_none, List.nil_append, List.append_nil]
  | release job run sent => cases run <;> exact List.nil_sublist _
  | lower job run => cases run <;> exact List.Sublist.refl _
  | _ => exact List.Sublist.refl _

/-- The job that is running changes with the entries that run and finish it. -/
theorem Move.running_eq : runningAfter p.running e = p'.running := by
  cases h with
  | quiet job run sent r ho => exact (silent_of_quiet ho r).running_eq _
  | release job run sent => cases run <;> rfl
  | lower job run => cases run <;> rfl
  | _ => rfl

/-- A job that was taken is counted down once. -/
theorem Move.raises_eq : raises e + (takes e).toList.length + p.uncounted = p'.uncounted := by
  cases h with
  | quiet job run sent r ho =>
      have h := silent_of_quiet ho r
      rw [h.takes_eq, h.raises_eq]
      rfl
  | release job run sent => cases run <;> rfl
  | _ => rfl

/-- The worker has left with its last entry. -/
theorem Move.leaves_eq : leaves shard e = true ↔ p' = .gone := by
  cases h with
  | quiet job run sent r ho => simp [(silent_of_quiet ho r).leaves_eq shard]
  | release job run sent => cases run <;> simp [leaves, resume]
  | _ => simp [leaves]

/-- A worker leaves its own shard. -/
theorem Move.eq_shard {w : Nat} (hw : leaves w e = true) : shard = w := by
  cases h with
  | leave => exact of_decide_eq_true hw
  | quiet job run sent r ho =>
      rw [(silent_of_quiet ho r).leaves_eq w] at hw
      cases hw
  | _ => cases hw

theorem Move.admits_eq : admits e = false := by
  cases h with
  | quiet job run sent r ho => exact (silent_of_quiet ho r).admits_eq
  | _ => rfl

/-- A worker that has left does nothing more. -/
theorem Move.ne_gone : p ≠ .gone := by
  cases h <;> simp

end Moves

end Work

section Workers

variable {size shard : Nat} {es : List (Event size)}

/-- What a worker has in hand after its entries. -/
def work (es : List (Event size)) : Work size := es.foldl Work.next .idle

@[simp] theorem work_concat (es : List (Event size)) (e : Event size) :
    work (es ++ [e]) = (work es).next e := by
  simp [work]

def workPermits (shard : Nat) (es : List (Event size)) (o : Op size) : Prop :=
  (work es).Allows shard o

theorem work_of_next {p p' : Work size} (hes : work es = p) (e : Event size)
    (hp : p.next e = p') : work (es ++ [e]) = p' := by
  rw [work_concat, hes, hp]

/-- What the entries of a worker show. -/
structure Worked (shard : Nat) (es : List (Event size)) : Prop where
  runs_eq : (work es).stopping = false → es.filterMap runs = es.filterMap takes
  runs_initial : es.filterMap runs <+: es.filterMap takes
  sends_sublist : (es.filterMap sends ++ (work es).unsent).Sublist (es.filterMap runs)
  releases_eq : es.filterMap releases ++ (work es).hand.map (·.packet.buffer) =
    (es.filterMap takes).map (·.packet.buffer)
  hand_subset : (work es).hand ⊆ es.filterMap takes
  executing_eq : executing es = (work es).running
  depth : (es.map raises).sum + (es.filterMap takes).length = (work es).uncounted
  countP_admits : es.countP admits = 0
  left_iff : es.any (leaves shard) = true ↔ work es = .gone

/-- A worker that has done nothing. -/
theorem worked_nil (shard : Nat) : Worked shard ([] : List (Event size)) :=
  ⟨fun _ => rfl, List.prefix_rfl, List.Sublist.refl _, rfl, List.Subset.refl _, rfl, rfl,
    rfl, by simp [work]⟩

/-- An entry that the worker may make keeps the books. -/
theorem Worked.concat (h : Worked shard es) {e : Event size} (hok : workPermits shard es e.1) :
    Worked shard (es ++ [e]) := by
  have hmove : Work.Move shard (work es) e (work (es ++ [e])) := by
    rw [work_concat]
    exact Work.Allows.move hok e.2
  refine ⟨fun hstop => ?_, ?_, ?_, ?_, ?_, ?_, ?_, ?_, ?_⟩
  · obtain ⟨hruns, hsame⟩ | ⟨-, hstop'⟩ := hmove.runs_eq
    · rw [filterMap_concat, filterMap_concat, h.runs_eq (hsame.symm.trans hstop), hruns]
    · rw [hstop] at hstop'
      cases hstop'
  · rw [filterMap_concat, filterMap_concat]
    cases hstop : (work es).stopping with
    | true =>
        rw [hmove.stopping_eq hstop, Option.toList_none, List.append_nil]
        exact h.runs_initial.trans (List.prefix_append _ _)
    | false =>
        rw [h.runs_eq hstop, List.prefix_append_right_inj]
        obtain ⟨hruns, -⟩ | ⟨hruns, -⟩ := hmove.runs_eq
        · rw [hruns]
        · rw [hruns]
          exact List.nil_prefix
  · rw [filterMap_concat, filterMap_concat, List.append_assoc]
    have hbefore := h.sends_sublist.append_right (runs e).toList
    rw [List.append_assoc] at hbefore
    exact (hmove.sends_sublist.append_left _).trans hbefore
  · rw [filterMap_concat, filterMap_concat, List.append_assoc, hmove.releases_eq,
      ← List.append_assoc, h.releases_eq, List.map_append]
  · rw [filterMap_concat]
    intro job hjob
    exact List.mem_append.mpr ((List.mem_append.mp (hmove.hand_subset hjob)).imp_left
      fun hin => h.hand_subset hin)
  · rw [executing, List.foldl_append, ← executing, h.executing_eq]
    exact hmove.running_eq
  · rw [filterMap_concat, List.map_append, List.sum_append, List.length_append, ← hmove.raises_eq,
      ← h.depth]
    simp
    ring
  · rw [countP_concat, h.countP_admits, hmove.admits_eq]
    rfl
  · rw [List.any_append, Bool.or_eq_true, h.left_iff, ← hmove.leaves_eq]
    simp [hmove.ne_gone]

/-- The packet of a job is released behind its counter. -/
theorem wp_releaseInboundPacket_counted {job : SendJob size} {run sent : Bool}
    (hes : work es = .counted job run sent) :
    (releaseInboundPacket job.packet).wp (Contract.logging (workPermits shard)) es
      fun _ es' => work es' = .resume run := by
  unfold releaseInboundPacket releaseBuffer
  have hput {es : List (Event size)} (hes : work es = .counted job run sent) :
      (putBuffer job.packet.buffer).wp (Contract.logging (workPermits shard)) es
        fun _ es' => work es' = .resume run :=
    wp_op ⟨job, run, sent, hes, rfl⟩ fun _ => work_of_next hes _ rfl
  split_ifs with hslot
  · refine wp_bind.mpr (wp_op ⟨trivial, job, run, sent, hes⟩ fun _ => ?_)
    exact hput (work_of_next hes ⟨.recvBatchSlot job.packet.buffer, ()⟩ rfl)
  · exact hput hes

/-- `runSendJob` sends the job it was given and comes back for the next. -/
theorem wp_runSendJob {job : SendJob size} (hes : work es = .took job true) :
    (runSendJob job).wp (Contract.logging (workPermits shard)) es fun _ es' =>
      work es' = .idle := by
  refine wp_bind.mpr (wp_op ⟨rfl, job, true, hes⟩ fun _ => ?_)
  have hes := work_of_next hes ⟨.count .queueDepth (-1), ()⟩ rfl
  refine wp_bind.mpr (wp_op ⟨trivial, job, true, false, hes⟩ fun ended => ?_)
  have hes := work_of_next hes ⟨.ctxErr, ended⟩ rfl
  refine wp_seq (R := fun _ es => ∃ sent, work es = .counted job true sent) ?_
    fun _ es ⟨sent, hes⟩ => wp_releaseInboundPacket_counted hes
  unfold onlyIf
  split_ifs with hctx
  · refine wp_bind.mpr (wp_op hes fun err => ?_)
    have hes := work_of_next hes ⟨.sendPacket job, err⟩ rfl
    cases err with
    | none => exact ⟨true, hes⟩
    | some err =>
        refine wp_bind.mpr (wp_op ⟨trivial, job, true, true, hes⟩ fun _ => ?_)
        have hes := work_of_next hes ⟨.count .errors 1, ()⟩ rfl
        exact wp_op ⟨trivial, job, true, true, hes⟩ fun _ =>
          ⟨true, work_of_next hes ⟨.reportUDPError err, ()⟩ rfl⟩
  · exact ⟨false, hes⟩

/-- A worker that is stopping releases what its queue still has. -/
theorem wp_drainShard (fuel : Nat) (hes : work es = .draining) :
    (drainShard shard fuel).wp (Contract.logging (@workPermits size shard)) es
      fun _ _ => True := by
  induction fuel generalizing es with
  | zero => trivial
  | succ fuel ih =>
      rw [drainShard]
      refine wp_bind.mpr (wp_op ⟨hes, rfl⟩ fun job => ?_)
      have hes := work_of_next hes ⟨.tryReceive shard, job⟩ rfl
      cases job with
      | none => trivial
      | some job =>
          refine wp_bind.mpr (wp_op ⟨rfl, job, false, hes⟩ fun _ => ?_)
          have hes := work_of_next hes ⟨.count .queueDepth (-1), ()⟩ rfl
          exact wp_seq (wp_releaseInboundPacket_counted hes) fun _ _ hes => ih hes

/-- A worker makes only the entries of its shard. -/
theorem wp_workerThread (rt : Runtime) (rounds fuel : Nat) :
    (workerThread rt shard rounds fuel).wp (Contract.logging (workPermits shard)) []
      fun _ _ => True := by
  refine wp_iterate (fun _ es => work es = .idle) (fun _ _ _ => trivial) (fun _ es hes => ?_) rfl
  refine wp_bind.mpr (wp_op ⟨hes, rfl⟩ fun job => ?_)
  have hes := work_of_next hes ⟨.selectJob shard, job⟩ rfl
  cases job with
  | none => exact wp_seq (wp_drainShard fuel hes) fun _ _ _ => trivial
  | some job => exact wp_seq (wp_runSendJob hes) fun _ _ hes => hes

end Workers

/-! ## All threads -/

variable {d : Dispatcher}

/-- What a thread may do after its entries. -/
def permits : d.ι → List (Event d.size) → Op d.size → Prop
  | .call n => callPermits (d.shard n) (d.job n)
  | .worker w => workPermits w

/-- Every thread keeps to its part. -/
theorem wp_program (i : d.ι) :
    (d.program i).wp (Contract.logging (permits i)) [] fun _ _ => True := by
  cases i with
  | call n => exact wp_dispatchCall d.rt (d.job n)
  | worker w => exact wp_workerThread d.rt d.rounds d.rounds

variable {ps : d.ι → Relay d.size Unit} {s : d.State}

/-- Every thread's entries were permitted. -/
theorem Reaches.justified (h : d.Reaches (ps, s)) (i : d.ι) :
    Justified (fun es e => permits i es e.1) (Threads.own s.log i) :=
  Threads.justified_own (P := fun i es e => permits i es e.1)
    (Threads.permitted State.log log_of_act permits rfl wp_program h) i

/-- In every state of a run, the entries of a call add up. -/
theorem Reaches.calls (h : d.Reaches (ps, s)) (n : Nat) : Called (called s n) :=
  (h.justified (.call n)).induction called_nil fun _ _ hes hok => hes.concat hok

/-- And so do those of a worker. -/
theorem Reaches.works (h : d.Reaches (ps, s)) (w : Fin d.rt.shardCount) :
    Worked (w : Nat) (worked s w) :=
  (h.justified (.worker w)).induction (worked_nil _) fun _ _ hes hok => hes.concat hok

end Outway.Udp.Dispatcher
