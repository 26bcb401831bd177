import Outway.Udp.Requests
import Outway.Udp.System

/-!
# Outway.Udp.Authorized

Who an association relays for.

`Outway.Udp.Requests` says what the request thread may send.  This module says
the same of the response threads and the send workers, follows the client's port
and the send jobs from one thread to another through the shared state, and puts
the parts together: over every interleaving, only requests of the authorized
source reach a target, and responses go to the source of the latest request.
-/

namespace Outway.Udp

open Prog
open Socks (WireDatagram wireDatagram_of_parseUdpHeader)

variable {size : Nat}

/-! ## The response threads -/

/-- What an operation says about the port of the current response batch: a call of the
pump starts anew, a load sets it. -/
def loaded? : Event size → Option (Option UInt32)
  | ⟨.loadPort, port⟩ => some (some port)
  | ⟨.pump _, _⟩ => some none
  | _ => none

/-- The port was loaded. -/
theorem of_loaded {e : Event size} {port : UInt32} (h : loaded? e = some (some port)) :
    e = ⟨.loadPort, port⟩ := by
  obtain ⟨o, r⟩ := e
  cases o with
  | loadPort =>
      obtain rfl : r = port := Option.some.inj (Option.some.inj h)
      rfl
  | _ => cases h

/-- What a response thread may do: it writes to the client only, at the port it loaded
for this batch. -/
def responderPermits (a : Association) (es : List (Event size)) : Op size → Prop
  | .writeBatch sock messages => sock = .inbound ∧ ∃ port : UInt32,
      latest loaded? es = some (some port) ∧ port.toUInt16 ≠ 0 ∧
        ∀ m ∈ messages, m.addr = setUDPAddr ⟨a.srcIP, port.toUInt16⟩
  | .sendmsgN _ _ _ _ | .trySend _ _ | .storePort _ | .sendPacket _ => False
  | _ => True

/-- What stays inside the relay is always permitted. -/
theorem responderPermits_of_isInternal (a : Association) (es : List (Event size)) (o : Op size)
    (ho : o.IsInternal) : responderPermits a es o := by
  cases o <;> trivial

abbrev responderLog (size : Nat) (a : Association) : Contract (Op size) Res (List (Event size)) :=
  .logging (responderPermits a)

/-- The writes of a batch go to one address, and there are none without a port. -/
def AllTo (clientAddr : AddrPort) (writes : List (WritePacket size × Nat)) : Prop :=
  ∀ w ∈ writes, w.1.addr = clientAddr ∧ clientAddr.port ≠ 0

section Respond

variable {a : Association} {rt : Runtime} {es : List (Event size)} {port : UInt32}
  {clientAddr : AddrPort}

/-- And does not load another port. -/
theorem keepsLocal_responderLog (a : Association) (port : UInt32) :
    KeepsLocal (responderLog size a) fun es => latest loaded? es = some (some port) := by
  intro es o hes ho
  refine ⟨responderPermits_of_isInternal a es o (by cases o <;> trivial), fun r es' hes' => ?_⟩
  have hlatest : latest loaded? es' = (loaded? ⟨o, r⟩).or (some (some port)) := by
    rw [hes', latest_concat, hes]
  refine hlatest.trans ?_
  cases o <;> first | rfl | exact ho.elim

theorem wp_prepareUDPResponse_log {payload : Slice} {buffer : Buffer size} {remote : AddrPort} :
    (prepareUDPResponse payload buffer remote).wp
      (responderLog size a) es fun _ es' => es' = es := by
  simp only [prepareUDPResponse, pure_eq]
  split_ifs
  · exact wp_bind.mpr (wp_slice_of_fault trivial (wp_bind.mpr (wp_slice_of_fault trivial rfl)))
  · exact wp_bind.mpr (wp_slice_of_fault trivial (wp_bind.mpr (wp_slice_of_fault trivial rfl)))
  · rfl

/-- A reply goes to the address that was loaded. -/
theorem wp_respondPacket_log {writes : List (WritePacket size × Nat)} {packet : ReadPacket size}
    (hes : latest loaded? es = some (some port)) (hwrites : AllTo clientAddr writes) :
    (respondPacket clientAddr writes packet).wp (responderLog size a) es fun writes' es' =>
      latest loaded? es' = some (some port) ∧ AllTo clientAddr writes' := by
  have hkeeps := @keepsLocal_responderLog size a port
  simp only [respondPacket, pure_eq]
  split_ifs with htrunc hport
  · refine wp_seq (hkeeps.wp_perform hes (o := .count .truncatedDrops 1) trivial) fun _ es₁ h₁ => ?_
    exact wp_seq (hkeeps.wp_releaseBuffer h₁ _ _) fun _ _ h₂ => ⟨h₂, hwrites⟩
  · exact wp_seq (hkeeps.wp_releaseBuffer hes _ _) fun _ _ h₁ => ⟨h₁, hwrites⟩
  · refine wp_bind.mpr (wp_slice_of_fault trivial ?_)
    rw [Nat.add_sub_cancel_left]
    refine wp_seq wp_prepareUDPResponse_log fun response es₁ h₁ => ?_
    refine ⟨h₁ ▸ hes, fun w hw => ?_⟩
    obtain hw | rfl : w ∈ writes ∨ w = _ := by simpa using hw
    · exact hwrites w hw
    · exact ⟨rfl, hport⟩

/-- All messages go to that address. -/
theorem wp_writeMessages_to {rounds : Nat} {total : Int} {messages : List Message}
    (hes : latest loaded? es = some (some port))
    (h : ∀ m ∈ messages, m.addr = setUDPAddr ⟨a.srcIP, port.toUInt16⟩ ∧ port.toUInt16 ≠ 0) :
    (writeMessages .inbound rounds messages total).wp (responderLog size a) es fun _ es' =>
      latest loaded? es' = some (some port) := by
  induction rounds generalizing messages total es with
  | zero => exact hes
  | succ rounds ih =>
      cases messages with
      | nil => exact hes
      | cons m rest =>
          rw [writeMessages]
          refine wp_seq (wp_log (o := .writeBatch .inbound (m :: rest)) ⟨rfl, port, hes,
            (h m List.mem_cons_self).2, fun m' hm' => (h m' hm').1⟩) fun written es₁ h₁ => ?_
          have hes₁ : latest loaded? es₁ = some (some port) := by
            rw [h₁, latest_concat, hes]
            rfl
          cases written.err with
          | some err => exact hes₁
          | none =>
              simp only [pure_eq]
              split_ifs
              · exact hes₁
              · exact ih hes₁ fun m' hm' => h m' (List.mem_of_mem_drop hm')

/-- Replies to one address are sent to it. -/
theorem wp_respond_log {p : Responder} {writes : List (WritePacket size × Nat)}
    (hsock : p.writer.sock = .inbound) (hes : latest loaded? es = some (some port))
    (hwrites : AllTo ⟨a.srcIP, port.toUInt16⟩ writes) :
    (p.respond writes).wp (responderLog size a) es fun _ _ => True := by
  have hkeeps := @keepsLocal_responderLog size a port
  have hmessages (m : Message) (hm : m ∈ (writes.map Prod.fst).map WritePacket.message) :
      m.addr = setUDPAddr ⟨a.srcIP, port.toUInt16⟩ ∧ port.toUInt16 ≠ 0 := by
    obtain ⟨w, hw, rfl⟩ := List.mem_map.mp hm
    obtain ⟨write, hwrite, rfl⟩ := List.mem_map.mp hw
    obtain ⟨haddr, hport⟩ := hwrites write hwrite
    exact ⟨congrArg setUDPAddr haddr, hport⟩
  have hwrite : (p.writer.write (writes.map Prod.fst)).wp (responderLog size a) es fun _ es' =>
      latest loaded? es' = some (some port) := by
    unfold BatchWriter.write
    rw [hsock]
    split_ifs
    · exact hes
    · exact wp_bind.mpr (wp_checkLen_of_fault trivial (wp_writeMessages_to hes hmessages))
    · exact wp_bind.mpr (wp_checkLen_of_fault trivial (wp_writeMessages_to hes hmessages))
  refine wp_seq hwrite fun res es₁ h₁ => ?_
  refine wp_seq (hkeeps.wp_releaseAll (fun w : WritePacket size × Nat => w.1.owner)
    (fun w => w.1.batchSlot) h₁ _) fun _ es₂ h₂ => ?_
  refine wp_seq (KeepsLocal.wp_onlyIf (I := fun es => latest loaded? es = some (some port)) h₂
    (wp_seq (hkeeps.wp_perform h₂ trivial) fun _ _ h₃ => hkeeps.wp_perform h₃ trivial))
    fun _ es₃ h₃ => ?_
  refine wp_seq (hkeeps.wp_reportWrite h₃ _ _ _) fun _ es₄ _ => ?_
  unfold onlyIf
  split_ifs
  · exact wp_mono (wp_log (responderPermits_of_isInternal a es₄ .touch trivial))
      fun _ _ _ => trivial
  · trivial

end Respond

section Thread

variable {a : Association} {rt : Runtime} {es : List (Event rt.bufferSize)}

/-- A round of the responder loads the port before it sends. -/
theorem wp_pumpOnce_log {outbound : Sock} {batchDisabled : Bool} :
    ((newUDPResponder rt a outbound).pumpOnce rt batchDisabled).wp (responderLog rt.bufferSize a) es
      fun _ _ => True := by
  have hinternal := @responderPermits_of_isInternal rt.bufferSize a
  refine wp_seq (wp_read_log hinternal (responder_fits rt a outbound))
    fun ⟨res, batchDisabled⟩ es₁ h₁ => ?_
  cases res with
  | error err =>
      refine wp_seq (R := fun _ _ => True) ?_ fun _ _ _ => trivial
      refine wp_seq (wp_log (hinternal _ .ctxErr trivial)) fun ended es₂ h₂ => ?_
      simp only [pure_eq]
      split_ifs
      · trivial
      · trivial
      · refine wp_seq (wp_log (hinternal _ (.count .errors 1) trivial)) fun _ es₃ _ => ?_
        exact wp_mono (wp_log (hinternal _ (.reportUDPError err) trivial)) fun _ _ _ => trivial
  | ok packets =>
      refine wp_seq (wp_log (hinternal _ .loadPort trivial)) fun port es₂ h₂ => ?_
      have hport : latest loaded? es₂ = some (some port) := by
        rw [h₂, latest_concat]
        rfl
      refine wp_seq (R := fun writes es' => latest loaded? es' = some (some port) ∧
        AllTo ⟨a.srcIP, port.toUInt16⟩ writes) ?_ fun writes es₃ h₃ => ?_
      · exact wp_foldlM (fun _ writes es' => latest loaded? es' = some (some port) ∧
          AllTo ⟨a.srcIP, port.toUInt16⟩ writes)
          (fun packet _ writes es' h => wp_respondPacket_log h.1 h.2) ⟨hport, by simp [AllTo]⟩
      · exact wp_seq (wp_respond_log rfl h₃.1 h₃.2) fun _ _ _ => trivial

/-- A response thread writes to the client at the port it loaded. -/
theorem wp_responderThread_log {outbound : Sock} {rounds : Nat} :
    (responderThread rt a outbound rounds).wp (responderLog rt.bufferSize a) es
      fun _ _ => True := by
  refine wp_iterate (fun _ _ => True) (fun _ _ _ => trivial) (fun batchDisabled es _ => ?_) trivial
  refine wp_seq (wp_log (responderPermits_of_isInternal a es (.pump outbound) trivial))
    fun _ es₁ _ => ?_
  refine wp_mono wp_pumpOnce_log fun r _ _ => ?_
  cases r <;> trivial

end Thread

/-! ## The send workers -/

/-- What a worker may do: it sends the jobs it received. -/
def workerPermits (es : List (Event size)) : Op size → Prop
  | .sendPacket job => ∃ shard, (⟨.selectJob shard, some job⟩ : Event size) ∈ es
  | .writeBatch _ _ | .sendmsgN _ _ _ _ | .trySend _ _ | .storePort _ => False
  | _ => True

theorem workerPermits_of_isInternal (es : List (Event size)) (o : Op size) (ho : o.IsInternal) :
    workerPermits es o := by
  cases o <;> trivial

section Worker

variable {es : List (Event size)}

theorem keepsLocal_workerLog : KeepsLocal (.logging (@workerPermits size)) fun _ => True := by
  intro es o _ ho
  exact ⟨workerPermits_of_isInternal es o (by cases o <;> trivial), fun _ _ _ => trivial⟩

/-- A job that was taken from a queue is sent as it is. -/
theorem wp_runSendJob_log {job : SendJob size} {shard : Nat}
    (hjob : (⟨.selectJob shard, some job⟩ : Event size) ∈ es) :
    (runSendJob job).wp (.logging workerPermits) es fun _ _ => True := by
  have hinternal := @workerPermits_of_isInternal size
  refine wp_seq (wp_log (hinternal _ (.count .queueDepth (-1)) trivial)) fun _ es₁ h₁ => ?_
  refine wp_seq (wp_log (hinternal _ .ctxErr trivial)) fun ended es₂ h₂ => ?_
  have hjob₂ : (⟨.selectJob shard, some job⟩ : Event size) ∈ es₂ := by
    rw [h₂, h₁]
    exact List.mem_append_left _ (List.mem_append_left _ hjob)
  refine wp_seq (R := fun _ _ => True) ?_ fun _ es₃ _ =>
    keepsLocal_workerLog.wp_releaseBuffer trivial _ _
  refine KeepsLocal.wp_onlyIf trivial ?_
  refine wp_seq (wp_log (o := .sendPacket job) ⟨shard, hjob₂⟩) fun err es₃ _ => ?_
  cases err with
  | none => trivial
  | some err =>
      refine wp_seq (wp_log (hinternal _ (.count .errors 1) trivial)) fun _ es₄ _ => ?_
      exact wp_mono (wp_log (hinternal _ (.reportUDPError err) trivial)) fun _ _ _ => trivial

/-- Draining sends nothing. -/
theorem wp_drainShard_log {shard fuel : Nat} :
    (drainShard shard fuel).wp (.logging (@workerPermits size)) es fun _ _ => True := by
  induction fuel generalizing es with
  | zero => trivial
  | succ fuel ih =>
      rw [drainShard]
      refine wp_seq (wp_log (workerPermits_of_isInternal _ (.tryReceive shard) trivial))
        fun res es₁ _ => ?_
      cases res with
      | none => trivial
      | some job =>
          refine wp_seq (wp_log (workerPermits_of_isInternal _ (.count .queueDepth (-1)) trivial))
            fun _ es₂ _ => ?_
          exact wp_seq (keepsLocal_workerLog.wp_releaseBuffer trivial _ _) fun _ _ _ => ih

/-- A worker sends the jobs it received. -/
theorem wp_workerThread_log {rt : Runtime} {shard rounds fuel : Nat}
    {es : List (Event rt.bufferSize)} :
    (workerThread rt shard rounds fuel).wp (.logging workerPermits) es fun _ _ => True := by
  refine wp_iterate (fun _ _ => True) (fun _ _ _ => trivial) (fun _ es _ => ?_) trivial
  refine wp_seq (wp_log (workerPermits_of_isInternal _ (.selectJob shard) trivial))
    fun res es₁ h₁ => ?_
  cases res with
  | none => exact wp_seq wp_drainShard_log fun _ _ _ => trivial
  | some job =>
      have hjob : (⟨.selectJob shard, some job⟩ : Event rt.bufferSize) ∈ es₁ :=
        h₁ ▸ List.mem_append_right _ (List.mem_singleton_self _)
      exact wp_seq (wp_runSendJob_log hjob) fun _ _ _ => trivial

end Worker

/-! ## The whole relay -/

namespace System

variable {sys : System}

/-- What each thread may do. -/
def permits : sys.ι → List (Event sys.size) → Op sys.size → Prop
  | .inbound a => inboundPermits (sys.association a)
  | .preferred a => responderPermits (sys.association a)
  | .fallback a => responderPermits (sys.association a)
  | .worker _ => workerPermits

/-- The port a log entry stores for the association. -/
def stored? (a : Fin sys.count) : sys.ι × Event sys.size → Option UInt32
  | (i, ⟨.storePort port, _⟩) => if portOwner i = some a then some port else none
  | _ => none

/-- The job was queued before. -/
def WasQueued (log : List (sys.ι × Event sys.size)) (job : SendJob sys.size) : Prop :=
  ∃ i shard, (i, (⟨.trySend shard job, true⟩ : Event sys.size)) ∈ log

/-- How the shared state and the results that come from it follow from the log. -/
structure Traced (s : sys.State) : Prop where
  port_eq : ∀ a, s.port a = (latest (stored? a) s.log).getD 0
  queued : ∀ shard, ∀ job ∈ s.shards shard, WasQueued s.log job
  loads : Justified (fun before x => ∀ port, x.2 = (⟨.loadPort, port⟩ : Event sys.size) →
    ∃ a, portOwner x.1 = some a ∧ port = (latest (stored? a) before).getD 0) s.log
  received : Justified (fun before x => ∀ shard job,
    x.2 = (⟨.selectJob shard, some job⟩ : Event sys.size) → WasQueued before job) s.log

section Run

variable {ps : sys.ι → Relay sys.size Unit} {s s' : sys.State}

/-- What was queued stays queued. -/
theorem WasQueued.mono {log log' : List (sys.ι × Event sys.size)} {job : SendJob sys.size}
    (h : WasQueued log job) (hlog : log ⊆ log') : WasQueued log' job := by
  obtain ⟨i, shard, hmem⟩ := h
  exact ⟨i, shard, hlog hmem⟩

/-- One operation keeps the trace. -/
theorem traced_step {i : sys.ι} {o : Op sys.size} {r : Res o} (h : Traced s)
    (ha : act i s o r s') : Traced s' := by
  obtain ⟨t, ht, rfl⟩ := ha
  have hgrows : s.log ⊆ s.log ++ [(i, ⟨o, r⟩)] := List.subset_append_left _ _
  refine ⟨fun a => ?_, fun shard job hjob => ?_, h.loads.concat fun port hx => ?_,
    h.received.concat fun shard job hx => ?_⟩
  · rw [latest_concat]
    by_cases hstore : ∃ port, o = .storePort port
    · obtain ⟨port, rfl⟩ := hstore
      obtain ⟨a', howner, rfl⟩ := ht
      by_cases ha : a = a'
      · subst ha
        simp [stored?, howner]
      · simp [stored?, howner, Function.update_of_ne ha, Ne.symm ha, h.port_eq]
    · have hnone : stored? a (i, (⟨o, r⟩ : Event sys.size)) = none := by
        cases o <;> first | rfl | exact absurd ⟨_, rfl⟩ hstore
      rw [hnone, Option.none_or, ← h.port_eq]
      exact congrFun (effect_port_eq ht fun port hport => hstore ⟨port, hport⟩) a
  · obtain hjob | hsent := mem_shards_of_effect ht hjob
    · exact (h.queued shard job hjob).mono hgrows
    · exact ⟨i, shard, List.mem_append_right _ (by rw [hsent]; exact List.mem_singleton_self _)⟩
  · cases hx
    obtain ⟨a, howner, rfl, -⟩ := ht
    exact ⟨a, howner, h.port_eq a⟩
  · cases hx
    obtain ⟨rest, hqueue, -⟩ := ht
    exact h.queued shard job (hqueue ▸ List.mem_cons_self)

/-- In every state, the ports, the queues and what is taken from them are what the log says. -/
theorem traced_of_reaches (h : Reaches sys ps s) : Traced s := by
  have htraced : ∀ {now}, Threads.Reachable act (sys.program, sys.init) now → Traced now.2 := by
    intro now hnow
    induction hnow with
    | refl =>
        exact ⟨fun _ => rfl, fun _ _ hjob => absurd hjob List.not_mem_nil, justified_nil _,
          justified_nil _⟩
    | tail _ hstep ih =>
        obtain ⟨i, o, k, r, hp, ha⟩ := hstep
        exact traced_step ih ha
  exact htraced h

/-- Every operation of a run was permitted to its thread. -/
theorem permitted_of_reaches (h : Reaches sys ps s) :
    Justified (fun before x => permits x.1 (Threads.own before x.1) x.2.1) s.log := by
  refine Threads.permitted State.log (fun ha => ?_) permits rfl (fun i => ?_) h
  · obtain ⟨t, -, rfl⟩ := ha
    rfl
  · cases i with
    | inbound a => exact wp_inboundThread_log
    | preferred a => exact wp_responderThread_log
    | fallback a =>
        simp only [program]
        cases (sys.association a).fallbackV4 with
        | none => trivial
        | some v4 => exact wp_responderThread_log
    | worker shard => exact wp_workerThread_log

/-- The port was stored by a thread of the association. -/
theorem of_stored {x : sys.ι × Event sys.size} {a : Fin sys.count} {port : UInt32}
    (h : stored? a x = some port) : ∃ i, portOwner i = some a ∧ x = (i, ⟨.storePort port, ()⟩) := by
  obtain ⟨i, o, r⟩ := x
  cases o with
  | storePort port' =>
      simp only [stored?, Option.ite_none_right_eq_some, Option.some.injEq] at h
      obtain ⟨howner, rfl⟩ := h
      exact ⟨i, howner, rfl⟩
  | _ => simp [stored?] at h

/-- Only the request thread of an association stores its port. -/
theorem request_of_stored {i : sys.ι} {a : Fin sys.count} {es : List (Event sys.size)}
    {port : UInt32} (howner : portOwner i = some a)
    (h : permits i es (.storePort port)) :
    i = .inbound a ∧ ∃ src dst payload, Request (sys.association a) es src dst payload ∧
      port = src.port.toUInt32 := by
  cases i with
  | inbound a' =>
      obtain rfl : a' = a := Option.some.inj howner
      exact ⟨rfl, h⟩
  | preferred a' => exact h.elim
  | fallback a' => exact h.elim
  | worker shard => exact h.elim

/-- Only the request thread of an association queues its jobs. -/
theorem requested_of_queued {i : sys.ι} {shard : Nat} {job : SendJob sys.size}
    {es : List (Event sys.size)} (h : permits i es (.trySend shard job)) :
    ∃ a, i = .inbound a ∧ job.assoc = a ∧
      Requested (sys.association a) es job.packet.payload.bytes := by
  cases i with
  | inbound a => exact ⟨a, rfl, h.1.trans (sys.index_eq a), h.2⟩
  | preferred a => exact h.elim
  | fallback a => exact h.elim
  | worker shard' => exact h.elim

/-- A job that a worker received is a request of its association. -/
theorem requested_of_received (h : Reaches sys ps s) {before : List (sys.ι × Event sys.size)}
    (hbefore : before <+: s.log) {i : sys.ι} {shard : Nat} {job : SendJob sys.size}
    (hjob : (⟨.selectJob shard, some job⟩ : Event sys.size) ∈ Threads.own before i) :
    ∃ a : Fin sys.count, job.assoc = a ∧
      Requested (sys.association a) (Threads.own before (.inbound a))
        job.packet.payload.bytes := by
  obtain ⟨start, hstart, hqueued⟩ :=
    ((traced_of_reaches h).received.initial hbefore).of_mem (Threads.mem_own.mp hjob)
  obtain ⟨j, shard', hsent⟩ := hqueued shard job rfl
  obtain ⟨earlier, hearlier, hpermitted⟩ :=
    ((permitted_of_reaches h).initial (hstart.trans hbefore)).of_mem hsent
  obtain ⟨a, rfl, hassoc, hrequested⟩ := requested_of_queued hpermitted
  exact ⟨a, hassoc, hrequested.mono (Threads.own_subset (hearlier.trans hstart) _)⟩

end Run

/-! ## What is relayed -/

/-- The socket an operation writes to. -/
def writesTo? : Op sys.size → Option Sock
  | .writeBatch sock _ => some sock
  | .sendmsgN sock _ _ _ => some sock
  | _ => none

/-- The payloads an operation sends or queues. -/
def payloads : Op sys.size → List (List UInt8)
  | .writeBatch _ messages => messages.map fun m => m.payload.bytes
  | .sendmsgN _ packed _ _ => packed.map fun p => p.bytes
  | .trySend _ job => [job.packet.payload.bytes]
  | .sendPacket job => [job.packet.payload.bytes]
  | _ => []

/-- The thread's operation is for the association: its request thread's own, or a worker's
on a job of it. -/
def IsFor (a : Fin sys.count) (i : sys.ι) : Op sys.size → Prop
  | .sendPacket job => job.assoc = a
  | _ => i = .inbound a

/-- What is sent or queued, and not to the client, are requests of the association it is
for. -/
def Forwards (before : List (sys.ι × Event sys.size)) (x : sys.ι × Event sys.size) : Prop :=
  writesTo? x.2.1 ≠ some .inbound → ∀ payload ∈ payloads x.2.1, ∃ a, IsFor a x.1 x.2.1 ∧
    Requested (sys.association a) (Threads.own before (.inbound a)) payload

/-- The messages go to the authorized address, at the source port of the request that was
accepted last when thread `i` loaded the port for its current batch. -/
def RespondsTo (a : Fin sys.count) (i : sys.ι) (before : List (sys.ι × Event sys.size))
    (messages : List Message) : Prop :=
  ∃ earlier later batch src dst payload,
    before = (earlier ++ (.inbound a, ⟨.storePort src.port.toUInt32, ()⟩) :: later) ++
      (i, ⟨.loadPort, src.port.toUInt32⟩) :: batch ∧
    (∀ y ∈ later, stored? a y = none) ∧ (∀ e ∈ Threads.own batch i, loaded? e = none) ∧
    Request (sys.association a) (Threads.own earlier (.inbound a)) src dst payload ∧
    ∀ m ∈ messages, m.addr = setUDPAddr ⟨(sys.association a).srcIP, src.port⟩

/-- What is written to a client is a batch of responses of its association. -/
def Responds (before : List (sys.ι × Event sys.size)) (x : sys.ι × Event sys.size) : Prop :=
  writesTo? x.2.1 = some .inbound → ∃ a messages, (x.1 = .preferred a ∨ x.1 = .fallback a) ∧
    x.2.1 = .writeBatch .inbound messages ∧ RespondsTo a x.1 before messages

section Relayed

variable {ps : sys.ι → Relay sys.size Unit} {s s' : sys.State}

/-- What is sent to a target comes from an authorized datagram. -/
theorem forwards_of_reaches (h : Reaches sys ps s) : Justified Forwards s.log := by
  rintro before ⟨i, o, r⟩ after hlog hto payload hpayload
  have hbefore : before <+: s.log := hlog ▸ List.prefix_append _ _
  have hpermitted : permits i (Threads.own before i) o := permitted_of_reaches h _ _ _ hlog
  cases i with
  | inbound a =>
      refine ⟨a, ?_⟩
      cases o with
      | writeBatch sock messages =>
          obtain ⟨m, hm, rfl⟩ := List.mem_map.mp hpayload
          exact ⟨rfl, hpermitted.2 m hm⟩
      | sendmsgN sock packed segment sa =>
          obtain ⟨p, hp, rfl⟩ := List.mem_map.mp hpayload
          exact ⟨rfl, hpermitted.2 p hp⟩
      | trySend shard job =>
          obtain rfl := List.mem_singleton.mp hpayload
          exact ⟨rfl, hpermitted.2⟩
      | sendPacket job => exact hpermitted.elim
      | _ => exact absurd hpayload List.not_mem_nil
  | worker shard =>
      cases o with
      | sendPacket job =>
          obtain rfl := List.mem_singleton.mp hpayload
          obtain ⟨shard', hjob⟩ := hpermitted
          obtain ⟨a, hassoc, hrequested⟩ := requested_of_received h hbefore hjob
          exact ⟨a, hassoc, hrequested⟩
      | writeBatch _ _ | sendmsgN _ _ _ _ | trySend _ _ => exact hpermitted.elim
      | _ => exact absurd hpayload List.not_mem_nil
  | preferred a | fallback a =>
      cases o with
      | writeBatch sock messages => exact absurd (congrArg some hpermitted.1) hto
      | sendmsgN _ _ _ _ | trySend _ _ | sendPacket _ => exact hpermitted.elim
      | _ => exact absurd hpayload List.not_mem_nil

/-- A response thread writes for the request accepted last. -/
theorem respondsTo_of_permits (h : Reaches sys ps s) {before : List (sys.ι × Event sys.size)}
    (hbefore : before <+: s.log) {i : sys.ι} {a : Fin sys.count} (howner : portOwner i = some a)
    {messages : List Message} (hpermitted : responderPermits (sys.association a)
      (Threads.own before i) (.writeBatch .inbound messages)) :
    RespondsTo a i before messages := by
  obtain ⟨-, port, hloaded, hport, haddr⟩ := hpermitted
  obtain ⟨es, e, es', hown, hload, hlast⟩ := latest_eq_some hloaded
  obtain rfl := of_loaded hload
  obtain ⟨start, batch, rfl, -, rfl⟩ := Threads.own_eq_append_cons hown
  obtain ⟨a', howner', hlatest⟩ := (traced_of_reaches h).loads.initial hbefore _ _ _ rfl _ rfl
  obtain rfl : a = a' := Option.some.inj (howner.symm.trans howner')
  cases hstored : latest (stored? a) start with
  | none =>
      rw [hstored] at hlatest
      exact absurd (by rw [hlatest]; rfl) hport
  | some port' =>
      rw [hstored, Option.getD_some] at hlatest
      subst hlatest
      obtain ⟨earlier, x, later, rfl, hstore, hlater⟩ := latest_eq_some hstored
      obtain ⟨j, hj, rfl⟩ := of_stored hstore
      obtain ⟨rfl, src, dst, payload, hrequest, rfl⟩ := request_of_stored hj
        ((permitted_of_reaches h).initial hbefore earlier _ _ (List.append_assoc _ _ _))
      refine ⟨earlier, later, batch, src, dst, payload, rfl, hlater, hlast, hrequest,
        fun m hm => ?_⟩
      rw [haddr m hm, UInt16.toUInt16_toUInt32]

/-- A reply goes to the port that was stored last. -/
theorem responds_of_reaches (h : Reaches sys ps s) : Justified Responds s.log := by
  rintro before ⟨i, o, r⟩ after hlog hto
  have hbefore : before <+: s.log := hlog ▸ List.prefix_append _ _
  have hpermitted : permits i (Threads.own before i) o := permitted_of_reaches h _ _ _ hlog
  cases i with
  | inbound a =>
      cases o with
      | writeBatch _ _ | sendmsgN _ _ _ _ => exact absurd (Option.some.inj hto) hpermitted.1
      | _ => exact absurd hto (by simp [writesTo?])
  | worker shard =>
      cases o with
      | writeBatch _ _ | sendmsgN _ _ _ _ => exact hpermitted.elim
      | _ => exact absurd hto (by simp [writesTo?])
  | preferred a | fallback a =>
      cases o with
      | writeBatch sock messages =>
          obtain rfl : sock = .inbound := hpermitted.1
          exact ⟨a, messages, by simp, rfl, respondsTo_of_permits h hbefore rfl hpermitted⟩
      | sendmsgN _ _ _ _ => exact hpermitted.elim
      | _ => exact absurd hto (by simp [writesTo?])

end Relayed

/-! ## What is dropped -/

/-- The packet is a truncated, malformed, fragmented or unauthorized datagram. -/
def Rejected (a : Association) (packet : ReadPacket size) : Prop :=
  packet.truncated = true ∨ (∀ frag dst payload,
    ¬ WireDatagram (packet.payload 0) frag dst payload) ∨
    (∃ frag dst payload, WireDatagram (packet.payload 0) frag dst payload ∧ frag ≠ 0) ∨
    packet.addr.addr.unmap ≠ a.srcIP.unmap

/-- The operation changes neither a remembered port nor a send queue. -/
def Inert (e : Event sys.size) : Prop :=
  ∀ (i : sys.ι) (s s' : sys.State), act i s e.1 e.2 s' → s'.port = s.port ∧ s'.shards = s.shards

/-- A datagram that passes its checks is none of the rejected. -/
theorem not_rejected_of_verdict {a : Association} {packet : ReadPacket size}
    {pkt : InboundPacket size} (h : a.verdict packet = .ok pkt) : ¬ Rejected a packet := by
  obtain ⟨htrunc, hdr, hlen, hparse, hfrag, hauth, -⟩ := Association.verdict_eq_ok h
  obtain ⟨-, hwire⟩ := wireDatagram_of_parseUdpHeader hparse
  rintro (htrunc' | hmalformed | ⟨frag, dst, payload, hfragment, hne⟩ | hsrc)
  · rw [htrunc] at htrunc'
    exact Bool.noConfusion htrunc'
  · exact hmalformed _ _ _ (by rwa [ReadPacket.payload, List.drop_zero])
  · rw [ReadPacket.payload, List.drop_zero] at hfragment
    have heq : some frag = some hdr.frag := by rw [← hfragment.getElem?_two, hwire.getElem?_two]
    exact hne ((Option.some.inj heq).trans hfrag)
  · exact hsrc (unmap_eq_of_isAuthorized hauth)

theorem inert_count (c : Counter) (delta : Int) : @Inert sys ⟨.count c delta, ()⟩ := by
  rintro i s s' ⟨t, rfl, rfl⟩
  exact ⟨rfl, rfl⟩

/-- Giving a buffer back sends nothing. -/
theorem inert_of_mem_releaseEvents {buf : Buffer sys.size} {slot : Bool} {e : Event sys.size}
    (h : e ∈ releaseEvents buf slot) : Inert e := by
  have hput : @Inert sys ⟨.putBuffer buf, ()⟩ := by
    rintro i s s' ⟨t, rfl, rfl⟩
    exact ⟨rfl, rfl⟩
  have hslot : @Inert sys ⟨.recvBatchSlot buf, ()⟩ := by
    rintro i s s' ⟨t, ⟨-, rfl⟩, rfl⟩
    exact ⟨rfl, rfl⟩
  cases slot with
  | false =>
      obtain rfl := List.mem_singleton.mp h
      exact hput
  | true =>
      obtain rfl | rfl : e = ⟨.recvBatchSlot buf, ()⟩ ∨ e = ⟨.putBuffer buf, ()⟩ := by
        simpa [releaseEvents] using h
      · exact hslot
      · exact hput

/-- A packet changes nothing but counters and the buffer pool, or it is none of the rejected
and its source port is stored first. -/
theorem rejected_or_stored {a : Association} {b b' : Batches sys.size}
    {packet : ReadPacket sys.size} {es : List (Event sys.size)}
    (h : Exec (history sys.size).trans [] (relayPacket sys.rt a b packet) es b') :
    (b' = b ∧ ∀ e ∈ es, Inert e) ∨ (¬ Rejected a packet ∧
      ∃ rest, es = ⟨.storePort packet.addr.port.toUInt32, ()⟩ :: rest) := by
  obtain ⟨f, es, rfl, hf⟩ := wp_exec (history_relayPacket packet) h
  cases hf with
  | dropped c hverdict =>
      refine .inl ⟨rfl, fun e he => ?_⟩
      obtain rfl | he := List.mem_cons.mp he
      · exact inert_count c 1
      · exact inert_of_mem_releaseEvents he
  | accepted pkt hverdict hrouted =>
      obtain ⟨-, hdr, hlen, -, -, -, rfl⟩ := Association.verdict_eq_ok hverdict
      exact .inr ⟨not_rejected_of_verdict hverdict, _, rfl⟩

/-! ## The guarantee -/

/-- **Authorization.**  In every run of the relay,
* what is sent or queued towards a target are payloads of complete, well-formed, unfragmented
  datagrams of the authorized source;
* a response goes to the authorized address, at the source port of such a datagram that was
  accepted last when the batch was started; so there is none before the first one;
* a truncated, malformed, fragmented or unauthorized datagram leaves the ports, the batches and
  the queues as they are, and any other that does not do so has its port stored first;
* the history of a request thread is a sequence of calls of `inboundPump` that do this with
  each packet they read. -/
theorem association_guarded {ps : sys.ι → Relay sys.size Unit} {s : sys.State}
    (h : Reaches sys ps s) :
    Justified Forwards s.log ∧ Justified Responds s.log ∧
      (∀ (a : Fin sys.count) {b b' : Batches sys.size} {packet : ReadPacket sys.size}
        {es : List (Event sys.size)},
        Exec (history sys.size).trans [] (relayPacket sys.rt (sys.association a) b packet) es b' →
        (b' = b ∧ ∀ e ∈ es, Inert e) ∨ (¬ Rejected (sys.association a) packet ∧
          ∃ rest, es = ⟨.storePort packet.addr.port.toUInt32, ()⟩ :: rest)) ∧
      ∀ a : Fin sys.count,
        Served sys.rt (sys.association a) ⟨false, [], []⟩ (Threads.own s.log (.inbound a)) :=
  ⟨forwards_of_reaches h, responds_of_reaches h, fun _ _ _ _ _ hexec => rejected_or_stored hexec,
    served_of_reaches h⟩

/-- A run in which a datagram was accepted, one rejected and a response sent. -/
theorem association_guarded_solo : ∃ ps s, Reaches solo ps s ∧ SoloRun s.log ∧
    Justified Forwards s.log ∧ Justified Responds s.log := by
  obtain ⟨ps, s, hs, hrun, -⟩ := reaches_solo
  obtain ⟨hforwards, hresponds, -⟩ := association_guarded hs
  exact ⟨ps, s, hs, hrun, hforwards, hresponds⟩

end System

end Outway.Udp
