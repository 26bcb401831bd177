import Outway.Serverbase.Drain

/-!
# Outway.Serverbase.Unblocked

Shutdown does not hang on the server itself.

A goroutine waits for few things (`Waits`): an accept loop for room in the gate while the
server is not shutting down, a second call of `Close` for the first, and the goroutines
for their start.  So the call that shuts the server down returns whatever the handlers do,
and once it waits for them, each goroutine in the wait group can run to its end with all
others standing still.
-/

namespace Outway.Serverbase

open Prog

namespace Server

variable {server : Server}

/-- A token that a thread is to take out of the gate is there. -/
theorem tokens_pos_of_permits {s : server.State} (hk : Kept s) (he : server.max ≠ 0 → Exact s)
    {b : server.ι} (hp : server.permits b (Threads.own s.log b) .receiveToken) : 0 < s.tokens := by
  have hmax (hg : server.gate.tokens.isSome) : server.max ≠ 0 := fun hzero => by
    rw [gate, newConnectionGate, if_pos hzero] at hg
    exact Bool.false_ne_true hg
  cases b with
  | acceptLoop ln =>
      obtain ⟨hg, conn, added, hpending, -⟩ := hp
      have htoken : (pendings s.log ln).token.toNat = 1 := by rw [pendings, hpending]; rfl
      have hle := Finset.single_le_sum (f := fun ln => (pendings s.log ln).token.toNat)
        (fun _ _ => Nat.zero_le _) (Finset.mem_univ ln)
      rw [(he (hmax hg)).tokens_eq]
      omega
  | handler conn =>
      have hg : server.gate.tokens.isSome := by
        by_contra hnone
        have hmem := List.mem_of_getElem? hp
        simp [handlerOps, hnone] at hmem
      have := Finset.card_pos.mpr ⟨conn, hk.mem_running_of_permits hp⟩
      rw [(he (hmax hg)).tokens_eq]
      omega
  | closer => exact False.elim hp

/-- What an operation of the accept model can wait for. -/
def Waits (s : server.State) : Op → Prop
  | .sendTokenOrDone => server.max.toNat ≤ s.tokens ∧ s.conns.done = false
  | .serve conn => conn ∉ started s.log
  | _ => False

/-- An operation that a thread comes to can be done, unless it has to wait. -/
theorem can_act {s : server.State} (hk : Kept s) (he : server.max ≠ 0 → Exact s)
    {b : server.ι} {o : Op} (hp : server.permits b (Threads.own s.log b) o) :
    (∃ r s', act b s o r s') ∨ Waits s o := by
  cases o with
  | accept ln =>
      refine .inl ?_
      by_cases hclosed : ln ∈ s.closedListeners
      · exact ⟨.error .errClosed, _, _, ⟨iff_of_true rfl hclosed, rfl⟩, rfl⟩
      · exact ⟨.error (.other ""), _, _, ⟨iff_of_false Bool.false_ne_true hclosed, rfl⟩, rfl⟩
  | trySendToken =>
      refine .inl ?_
      by_cases hroom : s.tokens < server.max.toNat
      · exact ⟨true, _, _, by rw [effect, if_pos hroom]; exact ⟨rfl, rfl⟩, rfl⟩
      · exact ⟨false, _, _, by rw [effect, if_neg hroom]; exact ⟨rfl, rfl⟩, rfl⟩
  | sendTokenOrDone =>
      by_cases hroom : s.tokens < server.max.toNat
      · exact .inl ⟨true, _, _, ⟨hroom, rfl⟩, rfl⟩
      · cases hdone : s.conns.done with
        | true => exact .inl ⟨false, _, _, ⟨hdone, rfl⟩, rfl⟩
        | false => exact .inr ⟨Nat.le_of_not_lt hroom, hdone⟩
  | checkDone => exact .inl ⟨_, _, _, ⟨rfl, rfl⟩, rfl⟩
  | receiveToken => exact .inl ⟨(), _, _, ⟨tokens_pos_of_permits hk he hp, rfl⟩, rfl⟩
  | add conn => exact .inl ⟨_, _, _, ⟨rfl, rfl⟩, rfl⟩
  | serve conn =>
      by_cases hstarted : conn ∈ started s.log
      · exact .inl ⟨(), _, _, ⟨hstarted, rfl⟩, rfl⟩
      · exact .inr hstarted
  | closeDone =>
      cases b with
      | closer => exact .inl ⟨(), _, _, ⟨rfl, rfl⟩, rfl⟩
      | acceptLoop ln => exact False.elim hp
      | handler conn => simpa using mem_handlerOps (List.mem_of_getElem? hp)
  | closeShard k =>
      cases b with
      | closer =>
          exact .inl ⟨(s.conns.shards k).conns.toList, _, _, ⟨rfl, Finset.coe_toList _, rfl⟩, rfl⟩
      | acceptLoop ln => exact False.elim hp
      | handler conn => simpa using mem_handlerOps (List.mem_of_getElem? hp)
  | remove conn | go conn => exact .inl ⟨(), _, _, rfl, rfl⟩
  | close conn | closeListener ln => exact .inl ⟨none, _, _, rfl, rfl⟩

end Server

namespace Lifecycle

variable {life : Lifecycle}

/-! ## What a goroutine waits for -/

/-- What an operation can wait for. -/
def Waits (s : life.State) : Op life.listeners → Prop
  | .base o => Server.Waits s.base o
  | .beginLoop ln => ln ∉ s.loops
  | .onceDo => ∃ n, s.once = .running n
  | .beginWait => s.waiting = false
  | .wgWake => s.woken = false
  | _ => False

/-- What the goroutines need to go on. -/
structure Live (s : life.State) : Prop where
  exact : life.max ≠ 0 → Server.Exact s.base
  closed_done : ∀ i, .base .closeDone ∈ ops (Threads.own s.log i) → s.base.conns.done
  waiting_done : s.waiting → s.base.conns.done
  once_false : ∀ i, ⟨.onceDo, false⟩ ∈ Threads.own s.log i → ∃ n err, s.once = .finished n err
  once_set : ∀ i err, .setCloseErr err ∈ ops (Threads.own s.log i) → ∃ n err,
    s.once = .finished n err

theorem live_init : Live life.init where
  exact _ := Server.exact_init
  closed_done _ h := absurd h List.not_mem_nil
  waiting_done h := absurd h Bool.false_ne_true
  once_false _ h := absurd h List.not_mem_nil
  once_set _ _ h := absurd h List.not_mem_nil

section Step

variable {i : life.ι} {s s' : life.State} {o : Op life.listeners} {r : Res o}

/-- `done` is not reopened. -/
theorem done_stays {server : Server} {b : server.ι} {s s' : server.State} {bo : Serverbase.Op}
    {br : Serverbase.Res bo} (ha : Server.act b s bo br s')
    (h : s.conns.done ∨ bo = .closeDone) : s'.conns.done := by
  obtain ⟨t, ht, rfl⟩ := ha
  have hadd (conn : Conn) : (s.conns.add conn).2.done = s.conns.done := by
    simp only [ConnectionSet.add]
    split_ifs <;> rfl
  cases bo <;> simp only [Server.effect] at ht <;>
    grind [ConnectionSet.remove, ConnectionSet.setConns, ConnectionSet.closeShard]

theorem done_of_act (ha : act i s o r s') (h : s.base.conns.done ∨ o = .base .closeDone) :
    s'.base.conns.done := by
  obtain ⟨bo, br, b, rfl, -, -, hact⟩ | ⟨he, hbase⟩ := base_of_act ha
  · exact done_stays hact (h.imp_right Op.base.inj)
  · rw [hbase]
    exact h.resolve_right fun ho => by subst ho; simp [baseEvent] at he

/-- Behind `closeOnce` there is a result. -/
theorem finished_of_act (ha : act i s o r s')
    (h : (∃ n err, s.once = .finished n err) ∨ (⟨o, r⟩ : life.Event) = ⟨.onceDo, false⟩ ∨
      ∃ err, o = .setCloseErr err) : ∃ n err, s'.once = .finished n err := by
  obtain ⟨t, ht, rfl⟩ := ha
  cases o <;> simp only [effect] at ht <;> grind

theorem Live.step (hl : Linked s) (h : Live s) (hp : Lifecycle.permits i (Threads.own s.log i) o)
    (ha : act i s o r s') : Live s' := by
  refine ⟨fun hmax => ?_, fun j hj => ?_, fun hw => ?_, fun j hj => ?_, fun j err hj => ?_⟩
  · obtain ⟨bo, br, b, rfl, -, -, hpb, hact⟩ | ⟨-, hbase⟩ := hl.base_step hp ha
    · exact (h.exact hmax).step hmax hl.kept hpb hact
    · rw [hbase]
      exact h.exact hmax
  · rw [own_log_of_act ha] at hj
    split_ifs at hj with hi
    · rw [ops_concat, List.mem_append, List.mem_singleton] at hj
      exact done_of_act ha (hj.imp (h.closed_done _) Eq.symm)
    · exact done_of_act ha (.inl (h.closed_done _ hj))
  · obtain hw | rfl := (waiting_of_act ha).2.1 hw
    · exact done_of_act ha (.inl (h.waiting_done hw))
    · obtain ⟨n, rfl⟩ : ∃ n, i = .closer n := belongs_of_permits hp
      exact done_of_act ha (.inl (h.closed_done _ hp.1))
  · rw [own_log_of_act ha] at hj
    split_ifs at hj with hi
    · rw [List.mem_append, List.mem_singleton] at hj
      exact finished_of_act ha (hj.imp (h.once_false _) fun he => .inl he.symm)
    · exact finished_of_act ha (.inl (h.once_false _ hj))
  · rw [own_log_of_act ha] at hj
    split_ifs at hj with hi
    · rw [ops_concat, List.mem_append, List.mem_singleton] at hj
      exact finished_of_act ha (hj.imp (h.once_set _ err) fun ho => .inr ⟨err, ho.symm⟩)
    · exact finished_of_act ha (.inl (h.once_set _ err hj))

/-- A goroutine that is not waiting can go on. -/
theorem Live.can_act (hc : Counted s) (h : Live s)
    (hp : Lifecycle.permits i (Threads.own s.log i) o) :
    (∃ r s', act i s o r s') ∨ Waits s o := by
  cases o with
  | base bo =>
      obtain ⟨b, hb⟩ : ∃ b, part i = some b := by
        cases i with
        | waiter => exact False.elim hp
        | _ => exact ⟨_, rfl⟩
      refine (Server.can_act hc.linked.kept h.exact (hc.linked.permits hb hp)).imp_left ?_
      rintro ⟨r, base, hact⟩
      exact ⟨r, _, _, ⟨b, base, hb, hact, rfl⟩, rfl⟩
  | wgDone t =>
      refine .inl ⟨(), _, _, ⟨?_, rfl⟩, rfl⟩
      obtain ⟨rfl, hnot, -⟩ := done_of_permits hp
      exact hc.wg_pos (hc.done_added hp) (hc.notMem_finished hnot)
  | beginLoop ln =>
      by_cases hln : ln ∈ s.loops
      · exact .inl ⟨(), _, _, ⟨hln, rfl⟩, rfl⟩
      · exact .inr hln
  | onceDo =>
      obtain ⟨n, rfl⟩ : ∃ n, i = .closer n := belongs_of_permits hp
      cases honce : s.once with
      | fresh => exact .inl ⟨true, _, _, ⟨honce, n, rfl, rfl⟩, rfl⟩
      | running m => exact .inr ⟨m, honce⟩
      | finished m err => exact .inl ⟨false, _, _, ⟨⟨m, err, honce⟩, rfl⟩, rfl⟩
  | beginWait =>
      cases hw : s.waiting with
      | true => exact .inl ⟨(), _, _, ⟨hw, rfl⟩, rfl⟩
      | false => exact .inr hw
  | wgWait =>
      refine .inl ?_
      by_cases hzero : s.wg = 0
      · exact ⟨true, _, _, ⟨hzero, rfl⟩, rfl⟩
      · exact ⟨false, _, _, ⟨Nat.pos_of_ne_zero hzero, rfl⟩, rfl⟩
  | wgWake =>
      cases hw : s.woken with
      | true => exact .inl ⟨decide (s.wg = 0), _, _, ⟨hw, decide_eq_true_iff, rfl⟩, rfl⟩
      | false => exact .inr hw
  | selectWaited => exact .inl ⟨false, _, _, ⟨by simp, rfl⟩, rfl⟩
  | setCloseErr err =>
      obtain ⟨n, rfl⟩ : ∃ n, i = .closer n := belongs_of_permits hp
      exact .inl ⟨(), _, _, ⟨n, rfl, rfl⟩, rfl⟩
  | closeErr =>
      obtain ⟨n, rfl⟩ : ∃ n, i = .closer n := belongs_of_permits hp
      obtain ⟨m, err, honce⟩ : ∃ m err, s.once = .finished m err :=
        hp.elim (h.once_false _) fun ⟨err, hset⟩ => h.once_set _ err hset
      exact .inl ⟨err, _, _, ⟨⟨m, honce⟩, rfl⟩, rfl⟩
  | waitUdpWorkers => exact .inl ⟨true, _, _, rfl, rfl⟩
  | wgAdd _ | goLoop _ | cancel | goWait | closeWaited => exact .inl ⟨(), _, _, rfl, rfl⟩

end Step

theorem live_of_reaches {now : (life.ι → life.Proc Unit) × life.State} (h : life.Reaches now) :
    (Counted now.2 ∧ Live now.2) ∧ ∀ i, (now.1 i).wp (Contract.logging (Lifecycle.permits i))
      (Threads.own now.2.log i) fun _ es => post i es :=
  Threads.logged State.log log_of_act Lifecycle.permits post (fun s => Counted s ∧ Live s)
    (fun h hp ha => ⟨h.1.step hp ha, h.2.step h.1.linked hp ha⟩) rfl ⟨counted_init, live_init⟩
    wp_program h

/-! ## Running to the end -/

theorem ensures_op (o : Op life.listeners) : (op o).Ensures fun _ => True :=
  ensures_step.mpr fun _ => trivial

/-- A handler does not fault. -/
theorem ensures_handler (conn : Conn) : (life.handler conn).Ensures fun _ => True := by
  have hbase : (Serverbase.handler life.server.gate conn).Ensures fun _ => True := by
    unfold Serverbase.handler ConnectionGate.release
    split <;> simp [Serverbase.op]
  exact Ensures.bind (hbase.interp fun _ => ensures_op _) fun _ _ => ensures_op _

/-- Neither does `Close`. -/
theorem ensures_close : life.close.Ensures fun _ => True := by
  have hall : closeAll.Ensures fun _ => True := by
    refine Ensures.bind (ensures_step.mpr fun _ => trivial) fun _ _ => ?_
    refine ensures_foldlM (fun _ _ => True) (fun k _ errs _ => ?_) trivial
    refine Ensures.bind (ensures_step.mpr fun _ => trivial) fun conns _ => ?_
    refine ensures_foldlM (fun _ _ => True) (fun conn _ _ _ => ?_) trivial
    exact ensures_step.mpr fun _ => trivial
  have hlisteners (lns : List Nat) : (closeListeners lns []).Ensures fun _ => True := by
    refine ensures_foldlM (fun _ _ => True) (fun ln _ _ _ => ?_) trivial
    exact ensures_step.mpr fun _ => trivial
  have hshutdown : life.shutdown.Ensures fun _ => True := by
    refine Ensures.bind (ensures_op _) fun _ _ => Ensures.bind (hall.interp fun _ => ensures_op _)
      fun _ _ => Ensures.bind ((hlisteners _).interp fun _ => ensures_op _) fun _ _ => ?_
    refine Ensures.bind (Ensures.bind (ensures_op _) fun _ _ => ensures_op _) fun _ _ => ?_
    cases life.udp
    · exact trivial
    · exact Ensures.bind (ensures_op _) fun _ _ => trivial
  refine Ensures.bind (ensures_op _) fun called _ => ?_
  cases called
  · exact Ensures.bind (ensures_op _) fun _ _ => trivial
  · refine Ensures.bind hshutdown fun _ _ => Ensures.bind (ensures_op _) fun _ _ => ?_
    exact Ensures.bind (ensures_op _) fun _ _ => trivial

/-- A goroutine that never waits in states of a kind can run to its end. -/
theorem finishes {i : life.ι} (P : (life.ι → life.Proc Unit) × life.State → Prop)
    (hstep : ∀ {ps s o k r s'}, life.Reaches (ps, s) → P (ps, s) → ps i = .step o k →
      act i s o r s' → P (Function.update ps i (k r), s'))
    (hwaits : ∀ {ps s o}, P (ps, s) → Lifecycle.permits i (Threads.own s.log i) o → ¬ Waits s o)
    {now : (life.ι → life.Proc Unit) × life.State} (h : life.Reaches now) (hP : P now) :
    ∃ later, Threads.Reachable act now later ∧ P later ∧ (∀ j ≠ i, later.1 j = now.1 j) ∧
      (later.1 i = .ret () ∧ post i (Threads.own later.2.log i) ∨ later.1 i = .fault) := by
  obtain ⟨later, hlater, ⟨hreach, hlast⟩, hothers, hend⟩ := Threads.finishes (i := i)
    (fun now => life.Reaches now ∧ P now)
    (fun {ps s o k r s'} h hp ha => ⟨h.1.tail (.mk i _ _ _ hp ha), hstep h.1 h.2 hp ha⟩)
    (fun {ps s o k} h hp => by
      obtain ⟨⟨hcounted, hlive⟩, hwp⟩ := live_of_reaches h.1
      have hpermits : Lifecycle.permits i (Threads.own s.log i) o := ok_of_step (hwp i) hp
      exact (hlive.can_act hcounted hpermits).resolve_right (hwaits h.2 hpermits))
    ⟨h, hP⟩
  refine ⟨later, hlater, hlast, hothers, hend.imp_left fun hret => ⟨hret, ?_⟩⟩
  have := (live_of_reaches hreach).2 i
  rw [hret] at this
  exact this

/-! ## The rounds of an accept loop -/

/-- The accept, if it is one, finds the listener closed. -/
def FindsClosed : (o : Serverbase.Op) → Serverbase.Res o → Prop
  | .accept _, .ok _ => False
  | .accept _, .error err => err.isClosed = true
  | _, _ => True

/-- The contract of a loop whose last accept finds the listener closed: it does not go on
for longer than it is followed.  Its state is the number of accepts. -/
def closedInTime (rounds : Nat) : Contract Serverbase.Op Serverbase.Res Nat where
  ok _ _ := True
  trans n o r n' := n' = n + (isAccept o).toNat ∧ (n' = rounds → FindsClosed o r)
  fault := False

/-- The entry, if it is an accept, finds the listener closed. -/
def FindsEnd : life.Event → Prop
  | ⟨.base o, r⟩ => FindsClosed o r
  | _ => True

variable (life) in
/-- The same over the operations of the threads. -/
def endsInTime : Contract (Op life.listeners) Res Nat where
  ok _ _ := True
  trans n o r n' := n' = n + accepts [(⟨o, r⟩ : life.Event)] ∧ (n' = life.rounds → FindsEnd ⟨o, r⟩)
  fault := False

section Rounds

variable {rounds n : Nat} {ln : Fin life.listeners}

/-- One round: one accept, and the end if it finds the listener closed. -/
theorem wp_acceptRound_inTime (g : ConnectionGate) (ln : Nat) :
    (acceptRound g ln).wp (closedInTime rounds) n
      fun r n' => n' = n + 1 ∧ (n' = rounds → r = none) := by
  refine wp_bind.mpr ⟨trivial, ?_⟩
  rintro r n' ⟨rfl, hclosed⟩
  cases r with
  | error err =>
      refine ⟨rfl, fun hlast => ?_⟩
      simpa [FindsClosed] using hclosed hlast
  | ok conn =>
      have hlast : n + 1 ≠ rounds := fun hlast => (hclosed hlast).elim
      obtain ⟨_ | m⟩ := g
      all_goals
        simp [ConnectionGate.acquireUntil, ConnectionGate.keepUnlessDone, ConnectionGate.release,
          Serverbase.op, closedInTime, isAccept, FindsClosed, hlast, Bool.forall_bool]

/-- An operation of the loop, with what goes before it. -/
theorem wp_withAdd_inTime {o : Serverbase.Op} {m : Nat} (hm : n = m) :
    (withAdd o : life.Proc _).wp life.endsInTime m
      fun r n' => ∃ n₁, (closedInTime life.rounds).trans n o r n₁ ∧ n₁ = n' := by
  subst hm
  cases o with
  | go conn =>
      refine wp_bind.mpr ⟨trivial, ?_⟩
      rintro - _ ⟨rfl, -⟩
      exact ⟨trivial, fun r n₁ h => ⟨n₁, h, rfl⟩⟩
  | _ => exact ⟨trivial, fun r n₁ h => ⟨n₁, h, rfl⟩⟩

/-- A loop that is followed long enough ends before it is out of rounds. -/
theorem wp_round_inTime (ln : Fin life.listeners) :
    ((acceptRound life.server.gate ln).interp withAdd : life.Proc _).wp life.endsInTime n
      fun r n' => n' = n + 1 ∧ (n' = life.rounds → r = none) := by
  have hround : ((acceptRound life.server.gate ln).interp withAdd : life.Proc _).wp
    life.endsInTime n
      fun r n' => ∃ n₁, (n₁ = n + 1 ∧ (n₁ = life.rounds → r = none)) ∧ n₁ = n' :=
    wp_interp Eq False.elim (fun hn _ => wp_withAdd_inTime hn) (wp_acceptRound_inTime _ ln) rfl
  refine wp_mono hround ?_
  rintro r n' ⟨_, h, rfl⟩
  exact h

/-- So the loop does not fault. -/
theorem wp_acceptLoop_inTime (hrounds : 0 < life.rounds) (ln : Fin life.listeners) :
    (life.acceptLoop ln).wp life.endsInTime 0 fun _ _ => True := by
  refine wp_iterate_rounds (fun left _ n => n + left = life.rounds ∧ 0 < left)
    (fun _ _ h => absurd h.2 (Nat.lt_irrefl 0)) (fun left _ n h => ?_) ⟨Nat.zero_add _, hrounds⟩
  refine wp_mono (wp_round_inTime ln) ?_
  rintro r n' ⟨rfl, hlast⟩
  cases r with
  | none => trivial
  | some _ =>
      -- a round that goes on was not the last
      have hne : n + 1 ≠ life.rounds := fun h => by simpa using hlast h
      exact ⟨by omega, by omega⟩

/-- A thread that accepts nothing before its loop is in time. -/
theorem wp_listener_inTime (hrounds : 0 < life.rounds) (ln : Fin life.listeners) :
    (life.program (.acceptLoop ln)).wp life.endsInTime 0 fun _ _ => True := by
  have hloop : (life.acceptLoop ln >>= fun _ => op (.wgDone (.acceptLoop ln))).wp
      life.endsInTime 0 fun _ _ => True :=
    wp_seq (wp_acceptLoop_inTime hrounds ln) fun _ _ _ => ⟨trivial, fun _ _ _ => trivial⟩
  by_cases hln : ln = 0
  · subst hln
    refine wp_seq (wp_forM (fun _ n => n = 0) (fun ln _ n hn => ?_) rfl) ?_
    · refine ⟨trivial, ?_⟩
      rintro - _ ⟨rfl, -⟩
      exact ⟨trivial, fun _ _ h => h.1.trans hn⟩
    · rintro - _ rfl
      refine ⟨trivial, ?_⟩
      rintro - _ ⟨rfl, -⟩
      exact hloop
  · rw [program, if_neg hln]
    refine ⟨trivial, ?_⟩
    rintro - _ ⟨rfl, -⟩
    exact hloop

/-- The rounds of a loop are counted by its accepts. -/
theorem accepts_concat (es : List life.Event) (o : Op life.listeners) (r : Res o) :
    accepts (es ++ [⟨o, r⟩]) = accepts es + accepts [(⟨o, r⟩ : life.Event)] := by
  simp [accepts]

/-- Before its last accept a listener's thread is in time. -/
theorem inTime_of_reaches {now : (life.ι → life.Proc Unit) × life.State} (h : life.Reaches now)
    (hlt : accepts (Threads.own now.2.log (.acceptLoop ln)) < life.rounds) :
    (now.1 (.acceptLoop ln)).wp life.endsInTime
      (accepts (Threads.own now.2.log (.acceptLoop ln))) fun _ _ => True := by
  induction h with
  | refl => exact wp_listener_inTime (Nat.zero_lt_of_lt hlt) ln
  | tail _ hstep ih =>
      cases hstep with
      | @mk ps s s' i o k r hp ha =>
          dsimp only at ih hlt ⊢
          rw [own_log_of_act ha] at hlt ⊢
          split_ifs at hlt ⊢ with hi
          · subst hi
            rw [accepts_concat] at hlt ⊢
            have hwp := ih (by omega)
            rw [hp] at hwp
            rw [Function.update_self]
            exact hwp.2 r _ ⟨rfl, fun hlast => absurd hlast (Nat.ne_of_lt hlt)⟩
          · rw [Function.update_of_ne hi]
            exact ih hlt

/-- The next accept of a closed listener finds it closed. -/
theorem findsEnd_of_act {s s' : life.State} {o : Op life.listeners} {r : Res o}
    (hclosed : (ln : Nat) ∈ s.base.closedListeners)
    (hp : Lifecycle.permits (.acceptLoop ln) (Threads.own s.log (.acceptLoop ln)) o)
    (ha : act (.acceptLoop ln) s o r s') : FindsEnd (⟨o, r⟩ : life.Event) := by
  obtain ⟨t, ht, -⟩ := ha
  cases o with
  | base bo =>
      cases bo with
      | accept l =>
          obtain hscript | ⟨-, hloop⟩ := hp
          · exact (preparing_of_scripted hscript).elim
          · obtain rfl : l = ln := hloop.2.2 l rfl
            obtain ⟨b, base, -, ⟨u, hu, -⟩, -⟩ := ht
            cases r with
            | ok conn => exact absurd hclosed hu.1
            | error err => exact hu.1.mpr hclosed
      | _ => trivial
  | _ => trivial

end Rounds

section Waiting

variable {s : life.State} {o : Op life.listeners}

/-- A loop that was started stays started. -/
theorem loops_stay {i : life.ι} {s' : life.State} {r : Res o} (ha : act i s o r s')
    {ln : Fin life.listeners} (hln : ln ∈ s.loops) : ln ∈ s'.loops := by
  obtain ⟨t, ht, rfl⟩ := ha
  cases o <;> simp only [effect] at ht <;> grind

/-- The call inside `closeOnce` waits for nobody. -/
theorem closer_not_waits {n : Nat} (hs : (.closer n, ⟨.onceDo, true⟩) ∈ s.log)
    (hp : Lifecycle.permits (.closer n) (Threads.own s.log (.closer n)) o) : ¬ Waits s o := by
  have hmem := Threads.mem_own.mpr hs
  cases o with
  | base bo =>
      cases bo with
      | sendTokenOrDone | serve _ => exact False.elim hp.2
      | _ => exact id
  | onceDo =>
      have hnil : Threads.own s.log (.closer n) = [] := hp
      simp [hnil] at hmem
  | beginLoop ln | beginWait | wgWake => exact False.elim hp
  | _ => exact id

/-- Neither does a handler. -/
theorem handler_not_waits {conn : Conn} (hs : conn ∈ Server.started s.base.log)
    (hp : Lifecycle.permits (.handler conn) (Threads.own s.log (.handler conn)) o) :
      ¬ Waits s o := by
  have hmem := hp.subset (List.mem_append_right _ (List.mem_singleton_self o))
  simp only [handlerOps, List.mem_append, List.mem_map, List.mem_singleton] at hmem
  obtain ⟨bo, hbo, rfl⟩ | rfl := hmem
  · obtain rfl | rfl | rfl := mem_handlerOps hbo
    · exact not_not_intro hs
    · exact id
    · exact id
  · exact id

/-- Nor a loop, once `done` is closed. -/
theorem loop_not_waits {ln : Fin life.listeners}
    (hs : s.base.conns.done ∧ (ln = 0 ∨ ln ∈ s.loops))
    (hp : Lifecycle.permits (.acceptLoop ln) (Threads.own s.log (.acceptLoop ln)) o) :
    ¬ Waits s o := by
  obtain ⟨hdone, hln⟩ := hs
  obtain hscript | ⟨-, hloop⟩ := hp
  · have hmem := hscript.subset (List.mem_append_right _ (List.mem_singleton_self o))
    by_cases hzero : ln = 0
    · subst hzero
      cases o <;> simp_all [prologue, Waits]
    · obtain rfl : o = .beginLoop ln := by simpa [prologue, hzero] using hmem
      exact not_not_intro (hln.resolve_left hzero)
  · cases o with
    | base bo =>
        cases bo with
        | sendTokenOrDone => exact fun hwaits => Bool.false_ne_true (hwaits.2.symm.trans hdone)
        | serve conn => exact False.elim hloop.2.1
        | _ => exact id
    | wgAdd t | wgDone t => exact id
    | _ => exact False.elim hloop

end Waiting

/-! ## Shutdown -/

section Finish

variable {now : (life.ι → life.Proc Unit) × life.State}

/-- The call of `Close` that got `closeOnce` can return. -/
theorem closer_finishes (h : life.Reaches now) {n : Nat}
    (hn : (.closer n, ⟨.onceDo, true⟩) ∈ now.2.log) :
    ∃ later, Threads.Reachable act now later ∧ (∀ j ≠ .closer n, later.1 j = now.1 j) ∧
      later.1 (.closer n) = .ret () := by
  obtain ⟨later, hlater, -, hothers, hend⟩ := finishes (i := .closer n)
    (fun now => (.closer n, ⟨.onceDo, true⟩) ∈ now.2.log)
    (fun _ hs _ ha => by rw [log_of_act ha]; exact List.mem_append_left _ hs)
    closer_not_waits h hn
  refine ⟨later, hlater, hothers, ?_⟩
  have hsafe : (later.1 (.closer n)).Ensures fun _ => True :=
    Threads.ensures_of_reachable (h.trans hlater) ensures_close
  exact (hend.resolve_right fun hfault => by simp [hfault] at hsafe).1

/-- A handler that was started can run to its end. -/
theorem handler_finishes (h : life.Reaches now) {conn : Conn}
    (hconn : conn ∈ Server.started now.2.base.log) :
    ∃ later, Threads.Reachable act now later ∧ (∀ j ≠ .handler conn, later.1 j = now.1 j) ∧
      later.1 (.handler conn) = .ret () ∧ .handler conn ∉ openTasks later.2.log := by
  obtain ⟨later, hlater, -, hothers, hend⟩ := finishes (i := .handler conn)
    (fun now => conn ∈ Server.started now.2.base.log)
    (fun _ hs _ ha => (started_of_act ha).mpr (.inl hs)) handler_not_waits h hconn
  have hsafe : (later.1 (.handler conn)).Ensures fun _ => True :=
    Threads.ensures_of_reachable (h.trans hlater) (ensures_handler conn)
  obtain ⟨hret, hops⟩ := hend.resolve_right fun hfault => by simp [hfault] at hsafe
  have hdone : .wgDone (.handler conn) ∈ ops (Threads.own later.2.log (.handler conn)) := by
    rw [show ops _ = _ from hops]
    simp [handlerOps]
  exact ⟨later, hlater, hothers, hret, notMem_openTasks hdone⟩

/-- What a loop needs to come to its end: its listener is closed, and it is in time. -/
structure LoopEnding (ln : Fin life.listeners) (now : (life.ι → life.Proc Unit) × life.State) :
    Prop where
  ready : now.2.base.conns.done ∧ (ln = 0 ∨ ln ∈ now.2.loops)
  closed : (ln : Nat) ∈ now.2.base.closedListeners
  inTime : (now.1 (.acceptLoop ln)).wp life.endsInTime
    (accepts (Threads.own now.2.log (.acceptLoop ln))) fun _ _ => True

/-- One operation of a loop that is to end. -/
theorem LoopEnding.step {ln : Fin life.listeners} {ps : life.ι → life.Proc Unit} {s s' : life.State}
    {o : Op life.listeners} {k : Res o → life.Proc Unit} {r : Res o} (hreach : life.Reaches (ps, s))
    (h : LoopEnding ln (ps, s)) (hp : ps (.acceptLoop ln) = .step o k)
    (ha : act (.acceptLoop ln) s o r s') :
    LoopEnding ln (Function.update ps (.acceptLoop ln) (k r), s') where
  ready := ⟨done_of_act ha (.inl h.ready.1), h.ready.2.imp_right (loops_stay ha)⟩
  closed := (mem_closed_of_act ha).mpr (.inl h.closed)
  inTime := by
    have hpermits := ok_of_step ((live_of_reaches hreach).2 (.acceptLoop ln)) hp
    have hwp := h.inTime
    simp only [hp] at hwp
    simp only [own_log_of_act ha, if_true, accepts_concat, Function.update_self]
    exact hwp.2 r _ ⟨rfl, fun _ => findsEnd_of_act h.closed hpermits ha⟩

/-- When `Close` waits, an accept loop that is followed for another round can run to its end. -/
theorem loop_finishes (h : life.Reaches now) (hw : now.2.waiting) {ln : Fin life.listeners}
    (hln : ln = 0 ∨ ln ∈ now.2.loops)
    (hlt : accepts (Threads.own now.2.log (.acceptLoop ln)) < life.rounds) :
    ∃ later, Threads.Reachable act now later ∧ (∀ j ≠ .acceptLoop ln, later.1 j = now.1 j) ∧
      later.1 (.acceptLoop ln) = .ret () ∧ .acceptLoop ln ∉ openTasks later.2.log := by
  obtain ⟨later, hlater, hlast, hothers, hend⟩ := finishes (i := .acceptLoop ln) (LoopEnding ln)
    (fun hreach hs hp ha => hs.step hreach hp ha) (fun hs => loop_not_waits hs.ready) h
    ⟨⟨(live_of_reaches h).1.2.waiting_done hw, hln⟩,
      (reported_of_reaches h).1.2.1.waiting hw ln ln.isLt, inTime_of_reaches h hlt⟩
  -- a loop in time does not fail
  obtain ⟨hret, hpost⟩ := hend.resolve_right fun hfault => by
    have hwp := hlast.inTime
    rw [hfault] at hwp
    exact hwp
  exact ⟨later, hlater, hothers, hret, notMem_openTasks hpost⟩

end Finish

/-- Shutdown does not hang on the server itself. -/
theorem shutdown_finishes {now : (life.ι → life.Proc Unit) × life.State} (h : life.Reaches now) :
    -- the call that got `closeOnce` returns, whatever the goroutines do
    (∀ n, (.closer n, ⟨.onceDo, true⟩) ∈ now.2.log → ∃ later, Threads.Reachable act now later ∧
      (∀ j ≠ .closer n, later.1 j = now.1 j) ∧ later.1 (.closer n) = .ret ()) ∧
    -- when it waits for them, each of them ends by itself and leaves the wait group
    (now.2.waiting →
      (∀ conn ∈ Server.started now.2.base.log, ∃ later, Threads.Reachable act now later ∧
        (∀ j ≠ .handler conn, later.1 j = now.1 j) ∧
        later.1 (.handler conn) = .ret () ∧ .handler conn ∉ openTasks later.2.log) ∧
      ∀ ln, ln = 0 ∨ ln ∈ now.2.loops →
        -- the loop is followed for one more round at least
        accepts (Threads.own now.2.log (.acceptLoop ln)) < life.rounds →
        ∃ later, Threads.Reachable act now later ∧ (∀ j ≠ .acceptLoop ln, later.1 j = now.1 j) ∧
          later.1 (.acceptLoop ln) = .ret () ∧ .acceptLoop ln ∉ openTasks later.2.log) :=
  ⟨fun _ hn => closer_finishes h hn, fun hw => ⟨fun _ hconn => handler_finishes h hconn,
    fun _ hln hlt => loop_finishes h hw hln hlt⟩⟩

/-- `Close` waits for a handler and for the accept loop. -/
theorem shutdown_finishes_solo : ∃ now, solo.Reaches now ∧ now.2.waiting ∧
    (.closer 0, ⟨.onceDo, true⟩) ∈ now.2.log ∧ ⟨0, 0⟩ ∈ Server.started now.2.base.log ∧
    (∃ later, Threads.Reachable act now later ∧ later.1 (.closer 0) = .ret ()) ∧
    (∃ later, Threads.Reachable act now later ∧ later.1 (.handler ⟨0, 0⟩) = .ret () ∧
      .handler ⟨0, 0⟩ ∉ openTasks later.2.log) ∧
    ∃ later, Threads.Reachable act now later ∧ later.1 (.acceptLoop 0) = .ret () ∧
      .acceptLoop 0 ∉ openTasks later.2.log := by
  obtain ⟨ps, s, h⟩ := exists_soloWaiting
  obtain ⟨hcloser, hrest⟩ := shutdown_finishes h.reaches
  obtain ⟨hhandlers, hloops⟩ := hrest h.waiting
  have hround : accepts (Threads.own s.log (.acceptLoop 0)) < solo.rounds := by
    rw [h.accepts]
    decide
  obtain ⟨last, hlast, -, hreturns⟩ := hcloser 0 h.called
  obtain ⟨later, hlater, -, hhandler⟩ := hhandlers ⟨0, 0⟩ h.started
  obtain ⟨ended, hend, -, hloop⟩ := hloops 0 (.inl rfl) hround
  exact ⟨(ps, s), h.reaches, h.waiting, h.called, h.started, ⟨last, hlast, hreturns⟩,
    ⟨later, hlater, hhandler⟩, ended, hend, hloop⟩

end Lifecycle

end Outway.Serverbase
