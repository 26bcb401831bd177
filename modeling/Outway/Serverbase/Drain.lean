import Outway.Serverbase.WaitGroup

/-!
# Outway.Serverbase.Drain

When `Close` returns and does not report the handlers, the server is drained: every handler
it ever started has ended, and from then on no connection is accepted and no handler
started, also by accept loops that `Start` starts after `Close` has overtaken it.

`Wait` ends at a moment when the counter is zero.  The listeners are closed by then, so
the accept loops have nothing in hand and get nothing any more; that state (`Quiet`) is
kept by every step.  All calls of `Close` return what the first one has found.
-/

namespace Outway.Serverbase.Lifecycle

open Prog

variable {life : Lifecycle}

/-! ## Closing -/

/-- The server shuts down, as its accept loops can see. -/
def Ending (s : life.State) : Prop := s.base.conns.done ∨ s.base.closedListeners.Nonempty

/-- What has happened before `Close` waits, and before a loop ends. -/
structure Closed (s : life.State) : Prop where
  ending : Ending s → s.once ≠ .fresh
  tells : ∀ i, ∀ e ∈ baseEvents (Threads.own s.log i), tellsEnd e → s.once ≠ .fresh
  closed : ∀ i ln, .base (.closeListener ln) ∈ ops (Threads.own s.log i) →
    ln ∈ s.base.closedListeners
  waiting : s.waiting → ∀ ln < life.listeners, ln ∈ s.base.closedListeners
  waiter : Threads.own s.log .waiter ≠ [] → s.waiting

/-- Nothing is closed yet. -/
theorem closed_init : Closed life.init where
  ending h := by simp [Ending, init, Server.init, newConnectionSet] at h
  tells _ _ h := absurd h List.not_mem_nil
  closed _ _ h := absurd h List.not_mem_nil
  waiting h := absurd h Bool.false_ne_true
  waiter h := absurd rfl h

section Step

variable {i : life.ι} {s s' : life.State} {o : Op life.listeners} {r : Res o}

/-- What a step of the accept model does to what ends the loops, and what they see of it. -/
theorem done_of_base {server : Server} {b : server.ι} {s s' : server.State} {bo : Serverbase.Op}
    {br : Serverbase.Res bo} (ha : Server.act b s bo br s') :
    (s'.conns.done → s.conns.done ∨ bo = .closeDone) ∧
    (∀ ln, ln ∈ s'.closedListeners ↔ ln ∈ s.closedListeners ∨ bo = .closeListener ln) ∧
    (tellsEnd ⟨bo, br⟩ → s.conns.done ∨ s.closedListeners.Nonempty) := by
  obtain ⟨t, ht, rfl⟩ := ha
  have hadd (conn : Conn) : (s.conns.add conn).2.done = s.conns.done := by
    simp only [ConnectionSet.add]
    split_ifs <;> rfl
  cases bo <;> simp only [Server.effect] at ht <;> simp only [tellsEnd] <;>
    grind [ConnectionSet.remove, ConnectionSet.setConns, ConnectionSet.closeShard, Finset.Nonempty]

/-- A listener is closed by its operation, and stays so. -/
theorem mem_closed_of_act (ha : act i s o r s') {ln : Nat} :
    ln ∈ s'.base.closedListeners ↔ ln ∈ s.base.closedListeners ∨ o = .base (.closeListener ln) := by
  obtain ⟨bo, br, b, rfl, -, -, hact⟩ | ⟨he, hbase⟩ := base_of_act ha
  · rw [(done_of_base hact).2.1]
    simp
  · rw [hbase]
    cases o <;> simp_all [baseEvent]

/-- The end begins with `closeDone` or with a listener. -/
theorem ending_of_act (ha : act i s o r s') (h : Ending s') :
    Ending s ∨ o = .base .closeDone ∨ ∃ ln, o = .base (.closeListener ln) := by
  obtain ⟨bo, br, b, rfl, -, -, hact⟩ | ⟨he, hbase⟩ := base_of_act ha
  · obtain ⟨hdone, hclosed, -⟩ := done_of_base hact
    obtain h | ⟨ln, hln⟩ := h
    · exact (hdone h).imp .inl fun h => .inl (by rw [h])
    · obtain h | h := (hclosed ln).mp hln
      · exact .inl (.inr ⟨ln, h⟩)
      · exact .inr (.inr ⟨ln, by rw [h]⟩)
  · rw [Ending, hbase] at h
    exact .inl h

/-- Only `Close` shuts the server down. -/
theorem once_of_permits {es : List life.Event}
    (ho : o = .base .closeDone ∨ ∃ ln, o = .base (.closeListener ln))
    (hp : Lifecycle.permits i es o) : ∃ n, i = .closer n ∧ ⟨.onceDo, true⟩ ∈ es := by
  obtain ⟨n, rfl⟩ : ∃ n, i = .closer n := by
    have := belongs_of_permits hp
    obtain rfl | ⟨ln, rfl⟩ := ho <;> exact this
  refine ⟨n, rfl, ?_⟩
  obtain rfl | ⟨ln, rfl⟩ := ho <;> exact hp.1

/-- `closeOnce` is not used again. -/
theorem once_ne_fresh_of_act (ha : act i s o r s') (h : s.once ≠ .fresh) : s'.once ≠ .fresh := by
  obtain ⟨t, ht, rfl⟩ := ha
  cases o <;> simp only [effect] at ht <;> grind

/-- The waiter is started once, before it begins. -/
theorem waiting_of_act (ha : act i s o r s') :
    (s.waiting → s'.waiting) ∧ (s'.waiting → s.waiting ∨ o = .goWait) ∧
      (o = .beginWait → s.waiting) := by
  obtain ⟨t, ht, rfl⟩ := ha
  cases o <;> simp only [effect] at ht <;> grind

/-- A call that went through `closeOnce` has used it. -/
theorem Linked.once_ne_fresh (h : Linked s) {n : Nat}
    (hn : ⟨.onceDo, true⟩ ∈ Threads.own s.log (.closer n)) : s.once ≠ .fresh := by
  intro hfresh
  have := h.once_eq n (Threads.mem_own.mp hn)
  simp [hfresh, Once.owner] at this

theorem Closed.step (hl : Linked s) (h : Closed s)
    (hp : Lifecycle.permits i (Threads.own s.log i) o) (ha : act i s o r s') : Closed s' := by
  obtain ⟨hstays, hwaiting, hbegin⟩ := waiting_of_act ha
  have hclosed {ln : Nat} (hln : ln ∈ s.base.closedListeners) : ln ∈ s'.base.closedListeners :=
    (mem_closed_of_act ha).mpr (.inl hln)
  refine ⟨fun hending => ?_, fun j e he htells => ?_, fun j ln hmem => ?_, fun hw ln hln => ?_,
    fun hne => ?_⟩
  · obtain hending | ho := ending_of_act ha hending
    · exact once_ne_fresh_of_act ha (h.ending hending)
    · obtain ⟨n, rfl, honce⟩ := once_of_permits ho hp
      exact once_ne_fresh_of_act ha (hl.once_ne_fresh honce)
  · rw [own_log_of_act ha] at he
    split_ifs at he with hj
    · rw [baseEvents_concat, List.mem_append] at he
      obtain he | he := he
      · exact once_ne_fresh_of_act ha (h.tells _ e he htells)
      · obtain ⟨bo, br, b, rfl, hbe, -, hact⟩ | ⟨hbe, -⟩ := base_of_act ha
        · obtain rfl : e = ⟨bo, br⟩ := by simpa [hbe, eq_comm] using he
          exact once_ne_fresh_of_act ha (h.ending ((done_of_base hact).2.2 htells))
        · simp [hbe] at he
    · exact once_ne_fresh_of_act ha (h.tells _ e he htells)
  · rw [own_log_of_act ha] at hmem
    split_ifs at hmem with hj
    · rw [ops_concat, List.mem_append, List.mem_singleton] at hmem
      exact (mem_closed_of_act ha).mpr (hmem.imp (h.closed _ ln) Eq.symm)
    · exact hclosed (h.closed _ ln hmem)
  · obtain hw | rfl := hwaiting hw
    · exact hclosed (h.waiting hw ln hln)
    · obtain ⟨n, rfl⟩ : ∃ n, i = .closer n := belongs_of_permits hp
      exact hclosed (h.closed _ ln (hp.2 ln hln))
  · rw [own_log_of_act ha] at hne
    split_ifs at hne with hj
    · subst hj
      by_cases hnil : Threads.own s.log .waiter = []
      · refine hstays (hbegin ?_)
        rw [hnil] at hp
        cases o with
        | beginWait => rfl
        | _ => simp [Lifecycle.permits, waiterPermits, ops] at hp
      · exact hstays (h.waiter hnil)
    · exact hstays (h.waiter hne)

end Step

/-! ## Quiet -/

/-- An accept loop with nothing in hand. -/
structure Idle (es : List life.Event) : Prop where
  reserved : Lifecycle.reserved es = false
  pending : Serverbase.pending (baseEvents es) = .idle

/-- An idle loop accepts, from its own listener, or does nothing that the accept model sees. -/
theorem Idle.next {ln : Fin life.listeners} {es : List life.Event} (h : Idle es)
    {o : Op life.listeners} (hp : listenerPermits ln es o) :
    o = .base (.accept ln) ∨ ∀ r : Res o, baseEvent ⟨o, r⟩ = none ∧ Idle (es ++ [⟨o, r⟩]) := by
  have hquiet (ho : ∀ r : Res o, baseEvent ⟨o, r⟩ = none ∧ reserve false ⟨o, r⟩ = false)
    (r : Res o) :
      baseEvent ⟨o, r⟩ = none ∧ Idle (es ++ [⟨o, r⟩]) :=
    ⟨(ho r).1, by simp [h.reserved, (ho r).2], by simp [h.pending, (ho r).1]⟩
  obtain hscript | ⟨-, hloop⟩ := hp
  · have hprep := preparing_of_scripted hscript
    refine .inr (hquiet fun r => ?_)
    rcases o with _ | ⟨_ | _⟩ | _
    all_goals first | exact False.elim hprep | exact ⟨rfl, rfl⟩
  · cases o with
    | base bo =>
        cases bo with
        | accept l => exact .inl (by rw [hloop.2.2 l rfl])
        | go conn =>
            have := h.pending.symm.trans hloop.2
            simp [Pending.idle] at this
        | _ =>
            have := hloop.2.1
            simp [Serverbase.loopPermits, h.pending, Pending.Allows, Pending.idle] at this
    | wgAdd t =>
        cases t with
        | handler conn =>
            have := h.pending.symm.trans hloop.2
            simp [Pending.idle] at this
        | acceptLoop l => exact False.elim hloop
    | wgDone t => exact .inr (hquiet fun r => ⟨rfl, rfl⟩)
    | _ => exact False.elim hloop

/-- How far the thread of a listener is: before its loop, in it, or after it, with nothing in
hand. -/
def Stage (ln : Fin life.listeners) (es : List life.Event) : Prop :=
  ops es <+: life.prologue ln ∨ Looping ln es ∨ .wgDone (.acceptLoop ln) ∈ ops es ∧ Idle es

/-- A loop's entries are those of its beginning, its rounds or its end. -/
theorem stage_concat {ln : Fin life.listeners} {es : List life.Event} {o : Op life.listeners}
    (hp : listenerPermits ln es o) (r : Res o) : Stage ln (es ++ [⟨o, r⟩]) := by
  obtain hscript | ⟨hlooping, hloop⟩ := hp
  · refine .inl ?_
    rw [ops_concat]
    exact hscript
  · by_cases ho : o = .wgDone (.acceptLoop ln)
    · subst ho
      obtain ⟨-, hreserved, hidle, -⟩ := hloop
      exact .inr (.inr ⟨by simp, by simpa [reserve] using hreserved,
        by simpa [baseEvent] using hidle⟩)
    · exact .inr (.inl (hlooping.concat ho))

/-- Before its rounds a loop has nothing in hand. -/
theorem idle_of_prologue {ln : Fin life.listeners} {es : List life.Event}
    (h : ops es <+: life.prologue ln) : Idle es := by
  obtain ⟨hreserved, hbase⟩ := quiet_of_preparing fun o ho => preparing_of_mem (h.subset ho)
  exact ⟨hreserved, by rw [hbase]; rfl⟩

/-- Nothing is left of the server's work, and none will come. -/
structure Quiet (s : life.State) : Prop where
  closed : ∀ ln < life.listeners, ln ∈ s.base.closedListeners
  idle : ∀ ln, Idle (Threads.own s.log (.acceptLoop ln))
  handlers : ∀ conn ∈ Server.started s.base.log, .handler conn ∈ finished s.log

section Step

variable {i : life.ι} {s s' : life.State} {o : Op life.listeners} {r : Res o}

/-- A quiet server accepts no connection and starts no handler. -/
theorem Quiet.refuses (h : Quiet s) (hp : Lifecycle.permits i (Threads.own s.log i) o)
    (ha : act i s o r s') :
    (∀ ln conn, (⟨o, r⟩ : life.Event) ≠ ⟨.base (.accept ln), .ok conn⟩) ∧
      ∀ conn, o ≠ .base (.go conn) := by
  refine ⟨fun l conn heq => ?_, fun conn ho => ?_⟩
  · obtain ⟨rfl, hr⟩ := Sigma.mk.inj heq
    obtain rfl := eq_of_heq hr
    obtain ⟨ln, rfl⟩ : ∃ ln, i = .acceptLoop ln := belongs_of_permits hp
    obtain ho | hnone := (h.idle ln).next hp
    · obtain ⟨t, ⟨b, base, -, ⟨t', ht', -⟩, -⟩, -⟩ := ha
      obtain rfl : l = ln := by simpa using ho
      exact ht'.1 (h.closed ln ln.isLt)
    · simpa [baseEvent] using (hnone (.ok conn)).1
  · subst ho
    obtain ⟨ln, rfl⟩ : ∃ ln, i = .acceptLoop ln := belongs_of_permits hp
    obtain ho | hnone := (h.idle ln).next hp
    · simp at ho
    · simpa [baseEvent] using (hnone r).1

/-- When nothing is left, no operation brings new work. -/
theorem Quiet.step (h : Quiet s) (hp : Lifecycle.permits i (Threads.own s.log i) o)
    (ha : act i s o r s') : Quiet s' := by
  obtain ⟨haccept, hgo⟩ := h.refuses hp ha
  refine ⟨fun ln hln => (mem_closed_of_act ha).mpr (.inl (h.closed ln hln)), fun ln => ?_,
    fun conn hconn => ?_⟩
  · rw [own_log_of_act ha]
    split_ifs with hi
    · subst hi
      obtain rfl | hnone := (h.idle ln).next hp
      · cases r with
        | ok conn => exact absurd rfl (haccept ln conn)
        | error err =>
            exact ⟨by simp [reserve, (h.idle ln).reserved],
              by simp [baseEvent, Pending.next, (h.idle ln).pending]⟩
      · exact (hnone r).2
    · exact h.idle ln
  · have hconn := ((started_of_act ha).mp hconn).resolve_right (hgo conn)
    exact (mem_finished_of_act ha).mpr (.inl (h.handlers conn hconn))

/-- When `Wait` finds the counter at zero, the server is quiet. -/
theorem quiet_of_zero (hc : Counted s) (hzero : s.wg = 0)
    (hclosed : ∀ ln < life.listeners, ln ∈ s.base.closedListeners)
    (hstage : ∀ ln, Stage ln (Threads.own s.log (.acceptLoop ln))) : Quiet s where
  closed := hclosed
  idle ln := by
    obtain hbefore | hlooping | ⟨-, hidle⟩ := hstage ln
    · exact idle_of_prologue hbefore
    · have := hc.wg_pos (hc.looping_added hlooping) (hc.notMem_finished hlooping.not_done)
      omega
    · exact hidle
  handlers conn hconn := hc.mem_finished hzero (hc.started_added conn hconn)

end Step

/-! ## What `Close` reports -/

/-- `Wait` has returned. -/
def WaitEnded (log : List (life.ι × life.Event)) : Prop :=
  (.waiter, ⟨.wgWait, true⟩) ∈ log ∨ (.waiter, ⟨.wgWake, true⟩) ∈ log

structure Reported (s : life.State) : Prop where
  stage : ∀ ln, Stage ln (Threads.own s.log (.acceptLoop ln))
  quiet : WaitEnded s.log → Quiet s
  waited : s.waited → WaitEnded s.log
  selected : ∀ i, ⟨.selectWaited, true⟩ ∈ Threads.own s.log i → s.waited
  set : ∀ n err, s.once = .finished n err → .setCloseErr err ∈ ops (Threads.own s.log (.closer n))
  drained : ∀ n err, s.once = .finished n err → err.handlers = false → s.waited
  returned : ∀ i err, ⟨.closeErr, err⟩ ∈ Threads.own s.log i → ∃ n, s.once = .finished n err

/-- No call has returned. -/
theorem reported_init : Reported life.init where
  stage _ := .inl List.nil_prefix
  quiet h := by simp [WaitEnded, init] at h
  waited h := absurd h Bool.false_ne_true
  selected _ h := absurd h List.not_mem_nil
  set _ _ h := by simp [init] at h
  drained _ _ h := by simp [init] at h
  returned _ _ h := absurd h List.not_mem_nil

section Step

variable {i : life.ι} {s s' : life.State} {o : Op life.listeners} {r : Res o}

/-- `closeErr` is written by the call inside `closeOnce`, and read behind it. -/
theorem once_of_act (ha : act i s o r s') :
    (∀ n err, s'.once = .finished n err → s.once = .finished n err ∨
      i = .closer n ∧ o = .setCloseErr err) ∧
    (∀ n err, s.once = .finished n err → s'.once = .finished n err ∨ ∃ err',
      o = .setCloseErr err') ∧
    ∀ err, (⟨o, r⟩ : life.Event) = ⟨.closeErr, err⟩ →
      (∃ n, s.once = .finished n err) ∧ s'.once = s.once := by
  obtain ⟨t, ht, rfl⟩ := ha
  cases o <;> simp only [effect] at ht <;> grind

/-- The waiter tells that it is done once, and not too early. -/
theorem waited_of_act (ha : act i s o r s') :
    (s.waited → s'.waited) ∧ (s'.waited → s.waited ∨ o = .closeWaited) ∧
      ((⟨o, r⟩ : life.Event) = ⟨.selectWaited, true⟩ → s.waited) := by
  obtain ⟨t, ht, rfl⟩ := ha
  cases o <;> simp only [effect] at ht <;> grind

/-- `Wait` returns at zero. -/
theorem zero_of_act (ha : act i s o r s')
    (he : (⟨o, r⟩ : life.Event) = ⟨.wgWait, true⟩ ∨ (⟨o, r⟩ : life.Event) = ⟨.wgWake, true⟩) :
    s.wg = 0 := by
  obtain ⟨t, ht, rfl⟩ := ha
  cases o <;> simp only [effect] at ht <;> grind

/-- The call that got `closeOnce` leaves its error once. -/
theorem Reported.finished_stays (hl : Linked s) (h : Reported s)
    (hp : Lifecycle.permits i (Threads.own s.log i) o) (ha : act i s o r s') {n : Nat}
    {err : CloseErr} (hn : s.once = .finished n err) : s'.once = .finished n err := by
  obtain hsame | ⟨err', rfl⟩ := (once_of_act ha).2.1 n err hn
  · exact hsame
  · obtain ⟨m, rfl⟩ : ∃ m, i = .closer m := belongs_of_permits hp
    obtain ⟨honce, hunset, -⟩ := hp
    have howner := hl.once_eq m (Threads.mem_own.mp honce)
    obtain rfl : n = m := by simpa [hn, Once.owner] using howner
    exact absurd (h.set n err hn) (hunset err)

theorem Reported.step (hc : Counted s) (hclosed : Closed s) (h : Reported s)
    (hp : Lifecycle.permits i (Threads.own s.log i) o) (ha : act i s o r s') : Reported s' := by
  obtain ⟨hset, -, hreturned⟩ := once_of_act ha
  obtain ⟨hstays, hwaited, hselected⟩ := waited_of_act ha
  have hlog := log_of_act ha
  have hended (hw : WaitEnded s.log) : WaitEnded s'.log := by
    rw [hlog]
    exact hw.imp (List.mem_append_left _) (List.mem_append_left _)
  refine ⟨fun ln => ?_, fun hw => ?_, fun hw => ?_, fun j hj => ?_, fun n err hn => ?_,
    fun n err hn herr => ?_, fun j err hj => ?_⟩
  · rw [own_log_of_act ha]
    split_ifs with hi
    · subst hi
      exact stage_concat hp r
    · exact h.stage ln
  · by_cases hbefore : WaitEnded s.log
    · exact (h.quiet hbefore).step hp ha
    · -- the wait ends here
      have he : (⟨o, r⟩ : life.Event) = ⟨.wgWait, true⟩ ∨
        (⟨o, r⟩ : life.Event) = ⟨.wgWake, true⟩ := by
        simp only [WaitEnded, hlog, List.mem_append, List.mem_singleton,
          Prod.mk.injEq] at hw hbefore
        grind
      have hzero := zero_of_act ha he
      have hbegun : Threads.own s.log .waiter ≠ [] := by
        obtain he | he := he
        · obtain ⟨rfl, -⟩ := Sigma.mk.inj he
          obtain rfl : i = .waiter := belongs_of_permits hp
          exact fun hnil => by simp [Lifecycle.permits, waiterPermits, hnil, ops] at hp
        · obtain ⟨rfl, -⟩ := Sigma.mk.inj he
          obtain rfl : i = .waiter := belongs_of_permits hp
          exact fun hnil => by simp [Lifecycle.permits, waiterPermits, hnil] at hp
      exact (quiet_of_zero hc hzero (hclosed.waiting (hclosed.waiter hbegun)) h.stage).step hp ha
  · obtain hw | rfl := hwaited hw
    · exact hended (h.waited hw)
    · obtain rfl : i = .waiter := belongs_of_permits hp
      exact hended (hp.imp Threads.mem_own.mp Threads.mem_own.mp)
  · rw [own_log_of_act ha] at hj
    split_ifs at hj with hi
    · obtain hj | hj := List.mem_append.mp hj
      · exact hstays (h.selected _ hj)
      · exact hstays (hselected (List.mem_singleton.mp hj).symm)
    · exact hstays (h.selected _ hj)
  · obtain hn | ⟨rfl, rfl⟩ := hset n err hn
    · exact ops_own_subset ha _ (h.set n err hn)
    · simp [own_log_of_act ha]
  · obtain hn | ⟨rfl, rfl⟩ := hset n err hn
    · exact hstays (h.drained n err hn herr)
    · exact hstays (h.selected _ (hp.2.2 herr))
  · rw [own_log_of_act ha] at hj
    split_ifs at hj with hi
    · obtain hj | hj := List.mem_append.mp hj
      · exact (h.returned _ err hj).imp fun n hn => h.finished_stays hc.linked hp ha hn
      · obtain ⟨hn, hsame⟩ := hreturned err (List.mem_singleton.mp hj).symm
        rw [hsame]
        exact hn
    · exact (h.returned _ err hj).imp fun n hn => h.finished_stays hc.linked hp ha hn

end Step

/-! ## `Close` -/

theorem reported_of_reaches {now : (life.ι → life.Proc Unit) × life.State} (h : life.Reaches now) :
    (Counted now.2 ∧ Closed now.2 ∧ Reported now.2) ∧
      ∀ i, (now.1 i).wp (Contract.logging (Lifecycle.permits i)) (Threads.own now.2.log i)
        fun _ es => post i es :=
  Threads.logged State.log log_of_act Lifecycle.permits post
    (fun s => Counted s ∧ Closed s ∧ Reported s)
    (fun h hp ha => ⟨h.1.step hp ha, h.2.1.step h.1.linked hp ha, h.2.2.step h.1 h.2.1 hp ha⟩) rfl
    ⟨counted_init, closed_init, reported_init⟩ wp_program h

/-- The connection an entry brings in. -/
def brings : life.Event → Option Conn
  | ⟨.base (.accept _), .ok conn⟩ => some conn
  | _ => none

/-- The connections that were accepted. -/
def accepted (log : List (life.ι × life.Event)) : List Conn := log.filterMap fun x => brings x.2

/-- After the end of the wait nothing is accepted and nothing started. -/
theorem unchanged_of_quiet {now later : (life.ι → life.Proc Unit) × life.State}
    (h : life.Reaches now) (hended : WaitEnded now.2.log)
    (hlater : Threads.Reachable act now later) :
    accepted later.2.log = accepted now.2.log ∧
      ∀ conn, conn ∈ Server.started later.2.base.log ↔ conn ∈ Server.started now.2.base.log := by
  induction hlater with
  | refl => exact ⟨rfl, fun _ => Iff.rfl⟩
  | tail hmid hstep ih =>
      obtain ⟨⟨hcounted, -, hreported⟩, hwp⟩ := reported_of_reaches (h.trans hmid)
      cases hstep with
      | @mk ps s s' i o k r hp ha =>
          have hpermits : Lifecycle.permits i (Threads.own s.log i) o := ok_of_step (hwp i) hp
          have hsub := (Threads.log_prefix State.log log_of_act hmid).subset
          have hquiet : Quiet s := hreported.quiet (hended.imp (@hsub _) (@hsub _))
          obtain ⟨haccept, hgo⟩ := hquiet.refuses hpermits ha
          have hnone : brings ⟨o, r⟩ = none := by
            unfold brings
            split
            · exact absurd ‹_› (haccept _ _)
            · rfl
          refine ⟨?_, fun conn => ?_⟩
          · rw [← ih.1, log_of_act ha, accepted, filterMap_concat, hnone]
            exact List.append_nil _
          · rw [started_of_act ha, or_iff_left (hgo conn)]
            exact ih.2 conn

/-- What `Close` leaves behind. -/
theorem close_drains {now : (life.ι → life.Proc Unit) × life.State} (h : life.Reaches now)
    {i : life.ι} {err : CloseErr} (hreturned : (i, ⟨.closeErr, err⟩) ∈ now.2.log) :
    -- every call returns the same
    (∀ j err', (j, ⟨.closeErr, err'⟩) ∈ now.2.log → err' = err) ∧
    (err.handlers = false →
      -- every handler that was ever started has run to its end
      (∀ conn ∈ Server.started now.2.base.log,
        ops (Threads.own now.2.log (.handler conn)) = life.handlerOps conn) ∧
      -- and none is started any more, nor a connection accepted
      ∀ later, Threads.Reachable act now later →
        accepted later.2.log = accepted now.2.log ∧
          ∀ conn, conn ∈ Server.started later.2.base.log ↔
            conn ∈ Server.started now.2.base.log) := by
  obtain ⟨⟨hcounted, -, hreported⟩, -⟩ := reported_of_reaches h
  obtain ⟨n, hn⟩ := hreported.returned i err (Threads.mem_own.mpr hreturned)
  refine ⟨fun j err' hj => ?_, fun herr => ?_⟩
  · obtain ⟨m, hm⟩ := hreported.returned j err' (Threads.mem_own.mpr hj)
    rw [hn] at hm
    exact (Once.finished.inj hm).2.symm
  · have hended := hreported.waited (hreported.drained n err hn herr)
    refine ⟨fun conn hconn => ?_, fun later hlater => unchanged_of_quiet h hended hlater⟩
    exact hcounted.ops_eq ((hreported.quiet hended).handlers conn hconn)

/-- The log goes on, with entries of one thread. -/
def Prolongs (i : life.ι) (log log' : List (life.ι × life.Event)) : Prop :=
  log <+: log' ∧ ∀ j ≠ i, Threads.own log' j = Threads.own log j

/-- One more entry of the same thread. -/
theorem Prolongs.concat {i : life.ι} {log log' : List (life.ι × life.Event)}
    (h : Prolongs i log log') (e : life.Event) : Prolongs i log (log' ++ [(i, e)]) := by
  refine ⟨h.1.trans (List.prefix_append _ _), fun j hj => ?_⟩
  rw [Threads.own_concat, Function.update_of_ne hj, h.2 j hj]

/-- A part of `Close` that gets through in the accept model gets through here. -/
theorem Reaches.exec_plain {α : Type} {p : Serverbase.Proc α} {f : α → life.Proc Unit} {n : Nat}
    {ps : life.ι → life.Proc Unit} {s : life.State} (h : life.Reaches (ps, s))
    (hps : ps (.closer n) = p.interp plain >>= f) {Q : life.server.State → Prop}
    (hlive : p.wp (Contract.live (Server.act .closer)) s.base fun _ base => Q base) :
    ∃ a base log, Q base ∧ Prolongs (.closer n) s.log log ∧
      life.Reaches (Function.update ps (.closer n) (f a), { s with base, log }) := by
  have hrun : (p.interp plain).wp (Contract.live (act (.closer n))) s fun _ s' => ∃ base, Q base ∧
      ∃ log, Prolongs (.closer n) s.log log ∧ s' = { s with base, log } := by
    refine wp_interp (fun base (s' : life.State) =>
      ∃ log, Prolongs (.closer n) s.log log ∧ s' = { s with base, log }) False.elim ?_ hlive
      ⟨s.log, ⟨List.prefix_rfl, fun _ _ => rfl⟩, rfl⟩
    rintro base _ o ⟨log, hlog, rfl⟩ ⟨r, base', hact⟩
    refine ⟨⟨r, _, _, ⟨_, _, rfl, hact, rfl⟩, rfl⟩, fun r s' ha => ?_⟩
    obtain ⟨t, ⟨b, base, hb, hact, rfl⟩, rfl⟩ := ha
    obtain rfl := Option.some.inj hb
    exact ⟨base, hact, _, hlog.concat _, rfl⟩
  obtain ⟨_, a, hexec, base, hQ, log, hlog, rfl⟩ := exists_exec hrun
  exact ⟨a, base, log, hQ, hlog, h.trans (Threads.Reachable.exec hps hexec)⟩

/-- What `Close` does with the error of its function. -/
def keepErr (err : CloseErr) : life.Proc Unit := do
  op (.setCloseErr err)
  let _ ← op .closeErr

/-- The function of `Close`, step by step. -/
theorem shutdown_bind (hudp : life.udp = true) :
    life.shutdown >>= keepErr = .step .cancel fun _ =>
      closeAll.interp plain >>= fun connectionErr =>
      (closeListeners (List.range life.listeners) []).interp plain >>= fun listenerErr =>
        .step .goWait fun _ => .step .selectWaited fun stopped =>
          .step .waitUdpWorkers fun workers =>
          keepErr ⟨connectionErr, listenerErr, !stopped, !workers⟩ := by
  simp [shutdown, waitGroupTimeout, op, hudp]

/-- `Close` waits for a handler that runs and for the accept loop, which has been through one
round. -/
structure SoloWaiting (ps : solo.ι → solo.Proc Unit) (s : solo.State) : Prop where
  reaches : solo.Reaches (ps, s)
  called : (.closer 0, ⟨.onceDo, true⟩) ∈ s.log
  closer : ∃ conns lns, ps (.closer 0) = .step .selectWaited fun stopped =>
    .step .waitUdpWorkers fun workers => keepErr ⟨conns, lns, !stopped, !workers⟩
  waiter : ps .waiter = solo.waiter
  handler : ps (.handler ⟨0, 0⟩) = solo.handler ⟨0, 0⟩
  loop : ∃ next, ps (.acceptLoop 0) = .step (.base (.accept 0)) next ∧
    ∃ last, next (.error .errClosed) = .step (.wgDone (.acceptLoop 0)) last
  started : ⟨0, 0⟩ ∈ Server.started s.base.log
  tokens : s.base.tokens = 1
  closed : 0 ∈ s.base.closedListeners
  wg : s.wg = 2
  waiting : s.waiting = true
  accepts : accepts (Threads.own s.log (.acceptLoop 0)) = 1

/-- There is such a state. -/
theorem exists_soloWaiting : ∃ ps s, SoloWaiting ps s := by
  have h : solo.Reaches (solo.program, solo.init) := .refl
  have h := h.step (i := .acceptLoop 0) rfl () ⟨_, rfl, rfl⟩
  have h := h.stepBase (i := .acceptLoop 0) rfl (.ok ⟨0, 0⟩) rfl
    ⟨Finset.notMem_empty _, by simp [init, Server.init], rfl⟩
  have h := h.stepBase (i := .acceptLoop 0) rfl true rfl ⟨rfl, rfl⟩
  have h := h.stepBase (i := .acceptLoop 0) rfl false rfl ⟨rfl, rfl⟩
  have h := h.stepBase (i := .acceptLoop 0) rfl true rfl ⟨rfl, rfl⟩
  have h := h.step (i := .acceptLoop 0) rfl () ⟨_, rfl, rfl⟩
  have h := h.stepBase (i := .acceptLoop 0) rfl () rfl rfl
  -- `Close`
  have h := h.step (i := .closer 0) rfl true ⟨_, ⟨rfl, 0, rfl, rfl⟩, rfl⟩
  have h := h.step (i := .closer 0) (shutdown_bind rfl) () ⟨_, rfl, rfl⟩
  obtain ⟨conns, base, log, hsame, hlog, h⟩ := h.exec_plain (n := 0) rfl (Server.live_closeAll _)
  have h := h.stepBase (i := .closer 0) rfl none rfl rfl
  have h := h.step (i := .closer 0) rfl () ⟨_, rfl, rfl⟩
  have hstarted : ⟨0, 0⟩ ∈ Server.started base.log :=
    (hsame.log.filterMap _).subset (List.mem_singleton_self _)
  have hcalled : (.closer 0, ⟨.onceDo, true⟩) ∈ log := hlog.1.subset (by simp)
  refine ⟨_, _, h, List.mem_append_left _ (List.mem_append_left _ hcalled), ⟨conns, _, rfl⟩,
    rfl, rfl, ⟨_, rfl, _, rfl⟩, Server.started_subset_concat base.log _ hstarted, hsame.tokens,
    Finset.mem_insert_self _ _, rfl, rfl, ?_⟩
  simp only [Threads.own_concat, ne_eq, reduceCtorEq, not_false_eq_true, Function.update_of_ne]
  rw [hlog.2 _ (by simp)]
  rfl

/-- The handler and the accept loop end, and `Close` returns without an error of them. -/
theorem SoloWaiting.returns {ps : solo.ι → solo.Proc Unit} {s : solo.State} (h : SoloWaiting ps s) :
    ∃ now err, solo.Reaches now ∧ (.closer 0, ⟨.closeErr, err⟩) ∈ now.2.log ∧
      err.handlers = false ∧ ⟨0, 0⟩ ∈ Server.started now.2.base.log := by
  obtain ⟨reaches, -, ⟨conns, lns, hcloser⟩, hwaiter, hhandler, ⟨next, hloop, last, hlast⟩,
    hstarted, htokens, hclosed, hwg, hwaiting, -⟩ := h
  have htoken : 0 < s.base.tokens := by omega
  have htwo : 0 < s.wg := by omega
  have hone : 0 < s.wg - 1 := by omega
  have hzero : s.wg - 1 - 1 = 0 := by omega
  have h := reaches.stepBase (i := .handler ⟨0, 0⟩) hhandler () rfl ⟨hstarted, rfl⟩
  have h := h.stepBase (i := .handler ⟨0, 0⟩) rfl () rfl rfl
  have h := h.stepBase (i := .handler ⟨0, 0⟩) rfl () rfl ⟨htoken, rfl⟩
  have h := h.step (i := .handler ⟨0, 0⟩) rfl () ⟨_, ⟨htwo, rfl⟩, rfl⟩
  have h := h.stepBase (i := .acceptLoop 0) hloop (.error .errClosed) rfl
    ⟨iff_of_true rfl hclosed, rfl⟩
  have h := h.step (i := .acceptLoop 0) hlast () ⟨_, ⟨hone, rfl⟩, rfl⟩
  have h := h.step (i := .waiter) hwaiter () ⟨_, ⟨hwaiting, rfl⟩, rfl⟩
  have h := h.step (i := .waiter) rfl true ⟨_, ⟨hzero, rfl⟩, rfl⟩
  have h := h.step (i := .waiter) rfl () ⟨_, rfl, rfl⟩
  have h := h.step (i := .closer 0) hcloser true ⟨_, ⟨fun _ => rfl, rfl⟩, rfl⟩
  have h := h.step (i := .closer 0) rfl true ⟨_, rfl, rfl⟩
  have h := h.step (i := .closer 0) rfl () ⟨_, ⟨0, rfl, rfl⟩, rfl⟩
  have h := h.step (i := .closer 0) rfl _ ⟨_, ⟨⟨0, rfl⟩, rfl⟩, rfl⟩
  refine ⟨_, _, h, List.mem_append_right _ (List.mem_singleton_self _), rfl, ?_⟩
  iterate 4 apply Server.started_subset_concat
  exact hstarted

/-- A connection was served when `Close` has returned. -/
theorem close_drains_solo : ∃ now err, solo.Reaches now ∧
    (.closer 0, ⟨.closeErr, err⟩) ∈ now.2.log ∧ err.handlers = false ∧
    ⟨0, 0⟩ ∈ Server.started now.2.base.log ∧
    ops (Threads.own now.2.log (.handler ⟨0, 0⟩)) = solo.handlerOps ⟨0, 0⟩ ∧
    ∀ later, Threads.Reachable act now later → accepted later.2.log = accepted now.2.log := by
  obtain ⟨ps, s, hwaiting⟩ := exists_soloWaiting
  obtain ⟨now, err, hreach, hreturned, herr, hstarted⟩ := hwaiting.returns
  obtain ⟨hserved, hlast⟩ := (close_drains hreach hreturned).2 herr
  exact ⟨now, err, hreach, hreturned, herr, hstarted, hserved _ hstarted,
    fun later hlater => (hlast later hlater).1⟩

end Outway.Serverbase.Lifecycle
