import Outway.Server.CopyBytes

/-!
# Outway.Server.CopyFinish

A call of `CopyBidirectionalContext` does not hang on its peers.

`copy_interrupts` says when a call interrupts its connections, and `copy_finishes` that it
can return from then on, even if the peers never answer again: a callback sets the
deadlines, the goroutine ends its copy and leaves the wait group, the caller does the rest.
-/

namespace Outway.Server.Copy

open Prog

variable {call : Call} {peers : Peers}

/-! ## What a thread waits for -/

/-- What an operation has to wait for. -/
def Waits (peers : Peers) (s : State) : Op → Prop
  | .begin => s.started = false
  | .read src => s.expired src = false ∧ peers.ready s.log src = false
  | .write dst _ => s.expired dst = false ∧ peers.room s.log dst = false
  | .wgWait => s.finished = false
  | .runCancel => ¬ (s.onCancel = .armed ∧ s.ctxDone = true)
  | .runTimer => s.timer ≠ .armed
  | .unfollowed => True
  | _ => False

/-- An operation that does not have to wait can be done. -/
theorem can_act (i : Thread) {s : State} {o : Op} (h : ¬ Waits peers s o) :
    ∃ r s', act peers i s o r s' := by
  have heffect : ∃ r t, effect peers s o r t := by
    cases o with
    | begin => exact ⟨(), s, by simpa [Waits] using h, rfl⟩
    | read src =>
        by_cases hexpired : s.expired src = true
        · by_cases hbuffered : peers.buffered s.log src = []
          · exact ⟨([], false), s, by simp [hexpired, hbuffered], rfl⟩
          · exact ⟨(peers.buffered s.log src, true), s, by simp [hexpired, hbuffered], rfl⟩
        · exact ⟨([], false), s, by simpa [Waits, hexpired] using h, rfl⟩
    | write dst bytes =>
        refine ⟨(0, false), s, ?_, rfl⟩
        by_cases hexpired : s.expired dst = true
        · simp [hexpired]
        · simpa [Waits, hexpired] using h
    | wgWait => exact ⟨(), s, by simpa [Waits] using h, rfl⟩
    | runCancel =>
        obtain ⟨harmed, hdone⟩ := not_not.mp h
        exact ⟨(), _, harmed, hdone, rfl⟩
    | runTimer => exact ⟨(), _, not_not.mp h, rfl⟩
    | unfollowed => exact absurd trivial h
    | compareAndSwap | loadTimer | loadN1 => exact ⟨_, _, rfl, rfl⟩
    | _ => exact ⟨(), _, rfl⟩
  obtain ⟨r, t, ht⟩ := heffect
  exact ⟨r, _, t, ht, rfl⟩

/-- A copy does not fault, however its reads and writes go. -/
theorem ensures_copyStream (src : Side) (rounds written : Nat) :
    (copyStream src rounds written).Ensures fun _ => True := by
  induction rounds generalizing written with
  | zero => simp [copyStream, op]
  | succ rounds ih =>
      simp only [copyStream, op, step_bind, ret_bind, ensures_step]
      intro got
      split_ifs
      · exact ih written
      · trivial
      · simp only [ensures_step]
        intro r
        split_ifs
        · exact ih _
        · trivial

theorem ensures_finishDirection (dst : Side) :
    (call.finishDirection dst).Ensures fun _ => True := by
  simp only [Call.finishDirection, op, step_bind, ret_bind, ensures_step]
  intro _ swapped
  split_ifs <;> simp

/-- No thread faults. -/
theorem ensures_program (i : Thread) : (call.program i).Ensures fun _ => True := by
  cases i with
  | caller =>
      simp only [Call.program, Call.caller, op, step_bind, ret_bind, ensures_step]
      intro _ _
      refine (ensures_copyStream .b call.rounds 0).bind fun n2 _ => ?_
      refine (ensures_finishDirection .a).bind fun _ _ => ?_
      simp [Call.leave, op]
  | copier =>
      simp only [Call.program, Call.copier, op, step_bind, ret_bind, ensures_step]
      intro _
      refine (ensures_copyStream .a call.rounds 0).bind fun n _ => ?_
      simp only [ensures_step]
      intro _
      refine (ensures_finishDirection .b).bind fun _ _ => ?_
      simp
  | _ => simp [Call.program, interrupt, op]

/-! ## One thread runs to its end -/

/-- A thread that does not wait in states of a kind can run to its end; the others stand still. -/
theorem runs {i : Thread} (P : State → Prop)
    (hstep : ∀ {s o r s'}, Kept call s → P s → (place call s.log i).Allows call.rounds i o →
      act peers i s o r s' → P s')
    (hwaits : ∀ {s o}, Kept call s → P s → (place call s.log i).Allows call.rounds i o →
      ¬ Waits peers s o)
    {now : (Thread → Proc Unit) × State} (h : Reaches peers call now) (hP : P now.2) :
    ∃ later, Threads.Reachable (act peers) now later ∧ P later.2 ∧
      (∀ j ≠ i, later.1 j = now.1 j ∧ place call later.2.log j = place call now.2.log j) ∧
      later.1 i = .ret () ∧ (place call later.2.log i).Ended i := by
  obtain ⟨later, hlater, ⟨hreach, hlaterP, hplaces⟩, hothers, hend⟩ := Threads.finishes (i := i)
    (fun at' => Reaches peers call at' ∧ P at'.2 ∧
      ∀ j ≠ i, place call at'.2.log j = place call now.2.log j)
    (fun {ps s o k r s'} ⟨hreach, hP, hplaces⟩ hp ha => by
      obtain ⟨hkept, hwp⟩ := kept_of_reaches hreach
      refine ⟨hreach.tail (.mk i o k r hp ha), hstep hkept hP (ok_of_step (hwp i) hp) ha, ?_⟩
      intro j hj
      rw [log_of_act ha, place_concat, Function.update_of_ne hj]
      exact hplaces j hj)
    (fun {ps s o k} ⟨hreach, hP, _⟩ hp => by
      obtain ⟨hkept, hwp⟩ := kept_of_reaches hreach
      exact can_act i (hwaits hkept hP (ok_of_step (hwp i) hp)))
    ⟨h, hP, fun _ _ => rfl⟩
  have hsafe : (later.1 i).Ensures fun _ => True :=
    Threads.ensures_of_reachable hreach (ensures_program i)
  have hret := hend.resolve_right fun hfault => by simp [hfault] at hsafe
  have hended := (kept_of_reaches hreach).2 i
  rw [hret] at hended
  exact ⟨later, hlater, hlaterP, fun j hj => ⟨hothers j hj, hplaces j hj⟩, hret, hended⟩

section Act

variable {s s' : State} {i : Thread} {o : Op} {r : Res o}

/-- A deadline is not taken back. -/
theorem expired_of_act (ha : act peers i s o r s') {c : Side} (h : s.expired c = true) :
    s'.expired c = true := by
  obtain ⟨t, ht, rfl⟩ := ha
  cases o <;> simp only [effect] at ht <;> simp_all [Function.update_apply]

/-- The goroutine stays started. -/
theorem started_of_act (ha : act peers i s o r s') (h : s.started = true) : s'.started = true := by
  obtain ⟨t, ht, rfl⟩ := ha
  cases o <;> simp only [effect] at ht <;> simp_all

/-- The wait group stays at zero. -/
theorem finished_of_act (ha : act peers i s o r s') (h : s.finished = true) :
    s'.finished = true := by
  obtain ⟨t, ht, rfl⟩ := ha
  cases o <;> simp only [effect] at ht <;> simp_all

end Act

/-! ## The callbacks -/

/-- The callback of a thread is due or has begun. -/
def Due (s : State) : Thread → Prop
  | .onCancel => s.onCancel = .armed ∧ s.ctxDone = true ∨ s.onCancel = .fired
  | .onTimer => s.timer = .armed ∨ s.timer = .fired
  | _ => False

section Due

variable {s s' : State} {i : Thread} {o : Op} {r : Res o}

/-- A callback that is due has begun with its next operation. -/
theorem Due.of_act {rounds : Nat} {l : Local} (h : Due s i) (hallows : l.Allows rounds i o)
    (ha : act peers i s o r s') : Due s' i := by
  obtain ⟨t, ht, rfl⟩ := ha
  have hcaller : i ≠ .caller := by
    rintro rfl
    exact h
  have hcopier : i ≠ .copier := by
    rintro rfl
    exact h
  obtain ⟨rfl, -⟩ | ⟨rfl, rfl, -⟩ | ⟨rfl, rfl, -⟩ | ⟨hi, -, d, rfl⟩ :=
    hallows.callback hcaller hcopier
  · exact h.elim
  · obtain ⟨-, -, rfl⟩ := ht
    exact .inr rfl
  · obtain ⟨-, rfl⟩ := ht
    exact .inr rfl
  · obtain rfl := ht
    rcases hi with rfl | rfl <;> exact h

/-- A callback waits only for its time to begin. -/
theorem Due.not_waits (h : Due s i) (hkept : Kept call s)
    (hallows : (place call s.log i).Allows call.rounds i o) : ¬ Waits peers s o := by
  cases i with
  | onCancel =>
      obtain ⟨hi, -⟩ | ⟨-, rfl, hfresh⟩ | ⟨hi, -⟩ | ⟨-, -, d, rfl⟩ :=
        hallows.callback (by simp) (by simp)
      · cases hi
      · refine not_not.mpr (h.resolve_right fun hfired => ?_)
        have hrunning := hkept.interrupted.cancelled.mp hfired
        simp [hfresh, Local.fresh] at hrunning
      · cases hi
      · exact id
  | onTimer =>
      obtain ⟨hi, -⟩ | ⟨hi, -⟩ | ⟨-, rfl, hfresh⟩ | ⟨-, -, d, rfl⟩ :=
        hallows.callback (by simp) (by simp)
      · cases hi
      · cases hi
      · refine not_not.mpr (h.resolve_right fun hfired => ?_)
        have hrunning := hkept.interrupted.elapsed.mp hfired
        simp [hfresh, Local.fresh] at hrunning
      · exact id
  | _ => exact h.elim

/-- A callback that has run has set both deadlines. -/
theorem Due.expired (h : Due s i) (hkept : Kept call s) (hended : (place call s.log i).Ended i)
    (c : Side) : s.expired c = true := by
  rw [hkept.interrupted.expired]
  cases i with
  | onCancel => exact .inl (by cases c <;> simp [show _ = [Side.a, .b] from hended])
  | onTimer => exact .inr (by cases c <;> simp [show _ = [Side.a, .b] from hended])
  | _ => exact h.elim

end Due

/-- A callback that is due or has begun can set both deadlines. -/
theorem interrupts {now : (Thread → Proc Unit) × State} (h : Reaches peers call now) {i : Thread}
    (hdue : Due now.2 i) :
    ∃ later, Threads.Reachable (act peers) now later ∧ (∀ c, later.2.expired c = true) ∧
      ∀ j, j = .caller ∨ j = .copier → place call later.2.log j = place call now.2.log j := by
  obtain ⟨later, hlater, hdue', hothers, -, hended⟩ := runs (i := i) (fun s => Due s i)
    (fun _ hP hallows ha => hP.of_act hallows ha)
    (fun hkept hP hallows => hP.not_waits hkept hallows)
    h hdue
  refine ⟨later, hlater, hdue'.expired (kept_of_reaches (h.trans hlater)).1 hended, fun j hj =>
    (hothers j ?_).2⟩
  rintro rfl
  rcases hj with rfl | rfl <;> exact hdue

/-! ## The copies end -/

/-- The copy of a thread has ended or is about to, behind bytes it still has to write, or is
followed for another round. -/
def Local.Followed (rounds : Nat) (l : Local) : Prop :=
  l.ended = true ∨ l.broken = true ∨ l.held ≠ [] ∨ l.reads < rounds

/-- A copy that has ended or is followed on has not used up its rounds. -/
theorem Local.Allows.unfollowed {rounds : Nat} {i : Thread} {l : Local}
    (h : l.Allows rounds i .unfollowed) (hl : l.Followed rounds) : False := by
  obtain ⟨-, ⟨-, hheld, hended, hbroken⟩, hreads⟩ := h
  simp [Local.Followed, hheld, hended, hbroken] at hl
  omega

/-- Behind its deadlines a copy ends with its next operation, or with the write of what its
connection had buffered. -/
theorem followed_of_act {s s' : State} {i : Thread} {o : Op} {r : Res o}
    (hexpired : ∀ c, s.expired c = true) (h : (place call s.log i).Followed call.rounds)
    (ha : act peers i s o r s') : (place call s'.log i).Followed call.rounds := by
  obtain ⟨t, ht, rfl⟩ := ha
  simp only [place_concat, Function.update_self]
  cases o with
  | read src =>
      obtain ⟨hgot, -⟩ := ht
      rw [if_pos (hexpired src)] at hgot
      split_ifs at hgot with hbuffered
      · exact .inl (by simp [Local.next, hgot])
      · exact .inr (.inr (.inl hgot.1))
  | write dst bytes =>
      obtain ⟨hr, -⟩ := ht
      rw [if_pos (hexpired dst)] at hr
      exact .inr (.inl (by simp [Local.next, complete, hr]))
  | unfollowed => exact ht.elim
  | _ => exact h

/-- Behind the deadlines, the goroutine ends its copy and leaves the wait group. -/
theorem copier_ends {now : (Thread → Proc Unit) × State} (h : Reaches peers call now)
    (hexpired : ∀ c, now.2.expired c = true) (hstarted : now.2.started = true)
    (hfollowed : (place call now.2.log .copier).Followed call.rounds) :
    ∃ later, Threads.Reachable (act peers) now later ∧ (∀ c, later.2.expired c = true) ∧
      later.2.finished = true ∧ place call later.2.log .caller = place call now.2.log .caller := by
  obtain ⟨later, hlater, hP, hothers, -, hended⟩ := runs (i := .copier)
    (fun s => (∀ c, s.expired c = true) ∧ s.started = true ∧
      (place call s.log .copier).Followed call.rounds)
    (fun _ hP _ ha => ⟨fun c => expired_of_act ha (hP.1 c), started_of_act ha hP.2.1,
      followed_of_act hP.1 hP.2.2 ha⟩)
    (fun {s o} _ hP hallows => by
      obtain ⟨hexpired, hstarted, hfollowed⟩ := hP
      cases o with
      | begin => simp [Waits, hstarted]
      | read src => simp [Waits, hexpired]
      | write dst bytes => simp [Waits, hexpired]
      | unfollowed =>
          exact (hallows.unfollowed hfollowed).elim
      | wgWait | runCancel | runTimer => simp [Local.Allows] at hallows
      | _ => exact id)
    h ⟨hexpired, hstarted, hfollowed⟩
  have hkept := (kept_of_reaches (h.trans hlater)).1
  exact ⟨later, hlater, hP.1, hkept.paced.finished.mpr hended, (hothers .caller (by simp)).2⟩

/-- Behind its wait the caller does not wait again. -/
theorem hasWaited_next {rounds : Nat} {grace : Bool} {l : Local} {o : Op} (r : Res o)
    (h : l.Allows rounds .caller o) (hwaited : l.stage.hasWaited = true) :
    (l.next grace ⟨o, r⟩).stage.hasWaited = true := by
  cases o <;> simp only [Local.Allows] at h <;> grind -ring -linarith -lia

/-- With the goroutine gone, the caller can return. -/
theorem caller_ends {now : (Thread → Proc Unit) × State} (h : Reaches peers call now)
    (hfinished : now.2.finished = true)
    (hcopy : (place call now.2.log .caller).stage.hasWaited = true ∨
      (∀ c, now.2.expired c = true) ∧ (place call now.2.log .caller).Followed call.rounds) :
    ∃ later, Threads.Reachable (act peers) now later ∧ later.1 .caller = .ret () := by
  obtain ⟨later, hlater, -, -, hret, -⟩ := runs (i := .caller)
    (fun s => s.finished = true ∧ ((place call s.log .caller).stage.hasWaited = true ∨
      (∀ c, s.expired c = true) ∧ (place call s.log .caller).Followed call.rounds))
    (fun {s o r s'} _ hP hallows ha => by
      refine ⟨finished_of_act ha hP.1, hP.2.imp (fun hwaited => ?_) fun hcopy => ?_⟩
      · rw [log_of_act ha, place_concat, Function.update_self]
        exact hasWaited_next r hallows hwaited
      · exact ⟨fun c => expired_of_act ha (hcopy.1 c), followed_of_act hcopy.1 hcopy.2 ha⟩)
    (fun {s o} _ hP hallows => by
      obtain ⟨hfinished, hcopy⟩ := hP
      have hcopying (hstage : (place call s.log .caller).stage = .copying) :
          (∀ c, s.expired c = true) ∧ (place call s.log .caller).Followed call.rounds :=
        hcopy.resolve_left (by simp [hstage, Stage.hasWaited])
      cases o with
      | read src => simp [Waits, (hcopying hallows.2.1).1]
      | write dst bytes => simp [Waits, (hcopying hallows.2.1).1]
      | wgWait => simp [Waits, hfinished]
      | unfollowed => exact (hallows.unfollowed (hcopying hallows.2.1.1).2).elim
      | begin | runCancel | runTimer => simp [Local.Allows] at hallows
      | _ => exact id)
    h ⟨hfinished, hcopy⟩
  exact ⟨later, hlater, hret⟩

/-! ## The caller starts its goroutine -/

/-- A thread that has not ended has a next operation. -/
theorem exists_step {now : (Thread → Proc Unit) × State} (h : Reaches peers call now) {i : Thread}
    (hend : ¬ (place call now.2.log i).Ended i) :
    ∃ o k, now.1 i = .step o k ∧ (place call now.2.log i).Allows call.rounds i o := by
  have hwp := (kept_of_reaches h).2 i
  have hsafe : (now.1 i).Ensures fun _ => True := Threads.ensures_of_reachable h (ensures_program i)
  cases hp : now.1 i with
  | ret u =>
      rw [hp] at hwp
      exact absurd hwp hend
  | fault => simp [hp] at hsafe
  | step o k => exact ⟨o, k, rfl, ok_of_step hwp hp⟩

/-- The context, the timer and the copies are as they were. -/
structure Starting (call : Call) (s s' : State) : Prop where
  ctxDone : s'.ctxDone = s.ctxDone
  timer : s'.timer = s.timer
  followed : ∀ i, (place call s.log i).Followed call.rounds →
    (place call s'.log i).Followed call.rounds

/-- One operation of the start after the other. -/
theorem Starting.trans {s s' s'' : State} (h : Starting call s s') (h' : Starting call s' s'') :
    Starting call s s'' :=
  ⟨h'.ctxDone.trans h.ctxDone, h'.timer.trans h.timer, fun i hi => h'.followed i (h.followed i hi)⟩

/-- Before its goroutine, the caller registers the callback and starts it. -/
theorem Local.Allows.starting {rounds : Nat} {l : Local} {o : Op} (h : l.Allows rounds .caller o)
    (hstage : l.stage.hasStarted = false) :
    o = .afterFunc ∧ l.stage = .fresh ∨ o = .goCopy ∧ l.stage = .registered := by
  cases o <;> simp only [Local.Allows] at h <;> grind -ring -linarith -lia

/-- One operation of a caller that has not started its goroutine. -/
theorem starts_one {now : (Thread → Proc Unit) × State} (h : Reaches peers call now)
    (hstage : (place call now.2.log .caller).stage.hasStarted = false) :
    ∃ later, Threads.Reachable (act peers) now later ∧ Starting call now.2 later.2 ∧
      ((place call now.2.log .caller).stage = .fresh ∧
          (place call later.2.log .caller).stage = .registered ∨
        (place call now.2.log .caller).stage = .registered ∧
          (place call later.2.log .caller).stage = .copying) := by
  have hend : ¬ (place call now.2.log .caller).Ended .caller := fun hend => by
    simp [show _ = Stage.returned from hend, Stage.hasStarted] at hstage
  obtain ⟨o, k, hp, hallows⟩ := exists_step h hend
  have hstarting {i : Thread} {o : Op} {r : Res o} {s s' : State}
    (ho : o = .afterFunc ∨ o = .goCopy)
      (ha : act peers i s o r s') : Starting call s s' := by
    obtain ⟨t, ht, rfl⟩ := ha
    rcases ho with rfl | rfl
    all_goals
      obtain rfl := ht
      refine ⟨rfl, rfl, fun j hj => ?_⟩
      simp only [place_concat]
      by_cases hji : j = i
      · subst hji
        rw [Function.update_self]
        exact hj
      · rwa [Function.update_of_ne hji]
  rcases hallows.starting hstage with ⟨rfl, hfresh⟩ | ⟨rfl, hregistered⟩
  · have ha : act peers .caller now.2 .afterFunc () _ := ⟨_, rfl, rfl⟩
    refine ⟨_, .single (.mk _ _ _ _ hp ha), hstarting (.inl rfl) ha, .inl ⟨hfresh, ?_⟩⟩
    simp [place_concat, Local.next]
  · have ha : act peers .caller now.2 .goCopy () _ := ⟨_, rfl, rfl⟩
    refine ⟨_, .single (.mk _ _ _ _ hp ha), hstarting (.inr rfl) ha, .inr ⟨hregistered, ?_⟩⟩
    simp [place_concat, Local.next]

/-- The caller can start its goroutine. -/
theorem starts {now : (Thread → Proc Unit) × State} (h : Reaches peers call now) :
    ∃ later, Threads.Reachable (act peers) now later ∧ Starting call now.2 later.2 ∧
      later.2.started = true := by
  have hlaunch {now : (Thread → Proc Unit) × State} (h : Reaches peers call now)
      (hstage : (place call now.2.log .caller).stage = .registered) :
      ∃ later, Threads.Reachable (act peers) now later ∧ Starting call now.2 later.2 ∧
        later.2.started = true := by
    obtain ⟨later, hlater, hstarting, ⟨hfresh, -⟩ | ⟨-, hcopying⟩⟩ := starts_one h
      (by simp [hstage, Stage.hasStarted])
    · simp [hstage] at hfresh
    · refine ⟨later, hlater, hstarting, ?_⟩
      simp [(kept_of_reaches (h.trans hlater)).1.paced.started, hcopying, Stage.hasStarted]
  cases hstarted : (place call now.2.log .caller).stage.hasStarted with
  | true =>
      refine ⟨now, .refl, ⟨rfl, rfl, fun _ hi => hi⟩, ?_⟩
      rw [(kept_of_reaches h).1.paced.started, hstarted]
  | false =>
      obtain ⟨later, hlater, hstarting, ⟨-, hregistered⟩ | ⟨hregistered, -⟩⟩ :=
        starts_one h hstarted
      · obtain ⟨last, hlast, hstarting', hstarted'⟩ := hlaunch (h.trans hlater) hregistered
        exact ⟨last, hlater.trans hlast, hstarting.trans hstarting', hstarted'⟩
      · exact hlaunch h hregistered

/-! ## The call -/

theorem Stage.hasWaited_of_hasUnregistered {stage : Stage} (h : stage.hasUnregistered = true) :
    stage.hasWaited = true := by
  cases stage <;> simp_all [Stage.hasUnregistered, Stage.hasWaited]

/-- Before the caller is behind its wait, a callback that was asked for is still to come or has
begun. -/
theorem Kept.due {s : State} (h : Kept call s) (hstarted : s.started = true)
    (hwaited : ¬ (place call s.log .caller).stage.hasWaited = true)
    (htrigger : s.ctxDone = true ∨ s.timer ≠ .idle) : ∃ i, Due s i := by
  rcases htrigger with hdone | htimer
  · refine ⟨.onCancel, ?_⟩
    cases hcb : s.onCancel with
    | idle =>
        have hfresh := h.paced.registered.mp hcb
        simp [h.paced.started, hfresh, Stage.hasStarted] at hstarted
    | armed => exact .inl ⟨hcb, hdone⟩
    | fired => exact .inr hcb
    | stopped => exact absurd (Stage.hasWaited_of_hasUnregistered (h.paced.stopped hcb)) hwaited
  · refine ⟨.onTimer, ?_⟩
    cases hcb : s.timer with
    | idle => exact absurd hcb htimer
    | armed => exact .inl hcb
    | fired => exact .inr hcb
    | stopped => exact absurd (Stage.hasWaited_of_hasCleared (h.graced.stopped hcb)) hwaited

/-- A call does not hang on its peers: once its context has ended or one direction has started the
timer, it can return. -/
theorem copy_finishes {now : (Thread → Proc Unit) × State} (h : Reaches peers call now)
    (hfollowed : ∀ src : Side, (place call now.2.log src.thread).Followed call.rounds)
    (htrigger : now.2.ctxDone = true ∨ now.2.timer ≠ .idle) :
    ∃ later, Threads.Reachable (act peers) now later ∧ later.1 .caller = .ret () := by
  obtain ⟨launched, hlaunched, hstarting, hstarted⟩ := starts h
  have hreach := h.trans hlaunched
  have hkept := (kept_of_reaches hreach).1
  by_cases hwaited : (place call launched.2.log .caller).stage.hasWaited = true
  · obtain ⟨later, hlater, hret⟩ := caller_ends hreach (hkept.paced.waited hwaited) (.inl hwaited)
    exact ⟨later, hlaunched.trans hlater, hret⟩
  obtain ⟨i, hdue⟩ := hkept.due hstarted hwaited (by rwa [hstarting.ctxDone, hstarting.timer])
  obtain ⟨cut, hcut, hexpired, hplaces⟩ := interrupts hreach hdue
  have hcaller := hplaces .caller (.inl rfl)
  have hcopier := hplaces .copier (.inr rfl)
  have hstarted' : cut.2.started = true := by
    rw [(kept_of_reaches (hreach.trans hcut)).1.paced.started, hcaller, ← hkept.paced.started,
      hstarted]
  obtain ⟨joined, hjoined, hexpired', hfinished, hcaller'⟩ :=
    copier_ends (hreach.trans hcut) hexpired
    hstarted' (hcopier ▸ hstarting.followed .copier (hfollowed .a))
  obtain ⟨later, hlater, hret⟩ := caller_ends ((hreach.trans hcut).trans hjoined) hfinished
    (.inr ⟨hexpired', hcaller'.trans hcaller ▸ hstarting.followed .caller (hfollowed .b)⟩)
  exact ⟨later, ((hlaunched.trans hcut).trans hjoined).trans hlater, hret⟩

/-- One byte has gone from `b` to `a`, `b` has ended, and `a` says nothing. -/
theorem copy_finishes_oneByte : ∃ now later, Reaches .prompt ⟨true, 2⟩ now ∧ now.2.timer = .armed ∧
    Threads.Reachable (act .prompt) now later ∧ later.1 .caller = .ret () := by
  obtain ⟨now, h, htimer, -, -, hended, hreads⟩ := reaches_oneByte
  have hfollowed : ∀ src : Side, (place ⟨true, 2⟩ now.2.log src.thread).Followed 2
    | .a => .inr (.inr (.inr (by simp [Side.thread, hreads])))
    | .b => .inl hended
  obtain ⟨later, hlater, hret⟩ := copy_finishes h hfollowed (.inr (by simp [htimer]))
  exact ⟨now, later, h, htimer, hlater, hret⟩

end Outway.Server.Copy
