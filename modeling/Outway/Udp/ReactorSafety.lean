import Outway.Udp.ReactorThreads

/-!
# Outway.Udp.ReactorSafety

What the reactor guarantees to its sockets.

`Tidy` ties `regs`, the epoll set and the dead registrations to how far the sessions
are, `Serving` the registration locks and the fetched events to what the workers have
in hand.
-/

namespace Outway.Reactor

open Prog

/-! ## Sockets and registrations -/

/-- The descriptors in use are those the sessions have, each in one session. -/
def Holds (opened : Finset Nat) (f : Nat → Option Nat) : Prop :=
  (∀ fd, fd ∈ opened ↔ ∃ j, f j = some fd) ∧ ∀ i j fd, f i = some fd → f j = some fd → i = j

/-- `regs` has the registrations of the sessions that are in it. -/
def Listed (regs : Nat → Option Reg) (f : Nat → Option Nat) : Prop :=
  ∀ fd reg, regs fd = some reg ↔ reg.fd = fd ∧ f reg.session = some fd

/-- The epoll set has only entries of sessions that are in it. -/
def Polled (interest : Nat → Option Interest) (f : Nat → Option Nat) : Prop :=
  ∀ fd e, interest fd = some e → f e.session = some fd

/-- The dead registrations are those that `deregister` has returned for. -/
def Marked (dead : Reg → Bool) (f : Nat → Option Nat) : Prop :=
  ∀ reg, dead reg = true ↔ f reg.session = some reg.fd

section Maps

variable {opened : Finset Nat} {regs : Nat → Option Reg} {interest : Nat → Option Interest}
  {dead : Reg → Bool} {f : Nat → Option Nat} {j fd : Nat}

/-- A property of a map is kept when a value is set to what it was. -/
theorem keep {P : (Nat → Option Nat) → Prop} {v : Option Nat} (h : P f) (hj : f j = v) :
    P (Function.update f j v) := by
  rwa [← hj, Function.update_eq_self]

/-- A new descriptor is one that no session has. -/
theorem Holds.socket (h : Holds opened f) (hj : f j = none) (hfd : fd ∉ opened) :
    Holds (insert fd opened) (Function.update f j (some fd)) := by
  obtain ⟨hmem, hinj⟩ := h
  have hother (i : Nat) : f i ≠ some fd := fun hi => hfd ((hmem fd).mpr ⟨i, hi⟩)
  constructor
  · intro fd'
    rw [Finset.mem_insert, hmem fd']
    constructor
    · rintro (rfl | ⟨i, hi⟩)
      · exact ⟨j, Function.update_self _ _ _⟩
      · have hne : i ≠ j := by
          rintro rfl
          simp [hj] at hi
        exact ⟨i, by rwa [Function.update_of_ne hne]⟩
    · rintro ⟨i, hi⟩
      by_cases hij : i = j
      · subst hij
        exact .inl (by simpa [eq_comm] using hi)
      · rw [Function.update_of_ne hij] at hi
        exact .inr ⟨i, hi⟩
  · intro a b fd' ha hb
    have := hinj a b fd'
    simp only [Function.update_apply] at ha hb
    grind

/-- A closed descriptor is free again. -/
theorem Holds.close (h : Holds opened f) (hj : f j = some fd) :
    Holds (opened.erase fd) (Function.update f j none) := by
  obtain ⟨hmem, hinj⟩ := h
  constructor
  · intro fd'
    rw [Finset.mem_erase, hmem fd']
    constructor
    · rintro ⟨hne, i, hi⟩
      have hij : i ≠ j := by
        rintro rfl
        simp [hj, Ne.symm hne] at hi
      exact ⟨i, by rwa [Function.update_of_ne hij]⟩
    · rintro ⟨i, hi⟩
      have hij : i ≠ j := by
        rintro rfl
        simp at hi
      rw [Function.update_of_ne hij] at hi
      refine ⟨?_, i, hi⟩
      rintro rfl
      exact hij (hinj i j _ hi hj)
  · intro a b fd' ha hb
    have := hinj a b fd'
    simp only [Function.update_apply] at ha hb
    grind

/-- A session registers its descriptor. -/
theorem Listed.setReg (h : Listed regs f) (hj : f j = none) (hfd : ∀ i, f i ≠ some fd) :
    Listed (Function.update regs fd (some ⟨j, fd⟩)) (Function.update f j (some fd)) := by
  intro fd' ⟨i, fdReg⟩
  have := h fd' ⟨i, fdReg⟩
  have := hfd i
  simp only [Function.update_apply]
  grind

/-- And takes it out again. -/
theorem Listed.delReg (h : Listed regs f) (hj : f j = some fd)
    (hfd : ∀ i, f i = some fd → i = j) :
    Listed (Function.update regs fd none) (Function.update f j none) := by
  intro fd' reg
  have := h fd' reg
  have := hfd reg.session
  simp only [Function.update_apply]
  grind

/-- The epoll set gets an entry of the session. -/
theorem Polled.add (h : Polled interest f) (hj : f j = none) (armed : Bool) :
    Polled (Function.update interest fd (some ⟨j, armed⟩)) (Function.update f j (some fd)) := by
  intro fd' e he
  have := h fd' e
  simp only [Function.update_apply] at he ⊢
  grind

/-- And loses it. -/
theorem Polled.del (h : Polled interest f) (hj : f j = some fd) :
    Polled (Function.update interest fd none) (Function.update f j none) := by
  intro fd' e he
  have := h fd' e
  simp only [Function.update_apply] at he ⊢
  grind

/-- Closing a descriptor takes its entry out, too. -/
theorem Polled.close (h : Polled interest f) : Polled (Function.update interest fd none) f := by
  intro fd' e he
  have := h fd' e
  simp only [Function.update_apply] at he
  grind

/-- A registration is marked dead. -/
theorem Marked.mark (h : Marked dead f) (hj : f j = none) :
    Marked (Function.update dead ⟨j, fd⟩ true) (Function.update f j (some fd)) := by
  intro ⟨i, fd'⟩
  have := h ⟨i, fd'⟩
  simp only [Function.update_apply, Reg.mk.injEq]
  grind

end Maps

namespace System

variable {sys : System}

/-- How far the sessions are. -/
def phases (log : List (sys.ι × Event)) (j : Nat) : Phase :=
  sessionPhase (Threads.own log (.session j))

/-- What the workers have in hand. -/
def works (log : List (sys.ι × Event)) (w : Fin sys.workers) : Work :=
  work (Threads.own log (.worker w))

section Concat

variable (log : List (sys.ι × Event)) (e : Event)

/-- An entry of a session moves that session. -/
theorem phases_concat_session (j : Nat) : phases (log ++ [(.session j, e)]) =
    Function.update (phases log) j ((phases log j).next e) := by
  funext i
  rw [phases, Threads.own_concat]
  by_cases hij : i = j
  · subst hij
    rw [Function.update_self, Function.update_self, sessionPhase_concat, phases]
  · rw [Function.update_of_ne hij, Function.update_of_ne (by simpa using hij), phases]

theorem phases_concat_worker (w : Fin sys.workers) :
    phases (log ++ [(.worker w, e)]) = phases log := by
  funext i
  rw [phases, Threads.own_concat, Function.update_of_ne (by simp), phases]

/-- An entry of a worker moves that worker. -/
theorem works_concat_worker (w : Fin sys.workers) : works (log ++ [(.worker w, e)]) =
    Function.update (works log) w ((works log w).next e) := by
  funext v
  rw [works, Threads.own_concat]
  by_cases hvw : v = w
  · subst hvw
    rw [Function.update_self, Function.update_self, work_concat, works]
  · rw [Function.update_of_ne hvw, Function.update_of_ne (by simpa using hvw), works]

theorem works_concat_session (j : Nat) : works (log ++ [(.session j, e)]) = works log := by
  funext v
  rw [works, Threads.own_concat, Function.update_of_ne (by simp), works]

end Concat

/-- The sockets and registrations are those of the sessions. -/
structure Tidy (s : sys.State) : Prop where
  opened : Holds s.opened (Phase.uses ∘ phases s.log)
  regs : Listed s.regs (Phase.registered ∘ phases s.log)
  interest : Polled s.interest (Phase.listed ∘ phases s.log)
  dead : Marked s.dead (Phase.returned ∘ phases s.log)
  fits : ∀ j, (phases s.log j).Fits j

variable {s t : sys.State} {o : Op} {r : Res o}

/-- A session goes on. -/
theorem Tidy.session {j : Nat} {p : Phase} {e : Event} (h : Tidy s)
    (hp : (phases s.log j).next e = p)
    (hopened : Holds t.opened (Function.update (Phase.uses ∘ phases s.log) j p.uses))
    (hregs : Listed t.regs (Function.update (Phase.registered ∘ phases s.log) j p.registered))
    (hinterest : Polled t.interest (Function.update (Phase.listed ∘ phases s.log) j p.listed))
    (hdead : Marked t.dead (Function.update (Phase.returned ∘ phases s.log) j p.returned))
    (hfits : p.Fits j) : Tidy { t with log := s.log ++ [(.session j, e)] } := by
  have hphases : phases (s.log ++ [(.session j, e)]) = Function.update (phases s.log) j p := by
    rw [phases_concat_session, hp]
  refine ⟨?_, ?_, ?_, ?_, fun i => ?_⟩
  · rwa [hphases, Function.comp_update]
  · rwa [hphases, Function.comp_update]
  · rwa [hphases, Function.comp_update]
  · rwa [hphases, Function.comp_update]
  · rw [hphases]
    by_cases hij : i = j
    · subst hij
      rwa [Function.update_self]
    · rw [Function.update_of_ne hij]
      exact h.fits i

/-- No two sessions are in `regs` under one descriptor. -/
theorem Tidy.eq_of_registered (h : Tidy s) {i j fd : Nat} (hj : (phases s.log j).uses = some fd)
    (hi : (phases s.log i).registered = some fd) : i = j :=
  h.opened.2 i j fd (Phase.uses_of_registered hi) hj

/-- One operation of a session. -/
theorem tidy_session {j : Nat} (h : Tidy s)
    (hp : sessionPermits j (Threads.own s.log (.session j)) o)
    (ht : effect s o r t) : Tidy { t with log := s.log ++ [(.session j, ⟨o, r⟩)] } := by
  have hop : (phases s.log j).op j = some o := hp
  have hfits := h.fits j
  have hunique {i fd : Nat} (hj : (phases s.log j).uses = some fd)
      (hi : (phases s.log i).registered = some fd) : i = j := h.eq_of_registered hj hi
  generalize hphase : phases s.log j = p at hop hfits hunique
  have hnext (e : Event) {p' : Phase} (hp' : p.next e = p') : (phases s.log j).next e = p' := by
    rw [hphase, hp']
  have hval (f : Phase → Option Nat) {v : Option Nat} (hv : f p = v) :
    (f ∘ phases s.log) j = v := by
    rw [Function.comp_apply, hphase, hv]
  cases p with
  | start =>
      obtain rfl : Op.socket = o := Option.some.inj hop
      obtain ⟨hfd, rfl⟩ := ht
      exact h.session (hnext _ rfl) (h.opened.socket (hval _ rfl) hfd) (keep h.regs (hval _ rfl))
        (keep h.interest (hval _ rfl)) (keep h.dead (hval _ rfl)) trivial
  | opened fd =>
      obtain rfl : Op.setReg ⟨j, fd⟩ = o := Option.some.inj hop
      obtain rfl := ht
      have hfree (i : Nat) : (Phase.registered ∘ phases s.log) i ≠ some fd := by
        intro hi
        obtain rfl := hunique rfl hi
        rw [hval _ rfl] at hi
        simp [Phase.registered] at hi
      exact h.session (hnext _ rfl) (keep h.opened (hval _ rfl)) (h.regs.setReg (hval _ rfl) hfree)
        (keep h.interest (hval _ rfl)) (keep h.dead (hval _ rfl)) trivial
  | set fd =>
      obtain rfl : Op.ctlAdd ⟨j, fd⟩ = o := Option.some.inj hop
      cases r with
      | true =>
          obtain ⟨-, rfl⟩ := ht
          exact h.session (hnext _ rfl) (keep h.opened (hval _ rfl)) (keep h.regs (hval _ rfl))
            (h.interest.add (hval _ rfl) true) (keep h.dead (hval _ rfl)) trivial
      | false =>
          obtain rfl := ht
          exact h.session (hnext _ rfl) (keep h.opened (hval _ rfl)) (keep h.regs (hval _ rfl))
            (keep h.interest (hval _ rfl)) (keep h.dead (hval _ rfl)) trivial
  | refused fd =>
      obtain rfl : Op.delReg fd = o := Option.some.inj hop
      obtain rfl := ht
      exact h.session (hnext _ rfl) (keep h.opened (hval _ rfl))
        (h.regs.delReg (hval _ rfl) fun i hi => hunique rfl hi)
        (keep h.interest (hval _ rfl)) (keep h.dead (hval _ rfl)) trivial
  | live fd =>
      obtain rfl : Op.takeReg fd = o := Option.some.inj hop
      obtain ⟨rfl, rfl⟩ := ht
      exact h.session (hnext _ rfl) (keep h.opened (hval _ rfl))
        (h.regs.delReg (hval _ rfl) fun i hi => hunique rfl hi)
        (keep h.interest (hval _ rfl)) (keep h.dead (hval _ rfl))
        ((h.regs fd ⟨j, fd⟩).mpr ⟨rfl, hval _ rfl⟩)
  | taken fd reg =>
      obtain rfl : Op.ctlDel fd = o := Option.some.inj hop
      obtain rfl := ht
      obtain rfl := hfits
      exact h.session (hnext _ rfl) (keep h.opened (hval _ rfl)) (keep h.regs (hval _ rfl))
        (h.interest.del (hval _ rfl)) (keep h.dead (hval _ rfl)) rfl
  | removed fd reg =>
      obtain rfl : Op.markDead reg = o := Option.some.inj hop
      obtain ⟨-, rfl⟩ := ht
      obtain rfl := hfits
      exact h.session (hnext _ rfl) (keep h.opened (hval _ rfl)) (keep h.regs (hval _ rfl))
        (keep h.interest (hval _ rfl)) (h.dead.mark (hval _ rfl)) trivial
  | closing fd dereg =>
      obtain rfl : Op.close fd = o := Option.some.inj hop
      obtain rfl := ht
      have hreturned : (Phase.returned ∘ phases s.log) j = (Phase.closed fd dereg).returned := by
        cases dereg <;> exact hval _ rfl
      exact h.session (hnext _ rfl) (h.opened.close (hval _ rfl)) (keep h.regs (hval _ rfl))
        (keep h.interest.close (hval _ rfl)) (keep h.dead hreturned) trivial
  | closed fd dereg => simp [Phase.op] at hop

/-- A worker arms and disarms entries of the epoll set. -/
theorem Tidy.worker (h : Tidy s) {w : Fin sys.workers} {e : Event} (hopened : t.opened = s.opened)
    (hregs : t.regs = s.regs) (hdead : t.dead = s.dead)
    (hinterest : ∀ fd e, t.interest fd = some e → ∃ e', s.interest fd = some e' ∧
      e.session = e'.session) : Tidy { t with log := s.log ++ [(.worker w, e)] } := by
  refine ⟨?_, ?_, fun fd e he => ?_, ?_, fun j => ?_⟩
  · rw [phases_concat_worker, hopened]
    exact h.opened
  · rw [phases_concat_worker, hregs]
    exact h.regs
  · obtain ⟨e', he', hsession⟩ := hinterest fd e he
    rw [phases_concat_worker, hsession]
    exact h.interest fd e' he'
  · rw [phases_concat_worker, hdead]
    exact h.dead
  · rw [phases_concat_worker]
    exact h.fits j

/-- One operation of a worker. -/
theorem tidy_worker {w : Fin sys.workers} (h : Tidy s)
    (hp : workerPermits (Threads.own s.log (.worker w)) o) (ht : effect s o r t) :
    Tidy { t with log := s.log ++ [(.worker w, ⟨o, r⟩)] } := by
  cases o with
  | epollWait =>
      cases r with
      | error err =>
          obtain rfl := ht
          exact h.worker rfl rfl rfl fun fd e he => ⟨e, he, rfl⟩
      | ok events =>
          obtain ⟨-, -, -, rfl⟩ := ht
          refine h.worker rfl rfl rfl fun fd e he => ?_
          dsimp only at he
          split_ifs at he
          · obtain ⟨e', he', rfl⟩ := Option.map_eq_some_iff.mp he
            exact ⟨e', he', rfl⟩
          · exact ⟨e, he, rfl⟩
  | lookup ev =>
      obtain ⟨-, rfl⟩ := ht
      exact h.worker rfl rfl rfl fun fd e he => ⟨e, he, rfl⟩
  | lock ev reg =>
      obtain ⟨-, -, rfl⟩ := ht
      exact h.worker rfl rfl rfl fun fd e he => ⟨e, he, rfl⟩
  | pump ev reg | unlock reg =>
      obtain rfl := ht
      exact h.worker rfl rfl rfl fun fd e he => ⟨e, he, rfl⟩
  | rearm fd =>
      cases r with
      | false =>
          obtain rfl := ht
          exact h.worker rfl rfl rfl fun fd e he => ⟨e, he, rfl⟩
      | true =>
          obtain ⟨e, he, rfl⟩ := ht
          refine h.worker rfl rfl rfl fun fd' e' he' => ?_
          dsimp only at he'
          by_cases hfd : fd' = fd
          · subst hfd
            rw [Function.update_self] at he'
            obtain rfl := Option.some.inj he'
            exact ⟨e, he, rfl⟩
          · rw [Function.update_of_ne hfd] at he'
            exact ⟨e', he', rfl⟩
  | _ => exact hp.elim

/-- No socket is there. -/
theorem tidy_init : Tidy sys.init := by
  refine ⟨⟨fun fd => ?_, fun i j fd hi => ?_⟩, fun fd reg => ?_, fun fd e he => ?_, fun reg => ?_,
    fun j => trivial⟩
  · simp [init, phases, sessionPhase, Phase.uses, Threads.own]
  · simp [init, phases, sessionPhase, Phase.uses, Threads.own] at hi
  · simp [init, phases, sessionPhase, Phase.registered, Threads.own]
  · simp [init] at he
  · simp [init, phases, sessionPhase, Phase.returned, Threads.own]

/-! ## Locks and fetched events -/

/-- What a worker with `p` in hand can rely on. -/
structure Attends (locked dead : Reg → Bool) (ph : Nat → Phase) (p : Work) : Prop where
  locked : ∀ reg, p.locks = some reg → locked reg = true
  alive : ∀ reg, p.handling = some reg → dead reg = false
  rest : ∀ ev ∈ p.rest, (ph ev.session).Current ev.fd
  chosen : ∀ ev reg, p.chosen = some (ev, reg) → reg = ev.reg ∨ (ph ev.session).begun = true

/-- The registration locks and the fetched events are those of the workers. -/
structure Serving (s : sys.State) : Prop where
  attends : ∀ w, Attends s.locked s.dead (phases s.log) (works s.log w)
  alone : ∀ w w' reg, (works s.log w).locks = some reg → (works s.log w').locks = some reg → w = w'

/-- A session does not take a registration's lock from a worker. -/
theorem locked_of_session {p : Phase} {j : Nat} (hop : p.op j = some o) (ht : effect s o r t) :
    t.locked = s.locked ∧ ∀ reg, s.locked reg = true → t.dead reg = s.dead reg := by
  cases p with
  | start | live fd =>
      obtain rfl := Option.some.inj hop
      obtain ⟨-, rfl⟩ := ht
      exact ⟨rfl, fun _ _ => rfl⟩
  | opened fd | refused fd | taken fd reg | closing fd dereg =>
      obtain rfl := Option.some.inj hop
      obtain rfl := ht
      exact ⟨rfl, fun _ _ => rfl⟩
  | set fd =>
      obtain rfl := Option.some.inj hop
      cases r with
      | true => obtain ⟨-, rfl⟩ := ht; exact ⟨rfl, fun _ _ => rfl⟩
      | false => obtain rfl := ht; exact ⟨rfl, fun _ _ => rfl⟩
  | removed fd reg =>
      obtain rfl := Option.some.inj hop
      obtain ⟨hfree, rfl⟩ := ht
      refine ⟨rfl, fun reg' hreg' => Function.update_of_ne ?_ _ _⟩
      rintro rfl
      simp [hfree] at hreg'
  | closed fd dereg => simp [Phase.op] at hop

/-- One operation of a session. -/
theorem serving_session {j : Nat} (h : Serving s)
    (hp : sessionPermits j (Threads.own s.log (.session j)) o) (ht : effect s o r t) :
    Serving { t with log := s.log ++ [(.session j, ⟨o, r⟩)] } := by
  have hop : (phases s.log j).op j = some o := hp
  obtain ⟨hlocked, hdead⟩ := locked_of_session hop ht
  have hphase {P : Phase → Prop} (hnext : P (phases s.log j) → P ((phases s.log j).next ⟨o, r⟩))
      (i : Nat) (hi : P (phases s.log i)) :
      P (phases (s.log ++ [(.session j, ⟨o, r⟩)]) i) := by
    rw [phases_concat_session]
    by_cases hij : i = j
    · subst hij
      rw [Function.update_self]
      exact hnext hi
    · rwa [Function.update_of_ne hij]
  refine ⟨fun w => ?_, ?_⟩
  · have hw := h.attends w
    dsimp only
    rw [works_concat_session]
    refine ⟨fun reg hreg => ?_, fun reg hreg => ?_, fun ev hev => ?_, fun ev reg hev => ?_⟩
    · rw [hlocked]
      exact hw.locked reg hreg
    · rw [hdead reg (hw.locked reg (Work.locks_of_handling hreg))]
      exact hw.alive reg hreg
    · exact hphase (fun hcur => hcur.next hop) _ (hw.rest ev hev)
    · exact (hw.chosen ev reg hev).imp_right
        (hphase (P := fun p => p.begun = true) (Phase.begun_next hop) _)
  · rw [works_concat_session]
    exact h.alone

/-- A worker goes on. -/
theorem Serving.worker {w : Fin sys.workers} {p : Work} {e : Event} (h : Serving s)
    (hp : (works s.log w).next e = p) (hdead : t.dead = s.dead)
    (hothers : ∀ reg, s.locked reg = true → (works s.log w).locks ≠ some reg → t.locked reg = true)
    (hlocks : ∀ reg, p.locks = some reg → (works s.log w).locks = some reg ∨ s.locked reg = false)
    (hattends : Attends t.locked s.dead (phases s.log) p) :
    Serving { t with log := s.log ++ [(.worker w, e)] } := by
  have hworks : works (s.log ++ [(.worker w, e)]) = Function.update (works s.log) w p := by
    rw [works_concat_worker, hp]
  -- a lock that another worker has is not this worker's
  have hother {v : Fin sys.workers} {reg : Reg} (hv : (works s.log v).locks = some reg)
      (hw : p.locks = some reg) : v = w := by
    obtain hw | hw := hlocks reg hw
    · exact h.alone v w reg hv hw
    · rw [(h.attends v).locked reg hv] at hw
      exact nomatch hw
  refine ⟨fun v => ?_, fun v v' reg hv hv' => ?_⟩
  · dsimp only
    rw [phases_concat_worker, hworks, hdead]
    by_cases hvw : v = w
    · subst hvw
      rwa [Function.update_self]
    · rw [Function.update_of_ne hvw]
      obtain ⟨hlocked, halive, hrest, hchosen⟩ := h.attends v
      refine ⟨fun reg hreg => hothers reg (hlocked reg hreg) fun hw => ?_, halive, hrest, hchosen⟩
      exact hvw (h.alone v w reg hreg hw)
  · dsimp only at hv hv'
    rw [hworks] at hv hv'
    by_cases hvw : v = w
    · subst hvw
      rw [Function.update_self] at hv
      by_cases hv'w : v' = v
      · exact hv'w.symm
      · rw [Function.update_of_ne hv'w] at hv'
        exact (hother hv' hv).symm
    · rw [Function.update_of_ne hvw] at hv
      by_cases hv'w : v' = w
      · subst hv'w
        rw [Function.update_self] at hv'
        exact hother hv hv'
      · rw [Function.update_of_ne hv'w] at hv'
        exact h.alone v v' reg hv hv'

/-- A lookup finds the registration of the event, unless `deregister` has been called. -/
theorem Tidy.lookup (h : Tidy s) {ev : Ready} (hev : (phases s.log ev.session).Current ev.fd) :
    s.regs ev.fd = some ev.reg ∨ (phases s.log ev.session).begun = true := by
  obtain hlive | hbegun := hev
  · refine .inl ((h.regs ev.fd ev.reg).mpr ⟨rfl, ?_⟩)
    rw [Function.comp_apply, Ready.reg, hlive, Phase.registered]
  · exact .inr hbegun

/-- A worker takes a registration's lock, which no worker has. -/
theorem Serving.locks {w : Fin sys.workers} {p : Work} {e : Event} {reg : Reg} (h : Serving s)
    (hp : (works s.log w).next e = p) (hlocks : p.locks = some reg) (hfree : s.locked reg = false)
    (hattends : Attends (Function.update s.locked reg true) s.dead (phases s.log) p) :
    Serving { s with
      locked := Function.update s.locked reg true
      log := s.log ++ [(.worker w, e)] } := by
  refine h.worker (t := { s with locked := Function.update s.locked reg true }) hp rfl ?_ ?_
    hattends
  · intro reg' hreg' _
    dsimp only
    rw [Function.update_apply]
    split_ifs
    · rfl
    · exact hreg'
  · intro reg' hreg'
    obtain rfl := Option.some.inj (hlocks.symm.trans hreg')
    exact .inr hfree

/-- One operation of a worker. -/
theorem serving_worker {w : Fin sys.workers} (h : Serving s) (htidy : Tidy s)
    (hp : workerPermits (Threads.own s.log (.worker w)) o) (ht : effect s o r t) :
    Serving { t with log := s.log ++ [(.worker w, ⟨o, r⟩)] } := by
  have hallows : (works s.log w).Allows o := hp
  have hw := h.attends w
  generalize hwork : works s.log w = p at hallows hw
  obtain ⟨rest, doing⟩ := p
  have hnext (e : Event) {p' : Work} (hp' : (⟨rest, doing⟩ : Work).next e = p') :
      (works s.log w).next e = p' := by
    rw [hwork, hp']
  have hsame (reg : Reg) (hreg : (⟨rest, doing⟩ : Work).locks = some reg) :
      (works s.log w).locks = some reg ∨ s.locked reg = false := by
    rw [hwork]
    exact .inl hreg
  have hnone {reg : Reg} : (none : Option Reg) = some reg →
      (works s.log w).locks = some reg ∨ s.locked reg = false := fun hreg => nomatch hreg
  cases o with
  | epollWait =>
      cases r with
      | error err =>
          obtain rfl := ht
          exact h.worker (hnext _ rfl) rfl (fun _ hreg _ => hreg) hsame hw
      | ok events =>
          obtain ⟨-, -, hready, rfl⟩ := ht
          refine h.worker (hnext _ rfl) rfl (fun _ hreg _ => hreg) (fun _ => hnone) ?_
          refine ⟨nofun, nofun, fun ev hev => ?_, nofun⟩
          exact Phase.current_of_listed (htidy.interest ev.fd _ (hready ev hev))
  | lookup ev =>
      obtain ⟨rfl, rfl⟩ := ht
      obtain ⟨rest', heq⟩ := hallows
      obtain ⟨rfl, rfl⟩ := Work.mk.inj heq
      have hrest (ev' : Ready) (hev' : ev' ∈ rest') := hw.rest ev' (List.mem_cons_of_mem _ hev')
      cases hfound : t.regs ev.fd with
      | none =>
          exact h.worker (hnext _ rfl) rfl (fun _ hreg _ => hreg) (fun _ => hnone)
            ⟨nofun, nofun, hrest, nofun⟩
      | some reg =>
          refine h.worker (hnext _ rfl) rfl (fun _ hreg _ => hreg) (fun _ => hnone)
            ⟨nofun, nofun, hrest, fun ev' reg' hchosen => ?_⟩
          obtain ⟨rfl, rfl⟩ := Prod.mk.inj (Option.some.inj hchosen)
          refine (htidy.lookup (hw.rest ev List.mem_cons_self)).imp_left fun hown => ?_
          exact Option.some.inj (hfound.symm.trans hown)
  | lock ev reg =>
      obtain rfl : doing = .found ev reg := hallows
      obtain ⟨hfree, rfl, rfl⟩ := ht
      have hlocked (reg' : Reg) (hreg' : some reg = some reg') :
          Function.update s.locked reg true reg' = true := by
        obtain rfl := Option.some.inj hreg'
        exact Function.update_self _ _ _
      cases hdead : s.dead reg with
      | true => exact h.locks (hnext _ rfl) rfl hfree ⟨hlocked, nofun, hw.rest, nofun⟩
      | false =>
          refine h.locks (hnext _ rfl) rfl hfree
            ⟨hlocked, fun reg' hreg' => ?_, hw.rest, hw.chosen⟩
          obtain rfl := Option.some.inj hreg'
          exact hdead
  | pump ev reg =>
      obtain rfl : doing = .held ev reg := hallows
      obtain rfl := ht
      exact h.worker (hnext _ rfl) rfl (fun _ hreg _ => hreg) hsame
        ⟨hw.locked, hw.alive, hw.rest, nofun⟩
  | rearm fd =>
      cases r with
      | false =>
          obtain rfl := ht
          exact h.worker (hnext _ rfl) rfl (fun _ hreg _ => hreg) hsame hw
      | true =>
          obtain ⟨e, -, rfl⟩ := ht
          exact h.worker (hnext _ rfl) rfl (fun _ hreg _ => hreg) hsame hw
  | unlock reg =>
      obtain rfl := ht
      refine h.worker (hnext _ rfl) rfl (fun reg' hreg' hne => ?_) (fun _ => hnone)
        ⟨nofun, nofun, hw.rest, nofun⟩
      dsimp only
      rwa [Function.update_of_ne]
      rintro rfl
      refine hne ?_
      rw [hwork]
      obtain rfl | rfl := hallows <;> rfl
  | _ => exact hallows.elim

theorem serving_init : Serving sys.init :=
  ⟨fun _ => ⟨nofun, nofun, nofun, nofun⟩, nofun⟩

/-! ## The guarantees -/

/-- `deregister` has been called for the session's socket. -/
def Begun (log : List (sys.ι × Event)) (j : Nat) : Prop := (phases log j).begun = true

/-- `deregister` has returned for the registration. -/
def Returned (log : List (sys.ι × Event)) (reg : Reg) : Prop :=
  (phases log reg.session).returned = some reg.fd

/-- What an entry says about the registrations it is about. -/
def Sound (before : List (sys.ι × Event)) (x : sys.ι × Event) : Prop :=
  (∀ ev ∈ drops x.2, Begun before ev.session) ∧ ∀ ev reg, x.2.1 = .pump ev reg →
    ¬ Returned before reg

/-- A handler that runs is not deregistered yet. -/
theorem Serving.not_returned (h : Serving s) (htidy : Tidy s) {w : Fin sys.workers} {reg : Reg}
    (hreg : (works s.log w).handling = some reg) : ¬ Returned s.log reg := by
  intro hreturned
  have hdead := (htidy.dead reg).mpr hreturned
  rw [(h.attends w).alive reg hreg] at hdead
  exact nomatch hdead

/-- What a worker drops had been deregistered, and it runs no handler that is gone. -/
theorem Serving.sound (h : Serving s) (htidy : Tidy s) {w : Fin sys.workers}
    (hp : workerPermits (Threads.own s.log (.worker w)) o) (ht : effect s o r t) :
    Sound s.log (.worker w, ⟨o, r⟩) := by
  have hallows : (works s.log w).Allows o := hp
  refine ⟨fun ev hev => ?_, fun ev reg ho => ?_⟩
  · cases o with
    | lookup ev' =>
        obtain ⟨rfl, -⟩ := ht
        obtain ⟨rest, hrest⟩ := hallows
        simp only [drops] at hev
        split_ifs at hev with hfound
        · simp at hev
        · obtain rfl := List.mem_singleton.mp hev
          refine (htidy.lookup ((h.attends w).rest ev ?_)).resolve_left hfound
          rw [hrest]
          exact List.mem_cons_self
    | lock ev' reg =>
        obtain ⟨-, rfl, -⟩ := ht
        cases hdead : s.dead reg with
        | false => simp [drops, hdead] at hev
        | true =>
            simp only [drops, hdead] at hev
            split_ifs at hev with hreg
            · obtain rfl := List.mem_singleton.mp hev
              subst hreg
              exact Phase.begun_of_returned ((htidy.dead _).mp hdead)
            · simp at hev
    | _ => simp [drops] at hev
  · subst ho
    refine h.not_returned htidy (w := w) ?_
    rw [Work.handling, show (works s.log w).doing = _ from hallows]

/-- A session's entries are about no event. -/
theorem sound_session {before : List (sys.ι × Event)} {p : Phase} {j : Nat}
    (hop : p.op j = some o) :
    Sound before (.session j, ⟨o, r⟩) := by
  cases p <;> simp only [Phase.op, Option.some.injEq, reduceCtorEq] at hop <;> subst hop <;>
    exact ⟨by simp [drops], by simp⟩

/-- What holds in every state of the reactor. -/
structure Safe (s : sys.State) : Prop where
  tidy : Tidy s
  serving : Serving s
  sound : Justified Sound s.log
  balanced : ∀ w, Balanced (Threads.own s.log (.worker w))

theorem safe_step {i : sys.ι} {s' : sys.State} (h : Safe s)
    (hp : sys.permits i (Threads.own s.log i) o) (ha : act i s o r s') : Safe s' := by
  obtain ⟨t, ht, rfl⟩ := ha
  cases i with
  | worker w =>
      refine ⟨tidy_worker h.tidy hp ht, serving_worker h.serving h.tidy hp ht,
        h.sound.concat (h.serving.sound h.tidy hp ht), fun v => ?_⟩
      dsimp only
      rw [Threads.own_concat]
      by_cases hvw : v = w
      · subst hvw
        rw [Function.update_self]
        exact (h.balanced v).concat hp
      · rw [Function.update_of_ne (by simpa using hvw)]
        exact h.balanced v
  | session j =>
      refine ⟨tidy_session h.tidy hp ht, serving_session h.serving hp ht,
        h.sound.concat (sound_session hp), fun v => ?_⟩
      dsimp only
      rw [Threads.own_concat, Function.update_of_ne (by simp)]
      exact h.balanced v

theorem safe_init : Safe sys.init :=
  ⟨tidy_init, serving_init, justified_nil _, fun _ => balanced_nil⟩

variable {now : (sys.ι → Proc Unit) × sys.State}

/-- Every state of a run is safe, and its threads keep to their parts. -/
theorem safe_of_reaches (h : sys.Reaches now) : Safe now.2 ∧
    ∀ i, (now.1 i).wp (Contract.logging (sys.permits i)) (Threads.own now.2.log i)
      fun _ es => sys.post i es :=
  Threads.logged State.log log_of_act sys.permits sys.post Safe safe_step rfl safe_init
    sys.wp_program h

/-- The worker is about to wait for events, or has ended. -/
def BetweenBatches (p : Proc Unit) : Prop := (∃ k, p = .step .epollWait k) ∨ p = .ret ()

/-- The events a worker has fetched, run and dropped. -/
def fetched (log : List (sys.ι × Event)) (w : Fin sys.workers) : List Ready :=
  (Threads.own log (.worker w)).flatMap fetches

def handled (log : List (sys.ι × Event)) (w : Fin sys.workers) : List Ready :=
  (Threads.own log (.worker w)).flatMap handles

def dropped (log : List (sys.ι × Event)) (w : Fin sys.workers) : List Ready :=
  (Threads.own log (.worker w)).flatMap drops

/-- Between two batches a worker has nothing in hand. -/
theorem work_of_betweenBatches {p : Proc Unit} {es : List Event} (hp : BetweenBatches p)
    (hwp : p.wp (Contract.logging workerPermits) es fun _ es => work es = ⟨[], .idle⟩) :
    work es = ⟨[], .idle⟩ := by
  obtain ⟨k, rfl⟩ | rfl := hp
  · exact hwp.1
  · exact hwp

/-- **The reactor serves its sockets safely.**  In any interleaving of the workers and the
sessions, at most one worker runs the handler of a registration.  Every event a worker
has fetched has been run by the handler of its own registration, is still in the
worker's hands, or was dropped, and it is dropped only when `deregister` had been called
for its registration; between two batches a worker has nothing in its hands.  When
`deregister` has returned for a registration, no worker runs its handler, nor has any
called it since. -/
theorem reactor_safe (h : sys.Reaches now) :
    (∀ w w' reg, (works now.2.log w).handling = some reg →
      (works now.2.log w').handling = some reg → w = w') ∧
    (∀ w, (fetched now.2.log w : Multiset Ready) =
      ↑(handled now.2.log w) + ↑(dropped now.2.log w) + ↑(works now.2.log w).inHand) ∧
    (∀ w, BetweenBatches (now.1 (.worker w)) → (works now.2.log w).inHand = []) ∧
    Justified (fun before x => ∀ ev ∈ drops x.2, Begun before ev.session) now.2.log ∧
    (∀ w reg, (works now.2.log w).handling = some reg → ¬ Returned now.2.log reg) ∧
    Justified (fun before x => ∀ ev reg, x.2.1 = .pump ev reg → ¬ Returned before reg)
      now.2.log := by
  obtain ⟨hsafe, hwp⟩ := safe_of_reaches h
  refine ⟨fun w w' reg hw hw' => ?_, hsafe.balanced, fun w hrest => ?_,
    fun before x after hlog => ?_,
    fun w reg hreg => hsafe.serving.not_returned hsafe.tidy hreg, fun before x after hlog => ?_⟩
  · exact hsafe.serving.alone w w' reg (Work.locks_of_handling hw) (Work.locks_of_handling hw')
  · rw [works, work_of_betweenBatches hrest (hwp (.worker w))]
    rfl
  · exact (hsafe.sound before x after hlog).1
  · exact (hsafe.sound before x after hlog).2

/-- A reactor of two workers. -/
abbrev pair : System := ⟨2, 1⟩

abbrev worker₀ : pair.ι := .worker 0

abbrev worker₁ : pair.ι := .worker 1

/-- The first worker fetches an event of descriptor 5 and is slow to look it up: the socket is
closed, and the number goes to a new socket.  The second worker serves an event of the new one,
and when it is done the first worker runs the same handler, for its own event. -/
def staleLog : List (pair.ι × Event) :=
  [(.session 0, ⟨.socket, (5 : Nat)⟩), (.session 0, ⟨.setReg ⟨0, 5⟩, ()⟩),
    (.session 0, ⟨.ctlAdd ⟨0, 5⟩, true⟩), (worker₀, ⟨.epollWait, .ok [⟨5, 0⟩]⟩),
    (.session 0, ⟨.takeReg 5, some ⟨0, 5⟩⟩), (.session 0, ⟨.ctlDel 5, ()⟩),
    (.session 0, ⟨.markDead ⟨0, 5⟩, ()⟩), (.session 0, ⟨.close 5, ()⟩),
    (.session 1, ⟨.socket, (5 : Nat)⟩), (.session 1, ⟨.setReg ⟨1, 5⟩, ()⟩),
    (.session 1, ⟨.ctlAdd ⟨1, 5⟩, true⟩), (worker₁, ⟨.epollWait, .ok [⟨5, 1⟩]⟩),
    (worker₁, ⟨.lookup ⟨5, 1⟩, some ⟨1, 5⟩⟩), (worker₁, ⟨.lock ⟨5, 1⟩ ⟨1, 5⟩, false⟩),
    (worker₀, ⟨.lookup ⟨5, 0⟩, some ⟨1, 5⟩⟩), (worker₁, ⟨.pump ⟨5, 1⟩ ⟨1, 5⟩, true⟩),
    (worker₁, ⟨.rearm 5, true⟩), (worker₁, ⟨.unlock ⟨1, 5⟩, ()⟩),
    (worker₀, ⟨.lock ⟨5, 0⟩ ⟨1, 5⟩, false⟩), (worker₀, ⟨.pump ⟨5, 0⟩ ⟨1, 5⟩, true⟩)]

theorem reaches_stale : ∃ now, pair.Reaches now ∧ now.2.log = staleLog := by
  have h : pair.Reaches (pair.program, pair.init) := .refl
  have h := h.step (i := .session 0) rfl (5 : Nat) ⟨_, ⟨Finset.notMem_empty _, rfl⟩, rfl⟩
  have h := h.step (i := .session 0) rfl () ⟨_, rfl, rfl⟩
  have h := h.step (i := .session 0) rfl true ⟨_, ⟨rfl, rfl⟩, rfl⟩
  have h := h.step (i := worker₀) rfl (.ok [⟨5, 0⟩])
    ⟨_, ⟨by decide, by decide, by simp [init], rfl⟩, rfl⟩
  have h := h.step (i := .session 0) rfl (some ⟨0, 5⟩) ⟨_, ⟨rfl, rfl⟩, rfl⟩
  have h := h.step (i := .session 0) rfl () ⟨_, rfl, rfl⟩
  have h := h.step (i := .session 0) rfl () ⟨_, ⟨rfl, rfl⟩, rfl⟩
  have h := h.step (i := .session 0) rfl () ⟨_, rfl, rfl⟩
  have h := h.step (i := .session 1) rfl (5 : Nat) ⟨_, ⟨by simp, rfl⟩, rfl⟩
  have h := h.step (i := .session 1) rfl () ⟨_, rfl, rfl⟩
  have h := h.step (i := .session 1) rfl true ⟨_, ⟨rfl, rfl⟩, rfl⟩
  have h := h.step (i := worker₁) rfl (.ok [⟨5, 1⟩])
    ⟨_, ⟨by decide, by decide, by simp, rfl⟩, rfl⟩
  have h := h.step (i := worker₁) rfl (some ⟨1, 5⟩) ⟨_, ⟨rfl, rfl⟩, rfl⟩
  have h := h.step (i := worker₁) rfl false ⟨_, ⟨rfl, rfl, rfl⟩, rfl⟩
  have h := h.step (i := worker₀) rfl (some ⟨1, 5⟩) ⟨_, ⟨rfl, rfl⟩, rfl⟩
  have h := h.step (i := worker₁) rfl true ⟨_, rfl, rfl⟩
  have h := h.step (i := worker₁) rfl true ⟨_, ⟨⟨1, false⟩, rfl, rfl⟩, rfl⟩
  have h := h.step (i := worker₁) rfl () ⟨_, rfl, rfl⟩
  have h := h.step (i := worker₀) rfl false ⟨_, ⟨rfl, rfl, rfl⟩, rfl⟩
  have h := h.step (i := worker₀) rfl true ⟨_, rfl, rfl⟩
  exact ⟨_, h, rfl⟩

/-- The first worker runs the handler of the new socket, alone and before it is deregistered. -/
theorem reactor_safe_stale : ∃ now, pair.Reaches now ∧ now.2.log = staleLog ∧
    (∀ w, (works now.2.log w).handling = some ⟨1, 5⟩ → w = 0) ∧ ¬ Returned now.2.log ⟨1, 5⟩ := by
  obtain ⟨now, h, hlog⟩ := reaches_stale
  obtain ⟨halone, -, -, -, hnot, -⟩ := reactor_safe h
  have hhandling : (works now.2.log 0).handling = some ⟨1, 5⟩ := by
    rw [hlog]
    rfl
  exact ⟨now, h, hlog, fun w hw => halone w 0 ⟨1, 5⟩ hw hhandling, hnot 0 ⟨1, 5⟩ hhandling⟩

end System

end Outway.Reactor
