import Outway.Udp.ReactorSafety

/-!
# Outway.Udp.ReactorReuse

Reuse of descriptor numbers.

A worker finds the registration for an event by the descriptor's number, and may have
fetched the event long before.  When the number has gone to a new socket since, the
worker runs the new socket's handler for the old socket's event (`stale_event`).  A
handler runs for its own events only when no worker has a fetched event of the number
waiting at the time the number is registered again (`ownEvents_of_unfetched`).
-/

namespace Outway.Reactor

open Prog

/-- A handler is run for an event of its own registration. -/
def OwnEvent (e : Event) : Prop := ∀ ev reg, e.1 = .pump ev reg → reg = ev.reg

/-- The worker's events lead to their own registrations. -/
structure Owns (regs : Nat → Option Reg) (p : Work) : Prop where
  rest : ∀ ev ∈ p.rest, ∀ reg, regs ev.fd = some reg → reg = ev.reg
  chosen : ∀ ev reg, p.chosen = some (ev, reg) → reg = ev.reg

/-- The operation puts a registration into `regs`. -/
def Op.registers : Op → Bool
  | .setReg _ => true
  | _ => false

namespace System

variable {sys : System} {s t : sys.State} {o : Op} {r : Res o}

/-- A number is registered while no worker has an event of it that it has not looked up. -/
def Unfetched (before : List (sys.ι × Event)) (x : sys.ι × Event) : Prop :=
  ∀ reg, x.2.1 = .setReg reg → ∀ w, ∀ ev ∈ (works before w).rest, ev.fd ≠ reg.fd

/-- The registrations of the epoll set and of `regs` agree. -/
theorem Tidy.eq_reg (h : Tidy s) {ev : Ready} {armed : Bool} {reg : Reg}
    (hev : s.interest ev.fd = some ⟨ev.session, armed⟩) (hreg : s.regs ev.fd = some reg) :
    reg = ev.reg := by
  obtain ⟨hfd, hregistered⟩ := (h.regs ev.fd reg).mp hreg
  have hlisted := h.interest ev.fd _ hev
  have hsession : reg.session = ev.session :=
    h.opened.2 _ _ ev.fd (Phase.uses_of_registered hregistered) (Phase.uses_of_listed hlisted)
  rw [Ready.reg, ← hsession, ← hfd]

/-- What a session has put into `regs`. -/
theorem regs_of_session {p : Phase} {j fd : Nat} {reg : Reg} (hop : p.op j = some o)
    (ht : effect s o r t) (hreg : t.regs fd = some reg) :
    s.regs fd = some reg ∨ ∃ reg', o = .setReg reg' ∧ reg'.fd = fd := by
  have hdelete {fd' : Nat} (h : Function.update s.regs fd' none fd = some reg) :
      s.regs fd = some reg := by
    rw [Function.update_apply] at h
    split_ifs at h
    exact h
  cases p with
  | opened fd' =>
      obtain rfl := Option.some.inj hop
      obtain rfl := ht
      dsimp only at hreg
      by_cases hfd : fd = fd'
      · exact .inr ⟨_, rfl, hfd.symm⟩
      · rw [Function.update_of_ne hfd] at hreg
        exact .inl hreg
  | refused fd' =>
      obtain rfl := Option.some.inj hop
      obtain rfl := ht
      exact .inl (hdelete hreg)
  | live fd' =>
      obtain rfl := Option.some.inj hop
      obtain ⟨-, rfl⟩ := ht
      exact .inl (hdelete hreg)
  | start | removed fd' reg' =>
      obtain rfl := Option.some.inj hop
      obtain ⟨-, rfl⟩ := ht
      exact .inl hreg
  | taken fd' reg' | closing fd' dereg =>
      obtain rfl := Option.some.inj hop
      obtain rfl := ht
      exact .inl hreg
  | set fd' =>
      obtain rfl := Option.some.inj hop
      cases r with
      | true => obtain ⟨-, rfl⟩ := ht; exact .inl hreg
      | false => obtain rfl := ht; exact .inl hreg
  | closed fd' dereg => simp [Phase.op] at hop

/-- A registration leads no event of another socket astray, if none is waiting to be looked up. -/
theorem owns_session {j : Nat} {p : Work} (h : Owns s.regs p)
    (hp : sessionPermits j (Threads.own s.log (.session j)) o) (ht : effect s o r t)
    (hfree : ∀ reg, o = .setReg reg → ∀ ev ∈ p.rest, ev.fd ≠ reg.fd) : Owns t.regs p := by
  refine ⟨fun ev hev reg hreg => ?_, h.chosen⟩
  have hop : (phases s.log j).op j = some o := hp
  obtain hreg | ⟨reg', ho, hfd⟩ := regs_of_session hop ht hreg
  · exact h.rest ev hev reg hreg
  · exact absurd hfd.symm (hfree reg' ho ev hev)

/-- A worker finds the registration of the event in hand. -/
theorem owns_worker {p : Work} (h : Owns s.regs p) (htidy : Tidy s) (hp : p.Allows o)
    (ht : effect s o r t) : Owns s.regs (p.next ⟨o, r⟩) := by
  obtain ⟨rest, doing⟩ := p
  cases o with
  | epollWait =>
      cases r with
      | error err => exact h
      | ok events =>
          obtain ⟨-, -, hready, -⟩ := ht
          exact ⟨fun ev hev reg hreg => htidy.eq_reg (hready ev hev) hreg, nofun⟩
  | lookup ev =>
      obtain ⟨rfl, -⟩ := ht
      obtain ⟨rest', heq⟩ := hp
      obtain ⟨rfl, rfl⟩ := Work.mk.inj heq
      have hrest (ev' : Ready) (hev' : ev' ∈ rest') := h.rest ev' (List.mem_cons_of_mem _ hev')
      cases hfound : s.regs ev.fd with
      | none => exact ⟨hrest, nofun⟩
      | some reg =>
          refine ⟨hrest, fun ev' reg' hchosen => ?_⟩
          obtain ⟨rfl, rfl⟩ := Prod.mk.inj (Option.some.inj hchosen)
          exact h.rest ev List.mem_cons_self reg hfound
  | lock ev reg =>
      obtain rfl : doing = .found ev reg := hp
      cases r with
      | true => exact ⟨h.rest, nofun⟩
      | false => exact ⟨h.rest, h.chosen⟩
  | pump ev reg | unlock reg => exact ⟨h.rest, nofun⟩
  | rearm fd => exact h
  | _ => exact hp.elim

/-- A worker does not write `regs`. -/
theorem regs_of_worker {p : Work} (hp : p.Allows o) (ht : effect s o r t) : t.regs = s.regs := by
  cases o with
  | epollWait =>
      cases r with
      | error err => obtain rfl := ht; rfl
      | ok events => obtain ⟨-, -, -, rfl⟩ := ht; rfl
  | lookup ev => obtain ⟨-, rfl⟩ := ht; rfl
  | lock ev reg => obtain ⟨-, -, rfl⟩ := ht; rfl
  | pump ev reg | unlock reg => obtain rfl := ht; rfl
  | rearm fd =>
      cases r with
      | false => obtain rfl := ht; rfl
      | true => obtain ⟨e, -, rfl⟩ := ht; rfl
  | _ => exact hp.elim

/-- All events lead, and have led, to their own registrations. -/
structure Owned (s : sys.State) : Prop where
  owns : ∀ w, Owns s.regs (works s.log w)
  log : ∀ x ∈ s.log, OwnEvent x.2

/-- One more entry. -/
theorem Owned.concat {i : sys.ι} {e : Event} (h : Owned s)
    (howns : ∀ w, Owns t.regs (works (s.log ++ [(i, e)]) w)) (he : OwnEvent e) :
    Owned { t with log := s.log ++ [(i, e)] } := by
  refine ⟨howns, fun x hx => ?_⟩
  obtain hx | hx := List.mem_append.mp hx
  · exact h.log x hx
  · rwa [List.mem_singleton.mp hx]

theorem owned_step {i : sys.ι} {s' : sys.State} (h : Owned s) (htidy : Tidy s)
    (hp : sys.permits i (Threads.own s.log i) o) (ha : act i s o r s')
    (hfree : Unfetched s.log (i, ⟨o, r⟩)) : Owned s' := by
  obtain ⟨t, ht, rfl⟩ := ha
  cases i with
  | worker w =>
      have hallows : (works s.log w).Allows o := hp
      refine h.concat (fun v => ?_) fun ev reg ho => ?_
      · rw [regs_of_worker hallows ht, works_concat_worker]
        by_cases hvw : v = w
        · subst hvw
          rw [Function.update_self]
          exact owns_worker (h.owns v) htidy hallows ht
        · rw [Function.update_of_ne hvw]
          exact h.owns v
      · subst ho
        refine (h.owns w).chosen ev reg ?_
        rw [Work.chosen, show (works s.log w).doing = _ from hallows]
  | session j =>
      have hop : (phases s.log j).op j = some o := hp
      refine h.concat (fun w => ?_) fun ev reg ho => ?_
      · rw [works_concat_session]
        exact owns_session (h.owns w) hp ht fun reg ho => hfree reg ho w
      · subst ho
        cases hphase : phases s.log j <;> simp [hphase, Phase.op] at hop

theorem owned_init : Owned sys.init :=
  ⟨fun _ => ⟨nofun, nofun⟩, fun _ hx => absurd hx List.not_mem_nil⟩

variable {now : (sys.ι → Proc Unit) × sys.State}

/-- **No stale events.**  In every run that registers a number only while no worker has a
fetched event of that number left to look up, a handler is run only for events of its
own registration. -/
theorem ownEvents_of_unfetched (h : sys.Reaches now) (hfree : Justified Unfetched now.2.log) :
    ∀ x ∈ now.2.log, OwnEvent x.2 := by
  have howned := (Threads.logged State.log log_of_act sys.permits sys.post
    (fun s => Safe s ∧ (Justified Unfetched s.log → Owned s))
    (fun {i s o r s'} ⟨hsafe, howned⟩ hp ha => by
      refine ⟨safe_step hsafe hp ha, fun hfree => ?_⟩
      rw [log_of_act ha] at hfree
      exact owned_step (howned (hfree.initial (List.prefix_append _ _))) hsafe.tidy hp ha
        (hfree s.log _ [] rfl))
    rfl ⟨safe_init, fun _ => owned_init⟩ sys.wp_program h).1.2
  exact (howned hfree).log

/-- One worker serves an event of descriptor 5.  The socket is closed, the number goes to a new
socket, and the other worker serves an event of that. -/
def servedLog : List (pair.ι × Event) :=
  [(.session 0, ⟨.socket, (5 : Nat)⟩), (.session 0, ⟨.setReg ⟨0, 5⟩, ()⟩),
    (.session 0, ⟨.ctlAdd ⟨0, 5⟩, true⟩), (worker₀, ⟨.epollWait, .ok [⟨5, 0⟩]⟩),
    (worker₀, ⟨.lookup ⟨5, 0⟩, some ⟨0, 5⟩⟩), (worker₀, ⟨.lock ⟨5, 0⟩ ⟨0, 5⟩, false⟩),
    (worker₀, ⟨.pump ⟨5, 0⟩ ⟨0, 5⟩, true⟩), (worker₀, ⟨.rearm 5, true⟩),
    (worker₀, ⟨.unlock ⟨0, 5⟩, ()⟩), (.session 0, ⟨.takeReg 5, some ⟨0, 5⟩⟩),
    (.session 0, ⟨.ctlDel 5, ()⟩), (.session 0, ⟨.markDead ⟨0, 5⟩, ()⟩),
    (.session 0, ⟨.close 5, ()⟩), (.session 1, ⟨.socket, (5 : Nat)⟩),
    (.session 1, ⟨.setReg ⟨1, 5⟩, ()⟩), (.session 1, ⟨.ctlAdd ⟨1, 5⟩, true⟩),
    (worker₁, ⟨.epollWait, .ok [⟨5, 1⟩]⟩), (worker₁, ⟨.lookup ⟨5, 1⟩, some ⟨1, 5⟩⟩),
    (worker₁, ⟨.lock ⟨5, 1⟩ ⟨1, 5⟩, false⟩), (worker₁, ⟨.pump ⟨5, 1⟩ ⟨1, 5⟩, true⟩)]

theorem reaches_served : ∃ now, pair.Reaches now ∧ now.2.log = servedLog := by
  have h : pair.Reaches (pair.program, pair.init) := .refl
  have h := h.step (i := .session 0) rfl (5 : Nat) ⟨_, ⟨Finset.notMem_empty _, rfl⟩, rfl⟩
  have h := h.step (i := .session 0) rfl () ⟨_, rfl, rfl⟩
  have h := h.step (i := .session 0) rfl true ⟨_, ⟨rfl, rfl⟩, rfl⟩
  have h := h.step (i := worker₀) rfl (.ok [⟨5, 0⟩])
    ⟨_, ⟨by decide, by decide, by simp [init], rfl⟩, rfl⟩
  have h := h.step (i := worker₀) rfl (some ⟨0, 5⟩) ⟨_, ⟨rfl, rfl⟩, rfl⟩
  have h := h.step (i := worker₀) rfl false ⟨_, ⟨rfl, rfl, rfl⟩, rfl⟩
  have h := h.step (i := worker₀) rfl true ⟨_, rfl, rfl⟩
  have h := h.step (i := worker₀) rfl true ⟨_, ⟨⟨0, false⟩, rfl, rfl⟩, rfl⟩
  have h := h.step (i := worker₀) rfl () ⟨_, rfl, rfl⟩
  have h := h.step (i := .session 0) rfl (some ⟨0, 5⟩) ⟨_, ⟨rfl, rfl⟩, rfl⟩
  have h := h.step (i := .session 0) rfl () ⟨_, rfl, rfl⟩
  have h := h.step (i := .session 0) rfl () ⟨_, ⟨rfl, rfl⟩, rfl⟩
  have h := h.step (i := .session 0) rfl () ⟨_, rfl, rfl⟩
  have h := h.step (i := .session 1) rfl (5 : Nat) ⟨_, ⟨by simp, rfl⟩, rfl⟩
  have h := h.step (i := .session 1) rfl () ⟨_, rfl, rfl⟩
  have h := h.step (i := .session 1) rfl true ⟨_, ⟨rfl, rfl⟩, rfl⟩
  have h := h.step (i := worker₁) rfl (.ok [⟨5, 1⟩])
    ⟨_, ⟨by decide, by decide, by simp, rfl⟩, rfl⟩
  have h := h.step (i := worker₁) rfl (some ⟨1, 5⟩) ⟨_, ⟨rfl, rfl⟩, rfl⟩
  have h := h.step (i := worker₁) rfl false ⟨_, ⟨rfl, rfl, rfl⟩, rfl⟩
  have h := h.step (i := worker₁) rfl true ⟨_, rfl, rfl⟩
  exact ⟨_, h, rfl⟩

/-- Both registrations of descriptor 5 find the workers without an event. -/
theorem unfetched_served : Justified Unfetched servedLog := by
  intro before x after hlog reg hreg w ev hev
  have hx : servedLog[before.length]? = some x := by simp [hlog]
  have hbefore : before = servedLog.take before.length := by simp [hlog]
  have hset : ∀ n < servedLog.length, (servedLog[n]?.any fun x => x.2.1.registers) = true →
      n = 1 ∨ n = 14 := by decide
  have hidle : ∀ n ∈ [1, 14], ∀ w, (works (servedLog.take n) w).rest = [] := by decide
  have hn := hset before.length (by simp [hlog]) (by rw [hx]; simp [hreg, Op.registers])
  rw [hbefore, hidle before.length (by simpa using hn) w] at hev
  exact absurd hev List.not_mem_nil

/-- Both workers run the handlers of their own events, although the number was used twice. -/
theorem ownEvents_of_unfetched_served : ∃ now, pair.Reaches now ∧ now.2.log = servedLog ∧
    Justified Unfetched now.2.log ∧ ∀ x ∈ now.2.log, OwnEvent x.2 := by
  obtain ⟨now, h, hlog⟩ := reaches_served
  have hfree : Justified Unfetched now.2.log := by
    rw [hlog]
    exact unfetched_served
  exact ⟨now, h, hlog, hfree, ownEvents_of_unfetched h hfree⟩

/-- A worker runs the handler of session 1 for an event of session 0. -/
theorem stale_event : ∃ now, pair.Reaches now ∧ now.2.log = staleLog ∧
    ¬ ∀ x ∈ now.2.log, OwnEvent x.2 := by
  obtain ⟨now, h, hlog⟩ := reaches_stale
  refine ⟨now, h, hlog, fun hown => ?_⟩
  rw [hlog] at hown
  have hpump := hown (worker₀, ⟨.pump ⟨5, 0⟩ ⟨1, 5⟩, true⟩) (by simp [staleLog])
  exact absurd (hpump _ _ rfl) (by decide)

end System

end Outway.Reactor
