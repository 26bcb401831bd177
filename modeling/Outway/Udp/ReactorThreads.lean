import Outway.Udp.Reactor

/-!
# Outway.Udp.ReactorThreads

What the threads of the reactor do, one at a time.

`Phase` is how far a session is and `Work` what a worker has in hand, both read off
the thread's own entries in the log; `wp_program` says that the threads' programs
follow them.
-/

namespace Outway.Reactor

open Prog

/-! ## Sessions -/

/-- How far a session is. -/
inductive Phase where
  | start
  | opened (fd : Nat)
  /-- in `regs`, not in the epoll set yet -/
  | set (fd : Nat)
  /-- registered -/
  | live (fd : Nat)
  /-- `EPOLL_CTL_ADD` has failed -/
  | refused (fd : Nat)
  /-- `deregister` has begun -/
  | taken (fd : Nat) (reg : Option Reg)
  | removed (fd : Nat) (reg : Reg)
  /-- off the reactor; `dereg` tells whether by `deregister` -/
  | closing (fd : Nat) (dereg : Bool)
  | closed (fd : Nat) (dereg : Bool)
  deriving DecidableEq

namespace Phase

def next : Phase → Event → Phase
  | .start, ⟨.socket, fd⟩ => .opened fd
  | .opened fd, ⟨.setReg _, _⟩ => .set fd
  | .set fd, ⟨.ctlAdd _, true⟩ => .live fd
  | .set fd, ⟨.ctlAdd _, false⟩ => .refused fd
  | .refused fd, ⟨.delReg _, _⟩ => .closing fd false
  | .live fd, ⟨.takeReg _, reg⟩ => .taken fd reg
  | .taken fd none, ⟨.ctlDel _, _⟩ => .closing fd true
  | .taken fd (some reg), ⟨.ctlDel _, _⟩ => .removed fd reg
  | .removed fd _, ⟨.markDead _, _⟩ => .closing fd true
  | .closing fd dereg, ⟨.close _, _⟩ => .closed fd dereg
  | p, _ => p

/-- The next operation of session `j`. -/
def op (j : Nat) : Phase → Option Op
  | .start => some .socket
  | .opened fd => some (.setReg ⟨j, fd⟩)
  | .set fd => some (.ctlAdd ⟨j, fd⟩)
  | .live fd => some (.takeReg fd)
  | .refused fd => some (.delReg fd)
  | .taken fd _ => some (.ctlDel fd)
  | .removed _ reg => some (.markDead reg)
  | .closing fd _ => some (.close fd)
  | .closed _ _ => none

/-- The descriptor of the session's open socket. -/
def uses : Phase → Option Nat
  | .start | .closed _ _ => none
  | .opened fd | .set fd | .live fd | .refused fd | .taken fd _ | .removed fd _ | .closing fd _ =>
      some fd

/-- Where the session is in `regs`. -/
def registered : Phase → Option Nat
  | .set fd | .live fd | .refused fd => some fd
  | _ => none

/-- Where the session may be in the epoll set. -/
def listed : Phase → Option Nat
  | .live fd | .taken fd _ => some fd
  | _ => none

/-- `deregister` has been called. -/
def begun : Phase → Bool
  | .taken _ _ | .removed _ _ | .closing _ true | .closed _ true => true
  | _ => false

/-- The descriptor for which `deregister` has returned. -/
def returned : Phase → Option Nat
  | .closing fd true | .closed fd true => some fd
  | _ => none

/-- The registration that `deregister` has found is the session's own. -/
def Fits (j : Nat) : Phase → Prop
  | .taken fd reg => reg = some ⟨j, fd⟩
  | .removed fd reg => reg = ⟨j, fd⟩
  | _ => True

variable {p : Phase} {fd : Nat}

/-- Who is registered has an open socket. -/
theorem uses_of_registered (h : p.registered = some fd) : p.uses = some fd := by
  cases p <;> simp_all [registered, uses]

/-- So has who is in the epoll set. -/
theorem uses_of_listed (h : p.listed = some fd) : p.uses = some fd := by
  cases p <;> simp_all [listed, uses]

/-- A call that has returned has begun. -/
theorem begun_of_returned (h : p.returned = some fd) : p.begun = true := by
  fun_cases begun p <;> simp_all [returned]

/-- A call of `deregister` is not undone. -/
theorem begun_next {j : Nat} {e : Event} (hop : p.op j = some e.1) (h : p.begun = true) :
    (p.next e).begun = true := by
  obtain ⟨o, r⟩ := e
  cases p with
  | taken fd reg =>
      obtain rfl : Op.ctlDel fd = o := Option.some.inj hop
      cases reg <;> rfl
  | removed fd reg =>
      obtain rfl : Op.markDead reg = o := Option.some.inj hop
      rfl
  | closing fd dereg =>
      obtain rfl : Op.close fd = o := Option.some.inj hop
      cases dereg
      · simp [begun] at h
      · rfl
  | closed fd dereg => simp [Phase.op] at hop
  | _ => simp [begun] at h

/-- A session whose events may be in a worker's hands: it is registered, or `deregister` has
been called since. -/
def Current (fd : Nat) (p : Phase) : Prop := p = .live fd ∨ p.begun = true

/-- Events come only for sessions that are registered. -/
theorem current_of_listed (h : p.listed = some fd) : p.Current fd := by
  cases p <;> simp_all [listed, begun, Current]

/-- And such a session is not registered a second time. -/
theorem Current.next {j : Nat} {e : Event} (hop : p.op j = some e.1) (h : p.Current fd) :
    (p.next e).Current fd := by
  obtain rfl | h := h
  · obtain ⟨o, r⟩ := e
    obtain rfl : Op.takeReg fd = o := Option.some.inj hop
    exact .inr rfl
  · exact .inr (begun_next hop h)

end Phase

/-- How far a session is after its entries. -/
def sessionPhase (es : List Event) : Phase := es.foldl Phase.next .start

@[simp] theorem sessionPhase_concat (es : List Event) (e : Event) :
    sessionPhase (es ++ [e]) = (sessionPhase es).next e := by
  simp [sessionPhase]

def sessionPermits (j : Nat) (es : List Event) (o : Op) : Prop := (sessionPhase es).op j = some o

section Session

variable {j fd : Nat} {es : List Event}

/-- What a session may do is what its phase says. -/
theorem sessionPermits_of {p : Phase} {o : Op} (hes : sessionPhase es = p) (ho : p.op j = some o) :
    sessionPermits j es o := by
  rw [sessionPermits, hes, ho]

theorem sessionPhase_of_next {p p' : Phase} (hes : sessionPhase es = p) (e : Event)
    (hp : p.next e = p') : sessionPhase (es ++ [e]) = p' := by
  rw [sessionPhase_concat, hes, hp]

/-- `register` leaves the session registered, or undoes what it did. -/
theorem wp_register (hes : sessionPhase es = .opened fd) :
    (register ⟨j, fd⟩).wp (Contract.logging (sessionPermits j)) es fun ok es' =>
      sessionPhase es' = if ok then .live fd else .closing fd false := by
  refine wp_bind.mpr (wp_op (sessionPermits_of hes rfl) fun _ => ?_)
  have hset := sessionPhase_of_next hes ⟨.setReg ⟨j, fd⟩, ()⟩ rfl
  refine wp_bind.mpr (wp_op (sessionPermits_of hset rfl) fun ok => ?_)
  cases ok with
  | true => exact sessionPhase_of_next hset ⟨.ctlAdd ⟨j, fd⟩, true⟩ rfl
  | false =>
      have hrefused := sessionPhase_of_next hset ⟨.ctlAdd ⟨j, fd⟩, false⟩ rfl
      exact wp_bind.mpr (wp_op (sessionPermits_of hrefused rfl) fun _ =>
        sessionPhase_of_next hrefused _ rfl)

/-- `deregister` takes the session out of `regs` and of the epoll set, and marks it dead. -/
theorem wp_deregister (hes : sessionPhase es = .live fd) :
    (deregister fd).wp (Contract.logging (sessionPermits j)) es fun _ es' =>
      sessionPhase es' = .closing fd true := by
  refine wp_bind.mpr (wp_op (sessionPermits_of hes rfl) fun reg => ?_)
  have htaken := sessionPhase_of_next hes ⟨.takeReg fd, reg⟩ rfl
  refine wp_bind.mpr (wp_op (sessionPermits_of htaken rfl) fun _ => ?_)
  cases reg with
  | none => exact sessionPhase_of_next htaken ⟨.ctlDel fd, ()⟩ rfl
  | some reg =>
      have hremoved := sessionPhase_of_next htaken ⟨.ctlDel fd, ()⟩ rfl
      exact wp_op (sessionPermits_of hremoved rfl) fun _ => sessionPhase_of_next hremoved _ rfl

/-- A session ends with its socket closed. -/
theorem wp_session (j : Nat) : (session j).wp (Contract.logging (sessionPermits j)) []
    fun _ es => ∃ fd dereg, sessionPhase es = .closed fd dereg := by
  refine wp_bind.mpr (wp_op rfl fun fd => ?_)
  have hclose {es : List Event} {dereg : Bool} (hes : sessionPhase es = .closing fd dereg) :
      (Reactor.op (.close fd)).wp (Contract.logging (sessionPermits j)) es fun _ es' =>
        ∃ fd dereg, sessionPhase es' = .closed fd dereg :=
    wp_op (sessionPermits_of hes rfl) fun _ => ⟨fd, dereg, sessionPhase_of_next hes _ rfl⟩
  refine wp_seq (wp_register rfl) fun ok es hes => ?_
  cases ok with
  | false => exact hclose hes
  | true => exact wp_seq (wp_deregister hes) fun _ _ hes => hclose hes

end Session

/-! ## Workers -/

/-- The registration the event was generated for. -/
def Ready.reg (ev : Ready) : Reg := ⟨ev.session, ev.fd⟩

/-- What a worker does with the event in hand. -/
inductive Doing where
  | idle
  /-- it has looked up a registration -/
  | found (ev : Ready) (reg : Reg)
  /-- it has the lock, and the registration is alive -/
  | held (ev : Ready) (reg : Reg)
  /-- the handler was called -/
  | ran (reg : Reg)
  /-- it has the lock, and the registration is dead -/
  | skipped (reg : Reg)
  deriving DecidableEq

/-- What a worker has in hand. -/
structure Work where
  /-- the fetched events it has not looked up -/
  rest : List Ready
  doing : Doing
  deriving DecidableEq

namespace Work

def next (p : Work) : Event → Work
  | ⟨.epollWait, .ok events⟩ => ⟨events, .idle⟩
  | ⟨.lookup _, none⟩ => ⟨p.rest.tail, .idle⟩
  | ⟨.lookup ev, some reg⟩ => ⟨p.rest.tail, .found ev reg⟩
  | ⟨.lock ev reg, false⟩ => { p with doing := .held ev reg }
  | ⟨.lock _ reg, true⟩ => { p with doing := .skipped reg }
  | ⟨.pump _ reg, _⟩ => { p with doing := .ran reg }
  | ⟨.unlock _, _⟩ => { p with doing := .idle }
  | _ => p

/-- What the worker may do next. -/
def Allows (p : Work) : Op → Prop
  | .epollWait => p = ⟨[], .idle⟩
  | .lookup ev => ∃ rest, p = ⟨ev :: rest, .idle⟩
  | .lock ev reg => p.doing = .found ev reg
  | .pump ev reg => p.doing = .held ev reg
  | .rearm fd => ∃ reg, p.doing = .ran reg ∧ reg.fd = fd
  | .unlock reg => p.doing = .ran reg ∨ p.doing = .skipped reg
  | _ => False

/-- The registration whose lock the worker has. -/
def locks (p : Work) : Option Reg :=
  match p.doing with
  | .held _ reg | .ran reg | .skipped reg => some reg
  | _ => none

/-- The registration whose handler the worker is running. -/
def handling (p : Work) : Option Reg :=
  match p.doing with
  | .held _ reg | .ran reg => some reg
  | _ => none

/-- The registration the worker has looked up for an event whose handler it has not called yet. -/
def chosen (p : Work) : Option (Ready × Reg) :=
  match p.doing with
  | .found ev reg | .held ev reg => some (ev, reg)
  | _ => none

/-- The fetched events that may still reach their own registration. -/
def inHand (p : Work) : List Ready :=
  match p.chosen with
  | some (ev, reg) => if reg = ev.reg then ev :: p.rest else p.rest
  | none => p.rest

/-- A handler runs under the lock of its registration. -/
theorem locks_of_handling {p : Work} {reg : Reg} (h : p.handling = some reg) :
    p.locks = some reg := by
  obtain ⟨rest, doing⟩ := p
  cases doing <;> simp_all [handling, locks]

end Work

/-- What a worker has in hand after its entries. -/
def work (es : List Event) : Work := es.foldl Work.next ⟨[], .idle⟩

@[simp] theorem work_concat (es : List Event) (e : Event) :
    work (es ++ [e]) = (work es).next e := by
  simp [work]

def workerPermits (es : List Event) (o : Op) : Prop := (work es).Allows o

section Worker

variable {es : List Event} {rest : List Ready} {ev : Ready} {reg : Reg}

theorem work_of_next {p p' : Work} (hes : work es = p) (e : Event) (hp : p.next e = p') :
    work (es ++ [e]) = p' := by
  rw [work_concat, hes, hp]

/-- The handler pumps, and re-arms the descriptor if there may be more. -/
theorem wp_handler (hes : work es = ⟨rest, .held ev reg⟩) :
    (handler ev reg).wp (Contract.logging workerPermits) es fun _ es' =>
      work es' = ⟨rest, .ran reg⟩ := by
  refine wp_bind.mpr (wp_op (congrArg Work.doing hes) fun again => ?_)
  have hran := work_of_next hes ⟨.pump ev reg, again⟩ rfl
  cases again with
  | false => exact hran
  | true =>
      exact wp_bind.mpr (wp_op ⟨reg, congrArg Work.doing hran, rfl⟩ fun _ =>
        work_of_next hran _ rfl)

/-- One event of the batch. -/
theorem wp_serve (hes : work es = ⟨ev :: rest, .idle⟩) :
    (serve ev).wp (Contract.logging workerPermits) es fun _ es' => work es' = ⟨rest, .idle⟩ := by
  refine wp_bind.mpr (wp_op ⟨rest, hes⟩ fun found => ?_)
  cases found with
  | none => exact work_of_next hes ⟨.lookup ev, none⟩ rfl
  | some reg =>
      have hfound := work_of_next hes ⟨.lookup ev, some reg⟩ rfl
      refine wp_bind.mpr (wp_op (congrArg Work.doing hfound) fun dead => ?_)
      have hunlock {es : List Event} {doing : Doing} (hes : work es = ⟨rest, doing⟩)
          (hdoing : doing = .ran reg ∨ doing = .skipped reg) :
          (op (.unlock reg)).wp (Contract.logging workerPermits) es fun _ es' =>
            work es' = ⟨rest, .idle⟩ := by
        refine wp_op ?_ fun _ => work_of_next hes _ rfl
        show (work es).doing = _ ∨ (work es).doing = _
        rwa [hes]
      cases dead with
      | true => exact hunlock (work_of_next hfound ⟨.lock ev reg, true⟩ rfl) (.inr rfl)
      | false =>
          have hheld := work_of_next hfound ⟨.lock ev reg, false⟩ rfl
          exact wp_seq (wp_handler hheld) fun _ _ hran => hunlock hran (.inl rfl)

/-- A round serves all its events before the next wait. -/
theorem wp_loop (rounds : Nat) (hes : work es = ⟨[], .idle⟩) :
    (loop rounds).wp (Contract.logging workerPermits) es fun _ es' => work es' = ⟨[], .idle⟩ := by
  refine wp_iterate (fun _ es => work es = ⟨[], .idle⟩) (fun _ _ h => h) (fun _ es hes => ?_) hes
  refine wp_bind.mpr (wp_op hes fun r => ?_)
  cases r with
  | error err =>
      have hsame := work_of_next hes ⟨.epollWait, .error err⟩ rfl
      cases err <;> exact hsame
  | ok events =>
      have hfetched := work_of_next hes ⟨.epollWait, .ok events⟩ rfl
      refine wp_seq (wp_forM (fun rest es => work es = ⟨rest, .idle⟩)
        (fun _ _ _ h => wp_serve h) hfetched) fun _ _ h => h

end Worker

/-! ## Fetched events -/

/-- The events that an entry of a worker fetches. -/
def fetches : Event → List Ready
  | ⟨.epollWait, .ok events⟩ => events
  | _ => []

/-- The event whose own registration's handler an entry runs. -/
def handles : Event → List Ready
  | ⟨.pump ev reg, _⟩ => if reg = ev.reg then [ev] else []
  | _ => []

/-- The event that an entry keeps from its registration's handler. -/
def drops : Event → List Ready
  | ⟨.lookup ev, found⟩ => if found = some ev.reg then [] else [ev]
  | ⟨.lock ev reg, true⟩ => if reg = ev.reg then [ev] else []
  | _ => []

/-- Every event that was fetched is still in hand, or it was run or dropped. -/
def Balanced (es : List Event) : Prop :=
  (es.flatMap fetches : Multiset Ready) =
    ↑(es.flatMap handles) + ↑(es.flatMap drops) + ↑(work es).inHand

/-- What one entry does with the events. -/
theorem Work.balance {p : Work} {e : Event} (h : p.Allows e.1) :
    (fetches e : Multiset Ready) + ↑p.inHand = ↑(handles e) + ↑(drops e) + ↑(p.next e).inHand := by
  obtain ⟨o, r⟩ := e
  cases o with
  | epollWait =>
      obtain rfl := h
      cases r <;> simp [fetches, handles, drops, next, inHand, chosen]
  | lookup ev =>
      obtain ⟨rest, rfl⟩ := h
      cases r with
      | none => simp [fetches, handles, drops, next, inHand, chosen]
      | some reg =>
          by_cases hreg : reg = ev.reg <;>
            simp [fetches, handles, drops, next, inHand, chosen, hreg]
  | lock ev reg =>
      obtain ⟨rest, doing⟩ := p
      obtain rfl : doing = .found ev reg := h
      by_cases hreg : reg = ev.reg <;> cases r <;>
        simp [fetches, handles, drops, next, inHand, chosen, hreg]
  | pump ev reg =>
      obtain ⟨rest, doing⟩ := p
      obtain rfl : doing = .held ev reg := h
      by_cases hreg : reg = ev.reg <;> simp [fetches, handles, drops, next, inHand, chosen, hreg]
  | rearm fd => simp [fetches, handles, drops, next]
  | unlock reg =>
      obtain ⟨rest, doing⟩ := p
      obtain rfl | rfl : doing = .ran reg ∨ doing = .skipped reg := h <;>
        simp [fetches, handles, drops, next, inHand, chosen]
  | _ => exact h.elim

theorem balanced_nil : Balanced [] := rfl

/-- One more entry of a worker. -/
theorem Balanced.concat {es : List Event} {e : Event} (h : Balanced es)
    (hok : workerPermits es e.1) : Balanced (es ++ [e]) := by
  have hstep := Work.balance hok
  simp only [Balanced, List.flatMap_append, List.flatMap_singleton, work_concat,
    ← Multiset.coe_add] at h ⊢
  rw [h, add_assoc, add_comm _ (fetches e : Multiset Ready), hstep]
  abel

/-! ## All threads -/

namespace System

variable (sys : System)

/-- What a thread may do after its entries. -/
def permits : sys.ι → List Event → Op → Prop
  | .worker _ => workerPermits
  | .session j => sessionPermits j

/-- How a thread ends. -/
def post : sys.ι → List Event → Prop
  | .worker _, es => work es = ⟨[], .idle⟩
  | .session _, es => ∃ fd dereg, sessionPhase es = .closed fd dereg

/-- Every thread keeps to its part. -/
theorem wp_program (i : sys.ι) :
    (sys.program i).wp (Contract.logging (sys.permits i)) [] fun _ es => sys.post i es := by
  cases i with
  | worker w => exact wp_loop sys.rounds rfl
  | session j => exact wp_session j

end System

end Outway.Reactor
