import Outway.Lib.Interp
import Outway.Serverbase.Shutdown

/-!
# Outway.Serverbase.Lifecycle

A server from `Start` to the end of `Close`.

`Start` adds every accept loop to the wait group `s.wg` before it starts it, an accept
loop adds every handler, and each takes itself off when it ends.  `Close` is called from
other goroutines, any number of times and at any moment, also before `Start` has come to
its first loop; one call does the work and then waits for the group, for a limited time.

The threads are those of `Serverbase.Accept` with the calls that module leaves out: the
`go` of an accept loop is preceded by `wg.Add`, and every goroutine ends with `wg.Done`.
What a call of `Add` or `Done` is for is part of the operation; the counter does not look
at it.
-/

namespace Outway.Serverbase

open Prog

/-- A server's life. -/
structure Lifecycle where
  /-- `ctx.Concurrent` -/
  max : UInt32
  /-- `len(s.extraListeners)` -/
  extra : Nat
  /-- how far the accept loops are followed -/
  rounds : Nat
  /-- `Close` waits for UDP workers too: all servers but the HTTP server -/
  udp : Bool

namespace Lifecycle

/-! ## Operations -/

/-- What a goroutine is in the wait group for. -/
inductive Task (listeners : Nat) where
  | acceptLoop (ln : Fin listeners)
  | handler (conn : Conn)
  deriving DecidableEq

/-- `errors.Join(connectionErr, listenerErr, waitErr)`. -/
structure CloseErr where
  connections : List IoError
  listeners : List IoError
  /-- the handlers did not stop before the timeout -/
  handlers : Bool
  /-- the UDP workers did not -/
  workers : Bool
  deriving DecidableEq

/-- What the threads do, one atomic step each. -/
inductive Op (listeners : Nat) where
  /-- an operation of an accept loop, a handler or the first half of `Close` -/
  | base (o : Serverbase.Op)
  | wgAdd (t : Task listeners)
  | wgDone (t : Task listeners)
  /-- the `go` statement of `Start` for an accept loop -/
  | goLoop (ln : Fin listeners)
  /-- the goroutine of an accept loop begins -/
  | beginLoop (ln : Fin listeners)
  /-- `closeOnce.Do`: whether it calls its function; if not, it waits for the call that does -/
  | onceDo
  /-- `s.cancel()` -/
  | cancel
  /-- the `go` statement of `WaitGroupTimeout` -/
  | goWait
  /-- its goroutine begins -/
  | beginWait
  /-- `wg.Wait()`: whether the counter is zero; if not, the goroutine goes to sleep -/
  | wgWait
  /-- the rest of `wg.Wait()`: woken up, it panics unless the counter is zero -/
  | wgWake
  /-- `close(done)` -/
  | closeWaited
  /-- `select { case <-done: case <-time.After(timeout): }` -/
  | selectWaited
  /-- `WaitUDPWorkers` -/
  | waitUdpWorkers
  /-- `s.closeErr = err`, and the return to `closeOnce.Do` -/
  | setCloseErr (err : CloseErr)
  /-- `return s.closeErr` -/
  | closeErr
  deriving DecidableEq

/-- What an operation returns. -/
@[reducible] def Res {listeners : Nat} : Op listeners → Type
  | .base o => Serverbase.Res o
  | .onceDo => Bool
  | .wgWait => Bool
  | .wgWake => Bool
  | .selectWaited => Bool
  | .waitUdpWorkers => Bool
  | .closeErr => CloseErr
  | _ => Unit

variable (life : Lifecycle)

/-- The number of listeners. -/
abbrev listeners : Nat := life.extra + 1

/-- The accept loop that `Start` runs itself. -/
abbrev startLoop : Task life.listeners := .acceptLoop 0

/-- The accept loops, the handlers and the shutdown of the server. -/
abbrev server : Server := ⟨life.max, life.listeners, life.rounds⟩

abbrev Event : Type := Prog.Event (Op life.listeners) Res

/-- The code of the server. -/
abbrev Proc (α : Type) : Type := Prog (Op life.listeners) Res α

variable {life}

/-- Perform one operation. -/
def op (o : Op life.listeners) : life.Proc (Res o) := .step o .ret

/-! ## The goroutines -/

/-- An operation of an accept loop: the handler's `go` comes after `s.wg.Add(1)`. -/
def withAdd : (o : Serverbase.Op) → life.Proc (Serverbase.Res o)
  | .go conn => do
      op (.wgAdd (.handler conn))
      op (.base (.go conn))
  | o => op (.base o)

/-- An operation of a handler or of `Close`. -/
def plain (o : Serverbase.Op) : life.Proc (Serverbase.Res o) := op (.base o)

variable (life)

def acceptLoop (ln : Fin life.listeners) : life.Proc Unit :=
  iterate .fault (fun _ => (acceptRound life.server.gate ln).interp withAdd) life.rounds ()

/-- `Start`: the loops of the extra listeners get goroutines, the first one runs here. -/
def start : life.Proc Unit := do
  (List.finRange life.extra).forM fun ln => do
    op (.wgAdd (.acceptLoop ln.succ))
    op (.goLoop ln.succ)
  op (.wgAdd (.acceptLoop 0))
  life.acceptLoop 0
  op (.wgDone (.acceptLoop 0))

/-- The goroutine of an extra listener. -/
def loopRoutine (ln : Fin life.listeners) : life.Proc Unit := do
  op (.beginLoop ln)
  life.acceptLoop ln
  op (.wgDone (.acceptLoop ln))

/-- The goroutine of a connection. -/
def handler (conn : Conn) : life.Proc Unit := do
  (Serverbase.handler life.server.gate conn).interp plain
  op (.wgDone (.handler conn))

/-- The goroutine of `WaitGroupTimeout`. -/
def waiter : life.Proc Unit := do
  op .beginWait
  if ← op .wgWait then op .closeWaited
  else if ← op .wgWake then op .closeWaited
  else .fault

def waitGroupTimeout : life.Proc Bool := do
  op .goWait
  op .selectWaited

/-- The function that `Close` passes to `closeOnce.Do`, up to what it leaves in `s.closeErr`. -/
def shutdown : life.Proc CloseErr := do
  op .cancel
  let connectionErr ← closeAll.interp plain
  let listenerErr ← (closeListeners (List.range life.listeners) []).interp plain
  let stopped ← life.waitGroupTimeout
  let workers ← if life.udp then op .waitUdpWorkers else pure true
  return ⟨connectionErr, listenerErr, !stopped, !workers⟩

def close : life.Proc Unit := do
  if ← op .onceDo then
    let err ← life.shutdown
    op (.setCloseErr err)
    let _ ← op .closeErr
  else
    let _ ← op .closeErr

/-! ## The server -/

/-- The threads of a server: the accept loops, of which the first is the caller of `Start`,
the goroutines of the connections, the callers of `Close`, and the goroutine of
`WaitGroupTimeout`. -/
inductive Thread (listeners : Nat) where
  | acceptLoop (ln : Fin listeners)
  | handler (conn : Conn)
  | closer (n : Nat)
  | waiter
  deriving DecidableEq

/-- The threads of the server. -/
abbrev ι : Type := Thread life.listeners

/-- The program of a thread. -/
def program : life.ι → life.Proc Unit
  | .acceptLoop ln => if ln = 0 then life.start else life.loopRoutine ln
  | .handler conn => life.handler conn
  | .closer _ => life.close
  | .waiter => life.waiter

variable {life} in
/-- Whose part a thread takes in `Serverbase.Accept`. -/
def part : life.ι → Option life.server.ι
  | .acceptLoop ln => some (.acceptLoop ln)
  | .handler conn => some (.handler conn)
  | .closer _ => some .closer
  | .waiter => none

/-- `closeOnce`, with the caller of `Close` that got it and what it left in `s.closeErr`. -/
inductive Once where
  | fresh
  | running (n : Nat)
  | finished (n : Nat) (err : CloseErr)

/-- What the threads share. -/
structure State where
  base : life.server.State
  /-- the counter of `s.wg` -/
  wg : Nat
  /-- a goroutine sleeps in `s.wg.Wait` -/
  asleep : Bool
  /-- it was woken up -/
  woken : Bool
  /-- the accept loops that `Start` gave goroutines -/
  loops : Finset (Fin life.listeners)
  once : Once
  /-- `WaitGroupTimeout` was called -/
  waiting : Bool
  /-- its channel `done` is closed -/
  waited : Bool
  log : List (life.ι × life.Event)

/-- Nothing has happened. -/
def init : life.State where
  base := life.server.init
  wg := 0
  asleep := false
  woken := false
  loops := ∅
  once := .fresh
  waiting := false
  waited := false
  log := []

variable {life}

/-- What an operation of thread `i` does to the shared state, apart from the log. -/
def effect (i : life.ι) (s : life.State) : (o : Op life.listeners) → Res o → life.State → Prop
  | .base o, r, t =>
      ∃ b base, part i = some b ∧ Server.act b s.base o r base ∧ t = { s with base }
  | .wgAdd _, _, t => t = { s with wg := s.wg + 1 }
  | .wgDone _, _, t =>
      -- at zero `Done` wakes up who waits
      0 < s.wg ∧ t = { s with wg := s.wg - 1, asleep := s.asleep && s.wg != 1,
                              woken := s.woken || s.asleep && s.wg == 1 }
  | .goLoop ln, _, t => t = { s with loops := insert ln s.loops }
  | .beginLoop ln, _, t => ln ∈ s.loops ∧ t = s
  | .onceDo, called, t =>
      if called then s.once = .fresh ∧ ∃ n, i = .closer n ∧ t = { s with once := .running n }
      else (∃ n err, s.once = .finished n err) ∧ t = s
  | .cancel, _, t => t = s
  | .goWait, _, t => t = { s with waiting := true }
  | .beginWait, _, t => s.waiting ∧ t = s
  | .wgWait, zero, t =>
      if zero then s.wg = 0 ∧ t = s else 0 < s.wg ∧ t = { s with asleep := true }
  | .wgWake, zero, t => s.woken ∧ (zero ↔ s.wg = 0) ∧ t = s
  | .closeWaited, _, t => t = { s with waited := true }
  | .selectWaited, stopped, t => (stopped → s.waited) ∧ t = s
  | .waitUdpWorkers, _, t => t = s
  | .setCloseErr err, _, t => ∃ n, i = .closer n ∧ t = { s with once := .finished n err }
  | .closeErr, err, t => (∃ n, s.once = .finished n err) ∧ t = s

/-- What an operation of thread `i` does to the shared state. -/
def act (i : life.ι) (s : life.State) (o : Op life.listeners) (r : Res o)
    (s' : life.State) : Prop :=
  ∃ t, effect i s o r t ∧ s' = { t with log := s.log ++ [(i, ⟨o, r⟩)] }

theorem log_of_act {i : life.ι} {s s' : life.State} {o : Op life.listeners} {r : Res o}
    (h : act i s o r s') : s'.log = s.log ++ [(i, ⟨o, r⟩)] := by
  obtain ⟨t, -, rfl⟩ := h
  rfl

variable (life) in
/-- The states of the server's runs: any interleaving of its threads. -/
def Reaches (now : (life.ι → life.Proc Unit) × life.State) : Prop :=
  Threads.Reachable act (life.program, life.init) now

/-! ## What an accept loop may do next -/

/-- The operations of a thread's entries. -/
def ops (es : List life.Event) : List (Op life.listeners) := es.map Sigma.fst

@[simp] theorem ops_concat (es : List life.Event) (e : life.Event) :
    ops (es ++ [e]) = ops es ++ [e.1] := by
  simp [ops]

/-- An entry of `Serverbase.Accept`. -/
def baseEvent : life.Event → Option Serverbase.Event
  | ⟨.base o, r⟩ => some ⟨o, r⟩
  | _ => none

/-- The entries of `Serverbase.Accept` among the entries of a thread. -/
def baseEvents (es : List life.Event) : List Serverbase.Event := es.filterMap baseEvent

@[simp] theorem baseEvents_concat (es : List life.Event) (e : life.Event) :
    baseEvents (es ++ [e]) = baseEvents es ++ (baseEvent e).toList :=
  filterMap_concat _ _ _

/-- The operation is an accept. -/
def isAccept : Serverbase.Op → Bool
  | .accept _ => true
  | _ => false

/-- How often the entries of a thread have accepted, in vain or not. -/
def accepts (es : List life.Event) : Nat :=
  es.countP fun e => match e.1 with
    | .base o => isAccept o
    | _ => false

/-- Whether a handler was added to the wait group and not started yet. -/
def reserve (reserved : Bool) : life.Event → Bool
  | ⟨.wgAdd (.handler _), _⟩ => true
  | ⟨.base (.go _), _⟩ => false
  | _ => reserved

def reserved (es : List life.Event) : Bool := es.foldl reserve false

@[simp] theorem reserved_concat (es : List life.Event) (e : life.Event) :
    reserved (es ++ [e]) = reserve (reserved es) e := by
  simp [reserved]

/-- The entry says that the server shuts down. -/
def tellsEnd : Serverbase.Event → Bool
  | ⟨.accept _, .error err⟩ => err.isClosed
  | ⟨.checkDone, done⟩ => done
  | ⟨.sendTokenOrDone, sent⟩ => !sent
  | _ => false

/-- What the accept loop of a listener may do. -/
def loopPermits (ln : Fin life.listeners) (es : List life.Event) : Op life.listeners → Prop
  | .wgAdd (.handler conn) =>
      reserved es = false ∧ Serverbase.loopPermits life.server.gate (baseEvents es) (.go conn)
  | .base (.go conn) =>
      .wgAdd (.handler conn) ∈ ops es ∧
        Serverbase.loopPermits life.server.gate (baseEvents es) (.go conn)
  | .base o =>
      reserved es = false ∧ Serverbase.loopPermits life.server.gate (baseEvents es) o ∧
        ∀ l, o = .accept l → l = ln
  | .wgDone t =>
      t = .acceptLoop ln ∧ reserved es = false ∧ pending (baseEvents es) = .idle ∧
        ∃ e ∈ baseEvents es, tellsEnd e
  | _ => False

variable (life) in
/-- What the thread of a listener does before its accept loop. -/
def prologue (ln : Fin life.listeners) : List (Op life.listeners) :=
  if ln = 0 then
    (List.finRange life.extra).flatMap (fun ln =>
      [.wgAdd (.acceptLoop ln.succ), .goLoop ln.succ]) ++
      [.wgAdd (.acceptLoop 0)]
  else [.beginLoop ln]

/-- The thread of a listener is in its accept loop. -/
structure Looping (ln : Fin life.listeners) (es : List life.Event) : Prop where
  prologue : life.prologue ln <+: ops es
  not_done : .wgDone (.acceptLoop ln) ∉ ops es

/-- What the thread of a listener may do. -/
def listenerPermits (ln : Fin life.listeners) (es : List life.Event)
    (o : Op life.listeners) : Prop :=
  Scripted (life.prologue ln) es o ∨ Looping ln es ∧ loopPermits ln es o

/-! ## Accept loops keep to it -/

/-- A loop accepts from its own listener only. -/
def OwnListener (ln : Nat) (o : Serverbase.Op) : Prop := ∀ l, o = .accept l → l = ln

theorem only_acquireUntil (g : ConnectionGate) (ln : Nat) :
    g.acquireUntil.Only (OwnListener ln) := by
  have hkeep : ConnectionGate.keepUnlessDone.Only (OwnListener ln) := by
    refine ⟨by simp [OwnListener], fun done => ?_⟩
    cases done with
    | false => trivial
    | true => exact ⟨by simp [OwnListener], fun _ => trivial⟩
  obtain ⟨_ | n⟩ := g
  · exact ⟨by simp [OwnListener], fun _ => trivial⟩
  · refine ⟨by simp [OwnListener], fun sent => ?_⟩
    cases sent with
    | true => exact hkeep
    | false =>
        refine ⟨by simp [OwnListener], fun sent => ?_⟩
        cases sent with
        | true => exact hkeep
        | false => trivial

/-- A round is about its own listener. -/
theorem only_acceptRound (g : ConnectionGate) (ln : Nat) :
    (acceptRound g ln).Only (OwnListener ln) := by
  have hop (o : Serverbase.Op) (ho : ∀ l, o ≠ .accept l) :
    (Serverbase.op o).Only (OwnListener ln) :=
    ⟨fun l hl => absurd hl (ho l), fun _ => trivial⟩
  refine Only.bind ⟨by simp [OwnListener], fun _ => trivial⟩ fun r => ?_
  cases r with
  | error err => trivial
  | ok conn =>
      refine (only_acquireUntil g ln).bind fun ok => ?_
      cases ok with
      | false => exact (hop _ (by simp)).bind fun _ => trivial
      | true =>
          refine (hop _ (by simp)).bind fun added => ?_
          cases added with
          | true => exact (hop _ (by simp)).bind fun _ => trivial
          | false =>
              refine Only.bind ?_ fun _ => (hop _ (by simp)).bind fun _ => trivial
              obtain ⟨_ | n⟩ := g
              · trivial
              · exact hop _ (by simp)

/-- `AcquireUntil` fails only if the server shuts down. -/
theorem wp_acquireUntil_end (g : ConnectionGate) (es : List Serverbase.Event) :
    g.acquireUntil.wp (Contract.logging fun _ _ => True) es
      fun ok es' => ok = false → ∃ e ∈ es', tellsEnd e := by
  have hkeep (es : List Serverbase.Event) :
      ConnectionGate.keepUnlessDone.wp (Contract.logging fun _ _ => True) es
        fun ok es' => ok = false → ∃ e ∈ es', tellsEnd e := by
    refine wp_bind.mpr (wp_op trivial fun done => ?_)
    cases done with
    | false => simp
    | true =>
        refine wp_bind.mpr (wp_op trivial fun _ _ => ⟨⟨.checkDone, true⟩, by simp, rfl⟩)
  obtain ⟨_ | n⟩ := g
  · refine wp_bind.mpr (wp_op trivial fun done hdone => ⟨⟨.checkDone, done⟩, by simp, ?_⟩)
    simpa [tellsEnd] using hdone
  · refine wp_bind.mpr (wp_op trivial fun sent => ?_)
    cases sent with
    | true => exact hkeep _
    | false =>
        refine wp_bind.mpr (wp_op trivial fun sent => ?_)
        cases sent with
        | true => exact hkeep _
        | false => exact fun _ => ⟨⟨.sendTokenOrDone, false⟩, by simp, rfl⟩

/-- An accept loop ends only if the server shuts down. -/
theorem wp_acceptRound_end (g : ConnectionGate) (ln : Nat) (es : List Serverbase.Event) :
    (acceptRound g ln).wp (Contract.logging fun _ _ => True) es
      fun r es' => r = none → ∃ e ∈ es', tellsEnd e := by
  refine wp_bind.mpr (wp_op trivial fun r => ?_)
  cases r with
  | error err =>
      intro hnone
      refine ⟨⟨.accept ln, .error err⟩, by simp, ?_⟩
      simpa [tellsEnd] using hnone
  | ok conn =>
      refine wp_seq (wp_acquireUntil_end g _) fun ok es₁ hend => ?_
      cases ok with
      | false =>
          refine wp_bind.mpr (wp_op trivial fun _ _ => ?_)
          obtain ⟨e, he, htells⟩ := hend rfl
          exact ⟨e, List.mem_append_left _ he, htells⟩
      | true =>
          refine wp_bind.mpr (wp_op trivial fun added => ?_)
          cases added with
          | true => exact wp_bind.mpr (wp_op trivial fun _ => by simp)
          | false =>
              refine wp_seq (wp_logging_true _ _) fun _ _ _ => ?_
              exact wp_bind.mpr (wp_op trivial fun _ => by simp)

section Loop

variable {ln : Fin life.listeners} {es : List life.Event}

/-- A loop goes on until its `Done`. -/
theorem Looping.concat (h : Looping ln es) {e : life.Event} (he : e.1 ≠ .wgDone (.acceptLoop ln)) :
    Looping ln (es ++ [e]) where
  prologue := by
    rw [ops_concat]
    exact h.prologue.trans (List.prefix_append _ _)
  not_done := by
    simpa [h.not_done] using he.symm

/-- A loop between two operations of `Serverbase.Accept`. -/
structure Ready (ln : Fin life.listeners) (bes : List Serverbase.Event) (es : List life.Event) :
    Prop where
  looping : Looping ln es
  events : baseEvents es = bes
  reserved : Lifecycle.reserved es = false

/-- Carrying out one operation of the loop. -/
theorem Ready.wp_withAdd {bes : List Serverbase.Event} (h : Ready ln bes es) {o : Serverbase.Op}
    (ho : Serverbase.loopPermits life.server.gate bes o ∧ OwnListener ln o) :
    (withAdd o).wp (Contract.logging (listenerPermits ln)) es fun r es' =>
      ∃ bes', bes' = bes ++ [⟨o, r⟩] ∧ Ready ln bes' es' := by
  obtain ⟨hlooping, rfl, hreserved⟩ := h
  obtain ⟨hpermits, hown⟩ := ho
  cases o with
  | go conn =>
      refine wp_bind.mpr (wp_op (.inr ⟨hlooping, hreserved, hpermits⟩) fun _ => ?_)
      have hlooping' := hlooping.concat (e := ⟨.wgAdd (.handler conn), ()⟩) (by simp)
      refine wp_op (.inr ⟨hlooping', by simp, by simpa [baseEvent] using hpermits⟩) fun r =>
        ⟨_, rfl, hlooping'.concat (by simp), ?_, ?_⟩
      · rw [baseEvents_concat, baseEvents_concat]
        simp [baseEvent]
      · rw [reserved_concat]
        rfl
  | _ =>
      exact wp_op (.inr ⟨hlooping, hreserved, hpermits, hown⟩) fun r =>
        ⟨_, rfl, hlooping.concat (by simp), by simp [baseEvent], by simp [reserve, hreserved]⟩

/-- A round ends with nothing in hand, and the last one has seen the end. -/
theorem wp_round (hlooping : Looping ln es) (hreserved : reserved es = false)
    (hidle : pending (baseEvents es) = .idle) :
    ((acceptRound life.server.gate ln).interp withAdd).wp (Contract.logging (listenerPermits ln)) es
      fun r es' => Looping ln es' ∧ reserved es' = false ∧ pending (baseEvents es') = .idle ∧
        (r = none → ∃ e ∈ baseEvents es', tellsEnd e) := by
  have hround := wp_and (wp_and (wp_acceptRound (g := life.server.gate) ln hidle)
    ((only_acceptRound life.server.gate ln).wp (baseEvents es)))
    (wp_acceptRound_end life.server.gate ln (baseEvents es))
  refine wp_mono (wp_interp (Ready ln) (fun _ => trivial)
    (fun hready hok => by exact hready.wp_withAdd hok.1) hround ⟨hlooping, rfl, hreserved⟩) ?_
  rintro r es' ⟨bes', ⟨⟨hidle', -⟩, hend⟩, hlooping', rfl, hreserved'⟩
  exact ⟨hlooping', hreserved', hidle', hend⟩

/-- A loop leaves the wait group at its end. -/
theorem wp_loop_done (hlooping : Looping ln es) (hreserved : reserved es = false)
    (hidle : pending (baseEvents es) = .idle) :
    (life.acceptLoop ln >>= fun _ => op (.wgDone (.acceptLoop ln))).wp
      (Contract.logging (listenerPermits ln)) es
      fun _ es' => .wgDone (.acceptLoop ln) ∈ ops es' := by
  have hloop : (life.acceptLoop ln).wp (Contract.logging (listenerPermits ln)) es fun _ es =>
      Looping ln es ∧ reserved es = false ∧ pending (baseEvents es) = .idle ∧
        ∃ e ∈ baseEvents es, tellsEnd e := wp_iterate_fault trivial
    (fun _ es => Looping ln es ∧ reserved es = false ∧ pending (baseEvents es) = .idle)
    (fun _ es ⟨hlooping, hreserved, hidle⟩ => wp_mono (wp_round hlooping hreserved hidle)
      fun r es' ⟨hlooping', hreserved', hidle', hend⟩ => by
        cases r with
        | none => exact ⟨hlooping', hreserved', hidle', hend rfl⟩
        | some _ => exact ⟨hlooping', hreserved', hidle'⟩)
    ⟨hlooping, hreserved, hidle⟩
  refine wp_seq hloop fun _ es' ⟨hlooping', hreserved', hidle', hend⟩ => ?_
  exact wp_op (.inr ⟨hlooping', rfl, hreserved', hidle', hend⟩) fun _ => by simp

end Loop

/-! ## Before the accept loop -/

/-- What a thread does before its accept loop. -/
def Preparing : Op life.listeners → Prop
  | .wgAdd (.acceptLoop _) => True
  | .goLoop _ => True
  | .beginLoop _ => True
  | _ => False

/-- Before its rounds a thread adds and starts loops. -/
theorem preparing_of_mem {ln : Fin life.listeners} {o : Op life.listeners}
    (h : o ∈ life.prologue ln) : Preparing o := by
  unfold prologue at h
  split_ifs at h with hln
  · simp only [List.mem_append, List.mem_flatMap, List.mem_cons, List.not_mem_nil, or_false] at h
    obtain ⟨l, -, rfl | rfl⟩ | rfl := h <;> trivial
  · obtain rfl := List.mem_singleton.mp h
    trivial

theorem preparing_of_scripted {ln : Fin life.listeners} {es : List life.Event}
    {o : Op life.listeners} (h : Scripted (life.prologue ln) es o) : Preparing o :=
  preparing_of_mem (h.subset (List.mem_append_right _ (List.mem_singleton_self o)))

/-- That has nothing to do with connections. -/
theorem quiet_of_preparing {es : List life.Event} (h : ∀ o ∈ ops es, Preparing o) :
    reserved es = false ∧ baseEvents es = [] := by
  induction es using List.reverseRecOn with
  | nil => exact ⟨rfl, rfl⟩
  | append_singleton es e ih =>
      simp only [ops_concat, List.forall_mem_append, List.forall_mem_singleton] at h
      obtain ⟨hreserved, hbase⟩ := ih h.1
      rw [reserved_concat, baseEvents_concat, hreserved, hbase]
      obtain ⟨o, r⟩ := e
      rcases o with _ | ⟨_ | _⟩ | _
      all_goals first | exact h.2.elim | exact ⟨rfl, rfl⟩

/-- After its prologue the thread of a listener runs the loop and leaves the wait group. -/
theorem wp_loop_of_prologue {ln : Fin life.listeners} {es : List life.Event}
    (h : ops es = life.prologue ln) :
    (life.acceptLoop ln >>= fun _ => op (.wgDone (.acceptLoop ln))).wp
      (Contract.logging (listenerPermits ln)) es
      fun _ es' => .wgDone (.acceptLoop ln) ∈ ops es' := by
  have hprep : ∀ o ∈ ops es, Preparing o := fun o ho => preparing_of_mem (h ▸ ho)
  obtain ⟨hreserved, hbase⟩ := quiet_of_preparing hprep
  refine wp_loop_done ⟨by rw [h], fun hdone => hprep _ hdone⟩ hreserved ?_
  rw [hbase]
  rfl

/-- One operation of the prologue. -/
theorem wp_prologue {ln : Fin life.listeners} {es : List life.Event} {o : Op life.listeners}
    {rest : List (Op life.listeners)} (h : ops es ++ o :: rest = life.prologue ln) :
    (op o).wp (Contract.logging (listenerPermits ln)) es
      fun _ es' => ops es' ++ rest = life.prologue ln :=
  wp_scripted (fun _ => .inl) h

/-- `Start` begins with the wait group and the other loops, and runs the first. -/
theorem wp_start : life.start.wp (Contract.logging (listenerPermits 0)) []
    fun _ es => .wgDone (.acceptLoop 0) ∈ ops es := by
  let added (ln : Fin life.extra) : List (Op life.listeners) :=
    [.wgAdd (.acceptLoop ln.succ), .goLoop ln.succ]
  have hloops := wp_forM (C := Contract.logging (listenerPermits (0 : Fin life.listeners)))
    (f := fun ln => do
      op (.wgAdd (.acceptLoop ln.succ))
      op (.goLoop ln.succ))
    (fun rest es => ops es ++ (rest.flatMap added ++ [.wgAdd (.acceptLoop 0)]) = life.prologue 0)
    (fun ln rest es h => wp_seq (wp_prologue h) fun _ _ h' => wp_prologue h')
    (l := List.finRange life.extra) (g := []) rfl
  refine wp_seq hloops fun _ es h => wp_seq (wp_prologue h) fun _ es' h' => ?_
  exact wp_loop_of_prologue (by simpa using h')

/-- The other loops run in goroutines of their own. -/
theorem wp_loopRoutine {ln : Fin life.listeners} (hln : ln ≠ 0) :
    (life.loopRoutine ln).wp (Contract.logging (listenerPermits ln)) []
      fun _ es => .wgDone (.acceptLoop ln) ∈ ops es := by
  have hbegin : ops ([] : List life.Event) ++ [.beginLoop ln] = life.prologue ln := by
    simp [prologue, hln, ops]
  exact wp_seq (wp_prologue hbegin) fun _ es h => wp_loop_of_prologue (by simpa using h)

/-! ## Handlers -/

variable (life) in
/-- The operations of the goroutine of a connection, in order. -/
def handlerOps (conn : Conn) : List (Op life.listeners) :=
  (Serverbase.handlerOps life.server.gate conn).map .base ++ [.wgDone (.handler conn)]

/-- A handler has performed the first of its operations. -/
structure Serving (conn : Conn) (bes : List Serverbase.Event) (es : List life.Event) : Prop where
  ops_eq : ops es = (bes.map Sigma.fst).map .base
  isPrefix : bes.map Sigma.fst <+: Serverbase.handlerOps life.server.gate conn

/-- The handler's operations on the gate and on the set. -/
theorem Serving.wp_plain {conn : Conn} {bes : List Serverbase.Event} {es : List life.Event}
    (h : Serving conn bes es) {o : Serverbase.Op}
    (ho : handlerPermits life.server.gate conn bes o) :
    (plain o).wp (Contract.logging (Scripted (life.handlerOps conn))) es fun r es' =>
      ∃ bes', bes' = bes ++ [⟨o, r⟩] ∧ Serving conn bes' es' := by
  have hnext : bes.map Sigma.fst ++ [o] <+: Serverbase.handlerOps life.server.gate conn :=
    Server.prefix_concat h.isPrefix (by rw [List.length_map]; exact ho)
  obtain ⟨rest, hrest⟩ := hnext
  have hscript : Scripted (life.handlerOps conn) es (.base o) := by
    refine ⟨rest.map .base ++ [.wgDone (.handler conn)], ?_⟩
    rw [handlerOps, ← hrest, show es.map Sigma.fst = _ from h.ops_eq]
    simp
  refine wp_op hscript fun r => ⟨_, rfl, ?_, rest, by simpa using hrest⟩
  simp [h.ops_eq]

/-- A handler ends with its `Done`. -/
theorem wp_routine (conn : Conn) :
    (life.handler conn).wp (Contract.logging (Scripted (life.handlerOps conn))) []
      fun _ es => ops es = life.handlerOps conn := by
  refine wp_seq (wp_interp (Serving conn) (fun _ => trivial)
    (fun hserving hok => by exact hserving.wp_plain hok) (wp_handler life.server.gate conn)
    ⟨rfl, List.nil_prefix⟩) ?_
  rintro - es ⟨bes, hlength, hserving⟩
  have hall : bes.map Sigma.fst = Serverbase.handlerOps life.server.gate conn :=
    hserving.isPrefix.eq_of_length (by simpa using hlength)
  have hops : ops es ++ [.wgDone (.handler conn)] = life.handlerOps conn := by
    rw [hserving.ops_eq, hall, handlerOps]
  exact wp_mono (wp_scripted (fun _ h => h) hops) fun _ es' h => by
    simpa [ops] using h

/-! ## `Close` and its wait -/

/-- What a call of `Close` may do: one that got `closeOnce` all of it, in order. -/
def closerPermits (es : List life.Event) : Op life.listeners → Prop
  | .onceDo => es = []
  | .base o => ⟨.onceDo, true⟩ ∈ es ∧ Serverbase.closerPermits (baseEvents es) o
  | .goWait =>
      .base .closeDone ∈ ops es ∧ ∀ ln < life.listeners, .base (.closeListener ln) ∈ ops es
  | .setCloseErr err =>
      ⟨.onceDo, true⟩ ∈ es ∧ (∀ err', .setCloseErr err' ∉ ops es) ∧
        (err.handlers = false → ⟨.selectWaited, true⟩ ∈ es)
  | .closeErr => ⟨.onceDo, false⟩ ∈ es ∨ ∃ err, .setCloseErr err ∈ ops es
  | .cancel | .selectWaited | .waitUdpWorkers => True
  | _ => False

/-- What the goroutine of `WaitGroupTimeout` may do. -/
def waiterPermits (es : List life.Event) : Op life.listeners → Prop
  | .beginWait => es = []
  | .wgWait => ops es = [.beginWait]
  | .wgWake => ∃ r, es = [⟨.beginWait, r⟩, ⟨.wgWait, false⟩]
  | .closeWaited => ⟨.wgWait, true⟩ ∈ es ∨ ⟨.wgWake, true⟩ ∈ es
  | _ => False

/-- The waiter waits for zero, and tells so. -/
theorem wp_waiter : life.waiter.wp (Contract.logging waiterPermits) [] fun _ _ => True := by
  refine wp_bind.mpr (wp_op rfl fun r => wp_bind.mpr (wp_op rfl fun zero => ?_))
  cases zero with
  | true => exact wp_op (.inl (by simp)) fun _ => trivial
  | false =>
      refine wp_bind.mpr (wp_op ⟨r, rfl⟩ fun zero => ?_)
      cases zero with
      | true => exact wp_op (.inr (by simp)) fun _ => trivial
      | false => trivial

/-- `CloseAll` closes `done` first, and then goes through the shards. -/
theorem wp_closeAll_done : closeAll.wp (Contract.logging Serverbase.closerPermits) []
    fun _ es => (∀ k, ShardDone es k) ∧ .closeDone ∈ es.map Sigma.fst := by
  refine wp_permits_mono (fun _ _ h => h.1) (wp_and wp_closeAll (wp_bind.mpr (wp_op trivial
    fun r => wp_mono (wp_grows _ _) fun _ es hes => ?_)))
  exact List.mem_map.mpr ⟨⟨.closeDone, r⟩, hes.subset (by simp), rfl⟩

/-- Every listener is closed by `Close`. -/
theorem wp_closeListeners_all (lns : List Nat) (errs : List IoError) {es : List Serverbase.Event}
    (hes : ∀ k, ShardDone es k) :
    (closeListeners lns errs).wp (Contract.logging Serverbase.closerPermits) es
      fun _ es' => es <+: es' ∧ ∀ ln ∈ lns, .closeListener ln ∈ es'.map Sigma.fst := by
  refine wp_permits_mono (fun _ _ h => h.2) (wp_and (wp_grows _ _) ?_)
  refine wp_mono (wp_foldlM (fun rest _ es => (∀ k, ShardDone es k) ∧
      ∀ ln ∈ lns, ln ∈ rest ∨ .closeListener ln ∈ es.map Sigma.fst)
    (fun ln rest errs es ⟨hdone, hclosed⟩ => ?_) ⟨hes, fun ln hln => .inl hln⟩)
    fun _ es' h ln hln => (h.2 ln hln).resolve_left List.not_mem_nil
  refine wp_bind.mpr (wp_op hdone fun err => ⟨fun k => ?_, fun ln' hln' => ?_⟩)
  · exact (hdone k).mono (List.subset_append_left _ _)
  · have := hclosed ln' hln'
    grind

/-- A call of `Close` in its function, which it has not left. -/
structure Closing (bes : List Serverbase.Event) (es : List life.Event) : Prop where
  events : baseEvents es = bes
  once : ⟨.onceDo, true⟩ ∈ es
  unset : ∀ err, .setCloseErr err ∉ ops es

/-- The closing call until it stores its error. -/
theorem Closing.concat {bes : List Serverbase.Event} {es : List life.Event} (h : Closing bes es)
    {e : life.Event} (he : ∀ err, e.1 ≠ .setCloseErr err) :
    Closing (bes ++ (baseEvent e).toList) (es ++ [e]) where
  events := by simp [h.events]
  once := by simp [h.once]
  unset err := by simp [h.unset err, (he err).symm]

/-- Its operations on the gate and on the set. -/
theorem Closing.wp_plain {bes : List Serverbase.Event} {es : List life.Event} (h : Closing bes es)
    {o : Serverbase.Op} (ho : Serverbase.closerPermits bes o) :
    (plain o).wp (Contract.logging closerPermits) es fun r es' =>
      ∃ bes', bes' = bes ++ [⟨o, r⟩] ∧ Closing bes' es' :=
  wp_op ⟨h.once, h.events ▸ ho⟩ fun r => ⟨_, rfl, h.concat (e := ⟨.base o, r⟩) (by simp)⟩

/-- A part of `Close` that `Serverbase.Accept` has. -/
theorem Closing.wp_interp {α : Type} {p : Serverbase.Proc α} {bes : List Serverbase.Event}
    {es : List life.Event} (h : Closing bes es) {Q : α → List Serverbase.Event → Prop}
    (hp : p.wp (Contract.logging Serverbase.closerPermits) bes Q) :
    (p.interp plain).wp (Contract.logging closerPermits) es fun a es' =>
      ∃ bes', Q a bes' ∧ Closing bes' es' :=
  Prog.wp_interp Closing (fun _ => trivial)
    (fun hclosing hok => by exact hclosing.wp_plain hok) hp h

theorem mem_ops_of_baseEvents {es : List life.Event} {o : Serverbase.Op}
    (h : o ∈ (baseEvents es).map Sigma.fst) : .base o ∈ ops es := by
  simp only [baseEvents, List.mem_map, List.mem_filterMap] at h
  obtain ⟨e, ⟨⟨o', r⟩, hmem, he⟩, rfl⟩ := h
  cases o' with
  | base o' =>
      obtain rfl := Option.some.inj he
      exact List.mem_map.mpr ⟨_, hmem, rfl⟩
  | _ => contradiction

/-- The function of `Close` reports the handlers unless the wait came to its end. -/
theorem wp_shutdown {es : List life.Event} (h : Closing [] es) :
    life.shutdown.wp (Contract.logging closerPermits) es fun err es' =>
      (∃ bes', Closing bes' es') ∧ (err.handlers = false → ⟨.selectWaited, true⟩ ∈ es') := by
  have hcancel {r} := h.concat (e := ⟨.cancel, r⟩) (by simp)
  refine wp_bind.mpr (wp_op trivial fun _ => ?_)
  refine wp_seq (hcancel.wp_interp wp_closeAll_done) ?_
  rintro conns es₁ ⟨bes₁, ⟨hshards, hdone⟩, h₁⟩
  refine wp_seq (h₁.wp_interp (wp_closeListeners_all _ _ hshards)) ?_
  rintro errs es₂ ⟨bes₂, ⟨hgrows, hclosed⟩, h₂⟩
  have hdone₂ : .base .closeDone ∈ ops es₂ :=
    mem_ops_of_baseEvents (h₂.events ▸ (hgrows.map Sigma.fst).subset hdone)
  have hlisteners : ∀ ln < life.listeners, .base (.closeListener ln) ∈ ops es₂ := fun ln hln =>
    mem_ops_of_baseEvents (h₂.events ▸ hclosed ln (List.mem_range.mpr hln))
  refine wp_bind.mpr (wp_bind.mpr (wp_op ⟨hdone₂, hlisteners⟩ fun r =>
    wp_op trivial fun stopped => ?_))
  have h₃ := (h₂.concat (e := ⟨.goWait, r⟩) (by simp)).concat (e := ⟨.selectWaited, stopped⟩)
    (by simp)
  by_cases hudp : life.udp
  · simp only [hudp, if_true]
    refine wp_bind.mpr (wp_op trivial fun workers => ⟨⟨_, h₃.concat (by simp)⟩, fun hstopped => ?_⟩)
    obtain rfl : stopped = true := by simpa using hstopped
    simp
  · simp only [hudp]
    refine ⟨⟨_, h₃⟩, fun hstopped => ?_⟩
    obtain rfl : stopped = true := by simpa using hstopped
    simp

/-- Every call of `Close` ends by reading the error. -/
theorem wp_close_once : life.close.wp (Contract.logging closerPermits) []
    fun _ es => .closeErr ∈ ops es := by
  refine wp_bind.mpr (wp_op rfl fun called => ?_)
  cases called with
  | false => exact wp_bind.mpr (wp_op (.inl (by simp)) fun _ => by simp [ops])
  | true =>
      have hclosing : Closing [] [(⟨.onceDo, true⟩ : life.Event)] :=
        ⟨rfl, by simp, by simp [ops]⟩
      refine wp_seq (wp_shutdown hclosing) fun err es ⟨⟨_, h⟩, hwait⟩ => ?_
      refine wp_bind.mpr (wp_op ⟨h.once, h.unset, hwait⟩ fun _ => ?_)
      exact wp_bind.mpr (wp_op (.inr ⟨err, by simp⟩) fun _ => by
        rw [pure_eq, wp_ret, ops_concat]
        simp)

/-! ## All threads -/

/-- What a thread may do after its entries. -/
def permits : life.ι → List life.Event → Op life.listeners → Prop
  | .acceptLoop ln => listenerPermits ln
  | .handler conn => Scripted (life.handlerOps conn)
  | .closer _ => closerPermits
  | .waiter => waiterPermits

/-- Whose operation it is. -/
def Belongs (i : life.ι) : Op life.listeners → Prop
  | .base (.accept _) | .base (.go _) | .wgAdd _ | .goLoop _ | .beginLoop _ => ∃ ln,
    i = .acceptLoop ln
  | .base .closeDone | .base (.closeListener _) | .onceDo | .cancel | .goWait | .selectWaited
  | .waitUdpWorkers | .setCloseErr _ | .closeErr => ∃ n, i = .closer n
  | .beginWait | .wgWait | .wgWake | .closeWaited => i = .waiter
  | _ => True

/-- An operation belongs to the thread that may do it. -/
theorem belongs_of_permits {i : life.ι} {es : List life.Event} {o : Op life.listeners}
    (hp : permits i es o) : Belongs i o := by
  cases i with
  | acceptLoop ln =>
      obtain hscript | ⟨-, hloop⟩ := hp
      · have hprep := preparing_of_scripted hscript
        cases o <;> simp_all [Preparing, Belongs]
      · cases o with
        | base bo => cases bo <;> simp_all
          [Belongs, loopPermits, Serverbase.loopPermits, Pending.Allows]
        | _ => simp_all [Belongs, loopPermits]
  | handler conn =>
      have hmem := hp.subset (List.mem_append_right _ (List.mem_singleton_self o))
      simp only [handlerOps, List.mem_append, List.mem_map, List.mem_singleton] at hmem
      obtain ⟨bo, hbo, rfl⟩ | rfl := hmem
      · obtain rfl | rfl | rfl := mem_handlerOps hbo <;> trivial
      · trivial
  | closer n =>
      cases o with
      | base bo => cases bo <;> simp_all [Belongs, permits, closerPermits, Serverbase.closerPermits]
      | _ => simp_all [Belongs, permits, closerPermits]
  | waiter => cases o <;> simp_all [Belongs, permits, waiterPermits]

/-- How a thread ends. -/
def post : life.ι → List life.Event → Prop
  | .acceptLoop ln, es => .wgDone (.acceptLoop ln) ∈ ops es
  | .handler conn, es => ops es = life.handlerOps conn
  | .closer _, es => .closeErr ∈ ops es
  | .waiter, _ => True

/-- Every thread keeps to its part. -/
theorem wp_program (i : life.ι) :
    (life.program i).wp (Contract.logging (permits i)) [] fun _ es => post i es := by
  cases i with
  | acceptLoop ln =>
      by_cases hln : ln = 0
      · subst hln
        exact wp_start
      · rw [program, if_neg hln]
        exact wp_loopRoutine hln
  | handler conn => exact wp_routine conn
  | closer n => exact wp_close_once
  | waiter => exact wp_waiter

end Lifecycle

end Outway.Serverbase
