import Outway.Lib.Log

/-!
# Outway.Serverbase.Accept

The accept loops of the servers, with the registry and the gate they share.

Every accepted connection passes the `ConnectionGate` and is registered in the
`ConnectionSet` before a handler goroutine gets it; the handler takes it out of
both.  `Close` shuts the registry shard by shard while the loops go on.  The
SOCKS5, HTTP and auto-detect servers run the same loop and differ only in the
handler's `accept`.

A `Server` is the accept loops, the handlers and the caller of `Close` as threads
over one state; each locked section and each channel operation is one step.
-/

namespace Outway.Serverbase

open Prog

/-! ## The registry -/

/-- An accepted connection: its identity and the pointer `shardFor` hashes. -/
structure Conn where
  id : Nat
  pointer : UInt64
  deriving DecidableEq, Repr

/-- An error of the network: `net.ErrClosed`, or another one. -/
inductive IoError where
  | errClosed
  | other (text : String)
  deriving DecidableEq, Repr

/-- `errors.Is(err, net.ErrClosed)`. -/
def IoError.isClosed : IoError → Bool
  | .errClosed => true
  | .other _ => false

def connSetShardBits : Nat := 5

def connSetShards : Nat := 1 <<< connSetShardBits

structure ConnSetShard where
  closed : Bool
  conns : Finset Conn
  deriving DecidableEq

structure ConnectionSet where
  /-- `done` is closed -/
  done : Bool
  shards : Fin connSetShards → ConnSetShard

def newConnectionSet : ConnectionSet where
  done := false
  shards _ := ⟨false, ∅⟩

/-- The Fibonacci hash of a connection's pointer. -/
def connHash (conn : Conn) : UInt64 := conn.pointer * 0x9e3779b97f4a7c15

/-- The upper bits of the hash number a shard. -/
theorem connHash_shift_lt (conn : Conn) :
    (connHash conn >>> (64 - connSetShardBits.toUInt64)).toNat < connSetShards := by
  have h := (connHash conn).toNat_lt
  rw [UInt64.toNat_shiftRight,
    show (64 - connSetShardBits.toUInt64).toNat % 64 = 59 from rfl, Nat.shiftRight_eq_div_pow,
    show connSetShards = 32 from rfl]
  omega

/-- The shard of a connection: the high `connSetShardBits` bits of its hash. -/
def shardFor (conn : Conn) : Fin connSetShards := ⟨_, connHash_shift_lt conn⟩

namespace ConnectionSet

/-- Replace the connections of a shard. -/
def setConns (s : ConnectionSet) (k : Fin connSetShards) (conns : Finset Conn) : ConnectionSet :=
  { s with shards := Function.update s.shards k { s.shards k with conns } }

/-- Register a connection, unless its shard was closed. -/
def add (s : ConnectionSet) (conn : Conn) : Bool × ConnectionSet :=
  let shard := s.shards (shardFor conn)
  if shard.closed then (false, s)
  else (true, s.setConns (shardFor conn) (insert conn shard.conns))

def remove (s : ConnectionSet) (conn : Conn) : ConnectionSet :=
  s.setConns (shardFor conn) ((s.shards (shardFor conn)).conns.erase conn)

/-- The locked section of `CloseAll` on one shard. -/
def closeShard (s : ConnectionSet) (i : Fin connSetShards) : ConnectionSet :=
  { s with shards := Function.update s.shards i ⟨true, ∅⟩ }

theorem closed_setConns (s : ConnectionSet) (k k' : Fin connSetShards) (conns : Finset Conn) :
    ((s.setConns k conns).shards k').closed = (s.shards k').closed := by
  by_cases hk : k' = k
  · subst hk
    simp [setConns]
  · simp [setConns, hk]

/-- Writing one shard leaves the others. -/
theorem conns_setConns (s : ConnectionSet) (k k' : Fin connSetShards) (conns : Finset Conn) :
    ((s.setConns k conns).shards k').conns = if k' = k then conns else (s.shards k').conns := by
  by_cases hk : k' = k
  · subst hk
    simp [setConns]
  · simp [setConns, hk]

/-- `CloseAll` empties and marks one shard at a time. -/
theorem shards_closeShard (s : ConnectionSet) (k k' : Fin connSetShards) :
    (s.closeShard k).shards k' = if k' = k then ⟨true, ∅⟩ else s.shards k' :=
  Function.update_apply _ _ _ _

end ConnectionSet

/-! ## Operations -/

/-- What the threads do to what they share, one atomic step each. -/
inductive Op where
  /-- `ln.Accept()` -/
  | accept (ln : Nat)
  /-- `select { case g.tokens <- struct{}{}: default: }` -/
  | trySendToken
  /-- `select { case g.tokens <- struct{}{}: case <-done: }` -/
  | sendTokenOrDone
  /-- `select { case <-done: default: }` -/
  | checkDone
  /-- `<-g.tokens` -/
  | receiveToken
  | add (conn : Conn)
  | remove (conn : Conn)
  /-- `conn.Close()` -/
  | close (conn : Conn)
  /-- the `go` statement that starts the handler of a connection -/
  | go (conn : Conn)
  /-- the handler's `accept`, once it was started -/
  | serve (conn : Conn)
  /-- `close(s.done)` -/
  | closeDone
  /-- a locked section of `CloseAll` -/
  | closeShard (i : Fin connSetShards)
  | closeListener (ln : Nat)
  deriving DecidableEq

/-- What an operation returns. -/
@[reducible] def Res : Op → Type
  | .accept _ => Except IoError Conn
  | .trySendToken => Bool
  | .sendTokenOrDone => Bool
  | .checkDone => Bool
  | .add _ => Bool
  | .close _ => Option IoError
  | .closeShard _ => List Conn
  | .closeListener _ => Option IoError
  | _ => Unit

abbrev Event : Type := Prog.Event Op Res

/-- The code of the servers. -/
abbrev Proc (α : Type) : Type := Prog Op Res α

/-- Perform one operation. -/
def op (o : Op) : Proc (Res o) := .step o .ret

/-! ## The gate -/

/-- The gate: the capacity of its channel `tokens`, or no channel. -/
structure ConnectionGate where
  tokens : Option Nat
  deriving DecidableEq, Repr

def newConnectionGate (max : UInt32) : ConnectionGate :=
  if max = 0 then ⟨none⟩ else ⟨some max.toNat⟩

namespace ConnectionGate

/-- After the send: a shutdown that has started gets the token back. -/
def keepUnlessDone : Proc Bool := do
  if ← op .checkDone then
    op .receiveToken
    return false
  else return true

def acquireUntil (g : ConnectionGate) : Proc Bool :=
  match g.tokens with
  | none => do
      let done ← op .checkDone
      return !done
  | some _ => do
      if ← op .trySendToken then keepUnlessDone
      else if ← op .sendTokenOrDone then keepUnlessDone
      else return false

def release (g : ConnectionGate) : Proc Unit :=
  match g.tokens with
  | none => return ()
  | some _ => op .receiveToken

end ConnectionGate

/-! ## Loops, handlers and shutdown -/

/-- One round of the accept loop; `none` ends it. -/
def acceptRound (g : ConnectionGate) (ln : Nat) : Proc (Option Unit) := do
  match ← op (.accept ln) with
  | .error err => return if err.isClosed then none else some ()
  | .ok conn =>
      if ← g.acquireUntil then
        if ← op (.add conn) then
          op (.go conn)
          return some ()
        else
          g.release
          let _ ← op (.close conn)
          return some ()
      else
        let _ ← op (.close conn)
        return none

/-- The accept loop of a listener, followed for a number of rounds. -/
def acceptLoop (g : ConnectionGate) (ln rounds : Nat) : Proc Unit :=
  iterate (.ret ()) (fun _ => acceptRound g ln) rounds ()

/-- The handler goroutine; the deferred calls run last to first. -/
def handler (g : ConnectionGate) (conn : Conn) : Proc Unit := do
  op (.serve conn)
  op (.remove conn)
  g.release

/-- An error that `CloseAll` and `Close` report: not that of a closed connection. -/
def reported (err : Option IoError) : List IoError := err.toList.filter fun e => !e.isClosed

def closeConns (errs : List IoError) (conns : List Conn) : Proc (List IoError) :=
  conns.foldlM (fun errs conn => do return errs ++ reported (← op (.close conn))) errs

def closeAll : Proc (List IoError) := do
  op .closeDone
  (List.finRange connSetShards).foldlM (fun errs i => do
    let conns ← op (.closeShard i)
    closeConns errs conns) []

/-- What `Close` does after `CloseAll`. -/
def closeListeners (lns : List Nat) (errs : List IoError) : Proc (List IoError) :=
  lns.foldlM (fun errs ln => do return errs ++ reported (← op (.closeListener ln))) errs

/-! ## The server -/

/-- A server: the limit of its gate, its listeners, and how far its loops are followed. -/
structure Server where
  /-- `ctx.Concurrent` -/
  max : UInt32
  listeners : Nat
  rounds : Nat

/-- The threads of a server.  There is a handler for every connection; it waits to be
started. -/
inductive Thread (listeners : Nat) where
  | acceptLoop (ln : Fin listeners)
  | handler (conn : Conn)
  | closer
  deriving DecidableEq

namespace Server

variable (server : Server)

/-- The threads of the server. -/
abbrev ι : Type := Thread server.listeners

def gate : ConnectionGate := newConnectionGate server.max

/-- The call of `Close`, without its wait for the handlers. -/
def close : Proc Unit := do
  let errs ← closeAll
  let _ ← closeListeners (List.range server.listeners) errs

/-- The program of a thread. -/
def program : server.ι → Proc Unit
  | .acceptLoop ln => Serverbase.acceptLoop server.gate ln server.rounds
  | .handler conn => Serverbase.handler server.gate conn
  | .closer => server.close

/-- What the threads share. -/
structure State where
  /-- `len(g.tokens)` -/
  tokens : Nat
  conns : ConnectionSet
  /-- the listeners that are closed -/
  closedListeners : Finset Nat
  log : List (server.ι × Event)

/-- Nothing has happened. -/
def init : server.State where
  tokens := 0
  conns := newConnectionSet
  closedListeners := ∅
  log := []

variable {server}

/-- The thread has performed the operation. -/
def Did (log : List (server.ι × Event)) (i : server.ι) (o : Op) : Prop :=
  ∃ r : Res o, (i, ⟨o, r⟩) ∈ log

/-- The connections that were handed to a handler. -/
def started (log : List (server.ι × Event)) : List Conn :=
  log.filterMap fun
    | (_, ⟨.go conn, _⟩) => some conn
    | _ => none

/-- What an operation of thread `i` does to the shared state, apart from the log. -/
def effect (i : server.ι) (s : server.State) : (o : Op) → Res o → server.State → Prop
  | .accept ln, .ok conn, t =>
      -- a connection is accepted once
      ln ∉ s.closedListeners ∧ (∀ j l, (j, ⟨.accept l, .ok conn⟩) ∉ s.log) ∧ t = s
  | .accept ln, .error err, t => (err.isClosed ↔ ln ∈ s.closedListeners) ∧ t = s
  | .trySendToken, sent, t =>
      if s.tokens < server.max.toNat then sent = true ∧ t = { s with tokens := s.tokens + 1 }
      else sent = false ∧ t = s
  | .sendTokenOrDone, true, t =>
      s.tokens < server.max.toNat ∧ t = { s with tokens := s.tokens + 1 }
  | .sendTokenOrDone, false, t => s.conns.done ∧ t = s
  | .checkDone, done, t => done = s.conns.done ∧ t = s
  | .receiveToken, _, t => 0 < s.tokens ∧ t = { s with tokens := s.tokens - 1 }
  | .add conn, added, t =>
      added = (s.conns.add conn).1 ∧ t = { s with conns := (s.conns.add conn).2 }
  | .remove conn, _, t => t = { s with conns := s.conns.remove conn }
  | .serve conn, _, t => conn ∈ started s.log ∧ t = s
  | .closeDone, _, t => i = .closer ∧ t = { s with conns := { s.conns with done := true } }
  | .closeShard k, conns, t =>
      -- the map is ranged over in any order
      i = .closer ∧ ↑conns = (s.conns.shards k).conns.val ∧
        t = { s with conns := s.conns.closeShard k }
  | .closeListener ln, _, t => t = { s with closedListeners := insert ln s.closedListeners }
  | _, _, t => t = s

/-- What an operation of thread `i` does to the shared state. -/
def act (i : server.ι) (s : server.State) (o : Op) (r : Res o) (s' : server.State) : Prop :=
  ∃ t, effect i s o r t ∧ s' = { t with log := s.log ++ [(i, ⟨o, r⟩)] }

theorem log_of_act {i : server.ι} {s s' : server.State} {o : Op} {r : Res o}
    (h : act i s o r s') : s'.log = s.log ++ [(i, ⟨o, r⟩)] := by
  obtain ⟨t, -, rfl⟩ := h
  rfl

/-- The states of the runs in which the one call of `Close` meets any code in the other
threads. -/
def Meets (clients : server.ι → Proc Unit) (now : (server.ι → Proc Unit) × server.State) : Prop :=
  Threads.Reachable act (Function.update clients .closer server.close, server.init) now

variable (server) in
/-- The states of the server's runs: any interleaving of its threads. -/
def Reaches (now : (server.ι → Proc Unit) × server.State) : Prop :=
  Threads.Reachable act (server.program, server.init) now

/-- The server's own threads are clients of its `Close`. -/
theorem Reaches.meets {now : (server.ι → Proc Unit) × server.State} (h : server.Reaches now) :
    Meets server.program now := by
  have : Function.update server.program .closer server.close = server.program :=
    Function.update_eq_self _ _
  rw [Meets, this]
  exact h

theorem Reaches.step {ps : server.ι → Proc Unit} {s s' : server.State}
    (h : server.Reaches (ps, s)) {i : server.ι} {o : Op} {k : Res o → Proc Unit}
    (hp : ps i = .step o k) (r : Res o) (ha : act i s o r s') :
    server.Reaches (Function.update ps i (k r), s') := h.tail (.mk i o k r hp ha)

/-- One listener, one connection at a time, and two rounds of the accept loop. -/
abbrev solo : Server := ⟨1, 1, 2⟩

/-- A connection is accepted and served, and its token released; a second one has the token
when `Close` closes its shard, so that its `Add` is refused. -/
theorem reaches_solo : ∃ now, solo.Reaches now ∧ now.1 (.handler ⟨0, 0⟩) = .ret () ∧
    (.acceptLoop 0, ⟨.add ⟨1, 0⟩, false⟩) ∈ now.2.log ∧ now.2.tokens = 1 := by
  have h : solo.Reaches (solo.program, solo.init) := .refl
  have h := h.step (i := .acceptLoop 0) rfl (.ok ⟨0, 0⟩)
    ⟨_, ⟨Finset.notMem_empty _, by simp [init], rfl⟩, rfl⟩
  have h := h.step (i := .acceptLoop 0) rfl true ⟨_, ⟨rfl, rfl⟩, rfl⟩
  have h := h.step (i := .acceptLoop 0) rfl false ⟨_, ⟨rfl, rfl⟩, rfl⟩
  have h := h.step (i := .acceptLoop 0) rfl true ⟨_, ⟨rfl, rfl⟩, rfl⟩
  have h := h.step (i := .acceptLoop 0) rfl () ⟨_, rfl, rfl⟩
  -- the handler
  have h := h.step (i := .handler ⟨0, 0⟩) rfl () ⟨_, ⟨by simp [started], rfl⟩, rfl⟩
  have h := h.step (i := .handler ⟨0, 0⟩) rfl () ⟨_, rfl, rfl⟩
  have h := h.step (i := .handler ⟨0, 0⟩) rfl () ⟨_, ⟨Nat.one_pos, rfl⟩, rfl⟩
  -- the second connection
  have h := h.step (i := .acceptLoop 0) rfl (.ok ⟨1, 0⟩)
    ⟨_, ⟨Finset.notMem_empty _, by simp [init], rfl⟩, rfl⟩
  have h := h.step (i := .acceptLoop 0) rfl true ⟨_, ⟨rfl, rfl⟩, rfl⟩
  have h := h.step (i := .acceptLoop 0) rfl false ⟨_, ⟨rfl, rfl⟩, rfl⟩
  have h := h.step (i := .closer) rfl () ⟨_, ⟨rfl, rfl⟩, rfl⟩
  have h := h.step (i := .closer) rfl ([] : List Conn) ⟨_, ⟨rfl, rfl, rfl⟩, rfl⟩
  have h := h.step (i := .acceptLoop 0) rfl false ⟨_, ⟨rfl, rfl⟩, rfl⟩
  exact ⟨_, h, rfl, by simp, rfl⟩

end Server

end Outway.Serverbase
