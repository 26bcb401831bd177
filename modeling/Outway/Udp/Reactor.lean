import Outway.Lib.Log

/-!
# Outway.Udp.Reactor

The epoll reactor of the UDP relay.

Workers wait for one-shot readiness events, look the file descriptor up in `regs`
and call the handler of the registration they find, under the registration's own
lock.  `deregister` takes the registration out of `regs` and out of epoll, and then
waits for that lock to mark the registration dead.

The threads are the workers and the sessions of the sockets: each socket is
created, registered, deregistered and closed by its own session, and the number of
a closed socket may go to a new one.  Nothing of the reactor is left of a socket that
was deregistered, so registering one again is, here, a new session with its number.
An event carries, beside the descriptor the
worker reads, the session that epoll generated it for; no code looks at that.  The
reactor is not being closed, so its eventfd stays silent.
-/

namespace Outway.Reactor

open Prog

/-! ## Operations -/

/-- `reactorReg`: whose registration it is, and the descriptor its handler re-arms. -/
structure Reg where
  session : Nat
  fd : Nat
  deriving DecidableEq, Repr

/-- A readiness event; `session` is whose registration it was generated for. -/
structure Ready where
  fd : Nat
  session : Nat
  deriving DecidableEq, Repr

inductive EpollError where
  | eintr
  | other
  deriving DecidableEq, Repr

/-- What the threads do, one atomic step each. -/
inductive Op where
  /-- `unix.EpollWait` -/
  | epollWait
  /-- the read-locked lookup `r.regs[fd]` for an event -/
  | lookup (ev : Ready)
  /-- `reg.mu.Lock()`, with the value of `reg.dead` under it -/
  | lock (ev : Ready) (reg : Reg)
  /-- the handler's `pump()` -/
  | pump (ev : Ready) (reg : Reg)
  /-- `EPOLL_CTL_MOD` -/
  | rearm (fd : Nat)
  | unlock (reg : Reg)
  /-- a new socket -/
  | socket
  /-- the locked `r.regs[fd] = reg` -/
  | setReg (reg : Reg)
  /-- `EPOLL_CTL_ADD` -/
  | ctlAdd (reg : Reg)
  /-- the locked `delete(r.regs, fd)` of a failed `register` -/
  | delReg (fd : Nat)
  /-- the locked section of `deregister` -/
  | takeReg (fd : Nat)
  /-- `EPOLL_CTL_DEL` -/
  | ctlDel (fd : Nat)
  /-- `reg.dead = true` under `reg.mu` -/
  | markDead (reg : Reg)
  | close (fd : Nat)
  deriving DecidableEq

/-- What an operation returns. -/
@[reducible] def Res : Op → Type
  | .epollWait => Except EpollError (List Ready)
  | .lookup _ => Option Reg
  | .lock _ _ => Bool
  | .pump _ _ => Bool
  | .rearm _ => Bool
  | .socket => Nat
  | .ctlAdd _ => Bool
  | .takeReg _ => Option Reg
  | _ => Unit

abbrev Event : Type := Prog.Event Op Res

/-- The code around the reactor. -/
abbrev Proc (α : Type) : Type := Prog Op Res α

/-- Perform one operation. -/
def op (o : Op) : Proc (Res o) := .step o .ret

/-! ## Workers and sessions -/

/-- The handler that `serveSocket` registers. -/
def handler (ev : Ready) (reg : Reg) : Proc Unit := do
  if ← op (.pump ev reg) then
    let _ ← op (.rearm reg.fd)

/-- What a worker does with one event. -/
def serve (ev : Ready) : Proc Unit := do
  match ← op (.lookup ev) with
  | none => return ()
  | some reg =>
      let dead ← op (.lock ev reg)
      if !dead then handler ev reg
      op (.unlock reg)

/-- The length of a worker's `events`. -/
def maxEvents : Nat := 128

/-- One round of a worker; `none` ends it. -/
def loopRound : Proc (Option Unit) := do
  match ← op .epollWait with
  | .error .eintr => return some ()
  | .error .other => return none
  | .ok events =>
      events.forM serve
      return some ()

/-- `loop`, followed for a number of rounds. -/
def loop (rounds : Nat) : Proc Unit := iterate (.ret ()) (fun _ => loopRound) rounds ()

def register (reg : Reg) : Proc Bool := do
  op (.setReg reg)
  if ← op (.ctlAdd reg) then return true
  else
    op (.delReg reg.fd)
    return false

def deregister (fd : Nat) : Proc Unit := do
  let reg ← op (.takeReg fd)
  op (.ctlDel fd)
  match reg with
  | none => return ()
  | some reg => op (.markDead reg)

/-- The life of a socket: it is served by the reactor if it can be registered, and is
deregistered before it is closed. -/
def session (j : Nat) : Proc Unit := do
  let fd ← op .socket
  if ← register ⟨j, fd⟩ then deregister fd
  op (.close fd)

/-! ## The reactor -/

inductive Thread (workers : Nat) where
  | worker (w : Fin workers)
  | session (j : Nat)
  deriving DecidableEq

/-- A reactor: its workers, and how far they are followed. -/
structure System where
  workers : Nat
  rounds : Nat

/-- An entry of the epoll set: whose it is, and whether it is armed. -/
structure Interest where
  session : Nat
  armed : Bool
  deriving DecidableEq

namespace System

variable (sys : System)

abbrev ι : Type := Thread sys.workers

/-- The program of a thread. -/
def program : sys.ι → Proc Unit
  | .worker _ => loop sys.rounds
  | .session j => Reactor.session j

structure State where
  /-- the descriptors in use -/
  opened : Finset Nat
  regs : Nat → Option Reg
  /-- the epoll set -/
  interest : Nat → Option Interest
  /-- `reg.mu` is locked -/
  locked : Reg → Bool
  dead : Reg → Bool
  log : List (sys.ι × Event)

/-- No socket has been created. -/
def init : sys.State where
  opened := ∅
  regs _ := none
  interest _ := none
  locked _ := false
  dead _ := false
  log := []

variable {sys}

/-- What an operation does to the shared state, apart from the log. -/
def effect (s : sys.State) : (o : Op) → Res o → sys.State → Prop
  | .epollWait, .ok events, t =>
      -- armed entries, each once; an event disarms its entry
      events.length ≤ maxEvents ∧ (events.map Ready.fd).Nodup ∧
        (∀ ev ∈ events, s.interest ev.fd = some ⟨ev.session, true⟩) ∧
        t = { s with interest := fun fd =>
          if fd ∈ events.map Ready.fd then (s.interest fd).map fun e => { e with armed := false }
          else s.interest fd }
  | .lookup ev, found, t => found = s.regs ev.fd ∧ t = s
  | .lock _ reg, dead, t =>
      s.locked reg = false ∧ dead = s.dead reg ∧
        t = { s with locked := Function.update s.locked reg true }
  | .rearm fd, true, t =>
      ∃ e, s.interest fd = some e ∧
        t = { s with interest := Function.update s.interest fd (some { e with armed := true }) }
  | .unlock reg, _, t => t = { s with locked := Function.update s.locked reg false }
  | .socket, fd, t => fd ∉ s.opened ∧ t = { s with opened := insert fd s.opened }
  | .setReg reg, _, t => t = { s with regs := Function.update s.regs reg.fd (some reg) }
  | .ctlAdd reg, true, t =>
      s.interest reg.fd = none ∧
        t = { s with
          interest := Function.update s.interest reg.fd (some ⟨reg.session, true⟩) }
  | .delReg fd, _, t => t = { s with regs := Function.update s.regs fd none }
  | .takeReg fd, reg, t =>
      reg = s.regs fd ∧ t = { s with regs := Function.update s.regs fd none }
  | .ctlDel fd, _, t => t = { s with interest := Function.update s.interest fd none }
  | .markDead reg, _, t =>
      s.locked reg = false ∧ t = { s with dead := Function.update s.dead reg true }
  | .close fd, _, t =>
      t = { s with
        opened := s.opened.erase fd
        interest := Function.update s.interest fd none }
  | _, _, t => t = s

/-- What an operation of thread `i` does to the shared state. -/
def act (i : sys.ι) (s : sys.State) (o : Op) (r : Res o) (s' : sys.State) : Prop :=
  ∃ t, effect s o r t ∧ s' = { t with log := s.log ++ [(i, ⟨o, r⟩)] }

theorem log_of_act {i : sys.ι} {s s' : sys.State} {o : Op} {r : Res o} (h : act i s o r s') :
    s'.log = s.log ++ [(i, ⟨o, r⟩)] := by
  obtain ⟨t, -, rfl⟩ := h
  rfl

variable (sys) in
/-- The states of the reactor's runs: any interleaving of its threads. -/
def Reaches (now : (sys.ι → Proc Unit) × sys.State) : Prop :=
  Threads.Reachable act (sys.program, sys.init) now

theorem Reaches.step {ps : sys.ι → Proc Unit} {s s' : sys.State} (h : sys.Reaches (ps, s))
    {i : sys.ι} {o : Op} {k : Res o → Proc Unit} (hp : ps i = .step o k) (r : Res o)
    (ha : act i s o r s') : sys.Reaches (Function.update ps i (k r), s') :=
  h.tail (.mk i o k r hp ha)

end System

end Outway.Reactor
