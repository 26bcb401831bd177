import Outway.Lib.Monitor

/-!
# Outway.Server.Copy

`CopyBidirectionalContext` as it runs: the caller copies one way, a goroutine the other, and
two callbacks can interrupt them, one at the end of the context and one when the grace after
the first half-close is over.

A thread's own entries tell where it is in its program (`Local`), what it has read and what
it has passed on.  Reads and writes block as the peers like, until a deadline has passed; a
connection that buffers, as `bufferedConn` and `tls.Conn` do, hands out what it has read before
also then.  `copyStream` is `io.Copy` with its buffer; the splicing of two sockets in the kernel
passes the bytes on in the same way.
-/

namespace Outway.Server.Copy

open Prog

/-! ## Operations -/

/-- The two connections. -/
inductive Side where
  | a
  | b
  deriving DecidableEq

def Side.other : Side → Side
  | .a => .b
  | .b => .a

/-- What the threads do. -/
inductive Op where
  /-- `context.AfterFunc(ctx, interrupt)` -/
  | afterFunc
  /-- the goroutine is started -/
  | goCopy
  /-- its first instruction -/
  | begin
  | read (src : Side)
  | write (dst : Side) (bytes : List UInt8)
  | closeWrite (dst : Side)
  /-- `firstDone.CompareAndSwap(false, true)` -/
  | compareAndSwap
  /-- `time.AfterFunc(halfCloseGrace, interrupt)` -/
  | startTimer
  /-- its assignment to `graceTimer` -/
  | storeTimer
  /-- the assignment to `n1` -/
  | storeN1 (n : Nat)
  | wgDone
  | wgWait
  | cancelStop
  /-- `graceTimer != nil` -/
  | loadTimer
  | stopTimer
  | loadN1
  /-- the values that are returned -/
  | result (n1 n2 : Nat)
  /-- the context ends -/
  | cancel
  /-- the callback of the context begins -/
  | runCancel
  /-- the callback of the timer begins -/
  | runTimer
  /-- `SetDeadline(now)` -/
  | setDeadline (c : Side)
  /-- a copy goes on for longer than it is followed -/
  | unfollowed

/-- What an operation returns: a read its bytes and whether there was no error, a write the number
of bytes and whether there was no error. -/
@[reducible] def Res : Op → Type
  | .read _ => List UInt8 × Bool
  | .write _ _ => Nat × Bool
  | .compareAndSwap => Bool
  | .loadTimer => Bool
  | .loadN1 => Nat
  | _ => Unit

abbrev Event : Type := Prog.Event Op Res

/-- The code of a thread. -/
abbrev Proc (α : Type) : Type := Prog Op Res α

/-- Perform one operation. -/
def op (o : Op) : Proc (Res o) := .step o .ret

/-! ## The code -/

/-- The bytes that a write has taken; more than there were is an invalid write. -/
def taken (bytes : List UInt8) (r : Nat × Bool) : Nat := if bytes.length < r.1 then 0 else r.1

/-- Whether the copy can go on after a write. -/
def complete (bytes : List UInt8) (r : Nat × Bool) : Bool := r.2 && r.1 == bytes.length

/-- `io.Copy`, followed for a number of rounds, with the number of bytes so far. -/
def copyStream (src : Side) : (rounds written : Nat) → Proc Nat
  | 0, written => do
      op .unfollowed
      return written
  | rounds + 1, written => do
      let got ← op (.read src)
      if got.1 = [] then
        if got.2 then copyStream src rounds written else return written
      else
        let r ← op (.write src.other got.1)
        if complete got.1 r && got.2 then copyStream src rounds (written + taken got.1 r)
        else return written + taken got.1 r

/-- A call of `CopyBidirectionalContext`. -/
structure Call where
  /-- `halfCloseGrace > 0` -/
  grace : Bool
  /-- the rounds of a copy that are followed -/
  rounds : Nat

namespace Call

variable (call : Call)

def finishDirection (dst : Side) : Proc Unit := do
  op (.closeWrite dst)
  if ← op .compareAndSwap then
    if call.grace then
      op .startTimer
      op .storeTimer
    else return ()
  else return ()

/-- The goroutine. -/
def copier : Proc Unit := do
  op .begin
  let n ← copyStream .a call.rounds 0
  op (.storeN1 n)
  call.finishDirection .b
  op .wgDone

/-- The caller, behind `wg.Wait()`. -/
def leave (n2 : Nat) : Proc Unit := do
  op .cancelStop
  if ← op .loadTimer then
    op .stopTimer
    let n1 ← op .loadN1
    op (.result n1 n2)
  else
    let n1 ← op .loadN1
    op (.result n1 n2)

/-- The caller. -/
def caller : Proc Unit := do
  op .afterFunc
  op .goCopy
  let n2 ← copyStream .b call.rounds 0
  call.finishDirection .a
  op .wgWait
  leave n2

end Call

/-- `interrupt`. -/
def interrupt : Proc Unit := do
  op (.setDeadline .a)
  op (.setDeadline .b)

/-! ## The threads -/

/-- The caller, its goroutine, the two callbacks, and who ends the context. -/
inductive Thread where
  | caller
  | copier
  | onCancel
  | onTimer
  | owner
  deriving DecidableEq

/-- The program of a thread. -/
def Call.program (call : Call) : Thread → Proc Unit
  | .caller => call.caller
  | .copier => call.copier
  | .onCancel => do
      op .runCancel
      interrupt
  | .onTimer => do
      op .runTimer
      interrupt
  | .owner => op .cancel

/-- A callback that is to run later. -/
inductive Callback where
  | idle
  | armed
  | fired
  | stopped
  deriving DecidableEq

/-- `Stop`, or the function that `context.AfterFunc` returns. -/
def Callback.stop : Callback → Callback
  | .armed => .stopped
  | cb => cb

/-- What the threads share. -/
structure State where
  /-- the context has ended -/
  ctxDone : Bool
  /-- the registration with the context -/
  onCancel : Callback
  timer : Callback
  /-- the variable `graceTimer` is not nil -/
  graceTimer : Bool
  firstDone : Bool
  /-- the goroutine was started -/
  started : Bool
  /-- the wait group is at zero again -/
  finished : Bool
  n1 : Nat
  /-- the deadline of a connection has passed -/
  expired : Side → Bool
  log : List (Thread × Event)

/-- The beginning of a call. -/
def init : State where
  ctxDone := false
  onCancel := .idle
  timer := .idle
  graceTimer := false
  firstDone := false
  started := false
  finished := false
  n1 := 0
  expired := fun _ => false
  log := []

/-- When the peers let a read or a write return, after what has happened so far. -/
structure Peers where
  ready : List (Thread × Event) → Side → Bool
  room : List (Thread × Event) → Side → Bool
  /-- what the connection itself holds of its stream, which no deadline keeps back -/
  buffered : List (Thread × Event) → Side → List UInt8

variable (peers : Peers)

/-- What an operation does to the shared state, apart from the log. -/
def effect (s : State) : (o : Op) → Res o → State → Prop
  | .afterFunc, _, t => t = { s with onCancel := .armed }
  | .goCopy, _, t => t = { s with started := true }
  | .begin, _, t => s.started ∧ t = s
  | .read src, got, t =>
      (if s.expired src then
        if peers.buffered s.log src = [] then got = ([], false)
        else got.1 ≠ [] ∧ got.1 <+: peers.buffered s.log src ∧ got.2 = true
      else peers.ready s.log src = true) ∧ t = s
  | .write dst _, r, t =>
      (if s.expired dst then r.2 = false else peers.room s.log dst = true) ∧ t = s
  | .closeWrite _, _, t => t = s
  | .compareAndSwap, swapped, t => swapped = !s.firstDone ∧ t = { s with firstDone := true }
  | .startTimer, _, t => t = { s with timer := .armed }
  | .storeTimer, _, t => t = { s with graceTimer := true }
  | .storeN1 n, _, t => t = { s with n1 := n }
  | .wgDone, _, t => t = { s with finished := true }
  | .wgWait, _, t => s.finished ∧ t = s
  | .cancelStop, _, t => t = { s with onCancel := s.onCancel.stop }
  | .loadTimer, r, t => r = s.graceTimer ∧ t = s
  | .stopTimer, _, t => t = { s with timer := s.timer.stop }
  | .loadN1, n, t => n = s.n1 ∧ t = s
  | .result _ _, _, t => t = s
  | .cancel, _, t => t = { s with ctxDone := true }
  | .runCancel, _, t => s.onCancel = .armed ∧ s.ctxDone ∧ t = { s with onCancel := .fired }
  | .runTimer, _, t => s.timer = .armed ∧ t = { s with timer := .fired }
  | .setDeadline c, _, t => t = { s with expired := Function.update s.expired c true }
  | .unfollowed, _, _ => False

/-- What an operation of thread `i` does to the shared state. -/
def act (i : Thread) (s : State) (o : Op) (r : Res o) (s' : State) : Prop :=
  ∃ t, effect peers s o r t ∧ s' = { t with log := s.log ++ [(i, ⟨o, r⟩)] }

/-- The states of a call: any interleaving of its threads. -/
def Reaches (call : Call) (now : (Thread → Proc Unit) × State) : Prop :=
  Threads.Reachable (act peers) (call.program, init) now

variable {peers}

theorem log_of_act {i : Thread} {s s' : State} {o : Op} {r : Res o} (h : act peers i s o r s') :
    s'.log = s.log ++ [(i, ⟨o, r⟩)] := by
  obtain ⟨t, -, rfl⟩ := h
  rfl

/-! ## Where a thread is -/

/-- The places of the programs between their operations; `copying` is in `copyStream` or just
behind it. -/
inductive Stage where
  | fresh
  | registered
  | copying
  | counted
  | halfClosed
  | swapped
  | timed
  | finished
  | waited
  | unregistered
  | loaded
  | cleared
  | summed
  | returned
  /-- in a callback -/
  | running
  deriving DecidableEq

namespace Stage

/-! What is behind a thread. -/

def hasStarted : Stage → Bool
  | .fresh | .registered | .running => false
  | _ => true

def hasCounted : Stage → Bool
  | .fresh | .registered | .running | .copying => false
  | _ => true

def hasHalfClosed : Stage → Bool
  | .fresh | .registered | .running | .copying | .counted => false
  | _ => true

def hasSwapped : Stage → Bool
  | .fresh | .registered | .running | .copying | .counted | .halfClosed => false
  | _ => true

def hasFinished : Stage → Bool
  | .finished | .waited | .unregistered | .loaded | .cleared | .summed | .returned => true
  | _ => false

def hasWaited : Stage → Bool
  | .waited | .unregistered | .loaded | .cleared | .summed | .returned => true
  | _ => false

def hasUnregistered : Stage → Bool
  | .unregistered | .loaded | .cleared | .summed | .returned => true
  | _ => false

def hasCleared : Stage → Bool
  | .cleared | .summed | .returned => true
  | _ => false

def hasSummed : Stage → Bool
  | .summed | .returned => true
  | _ => false

end Stage

/-- What a thread has done. -/
structure Local where
  stage : Stage
  reads : Nat
  received : List UInt8
  sent : List UInt8
  /-- read and not yet written -/
  held : List UInt8
  /-- the source has ended -/
  ended : Bool
  /-- a write did not take all -/
  broken : Bool
  /-- its swap of `firstDone` went through -/
  winner : Bool
  /-- it has started the timer -/
  timed : Bool
  /-- it has stored the timer -/
  stored : Bool
  /-- the value of `n1` that was loaded -/
  loaded : Nat
  /-- the connections it has set a deadline for -/
  cut : List Side

namespace Local

def fresh : Local where
  stage := .fresh
  reads := 0
  received := []
  sent := []
  held := []
  ended := false
  broken := false
  winner := false
  timed := false
  stored := false
  loaded := 0
  cut := []

def next (grace : Bool) (l : Local) : Event → Local
  | ⟨.afterFunc, _⟩ => { l with stage := .registered }
  | ⟨.goCopy, _⟩ => { l with stage := .copying }
  | ⟨.begin, _⟩ => { l with stage := .copying }
  | ⟨.read _, got⟩ =>
      { l with
        reads := l.reads + 1
        received := l.received ++ got.1
        held := got.1
        ended := !got.2 }
  | ⟨.write _ bytes, r⟩ =>
      { l with
        sent := l.sent ++ bytes.take (taken bytes r)
        held := []
        broken := !complete bytes r }
  | ⟨.storeN1 _, _⟩ => { l with stage := .counted }
  | ⟨.closeWrite _, _⟩ => { l with stage := .halfClosed }
  | ⟨.compareAndSwap, swapped⟩ =>
      { l with stage := if swapped && grace then .swapped else .finished, winner := swapped }
  | ⟨.startTimer, _⟩ => { l with stage := .timed, timed := true }
  | ⟨.storeTimer, _⟩ => { l with stage := .finished, stored := true }
  | ⟨.wgDone, _⟩ => { l with stage := .returned }
  | ⟨.wgWait, _⟩ => { l with stage := .waited }
  | ⟨.cancelStop, _⟩ => { l with stage := .unregistered }
  | ⟨.loadTimer, timer⟩ => { l with stage := if timer then .loaded else .cleared }
  | ⟨.stopTimer, _⟩ => { l with stage := .cleared }
  | ⟨.loadN1, n⟩ => { l with stage := .summed, loaded := n }
  | ⟨.result _ _, _⟩ => { l with stage := .returned }
  | ⟨.runCancel, _⟩ => { l with stage := .running }
  | ⟨.runTimer, _⟩ => { l with stage := .running }
  | ⟨.setDeadline c, _⟩ => { l with cut := l.cut ++ [c] }
  | ⟨.cancel, _⟩ => l
  | ⟨.unfollowed, _⟩ => { l with ended := true }

/-- The next bytes can be read. -/
def Copying (l : Local) : Prop :=
  l.stage = .copying ∧ l.held = [] ∧ l.ended = false ∧ l.broken = false

/-- The copy can end. -/
def Copied (l : Local) : Prop := l.stage = .copying ∧ l.held = [] ∧ (l.ended ∨ l.broken)

/-- What a thread may do. -/
def Allows (rounds : Nat) (i : Thread) (l : Local) : Op → Prop
  | .afterFunc => i = .caller ∧ l = fresh
  | .goCopy => i = .caller ∧ l = { fresh with stage := .registered }
  | .begin => i = .copier ∧ l = fresh
  | .read src => (i = .caller ∧ src = .b ∨ i = .copier ∧ src = .a) ∧ l.Copying
  | .write dst bytes => (i = .caller ∧ dst = .a ∨ i = .copier ∧ dst = .b) ∧ l.stage = .copying ∧
      l.held = bytes ∧ bytes ≠ [] ∧ l.broken = false
  | .storeN1 n => i = .copier ∧ l.Copied ∧ n = l.sent.length
  | .closeWrite dst => i = .caller ∧ dst = .a ∧ l.Copied ∨
      i = .copier ∧ dst = .b ∧ l.stage = .counted
  | .compareAndSwap => (i = .caller ∨ i = .copier) ∧ l.stage = .halfClosed
  | .startTimer => (i = .caller ∨ i = .copier) ∧ l.stage = .swapped
  | .storeTimer => (i = .caller ∨ i = .copier) ∧ l.stage = .timed
  | .wgDone => i = .copier ∧ l.stage = .finished
  | .wgWait => i = .caller ∧ l.stage = .finished
  | .cancelStop => i = .caller ∧ l.stage = .waited
  | .loadTimer => i = .caller ∧ l.stage = .unregistered
  | .stopTimer => i = .caller ∧ l.stage = .loaded
  | .loadN1 => i = .caller ∧ l.stage = .cleared
  | .result n1 n2 => i = .caller ∧ l.stage = .summed ∧ n1 = l.loaded ∧ n2 = l.sent.length
  | .cancel => i = .owner
  | .runCancel => i = .onCancel ∧ l = fresh
  | .runTimer => i = .onTimer ∧ l = fresh
  | .setDeadline c => (i = .onCancel ∨ i = .onTimer) ∧ l.stage = .running ∧
      (c = .a ∧ l.cut = [] ∨ c = .b ∧ l.cut = [.a])
  | .unfollowed => (i = .caller ∨ i = .copier) ∧ l.Copying ∧ rounds ≤ l.reads

end Local

/-! ## The programs keep to it -/

section Programs

variable {call : Call} {i : Thread} {l : Local}

/-- The contract of a thread. -/
def watch (call : Call) (i : Thread) : Contract Op Res Local :=
  .monitor (Local.Allows call.rounds i) (Local.next call.grace)

/-- A program that goes on after an operation: the thread may perform it. -/
theorem wp_watch {α : Type} {o : Op} {f : Res o → Proc α} {Q : α → Local → Prop} :
    (op o >>= f).wp (watch call i) l Q ↔
      l.Allows call.rounds i o ∧ ∀ r, (f r).wp (watch call i) (l.next call.grace ⟨o, r⟩) Q :=
        wp_monitor_step

/-- A write takes no more than it was given. -/
theorem taken_le (bytes : List UInt8) (r : Nat × Bool) : taken bytes r ≤ bytes.length := by
  unfold taken
  split_ifs <;> omega

/-- The source of a thread's copy. -/
def Thread.Copies (i : Thread) (src : Side) : Prop :=
  i = .caller ∧ src = .b ∨ i = .copier ∧ src = .a

/-- `io.Copy` alternates reads and writes, and returns the number of bytes that were taken. -/
theorem wp_copyStream {src : Side} (hi : i.Copies src) {rounds written : Nat} (hl : l.Copying)
    (hrounds : call.rounds = rounds + l.reads) (hwritten : written = l.sent.length) :
    (copyStream src rounds written).wp (watch call i) l
      fun n l' => l'.Copied ∧ n = l'.sent.length := by
  have hcopies : i = .caller ∨ i = .copier := hi.imp And.left And.left
  induction rounds generalizing l written with
  | zero =>
      refine wp_watch.mpr ⟨⟨hcopies, hl, by omega⟩, fun _ => ?_⟩
      exact ⟨⟨hl.1, hl.2.1, .inl rfl⟩, hwritten⟩
  | succ rounds ih =>
      refine wp_watch.mpr ⟨⟨hi, hl⟩, fun got => ?_⟩
      obtain ⟨hstage, -, -, hbroken⟩ := hl
      obtain ⟨bytes, more⟩ := got
      by_cases hbytes : bytes = []
      · subst hbytes
        cases more with
        | true =>
            exact ih (l := l.next call.grace ⟨.read src, ([], true)⟩) ⟨hstage, rfl, rfl, hbroken⟩
              (by simp [Local.next]; omega) hwritten
        | false => exact ⟨⟨hstage, rfl, .inl rfl⟩, hwritten⟩
      · simp only [if_neg hbytes]
        have hdst : i = .caller ∧ src.other = .a ∨ i = .copier ∧ src.other = .b := by
          rcases hi with ⟨rfl, rfl⟩ | ⟨rfl, rfl⟩ <;> simp [Side.other]
        refine wp_watch.mpr ⟨⟨hdst, hstage, rfl, hbytes, hbroken⟩, fun r => ?_⟩
        have hlength : written + taken bytes r = (l.sent ++ bytes.take (taken bytes r)).length := by
          simp [hwritten, taken_le]
        split_ifs with hmore
        · obtain ⟨hcomplete, rfl⟩ : complete bytes r = true ∧ more = true := by simpa using hmore
          refine ih (l := (l.next call.grace ⟨.read src, (bytes, true)⟩).next call.grace
            ⟨.write src.other bytes, r⟩) ⟨hstage, rfl, rfl, ?_⟩
              (by simp [Local.next]; omega) hlength
          simp [Local.next, hcomplete]
        · refine ⟨⟨hstage, rfl, ?_⟩, hlength⟩
          simp only [Local.next]
          cases hcomplete : complete bytes r <;> cases more <;> simp_all

/-- A direction ends with a half-close, and with the timer if it was the first. -/
theorem wp_finishDirection {dst : Side} (hi : i = .caller ∨ i = .copier)
    (hclose : l.Allows call.rounds i (.closeWrite dst)) :
    (call.finishDirection dst).wp (watch call i) l
      fun _ l' => l'.stage = .finished ∧ l'.sent = l.sent := by
  refine wp_watch.mpr ⟨hclose, fun _ => ?_⟩
  refine wp_watch.mpr ⟨⟨hi, rfl⟩, fun swapped => ?_⟩
  cases swapped with
  | false => exact ⟨rfl, rfl⟩
  | true =>
      cases hgrace : call.grace with
      | false => exact ⟨by simp [Local.next], rfl⟩
      | true =>
          refine wp_watch.mpr ⟨⟨hi, by simp [Local.next]⟩, fun _ => ?_⟩
          exact wp_monitor_step.mpr ⟨⟨hi, rfl⟩, fun _ => ⟨rfl, rfl⟩⟩

/-- The goroutine ends behind `wg.Done()`. -/
theorem wp_copier : call.copier.wp (watch call .copier) .fresh fun _ l => l.stage = .returned := by
  refine wp_watch.mpr ⟨⟨rfl, rfl⟩, fun _ => ?_⟩
  refine wp_seq (wp_copyStream (.inr ⟨rfl, rfl⟩) ⟨rfl, rfl, rfl, rfl⟩ rfl rfl) ?_
  rintro n l ⟨hcopied, rfl⟩
  refine wp_watch.mpr ⟨⟨rfl, hcopied, rfl⟩, fun _ => ?_⟩
  refine wp_seq (wp_finishDirection (.inr rfl) (.inr ⟨rfl, rfl, rfl⟩)) ?_
  rintro _ l ⟨hstage, -⟩
  exact wp_monitor_step.mpr ⟨⟨rfl, hstage⟩, fun _ => rfl⟩

/-- Behind its wait, the caller unregisters, stops the timer and returns. -/
theorem wp_leave (hstage : l.stage = .waited) :
    (Call.leave l.sent.length).wp (watch call .caller) l fun _ l' => l'.stage = .returned := by
  refine wp_watch.mpr ⟨⟨rfl, hstage⟩, fun _ => ?_⟩
  refine wp_watch.mpr ⟨⟨rfl, rfl⟩, fun timer => ?_⟩
  cases timer with
  | false =>
      refine wp_watch.mpr ⟨⟨rfl, rfl⟩, fun n => ?_⟩
      exact wp_monitor_step.mpr ⟨⟨rfl, rfl, rfl, rfl⟩, fun _ => rfl⟩
  | true =>
      refine wp_watch.mpr ⟨⟨rfl, rfl⟩, fun _ => ?_⟩
      refine wp_watch.mpr ⟨⟨rfl, rfl⟩, fun n => ?_⟩
      exact wp_monitor_step.mpr ⟨⟨rfl, rfl, rfl, rfl⟩, fun _ => rfl⟩

/-- The caller copies, finishes its direction, and waits for the goroutine. -/
theorem wp_caller : call.caller.wp (watch call .caller) .fresh fun _ l => l.stage = .returned := by
  refine wp_watch.mpr ⟨⟨rfl, rfl⟩, fun _ => ?_⟩
  refine wp_watch.mpr ⟨⟨rfl, rfl⟩, fun _ => ?_⟩
  refine wp_seq (wp_copyStream (.inl ⟨rfl, rfl⟩) ⟨rfl, rfl, rfl, rfl⟩ rfl rfl) ?_
  rintro n l ⟨hcopied, rfl⟩
  refine wp_seq (wp_finishDirection (.inl rfl) (.inl ⟨rfl, rfl, hcopied⟩)) ?_
  rintro _ l' ⟨hstage, hsent⟩
  refine wp_watch.mpr ⟨⟨rfl, hstage⟩, fun _ => ?_⟩
  rw [← hsent]
  exact wp_leave rfl

/-- Where a thread ends. -/
def Local.Ended : Thread → Local → Prop
  | .caller, l | .copier, l => l.stage = .returned
  | .onCancel, l | .onTimer, l => l.cut = [.a, .b]
  | .owner, _ => True

/-- The callback sets the deadlines of both connections. -/
theorem wp_interrupt (hi : i = .onCancel ∨ i = .onTimer) (hstage : l.stage = .running)
    (hcut : l.cut = []) : interrupt.wp (watch call i) l fun _ l' => l'.cut = [.a, .b] := by
  refine wp_watch.mpr ⟨⟨hi, hstage, .inl ⟨rfl, hcut⟩⟩, fun _ => ?_⟩
  refine wp_monitor_step.mpr ⟨⟨hi, hstage, .inr ⟨rfl, by simp [Local.next, hcut]⟩⟩, fun _ => ?_⟩
  simp [Local.next, hcut]

/-- Every thread does only what it may. -/
theorem wp_program (i : Thread) :
    (call.program i).wp (watch call i) .fresh fun _ l => l.Ended i := by
  cases i with
  | caller => exact wp_caller
  | copier => exact wp_copier
  | onCancel => exact wp_watch.mpr ⟨⟨rfl, rfl⟩, fun _ => wp_interrupt (.inl rfl) rfl rfl⟩
  | onTimer => exact wp_watch.mpr ⟨⟨rfl, rfl⟩, fun _ => wp_interrupt (.inr rfl) rfl rfl⟩
  | owner => exact wp_monitor_step.mpr ⟨rfl, fun _ => trivial⟩

end Programs

end Outway.Server.Copy
