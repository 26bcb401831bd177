import Outway.Server.Copy

/-!
# Outway.Server.CopySafety

What a call of `CopyBidirectionalContext` guarantees, whatever the order of its threads.

`Kept` relates the shared variables to the places of the threads: who waits for whom, whose
timer it is, which callback has begun.
-/

namespace Outway.Server.Copy

open Prog

variable {call : Call} {peers : Peers}

/-- Where a thread is, by the log. -/
def place (call : Call) (log : List (Thread × Event)) (i : Thread) : Local :=
  (Threads.own log i).foldl (Local.next call.grace) .fresh

/-- An entry moves its own thread. -/
theorem place_concat (log : List (Thread × Event)) (i : Thread) (e : Event) :
    place call (log ++ [(i, e)]) =
      Function.update (place call log) i ((place call log i).next call.grace e) := by
  funext j
  by_cases hj : j = i
  · subst hj
    simp [place, Threads.own_concat]
  · simp [place, Threads.own_concat, Function.update_of_ne hj]

/-! ## One thread -/

attribute [grind] Local.next Local.fresh Local.Copying Local.Copied Stage.hasStarted Stage.hasWaited

/-- Who has cleared the timer has waited. -/
theorem Stage.hasWaited_of_hasCleared {stage : Stage} (h : stage.hasCleared = true) :
    stage.hasWaited = true := by
  cases stage <;> simp_all [Stage.hasCleared, Stage.hasWaited]

/-- Who has loaded `n1` has cleared the timer. -/
theorem Stage.hasCleared_of_hasSummed {stage : Stage} (h : stage.hasSummed = true) :
    stage.hasCleared = true := by
  cases stage <;> simp_all [Stage.hasSummed, Stage.hasCleared]

/-- How the operations of a thread lead from one place of its program to the next. -/
inductive Stage.Moves : Thread → Op → Stage → Stage → Prop where
  | read (i : Thread) (src : Side) (x : Stage) : Moves i (.read src) x x
  | write (i : Thread) (dst : Side) (bytes : List UInt8) (x : Stage) :
    Moves i (.write dst bytes) x x
  | cancel (i : Thread) (x : Stage) : Moves i .cancel x x
  | setDeadline (i : Thread) (c : Side) (x : Stage) : Moves i (.setDeadline c) x x
  | unfollowed (i : Thread) (x : Stage) : Moves i .unfollowed x x
  | afterFunc : Moves .caller .afterFunc .fresh .registered
  | goCopy : Moves .caller .goCopy .registered .copying
  | begin : Moves .copier .begin .fresh .copying
  | storeN1 (n : Nat) : Moves .copier (.storeN1 n) .copying .counted
  | closeA (dst : Side) : Moves .caller (.closeWrite dst) .copying .halfClosed
  | closeB (dst : Side) : Moves .copier (.closeWrite dst) .counted .halfClosed
  | won (i : Thread) : Moves i .compareAndSwap .halfClosed .swapped
  | lost (i : Thread) : Moves i .compareAndSwap .halfClosed .finished
  | startTimer (i : Thread) : Moves i .startTimer .swapped .timed
  | storeTimer (i : Thread) : Moves i .storeTimer .timed .finished
  | wgDone : Moves .copier .wgDone .finished .returned
  | wgWait : Moves .caller .wgWait .finished .waited
  | cancelStop : Moves .caller .cancelStop .waited .unregistered
  | timerLoaded : Moves .caller .loadTimer .unregistered .loaded
  | noTimer : Moves .caller .loadTimer .unregistered .cleared
  | stopTimer : Moves .caller .stopTimer .loaded .cleared
  | loadN1 : Moves .caller .loadN1 .cleared .summed
  | result (n1 n2 : Nat) : Moves .caller (.result n1 n2) .summed .returned
  | runCancel : Moves .onCancel .runCancel .fresh .running
  | runTimer : Moves .onTimer .runTimer .fresh .running

/-- A thread that does what it may moves along its program. -/
theorem Local.Allows.moves {rounds : Nat} {l : Local} {i : Thread} {o : Op}
    (h : l.Allows rounds i o) (grace : Bool) (r : Res o) :
    Stage.Moves i o l.stage (l.next grace ⟨o, r⟩).stage := by
  cases o with
  | read | write | cancel | setDeadline | unfollowed => constructor
  | afterFunc | goCopy | begin | runCancel | runTimer =>
      obtain ⟨rfl, rfl⟩ := h
      constructor
  | storeN1 n =>
      obtain ⟨rfl, ⟨hstage, -⟩, -⟩ := h
      exact hstage ▸ .storeN1 n
  | closeWrite dst =>
      rcases h with ⟨rfl, -, hstage, -⟩ | ⟨rfl, -, hstage⟩
      · exact hstage ▸ .closeA dst
      · exact hstage ▸ .closeB dst
  | compareAndSwap =>
      rw [h.2]
      cases hswap : r && grace with
      | true => simpa [Local.next, hswap] using Stage.Moves.won i
      | false => simpa [Local.next, hswap] using Stage.Moves.lost i
  | startTimer | storeTimer =>
      rw [h.2]
      constructor
  | loadTimer =>
      obtain ⟨rfl, hstage⟩ := h
      rw [hstage]
      cases r with
      | true => exact .timerLoaded
      | false => exact .noTimer
  | wgDone | wgWait | cancelStop | stopTimer | loadN1 =>
      obtain ⟨rfl, hstage⟩ := h
      rw [hstage]
      constructor
  | result n1 n2 =>
      obtain ⟨rfl, hstage, -⟩ := h
      exact hstage ▸ .result n1 n2

/-! ## The race for the timer -/

/-- The timer of the thread that was first to finish. -/
structure Local.Sound (grace : Bool) (l : Local) : Prop where
  winner : l.winner = true → l.stage.hasSwapped = true
  swapped : l.stage = .swapped → l.winner = true ∧ grace = true ∧ l.timed = false
  timed : l.stage = .timed → l.winner = true ∧ l.timed = true ∧ l.stored = false
  timed_winner : l.timed = true → l.winner = true ∧ grace = true
  stored_timed : l.stored = true → l.timed = true
  both : l.stage.hasFinished = true →
    l.timed = l.stored ∧ (l.winner = true → grace = true → l.timed = true)

theorem Local.sound_fresh (grace : Bool) : Local.fresh.Sound grace := by
  constructor <;> simp [Local.fresh, Stage.hasFinished]

/-- The operations of the race. -/
def Op.races : Op → Bool
  | .compareAndSwap | .startTimer | .storeTimer => true
  | _ => false

/-- Outside the race, a move changes nothing that it is about. -/
theorem Stage.Moves.race {i : Thread} {o : Op} {x y : Stage} (h : Moves i o x y)
    (ho : o.races = false) :
    y.hasSwapped = x.hasSwapped ∧ y.hasFinished = x.hasFinished ∧
      (y = .swapped ↔ x = .swapped) ∧ (y = .timed ↔ x = .timed) := by
  cases h with
  | won | lost | startTimer | storeTimer => cases ho
  | _ => simp [Stage.hasSwapped, Stage.hasFinished]

section Sound

variable {grace : Bool} {rounds : Nat} {i : Thread} {l l' : Local} {o : Op}

/-- A thread outside the race. -/
theorem Local.Sound.frame (h : l.Sound grace)
    (hsame : l'.winner = l.winner ∧ l'.timed = l.timed ∧ l'.stored = l.stored)
    (hmoves : Stage.Moves i o l.stage l'.stage) (ho : o.races = false) : l'.Sound grace := by
  obtain ⟨hwinner, htimed, hstored⟩ := hsame
  obtain ⟨hhasSwapped, hhasFinished, hatSwapped, hatTimed⟩ := hmoves.race ho
  constructor
  · rw [hwinner, hhasSwapped]
    exact h.winner
  · rw [hatSwapped, hwinner, htimed]
    exact h.swapped
  · rw [hatTimed, hwinner, htimed, hstored]
    exact h.timed
  · rw [htimed, hwinner]
    exact h.timed_winner
  · rw [hstored, htimed]
    exact h.stored_timed
  · rw [hhasFinished, htimed, hstored, hwinner]
    exact h.both

/-- Only the winner has a timer to store. -/
theorem Local.Sound.stored_eq_false (h : l.Sound grace) (htimed : l.timed = false) :
    l.stored = false := by
  by_contra hstored
  simp [h.stored_timed (by simpa using hstored)] at htimed

/-- Before its swap a thread has won nothing. -/
theorem Local.Sound.of_not_hasSwapped (h : l.Sound grace) (hstage : l.stage.hasSwapped = false) :
    l.winner = false ∧ l.timed = false ∧ l.stored = false := by
  have hwinner : l.winner = false := by
    by_contra hwinner
    simp [h.winner (by simpa using hwinner)] at hstage
  have htimed : l.timed = false := by
    by_contra htimed
    simp [(h.timed_winner (by simpa using htimed)).1] at hwinner
  exact ⟨hwinner, htimed, h.stored_eq_false htimed⟩

/-- One operation of the thread. -/
theorem Local.Sound.next (h : l.Sound grace) (hallows : l.Allows rounds i o) (r : Res o) :
    (l.next grace ⟨o, r⟩).Sound grace := by
  have hmoves := hallows.moves grace r
  cases o with
  | compareAndSwap =>
      -- whoever wins goes on to the timer, if there is a grace
      obtain ⟨-, htimed, hstored⟩ := h.of_not_hasSwapped (by simp [hallows.2, Stage.hasSwapped])
      cases r <;> cases grace <;> constructor <;>
        simp [Local.next, htimed, hstored, Stage.hasSwapped, Stage.hasFinished]
  | startTimer =>
      obtain ⟨hwinner, hgrace, htimed⟩ := h.swapped hallows.2
      exact ⟨fun _ => rfl, nofun, fun _ => ⟨hwinner, rfl, h.stored_eq_false htimed⟩,
        fun _ => ⟨hwinner, hgrace⟩, fun _ => rfl, nofun⟩
  | storeTimer =>
      obtain ⟨-, htimed, -⟩ := h.timed hallows.2
      exact ⟨fun _ => rfl, nofun, nofun, h.timed_winner, fun _ => htimed,
        fun _ => ⟨htimed, fun _ _ => htimed⟩⟩
  | _ => exact h.frame ⟨rfl, rfl, rfl⟩ hmoves rfl

end Sound

/-! ## The shared variables -/

/-- `Stop` arms nothing, and neither does it call the callback. -/
theorem stop_eq_idle {cb : Callback} : cb.stop = .idle ↔ cb = .idle := by
  cases cb <;> simp [Callback.stop]

theorem stop_eq_fired {cb : Callback} : cb.stop = .fired ↔ cb = .fired := by
  cases cb <;> simp [Callback.stop]

/-- A callback that was stopped does not begin any more. -/
theorem stop_ne_armed {cb : Callback} : cb.stop ≠ .armed := by
  cases cb <;> simp [Callback.stop]

/-- How far the caller `c` and the goroutine `g` are, and what they wait for. -/
structure Paced (s : State) (c g : Local) : Prop where
  registered : s.onCancel = .idle ↔ c.stage = .fresh
  started : s.started = c.stage.hasStarted
  begun : g.stage ≠ .fresh → s.started = true
  finished : s.finished = true ↔ g.stage = .returned
  waited : c.stage.hasWaited = true → s.finished = true
  unregistered : c.stage.hasUnregistered = true → s.onCancel ≠ .armed
  stopped : s.onCancel = .stopped → c.stage.hasUnregistered = true

/-- `firstDone`, and the timer of the thread that was first, of two threads that copy. -/
structure Raced (s : State) (l m : Local) : Prop where
  first : s.firstDone = (l.winner || m.winner)
  once : l.winner = true → m.winner = false
  timer : s.timer = .idle ↔ l.timed = false ∧ m.timed = false
  stored : s.graceTimer = (l.stored || m.stored)

/-- What the caller leaves of the timer. -/
structure Cleared (s : State) (c : Local) : Prop where
  cleared : c.stage.hasCleared = true → s.timer ≠ .armed
  stopped : s.timer = .stopped → c.stage.hasCleared = true

/-- The timer, between the caller `c` and the goroutine `g`. -/
structure Graced (s : State) (c g : Local) : Prop extends Raced s c g, Cleared s c

/-- The counter `n1`. -/
structure Counted (s : State) (c g : Local) : Prop where
  n1 : g.stage.hasCounted = true → s.n1 = g.sent.length
  summed : c.stage.hasSummed = true → c.loaded = g.sent.length

/-- The callbacks of the context and of the timer. -/
structure Interrupted (s : State) (x y : Local) : Prop where
  cancelled : s.onCancel = .fired ↔ x.stage = .running
  context : s.onCancel = .fired → s.ctxDone = true
  elapsed : s.timer = .fired ↔ y.stage = .running
  expired : ∀ c, s.expired c = true ↔ c ∈ x.cut ∨ c ∈ y.cut
  begun : ∀ c, s.expired c = true → s.onCancel = .fired ∨ s.timer = .fired

section Step

variable {grace : Bool} {rounds : Nat} {i : Thread} {s s' t : State} {l l' : Local} {o : Op}
  {r : Res o} {places : Thread → Local}

/-! ### How far the threads are -/

/-- The operations by which a thread is started, waits for another one, or lets it go on. -/
def Op.paces : Op → Bool
  | .afterFunc | .goCopy | .begin | .wgDone | .wgWait | .cancelStop | .runCancel => true
  | _ => false

/-- The caller, between such operations. -/
theorem Stage.Moves.caller {x y : Stage} (h : Moves .caller o x y) (ho : o.paces = false) :
    (y = .fresh ↔ x = .fresh) ∧ y.hasStarted = x.hasStarted ∧ y.hasWaited = x.hasWaited ∧
      y.hasUnregistered = x.hasUnregistered := by
  cases h with
  | afterFunc | goCopy | wgWait | cancelStop => cases ho
  | _ => exact ⟨by simp, rfl, rfl, rfl⟩

/-- The goroutine, between such operations. -/
theorem Stage.Moves.copier {x y : Stage} (h : Moves .copier o x y) (ho : o.paces = false) :
    (y = .fresh ↔ x = .fresh) ∧ (y = .returned ↔ x = .returned) := by
  cases h with
  | begin | wgDone => cases ho
  | _ => simp

/-- An operation that leaves the threads where they are. -/
theorem Paced.frame (h : Paced s (places .caller) (places .copier))
    (hs : s'.onCancel = s.onCancel ∧ s'.started = s.started ∧ s'.finished = s.finished)
    (hmoves : Stage.Moves i o (places i).stage l'.stage) (ho : o.paces = false) :
    Paced s' (Function.update places i l' .caller) (Function.update places i l' .copier) := by
  obtain ⟨honCancel, hstarted, hfinished⟩ := hs
  have hc : let x := (places .caller).stage; let y := (Function.update places i l' .caller).stage
      (y = .fresh ↔ x = .fresh) ∧ y.hasStarted = x.hasStarted ∧ y.hasWaited = x.hasWaited ∧
        y.hasUnregistered = x.hasUnregistered := by
    by_cases hi : i = .caller
    · subst hi
      simpa using hmoves.caller ho
    · simp [Function.update_of_ne (Ne.symm hi)]
  have hg : let x := (places .copier).stage; let y := (Function.update places i l' .copier).stage
      (y = .fresh ↔ x = .fresh) ∧ (y = .returned ↔ x = .returned) := by
    by_cases hi : i = .copier
    · subst hi
      simpa using hmoves.copier ho
    · simp [Function.update_of_ne (Ne.symm hi)]
  obtain ⟨hcfresh, hcstarted, hcwaited, hcunregistered⟩ := hc
  obtain ⟨hgfresh, hgreturned⟩ := hg
  constructor
  · rw [honCancel, h.registered, hcfresh]
  · rw [hstarted, h.started, hcstarted]
  · rw [hstarted, Ne, hgfresh]
    exact h.begun
  · rw [hfinished, h.finished, hgreturned]
  · rw [hcwaited, hfinished]
    exact h.waited
  · rw [hcunregistered, honCancel]
    exact h.unregistered
  · rw [hcunregistered, honCancel]
    exact h.stopped

/-- One operation of one thread. -/
theorem Paced.step (h : Paced s (places .caller) (places .copier))
    (hallows : (places i).Allows rounds i o) (heffect : effect peers s o r t)
    (log : List (Thread × Event)) :
    Paced { t with log } (Function.update places i ((places i).next grace ⟨o, r⟩) .caller)
      (Function.update places i ((places i).next grace ⟨o, r⟩) .copier) := by
  have hmoves := hallows.moves grace r
  cases o with
  | afterFunc =>
      obtain ⟨rfl, hfresh⟩ := hallows
      obtain rfl := heffect
      have hstarted := h.started
      rw [hfresh] at hstarted
      rw [Function.update_self, Function.update_of_ne (by simp)]
      exact ⟨by simp [Local.next], hstarted, h.begun, h.finished, nofun, nofun, nofun⟩
  | goCopy =>
      obtain ⟨rfl, hregistered⟩ := hallows
      obtain rfl := heffect
      have hidle := h.registered
      have hstopped := h.stopped
      rw [hregistered] at hidle hstopped
      rw [Function.update_self, Function.update_of_ne (by simp)]
      exact ⟨by simpa [Local.next] using hidle, rfl, fun _ => rfl, h.finished, nofun, nofun,
        hstopped⟩
  | begin =>
      obtain ⟨rfl, hfresh⟩ := hallows
      obtain ⟨hstarted, rfl⟩ := heffect
      have hfinished := h.finished
      rw [hfresh] at hfinished
      rw [Function.update_self, Function.update_of_ne (by simp)]
      exact ⟨h.registered, h.started, fun _ => hstarted,
        by simpa [Local.next, Local.fresh] using hfinished, h.waited, h.unregistered, h.stopped⟩
  | wgDone =>
      obtain ⟨rfl, hstage⟩ := hallows
      obtain rfl := heffect
      rw [Function.update_self, Function.update_of_ne (by simp)]
      exact ⟨h.registered, h.started, fun _ => h.begun (by simp [hstage]), by simp [Local.next],
        fun _ => rfl, h.unregistered, h.stopped⟩
  | wgWait =>
      obtain ⟨rfl, hstage⟩ := hallows
      obtain ⟨hfinished, rfl⟩ := heffect
      have hidle := h.registered
      have hstarted := h.started
      have hstopped := h.stopped
      rw [hstage] at hidle hstarted hstopped
      rw [Function.update_self, Function.update_of_ne (by simp)]
      exact ⟨by simpa [Local.next] using hidle, hstarted, h.begun, h.finished,
        fun _ => hfinished, nofun, hstopped⟩
  | cancelStop =>
      obtain ⟨rfl, hstage⟩ := hallows
      obtain rfl := heffect
      have hidle := h.registered
      have hstarted := h.started
      have hwaited := h.waited
      rw [hstage] at hidle hstarted hwaited
      rw [Function.update_self, Function.update_of_ne (by simp)]
      exact ⟨by simpa [Local.next, stop_eq_idle] using hidle, hstarted, h.begun, h.finished,
        hwaited, fun _ => stop_ne_armed, fun _ => rfl⟩
  | runCancel =>
      obtain ⟨rfl, -⟩ := hallows
      obtain ⟨harmed, -, rfl⟩ := heffect
      rw [Function.update_of_ne (by simp), Function.update_of_ne (by simp)]
      have hidle := h.registered
      rw [harmed] at hidle
      exact ⟨by simpa using hidle, h.started, h.begun, h.finished, h.waited, nofun, nofun⟩
  | read | write | compareAndSwap | loadTimer | loadN1 | runTimer =>
      obtain ⟨-, rfl⟩ := heffect
      exact h.frame ⟨rfl, rfl, rfl⟩ hmoves rfl
  | unfollowed => exact heffect.elim
  | _ =>
      obtain rfl := heffect
      exact h.frame ⟨rfl, rfl, rfl⟩ hmoves rfl

/-- The other threads fire the callbacks and set deadlines. -/
theorem Local.Allows.callback (h : l.Allows rounds i o) (hc : i ≠ .caller) (hg : i ≠ .copier) :
    i = .owner ∧ o = .cancel ∨ i = .onCancel ∧ o = .runCancel ∧ l = .fresh ∨
      i = .onTimer ∧ o = .runTimer ∧ l = .fresh ∨
      (i = .onCancel ∨ i = .onTimer) ∧ l.stage = .running ∧ ∃ d, o = .setDeadline d := by
  cases o with
  | cancel => exact .inl ⟨h, rfl⟩
  | runCancel => exact .inr (.inl ⟨h.1, rfl, h.2⟩)
  | runTimer => exact .inr (.inr (.inl ⟨h.1, rfl, h.2⟩))
  | setDeadline d => exact .inr (.inr (.inr ⟨h.1, h.2.1, d, rfl⟩))
  | _ => simp [Local.Allows, hc, hg] at h

/-! ### The timer -/

/-- The race is the same from the other thread. -/
theorem Raced.symm {m : Local} (h : Raced s l m) : Raced s m l where
  first := by rw [h.first, Bool.or_comm]
  once hm := by
    by_contra hl
    simp [h.once (by simpa using hl)] at hm
  timer := by rw [h.timer, and_comm]
  stored := by rw [h.stored, Bool.or_comm]

/-- One operation of a thread that copies. -/
theorem Raced.step {m : Local} (h : Raced s l m) (hsound : l.Sound grace)
    (hi : i = .caller ∨ i = .copier) (hallows : l.Allows rounds i o)
    (heffect : effect peers s o r t)
    (log : List (Thread × Event)) : Raced { t with log } (l.next grace ⟨o, r⟩) m := by
  cases o with
  | compareAndSwap =>
      -- the thread has not won before, so the swap goes through if the other one has not won
      obtain ⟨-, hstage⟩ := hallows
      obtain ⟨rfl, rfl⟩ := heffect
      have hwinner := (hsound.of_not_hasSwapped (by simp [hstage, Stage.hasSwapped])).1
      have hfirst := h.first
      rw [hwinner, Bool.false_or] at hfirst
      exact ⟨by simp [Local.next, hfirst], by simp [Local.next, hfirst], h.timer, h.stored⟩
  | startTimer =>
      obtain rfl := heffect
      exact ⟨h.first, h.once, by simp [Local.next], h.stored⟩
  | storeTimer =>
      obtain rfl := heffect
      exact ⟨h.first, h.once, h.timer, by simp [Local.next]⟩
  | stopTimer =>
      obtain rfl := heffect
      exact ⟨h.first, h.once, stop_eq_idle.trans h.timer, h.stored⟩
  | begin | read | write | wgWait | loadTimer | loadN1 =>
      obtain ⟨-, rfl⟩ := heffect
      exact ⟨h.first, h.once, h.timer, h.stored⟩
  | runCancel | runTimer => rcases hi with rfl | rfl <;> simp [Local.Allows] at hallows
  | unfollowed => exact heffect.elim
  | _ =>
      obtain rfl := heffect
      exact ⟨h.first, h.once, h.timer, h.stored⟩

/-- One operation of a callback, or the end of the context. -/
theorem Raced.callback {m n : Local} (h : Raced s m n) (hc : i ≠ .caller) (hg : i ≠ .copier)
    (hallows : l.Allows rounds i o) (heffect : effect peers s o r t) (log : List (Thread × Event)) :
    Raced { t with log } m n := by
  obtain ⟨-, rfl⟩ | ⟨-, rfl, -⟩ | ⟨-, rfl, -⟩ | ⟨-, -, d, rfl⟩ := hallows.callback hc hg
  · obtain rfl := heffect
    exact ⟨h.first, h.once, h.timer, h.stored⟩
  · obtain ⟨-, -, rfl⟩ := heffect
    exact ⟨h.first, h.once, h.timer, h.stored⟩
  · obtain ⟨harmed, rfl⟩ := heffect
    have htimer := h.timer
    rw [harmed] at htimer
    exact ⟨h.first, h.once, by simpa using htimer, h.stored⟩
  · obtain rfl := heffect
    exact ⟨h.first, h.once, h.timer, h.stored⟩

/-- While the goroutine has not left the wait group, the caller has not cleared the timer. -/
theorem Paced.not_hasCleared {c g : Local} (h : Paced s c g) (hstage : g.stage ≠ .returned) :
    ¬ c.stage.hasCleared = true := fun hcleared =>
  hstage (h.finished.mp (h.waited (Stage.hasWaited_of_hasCleared hcleared)))

/-- Only the caller's way round the timer ends with the timer cleared. -/
theorem Stage.Moves.hasCleared {x y : Stage} (h : Moves .caller o x y)
    (ho : o ≠ .loadTimer ∧ o ≠ .stopTimer) : y.hasCleared = x.hasCleared := by
  cases h with
  | timerLoaded | noTimer | stopTimer => simp at ho
  | _ => rfl

/-- An operation away from the timer. -/
theorem Cleared.frame (h : Cleared s (places .caller)) (hs : s'.timer = s.timer)
    (hmoves : Stage.Moves i o (places i).stage l'.stage) (ho : o ≠ .loadTimer ∧ o ≠ .stopTimer) :
    Cleared s' (Function.update places i l' .caller) := by
  have hsame : (Function.update places i l' .caller).stage.hasCleared =
      (places .caller).stage.hasCleared := by
    by_cases hi : i = .caller
    · subst hi
      simpa using hmoves.hasCleared ho
    · rw [Function.update_of_ne (Ne.symm hi)]
  constructor
  · rw [hsame, hs]
    exact h.cleared
  · rw [hsame, hs]
    exact h.stopped

/-- One operation of one thread. -/
theorem Cleared.step (h : Graced s (places .caller) (places .copier))
    (hp : Paced s (places .caller) (places .copier)) (hsound : ∀ j, (places j).Sound grace)
    (hallows : (places i).Allows rounds i o) (heffect : effect peers s o r t)
    (log : List (Thread × Event)) :
    Cleared { t with log } (Function.update places i ((places i).next grace ⟨o, r⟩) .caller) := by
  have hmoves := hallows.moves grace r
  have hbefore := h.toCleared
  cases o with
  | startTimer =>
      -- whoever starts the timer has not left, so the caller has not been to clear it
      obtain ⟨hi, hstage⟩ := hallows
      obtain rfl := heffect
      refine ⟨fun hcleared => ?_, nofun⟩
      rcases hi with rfl | rfl
      · simp [Local.next, Stage.hasCleared] at hcleared
      · rw [Function.update_of_ne (by simp)] at hcleared
        exact absurd hcleared (hp.not_hasCleared (by simp [hstage]))
  | loadTimer =>
      obtain ⟨rfl, hstage⟩ := hallows
      obtain ⟨rfl, rfl⟩ := heffect
      rw [Function.update_self]
      refine ⟨fun hcleared => ?_, fun hstopped => ?_⟩
      · -- both threads are behind the timer, and as none was stored, none was started
        have hgraceTimer : t.graceTimer = false := by
          by_contra hstored
          simp [Local.next, Bool.not_eq_false _ |>.mp hstored, Stage.hasCleared] at hcleared
        rw [h.stored, Bool.or_eq_false_iff] at hgraceTimer
        have hreturned := hp.finished.mp (hp.waited (by simp [hstage, Stage.hasWaited]))
        have hc := ((hsound .caller).both (by simp [hstage, Stage.hasFinished])).1
        have hg := ((hsound .copier).both (by simp [hreturned, Stage.hasFinished])).1
        simp [h.timer.mpr ⟨hc.trans hgraceTimer.1, hg.trans hgraceTimer.2⟩]
      · have hcleared := h.stopped hstopped
        simp [hstage, Stage.hasCleared] at hcleared
  | stopTimer =>
      obtain ⟨rfl, -⟩ := hallows
      obtain rfl := heffect
      rw [Function.update_self]
      exact ⟨fun _ => stop_ne_armed, fun _ => rfl⟩
  | runTimer =>
      obtain ⟨-, rfl⟩ := heffect
      exact ⟨fun _ => by simp, nofun⟩
  | begin | read | write | compareAndSwap | wgWait | loadN1 =>
      obtain ⟨-, rfl⟩ := heffect
      exact hbefore.frame rfl hmoves (by simp)
  | runCancel =>
      obtain ⟨-, -, rfl⟩ := heffect
      exact hbefore.frame rfl hmoves (by simp)
  | unfollowed => exact heffect.elim
  | _ =>
      obtain rfl := heffect
      exact hbefore.frame rfl hmoves (by simp)

/-- One operation of one thread. -/
theorem Graced.step (h : Graced s (places .caller) (places .copier))
    (hp : Paced s (places .caller) (places .copier)) (hsound : ∀ j, (places j).Sound grace)
    (hallows : (places i).Allows rounds i o) (heffect : effect peers s o r t)
    (log : List (Thread × Event)) :
    Graced { t with log } (Function.update places i ((places i).next grace ⟨o, r⟩) .caller)
      (Function.update places i ((places i).next grace ⟨o, r⟩) .copier) := by
  refine ⟨?_, .step h hp hsound hallows heffect log⟩
  have hraced := h.toRaced
  cases i with
  | caller => simpa using hraced.step (hsound .caller) (.inl rfl) hallows heffect log
  | copier => simpa using (hraced.symm.step (hsound .copier) (.inr rfl) hallows heffect log).symm
  | _ => simpa using hraced.callback (by simp) (by simp) hallows heffect log

/-! ### The counter -/

/-- The goroutine has its number from when it stores it. -/
theorem Stage.Moves.hasCounted {x y : Stage} (h : Moves .copier o x y) (ho : ∀ n, o ≠ .storeN1 n) :
    y.hasCounted = x.hasCounted := by
  cases h with
  | storeN1 n => exact absurd rfl (ho n)
  | _ => rfl

/-- The caller has the sum from when it loads `n1`. -/
theorem Stage.Moves.hasSummed {x y : Stage} (h : Moves .caller o x y) (ho : o ≠ .loadN1) :
    y.hasSummed = x.hasSummed := by
  cases h with
  | loadN1 => exact absurd rfl ho
  | _ => rfl

/-- An operation away from the counter. -/
theorem Counted.frame (h : Counted s (places .caller) (places .copier)) (hs : s'.n1 = s.n1)
    (hl : (i = .copier → l'.sent = (places i).sent) ∧ l'.loaded = (places i).loaded)
    (hmoves : Stage.Moves i o (places i).stage l'.stage)
    (ho : (∀ n, o ≠ .storeN1 n) ∧ o ≠ .loadN1) :
    Counted s' (Function.update places i l' .caller) (Function.update places i l' .copier) := by
  by_cases hc : i = .caller
  · subst hc
    rw [Function.update_self, Function.update_of_ne (by simp)]
    exact ⟨hs ▸ h.n1, by rw [hmoves.hasSummed ho.2, hl.2]; exact h.summed⟩
  rw [Function.update_of_ne (Ne.symm hc)]
  by_cases hg : i = .copier
  · subst hg
    rw [Function.update_self]
    exact ⟨by rw [hmoves.hasCounted ho.1, hs, hl.1 rfl]; exact h.n1, hl.1 rfl ▸ h.summed⟩
  · rw [Function.update_of_ne (Ne.symm hg)]
    exact ⟨hs ▸ h.n1, h.summed⟩

/-- One operation of one thread. -/
theorem Counted.step (h : Counted s (places .caller) (places .copier))
    (hp : Paced s (places .caller) (places .copier)) (hallows : (places i).Allows rounds i o)
    (heffect : effect peers s o r t) (log : List (Thread × Event)) :
    Counted { t with log } (Function.update places i ((places i).next grace ⟨o, r⟩) .caller)
      (Function.update places i ((places i).next grace ⟨o, r⟩) .copier) := by
  have hmoves := hallows.moves grace r
  cases o with
  | write dst bytes =>
      obtain ⟨-, rfl⟩ := heffect
      by_cases hi : i = .copier
      · -- a goroutine that still writes has not counted, and the caller waits for it
        subst hi
        obtain ⟨-, hstage, -⟩ := hallows
        rw [Function.update_self, Function.update_of_ne (by simp)]
        refine ⟨fun hcounted => ?_, fun hsummed => ?_⟩
        · simp [Local.next, hstage, Stage.hasCounted] at hcounted
        · exact absurd (Stage.hasCleared_of_hasSummed hsummed)
            (hp.not_hasCleared (by simp [hstage]))
      · exact h.frame rfl ⟨fun hcopier => absurd hcopier hi, rfl⟩ hmoves (by simp)
  | storeN1 n =>
      obtain ⟨rfl, -, rfl⟩ := hallows
      obtain rfl := heffect
      rw [Function.update_self, Function.update_of_ne (by simp)]
      exact ⟨fun _ => rfl, h.summed⟩
  | loadN1 =>
      obtain ⟨rfl, hstage⟩ := hallows
      obtain ⟨rfl, rfl⟩ := heffect
      have hreturned := hp.finished.mp (hp.waited (by simp [hstage, Stage.hasWaited]))
      rw [Function.update_self, Function.update_of_ne (by simp)]
      exact ⟨h.n1, fun _ => h.n1 (by simp [hreturned, Stage.hasCounted])⟩
  | begin | read | compareAndSwap | wgWait | loadTimer | runTimer =>
      obtain ⟨-, rfl⟩ := heffect
      exact h.frame rfl ⟨fun _ => rfl, rfl⟩ hmoves (by simp)
  | runCancel =>
      obtain ⟨-, -, rfl⟩ := heffect
      exact h.frame rfl ⟨fun _ => rfl, rfl⟩ hmoves (by simp)
  | unfollowed => exact heffect.elim
  | _ =>
      obtain rfl := heffect
      exact h.frame rfl ⟨fun _ => rfl, rfl⟩ hmoves (by simp)

/-! ### The callbacks -/

/-- A deadline that a callback sets is one more of its own. -/
theorem expired_setDeadline {x y : Local} {d : Side}
    (hcut : ∀ e, s.expired e = true ↔ e ∈ x.cut ∨ e ∈ y.cut) (e : Side) :
    Function.update s.expired d true e = true ↔ (e ∈ x.cut ∨ e = d) ∨ e ∈ y.cut := by
  by_cases he : e = d
  · simp [he]
  · simp [he, hcut]

section Interrupted

variable {x y : Local}

/-- An operation that begins no callback and sets no deadline. -/
theorem Interrupted.frame (h : Interrupted s x y)
    (hs : s'.expired = s.expired ∧ s'.ctxDone = s.ctxDone)
    (hfired : s'.onCancel = .fired ↔ s.onCancel = .fired)
    (helapsed : s'.timer = .fired ↔ s.timer = .fired) : Interrupted s' x y := by
  obtain ⟨hexpired, hdone⟩ := hs
  constructor
  · rw [hfired]
    exact h.cancelled
  · rw [hfired, hdone]
    exact h.context
  · rw [helapsed]
    exact h.elapsed
  · rw [hexpired]
    exact h.expired
  · rw [hexpired, hfired, helapsed]
    exact h.begun

/-- The callbacks at an operation of a thread that copies. -/
theorem Interrupted.copying (h : Interrupted s x y) (hi : i = .caller ∨ i = .copier)
    (hallows : l.Allows rounds i o) (hafter : o = .afterFunc → s.onCancel = .idle)
    (htimer : o = .startTimer → s.timer = .idle) (heffect : effect peers s o r t)
    (log : List (Thread × Event)) : Interrupted { t with log } x y := by
  cases o with
  | afterFunc =>
      obtain rfl := heffect
      exact h.frame ⟨rfl, rfl⟩ (by simp [hafter rfl]) Iff.rfl
  | cancelStop =>
      obtain rfl := heffect
      exact h.frame ⟨rfl, rfl⟩ stop_eq_fired Iff.rfl
  | startTimer =>
      obtain rfl := heffect
      exact h.frame ⟨rfl, rfl⟩ Iff.rfl (by simp [htimer rfl])
  | stopTimer =>
      obtain rfl := heffect
      exact h.frame ⟨rfl, rfl⟩ Iff.rfl stop_eq_fired
  | begin | read | write | compareAndSwap | wgWait | loadTimer | loadN1 =>
      obtain ⟨-, rfl⟩ := heffect
      exact h.frame ⟨rfl, rfl⟩ Iff.rfl Iff.rfl
  | cancel | runCancel | runTimer | setDeadline =>
      rcases hi with rfl | rfl <;> simp [Local.Allows] at hallows
  | unfollowed => exact heffect.elim
  | _ =>
      obtain rfl := heffect
      exact h.frame ⟨rfl, rfl⟩ Iff.rfl Iff.rfl

/-- The callback of the context begins when the context has ended, and sets its deadlines. -/
theorem Interrupted.onCancel (h : Interrupted s x y) (hallows : x.Allows rounds .onCancel o)
    (heffect : effect peers s o r t) (log : List (Thread × Event)) :
    Interrupted { t with log } (x.next grace ⟨o, r⟩) y := by
  obtain ⟨hi, -⟩ | ⟨-, rfl, -⟩ | ⟨hi, -⟩ | ⟨-, hstage, d, rfl⟩ :=
    hallows.callback (by simp) (by simp)
  · cases hi
  · obtain ⟨-, hdone, rfl⟩ := heffect
    exact ⟨by simp [Local.next], fun _ => hdone, h.elapsed, h.expired, fun _ _ => .inl rfl⟩
  · cases hi
  · obtain rfl := heffect
    refine ⟨h.cancelled, h.context, h.elapsed, fun e => ?_,
      fun _ _ => .inl (h.cancelled.mpr hstage)⟩
    simp [Local.next, expired_setDeadline h.expired]

/-- The callback of the timer begins when the timer has run out, and sets its deadlines. -/
theorem Interrupted.onTimer (h : Interrupted s x y) (hallows : y.Allows rounds .onTimer o)
    (heffect : effect peers s o r t) (log : List (Thread × Event)) :
    Interrupted { t with log } x (y.next grace ⟨o, r⟩) := by
  obtain ⟨hi, -⟩ | ⟨hi, -⟩ | ⟨-, rfl, -⟩ | ⟨-, hstage, d, rfl⟩ :=
    hallows.callback (by simp) (by simp)
  · cases hi
  · cases hi
  · obtain ⟨-, rfl⟩ := heffect
    exact ⟨h.cancelled, h.context, by simp [Local.next], h.expired, fun _ _ => .inr rfl⟩
  · obtain rfl := heffect
    refine ⟨h.cancelled, h.context, h.elapsed, fun e => ?_, fun _ _ => .inr (h.elapsed.mpr hstage)⟩
    have hcut (e : Side) : s.expired e = true ↔ e ∈ y.cut ∨ e ∈ x.cut := by
      rw [h.expired, or_comm]
    simp only [Local.next, List.mem_append, List.mem_singleton]
    rw [expired_setDeadline hcut, or_comm]

/-- The end of the context. -/
theorem Interrupted.owner (h : Interrupted s x y) (hallows : l.Allows rounds .owner o)
    (heffect : effect peers s o r t) (log : List (Thread × Event)) :
    Interrupted { t with log } x y := by
  obtain ⟨-, rfl⟩ | ⟨hi, -⟩ | ⟨hi, -⟩ | ⟨hi | hi, -⟩ := hallows.callback (by simp) (by simp)
  · obtain rfl := heffect
    exact ⟨h.cancelled, fun _ => rfl, h.elapsed, h.expired, h.begun⟩
  all_goals cases hi

/-- One operation of one thread. -/
theorem Interrupted.step (h : Interrupted s (places .onCancel) (places .onTimer))
    (hallows : (places i).Allows rounds i o) (hafter : o = .afterFunc → s.onCancel = .idle)
    (htimer : o = .startTimer → s.timer = .idle) (heffect : effect peers s o r t)
    (log : List (Thread × Event)) :
    Interrupted { t with log } (Function.update places i ((places i).next grace ⟨o, r⟩) .onCancel)
      (Function.update places i ((places i).next grace ⟨o, r⟩) .onTimer) := by
  cases i with
  | caller => simpa using h.copying (.inl rfl) hallows hafter htimer heffect log
  | copier => simpa using h.copying (.inr rfl) hallows hafter htimer heffect log
  | onCancel => simpa using h.onCancel hallows heffect log
  | onTimer => simpa using h.onTimer hallows heffect log
  | owner => simpa using h.owner hallows heffect log

end Interrupted

end Step

/-! ## Every state -/

/-- What holds in every state of a call. -/
structure Kept (call : Call) (s : State) : Prop where
  sound : ∀ i, (place call s.log i).Sound call.grace
  paced : Paced s (place call s.log .caller) (place call s.log .copier)
  graced : Graced s (place call s.log .caller) (place call s.log .copier)
  counted : Counted s (place call s.log .caller) (place call s.log .copier)
  interrupted : Interrupted s (place call s.log .onCancel) (place call s.log .onTimer)

/-- What a thread may do next, by its own entries. -/
def permits (call : Call) (i : Thread) (es : List Event) (o : Op) : Prop :=
  (es.foldl (Local.next call.grace) .fresh).Allows call.rounds i o

theorem kept_init : Kept call init where
  sound _ := Local.sound_fresh call.grace
  paced := by constructor <;> simp [init, place, Threads.own, Local.fresh, Stage.hasStarted,
    Stage.hasWaited, Stage.hasUnregistered]
  graced := ⟨by constructor <;> simp [init, place, Threads.own, Local.fresh],
    by constructor <;> simp [init, place, Threads.own, Local.fresh, Stage.hasCleared]⟩
  counted := by
    constructor <;> simp [init, place, Threads.own, Local.fresh, Stage.hasCounted, Stage.hasSummed]
  interrupted := by constructor <;> simp [init, place, Threads.own, Local.fresh]

/-- One operation of one thread. -/
theorem Kept.step {s s' : State} {i : Thread} {o : Op} {r : Res o} (h : Kept call s)
    (hpermits : permits call i (Threads.own s.log i) o) (ha : act peers i s o r s') :
      Kept call s' := by
  obtain ⟨t, heffect, rfl⟩ := ha
  have hallows : (place call s.log i).Allows call.rounds i o := hpermits
  obtain ⟨hsound, hpaced, hgraced, hcounted, hinterrupted⟩ := h
  have hsound' : ∀ j, (Function.update (place call s.log) i
      ((place call s.log i).next call.grace ⟨o, r⟩) j).Sound call.grace := by
    intro j
    by_cases hj : j = i
    · subst hj
      simpa using (hsound j).next hallows r
    · simpa [Function.update_of_ne hj] using hsound j
  have hafter : o = .afterFunc → s.onCancel = .idle := by
    rintro rfl
    obtain ⟨rfl, hfresh⟩ := hallows
    rw [hpaced.registered, hfresh]
    rfl
  have htimer : o = .startTimer → s.timer = .idle := by
    rintro rfl
    have hc := hsound .caller
    have hg := hsound .copier
    rw [hgraced.timer]
    have hother {l l' : Local} (hl : l.Sound call.grace)
      (hwinner : l.winner = true → l'.winner = false)
        (hl' : l'.winner = true) : l.timed = false := by
      by_contra htimed
      have hw := hwinner (hl.timed_winner (by simpa using htimed)).1
      simp [hw] at hl'
    obtain ⟨rfl | rfl, hstage⟩ := hallows
    · obtain ⟨hwinner, -, htimed⟩ := hc.swapped hstage
      refine ⟨htimed, hother hg (fun hw => ?_) hwinner⟩
      simp [hgraced.once hwinner] at hw
    · obtain ⟨hwinner, -, htimed⟩ := hg.swapped hstage
      exact ⟨hother hc hgraced.once hwinner, htimed⟩
  have hplace : place call (s.log ++ [(i, ⟨o, r⟩)]) = Function.update (place call s.log) i _ :=
    place_concat s.log i ⟨o, r⟩
  refine ⟨?_, ?_, ?_, ?_, ?_⟩ <;> simp only [hplace]
  · exact hsound'
  · exact hpaced.step hallows heffect _
  · exact hgraced.step hpaced hsound hallows heffect _
  · exact hcounted.step hpaced hallows heffect _
  · exact hinterrupted.step hallows hafter htimer heffect _

/-- The programs, held against their own entries. -/
theorem wp_permits (i : Thread) : (call.program i).wp (Contract.logging (permits call i)) []
    fun _ es => (es.foldl (Local.next call.grace) .fresh).Ended i :=
  wp_logging_of_monitor (wp_program i : (call.program i).wp (watch call i) _ _)

/-- Every state of a call is kept, and every thread goes on as it may. -/
theorem kept_of_reaches {now : (Thread → Proc Unit) × State} (h : Reaches peers call now) :
    Kept call now.2 ∧ ∀ i, (now.1 i).wp (Contract.logging (permits call i))
      (Threads.own now.2.log i) fun _ es => (es.foldl (Local.next call.grace) .fresh).Ended i :=
  Threads.logged State.log log_of_act (permits call)
    (fun i es => (es.foldl (Local.next call.grace) .fresh).Ended i) (Kept call)
    (fun hkept hpermits ha => hkept.step hpermits ha) rfl kept_init wp_permits h

end Outway.Server.Copy
