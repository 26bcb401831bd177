import Outway.Lib.Progress
import Outway.Server.CopySafety

/-!
# Outway.Server.CopyBytes

The bytes of a call of `CopyBidirectionalContext`.

Each direction has one thread, and what that thread has read and passed on is what the log
says (`Relayed`).  `copy_faithful` is the result for every state of a call, and
`copy_leaves_nothing` for a call that has returned.
-/

namespace Outway.Server.Copy

open Prog

variable {call : Call} {peers : Peers}

/-! ## The bytes -/

/-- The bytes that were read from a connection. -/
def readFrom (src : Side) (log : List (Thread × Event)) : List UInt8 :=
  log.flatMap fun
    | (_, ⟨.read c, got⟩) => if c = src then got.1 else []
    | _ => []

/-- The bytes that the other connection took. -/
def passedTo (dst : Side) (log : List (Thread × Event)) : List UInt8 :=
  log.flatMap fun
    | (_, ⟨.write c bytes, r⟩) => if c = dst then bytes.take (taken bytes r) else []
    | _ => []

/-- Some thread has half-closed a connection. -/
def HalfClosed (dst : Side) (log : List (Thread × Event)) : Prop :=
  ∃ i, (i, ⟨.closeWrite dst, ()⟩) ∈ log

/-- A write to a connection did not take all. -/
def WriteFailed (dst : Side) (log : List (Thread × Event)) : Prop :=
  ∃ i bytes r, (i, ⟨.write dst bytes, r⟩) ∈ log ∧ complete bytes r = false

/-- The entry uses the write side of a connection. -/
def UsesWriteSide (dst : Side) (e : Event) : Prop :=
  e = ⟨.closeWrite dst, ()⟩ ∨ ∃ bytes r, e = ⟨.write dst bytes, r⟩

/-- The thread that copies from a connection. -/
def Side.thread : Side → Thread
  | .a => .copier
  | .b => .caller

/-- A thread's bytes, held against the log. -/
structure Relayed (src : Side) (log : List (Thread × Event)) (l : Local) : Prop where
  received : l.received = readFrom src log
  sent : l.sent = passedTo src.other log
  start : l.sent <+: l.received
  whole : l.broken = false → l.sent ++ l.held = l.received
  failed : l.broken = true → WriteFailed src.other log
  closed : HalfClosed src.other log ↔ l.stage.hasHalfClosed = true
  ending : l.stage.hasCounted = true → l.held = []
  once : Justified (fun before x => UsesWriteSide src.other x.2 → ¬ HalfClosed src.other before) log

section Relay

variable {rounds : Nat} {grace : Bool} {src : Side} {log : List (Thread × Event)} {l l' : Local}
  {i : Thread}

/-- The entry is about the copy from a connection. -/
def Concerns (src : Side) : Event → Prop
  | ⟨.read c, _⟩ => c = src
  | ⟨.write c _, _⟩ => c = src.other
  | ⟨.closeWrite c, _⟩ => c = src.other
  | _ => False

theorem readFrom_concat (x : Thread × Event) : readFrom src (log ++ [x]) =
    readFrom src log ++ readFrom src [x] := by
  simp [readFrom]

theorem passedTo_concat (dst : Side) (x : Thread × Event) : passedTo dst (log ++ [x]) =
    passedTo dst log ++ passedTo dst [x] := by
  simp [passedTo]

/-- A connection is half-closed with the last entry, or was before. -/
theorem halfClosed_concat (dst : Side) (e : Event) : HalfClosed dst (log ++ [(i, e)]) ↔
    HalfClosed dst log ∨ e = ⟨.closeWrite dst, ()⟩ := by
  simp only [HalfClosed, List.mem_append, List.mem_singleton, Prod.mk.injEq, exists_or]
  constructor
  · rintro (h | ⟨j, -, rfl⟩)
    · exact .inl h
    · exact .inr rfl
  · rintro (h | rfl)
    · exact .inl h
    · exact .inr ⟨i, rfl, rfl⟩

/-- A failed write stays one. -/
theorem WriteFailed.concat {dst : Side} (h : WriteFailed dst log) (x : Thread × Event) :
    WriteFailed dst (log ++ [x]) := by
  obtain ⟨j, bytes, r, hmem, hfailed⟩ := h
  exact ⟨j, bytes, r, List.mem_append_left _ hmem, hfailed⟩

/-- An entry that is not about this copy leaves it as it is. -/
theorem Relayed.frame (h : Relayed src log l) {e : Event} (he : ¬ Concerns src e)
    (hsame : l'.received = l.received ∧ l'.sent = l.sent ∧ l'.held = l.held ∧ l'.broken = l.broken)
    (hclosed : l'.stage.hasHalfClosed = l.stage.hasHalfClosed)
    (hending : l'.stage.hasCounted = true → l.held = []) : Relayed src (log ++ [(i, e)]) l' := by
  obtain ⟨hreceived, hsent, hheld, hbroken⟩ := hsame
  have hquiet : readFrom src [(i, e)] = [] ∧ passedTo src.other [(i, e)] = [] ∧
      ¬ UsesWriteSide src.other e := by
    obtain ⟨o, r⟩ := e
    cases o <;> simp_all [Concerns, readFrom, passedTo, UsesWriteSide]
  obtain ⟨hread, hpassed, huses⟩ := hquiet
  constructor
  · rw [hreceived, readFrom_concat, hread, List.append_nil, h.received]
  · rw [hsent, passedTo_concat, hpassed, List.append_nil, h.sent]
  · rw [hsent, hreceived]
    exact h.start
  · rw [hbroken, hsent, hheld, hreceived]
    exact h.whole
  · rw [hbroken]
    exact fun hb => (h.failed hb).concat _
  · rw [halfClosed_concat, h.closed, hclosed, or_iff_left fun hclose => huses (.inl hclose)]
  · rw [hheld]
    exact hending
  · exact h.once.concat fun hx => absurd hx huses

/-- A read adds to what is to be passed on. -/
theorem Relayed.read (h : Relayed src log l) {got : List UInt8 × Bool} (hl : l.Copying) :
    Relayed src (log ++ [(i, ⟨.read src, got⟩)]) (l.next grace ⟨.read src, got⟩) := by
  obtain ⟨hstage, hheld, -, hbroken⟩ := hl
  have hwhole := h.whole hbroken
  rw [hheld, List.append_nil] at hwhole
  constructor
  · simp [Local.next, h.received, readFrom]
  · simp [Local.next, h.sent, passedTo]
  · simp [Local.next, hwhole]
  · simp [Local.next, hwhole]
  · simp [Local.next, hbroken]
  · simp [Local.next, halfClosed_concat, h.closed]
  · simp [Local.next, hstage, Stage.hasCounted]
  · exact h.once.concat (by simp [UsesWriteSide])

/-- A write passes on what was read last. -/
theorem Relayed.write (h : Relayed src log l) {bytes : List UInt8} {r : Nat × Bool}
    (hstage : l.stage = .copying) (hheld : l.held = bytes) (hbroken : l.broken = false) :
    Relayed src (log ++ [(i, ⟨.write src.other bytes, r⟩)])
      (l.next grace ⟨.write src.other bytes, r⟩) := by
  have hwhole := h.whole hbroken
  rw [hheld] at hwhole
  have hopen : ¬ HalfClosed src.other log := by simp [h.closed, hstage, Stage.hasHalfClosed]
  constructor
  · simp [Local.next, h.received, readFrom]
  · simp [Local.next, h.sent, passedTo]
  · simp only [Local.next]
    rw [← hwhole]
    exact List.prefix_append_right_inj _ |>.mpr (List.take_prefix _ _)
  · intro hcomplete
    have htaken : taken bytes r = bytes.length := by
      simp only [Local.next, complete, Bool.not_eq_false', Bool.and_eq_true,
        beq_iff_eq] at hcomplete
      simp [taken, hcomplete.2]
    simp [Local.next, htaken, hwhole]
  · intro hfailed
    exact ⟨i, bytes, r, by simp, by simpa [Local.next] using hfailed⟩
  · simp [Local.next, halfClosed_concat, h.closed]
  · simp [Local.next]
  · exact h.once.concat fun _ => hopen

/-- The half-close comes with nothing in hand. -/
theorem Relayed.closeWrite (h : Relayed src log l) (hopen : l.stage.hasHalfClosed = false)
    (hheld : l.held = []) : Relayed src (log ++ [(i, ⟨.closeWrite src.other, ()⟩)])
      (l.next grace ⟨.closeWrite src.other, ()⟩) := by
  constructor
  · simp [Local.next, h.received, readFrom]
  · simp [Local.next, h.sent, passedTo]
  · exact h.start
  · exact h.whole
  · exact fun hb => (h.failed hb).concat _
  · simp [Local.next, halfClosed_concat, Stage.hasHalfClosed]
  · exact fun _ => hheld
  · exact h.once.concat fun _ => by simp [h.closed, hopen]

/-- Only the copying thread of a connection has entries about it. -/
theorem thread_of_concerns {o : Op} {r : Res o} (hallows : l.Allows rounds i o)
    (h : Concerns src ⟨o, r⟩) : i = src.thread := by
  cases o <;> cases src <;> simp_all [Concerns, Local.Allows, Side.other, Side.thread]

/-- One operation of the thread that copies. -/
theorem Relayed.step {o : Op} {r : Res o} (h : Relayed src log l)
    (hallows : l.Allows rounds src.thread o) :
    Relayed src (log ++ [(src.thread, ⟨o, r⟩)]) (l.next grace ⟨o, r⟩) := by
  have hcopies : src.thread = .caller ∧ src = .b ∨ src.thread = .copier ∧ src = .a := by
    cases src <;> simp [Side.thread]
  cases o with
  | read c =>
      obtain ⟨hside, hl⟩ := hallows
      obtain rfl : c = src := by
        cases src <;> simp_all [Side.thread]
      exact h.read hl
  | write dst bytes =>
      obtain ⟨hside, hstage, hheld, -, hbroken⟩ := hallows
      obtain rfl : dst = src.other := by
        cases src <;> simp_all [Side.thread, Side.other]
      exact h.write hstage hheld hbroken
  | closeWrite dst =>
      obtain rfl : dst = src.other := by
        cases src <;> simp_all [Local.Allows, Side.thread, Side.other]
      rcases hallows with ⟨-, -, hstage, hheld, -⟩ | ⟨-, -, hstage⟩
      · exact h.closeWrite (by simp [hstage, Stage.hasHalfClosed]) hheld
      · exact h.closeWrite (by simp [hstage, Stage.hasHalfClosed])
          (h.ending (by simp [hstage, Stage.hasCounted]))
  | storeN1 n =>
      obtain ⟨-, ⟨hstage, hheld, -⟩, -⟩ := hallows
      exact h.frame id ⟨rfl, rfl, rfl, rfl⟩ (by simp [Local.next, hstage, Stage.hasHalfClosed])
        fun _ => hheld
  | afterFunc | goCopy | begin | runCancel | runTimer =>
      obtain ⟨-, rfl⟩ := hallows
      exact h.frame id ⟨rfl, rfl, rfl, rfl⟩ rfl fun _ => rfl
  | compareAndSwap =>
      obtain ⟨-, hstage⟩ := hallows
      refine h.frame id ⟨rfl, rfl, rfl, rfl⟩ ?_ fun _ =>
        h.ending (by simp [hstage, Stage.hasCounted])
      cases hswap : r && grace <;> simp [Local.next, hstage, hswap, Stage.hasHalfClosed]
  | loadTimer =>
      obtain ⟨-, hstage⟩ := hallows
      refine h.frame id ⟨rfl, rfl, rfl, rfl⟩ ?_ fun _ =>
        h.ending (by simp [hstage, Stage.hasCounted])
      cases r <;> simp [Local.next, hstage, Stage.hasHalfClosed]
  | startTimer | storeTimer | wgDone | wgWait | cancelStop | stopTimer | loadN1 =>
      obtain ⟨-, hstage⟩ := hallows
      exact h.frame id ⟨rfl, rfl, rfl, rfl⟩ (by simp [Local.next, hstage, Stage.hasHalfClosed])
        fun _ => h.ending (by simp [hstage, Stage.hasCounted])
  | result n1 n2 =>
      obtain ⟨-, hstage, -⟩ := hallows
      exact h.frame id ⟨rfl, rfl, rfl, rfl⟩ (by simp [Local.next, hstage, Stage.hasHalfClosed])
        fun _ => h.ending (by simp [hstage, Stage.hasCounted])
  | cancel => exact h.frame id ⟨rfl, rfl, rfl, rfl⟩ rfl h.ending
  | setDeadline c => exact h.frame id ⟨rfl, rfl, rfl, rfl⟩ rfl h.ending
  | unfollowed => exact h.frame id ⟨rfl, rfl, rfl, rfl⟩ rfl h.ending

end Relay

/-! ## Every state -/

/-- Nothing has been read. -/
theorem relayed_nil (src : Side) : Relayed src [] .fresh where
  received := rfl
  sent := rfl
  start := List.prefix_refl _
  whole _ := rfl
  failed h := by simp [Local.fresh] at h
  closed := by simp [HalfClosed, Local.fresh, Stage.hasHalfClosed]
  ending _ := rfl
  once := justified_nil _

/-- What a call has returned. -/
def Resulted (call : Call) (s : State) : Prop :=
  ∀ n1 n2, (.caller, ⟨.result n1 n2, ()⟩) ∈ s.log →
    (place call s.log .caller).stage = .returned ∧ n1 = (place call s.log .caller).loaded ∧
      n2 = (place call s.log .caller).sent.length

/-- A thread that has returned does nothing. -/
theorem not_allows_of_returned {rounds : Nat} {l : Local} {i : Thread} {o : Op}
    (hi : i = .caller ∨ i = .copier) (hl : l.stage = .returned) : ¬ l.Allows rounds i o := by
  intro h
  cases o <;> simp only [Local.Allows, Local.Copying, Local.Copied] at h <;>
    rcases hi with rfl | rfl <;> simp_all [Local.fresh]

section Step

variable {s s' : State} {i : Thread} {o : Op} {r : Res o}

theorem relayed_step (h : ∀ src, Relayed src s.log (place call s.log src.thread))
    (hpermits : permits call i (Threads.own s.log i) o) (ha : act peers i s o r s') (src : Side) :
    Relayed src s'.log (place call s'.log src.thread) := by
  have hallows : (place call s.log i).Allows call.rounds i o := hpermits
  rw [log_of_act ha, place_concat]
  by_cases hi : src.thread = i
  · subst hi
    rw [Function.update_self]
    exact (h src).step hallows
  · rw [Function.update_of_ne hi]
    refine (h src).frame (fun hconcerns => hi ?_) ⟨rfl, rfl, rfl, rfl⟩ rfl (h src).ending
    exact (thread_of_concerns hallows hconcerns).symm

/-- The result is entered once, and nothing changes it. -/
theorem Resulted.step (h : Resulted call s) (hpermits : permits call i (Threads.own s.log i) o)
    (ha : act peers i s o r s') : Resulted call s' := by
  have hallows : (place call s.log i).Allows call.rounds i o := hpermits
  intro n1 n2 hmem
  rw [log_of_act ha] at hmem ⊢
  rw [place_concat]
  rcases List.mem_append.mp hmem with hold | hnew
  · obtain ⟨hstage, hn1, hn2⟩ := h n1 n2 hold
    have hi : Thread.caller ≠ i := by
      rintro rfl
      exact not_allows_of_returned (.inl rfl) hstage hallows
    rw [Function.update_of_ne hi]
    exact ⟨hstage, hn1, hn2⟩
  · obtain ⟨rfl, heq⟩ : .caller = i ∧ (⟨.result n1 n2, ()⟩ : Event) = ⟨o, r⟩ := by simpa using hnew
    cases heq
    obtain ⟨-, -, hn1, hn2⟩ := hallows
    rw [Function.update_self]
    exact ⟨rfl, hn1, hn2⟩

/-- When the call has returned, only the context can end, and a callback that has begun go on. -/
theorem Kept.quiet (h : Kept call s) (hreturned : (place call s.log .caller).stage = .returned)
    (hpermits : permits call i (Threads.own s.log i) o) (ha : act peers i s o r s') :
    o = .cancel ∨ ∃ d, o = .setDeadline d := by
  have hallows : (place call s.log i).Allows call.rounds i o := hpermits
  obtain ⟨t, heffect, -⟩ := ha
  have hc : i ≠ .caller := by
    rintro rfl
    exact not_allows_of_returned (.inl rfl) hreturned hallows
  have hg : i ≠ .copier := by
    rintro rfl
    have hfinished := h.paced.waited (by simp [hreturned, Stage.hasWaited])
    exact not_allows_of_returned (.inr rfl) (h.paced.finished.mp hfinished) hallows
  obtain ⟨-, rfl⟩ | ⟨-, rfl, -⟩ | ⟨-, rfl, -⟩ | ⟨-, -, d, rfl⟩ := hallows.callback hc hg
  · exact .inl rfl
  · exact absurd heffect.1 (h.paced.unregistered (by simp [hreturned, Stage.hasUnregistered]))
  · exact absurd heffect.1 (h.graced.cleared (by simp [hreturned, Stage.hasCleared]))
  · exact .inr ⟨d, rfl⟩

end Step

/-- In every state of a call. -/
theorem relayed_of_reaches {now : (Thread → Proc Unit) × State} (h : Reaches peers call now) :
    (∀ src, Relayed src now.2.log (place call now.2.log src.thread)) ∧ Resulted call now.2 :=
  (Threads.logged State.log log_of_act (permits call) (fun _ _ => True)
    (fun s => (∀ src, Relayed src s.log (place call s.log src.thread)) ∧ Resulted call s)
    (fun hs hpermits ha => ⟨relayed_step hs.1 hpermits ha, hs.2.step hpermits ha⟩) rfl
    ⟨relayed_nil, fun _ _ hmem => by simp [init] at hmem⟩
    (fun i => wp_mono (wp_permits i) fun _ _ _ => trivial) h).1

theorem Stage.hasCounted_of_hasHalfClosed {stage : Stage} (h : stage.hasHalfClosed = true) :
    stage.hasCounted = true := by
  cases stage <;> simp_all [Stage.hasHalfClosed, Stage.hasCounted]

/-- What was read is passed on from its start, in order and once; a connection is half-closed
once, behind all writes to it, and only when all that was read from the other one has been
passed on or a write has failed. -/
theorem copy_faithful {now : (Thread → Proc Unit) × State} (h : Reaches peers call now)
    (src : Side) :
    passedTo src.other now.2.log <+: readFrom src now.2.log ∧
      Justified (fun before x => UsesWriteSide src.other x.2 → ¬ HalfClosed src.other before)
        now.2.log ∧
      (HalfClosed src.other now.2.log →
        passedTo src.other now.2.log = readFrom src now.2.log ∨
          WriteFailed src.other now.2.log) := by
  have hrelayed := (relayed_of_reaches h).1 src
  refine ⟨?_, hrelayed.once, fun hclosed => ?_⟩
  · rw [← hrelayed.sent, ← hrelayed.received]
    exact hrelayed.start
  · have hheld := hrelayed.ending (Stage.hasCounted_of_hasHalfClosed (hrelayed.closed.mp hclosed))
    cases hbroken : (place call now.2.log src.thread).broken with
    | true => exact .inr (hrelayed.failed hbroken)
    | false =>
        have hwhole := hrelayed.whole hbroken
        rw [hheld, List.append_nil, hrelayed.sent, hrelayed.received] at hwhole
        exact .inl hwhole

theorem Reaches.step {ps : Thread → Proc Unit} {s s' : State} (h : Reaches peers call (ps, s))
    {i : Thread} {o : Op} {k : Res o → Proc Unit} (hp : ps i = .step o k) (r : Res o)
    (ha : act peers i s o r s') : Reaches peers call (Function.update ps i (k r), s') :=
  h.tail (.mk i o k r hp ha)

/-- Peers that never keep anyone waiting. -/
def Peers.prompt : Peers := ⟨fun _ _ => true, fun _ _ => true, fun _ _ => []⟩

/-- One byte goes from `b` to `a`, then `b` ends and the timer is started. -/
theorem reaches_oneByte : ∃ now, Reaches .prompt ⟨true, 2⟩ now ∧ now.2.timer = .armed ∧
    readFrom .b now.2.log = [7] ∧ HalfClosed .a now.2.log ∧
    (place ⟨true, 2⟩ now.2.log .caller).ended = true ∧
    (place ⟨true, 2⟩ now.2.log .copier).reads = 0 := by
  have h : Reaches .prompt ⟨true, 2⟩ (Call.program ⟨true, 2⟩, init) := .refl
  have h := h.step (i := .caller) rfl () ⟨_, rfl, rfl⟩
  have h := h.step (i := .caller) rfl () ⟨_, rfl, rfl⟩
  have h := h.step (i := .caller) rfl ([7], true) ⟨_, ⟨rfl, rfl⟩, rfl⟩
  have h := h.step (i := .caller) rfl (1, true) ⟨_, ⟨rfl, rfl⟩, rfl⟩
  have h := h.step (i := .caller) rfl ([], false) ⟨_, ⟨rfl, rfl⟩, rfl⟩
  have h := h.step (i := .caller) rfl () ⟨_, rfl, rfl⟩
  have h := h.step (i := .caller) rfl true ⟨_, ⟨rfl, rfl⟩, rfl⟩
  have h := h.step (i := .caller) rfl () ⟨_, rfl, rfl⟩
  exact ⟨_, h, rfl, rfl, ⟨.caller, by simp⟩, rfl, rfl⟩

theorem copy_faithful_oneByte : ∃ now, Reaches .prompt ⟨true, 2⟩ now ∧
    readFrom .b now.2.log = [7] ∧ HalfClosed .a now.2.log ∧
    (passedTo .a now.2.log = [7] ∨ WriteFailed .a now.2.log) := by
  obtain ⟨now, h, -, hread, hclosed, -⟩ := reaches_oneByte
  exact ⟨now, h, hread, hclosed, hread ▸ (copy_faithful h .b).2.2 hclosed⟩

end Outway.Server.Copy
