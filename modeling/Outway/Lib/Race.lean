import Mathlib

/-!
# Outway.Lib.Race

Races of attempts.

A loop starts attempts one after another, takes their results from an unbuffered
channel and returns the first success.  Every attempt runs in a thread of its own;
when it has its result it offers it to the loop until the race is cancelled, by
the caller or because the loop has returned, and then closes what it got.

`Loop` is the loop as pure functions of what wakes it, `Step` the race of the loop
with its attempts.  For a loop that keeps to `Loop.Lawful`, `inv_of_reachable`
says in every reachable state where each success is: on offer, returned, or
closed.
-/

namespace Race

variable {S D ε κ : Type}

/-- The loop of a race, by what it does when it wakes up. -/
structure Loop (S D ε κ : Type) where
  /-- what there is to attempt, in order -/
  attempts : List D
  init : S
  /-- the attempts started so far -/
  started : S → List D
  /-- the failures taken so far -/
  failures : S → Nat
  result : S → Option (Except ε κ)
  onResult : S → Except ε κ → S
  onTimer : S → S
  /-- the caller's context is done -/
  onDone : S → S

/-- Wake a loop up again and again, until it has a result. -/
def wake {W R : Type} (step : S → W → S) (result : S → Option R) : S → List W → S
  | s, [] => s
  | s, w :: ws => if (result s).isSome then s else wake step result (step s w) ws

/-- One wakeup more, of a loop that has not ended. -/
theorem wake_concat {W R : Type} {step : S → W → S} {result : S → Option R} {s : S} {ws : List W}
    (w : W) (h : result (wake step result s ws) = none) :
    wake step result s (ws ++ [w]) = step (wake step result s ws) w := by
  induction ws generalizing s with
  | nil =>
      rw [wake] at h
      simp [wake, h]
  | cons w' ws ih =>
      by_cases hs : (result s).isSome
      · simp only [wake, hs, if_true] at h
        simp [h] at hs
      · simp only [wake, hs] at h
        simpa [wake, hs] using ih h

/-- What an attempt is doing. -/
inductive Phase (ε κ : Type) where
  | running
  /-- its result waits to be taken -/
  | offering (r : Except ε κ)
  | delivered (r : Except ε κ)
  /-- the race was cancelled before the result was taken -/
  | dropped (r : Except ε κ)

/-- What the attempt got. -/
def Phase.outcome : Phase ε κ → Option (Except ε κ)
  | .running => none
  | .offering r | .delivered r | .dropped r => some r

/-- The attempt's thread has ended. -/
def Phase.Ended : Phase ε κ → Prop
  | .running | .offering _ => False
  | .delivered _ | .dropped _ => True

structure State (S ε κ : Type) where
  loop : S
  /-- the attempts, in the order of their starts -/
  phase : Nat → Phase ε κ
  /-- the caller's context is done -/
  ctxDone : Bool
  /-- the attempts whose results the loop has taken -/
  taken : List Nat
  /-- the successes that were closed -/
  closed : List κ

def State.init (L : Loop S D ε κ) : State S ε κ where
  loop := L.init
  phase _ := .running
  ctxDone := false
  taken := []
  closed := []

/-- One step of a race. -/
inductive Step (L : Loop S D ε κ) : State S ε κ → State S ε κ → Prop where
  /-- a started attempt comes to its result; a success is a new one -/
  | finish {s : State S ε κ} (i : Nat) (r : Except ε κ) (hi : i < (L.started s.loop).length)
      (hphase : s.phase i = .running)
      (hnew : ∀ c, r = .ok c → ∀ j, (s.phase j).outcome ≠ some (.ok c)) :
      Step L s { s with phase := Function.update s.phase i (.offering r) }
  /-- the loop takes a result -/
  | deliver {s : State S ε κ} (i : Nat) (r : Except ε κ) (hloop : L.result s.loop = none)
      (hphase : s.phase i = .offering r) :
      Step L s { s with
        loop := L.onResult s.loop r
        phase := Function.update s.phase i (.delivered r)
        taken := s.taken ++ [i] }
  /-- the race is cancelled, and an attempt gives up its offer -/
  | drop {s : State S ε κ} (i : Nat) (r : Except ε κ)
      (hdone : s.ctxDone = true ∨ (L.result s.loop).isSome) (hphase : s.phase i = .offering r) :
      Step L s { s with
        phase := Function.update s.phase i (.dropped r)
        closed := s.closed ++ r.toOption.toList }
  | timer {s : State S ε κ} (hloop : L.result s.loop = none) :
      Step L s { s with loop := L.onTimer s.loop }
  | done {s : State S ε κ} (hloop : L.result s.loop = none) (hdone : s.ctxDone = true) :
      Step L s { s with loop := L.onDone s.loop }
  | cancel {s : State S ε κ} : Step L s { s with ctxDone := true }

/-- The states of the runs of a race. -/
def Reachable (L : Loop S D ε κ) (s : State S ε κ) : Prop :=
  Relation.ReflTransGen (Step L) (.init L) s

/-- What a loop has to keep to, with an invariant of its own. -/
structure Loop.Lawful (L : Loop S D ε κ) (inv : S → Prop) : Prop where
  init : inv L.init
  init_result : L.result L.init = none
  init_failures : L.failures L.init = 0
  onResult : ∀ {s} r, inv s → L.result s = none → inv (L.onResult s r)
  onTimer : ∀ {s}, inv s → L.result s = none → inv (L.onTimer s)
  onDone : ∀ {s}, inv s → L.result s = none → inv (L.onDone s)
  /-- attempts are started in order, each once -/
  started_prefix : ∀ {s}, inv s → L.started s <+: L.attempts
  length_onResult : ∀ s r, (L.started s).length ≤ (L.started (L.onResult s r)).length
  length_onTimer : ∀ s, (L.started s).length ≤ (L.started (L.onTimer s)).length
  length_onDone : ∀ s, (L.started s).length ≤ (L.started (L.onDone s)).length
  /-- the loop does not wait for nothing -/
  failures_lt : ∀ {s}, inv s → L.result s = none → L.failures s < (L.started s).length
  /-- the first success is returned -/
  result_ok : ∀ s c, L.result (L.onResult s (.ok c)) = some (.ok c)
  failures_error : ∀ s e, L.failures (L.onResult s (.error e)) = L.failures s + 1
  /-- the last failure is returned -/
  result_error : ∀ {s} e, inv s → L.result s = none → L.result (L.onResult s (.error e)) = none ∨
    L.result (L.onResult s (.error e)) = some (.error e) ∧ L.failures s + 1 = L.attempts.length
  result_timer : ∀ s, L.result (L.onTimer s) = L.result s
  failures_timer : ∀ s, L.failures (L.onTimer s) = L.failures s
  result_done : ∀ s c, L.result (L.onDone s) ≠ some (.ok c)
  failures_done : ∀ s, L.failures (L.onDone s) = L.failures s

/-- Where the results are. -/
structure Inv (L : Loop S D ε κ) (inv : S → Prop) (s : State S ε κ) : Prop where
  loop : inv s.loop
  started : ∀ i, s.phase i ≠ .running → i < (L.started s.loop).length
  distinct : ∀ i j c, (s.phase i).outcome = some (.ok c) →
    (s.phase j).outcome = some (.ok c) → i = j
  nodup_taken : s.taken.Nodup
  mem_taken : ∀ i, i ∈ s.taken ↔ ∃ r, s.phase i = .delivered r
  failures : (∀ c, L.result s.loop ≠ some (.ok c)) → L.failures s.loop = s.taken.length
  result_ok : ∀ c, L.result s.loop = some (.ok c) ↔ ∃ i, s.phase i = .delivered (.ok c)
  mem_closed : ∀ c, c ∈ s.closed ↔ ∃ i, s.phase i = .dropped (.ok c)

section

variable {L : Loop S D ε κ} {inv : S → Prop} {s s' : State S ε κ}

/-- The beginning of a race. -/
theorem inv_init (h : L.Lawful inv) : Inv L inv (State.init L) := by
  refine ⟨h.init, fun i hi => absurd rfl hi, fun i j c hi => ?_, List.nodup_nil, fun i => ?_,
    fun _ => h.init_failures, fun c => ?_, fun c => ?_⟩
  · simp [State.init, Phase.outcome] at hi
  · simp [State.init]
  · simp [State.init, h.init_result]
  · simp [State.init]

/-- A phase that one attempt leaves for another. -/
theorem exists_update_eq {f : Nat → Phase ε κ} {i : Nat} {p q : Phase ε κ} (hi : f i ≠ p) :
    (∃ j, Function.update f i q j = p) ↔ q = p ∨ ∃ j, f j = p := by
  constructor
  · rintro ⟨j, hj⟩
    by_cases hji : j = i
    · subst hji
      rw [Function.update_self] at hj
      exact .inl hj
    · rw [Function.update_of_ne hji] at hj
      exact .inr ⟨j, hj⟩
  · rintro (hq | ⟨j, hj⟩)
    · exact ⟨i, by rw [Function.update_self, hq]⟩
    · have hji : j ≠ i := by
        rintro rfl
        exact hi hj
      exact ⟨j, by rw [Function.update_of_ne hji, hj]⟩

theorem outcome_update {f : Nat → Phase ε κ} {i : Nat} {q : Phase ε κ}
    (hq : q.outcome = (f i).outcome) (j : Nat) :
    (Function.update f i q j).outcome = (f j).outcome := by
  by_cases hji : j = i
  · subst hji
    rw [Function.update_self, hq]
  · rw [Function.update_of_ne hji]

/-- A dial ends. -/
theorem Inv.finish (h : Inv L inv s) {i : Nat} {r : Except ε κ}
    (hi : i < (L.started s.loop).length) (hphase : s.phase i = .running)
    (hnew : ∀ c, r = .ok c → ∀ j, (s.phase j).outcome ≠ some (.ok c)) :
    Inv L inv { s with phase := Function.update s.phase i (.offering r) } where
  loop := h.loop
  started j hj := by
    by_cases hji : j = i
    · exact hji ▸ hi
    · simp only [Function.update_of_ne hji] at hj
      exact h.started j hj
  distinct j k c hj hk := by
    have := h.distinct j k c
    simp only [Function.update_apply] at hj hk
    grind [Phase.outcome]
  nodup_taken := h.nodup_taken
  mem_taken j := by
    have := h.mem_taken j
    simp only [Function.update_apply]
    grind
  failures := h.failures
  result_ok c := by
    rw [exists_update_eq (by rw [hphase]; simp), h.result_ok c]
    simp
  mem_closed c := by
    rw [exists_update_eq (by rw [hphase]; simp), h.mem_closed c]
    simp

/-- The loop takes the result of a dial. -/
theorem Inv.deliver (hL : L.Lawful inv) (h : Inv L inv s) {i : Nat} {r : Except ε κ}
    (hloop : L.result s.loop = none) (hphase : s.phase i = .offering r) :
    Inv L inv { s with
      loop := L.onResult s.loop r
      phase := Function.update s.phase i (.delivered r)
      taken := s.taken ++ [i] } where
  loop := hL.onResult r h.loop hloop
  started j hj := by
    refine lt_of_lt_of_le (h.started j fun hrunning => ?_) (hL.length_onResult s.loop r)
    simp only [Function.update_apply] at hj
    grind
  distinct j k c hj hk := by
    rw [outcome_update (by rw [hphase]; rfl)] at hj hk
    exact h.distinct j k c hj hk
  nodup_taken := by
    have hi : i ∉ s.taken := fun hmem => by
      obtain ⟨r', hr'⟩ := (h.mem_taken i).mp hmem
      simp [hphase] at hr'
    rw [← List.concat_eq_append]
    exact h.nodup_taken.concat hi
  mem_taken j := by
    by_cases hji : j = i
    · subst hji
      simp
    · simp [hji, h.mem_taken j]
  failures hfail := by
    cases r with
    | ok c => exact absurd (hL.result_ok s.loop c) (hfail c)
    | error e =>
        rw [hL.failures_error, h.failures (by simp [hloop]), List.length_append]
        rfl
  result_ok c := by
    have hnone : ¬ ∃ j, s.phase j = .delivered (.ok c) := by
      rw [← h.result_ok c, hloop]
      simp
    rw [exists_update_eq (by rw [hphase]; simp), or_iff_left hnone]
    cases r with
    | ok c' => simp [hL.result_ok]
    | error e => obtain hres | ⟨hres, -⟩ := hL.result_error e h.loop hloop <;> simp [hres]
  mem_closed c := by
    rw [exists_update_eq (by rw [hphase]; simp), h.mem_closed c]
    simp

/-- A result that nobody waits for is dropped. -/
theorem Inv.drop (h : Inv L inv s) {i : Nat} {r : Except ε κ} (hphase : s.phase i = .offering r) :
    Inv L inv { s with
      phase := Function.update s.phase i (.dropped r)
      closed := s.closed ++ r.toOption.toList } where
  loop := h.loop
  started j hj := by
    refine h.started j fun hrunning => ?_
    simp only [Function.update_apply] at hj
    grind
  distinct j k c hj hk := by
    rw [outcome_update (by rw [hphase]; rfl)] at hj hk
    exact h.distinct j k c hj hk
  nodup_taken := h.nodup_taken
  mem_taken j := by
    have := h.mem_taken j
    simp only [Function.update_apply]
    grind
  failures := h.failures
  result_ok c := by
    rw [exists_update_eq (by rw [hphase]; simp), h.result_ok c]
    simp
  mem_closed c := by
    rw [exists_update_eq (by rw [hphase]; simp), List.mem_append, h.mem_closed c, or_comm]
    cases r with
    | error e => simp [Except.toOption]
    | ok c' => simp [Except.toOption, eq_comm]

/-- The loop wakes up without a result. -/
theorem Inv.wake (h : Inv L inv s) {l : S} (hl : inv l)
    (hlen : (L.started s.loop).length ≤ (L.started l).length)
    (hloop : L.result s.loop = none) (hres : ∀ c, L.result l ≠ some (.ok c))
    (hfail : L.failures l = L.failures s.loop) : Inv L inv { s with loop := l } where
  loop := hl
  started i hi := lt_of_lt_of_le (h.started i hi) hlen
  distinct := h.distinct
  nodup_taken := h.nodup_taken
  mem_taken := h.mem_taken
  failures _ := hfail.trans (h.failures (by simp [hloop]))
  result_ok c := by
    have := h.result_ok c
    simp only [hloop] at this
    simp [hres c, ← this]
  mem_closed := h.mem_closed

/-- One step of the race. -/
theorem Inv.step (hL : L.Lawful inv) (h : Inv L inv s) (hstep : Step L s s') : Inv L inv s' := by
  cases hstep with
  | finish i r hi hphase hnew => exact h.finish hi hphase hnew
  | deliver i r hloop hphase => exact h.deliver hL hloop hphase
  | drop i r hdone hphase => exact h.drop hphase
  | timer hloop =>
      refine h.wake (hL.onTimer h.loop hloop) (hL.length_onTimer _) hloop (fun c => ?_)
        (hL.failures_timer _)
      simp [hL.result_timer, hloop]
  | done hloop hdone =>
      exact h.wake (hL.onDone h.loop hloop) (hL.length_onDone _) hloop (hL.result_done _)
        (hL.failures_done _)
  | cancel => exact ⟨h.loop, h.started, h.distinct, h.nodup_taken, h.mem_taken, h.failures,
      h.result_ok, h.mem_closed⟩

/-- **Invariants of races.**  Along every run of a race of a lawful loop its results are
where `Inv` says. -/
theorem inv_of_reachable (hL : L.Lawful inv) (h : Reachable L s) : Inv L inv s := by
  induction h with
  | refl => exact inv_init hL
  | tail _ hstep ih => exact ih.step hL hstep

/-- What the wake-ups of the loop keep holds of it in every reachable state. -/
theorem loop_of_reachable {P : S → Prop} (hinit : P L.init)
    (hresult : ∀ l r, P l → L.result l = none → P (L.onResult l r))
    (htimer : ∀ l, P l → L.result l = none → P (L.onTimer l))
    (hdone : ∀ l, P l → L.result l = none → P (L.onDone l)) (h : Reachable L s) : P s.loop := by
  induction h with
  | refl => exact hinit
  | tail _ hstep ih =>
      cases hstep with
      | finish | drop | cancel => exact ih
      | deliver i r hloop => exact hresult _ r ih hloop
      | timer hloop => exact htimer _ ih hloop
      | done hloop => exact hdone _ ih hloop

/-! ## What a race comes to -/

/-- The loop has returned and every attempt's thread has ended. -/
def Final (L : Loop S D ε κ) (s : State S ε κ) : Prop :=
  (L.result s.loop).isSome ∧ ∀ i < (L.started s.loop).length, (s.phase i).Ended

/-- The attempt has got the success `c`. -/
def Succeeded (s : State S ε κ) (i : Nat) (c : κ) : Prop := (s.phase i).outcome = some (.ok c)

/-- A success is on offer, returned or closed. -/
theorem Inv.cases_of_succeeded (h : Inv L inv s) {i : Nat} {c : κ} (hi : Succeeded s i c) :
    s.phase i = .offering (.ok c) ∨ L.result s.loop = some (.ok c) ∨ c ∈ s.closed := by
  rw [Succeeded] at hi
  cases hphase : s.phase i with
  | running => simp [hphase, Phase.outcome] at hi
  | offering r => simp_all [Phase.outcome]
  | delivered r =>
      obtain rfl : r = .ok c := by simpa [hphase, Phase.outcome] using hi
      exact .inr (.inl ((h.result_ok c).mpr ⟨i, hphase⟩))
  | dropped r =>
      obtain rfl : r = .ok c := by simpa [hphase, Phase.outcome] using hi
      exact .inr (.inr ((h.mem_closed c).mpr ⟨i, hphase⟩))

/-- The connection that is returned is one of a dial. -/
theorem Inv.exists_succeeded (h : Inv L inv s) {c : κ} (hres : L.result s.loop = some (.ok c)) :
    ∃ i, Succeeded s i c := by
  obtain ⟨i, hi⟩ := (h.result_ok c).mp hres
  exact ⟨i, by rw [Succeeded, hi]; rfl⟩

/-- A success that is returned is not closed. -/
theorem Inv.notMem_closed (h : Inv L inv s) {c : κ} (hres : L.result s.loop = some (.ok c)) :
    c ∉ s.closed := by
  intro hclosed
  obtain ⟨i, hi⟩ := (h.result_ok c).mp hres
  obtain ⟨j, hj⟩ := (h.mem_closed c).mp hclosed
  obtain rfl := h.distinct i j c (by rw [hi]; rfl) (by rw [hj]; rfl)
  simp [hi] at hj

/-- At the end every success is returned or closed. -/
theorem Inv.returned_or_closed (h : Inv L inv s) (hfinal : Final L s) {i : Nat} {c : κ}
    (hi : Succeeded s i c) : L.result s.loop = some (.ok c) ∨ c ∈ s.closed := by
  refine (h.cases_of_succeeded hi).resolve_left fun hoffer => ?_
  have hended := hfinal.2 i (h.started i (by rw [hoffer]; simp))
  rw [hoffer] at hended
  exact hended

/-- Once the loop has returned, what is still on offer can only be closed. -/
theorem Step.offering_or_closed (hstep : Step L s s') (hres : (L.result s.loop).isSome) {i : Nat}
    {c : κ} (hi : s.phase i = .offering (.ok c)) :
    s'.phase i = .offering (.ok c) ∨ c ∈ s'.closed := by
  cases hstep with
  | finish j r hj hphase =>
      have hne : i ≠ j := by
        rintro rfl
        simp [hi] at hphase
      exact .inl (by simpa [hne] using hi)
  | drop j r hdone hphase =>
      by_cases hij : i = j
      · subst hij
        obtain rfl : r = .ok c := by simpa [hi, eq_comm] using hphase
        exact .inr (by simp [Except.toOption])
      · exact .inl (by simpa [hij] using hi)
  | deliver _ _ hloop | timer hloop | done hloop => simp [hloop] at hres
  | cancel => exact .inl hi

/-- A returned success is that of one attempt and stays open, and every other one is
closed, or on offer with nothing left but to close it; when all threads have ended, each
success is returned or closed. -/
def Settled (L : Loop S D ε κ) (s : State S ε κ) : Prop :=
  (∀ c, L.result s.loop = some (.ok c) → (∃! i, Succeeded s i c) ∧ c ∉ s.closed ∧
    ∀ j c', Succeeded s j c' → c' ≠ c → c' ∈ s.closed ∨ s.phase j = .offering (.ok c') ∧
      ∀ s', Step L s s' → s'.phase j = .offering (.ok c') ∨ c' ∈ s'.closed) ∧
  (Final L s → ∀ i c, Succeeded s i c → L.result s.loop = some (.ok c) ∨ c ∈ s.closed)

/-- The one success that is returned stays open, and the others are closed. -/
theorem Inv.settled (h : Inv L inv s) : Settled L s := by
  refine ⟨fun c hres => ⟨?_, h.notMem_closed hres, fun j c' hj hne => ?_⟩,
    fun hfinal i c hi => h.returned_or_closed hfinal hi⟩
  · obtain ⟨i, hi⟩ := h.exists_succeeded hres
    exact ⟨i, hi, fun j hj => h.distinct j i c hj hi⟩
  · obtain hoffer | hres' | hclosed := h.cases_of_succeeded hj
    · exact .inr ⟨hoffer, fun s' hstep => hstep.offering_or_closed (by simp [hres]) hoffer⟩
    · simp [hres, Ne.symm hne] at hres'
    · exact .inl hclosed

/-- While the loop has not returned it waits for a started attempt. -/
theorem Inv.exists_pending (hL : L.Lawful inv) (h : Inv L inv s)
    (hloop : L.result s.loop = none) :
    ∃ i < (L.started s.loop).length, i ∉ s.taken := by
  have hlt := hL.failures_lt h.loop hloop
  rw [h.failures (by simp [hloop])] at hlt
  by_contra hall
  push Not at hall
  have hsub : Finset.range (L.started s.loop).length ⊆ s.taken.toFinset := fun i hi =>
    List.mem_toFinset.mpr (hall i (Finset.mem_range.mp hi))
  have hcard := (Finset.card_le_card hsub).trans (List.toFinset_card_le _)
  rw [Finset.card_range] at hcard
  omega

/-- As many results taken as there are attempts: those of all attempts. -/
theorem Inv.mem_taken_of_length (hL : L.Lawful inv) (h : Inv L inv s)
    (hlen : s.taken.length = L.attempts.length) :
    L.started s.loop = L.attempts ∧ ∀ i < L.attempts.length, i ∈ s.taken := by
  have hpre := hL.started_prefix h.loop
  have hsub : s.taken.toFinset ⊆ Finset.range (L.started s.loop).length := fun i hi => by
    obtain ⟨r, hr⟩ := (h.mem_taken i).mp (List.mem_toFinset.mp hi)
    exact Finset.mem_range.mpr (h.started i (by simp [hr]))
  have hcard := Finset.card_le_card hsub
  rw [List.toFinset_card_of_nodup h.nodup_taken, Finset.card_range, hlen] at hcard
  have hstarted := hpre.eq_of_length_le hcard
  refine ⟨hstarted, fun i hi => ?_⟩
  have hall := Finset.eq_of_subset_of_card_le hsub
    (by rw [List.toFinset_card_of_nodup h.nodup_taken, Finset.card_range, hlen, hstarted])
  rw [← List.mem_toFinset, hall, Finset.mem_range, hstarted]
  exact hi

/-- A failure returned while the caller's context is live comes after the failure of every
attempt. -/
theorem Inv.all_failed (hL : L.Lawful inv) (h : Inv L inv s) (hstep : Step L s s')
    (hlive : s.ctxDone = false) (hloop : L.result s.loop = none) {e : ε}
    (hres : L.result s'.loop = some (.error e)) :
    L.started s'.loop = L.attempts ∧
      ∀ i < L.attempts.length, ∃ e, s'.phase i = .delivered (.error e) := by
  have h' := h.step hL hstep
  have hfailures := h'.failures (by simp [hres])
  have hlen : s'.taken.length = L.attempts.length := by
    rw [← hfailures]
    cases hstep with
    | finish | drop | cancel => simp [hloop] at hres
    | timer => simp [hL.result_timer, hloop] at hres
    | done _ hdone => simp [hlive] at hdone
    | deliver i r =>
        cases r with
        | ok c => simp [hL.result_ok] at hres
        | error e' =>
            obtain hnone | ⟨-, hlast⟩ := hL.result_error e' h.loop hloop
            · simp [hnone] at hres
            · rw [hL.failures_error, hlast]
  obtain ⟨hstarted, htaken⟩ := h'.mem_taken_of_length hL hlen
  refine ⟨hstarted, fun i hi => ?_⟩
  obtain ⟨r, hr⟩ := (h'.mem_taken i).mp (htaken i hi)
  cases r with
  | error e' => exact ⟨e', hr⟩
  | ok c =>
      have hok := (h'.result_ok c).mpr ⟨i, hr⟩
      simp [hres] at hok

/-- Two attempts race: the timer starts the second, both succeed, the loop takes the first
and the second is closed. -/
theorem exists_reachable_of_pair (L : Loop S D ε κ) {a b : κ} (hab : a ≠ b)
    (hinit : L.result L.init = none) (htimer : L.result (L.onTimer L.init) = none)
    (hstarted : 1 < (L.started (L.onTimer L.init)).length)
    (hok : L.result (L.onResult (L.onTimer L.init) (.ok a)) = some (.ok a)) :
    ∃ s, Reachable L s ∧ L.result s.loop = some (.ok a) ∧ s.closed = [b] := by
  have h₁ : Reachable L _ := Relation.ReflTransGen.refl.tail (.timer hinit)
  have h₂ : Reachable L _ := h₁.tail (.finish 0 (.ok a) (Nat.zero_lt_of_lt hstarted) rfl
    fun c _ j => by simp [State.init, Phase.outcome])
  have h₃ : Reachable L _ := h₂.tail (.finish 1 (.ok b) hstarted rfl fun c hc j => by
    obtain rfl : b = c := by simpa using hc
    by_cases hj : j = 0
    · subst hj
      simp [Phase.outcome, hab]
    · simp [State.init, Phase.outcome, hj])
  have h₄ : Reachable L _ := h₃.tail (.deliver 0 (.ok a) htimer rfl)
  have h₅ : Reachable L _ := h₄.tail (.drop 1 (.ok b)
    (.inr (Option.isSome_iff_exists.mpr ⟨_, hok⟩)) rfl)
  exact ⟨_, h₅, hok, rfl⟩

end

end Race
