import Outway.Connect.Source

/-!
# Outway.Connect.Race

The races of the TCP connector.

`connectAny` races the resolved addresses and `connectWithCIDRFallback` the dial
from the CIDR against the dial from the fallback.  Each dial runs in a goroutine
that offers its result on an unbuffered channel, or closes its connection when the
race is cancelled.  Both loops are lawful loops of `Outway.Lib.Race`; the timers
may fire at any time.

* `connectAny_race`: no connection is lost, no address is dialled twice or out of
  order, and no failure is reported before every address has failed.
* `connectWithCIDRFallback_race`: the same of the two dials.
-/

namespace Outway

variable {κ : Type}

/-! ## The race of the addresses -/

/-- The state of `connectAny`'s loop, with the addresses it has called `start` for. -/
structure AddressStarts (κ : Type) extends AddressRace κ where
  dialled : List AddrPort

namespace AddressStarts

/-- `start(addrs[started])` and `started++`. -/
def startNext (addrs : List AddrPort) (s : AddressStarts κ) : AddressStarts κ :=
  match addrs[s.started]? with
  | some addr => { s with started := s.started + 1, dialled := s.dialled ++ [addr] }
  | none => s

def step (addrs : List AddrPort) (s : AddressStarts κ) : Wakeup κ → AddressStarts κ
  | .result (.ok conn) => { s with completed := s.completed + 1, result := some (.ok conn) }
  | .result (.error err) =>
      let s := { s with completed := s.completed + 1 }
      if s.completed = addrs.length then { s with result := some (.error err) }
      else if s.completed = s.started ∧ s.started < addrs.length then s.startNext addrs
      else s
  | .timer => if s.started < addrs.length then s.startNext addrs else s
  | .ctxDone => { s with result := some (.error .context) }

/-- Before the first wake-up: `start(addrs[0])`. -/
def init (addrs : List AddrPort) : AddressStarts κ := ⟨⟨1, 0, none⟩, addrs.take 1⟩

variable {addrs : List AddrPort} {s : AddressStarts κ}

/-- One more dial is one more start. -/
theorem toAddressRace_startNext (h : s.started < addrs.length) :
    (s.startNext addrs).toAddressRace = { s.toAddressRace with started := s.started + 1 } := by
  rw [startNext, List.getElem?_eq_getElem h]

/-- The loop is that of `AddressRace`, with the addresses. -/
theorem toAddressRace_step (w : Wakeup κ) :
    (s.step addrs w).toAddressRace = s.toAddressRace.step addrs.length w := by
  cases w with
  | result r =>
      cases r with
      | ok conn => rfl
      | error err =>
          simp only [step, AddressRace.step]
          split_ifs with hall hnext
          · rfl
          · exact toAddressRace_startNext hnext.2
          · rfl
  | timer =>
      simp only [step, AddressRace.step]
      split_ifs with hnext
      · exact toAddressRace_startNext hnext
      · rfl
  | ctxDone => rfl

/-- The addresses are dialled in order, and the loop waits for one of them. -/
structure InOrder (addrs : List AddrPort) (s : AddressStarts κ) : Prop where
  dialled_eq : s.dialled = addrs.take s.started
  started_le : s.started ≤ addrs.length
  completed_lt : s.result = none → s.completed < s.started

/-- The next address is dialled next. -/
theorem inOrder_startNext (hdialled : s.dialled = addrs.take s.started)
    (hlt : s.started < addrs.length) (hcompleted : s.completed ≤ s.started) :
    InOrder addrs (s.startNext addrs) := by
  rw [startNext, List.getElem?_eq_getElem hlt]
  refine ⟨?_, hlt, fun _ => Nat.lt_succ_of_le hcompleted⟩
  dsimp only
  rw [hdialled, List.take_succ_eq_append_getElem hlt]

/-- Each wakeup keeps the dials in the order of the addresses. -/
theorem InOrder.step (h : InOrder addrs s) (hres : s.result = none) (w : Wakeup κ) :
    InOrder addrs (s.step addrs w) := by
  have hlt := h.completed_lt hres
  cases w with
  | result r =>
      cases r with
      | ok conn => exact ⟨h.dialled_eq, h.started_le, by simp [AddressStarts.step]⟩
      | error err =>
          simp only [AddressStarts.step]
          split_ifs with hall hnext
          · exact ⟨h.dialled_eq, h.started_le, by simp⟩
          · exact inOrder_startNext h.dialled_eq hnext.2 hnext.1.le
          · refine ⟨h.dialled_eq, h.started_le, fun _ => ?_⟩
            have := h.started_le
            dsimp only at hall hnext ⊢
            omega
  | timer =>
      simp only [AddressStarts.step]
      split_ifs with hnext
      · exact inOrder_startNext h.dialled_eq hnext hlt.le
      · exact h
  | ctxDone => exact ⟨h.dialled_eq, h.started_le, by simp [AddressStarts.step]⟩

/-- No dial is taken back. -/
theorem length_dialled_le_step (w : Wakeup κ) :
    s.dialled.length ≤ (s.step addrs w).dialled.length := by
  have hstart (s : AddressStarts κ) : s.dialled.length ≤ (s.startNext addrs).dialled.length := by
    rw [startNext]
    split <;> simp
  cases w with
  | result r =>
      cases r with
      | ok conn => exact le_rfl
      | error err =>
          simp only [step]
          split_ifs
          · exact le_rfl
          · exact hstart { s with completed := s.completed + 1 }
          · exact le_rfl
  | timer =>
      simp only [step]
      split_ifs
      · exact hstart _
      · exact le_rfl
  | ctxDone => exact le_rfl

theorem completed_startNext : (s.startNext addrs).completed = s.completed := by
  rw [startNext]
  split <;> rfl

theorem result_startNext : (s.startNext addrs).result = s.result := by
  rw [startNext]
  split <;> rfl

end AddressStarts

/-- The loop of `connectAny` over at least two addresses. -/
def connectAnyLoop (addrs : List AddrPort) :
    Race.Loop (AddressStarts κ) AddrPort ConnectError κ where
  attempts := addrs
  init := .init addrs
  started := AddressStarts.dialled
  failures s := s.completed
  result s := s.result
  onResult s r := s.step addrs (.result r)
  onTimer s := s.step addrs .timer
  onDone s := s.step addrs .ctxDone

/-- The loop of `connectAny` starts the next dial at a timer or at a failure, and ends with the
first connection or the last failure. -/
theorem lawful_connectAnyLoop {addrs : List AddrPort} (haddrs : 2 ≤ addrs.length) :
    (connectAnyLoop addrs : Race.Loop (AddressStarts κ) _ _ _).Lawful
      (AddressStarts.InOrder addrs) where
  init := ⟨rfl, by simp [connectAnyLoop, AddressStarts.init]; omega, fun _ => Nat.one_pos⟩
  init_result := rfl
  init_failures := rfl
  onResult r h hres := h.step hres _
  onTimer h hres := h.step hres .timer
  onDone h hres := h.step hres .ctxDone
  started_prefix h := by
    show AddressStarts.dialled _ <+: addrs
    rw [h.dialled_eq]
    exact List.take_prefix _ _
  length_onResult _ _ := AddressStarts.length_dialled_le_step _
  length_onTimer _ := AddressStarts.length_dialled_le_step _
  length_onDone _ := AddressStarts.length_dialled_le_step _
  failures_lt {s} h hres := by
    show s.completed < s.dialled.length
    rw [h.dialled_eq, List.length_take, min_eq_left h.started_le]
    exact h.completed_lt hres
  result_ok _ _ := rfl
  failures_error s err := by
    simp only [connectAnyLoop, AddressStarts.step]
    split_ifs
    · rfl
    · exact AddressStarts.completed_startNext
    · rfl
  result_error {s} err _ hres := by
    simp only [connectAnyLoop, AddressStarts.step] at hres ⊢
    split_ifs with hall hnext
    · exact .inr ⟨rfl, hall⟩
    · exact .inl (AddressStarts.result_startNext.trans hres)
    · exact .inl hres
  result_timer s := by
    simp only [connectAnyLoop, AddressStarts.step]
    split_ifs
    · exact AddressStarts.result_startNext
    · rfl
  failures_timer s := by
    simp only [connectAnyLoop, AddressStarts.step]
    split_ifs
    · exact AddressStarts.completed_startNext
    · rfl
  result_done _ _ := by simp [connectAnyLoop, AddressStarts.step]
  failures_done _ := rfl

/-! ## The race of the CIDR and the fallback -/

namespace TcpConnector

variable (t : TcpConnector)

/-- The loop of `connectWithCIDRFallback`. -/
def cidrFallbackLoop (rnd : RandDraws) (target : AddrPort) (cidr : Prefix) (fb : Fallback) :
    Race.Loop (FallbackRace κ) Dial ConnectError κ where
  attempts := [t.cidrDial rnd target cidr, fallbackDial target fb]
  init := ⟨[t.cidrDial rnd target cidr], false, 0, none⟩
  started := FallbackRace.dials
  failures := FallbackRace.failures
  result := FallbackRace.result
  onResult s r := s.step (fallbackDial target fb) (.result r)
  onTimer s := s.step (fallbackDial target fb) .timer
  onDone s := s.step (fallbackDial target fb) .ctxDone

end TcpConnector

namespace FallbackRace

/-- The second dial is started once, by the timer or by the first failure. -/
inductive InOrder (first second : Dial) : FallbackRace κ → Prop where
  | one {failures : Nat} {result : Option (Except ConnectError κ)}
      (h : result = none → failures = 0) : InOrder first second ⟨[first], false, failures, result⟩
  | both {failures : Nat} {result : Option (Except ConnectError κ)}
      (h : result = none → failures < 2) :
      InOrder first second ⟨[first, second], true, failures, result⟩

/-- Each wakeup keeps the fallback behind the first dial. -/
theorem InOrder.step {first second : Dial} {s : FallbackRace κ} (h : InOrder first second s)
    (hres : s.result = none) (w : Wakeup κ) : InOrder first second (s.step second w) := by
  cases h with
  | one h =>
      obtain rfl : _ = 0 := h hres
      cases w with
      | result r =>
          cases r with
          | ok conn => exact .one (by simp)
          | error err => exact .both fun _ => Nat.one_lt_two
      | timer => exact .both fun _ => Nat.two_pos
      | ctxDone => exact .one (by simp)
  | both h =>
      have hlt := h hres
      cases w with
      | result r =>
          cases r with
          | ok conn => exact .both (by simp)
          | error err =>
              simp only [FallbackRace.step, Bool.true_eq_false, if_false]
              split_ifs with htwo
              · exact .both (by simp)
              · exact .both fun _ => by omega
      | timer => exact .both h
      | ctxDone => exact .both (by simp)

/-- No dial is taken back. -/
theorem length_dials_le_step {second : Dial} {s : FallbackRace κ} (w : Wakeup κ) :
    s.dials.length ≤ (s.step second w).dials.length := by
  cases w with
  | result r =>
      cases r with
      | ok conn => exact le_rfl
      | error err =>
          simp only [step]
          split_ifs <;> simp
  | timer =>
      simp only [step]
      split_ifs <;> simp
  | ctxDone => exact le_rfl

end FallbackRace

/-- The loop of `connectWithCIDRFallback` is such a race, of two dials. -/
theorem TcpConnector.lawful_cidrFallbackLoop (t : TcpConnector) (rnd : RandDraws)
    (target : AddrPort) (cidr : Prefix) (fb : Fallback) :
    (t.cidrFallbackLoop rnd target cidr fb : Race.Loop (FallbackRace κ) _ _ _).Lawful
      (FallbackRace.InOrder (t.cidrDial rnd target cidr) (fallbackDial target fb)) where
  init := .one fun _ => rfl
  init_result := rfl
  init_failures := rfl
  onResult r h hres := h.step hres _
  onTimer h hres := h.step hres .timer
  onDone h hres := h.step hres .ctxDone
  started_prefix h := by
    cases h with
    | one => exact ⟨[fallbackDial target fb], rfl⟩
    | both => exact List.prefix_refl _
  length_onResult _ _ := FallbackRace.length_dials_le_step _
  length_onTimer _ := FallbackRace.length_dials_le_step _
  length_onDone _ := FallbackRace.length_dials_le_step _
  failures_lt h hres := by
    cases h with
    | one h => exact (h hres).trans_lt Nat.one_pos
    | both h => exact h hres
  result_ok _ _ := rfl
  failures_error s err := by
    simp only [cidrFallbackLoop, FallbackRace.step]
    split_ifs <;> rfl
  result_error {s} err h hres := by
    cases h with
    | one => exact .inl hres
    | both =>
        simp only [cidrFallbackLoop, FallbackRace.step, Bool.true_eq_false, if_false]
        split_ifs with htwo
        · exact .inr ⟨rfl, htwo⟩
        · exact .inl hres
  result_timer s := by
    simp only [cidrFallbackLoop, FallbackRace.step]
    split_ifs <;> rfl
  failures_timer s := by
    simp only [cidrFallbackLoop, FallbackRace.step]
    split_ifs <;> rfl
  result_done _ _ := by simp [cidrFallbackLoop, FallbackRace.step]
  failures_done _ := rfl

/-! ## What the races come to -/

open Race

/-- The race goes through the states of the loop of `connectAny`. -/
theorem exists_run_connectAnyLoop {addrs : List AddrPort}
    {s : State (AddressStarts κ) ConnectError κ} (h : Reachable (connectAnyLoop addrs) s) :
    ∃ ws, s.loop.toAddressRace = AddressRace.run addrs.length ⟨1, 0, none⟩ ws := by
  have hwake (w : Wakeup κ) (l : AddressStarts κ)
      (hl : ∃ ws, l.toAddressRace = AddressRace.run addrs.length ⟨1, 0, none⟩ ws)
      (hres : l.result = none) :
      ∃ ws, (l.step addrs w).toAddressRace = AddressRace.run addrs.length ⟨1, 0, none⟩ ws := by
    obtain ⟨ws, hws⟩ := hl
    refine ⟨ws ++ [w], ?_⟩
    rw [AddressRace.run, Race.wake_concat w ((congrArg _ hws).symm.trans hres), ← AddressRace.run,
      ← hws, AddressStarts.toAddressRace_step]
  exact loop_of_reachable ⟨[], rfl⟩ (fun l r => hwake (.result r) l) (hwake .timer)
    (hwake .ctxDone) h

/-- The race of the addresses: they are dialled in list order, each at most once; every
connection but the returned one is closed; a failure under a live context comes after
the failure of every address; the loop never waits for nothing; and it is the loop of
`TcpConnector.connectAny`, woken up by the race. -/
theorem connectAny_race {addrs : List AddrPort} (haddrs : 2 ≤ addrs.length)
    {s : State (AddressStarts κ) ConnectError κ} (h : Reachable (connectAnyLoop addrs) s) :
    (connectAnyLoop addrs).started s.loop <+: addrs ∧ Settled (connectAnyLoop addrs) s ∧
    (∀ s' err, Step (connectAnyLoop addrs) s s' → s.ctxDone = false →
      (connectAnyLoop addrs).result s.loop = none →
      (connectAnyLoop addrs).result s'.loop = some (.error err) →
      (connectAnyLoop addrs).started s'.loop = addrs ∧
        ∀ i < addrs.length, ∃ err, s'.phase i = .delivered (.error err)) ∧
    ((connectAnyLoop addrs).result s.loop = none →
      ∃ i < ((connectAnyLoop addrs).started s.loop).length, i ∉ s.taken) ∧
    ∃ ws, s.loop.toAddressRace = AddressRace.run addrs.length ⟨1, 0, none⟩ ws := by
  have hlawful : (connectAnyLoop addrs : Loop (AddressStarts κ) _ _ _).Lawful _ :=
    lawful_connectAnyLoop haddrs
  have hinv := inv_of_reachable hlawful h
  exact ⟨hlawful.started_prefix hinv.loop, hinv.settled,
    fun s' err hstep hlive hres hres' => hinv.all_failed hlawful hstep hlive hres hres',
    hinv.exists_pending hlawful, exists_run_connectAnyLoop h⟩

/-- The two addresses of a resolver. -/
def twoAddrs : List AddrPort := [⟨.v4 0x01010101, 443⟩, ⟨.v4 0x08080808, 443⟩]

/-- The timer starts the second dial, both succeed, and the first is returned. -/
theorem connectAny_race_both : ∃ s : State (AddressStarts Nat) ConnectError Nat,
    (connectAnyLoop twoAddrs).result s.loop = some (.ok 10) ∧ s.closed = [11] ∧
      Settled (connectAnyLoop twoAddrs) s := by
  obtain ⟨s, hreach, hres, hclosed⟩ := exists_reachable_of_pair
    (connectAnyLoop twoAddrs : Loop (AddressStarts Nat) _ _ _)
    (by decide : 10 ≠ 11) rfl rfl (by decide) rfl
  exact ⟨s, hres, hclosed, (connectAny_race (by decide) hreach).2.1⟩

/-- The race goes through the states of the loop of `connectWithCIDRFallback`. -/
theorem TcpConnector.exists_run_cidrFallbackLoop (t : TcpConnector) (rnd : RandDraws)
    (target : AddrPort) (cidr : Prefix) (fb : Fallback) {s : State (FallbackRace κ) ConnectError κ}
    (h : Reachable (t.cidrFallbackLoop rnd target cidr fb) s) :
    ∃ ws, s.loop = FallbackRace.run (fallbackDial target fb)
      ⟨[t.cidrDial rnd target cidr], false, 0, none⟩ ws := by
  have hwake (w : Wakeup κ) (l : FallbackRace κ)
      (hl : ∃ ws, l = FallbackRace.run (fallbackDial target fb)
        ⟨[t.cidrDial rnd target cidr], false, 0, none⟩ ws) (hres : l.result = none) :
      ∃ ws, l.step (fallbackDial target fb) w = FallbackRace.run (fallbackDial target fb)
        ⟨[t.cidrDial rnd target cidr], false, 0, none⟩ ws := by
    obtain ⟨ws, rfl⟩ := hl
    exact ⟨ws ++ [w], (Race.wake_concat w hres).symm⟩
  exact loop_of_reachable ⟨[], rfl⟩ (fun l r => hwake (.result r) l) (hwake .timer)
    (hwake .ctxDone) h

/-- The race of the CIDR dial and the fallback dial: the fallback is dialled at most once;
a call that returns under a live context returns a connection of one of the dials, or
both have failed; every connection but the returned one is closed; the loop never waits
for nothing; and it is the loop of `connectWithCIDRFallback`, woken up by the race. -/
theorem TcpConnector.connectWithCIDRFallback_race (t : TcpConnector) (rnd : RandDraws)
    (target : AddrPort) (cidr : Prefix) (fb : Fallback) {s : State (FallbackRace κ) ConnectError κ}
    (h : Reachable (t.cidrFallbackLoop rnd target cidr fb) s) :
    ((t.cidrFallbackLoop rnd target cidr fb).started s.loop = [t.cidrDial rnd target cidr] ∨
      (t.cidrFallbackLoop rnd target cidr fb).started s.loop =
        [t.cidrDial rnd target cidr, fallbackDial target fb]) ∧
    (∀ s', Step (t.cidrFallbackLoop rnd target cidr fb) s s' → s.ctxDone = false →
      (t.cidrFallbackLoop rnd target cidr fb).result s.loop = none →
      ((t.cidrFallbackLoop rnd target cidr fb).result s'.loop).isSome →
      (∃ conn, (t.cidrFallbackLoop rnd target cidr fb).result s'.loop = some (.ok conn) ∧
        ∃! i, Succeeded s' i conn) ∨
      (∃ err, (t.cidrFallbackLoop rnd target cidr fb).result s'.loop = some (.error err)) ∧
        (t.cidrFallbackLoop rnd target cidr fb).started s'.loop =
          [t.cidrDial rnd target cidr, fallbackDial target fb] ∧
        ∀ i < 2, ∃ err, s'.phase i = .delivered (.error err)) ∧
    Settled (t.cidrFallbackLoop rnd target cidr fb) s ∧
    ((t.cidrFallbackLoop rnd target cidr fb).result s.loop = none →
      ∃ i < ((t.cidrFallbackLoop rnd target cidr fb).started s.loop).length, i ∉ s.taken) ∧
    ∃ ws, s.loop = FallbackRace.run (fallbackDial target fb)
      ⟨[t.cidrDial rnd target cidr], false, 0, none⟩ ws := by
  have hlawful : (t.cidrFallbackLoop rnd target cidr fb : Loop (FallbackRace κ) _ _ _).Lawful _ :=
    t.lawful_cidrFallbackLoop rnd target cidr fb
  have hinv := inv_of_reachable hlawful h
  refine ⟨?_, fun s' hstep hlive hres hres' => ?_, hinv.settled, hinv.exists_pending hlawful,
    t.exists_run_cidrFallbackLoop rnd target cidr fb h⟩
  · have horder := hinv.loop
    generalize s.loop = loop at horder
    cases horder with
    | one => exact .inl rfl
    | both => exact .inr rfl
  · obtain ⟨r, hr⟩ := Option.isSome_iff_exists.mp hres'
    cases r with
    | ok conn => exact .inl ⟨conn, hr, ((hinv.step hlawful hstep).settled.1 conn hr).1⟩
    | error err => exact .inr ⟨⟨err, hr⟩, hinv.all_failed hlawful hstep hlive hres hr⟩

/-- The timer starts the fallback dial, both succeed, and the first is returned. -/
theorem TcpConnector.connectWithCIDRFallback_race_both :
    let cidr : Prefix := ⟨.v4 0x0a000000#32, 8, by decide⟩
    let fb : Fallback := ⟨.zero, "eth1"⟩
    let loop : Loop (FallbackRace Nat) _ _ _ := cidrFallbackLoop
      ⟨⟨some cidr, none, some fb⟩, .noExt⟩ ⟨0, 0, 0⟩ ⟨.v4 0x01020304#32, 80⟩ cidr fb
    ∃ s, loop.result s.loop = some (.ok 10) ∧ s.closed = [11] ∧ Settled loop s := by
  intro cidr fb loop
  obtain ⟨s, hreach, hres, hclosed⟩ := exists_reachable_of_pair loop (by decide : 10 ≠ 11) rfl rfl
    Nat.one_lt_two rfl
  exact ⟨s, hres, hclosed, (connectWithCIDRFallback_race _ _ _ _ _ hreach).2.2.1⟩

end Outway
