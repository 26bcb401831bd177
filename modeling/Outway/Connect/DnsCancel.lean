import Outway.Connect.DnsInvariants

/-!
# Outway.Connect.DnsCancel

Cancellation and merged lookups.

A caller that is merged into another caller's lookup receives whatever that
leader publishes, and a leader whose context ends publishes its context error.
So a caller with a live context can fail with the error of another caller's
context.  It cannot as long as no live caller ever waits for a leader whose
context has ended (`Calm`): along such a run every live `Lookup` that returns has
the resolver's answer, and every live `Lookup` can still get it.
-/

namespace Outway.Dns

variable {ι : Type} [DecidableEq ι]

/-- No caller with a live context waits for a leader whose context has ended. -/
def Calm (s : State ι) : Prop :=
  ∀ i j call, s.phase i = .waiting call → s.ended i = none →
    (s.phase j).leads = some call → s.ended j = none

/-- A step into a calm state. -/
def CalmStep (p : Params ι) (s s' : State ι) : Prop := Step p s s' ∧ Calm s'

/-- What a caller with a live context may rely on. -/
structure Merged (p : Params ι) (s : State ι) : Prop where
  /-- a live waiter has a leader for its key, or the record holds an answer -/
  waiting : ∀ i call, s.phase i = .waiting call → s.ended i = none →
    (∃ j, (s.phase j).leads = some call ∧ p.key j = p.key i) ∨
    (∃ a, s.calls[call]? = some (some (.answer a)) ∧ p.answers (p.key i) a)
  waitingLt : ∀ i call, s.phase i = .waiting call → call < s.calls.length
  leadsOpen : ∀ i call, (s.phase i).leads = some call → s.calls[call]? = some none
  leadsInj : ∀ i j call, (s.phase i).leads = some call → (s.phase j).leads = some call → i = j
  inflightLed : ∀ k call, s.inflight.lookup k = some call →
    ∃ j, (s.phase j).leads = some call ∧ p.key j = k
  returned : ∀ i r, s.phase i = .returned r → s.ended i = none → p.method i = .lookup →
    ∃ a, r = some (.answer a) ∧ p.answers (p.key i) a

omit [DecidableEq ι] in
/-- A leader whose context is live has an answer of the resolver to publish. -/
theorem Provenance.answer_of_live {p : Params ι} {s : State ι} {i : ι} {r : Outcome ι}
    (h : Provenance p s) (hr : (s.phase i).outcome = some r) (hlive : s.ended i = none) :
    ∃ a, r = .answer a ∧ p.answers (p.key i) a := by
  cases r with
  | context j e => exact absurd hlive (h.contextEnded i j e hr)
  | answer a => exact ⟨a, rfl, h.completedAdmitted _ (h.answerCompleted i a hr)⟩

namespace Merged

variable {p : Params ι} {s s' : State ι}

omit [DecidableEq ι] in
/-- A leader's call exists. -/
theorem leadsLt (h : Merged p s) {i : ι} {call : Nat} (hi : (s.phase i).leads = some call) :
    call < s.calls.length :=
  (List.getElem?_eq_some_iff.mp (h.leadsOpen i call hi)).1

/-- Moving one caller that neither begins nor ends to lead or wait; if it returns,
what it returns is an answer. -/
theorem move {i : ι} {ph : Phase ι} (h : Merged p s)
    (hphase : s'.phase = Function.update s.phase i ph)
    (hrest : s'.ended = s.ended ∧ s'.inflight = s.inflight ∧ s'.calls = s.calls)
    (hleads : ph.leads = (s.phase i).leads) (hwait : ∀ call, ph ≠ .waiting call)
    (hret : ∀ r, ph = .returned r → s.ended i = none → p.method i = .lookup →
      ∃ a, r = some (.answer a) ∧ p.answers (p.key i) a) : Merged p s' := by
  obtain ⟨hended, hinflight, hcalls⟩ := hrest
  have hsame : ∀ j, (s'.phase j).leads = (s.phase j).leads := by
    rw [hphase]
    exact apply_update_of_eq Phase.leads hleads
  have hwaits : ∀ j call, s'.phase j = .waiting call → s.phase j = .waiting call := by
    intro j call hj
    rw [hphase] at hj
    exact eq_of_update_eq hj (hwait call)
  refine ⟨?_, ?_, ?_, ?_, ?_, ?_⟩
  · intro j call hj hlive
    simp only [hsame, hcalls]
    exact h.waiting j call (hwaits j call hj) (hended ▸ hlive)
  · intro j call hj
    exact hcalls ▸ h.waitingLt j call (hwaits j call hj)
  · intro j call hj
    exact hcalls ▸ h.leadsOpen j call (hsame j ▸ hj)
  · intro j k call hj hk
    exact h.leadsInj j k call (hsame j ▸ hj) (hsame k ▸ hk)
  · intro k call hk
    obtain ⟨j, hj, hkey⟩ := h.inflightLed k call (hinflight ▸ hk)
    exact ⟨j, (hsame j).trans hj, hkey⟩
  · intro j r hj hlive hm
    rw [hphase] at hj
    obtain ⟨rfl, hph⟩ | ⟨-, hold⟩ := of_update_eq hj
    · exact hret r hph (hended ▸ hlive) hm
    · exact h.returned j r hold (hended ▸ hlive) hm

/-- Serving from the cache. -/
theorem serve {i : ι} {now : Int} {r : Outcome ι} (h : Merged p s) (hprov : Provenance p s)
    (hr : hit s.entries (p.key i) now = some r) (hleads : (s.phase i).leads = none) :
    Merged p (s.serve i now r) := by
  refine h.move rfl ⟨rfl, rfl, rfl⟩ hleads.symm (by simp) ?_
  intro r' hr' _ _
  obtain ⟨en, hen, -, rfl⟩ := hit_eq_some hr
  obtain ⟨rec, hrec, hkey, hout, -⟩ := hprov.entryRecorded _ en hen
  have hadm := hprov.completedAdmitted _ (hprov.recordedCompleted rec hrec)
  cases hr'
  exact ⟨rec.answer, by rw [hout], hkey ▸ hadm⟩

/-- Merging into a call in flight. -/
theorem join {i : ι} {call : Nat} (h : Merged p s) (hi : (s.phase i).leads = none)
    (hc : s.inflight.lookup (p.key i) = some call) :
    Merged p ({ s with entries := s.entries.erase (p.key i) }.goto i (.waiting call)) := by
  obtain ⟨leader, hleader, hkey⟩ := h.inflightLed _ _ hc
  have hsame : ∀ j, ((Function.update s.phase i (.waiting call)) j).leads = (s.phase j).leads :=
    apply_update_of_eq Phase.leads hi.symm
  refine ⟨?_, ?_, ?_, ?_, ?_, ?_⟩
  · intro j c hj hlive
    obtain ⟨rfl, hph⟩ | ⟨-, hold⟩ := of_update_eq hj
    · cases hph
      exact .inl ⟨leader, by simpa [hsame] using hleader, hkey⟩
    · simp only [State.phase_goto, hsame]
      exact h.waiting j c hold hlive
  · intro j c hj
    obtain ⟨-, hph⟩ | ⟨-, hold⟩ := of_update_eq hj
    · cases hph
      exact h.leadsLt hleader
    · exact h.waitingLt j c hold
  · intro j c hj
    exact h.leadsOpen j c (by simpa [hsame] using hj)
  · intro j k c hj hk
    exact h.leadsInj j k c (by simpa [hsame] using hj) (by simpa [hsame] using hk)
  · intro k c hk
    obtain ⟨j, hj, hkey'⟩ := h.inflightLed k c hk
    exact ⟨j, by simpa [hsame] using hj, hkey'⟩
  · intro j r hj hlive hm
    exact h.returned j r (eq_of_update_eq hj (by simp)) hlive hm

/-- Opening a call record for a key that is not in flight. -/
theorem lead {i : ι} {now : Int} (h : Merged p s) (hi : s.phase i = .missed now) :
    Merged p ({ s with
      entries := s.entries.erase (p.key i)
      inflight := s.inflight.insert (p.key i) s.calls.length
      calls := s.calls ++ [none] }.goto i (.queued s.calls.length now)) := by
  have hnone : (s.phase i).leads = none := by simp [hi, Phase.leads]
  have hkeep : ∀ j c, (s.phase j).leads = some c →
      ((Function.update s.phase i (.queued s.calls.length now)) j).leads = some c := by
    intro j c hj
    have hji : j ≠ i := by
      rintro rfl
      simp [hnone] at hj
    rw [Function.update_of_ne hji, hj]
  have hled : ∀ j c, ((Function.update s.phase i (.queued s.calls.length now)) j).leads = some c →
      j = i ∧ c = s.calls.length ∨ j ≠ i ∧ (s.phase j).leads = some c := by
    intro j c hj
    obtain ⟨hji, hc⟩ | hold := of_apply_update_eq Phase.leads hj
    · exact .inl ⟨hji, (Option.some.inj hc).symm⟩
    · exact .inr hold
  refine ⟨?_, ?_, ?_, ?_, ?_, ?_⟩
  · intro j c hj hlive
    have hold : s.phase j = .waiting c := eq_of_update_eq hj (by simp)
    obtain ⟨leader, hleader, hkey⟩ | ⟨a, ha, hadm⟩ := h.waiting j c hold hlive
    · exact .inl ⟨leader, hkeep leader c hleader, hkey⟩
    · have hlt := h.waitingLt j c hold
      exact .inr ⟨a, by simpa [List.getElem?_append_left hlt] using ha, hadm⟩
  · intro j c hj
    have hlt := h.waitingLt j c (eq_of_update_eq hj (by simp))
    simp only [State.calls_goto, List.length_append, List.length_singleton]
    omega
  · intro j c hj
    obtain ⟨-, rfl⟩ | ⟨-, hold⟩ := hled j c hj
    · simp
    · rw [State.calls_goto, List.getElem?_append_left (h.leadsLt hold)]
      exact h.leadsOpen j c hold
  · intro j k c hj hk
    obtain ⟨hji, hjc⟩ | ⟨-, hjold⟩ := hled j c hj
    · obtain ⟨hki, -⟩ | ⟨-, hkold⟩ := hled k c hk
      · rw [hji, hki]
      · -- the record of the new leader is fresh
        exact absurd (h.leadsLt hkold) (by omega)
    · obtain ⟨-, hkc⟩ | ⟨-, hkold⟩ := hled k c hk
      · exact absurd (h.leadsLt hjold) (by omega)
      · exact h.leadsInj j k c hjold hkold
  · intro k c hk
    by_cases hkey : k = p.key i
    · subst hkey
      obtain rfl : s.calls.length = c := by simpa using hk
      exact ⟨i, by simp [Phase.leads], rfl⟩
    · have hk' : s.inflight.lookup k = some c := by simpa [AList.lookup_insert_ne hkey] using hk
      obtain ⟨j, hj, hkeyj⟩ := h.inflightLed k c hk'
      exact ⟨j, hkeep j c hj, hkeyj⟩
  · intro j r hj hlive hm
    exact h.returned j r (eq_of_update_eq hj (by simp)) hlive hm

/-- A leader that finishes takes no record from another one. -/
theorem leads_finish {i j : ι} {call c : Nat} {now : Int} {r : Outcome ι} {victim : HostName}
    (hj : (s.phase j).leads = some c) (hji : j ≠ i) :
    ((s.finish p i call now r victim).phase j).leads = some c := by
  rw [(s.finish_eq p i call now r victim).1, Function.update_of_ne hji, hj]

/-- What a live waiter has once a leader has finished.  Calmness enters here: a leader whose
context has ended has no live waiter to hand its error to. -/
theorem waiting_finish {i j : ι} {call c : Nat} {now : Int} {r : Outcome ι} {victim : HostName}
    (h : Merged p s) (hprov : Provenance p s) (hcalm : Calm s)
    (hi : s.phase i = .resolved call now r) (hj : s.phase j = .waiting c)
    (hlive : s.ended j = none) :
    (∃ k, ((s.finish p i call now r victim).phase k).leads = some c ∧ p.key k = p.key j) ∨
      ∃ a, (s.finish p i call now r victim).calls[c]? = some (some (.answer a)) ∧
        p.answers (p.key j) a := by
  obtain ⟨-, -, hcalls, -⟩ := s.finish_eq p i call now r victim
  have hleads : (s.phase i).leads = some call := by simp [hi, Phase.leads]
  have hout : (s.phase i).outcome = some r := by simp [hi, Phase.outcome]
  rw [hcalls]
  by_cases hcc : c = call
  · -- the waiter's own record is published
    subst hcc
    obtain ⟨a, rfl, hadm⟩ := hprov.answer_of_live hout (hcalm j i c hj hlive hleads)
    obtain ⟨leader, hleader, hkey⟩ | ⟨b, hb, -⟩ := h.waiting j c hj hlive
    · obtain rfl := h.leadsInj leader i c hleader hleads
      refine .inr ⟨a, ?_, hkey ▸ hadm⟩
      rw [List.getElem?_set_self (h.waitingLt j c hj)]
    · rw [h.leadsOpen i c hleads] at hb
      cases hb
  · obtain ⟨leader, hleader, hkey⟩ | ⟨a, ha, hadm⟩ := h.waiting j c hj hlive
    · have hne : leader ≠ i := by
        rintro rfl
        exact hcc (Option.some.inj (hleader.symm.trans hleads))
      exact .inl ⟨leader, leads_finish hleader hne, hkey⟩
    · refine .inr ⟨a, ?_, hadm⟩
      rw [List.getElem?_set_ne (Ne.symm hcc)]
      exact ha

/-- The closing section of a leader. -/
theorem finish {i : ι} {call : Nat} {now : Int} {r : Outcome ι} {victim : HostName}
    (h : Merged p s) (hprov : Provenance p s) (hcalm : Calm s)
    (hi : s.phase i = .resolved call now r) : Merged p (s.finish p i call now r victim) := by
  obtain ⟨hphase, hinflight, hcalls, -, hended⟩ := s.finish_eq p i call now r victim
  have hleads : (s.phase i).leads = some call := by simp [hi, Phase.leads]
  have hstill : ∀ j c, ((s.finish p i call now r victim).phase j).leads = some c →
      j ≠ i ∧ (s.phase j).leads = some c := by
    intro j c hj
    rw [hphase] at hj
    obtain ⟨-, hc⟩ | hold := of_apply_update_eq Phase.leads hj
    · cases hc
    · exact hold
  have hwaits : ∀ j c, (s.finish p i call now r victim).phase j = .waiting c →
      s.phase j = .waiting c := by
    intro j c hj
    rw [hphase] at hj
    exact eq_of_update_eq hj (by simp)
  refine ⟨?_, ?_, ?_, ?_, ?_, ?_⟩
  · intro j c hj hlive
    exact h.waiting_finish hprov hcalm hi (hwaits j c hj) (hended ▸ hlive)
  · intro j c hj
    rw [hcalls, List.length_set]
    exact h.waitingLt j c (hwaits j c hj)
  · intro j c hj
    obtain ⟨hji, hj'⟩ := hstill j c hj
    have hcc : call ≠ c := by
      rintro rfl
      exact hji (h.leadsInj j i call hj' hleads)
    rw [hcalls, List.getElem?_set_ne hcc]
    exact h.leadsOpen j c hj'
  · intro j k c hj hk
    exact h.leadsInj j k c (hstill j c hj).2 (hstill k c hk).2
  · intro k c hk
    rw [hinflight] at hk
    have hne : k ≠ p.key i := by
      rintro rfl
      simp [AList.lookup_erase] at hk
    rw [AList.lookup_erase_ne hne] at hk
    obtain ⟨j, hj, hkey⟩ := h.inflightLed k c hk
    have hji : j ≠ i := by
      rintro rfl
      exact hne hkey.symm
    exact ⟨j, leads_finish hj hji, hkey⟩
  · intro j r' hj hlive hm
    rw [hended] at hlive
    rw [hphase] at hj
    obtain ⟨rfl, hr⟩ | ⟨-, hold⟩ := of_update_eq hj
    · cases hr
      have hout : (s.phase j).outcome = some r := by simp [hi, Phase.outcome]
      obtain ⟨a, rfl, hadm⟩ := hprov.answer_of_live hout hlive
      exact ⟨a, rfl, hadm⟩
    · exact h.returned j r' hold hlive hm

/-- A context that ends takes a caller out of the live ones. -/
theorem cancel {i : ι} {e : CtxErr} (h : Merged p s) :
    Merged p { s with ended := Function.update s.ended i (some e) } := by
  have hlive : ∀ j, Function.update s.ended i (some e) j = none → s.ended j = none := by
    intro j hj
    exact eq_of_update_eq hj (by simp)
  refine { h with waiting := ?_, returned := ?_ }
  · intro j call hj hjlive
    exact h.waiting j call hj (hlive j hjlive)
  · intro j r hj hjlive hm
    exact h.returned j r hj (hlive j hjlive) hm

end Merged

/-- No step of a run without cancellations breaks the merging of calls. -/
theorem merged_step {p : Params ι} {s s' : State ι} (hstep : Step p s s') (hcalm : Calm s)
    (hprov : Provenance p s) (h : Merged p s) : Merged p s' := by
  have rest : s.ended = s.ended ∧ s.inflight = s.inflight ∧ s.calls = s.calls := ⟨rfl, rfl, rfl⟩
  cases hstep with
  | tick d => exact { h with }
  | cancel i e he => exact h.cancel
  | begin i hi => exact h.move rfl rest (by simp [Phase.leads, hi]) (by simp) (by simp)
  | cachedHit i now r hi hm hr =>
      exact h.serve hprov (hit_of_cachedHit hr) (by simp [Phase.leads, hi])
  | cachedMiss i now hi hm hr =>
      exact h.move rfl rest (by simp [Phase.leads, hi]) (by simp) (by simp [hm])
  | fastHit i now r hi hm hr => exact h.serve hprov hr (by simp [Phase.leads, hi])
  | fastMiss i now hi hm hr => exact h.move rfl rest (by simp [Phase.leads, hi]) (by simp) (by simp)
  | lockedHit i now r hi hr => exact h.serve hprov hr (by simp [Phase.leads, hi])
  | join i now call hi hr hc => exact h.join (by simp [Phase.leads, hi]) hc
  | lead i now hi hr hc => exact h.lead hi
  | wake i call r hi hr =>
      refine h.move rfl rest (by simp [Phase.leads, hi]) (by simp) ?_
      intro r' hr' hlive _
      cases hr'
      obtain ⟨j, hj, -⟩ | ⟨a, ha, hadm⟩ := h.waiting i call hi hlive
      · rw [h.leadsOpen j call hj] at hr
        cases hr
      · rw [ha] at hr
        cases hr
        exact ⟨a, rfl, hadm⟩
  | giveUp i call e hi he =>
      exact h.move rfl rest (by simp [Phase.leads, hi]) (by simp) (by simp [he])
  | acquire i call now hi hs =>
      exact h.move rfl rest (by simp [Phase.leads, hi]) (by simp) (by simp)
  | abandon i call now e hi he =>
      exact h.move rfl rest (by simp [Phase.leads, hi]) (by simp) (by simp)
  | answer i call now a hi ha =>
      exact h.move rfl rest (by simp [Phase.leads, hi]) (by simp) (by simp)
  | abort i call now e hi he =>
      exact h.move rfl rest (by simp [Phase.leads, hi]) (by simp) (by simp)
  | release i call now r hi hs =>
      exact h.move rfl rest (by simp [Phase.leads, hi]) (by simp) (by simp)
  | finish i call now r victim hi hv => exact h.finish hprov hcalm hi

/-! ## Calm runs -/

/-- Everything that holds along a calm run. -/
structure Good (p : Params ι) (s : State ι) : Prop where
  leaders : Leaders p s
  slots : SlotCount p s
  provenance : Provenance p s
  merged : Merged p s
  calm : Calm s

omit [DecidableEq ι] in
/-- The empty cache. -/
theorem good_init {p : Params ι} (clock : Int) : Good p (State.init clock) where
  leaders := ⟨by simp [State.init, Phase.leads], by simp [State.init, Phase.leads]⟩
  slots := ⟨⟨∅, by simp [State.init, Phase.holdsSlot], rfl⟩, Nat.zero_le _⟩
  provenance := by constructor <;> simp [State.init, Phase.outcome]
  merged := by constructor <;> simp [State.init, Phase.leads]
  calm := by simp [Calm, State.init]

/-- A step without cancellation keeps all that the drain needs. -/
theorem good_step {p : Params ι} {s s' : State ι} (hstep : CalmStep p s s') (h : Good p s) :
    Good p s' where
  leaders := leaders_step hstep.1 h.leaders
  slots := slotCount_step hstep.1 h.slots
  provenance := provenance_step hstep.1 h.provenance
  merged := merged_step hstep.1 h.calm h.provenance h.merged
  calm := hstep.2

/-- And so does a run of such steps. -/
theorem good_run {p : Params ι} {s s' : State ι} (h : Good p s)
    (hrun : Relation.ReflTransGen (CalmStep p) s s') : Good p s' := by
  induction hrun with
  | refl => exact h
  | tail _ hstep ih => exact good_step hstep ih

/-- Moving one caller that neither starts to wait nor starts to lead stays calm. -/
theorem Calm.move {s s' : State ι} {i : ι} {ph : Phase ι} (h : Calm s)
    (hphase : s'.phase = Function.update s.phase i ph) (hended : s'.ended = s.ended)
    (hwait : ∀ call, ph ≠ .waiting call)
    (hle : ∀ call, ph.leads = some call → (s.phase i).leads = some call ∨ s.ended i = none) :
    Calm s' := by
  intro j k call hj hlive hk
  rw [hended] at hlive ⊢
  rw [hphase] at hj hk
  have hj' : s.phase j = .waiting call := eq_of_update_eq hj (hwait call)
  obtain ⟨rfl, hph⟩ | ⟨-, hold⟩ := of_apply_update_eq Phase.leads hk
  · obtain hold | hself := hle call hph
    · exact h j k call hj' hlive hold
    · exact hself
  · exact h j k call hj' hlive hold

/-! ## Leaders can finish -/

/-- From `s` to `s'` only leaders moved, along a calm run. -/
structure Drains (p : Params ι) (s s' : State ι) : Prop where
  run : Relation.ReflTransGen (CalmStep p) s s'
  good : Good p s'
  ended : s'.ended = s.ended
  others : ∀ k, (s.phase k).leads = none → s'.phase k = s.phase k
  leaders : ∀ k call, (s'.phase k).leads = some call → (s.phase k).leads = some call

namespace Drains

variable {p : Params ι} {s s' s'' : State ι}

/-- Nothing has to be done. -/
theorem refl (h : Good p s) : Drains p s s :=
  ⟨.refl, h, rfl, fun _ _ => rfl, fun _ _ hk => hk⟩

/-- One drain after the other. -/
theorem trans (h : Drains p s s') (h' : Drains p s' s'') : Drains p s s'' where
  run := h.run.trans h'.run
  good := h'.good
  ended := h'.ended.trans h.ended
  others k hk := (h'.others k (by rw [h.others k hk, hk])).trans (h.others k hk)
  leaders k call hk := h.leaders k call (h'.leaders k call hk)

/-- One step of a leader. -/
theorem step {i : ι} {ph : Phase ι} (h : Good p s) (hstep : Step p s s')
    (hphase : s'.phase = Function.update s.phase i ph) (hended : s'.ended = s.ended)
    (hlead : (s.phase i).leads ≠ none) (hwait : ∀ call, ph ≠ .waiting call)
    (hle : ∀ call, ph.leads = some call → (s.phase i).leads = some call) : Drains p s s' := by
  have hcalm : CalmStep p s s' :=
    ⟨hstep, h.calm.move hphase hended hwait fun call hc => .inl (hle call hc)⟩
  refine ⟨.single hcalm, good_step hcalm h, hended, ?_, ?_⟩
  · intro k hk
    have hki : k ≠ i := by
      rintro rfl
      exact hlead hk
    rw [hphase, Function.update_of_ne hki]
  · intro k call hk
    rw [hphase] at hk
    obtain ⟨rfl, hph⟩ | ⟨-, hold⟩ := of_apply_update_eq Phase.leads hk
    · exact hle call hph
    · exact hold

end Drains

omit [DecidableEq ι] in
/-- There is at least one slot. -/
theorem Params.slotCap_pos (p : Params ι) : 0 < p.slotCap := by
  unfold Params.slotCap
  split_ifs <;> omega

section Progress

variable {p : Params ι} {s : State ι}

/-- The resolver comes back for every name that is asked for. -/
def Params.Answering (p : Params ι) : Prop := ∀ i, ∃ a, p.answers (p.key i) a

/-- An answered leader gives its slot back. -/
theorem drains_release {i : ι} {call : Nat} {now : Int} {r : Outcome ι} (h : Good p s)
    (hi : s.phase i = .answered call now r) :
    ∃ s', Drains p s s' ∧ s'.phase = Function.update s.phase i (.resolved call now r) ∧
      s'.slots = s.slots - 1 := by
  have hpos : 0 < s.slots := by
    obtain ⟨⟨S, hS, hcard⟩, -⟩ := h.slots
    rw [← hcard]
    exact Finset.card_pos.mpr ⟨i, (hS i).mpr (by simp [hi, Phase.holdsSlot])⟩
  have hleads : (s.phase i).leads = some call := by simp [hi, Phase.leads]
  exact ⟨_, Drains.step h (.release s i call now r hi hpos) rfl rfl (by simp [hleads]) (by simp)
    (by simp [hi, Phase.leads]), rfl, rfl⟩

/-- A query is answered when the resolver answers. -/
theorem drains_answer {i : ι} {call : Nat} {now : Int} (hans : p.Answering) (h : Good p s)
    (hi : s.phase i = .querying call now) :
    ∃ s' r, Drains p s s' ∧ s'.phase = Function.update s.phase i (.answered call now r) ∧
      s'.slots = s.slots := by
  obtain ⟨a, ha⟩ := hans i
  have hleads : (s.phase i).leads = some call := by simp [hi, Phase.leads]
  exact ⟨_, .answer a, Drains.step h (.answer s i call now a hi ha) rfl rfl (by simp [hleads])
    (by simp) (by simp [hi, Phase.leads]), rfl, rfl⟩

/-- A slot can be made free without touching a caller that holds none. -/
theorem drains_freeSlot (hans : p.Answering) (h : Good p s) :
    ∃ s', Drains p s s' ∧ s'.slots < p.slotCap ∧
      ∀ k, (s.phase k).holdsSlot = false → s'.phase k = s.phase k := by
  by_cases hroom : s.slots < p.slotCap
  · exact ⟨s, .refl h, hroom, fun _ _ => rfl⟩
  · have hcap := p.slotCap_pos
    have hle := h.slots.le
    obtain ⟨S, hS, hcard⟩ := h.slots.holders
    obtain ⟨i, hi⟩ := Finset.card_pos.mp (show 0 < S.card by omega)
    have hholds := (hS i).mp hi
    have hother : ∀ k, (s.phase k).holdsSlot = false → k ≠ i := by
      rintro k hk rfl
      simp [hk] at hholds
    cases hph : s.phase i with
    | querying call now =>
        obtain ⟨s₁, r, hd₁, hphase₁, hslots₁⟩ := drains_answer hans h hph
        have hi₁ : s₁.phase i = .answered call now r := by rw [hphase₁, Function.update_self]
        obtain ⟨s₂, hd₂, hphase₂, hslots₂⟩ := drains_release hd₁.good hi₁
        refine ⟨s₂, hd₁.trans hd₂, by omega, ?_⟩
        intro k hk
        rw [hphase₂, Function.update_of_ne (hother k hk), hphase₁,
          Function.update_of_ne (hother k hk)]
    | answered call now r =>
        obtain ⟨s₁, hd₁, hphase₁, hslots₁⟩ := drains_release h hph
        refine ⟨s₁, hd₁, by omega, ?_⟩
        intro k hk
        rw [hphase₁, Function.update_of_ne (hother k hk)]
    | _ => simp [hph, Phase.holdsSlot] at hholds

/-- A leader with its result stores it and returns. -/
theorem drains_of_resolved {i : ι} {call : Nat} {now : Int} {r : Outcome ι} (h : Good p s)
    (hi : s.phase i = .resolved call now r) :
    ∃ s' r, Drains p s s' ∧ s'.phase i = .returned (some r) := by
  have hleads : (s.phase i).leads = some call := by simp [hi, Phase.leads]
  obtain ⟨victim, hv⟩ : ∃ victim, victim ∈ unexpired now s.entries ∨
      (unexpired now s.entries).entries = [] := by
    cases hent : (unexpired now s.entries).entries with
    | nil => exact ⟨[], .inr rfl⟩
    | cons en rest =>
        refine ⟨en.1, .inl (AList.mem_keys.mpr ?_)⟩
        exact List.mem_keys_of_mem (by rw [hent]; exact List.mem_cons_self)
  obtain ⟨hphase, -, -, -, hended⟩ := s.finish_eq p i call now r victim
  refine ⟨_, r, Drains.step h (.finish s i call now r victim hi hv) hphase hended
    (by simp [hleads]) (by simp) (by simp [Phase.leads]), ?_⟩
  rw [hphase, Function.update_self]

/-- So does one that still has its slot. -/
theorem drains_of_answered {i : ι} {call : Nat} {now : Int} {r : Outcome ι} (h : Good p s)
    (hi : s.phase i = .answered call now r) :
    ∃ s' r, Drains p s s' ∧ s'.phase i = .returned (some r) := by
  obtain ⟨s₁, hd₁, hphase₁, -⟩ := drains_release h hi
  have hi₁ : s₁.phase i = .resolved call now r := by rw [hphase₁, Function.update_self]
  obtain ⟨s₂, r₂, hd₂, hret⟩ := drains_of_resolved hd₁.good hi₁
  exact ⟨s₂, r₂, hd₁.trans hd₂, hret⟩

/-- So does one whose query is running. -/
theorem drains_of_querying {i : ι} {call : Nat} {now : Int} (hans : p.Answering) (h : Good p s)
    (hi : s.phase i = .querying call now) :
    ∃ s' r, Drains p s s' ∧ s'.phase i = .returned (some r) := by
  obtain ⟨s₁, r, hd₁, hphase₁, -⟩ := drains_answer hans h hi
  have hi₁ : s₁.phase i = .answered call now r := by rw [hphase₁, Function.update_self]
  obtain ⟨s₂, r₂, hd₂, hret⟩ := drains_of_answered hd₁.good hi₁
  exact ⟨s₂, r₂, hd₁.trans hd₂, hret⟩

/-- A leader that waits for a slot gets one when another leader has drained. -/
theorem drains_of_queued {i : ι} {call : Nat} {now : Int} (hans : p.Answering) (h : Good p s)
    (hi : s.phase i = .queued call now) :
    ∃ s' r, Drains p s s' ∧ s'.phase i = .returned (some r) := by
  obtain ⟨s₁, hd₁, hroom, hsame⟩ := drains_freeSlot hans h
  have hi₁ : s₁.phase i = .queued call now := by rw [hsame i (by simp [hi, Phase.holdsSlot]), hi]
  have hleads : (s₁.phase i).leads = some call := by simp [hi₁, Phase.leads]
  have hd₂ := Drains.step hd₁.good (.acquire s₁ i call now hi₁ hroom) rfl rfl (by simp [hleads])
    (by simp) (by simp [hi₁, Phase.leads])
  obtain ⟨s₃, r, hd₃, hret⟩ := drains_of_querying hans hd₂.good (Function.update_self i _ _)
  exact ⟨s₃, r, (hd₁.trans hd₂).trans hd₃, hret⟩

/-- Every leader can be run to its return. -/
theorem drains_leader {i : ι} (hans : p.Answering) (h : Good p s) (hi : (s.phase i).leads ≠ none) :
    ∃ s' r, Drains p s s' ∧ s'.phase i = .returned (some r) := by
  cases hph : s.phase i with
  | queued call now => exact drains_of_queued hans h hph
  | querying call now => exact drains_of_querying hans h hph
  | answered call now r => exact drains_of_answered h hph
  | resolved call now r => exact drains_of_resolved h hph
  | _ => simp [hph, Phase.leads] at hi

/-- Caller `i` can still get the resolver's answer along a calm run. -/
def Obtainable (p : Params ι) (s : State ι) (i : ι) : Prop :=
  ∃ s' a, Relation.ReflTransGen (CalmStep p) s s' ∧ s'.phase i = .returned (some (.answer a)) ∧
    p.answers (p.key i) a

/-- What can be obtained later can be obtained. -/
theorem Obtainable.of_run {s' : State ι} {i : ι}
    (hrun : Relation.ReflTransGen (CalmStep p) s s') (h : Obtainable p s' i) :
      Obtainable p s i := by
  obtain ⟨s'', a, hrun', hret, ha⟩ := h
  exact ⟨s'', a, hrun.trans hrun', hret, ha⟩

/-- A live `Lookup` that has returned has its answer. -/
theorem obtainable_of_returned {i : ι} {r : Option (Outcome ι)} (h : Good p s)
    (hm : p.method i = .lookup) (hlive : s.ended i = none) (hi : s.phase i = .returned r) :
    Obtainable p s i := by
  obtain ⟨a, rfl, ha⟩ := h.merged.returned i r hi hlive hm
  exact ⟨s, a, .refl, hi, ha⟩

/-- A leader obtains its own result. -/
theorem obtainable_of_leads {i : ι} (hans : p.Answering) (h : Good p s)
    (hm : p.method i = .lookup) (hlive : s.ended i = none) (hi : (s.phase i).leads ≠ none) :
    Obtainable p s i := by
  obtain ⟨s', r, hd, hret⟩ := drains_leader hans h hi
  exact (obtainable_of_returned hd.good hm (by rw [hd.ended, hlive]) hret).of_run hd.run

/-- A waiter obtains the result of its leader. -/
theorem obtainable_of_waiting {i : ι} {call : Nat} (hans : p.Answering) (h : Good p s)
    (hm : p.method i = .lookup) (hlive : s.ended i = none) (hi : s.phase i = .waiting call) :
    Obtainable p s i := by
  -- once the record is closed the waiter wakes up
  have hwake : ∀ {s : State ι}, Good p s → s.ended i = none → s.phase i = .waiting call →
      (∃ a, s.calls[call]? = some (some (.answer a)) ∧ p.answers (p.key i) a) →
      Obtainable p s i := by
    rintro s hg hlive hi ⟨a, ha, -⟩
    have hcalm : Calm (s.goto i (.returned (some (.answer a)))) :=
      hg.calm.move rfl rfl (by simp) (by simp [Phase.leads])
    have hstep : CalmStep p s _ := ⟨.wake s i call (.answer a) hi ha, hcalm⟩
    exact (obtainable_of_returned (good_step hstep hg) hm hlive
      (Function.update_self i _ _)).of_run (.single hstep)
  obtain ⟨leader, hleader, hkey⟩ | hclosed := h.merged.waiting i call hi hlive
  · obtain ⟨s', r, hd, hret⟩ := drains_leader hans h
      (show (s.phase leader).leads ≠ none by simp [hleader])
    have hi' : s'.phase i = .waiting call := by rw [hd.others i (by simp [hi, Phase.leads]), hi]
    have hlive' : s'.ended i = none := by rw [hd.ended, hlive]
    refine (hwake hd.good hlive' hi' ?_).of_run hd.run
    refine (hd.good.merged.waiting i call hi' hlive').resolve_left ?_
    rintro ⟨other, hother, -⟩
    -- the only leader of the record has returned
    obtain rfl := h.merged.leadsInj other leader call (hd.leaders other call hother) hleader
    simp [hret, Phase.leads] at hother
  · exact hwake h hlive hi hclosed

/-- With no call in flight for the key, the locked section serves or leads. -/
theorem obtainable_of_missed_free {i : ι} {now : Int} (hans : p.Answering) (h : Good p s)
    (hm : p.method i = .lookup) (hlive : s.ended i = none) (hi : s.phase i = .missed now)
    (hfree : s.inflight.lookup (p.key i) = none) : Obtainable p s i := by
  cases hr : hit s.entries (p.key i) now with
  | some r =>
      have hstep : CalmStep p s (s.serve i now r) :=
        ⟨.lockedHit s i now r hi hr, h.calm.move rfl rfl (by simp) (by simp [Phase.leads])⟩
      exact (obtainable_of_returned (good_step hstep h) hm hlive
        (Function.update_self i _ _)).of_run (.single hstep)
  | none =>
      have hstep : CalmStep p s _ :=
        ⟨.lead s i now hi hr hfree, h.calm.move rfl rfl (by simp) fun _ _ => .inr hlive⟩
      refine (obtainable_of_leads hans (good_step hstep h) hm hlive ?_).of_run (.single hstep)
      simp [Phase.leads]

/-- Behind a miss, the call joins a leader or becomes one. -/
theorem obtainable_of_missed {i : ι} {now : Int} (hans : p.Answering) (h : Good p s)
    (hm : p.method i = .lookup) (hlive : s.ended i = none) (hi : s.phase i = .missed now) :
    Obtainable p s i := by
  cases hc : s.inflight.lookup (p.key i) with
  | none => exact obtainable_of_missed_free hans h hm hlive hi hc
  | some call =>
      -- let the leader finish first, whatever the state of its context
      obtain ⟨leader, hleader, hkey⟩ := h.merged.inflightLed _ _ hc
      obtain ⟨s', r, hd, hret⟩ :=
        drains_leader hans h (show (s.phase leader).leads ≠ none by simp [hleader])
      have hi' : s'.phase i = .missed now := by rw [hd.others i (by simp [hi, Phase.leads]), hi]
      have hlive' : s'.ended i = none := by rw [hd.ended, hlive]
      refine (obtainable_of_missed_free hans hd.good hm hlive' hi' ?_).of_run hd.run
      cases hc' : s'.inflight.lookup (p.key i) with
      | none => rfl
      | some call' =>
          obtain ⟨other, hother, hkey'⟩ := hd.good.merged.inflightLed _ _ hc'
          obtain rfl := h.leaders.unique other leader (by simp [hd.leaders other call' hother])
            (by simp [hleader]) (hkey'.trans hkey.symm)
          simp [hret, Phase.leads] at hother

/-- So it does from the start. -/
theorem obtainable_of_timed {i : ι} {now : Int} (hans : p.Answering) (h : Good p s)
    (hm : p.method i = .lookup) (hlive : s.ended i = none) (hi : s.phase i = .timed now) :
    Obtainable p s i := by
  cases hr : hit s.entries (p.key i) now with
  | some r =>
      have hstep : CalmStep p s (s.serve i now r) :=
        ⟨.fastHit s i now r hi hm hr, h.calm.move rfl rfl (by simp) (by simp [Phase.leads])⟩
      exact (obtainable_of_returned (good_step hstep h) hm hlive
        (Function.update_self i _ _)).of_run (.single hstep)
  | none =>
      have hstep : CalmStep p s (s.goto i (.missed now)) :=
        ⟨.fastMiss s i now hi hm hr, h.calm.move rfl rfl (by simp) (by simp [Phase.leads])⟩
      exact (obtainable_of_missed hans (good_step hstep h) hm hlive
        (Function.update_self i _ _)).of_run (.single hstep)

/-- **Progress**: from every state of a calm run a live `Lookup` can get its answer. -/
theorem obtainable {i : ι} (hans : p.Answering) (h : Good p s) (hm : p.method i = .lookup)
    (hlive : s.ended i = none) : Obtainable p s i := by
  cases hph : s.phase i with
  | idle =>
      have hstep : CalmStep p s (s.goto i (.timed s.clock)) :=
        ⟨.begin s i hph, h.calm.move rfl rfl (by simp) (by simp [Phase.leads])⟩
      exact (obtainable_of_timed hans (good_step hstep h) hm hlive
        (Function.update_self i _ _)).of_run (.single hstep)
  | timed now => exact obtainable_of_timed hans h hm hlive hph
  | missed now => exact obtainable_of_missed hans h hm hlive hph
  | waiting call => exact obtainable_of_waiting hans h hm hlive hph
  | returned r => exact obtainable_of_returned h hm hlive hph
  | queued call now => exact obtainable_of_leads hans h hm hlive (by simp [hph, Phase.leads])
  | querying call now => exact obtainable_of_leads hans h hm hlive (by simp [hph, Phase.leads])
  | answered call now r => exact obtainable_of_leads hans h hm hlive (by simp [hph, Phase.leads])
  | resolved call now r => exact obtainable_of_leads hans h hm hlive (by simp [hph, Phase.leads])

end Progress

/-- Along every run in which no live caller waits for a leader whose context has
ended, a `Lookup` whose own context is live returns nothing but the resolver's
answer for its name, and can always still get it. -/
theorem lookup_not_failed_by_others (p : Params ι) (hans : p.Answering) (clock : Int) (s : State ι)
    (hrun : Relation.ReflTransGen (CalmStep p) (State.init clock) s) (i : ι)
    (hm : p.method i = .lookup) (hlive : s.ended i = none) :
    (∀ r, s.phase i = .returned r → ∃ a, r = some (.answer a) ∧ p.answers (p.key i) a) ∧
      Obtainable p s i := by
  have hgood := good_run (good_init clock) hrun
  exact ⟨fun r hr => hgood.merged.returned i r hr hlive hm, obtainable hans hgood hm hlive⟩

/-- Two callers of one name, neither cancelled: the second joins the first. -/
theorem lookup_not_failed_by_others_oneName :
    ∃ s : State Bool, s.phase true = .waiting 0 ∧ Obtainable oneName s true := by
  have hcalm : ∀ s : State Bool, s.ended = (fun _ => none) → Calm s := by
    intro s hs i j call _ _ _
    rw [hs]
  have hrun := (Relation.ReflTransGen.refl (r := CalmStep oneName) (a := State.init 0)).tail
    ⟨Step.begin _ false rfl, hcalm _ rfl⟩
  have hrun := hrun.tail ⟨Step.fastMiss _ false 0 rfl rfl rfl, hcalm _ rfl⟩
  have hrun := hrun.tail ⟨Step.lead _ false 0 rfl rfl rfl, hcalm _ rfl⟩
  have hrun := hrun.tail ⟨Step.begin _ true rfl, hcalm _ rfl⟩
  have hrun := hrun.tail ⟨Step.fastMiss _ true 0 rfl rfl rfl, hcalm _ rfl⟩
  have hrun := hrun.tail ⟨Step.join _ true 0 0 rfl rfl rfl, hcalm _ rfl⟩
  have hans : oneName.Answering := fun _ => ⟨_, rfl⟩
  exact ⟨_, rfl, (lookup_not_failed_by_others oneName hans 0 _ hrun true rfl rfl).2⟩

/-- The second caller joins the first one's lookup, the first one's context is
cancelled while the resolver runs, and the second caller, whose own context is
live, returns the first one's cancellation for a name the resolver answers. -/
theorem lookup_failed_by_leader : ∃ s : State Bool, Reachable oneName s ∧
    s.ended true = none ∧ s.phase true = .returned (some (.context false .canceled)) ∧
    oneName.answers (oneName.key true) (.addrs [.v4 0x7f000001#32]) := by
  have hrun := (Relation.ReflTransGen.refl (r := Step oneName) (a := State.init 0)).tail
    (Step.begin _ false rfl)
  have hrun := hrun.tail (Step.fastMiss _ false 0 rfl rfl rfl)
  have hrun := hrun.tail (Step.lead _ false 0 rfl rfl rfl)
  have hrun := hrun.tail (Step.acquire _ false 0 0 rfl (by decide))
  have hrun := hrun.tail (Step.begin _ true rfl)
  have hrun := hrun.tail (Step.fastMiss _ true 0 rfl rfl rfl)
  have hrun := hrun.tail (Step.join _ true 0 0 rfl rfl rfl)
  have hrun := hrun.tail (Step.cancel _ false .canceled rfl)
  have hrun := hrun.tail (Step.abort _ false 0 0 .canceled rfl rfl)
  have hrun := hrun.tail (Step.release _ false 0 0 _ rfl (by decide))
  have hrun := hrun.tail (Step.finish _ false 0 0 _ [] rfl (.inr rfl))
  have hrun := hrun.tail (Step.wake _ true 0 (.context false .canceled) rfl rfl)
  exact ⟨_, ⟨0, hrun⟩, rfl, rfl, rfl⟩

end Outway.Dns
