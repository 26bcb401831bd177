import Outway.Connect.DnsCache

/-!
# Outway.Connect.DnsInvariants

What holds in every reachable state of the DNS cache.

* `Leaders`: the in-flight table names the one caller that leads a key.
* `SlotCount`: the tokens in the slot channel are the callers that hold one.
* `Size`: the entry map stays within `maxEntries`.
* `Provenance`: what is cached, and what was served from the cache, came out of
  a completed resolver call for the same key.

Each part is preserved by every step for its own reason, so each has its own step
lemma; `inv_reachable` puts them together over whole runs.
-/

namespace Outway.Dns

variable {ι : Type}

/-! ## Reading a phase -/

namespace Phase

/-- The call record a caller leads. -/
def leads : Phase ι → Option Nat
  | .queued call _ | .querying call _ | .answered call _ _ | .resolved call _ _ => some call
  | _ => none

/-- The caller holds a lookup slot. -/
def holdsSlot : Phase ι → Bool
  | .querying _ _ | .answered _ _ _ => true
  | _ => false

/-- The resolver is running for the caller. -/
def isQuerying : Phase ι → Bool
  | .querying _ _ => true
  | _ => false

/-- The outcome a leader is about to publish. -/
def outcome : Phase ι → Option (Outcome ι)
  | .answered _ _ r | .resolved _ _ r => some r
  | _ => none

/-- A query runs in a slot. -/
theorem holdsSlot_of_isQuerying {ph : Phase ι} (h : ph.isQuerying = true) :
    ph.holdsSlot = true := by
  cases ph <;> simp_all [isQuerying, holdsSlot]

theorem leads_of_isQuerying {ph : Phase ι} (h : ph.isQuerying = true) : ph.leads ≠ none := by
  cases ph <;> simp_all [isQuerying, leads]

end Phase

/-! ## The entry map -/

/-- Dropping the expired entries adds none. -/
theorem lookup_unexpired {entries : AList fun _ : HostName => Entry ι} {now : Int} {k : HostName}
    {en : Entry ι} (h : (unexpired now entries).lookup k = some en) :
    entries.lookup k = some en := by
  have hmem := AList.mem_lookup_iff.mp (show en ∈ (unexpired now entries).lookup k from h)
  exact AList.mem_lookup_iff.mpr (List.mem_of_mem_filter hmem)

/-- Neither does dropping one entry. -/
theorem lookup_erase_some {entries : AList fun _ : HostName => Entry ι} {k k' : HostName}
    {en : Entry ι} (h : (entries.erase k').lookup k = some en) : entries.lookup k = some en := by
  by_cases hk : k = k'
  · subst hk
    rw [AList.lookup_erase] at h
    cases h
  · rwa [AList.lookup_erase_ne hk] at h

/-- Eviction invents no entry. -/
theorem lookup_evictLocked {entries : AList fun _ : HostName => Entry ι} {maxEntries now : Int}
    {victim k : HostName} {en : Entry ι}
    (h : (evictLocked maxEntries now victim entries).lookup k = some en) :
    entries.lookup k = some en := by
  unfold evictLocked at h
  split_ifs at h
  · exact h
  · exact lookup_unexpired h
  · exact lookup_unexpired (lookup_erase_some h)

theorem length_erase_le (entries : AList fun _ : HostName => Entry ι) (k : HostName) :
    (entries.erase k).entries.length ≤ entries.entries.length :=
  (List.kerase_sublist k entries.entries).length_le

theorem length_unexpired_le (now : Int) (entries : AList fun _ : HostName => Entry ι) :
    (unexpired now entries).entries.length ≤ entries.entries.length :=
  List.length_filter_le _ _

/-- Evicting an entry makes room. -/
theorem length_erase_lt {entries : AList fun _ : HostName => Entry ι} {k : HostName}
    (h : k ∈ entries) : (entries.erase k).entries.length < entries.entries.length := by
  obtain ⟨en, hmem⟩ := List.exists_of_mem_keys (AList.mem_keys.mp h)
  have hpos : 0 < entries.entries.length := List.length_pos_of_mem hmem
  have hlen : (entries.erase k).entries.length = entries.entries.length - 1 :=
    List.length_eraseP_of_mem hmem (by simp)
  omega

/-- After eviction there is room for one more entry. -/
theorem length_evictLocked_lt {entries : AList fun _ : HostName => Entry ι} {maxEntries now : Int}
    {victim : HostName} (hmax : 0 < maxEntries) (hle : entries.entries.length ≤ maxEntries)
    (hv : victim ∈ unexpired now entries ∨ (unexpired now entries).entries = []) :
    (evictLocked maxEntries now victim entries).entries.length < maxEntries := by
  unfold evictLocked
  split_ifs with hfull hstill
  · exact hfull
  · exact hstill
  · have hun := length_unexpired_le now entries
    obtain hv | hv := hv
    · have := length_erase_lt hv
      omega
    · simp only [hv, List.length_nil] at hstill
      omega

/-- Storing an entry takes room for one. -/
theorem length_insert_le (entries : AList fun _ : HostName => Entry ι) (k : HostName)
    (en : Entry ι) : (entries.insert k en).entries.length ≤ entries.entries.length + 1 := by
  rw [AList.entries_insert, List.length_cons]
  exact Nat.succ_le_succ (length_erase_le entries k)

variable [DecidableEq ι]

/-! ## Reading a state after a move -/

namespace State

@[simp] theorem phase_goto (s : State ι) (i : ι) (ph : Phase ι) :
    (s.goto i ph).phase = Function.update s.phase i ph := rfl

@[simp] theorem ended_goto (s : State ι) (i : ι) (ph : Phase ι) :
    (s.goto i ph).ended = s.ended := rfl

@[simp] theorem entries_goto (s : State ι) (i : ι) (ph : Phase ι) :
    (s.goto i ph).entries = s.entries := rfl

@[simp] theorem inflight_goto (s : State ι) (i : ι) (ph : Phase ι) :
    (s.goto i ph).inflight = s.inflight := rfl

@[simp] theorem calls_goto (s : State ι) (i : ι) (ph : Phase ι) :
    (s.goto i ph).calls = s.calls := rfl

/-- The closing section returns the caller and takes its key out of flight; the
rest of its effect is `store`. -/
theorem finish_eq (s : State ι) (p : Params ι) (i : ι) (call : Nat) (now : Int) (r : Outcome ι)
    (victim : HostName) :
    (s.finish p i call now r victim).phase = Function.update s.phase i (.returned (some r)) ∧
      (s.finish p i call now r victim).inflight = s.inflight.erase (p.key i) ∧
      (s.finish p i call now r victim).calls = s.calls.set call (some r) ∧
      (s.finish p i call now r victim).slots = s.slots ∧
      (s.finish p i call now r victim).ended = s.ended := by
  simp only [finish, store]
  split_ifs <;> exact ⟨rfl, rfl, rfl, rfl, rfl⟩

end State

section Moved

variable {α β : Type} {f : ι → α} {i j : ι} {x : α}

/-- What is read of a caller after one caller has moved: it is the one that moved, or it has
not changed. -/
theorem of_apply_update_eq (g : α → β) {y : β} (h : g (Function.update f i x j) = y) :
    j = i ∧ g x = y ∨ j ≠ i ∧ g (f j) = y := by
  by_cases hji : j = i
  · subst hji
    rw [Function.update_self] at h
    exact .inl ⟨rfl, h⟩
  · rw [Function.update_of_ne hji] at h
    exact .inr ⟨hji, h⟩

/-- What a thread sees at its place is its own or unchanged. -/
theorem of_update_eq {y : α} (h : Function.update f i x j = y) :
    j = i ∧ x = y ∨ j ≠ i ∧ f j = y :=
  of_apply_update_eq id h

/-- A value that the move did not bring was there before. -/
theorem eq_of_update_eq {y : α} (h : Function.update f i x j = y) (hne : x ≠ y) : f j = y := by
  obtain ⟨-, hx⟩ | ⟨-, hj⟩ := of_update_eq h
  · exact absurd hx hne
  · exact hj

/-- A move that does not change what is read. -/
theorem apply_update_of_eq (g : α → β) (h : g x = g (f i)) (j : ι) :
    g (Function.update f i x j) = g (f j) := by
  obtain ⟨rfl, hx⟩ | ⟨-, hj⟩ := of_apply_update_eq g (rfl : g (Function.update f i x j) = _)
  · rw [← hx, h]
  · exact hj.symm

end Moved

/-! ## One leader for a key -/

/-- The in-flight table maps the key of each leader to the record it leads, and
no two callers lead one key. -/
structure Leaders (p : Params ι) (s : State ι) : Prop where
  inflight : ∀ i call, (s.phase i).leads = some call → s.inflight.lookup (p.key i) = some call
  unique : ∀ i j, (s.phase i).leads ≠ none → (s.phase j).leads ≠ none → p.key i = p.key j → i = j

namespace Leaders

variable {p : Params ι} {s s' : State ι}

omit [DecidableEq ι] in
/-- A step that creates no leader and leaves the table alone keeps `Leaders`. -/
theorem of_phase_le (h : Leaders p s) (hin : s'.inflight = s.inflight)
    (hph : ∀ j call, (s'.phase j).leads = some call → (s.phase j).leads = some call) :
    Leaders p s' where
  inflight j call hj := hin ▸ h.inflight j call (hph j call hj)
  unique j k hj hk hkey := by
    obtain ⟨cj, hcj⟩ := Option.ne_none_iff_exists'.mp hj
    obtain ⟨ck, hck⟩ := Option.ne_none_iff_exists'.mp hk
    exact h.unique j k (by simp [hph j cj hcj]) (by simp [hph k ck hck]) hkey

/-- Moving one caller to a phase that leads no other record than before. -/
theorem move {i : ι} {ph : Phase ι} (h : Leaders p s)
    (hphase : s'.phase = Function.update s.phase i ph) (hin : s'.inflight = s.inflight)
    (hle : ∀ call, ph.leads = some call → (s.phase i).leads = some call) : Leaders p s' := by
  refine h.of_phase_le hin ?_
  intro j call hj
  rw [hphase] at hj
  obtain ⟨rfl, hph⟩ | ⟨-, hj⟩ := of_apply_update_eq Phase.leads hj
  · exact hle call hph
  · exact hj

/-- A caller opens a record for a key that is not in flight. -/
theorem lead {i : ι} {call : Nat} {now : Int} (h : Leaders p s)
    (hphase : s'.phase = Function.update s.phase i (.queued call now))
    (hin : s'.inflight = s.inflight.insert (p.key i) call)
    (hfree : s.inflight.lookup (p.key i) = none) : Leaders p s' := by
  -- the table has no record for the key, so no caller leads it yet
  have hnew : ∀ j, (s.phase j).leads ≠ none → p.key j ≠ p.key i := by
    intro j hj hkey
    obtain ⟨call', hcall⟩ := Option.ne_none_iff_exists'.mp hj
    have hled := h.inflight j call' hcall
    rw [hkey, hfree] at hled
    cases hled
  have hinv : ∀ j c, (s'.phase j).leads = some c →
      j = i ∧ call = c ∨ j ≠ i ∧ (s.phase j).leads = some c := by
    intro j c hj
    rw [hphase] at hj
    obtain ⟨hji, hc⟩ | hold := of_apply_update_eq Phase.leads hj
    · exact .inl ⟨hji, Option.some.inj hc⟩
    · exact .inr hold
  constructor
  · intro j c hj
    rw [hin]
    obtain ⟨rfl, rfl⟩ | ⟨-, hj⟩ := hinv j c hj
    · exact AList.lookup_insert _
    · exact (AList.lookup_insert_ne (hnew j (by simp [hj]))).trans (h.inflight j c hj)
  · intro j k hj hk hkey
    obtain ⟨cj, hcj⟩ := Option.ne_none_iff_exists'.mp hj
    obtain ⟨ck, hck⟩ := Option.ne_none_iff_exists'.mp hk
    obtain ⟨rfl, -⟩ | ⟨-, hj⟩ := hinv j cj hcj <;> obtain ⟨rfl, -⟩ | ⟨-, hk⟩ := hinv k ck hck
    · rfl
    · exact absurd hkey.symm (hnew k (by simp [hk]))
    · exact absurd hkey (hnew j (by simp [hj]))
    · exact h.unique j k (by simp [hj]) (by simp [hk]) hkey

/-- A leader returns and takes its key out of flight. -/
theorem finish {i : ι} {r : Option (Outcome ι)} (h : Leaders p s)
    (hphase : s'.phase = Function.update s.phase i (.returned r))
    (hin : s'.inflight = s.inflight.erase (p.key i)) (hleads : (s.phase i).leads ≠ none) :
    Leaders p s' := by
  have hold : ∀ j c, (s'.phase j).leads = some c → j ≠ i ∧ (s.phase j).leads = some c := by
    intro j c hj
    rw [hphase] at hj
    obtain ⟨-, hc⟩ | hold := of_apply_update_eq Phase.leads hj
    · cases hc
    · exact hold
  constructor
  · intro j c hj
    obtain ⟨hji, hj⟩ := hold j c hj
    have hne : p.key j ≠ p.key i := fun hkey =>
      hji (h.unique j i (by simp [hj]) hleads hkey)
    rw [hin, AList.lookup_erase_ne hne]
    exact h.inflight j c hj
  · intro j k hj hk hkey
    obtain ⟨cj, hcj⟩ := Option.ne_none_iff_exists'.mp hj
    obtain ⟨ck, hck⟩ := Option.ne_none_iff_exists'.mp hk
    exact h.unique j k (by simp [(hold j cj hcj).2]) (by simp [(hold k ck hck).2]) hkey

end Leaders

/-- No step gives a name in flight a second leader. -/
theorem leaders_step {p : Params ι} {s s' : State ι} (hstep : Step p s s') (h : Leaders p s) :
    Leaders p s' := by
  cases hstep with
  | tick d => exact h.of_phase_le rfl fun _ _ hj => hj
  | cancel i e he => exact h.of_phase_le rfl fun _ _ hj => hj
  | begin i hi => exact h.move rfl rfl (by simp [Phase.leads])
  | cachedHit i now r hi hm hr => exact h.move rfl rfl (by simp [Phase.leads])
  | cachedMiss i now hi hm hr => exact h.move rfl rfl (by simp [Phase.leads])
  | fastHit i now r hi hm hr => exact h.move rfl rfl (by simp [Phase.leads])
  | fastMiss i now hi hm hr => exact h.move rfl rfl (by simp [Phase.leads])
  | lockedHit i now r hi hr => exact h.move rfl rfl (by simp [Phase.leads])
  | join i now call hi hr hc => exact h.move rfl rfl (by simp [Phase.leads])
  | lead i now hi hr hc => exact h.lead rfl rfl hc
  | wake i call r hi hr => exact h.move rfl rfl (by simp [Phase.leads])
  | giveUp i call e hi he => exact h.move rfl rfl (by simp [Phase.leads])
  | acquire i call now hi hs => exact h.move rfl rfl (by simp [Phase.leads, hi])
  | abandon i call now e hi he => exact h.move rfl rfl (by simp [Phase.leads, hi])
  | answer i call now a hi ha => exact h.move rfl rfl (by simp [Phase.leads, hi])
  | abort i call now e hi he => exact h.move rfl rfl (by simp [Phase.leads, hi])
  | release i call now r hi hs => exact h.move rfl rfl (by simp [Phase.leads, hi])
  | finish i call now r victim hi hv =>
      obtain ⟨hphase, hinflight, -⟩ := s.finish_eq p i call now r victim
      exact h.finish hphase hinflight (by simp [hi, Phase.leads])

/-! ## The lookup slots -/

/-- The tokens in the channel are those of the callers that hold a slot, and they
fit the channel. -/
structure SlotCount (p : Params ι) (s : State ι) : Prop where
  holders : ∃ S : Finset ι, (∀ i, i ∈ S ↔ (s.phase i).holdsSlot = true) ∧ S.card = s.slots
  le : s.slots ≤ p.slotCap

namespace SlotCount

variable {p : Params ι} {s s' : State ι}

/-- Moving one caller that keeps its slot, or keeps having none. -/
theorem move {i : ι} {ph : Phase ι} (h : SlotCount p s)
    (hphase : s'.phase = Function.update s.phase i ph) (hslots : s'.slots = s.slots)
    (hkeep : ph.holdsSlot = (s.phase i).holdsSlot) : SlotCount p s' := by
  obtain ⟨⟨S, hS, hcard⟩, hle⟩ := h
  refine ⟨⟨S, ?_, hcard.trans hslots.symm⟩, hslots ▸ hle⟩
  intro j
  rw [hS, hphase, apply_update_of_eq Phase.holdsSlot hkeep]

/-- Taking a token. -/
theorem acquire {i : ι} {ph : Phase ι} (h : SlotCount p s)
    (hphase : s'.phase = Function.update s.phase i ph) (hslots : s'.slots = s.slots + 1)
    (hroom : s.slots < p.slotCap) (hbefore : (s.phase i).holdsSlot = false)
    (hafter : ph.holdsSlot = true) : SlotCount p s' := by
  obtain ⟨⟨S, hS, hcard⟩, hle⟩ := h
  have hi : i ∉ S := by simp [hS, hbefore]
  refine ⟨⟨insert i S, ?_, ?_⟩, by omega⟩
  · intro j
    by_cases hji : j = i
    · subst hji
      simp [hphase, hafter]
    · simp [hphase, hji, hS]
  · rw [Finset.card_insert_of_notMem hi, hcard, hslots]

/-- Giving a token back. -/
theorem release {i : ι} {ph : Phase ι} (h : SlotCount p s)
    (hphase : s'.phase = Function.update s.phase i ph) (hslots : s'.slots = s.slots - 1)
    (hbefore : (s.phase i).holdsSlot = true) (hafter : ph.holdsSlot = false) :
    SlotCount p s' := by
  obtain ⟨⟨S, hS, hcard⟩, hle⟩ := h
  have hi : i ∈ S := (hS i).mpr hbefore
  refine ⟨⟨S.erase i, ?_, ?_⟩, by omega⟩
  · intro j
    by_cases hji : j = i
    · subst hji
      simp [hphase, hafter]
    · simp [hphase, hji, hS]
  · rw [Finset.card_erase_of_mem hi, hcard, hslots]

omit [DecidableEq ι] in
/-- Any set of callers the resolver is running for fits the limit. -/
theorem card_querying_le (h : SlotCount p s) {Q : Finset ι}
    (hQ : ∀ i ∈ Q, (s.phase i).isQuerying = true) : Q.card ≤ p.slotCap := by
  obtain ⟨⟨S, hS, hcard⟩, hle⟩ := h
  have hsub : Q ⊆ S := fun i hi => (hS i).mpr (Phase.holdsSlot_of_isQuerying (hQ i hi))
  calc Q.card ≤ S.card := Finset.card_le_card hsub
    _ = s.slots := hcard
    _ ≤ p.slotCap := hle

end SlotCount

/-- A step keeps the count of the slots. -/
theorem slotCount_step {p : Params ι} {s s' : State ι} (hstep : Step p s s') (h : SlotCount p s) :
    SlotCount p s' := by
  cases hstep with
  | tick d => exact ⟨h.holders, h.le⟩
  | cancel i e he => exact ⟨h.holders, h.le⟩
  | begin i hi => exact h.move rfl rfl (by simp [Phase.holdsSlot, hi])
  | cachedHit i now r hi hm hr => exact h.move rfl rfl (by simp [Phase.holdsSlot, hi])
  | cachedMiss i now hi hm hr => exact h.move rfl rfl (by simp [Phase.holdsSlot, hi])
  | fastHit i now r hi hm hr => exact h.move rfl rfl (by simp [Phase.holdsSlot, hi])
  | fastMiss i now hi hm hr => exact h.move rfl rfl (by simp [Phase.holdsSlot, hi])
  | lockedHit i now r hi hr => exact h.move rfl rfl (by simp [Phase.holdsSlot, hi])
  | join i now call hi hr hc => exact h.move rfl rfl (by simp [Phase.holdsSlot, hi])
  | lead i now hi hr hc => exact h.move rfl rfl (by simp [Phase.holdsSlot, hi])
  | wake i call r hi hr => exact h.move rfl rfl (by simp [Phase.holdsSlot, hi])
  | giveUp i call e hi he => exact h.move rfl rfl (by simp [Phase.holdsSlot, hi])
  | acquire i call now hi hs => exact h.acquire rfl rfl hs (by simp [Phase.holdsSlot, hi]) rfl
  | abandon i call now e hi he => exact h.move rfl rfl (by simp [Phase.holdsSlot, hi])
  | answer i call now a hi ha => exact h.move rfl rfl (by simp [Phase.holdsSlot, hi])
  | abort i call now e hi he => exact h.move rfl rfl (by simp [Phase.holdsSlot, hi])
  | release i call now r hi hs => exact h.release rfl rfl (by simp [Phase.holdsSlot, hi]) rfl
  | finish i call now r victim hi hv =>
      obtain ⟨hphase, -, -, hslots, -⟩ := s.finish_eq p i call now r victim
      exact h.move hphase hslots (by simp [Phase.holdsSlot, hi])

/-! ## The size of the entry map -/

omit [DecidableEq ι] in
/-- `store` evicts before it goes beyond the limit. -/
theorem size_store {p : Params ι} {s : State ι} {key : HostName} {now : Int} {r : Outcome ι}
    {victim : HostName} (hv : victim ∈ unexpired now s.entries ∨
      (unexpired now s.entries).entries = [])
    (h : s.entries.entries.length ≤ p.maxEntries) :
    (s.store p key now r victim).entries.entries.length ≤ p.maxEntries := by
  unfold State.store
  split_ifs with hcond
  · have hroom := length_evictLocked_lt hcond.2 h hv
    have hins := length_insert_le (evictLocked p.maxEntries now victim s.entries) key
      ⟨r, s.clock + p.lifetime r⟩
    simp only
    omega
  · exact h

/-- No step makes the cache too large. -/
theorem size_step {p : Params ι} {s s' : State ι} (hstep : Step p s s')
    (h : s.entries.entries.length ≤ p.maxEntries) : s'.entries.entries.length ≤ p.maxEntries := by
  cases hstep with
  | join i now call hi hr hc =>
      have := length_erase_le s.entries (p.key i)
      simp only [State.entries_goto]
      omega
  | lead i now hi hr hc =>
      have := length_erase_le s.entries (p.key i)
      simp only [State.entries_goto]
      omega
  | finish i call now r victim hi hv =>
      simp only [State.finish]
      split_ifs
      · exact size_store hv h
      · exact h
  | _ => exact h

/-! ## Where cached answers come from -/

/-- Recording `rec` makes `r` available for `key` until `expiresAt`. -/
def Recording.Backs (p : Params ι) (rec : Recording) (key : HostName) (r : Outcome ι)
    (expiresAt : Int) : Prop :=
  rec.key = key ∧ r = .answer rec.answer ∧
    expiresAt = rec.time + p.lifetime (.answer rec.answer : Outcome ι)

structure Provenance (p : Params ι) (s : State ι) : Prop where
  /-- a context error is only ever published by a leader whose context has ended -/
  contextEnded : ∀ i j e, (s.phase i).outcome = some (.context j e) → s.ended i ≠ none
  answerCompleted : ∀ i a, (s.phase i).outcome = some (.answer a) → ⟨p.key i, a⟩ ∈ s.completed
  completedAdmitted : ∀ c ∈ s.completed, p.answers c.key c.answer
  recordedCompleted : ∀ rec ∈ s.recorded, ⟨rec.key, rec.answer⟩ ∈ s.completed
  entryRecorded : ∀ k en, s.entries.lookup k = some en →
    ∃ rec ∈ s.recorded, rec.Backs p k en.outcome en.expiresAt
  servedRecorded : ∀ sv ∈ s.served,
    ∃ rec ∈ s.recorded, ∃ t, rec.Backs p (p.key sv.caller) sv.outcome t ∧ sv.now < t

omit [DecidableEq ι] in
/-- A hit is an entry that has not expired. -/
theorem hit_eq_some {entries : AList fun _ : HostName => Entry ι} {key : HostName} {now : Int}
    {r : Outcome ι} (h : hit entries key now = some r) :
    ∃ en, entries.lookup key = some en ∧ now < en.expiresAt ∧ en.outcome = r := by
  unfold hit at h
  split at h
  · next en hen =>
      split_ifs at h with hnow
      exact ⟨en, hen, hnow, Option.some.inj h⟩
  · cases h

omit [DecidableEq ι] in
/-- The fast path finds what the lookup under the lock would find. -/
theorem hit_of_cachedHit {entries : AList fun _ : HostName => Entry ι} {key : HostName} {now : Int}
    {r : Outcome ι} (h : cachedHit entries key now = some r) : hit entries key now = some r := by
  unfold cachedHit at h
  split at h
  · next heq => rw [heq, h]
  · cases h

namespace Provenance

variable {p : Params ι} {s s' : State ι}

/-- Moving one caller to a phase that publishes nothing new, while entries are at
most removed. -/
theorem move {i : ι} {ph : Phase ι} (h : Provenance p s)
    (hphase : s'.phase = Function.update s.phase i ph) (hended : s'.ended = s.ended)
    (hlogs : s'.completed = s.completed ∧ s'.recorded = s.recorded ∧ s'.served = s.served)
    (hentries : ∀ k en, s'.entries.lookup k = some en → s.entries.lookup k = some en)
    (hout : ∀ r, ph.outcome = some r → (s.phase i).outcome = some r) : Provenance p s' := by
  obtain ⟨hcompleted, hrecorded, hserved⟩ := hlogs
  have hsame : ∀ j r, (s'.phase j).outcome = some r → (s.phase j).outcome = some r := by
    intro j r hj
    rw [hphase] at hj
    obtain ⟨rfl, hph⟩ | ⟨-, hj⟩ := of_apply_update_eq Phase.outcome hj
    · exact hout r hph
    · exact hj
  refine ⟨?_, ?_, ?_, ?_, ?_, ?_⟩
  · intro j k e hj
    exact hended ▸ h.contextEnded j k e (hsame j _ hj)
  · intro j a hj
    exact hcompleted ▸ h.answerCompleted j a (hsame j _ hj)
  · exact hcompleted ▸ h.completedAdmitted
  · exact hcompleted ▸ hrecorded ▸ h.recordedCompleted
  · intro k en hk
    exact hrecorded ▸ h.entryRecorded k en (hentries k en hk)
  · exact hserved ▸ hrecorded ▸ h.servedRecorded

/-- Serving an unexpired entry. -/
theorem serve (h : Provenance p s) {i : ι} {now : Int} {r : Outcome ι}
    (hr : hit s.entries (p.key i) now = some r) : Provenance p (s.serve i now r) := by
  obtain ⟨en, hen, hnow, rfl⟩ := hit_eq_some hr
  obtain ⟨rec, hrec, hback⟩ := h.entryRecorded _ en hen
  have hmoved : Provenance p (s.goto i (.returned (some en.outcome))) :=
    h.move rfl rfl ⟨rfl, rfl, rfl⟩ (fun _ _ hk => hk) (by simp [Phase.outcome])
  refine { hmoved with servedRecorded := ?_ }
  intro sv hsv
  obtain rfl | hsv := List.mem_cons.mp hsv
  · exact ⟨rec, hrec, _, hback, hnow⟩
  · exact hmoved.servedRecorded sv hsv

/-- A leader takes up the error of its own ended context. -/
theorem giveUp {i j : ι} {e e' : CtxErr} {ph : Phase ι} (h : Provenance p s)
    (he : s.ended i = some e) (hout : ph.outcome = some (.context j e')) :
    Provenance p (s.goto i ph) := by
  refine { h with contextEnded := ?_, answerCompleted := ?_ }
  · intro k j' e'' hk
    obtain ⟨rfl, -⟩ | ⟨-, hk⟩ := of_apply_update_eq Phase.outcome hk
    · simp [he]
    · exact h.contextEnded k j' e'' hk
  · intro k a hk
    obtain ⟨-, hk⟩ | ⟨-, hk⟩ := of_apply_update_eq Phase.outcome hk
    · cases hout.symm.trans hk
    · exact h.answerCompleted k a hk

/-- The resolver answers a leader. -/
theorem answer {i : ι} {a : Answer} {call : Nat} {now : Int} (h : Provenance p s)
    (ha : p.answers (p.key i) a) :
    Provenance p ({ s with completed := ⟨p.key i, a⟩ :: s.completed }.goto i
      (.answered call now (.answer a))) := by
  refine { h with
    contextEnded := ?_, answerCompleted := ?_, completedAdmitted := ?_, recordedCompleted := ?_ }
  · intro k j e hk
    obtain ⟨-, hk⟩ | ⟨-, hk⟩ := of_apply_update_eq Phase.outcome hk
    · cases hk
    · exact h.contextEnded k j e hk
  · intro k b hk
    obtain ⟨rfl, hb⟩ | ⟨-, hk⟩ := of_apply_update_eq Phase.outcome hk
    · obtain rfl : a = b := by simpa [Phase.outcome] using hb
      exact List.mem_cons_self
    · exact List.mem_cons_of_mem _ (h.answerCompleted k b hk)
  · intro c hc
    obtain rfl | hc := List.mem_cons.mp hc
    · exact ha
    · exact h.completedAdmitted c hc
  · intro rec hrec
    exact List.mem_cons_of_mem _ (h.recordedCompleted rec hrec)

omit [DecidableEq ι] in
/-- Storing an answer for its own key. -/
theorem store {key : HostName} {a : Answer} (h : Provenance p s) (ha : ⟨key, a⟩ ∈ s.completed)
    (now : Int) (victim : HostName) : Provenance p (s.store p key now (.answer a) victim) := by
  unfold State.store
  split_ifs with hcond
  · refine { h with recordedCompleted := ?_, entryRecorded := ?_, servedRecorded := ?_ }
    · intro rec hrec
      obtain rfl | hrec := List.mem_cons.mp hrec
      · exact ha
      · exact h.recordedCompleted rec hrec
    · intro k en hk
      by_cases hkey : k = key
      · subst hkey
        rw [AList.lookup_insert] at hk
        cases hk
        exact ⟨_, List.mem_cons_self, rfl, rfl, rfl⟩
      · rw [AList.lookup_insert_ne hkey] at hk
        obtain ⟨rec, hrec, hback⟩ := h.entryRecorded k en (lookup_evictLocked hk)
        exact ⟨rec, List.mem_cons_of_mem _ hrec, hback⟩
    · intro sv hsv
      obtain ⟨rec, hrec, hback⟩ := h.servedRecorded sv hsv
      exact ⟨rec, List.mem_cons_of_mem _ hrec, hback⟩
  · exact h

/-- The closing section: what a leader with a live context stores is an answer. -/
theorem finish {i : ι} {call : Nat} {now : Int} {r : Outcome ι} {victim : HostName}
    (h : Provenance p s) (hi : s.phase i = .resolved call now r) :
    Provenance p (s.finish p i call now r victim) := by
  have hout : (s.phase i).outcome = some r := by simp [hi, Phase.outcome]
  have hclosed : Provenance p { s with
      calls := s.calls.set call (some r), inflight := s.inflight.erase (p.key i) } := { h with }
  simp only [State.finish]
  split_ifs with hlive
  · cases r with
    | context j e => exact absurd hlive (h.contextEnded i j e hout)
    | answer a =>
        have hstored := hclosed.store (h.answerCompleted i a hout) now victim
        exact hstored.move rfl rfl ⟨rfl, rfl, rfl⟩ (fun _ _ hk => hk) (by simp [Phase.outcome])
  · exact hclosed.move rfl rfl ⟨rfl, rfl, rfl⟩ (fun _ _ hk => hk) (by simp [Phase.outcome])

end Provenance

/-- A step stores only what a query has answered. -/
theorem provenance_step {p : Params ι} {s s' : State ι} (hstep : Step p s s')
    (h : Provenance p s) : Provenance p s' := by
  have same : ∀ (k : HostName) (en : Entry ι), s.entries.lookup k = some en →
      s.entries.lookup k = some en := fun _ _ hk => hk
  have logs : s.completed = s.completed ∧ s.recorded = s.recorded ∧ s.served = s.served :=
    ⟨rfl, rfl, rfl⟩
  cases hstep with
  | tick d => exact { h with }
  | cancel i e he =>
      refine { h with contextEnded := ?_ }
      intro j k e' hj
      by_cases hji : j = i
      · subst hji
        simp
      · simpa [Function.update_of_ne hji] using h.contextEnded j k e' hj
  | begin i hi => exact h.move rfl rfl logs same (by simp [Phase.outcome])
  | cachedHit i now r hi hm hr => exact h.serve (hit_of_cachedHit hr)
  | cachedMiss i now hi hm hr => exact h.move rfl rfl logs same (by simp [Phase.outcome])
  | fastHit i now r hi hm hr => exact h.serve hr
  | fastMiss i now hi hm hr => exact h.move rfl rfl logs same (by simp [Phase.outcome])
  | lockedHit i now r hi hr => exact h.serve hr
  | join i now call hi hr hc =>
      exact h.move rfl rfl logs (fun _ _ => lookup_erase_some) (by simp [Phase.outcome])
  | lead i now hi hr hc =>
      exact h.move rfl rfl logs (fun _ _ => lookup_erase_some) (by simp [Phase.outcome])
  | wake i call r hi hr => exact h.move rfl rfl logs same (by simp [Phase.outcome])
  | giveUp i call e hi he => exact h.move rfl rfl logs same (by simp [Phase.outcome])
  | acquire i call now hi hs => exact h.move rfl rfl logs same (by simp [Phase.outcome])
  | abandon i call now e hi he => exact h.giveUp he rfl
  | answer i call now a hi ha => exact h.answer ha
  | abort i call now e hi he => exact h.giveUp he rfl
  | release i call now r hi hs => exact h.move rfl rfl logs same (by simp [Phase.outcome, hi])
  | finish i call now r victim hi hv => exact h.finish hi

/-! ## Every reachable state -/

structure Inv (p : Params ι) (s : State ι) : Prop where
  leaders : Leaders p s
  slots : SlotCount p s
  size : s.entries.entries.length ≤ p.maxEntries
  provenance : Provenance p s

omit [DecidableEq ι] in
/-- The empty cache. -/
theorem inv_init {p : Params ι} (hmax : 0 ≤ p.maxEntries) (clock : Int) :
    Inv p (State.init clock) where
  leaders := ⟨by simp [State.init, Phase.leads], by simp [State.init, Phase.leads]⟩
  slots := ⟨⟨∅, by simp [State.init, Phase.holdsSlot], rfl⟩, Nat.zero_le _⟩
  size := hmax
  provenance := by constructor <;> simp [State.init, Phase.outcome]

/-- One step of one call. -/
theorem inv_step {p : Params ι} {s s' : State ι} (hstep : Step p s s') (h : Inv p s) :
    Inv p s' where
  leaders := leaders_step hstep h.leaders
  slots := slotCount_step hstep h.slots
  size := size_step hstep h.size
  provenance := provenance_step hstep h.provenance

/-- All states of a run. -/
theorem inv_reachable {p : Params ι} {s : State ι} (hmax : 0 ≤ p.maxEntries)
    (h : Reachable p s) : Inv p s := by
  obtain ⟨clock, hrun⟩ := h
  induction hrun with
  | refl => exact inv_init hmax clock
  | tail _ hstep ih => exact inv_step hstep ih

/-- In every reachable state: one running resolver call per normalized name, no
more running resolver calls than slots, no more entries than `maxEntries`, and
every answer ever served from the cache is that of a completed resolver call for
the normalized name, within its lifetime when the served caller read the clock. -/
theorem cache_invariants (p : Params ι) (hmax : 1 ≤ p.maxEntries) (s : State ι)
    (h : Reachable p s) :
    (∀ i j, (s.phase i).isQuerying = true → (s.phase j).isQuerying = true →
      p.key i = p.key j → i = j) ∧
    (∀ Q : Finset ι, (∀ i ∈ Q, (s.phase i).isQuerying = true) → Q.card ≤ p.slotCap) ∧
    s.entries.entries.length ≤ p.maxEntries ∧
    (∀ sv ∈ s.served, ∃ rec ∈ s.recorded,
      ⟨rec.key, rec.answer⟩ ∈ s.completed ∧
      rec.key = p.normalizeDNSName (p.host sv.caller) ∧
      sv.outcome = .answer rec.answer ∧
      sv.now < rec.time + p.lifetime (.answer rec.answer : Outcome ι)) := by
  have hinv := inv_reachable (by omega) h
  refine ⟨?_, ?_, hinv.size, ?_⟩
  · intro i j hi hj hkey
    exact hinv.leaders.unique i j (Phase.leads_of_isQuerying hi) (Phase.leads_of_isQuerying hj) hkey
  · intro Q hQ
    exact hinv.slots.card_querying_le hQ
  · intro sv hsv
    obtain ⟨rec, hrec, t, ⟨hkey, hout, ht⟩, hnow⟩ := hinv.provenance.servedRecorded sv hsv
    exact ⟨rec, hrec, hinv.provenance.recordedCompleted rec hrec, hkey, hout, ht ▸ hnow⟩

/-- Two `Lookup` calls for one name that the resolver answers with `127.0.0.1`. -/
def oneName : Params Bool where
  ttl := 30
  negativeTTL := 3
  maxEntries := 1
  maxConcurrent := 1
  toLower := id
  method := fun _ => .lookup
  host := fun _ => [97]
  answers := fun _ a => a = .addrs [.v4 0x7f000001#32]

/-- The second caller is served the entry that the first one stored. -/
theorem cache_invariants_oneName : ∃ s : State Bool, Reachable oneName s ∧ s.served ≠ [] ∧
    s.entries.entries.length ≤ oneName.maxEntries := by
  have hrun := (Relation.ReflTransGen.refl (r := Step oneName) (a := State.init 0)).tail
    (Step.begin _ false rfl)
  have hrun := hrun.tail (Step.fastMiss _ false 0 rfl rfl rfl)
  have hrun := hrun.tail (Step.lead _ false 0 rfl rfl rfl)
  have hrun := hrun.tail (Step.acquire _ false 0 0 rfl (by decide))
  have hrun := hrun.tail (Step.answer _ false 0 0 _ rfl rfl)
  have hrun := hrun.tail (Step.release _ false 0 0 _ rfl (by decide))
  have hrun := hrun.tail (Step.finish _ false 0 0 _ [] rfl (.inr rfl))
  have hrun := hrun.tail (Step.begin _ true rfl)
  have hrun := hrun.tail (Step.fastHit _ true 0 (.answer (.addrs [.v4 0x7f000001#32])) rfl rfl rfl)
  refine ⟨_, ⟨0, hrun⟩, ?_, (cache_invariants oneName (by decide) _ ⟨0, hrun⟩).2.2.1⟩
  exact List.cons_ne_nil _ _

end Outway.Dns
