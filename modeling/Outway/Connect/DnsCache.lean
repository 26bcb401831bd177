import Outway.Netip

/-!
# Outway.Connect.DnsCache

The process-wide DNS cache as a transition system.

Any number of `Lookup` and `LookupCached` calls run against one cache.  A call is
a thread of its own: `Phase` says between which two atomic steps it stands.  The
sections the code runs under `mu` are single steps, as are a channel operation, a
clock reading and the start and end of a resolver call; a `select` with several
ready cases may take any of them.  Callers' contexts end at any time, the clock
advances at any time, and the resolver gives any answer `Params.answers` admits
while the caller's context is live; under an ended context it may also give up
with the context's error.

The last three fields of `State` are history: the resolver calls that completed,
the results that were entered into the cache and the answers served from it.
-/

namespace Outway.Dns

/-- A host name, as the bytes of a Go string. -/
abbrev HostName := List UInt8

/-- `strings.TrimSuffix(host, ".")`. -/
def trimDot (host : HostName) : HostName :=
  if host.getLast? = some 46 then host.dropLast else host

/-- `ctx.Err()` of a context that has ended. -/
inductive CtxErr where
  | canceled
  | deadlineExceeded
  deriving DecidableEq

/-- What the resolver returns under a live context. -/
inductive Answer where
  | addrs (l : List Addr)
  | failure (text : String)
  deriving DecidableEq

/-- The `(addrs, err)` of a lookup: the resolver's answer, or the error of the
context of caller `owner`. -/
inductive Outcome (ι : Type) where
  | answer (a : Answer)
  | context (owner : ι) (e : CtxErr)
  deriving DecidableEq

/-- `err != nil`. -/
def Outcome.failed {ι : Type} : Outcome ι → Bool
  | .answer (.addrs _) => false
  | .answer (.failure _) => true
  | .context _ _ => true

/-- `dnsCacheEntry`. -/
structure Entry (ι : Type) where
  outcome : Outcome ι
  expiresAt : Int

inductive Method where
  | lookup
  | lookupCached
  deriving DecidableEq

/-- The settings of `newDNSCache`, the calls made on the cache and the resolver
they run against. -/
structure Params (ι : Type) where
  ttl : Int
  negativeTTL : Int
  maxEntries : Int
  maxConcurrent : Int
  /-- `strings.ToLower` -/
  toLower : HostName → HostName
  method : ι → Method
  host : ι → HostName
  answers : HostName → Answer → Prop

/-- Where a call stands; `call` is the record it leads or waits for and `now` the
clock as the call read it. -/
inductive Phase (ι : Type) where
  | idle
  /-- the clock is read, the read-locked check comes next -/
  | timed (now : Int)
  /-- the read-locked check missed, the locked section comes next -/
  | missed (now : Int)
  /-- merged into the call of another caller -/
  | waiting (call : Nat)
  /-- leading a call, in the `select` for a lookup slot -/
  | queued (call : Nat) (now : Int)
  /-- the resolver is running -/
  | querying (call : Nat) (now : Int)
  /-- the resolver has returned, the slot is still taken -/
  | answered (call : Nat) (now : Int) (r : Outcome ι)
  /-- `resolve` has returned, the closing locked section comes next -/
  | resolved (call : Nat) (now : Int) (r : Outcome ι)
  /-- the call has returned; `none` is the miss of `LookupCached` -/
  | returned (r : Option (Outcome ι))

/-- A resolver call for `key` returned `answer`. -/
structure Completion where
  key : HostName
  answer : Answer

/-- A completed call was entered into the cache at time `time`. -/
structure Recording where
  key : HostName
  answer : Answer
  time : Int

/-- `caller`, which had read the clock at `now`, was served from the cache. -/
structure Serving (ι : Type) where
  caller : ι
  now : Int
  outcome : Outcome ι

structure State (ι : Type) where
  clock : Int
  /-- the error of each caller's context, once it has ended -/
  ended : ι → Option CtxErr
  phase : ι → Phase ι
  entries : AList fun _ : HostName => Entry ι
  inflight : AList fun _ : HostName => Nat
  /-- the call records; `some` once `done` is closed -/
  calls : List (Option (Outcome ι))
  /-- the tokens in `lookupSlots` -/
  slots : Nat
  completed : List Completion
  recorded : List Recording
  served : List (Serving ι)

variable {ι : Type}

namespace Params

variable (p : Params ι)

def normalizeDNSName (host : HostName) : HostName := p.toLower (trimDot host)

/-- The key of a call. -/
def key (i : ι) : HostName := p.normalizeDNSName (p.host i)

/-- The capacity of `lookupSlots`: `newDNSCache` raises the limit to one. -/
def slotCap : Nat := (if p.maxConcurrent < 1 then 1 else p.maxConcurrent).toNat

/-- The lifetime of a result in the cache. -/
def lifetime (r : Outcome ι) : Int := if r.failed then p.negativeTTL else p.ttl

end Params

/-! ## The locked sections -/

/-- A cached outcome that has not expired at `now`. -/
def hit (entries : AList fun _ : HostName => Entry ι) (key : HostName) (now : Int) :
    Option (Outcome ι) :=
  match entries.lookup key with
  | some entry => if now < entry.expiresAt then some entry.outcome else none
  | none => none

/-- `LookupCached` serves only a non-empty address list. -/
def cachedHit (entries : AList fun _ : HostName => Entry ι) (key : HostName) (now : Int) :
    Option (Outcome ι) :=
  match hit entries key now with
  | some (.answer (.addrs (a :: l))) => some (.answer (.addrs (a :: l)))
  | _ => none

/-- The entries that have not expired at `now`. -/
def unexpired (now : Int) (entries : AList fun _ : HostName => Entry ι) :
    AList fun _ : HostName => Entry ι :=
  ⟨entries.entries.filter fun e => now < e.2.expiresAt,
    List.NodupKeys.sublist List.filter_sublist entries.nodupKeys⟩

/-- `evictLocked`: make room for one entry.  `victim` is the key that the range
over the map yields first. -/
def evictLocked (maxEntries now : Int) (victim : HostName)
    (entries : AList fun _ : HostName => Entry ι) : AList fun _ : HostName => Entry ι :=
  if entries.entries.length < maxEntries then entries
  else if (unexpired now entries).entries.length < maxEntries then unexpired now entries
  else (unexpired now entries).erase victim

variable [DecidableEq ι]

namespace State

/-- Move caller `i` to a phase. -/
def goto (s : State ι) (i : ι) (ph : Phase ι) : State ι :=
  { s with phase := Function.update s.phase i ph }

/-- Return a cached outcome to caller `i`. -/
def serve (s : State ι) (i : ι) (now : Int) (r : Outcome ι) : State ι :=
  { s with served := ⟨i, now, r⟩ :: s.served }.goto i (.returned (some r))

/-- Store the outcome of a call unless the lifetimes or the size forbid it. -/
def store (s : State ι) (p : Params ι) (key : HostName) (now : Int) (r : Outcome ι)
    (victim : HostName) : State ι :=
  if 0 < p.lifetime r ∧ 0 < p.maxEntries then
    { s with
      entries := (evictLocked p.maxEntries now victim s.entries).insert key
        ⟨r, s.clock + p.lifetime r⟩
      recorded := match r with
        | .answer a => ⟨key, a, s.clock⟩ :: s.recorded
        | .context _ _ => s.recorded }
  else s

/-- The closing section of the leader `i`: publish the outcome to the waiters and
store it if the leader's own context is live. -/
def finish (s : State ι) (p : Params ι) (i : ι) (call : Nat) (now : Int) (r : Outcome ι)
    (victim : HostName) : State ι :=
  let s := { s with
    calls := s.calls.set call (some r)
    inflight := s.inflight.erase (p.key i) }
  let s := if s.ended i = none then s.store p (p.key i) now r victim else s
  s.goto i (.returned (some r))

/-- No call has been made. -/
def init (clock : Int) : State ι :=
  { clock
    ended := fun _ => none
    phase := fun _ => .idle
    entries := ∅
    inflight := ∅
    calls := []
    slots := 0
    completed := []
    recorded := []
    served := [] }

end State

/-! ## The steps -/

inductive Step (p : Params ι) : State ι → State ι → Prop where
  | tick (s : State ι) (d : Nat) : Step p s { s with clock := s.clock + d }
  | cancel (s : State ι) (i : ι) (e : CtxErr) (h : s.ended i = none) :
      Step p s { s with ended := Function.update s.ended i (some e) }
  | begin (s : State ι) (i : ι) (h : s.phase i = .idle) : Step p s (s.goto i (.timed s.clock))
  -- LookupCached
  | cachedHit (s : State ι) (i : ι) (now : Int) (r : Outcome ι) (h : s.phase i = .timed now)
      (hm : p.method i = .lookupCached) (hr : cachedHit s.entries (p.key i) now = some r) :
      Step p s (s.serve i now r)
  | cachedMiss (s : State ι) (i : ι) (now : Int) (h : s.phase i = .timed now)
      (hm : p.method i = .lookupCached) (hr : Dns.cachedHit s.entries (p.key i) now = none) :
      Step p s (s.goto i (.returned none))
  -- Lookup: the read-locked check
  | fastHit (s : State ι) (i : ι) (now : Int) (r : Outcome ι) (h : s.phase i = .timed now)
      (hm : p.method i = .lookup) (hr : hit s.entries (p.key i) now = some r) :
      Step p s (s.serve i now r)
  | fastMiss (s : State ι) (i : ι) (now : Int) (h : s.phase i = .timed now)
      (hm : p.method i = .lookup) (hr : hit s.entries (p.key i) now = none) :
      Step p s (s.goto i (.missed now))
  -- Lookup: the locked section
  | lockedHit (s : State ι) (i : ι) (now : Int) (r : Outcome ι) (h : s.phase i = .missed now)
      (hr : hit s.entries (p.key i) now = some r) : Step p s (s.serve i now r)
  | join (s : State ι) (i : ι) (now : Int) (call : Nat) (h : s.phase i = .missed now)
      (hr : hit s.entries (p.key i) now = none) (hc : s.inflight.lookup (p.key i) = some call) :
      Step p s ({ s with entries := s.entries.erase (p.key i) }.goto i (.waiting call))
  | lead (s : State ι) (i : ι) (now : Int) (h : s.phase i = .missed now)
      (hr : hit s.entries (p.key i) now = none) (hc : s.inflight.lookup (p.key i) = none) :
      Step p s ({ s with
        entries := s.entries.erase (p.key i)
        inflight := s.inflight.insert (p.key i) s.calls.length
        calls := s.calls ++ [none] }.goto i (.queued s.calls.length now))
  -- a merged caller
  | wake (s : State ι) (i : ι) (call : Nat) (r : Outcome ι) (h : s.phase i = .waiting call)
      (hr : s.calls[call]? = some (some r)) : Step p s (s.goto i (.returned (some r)))
  | giveUp (s : State ι) (i : ι) (call : Nat) (e : CtxErr) (h : s.phase i = .waiting call)
      (he : s.ended i = some e) : Step p s (s.goto i (.returned (some (.context i e))))
  -- resolve
  | acquire (s : State ι) (i : ι) (call : Nat) (now : Int) (h : s.phase i = .queued call now)
      (hs : s.slots < p.slotCap) :
      Step p s ({ s with slots := s.slots + 1 }.goto i (.querying call now))
  | abandon (s : State ι) (i : ι) (call : Nat) (now : Int) (e : CtxErr)
      (h : s.phase i = .queued call now) (he : s.ended i = some e) :
      Step p s (s.goto i (.resolved call now (.context i e)))
  | answer (s : State ι) (i : ι) (call : Nat) (now : Int) (a : Answer)
      (h : s.phase i = .querying call now) (ha : p.answers (p.key i) a) :
      Step p s ({ s with completed := ⟨p.key i, a⟩ :: s.completed }.goto i
        (.answered call now (.answer a)))
  | abort (s : State ι) (i : ι) (call : Nat) (now : Int) (e : CtxErr)
      (h : s.phase i = .querying call now) (he : s.ended i = some e) :
      Step p s (s.goto i (.answered call now (.context i e)))
  | release (s : State ι) (i : ι) (call : Nat) (now : Int) (r : Outcome ι)
      (h : s.phase i = .answered call now r) (hs : 0 < s.slots) :
      Step p s ({ s with slots := s.slots - 1 }.goto i (.resolved call now r))
  -- the closing section of the leader
  | finish (s : State ι) (i : ι) (call : Nat) (now : Int) (r : Outcome ι) (victim : HostName)
      (h : s.phase i = .resolved call now r)
      (hv : victim ∈ unexpired now s.entries ∨ (unexpired now s.entries).entries = []) :
      Step p s (s.finish p i call now r victim)

/-- The states a cache can reach from its creation at some clock reading. -/
def Reachable (p : Params ι) (s : State ι) : Prop :=
  ∃ clock, Relation.ReflTransGen (Step p) (State.init clock) s

end Outway.Dns
