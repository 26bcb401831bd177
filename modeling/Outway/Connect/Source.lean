import Outway.Connect.Assign
import Outway.Lib.Race

/-!
# Outway.Connect.Source

The source-address policy of the outbound connectors.

`TcpConnector.connect` resolves its target and races the resolved addresses;
for each address `connectAddr` dials from the CIDR, from the fallback, from both
in a race, or from the system default.  `UdpConnector.createSocketDualStack`
opens the one or two sockets of a UDP association under a case split of its own.

The racing loops run over a list of wake-ups: what their `select` picks, pass
after pass.  A `Trace` holds every dial issued on the way.  Timers, deadlines
and the dial semaphore decide only when a wake-up happens and are left out.

`SourcePolicy` states the operator's intent; `FallbackHonoured` describes the
connectors for which the two case splits implement it.
-/

namespace Outway

/-! ## Sources -/

/-- `AsSlice`: the bytes handed to `net.IP`; the zero address gives none and a
zone is dropped. -/
def Addr.asSlice (ip : Addr) : List UInt8 :=
  match ip with
  | .zero => []
  | .v4 _ => ip.as4.toList
  | .v6 _ _ => ip.as16.toList

/-- The local end of an outbound socket: the IP it is bound to (empty when
unset) and the device of `SO_BINDTODEVICE` (empty when unset). -/
structure Source where
  ip : List UInt8
  device : String
  deriving DecidableEq

/-- One call of `Dialer.DialContext`. -/
structure Dial where
  source : Source
  target : AddrPort

/-- `TargetAddr`: a socket address, or a host to resolve. -/
structure TargetAddr where
  addr : Option AddrPort
  host : String
  port : UInt16

/-- `Connector`: the fields that decide about sources. -/
structure Connector where
  cidr : Option Prefix
  cidrRange : Option UInt8
  fallback : Option Fallback

inductive ConnectError where
  | familyMismatch (target : AddrPort) (cidr : Prefix)
  | noAddress
  | unresolved (host : String)
  /-- the error of the caller's context -/
  | context
  /-- an error of the resolver, of a dial or of a listen call -/
  | external (text : String)

def ConnectError.message (showAddrPort : AddrPort → String) (showPrefix : Prefix → String)
    (contextText : String) : ConnectError → String
  | .familyMismatch target cidr =>
      s!"target {showAddrPort target} address family does not match source CIDR " ++
        s!"{showPrefix cidr}; configure a fallback for dual-stack proxying"
  | .noAddress => "failed to connect to any resolved address"
  | .unresolved host => s!"failed to resolve {host}"
  | .context => contextText
  | .external text => text

/-! ## TCP -/

/-- What the `select` of a racing loop picks. -/
inductive Wakeup (κ : Type) where
  | result (r : Except ConnectError κ)
  | timer
  | ctxDone

/-- The dials issued so far, and the result once there is one. -/
structure Trace (κ : Type) where
  dials : List Dial
  result : Option (Except ConnectError κ)

/-- The state of `connectWithCIDRFallback`'s loop. -/
structure FallbackRace (κ : Type) where
  dials : List Dial
  fallbackStarted : Bool
  failures : Nat
  result : Option (Except ConnectError κ)

/-- The state of `connectAny`'s loop over `n` addresses. -/
structure AddressRace (κ : Type) where
  started : Nat
  completed : Nat
  result : Option (Except ConnectError κ)

/-- The outside of one `Connect` call: the resolver, and for the loop over
addresses and for each address the random numbers and the wake-ups. -/
structure ConnectEnv (κ : Type) where
  parseAddr : String → Option Addr
  lookup : String → Except ConnectError (List Addr)
  wakeups : List (Wakeup κ)
  rnd : Nat → RandDraws
  inner : Nat → List (Wakeup κ)

structure TcpConnector where
  inner : Connector
  extension : Extension

variable {κ : Type}

def resolveHost (env : ConnectEnv κ) (host : String) (port : UInt16) :
    Except ConnectError (List AddrPort) :=
  match env.parseAddr host with
  | some ip => .ok [⟨ip, port⟩]
  | none =>
      match env.lookup host with
      | .error e => .error e
      | .ok [] => .error (.unresolved host)
      | .ok ips => .ok (ips.map fun ip => ⟨ip, port⟩)

/-- The dial that `dialContext` issues.  `applySocketOptions` binds the socket
to the interface when there is one, and fails the dial when it cannot. -/
def dialOf (bindIP : Addr) (bindInterface : String) (target : AddrPort) : Dial :=
  ⟨⟨if bindIP.isValid then bindIP.asSlice else [], bindInterface⟩, target⟩

/-- `dialContext`: one dial, with the first wake-up as its result. -/
def dialContext (d : Dial) : List (Wakeup κ) → Trace κ
  | .result r :: _ => ⟨[d], some r⟩
  | .ctxDone :: _ => ⟨[d], some (.error .context)⟩
  | _ => ⟨[d], none⟩

namespace FallbackRace

def step (fallbackDial : Dial) (s : FallbackRace κ) : Wakeup κ → FallbackRace κ
  | .result (.ok conn) => { s with result := some (.ok conn) }
  | .result (.error err) =>
      let failures := s.failures + 1
      if s.fallbackStarted = false then
        { s with failures, fallbackStarted := true, dials := s.dials ++ [fallbackDial] }
      else if failures = 2 then { s with failures, result := some (.error err) }
      else { s with failures }
  | .timer =>
      if s.fallbackStarted = false then
        { s with fallbackStarted := true, dials := s.dials ++ [fallbackDial] }
      else s
  | .ctxDone => { s with result := some (.error .context) }

/-- The loop, until it returns. -/
def run (fallbackDial : Dial) : FallbackRace κ → List (Wakeup κ) → FallbackRace κ :=
  Race.wake (step fallbackDial) result

end FallbackRace

namespace AddressRace

def step (n : Nat) (s : AddressRace κ) : Wakeup κ → AddressRace κ
  | .result (.ok conn) => { s with completed := s.completed + 1, result := some (.ok conn) }
  | .result (.error err) =>
      let completed := s.completed + 1
      if completed = n then { s with completed, result := some (.error err) }
      else if completed = s.started ∧ s.started < n then
        { s with completed, started := s.started + 1 }
      else { s with completed }
  | .timer => if s.started < n then { s with started := s.started + 1 } else s
  | .ctxDone => { s with result := some (.error .context) }

/-- The loop, until it returns. -/
def run (n : Nat) : AddressRace κ → List (Wakeup κ) → AddressRace κ := Race.wake (step n) result

end AddressRace

namespace TcpConnector

variable (t : TcpConnector)

def plainDial (target : AddrPort) : Dial := dialOf .zero "" target

def cidrDial (rnd : RandDraws) (target : AddrPort) (cidr : Prefix) : Dial :=
  dialOf (assignSourceIP rnd cidr t.inner.cidrRange t.extension) "" target

def fallbackDial (target : AddrPort) (fb : Fallback) : Dial :=
  if fb.isInterface then dialOf .zero fb.interface target else dialOf fb.address "" target

def connectPlain (target : AddrPort) (ws : List (Wakeup κ)) : Trace κ :=
  dialContext (plainDial target) ws

def connectWithCIDR (rnd : RandDraws) (target : AddrPort) (cidr : Prefix) (ws : List (Wakeup κ)) :
    Trace κ :=
  dialContext (t.cidrDial rnd target cidr) ws

def connectWithFallback (target : AddrPort) (fb : Fallback) (ws : List (Wakeup κ)) : Trace κ :=
  dialContext (fallbackDial target fb) ws

/-- `connectWithCIDRFallback`: the CIDR dial first, the fallback dial when the
timer fires or the CIDR dial has failed. -/
def connectWithCIDRFallback (rnd : RandDraws) (target : AddrPort) (cidr : Prefix) (fb : Fallback)
    (ws : List (Wakeup κ)) : Trace κ :=
  let s := FallbackRace.run (fallbackDial target fb)
    ⟨[t.cidrDial rnd target cidr], false, 0, none⟩ ws
  ⟨s.dials, s.result⟩

def connectAddr (rnd : RandDraws) (target : AddrPort) (ws : List (Wakeup κ)) : Trace κ :=
  match t.inner.cidr, t.inner.fallback with
  | some cidr, some fb =>
      if cidr.addr.is4 ≠ target.addr.is4 then connectWithFallback target fb ws
      else t.connectWithCIDRFallback rnd target cidr fb ws
  | some cidr, none =>
      if cidr.addr.is4 ≠ target.addr.is4 then ⟨[], some (.error (.familyMismatch target cidr))⟩
      else t.connectWithCIDR rnd target cidr ws
  | none, some fb => connectWithFallback target fb ws
  | none, none => connectPlain target ws

def connectAny (env : ConnectEnv κ) (addrs : List AddrPort) : Trace κ :=
  match addrs with
  | [] => ⟨[], some (.error .noAddress)⟩
  | [addr] => t.connectAddr (env.rnd 0) addr (env.inner 0)
  | addrs =>
      let s := AddressRace.run addrs.length ⟨1, 0, none⟩ env.wakeups
      ⟨(addrs.take s.started).zipIdx.flatMap fun (addr, i) =>
          (t.connectAddr (env.rnd i) addr (env.inner i)).dials, s.result⟩

def connect (env : ConnectEnv κ) (target : TargetAddr) : Trace κ :=
  match target.addr with
  | some addr => t.connectAddr (env.rnd 0) addr (env.inner 0)
  | none =>
      match resolveHost env target.host target.port with
      | .error e => ⟨[], some (.error e)⟩
      | .ok addrs => t.connectAny env addrs

end TcpConnector

/-! ## UDP -/

inductive UdpNetwork where
  | udp
  | udp4
  | udp6
  deriving DecidableEq

/-- A socket opened by `net.ListenUDP` on port 0.  No socket option is set. -/
structure UdpSocket where
  network : UdpNetwork
  ip : List UInt8
  deriving DecidableEq

def UdpSocket.source (s : UdpSocket) : Source := ⟨s.ip, ""⟩

structure UdpConnector where
  inner : Connector
  extension : Extension

namespace UdpConnector

variable (u : UdpConnector)

/-- `net.ListenUDP`; `listen` is the kernel's answer, `none` for success. -/
def listenUDP (listen : UdpSocket → Option ConnectError) (s : UdpSocket) :
    Except ConnectError UdpSocket :=
  match listen s with
  | none => .ok s
  | some e => .error e

def createSocketWithAddr (listen : UdpSocket → Option ConnectError) (ip : Addr) :
    Except ConnectError UdpSocket :=
  listenUDP listen ⟨.udp, ip.asSlice⟩

def createSocketWithCIDR (rnd : RandDraws) (listen : UdpSocket → Option ConnectError)
    (cidr : Prefix) : Except ConnectError UdpSocket :=
  createSocketWithAddr listen (assignSourceIP rnd cidr u.inner.cidrRange u.extension)

/-- `CreateSocketDualStack`: the preferred socket and the optional second one. -/
def createSocketDualStack (rnd : RandDraws) (listen : UdpSocket → Option ConnectError) :
    Except ConnectError (UdpSocket × Option UdpSocket) :=
  match u.inner.cidr, u.inner.fallback.filter fun fb => !fb.isInterface with
  | some cidr, some fb => do
      let preferred ← u.createSocketWithCIDR rnd listen cidr
      let fallback ← createSocketWithAddr listen fb.address
      return (preferred, some fallback)
  | none, some fb => do
      let fallback ← createSocketWithAddr listen fb.address
      return (fallback, none)
  | some cidr, none => do
      let preferred ← u.createSocketWithCIDR rnd listen cidr
      return (preferred, none)
  | none, none => do
      let preferred ← listenUDP listen ⟨.udp4, Addr.ipv4Unspecified.asSlice⟩
      match listenUDP listen ⟨.udp6, Addr.ipv6Unspecified.asSlice⟩ with
      | .ok fallback => return (preferred, some fallback)
      | .error _ => return (preferred, none)

end UdpConnector

/-! ## The policy -/

namespace Connector

/-- The sources the operator configured: an address of the CIDR, the fallback
address, or the fallback interface.  The unspecified address counts like any other: where a
CIDR has it (`0.0.0.0/8`, `::/0`), or it is the fallback itself, a socket bound to it is a
configured one, although the operating system then chooses its source. -/
def Configured (c : Connector) (src : Source) : Prop :=
  (∃ cidr ip, c.cidr = some cidr ∧ cidr.contains ip = true ∧ src.ip = ip.asSlice) ∨
  (∃ fb, c.fallback = some fb ∧ fb.isInterface = false ∧ fb.address.isValid = true ∧
    src.ip = fb.address.asSlice) ∨
  (∃ fb, c.fallback = some fb ∧ fb.isInterface = true ∧ src.device = fb.interface)

/-- A source is allowed when it is configured; any other source is left to the
operating system, which needs a connector with nothing configured. -/
def Allows (c : Connector) (src : Source) : Prop :=
  c.Configured src ∨ (c.cidr = none ∧ c.fallback = none)

/-- **The policy**: every dial of `Connect` and every socket of
`CreateSocketDualStack` has an allowed source. -/
def SourcePolicy (c : Connector) : Prop :=
  ∀ e : Extension,
    (∀ (κ : Type) (env : ConnectEnv κ) (target : TargetAddr),
      ∀ d ∈ ((TcpConnector.mk c e).connect env target).dials, c.Allows d.source) ∧
    (∀ rnd listen preferred second,
      (UdpConnector.mk c e).createSocketDualStack rnd listen = .ok (preferred, second) →
        c.Allows preferred.source ∧ ∀ s, second = some s → c.Allows s.source)

/-- The range of the connector is one `validate` accepts for its CIDR. -/
def RangeAccepted (c : Connector) : Prop :=
  ∀ cidr r, c.cidr = some cidr → c.cidrRange = some r → cidr.acceptsRange r

/-- The fallback can be honoured on every path: a fallback address is a valid
address, and an interface comes with a CIDR (the UDP sockets ignore it). -/
def FallbackHonoured (c : Connector) : Prop :=
  ∀ fb, c.fallback = some fb →
    if fb.isInterface then c.cidr.isSome = true else fb.address.isValid = true

/-- Boot arguments that pass `validate` give a connector with an accepted range. -/
theorem rangeAccepted_of_validate {showPrefix : Prefix → String} {a : BootArgs}
    (h : a.validate showPrefix = .ok ()) (fallback : Option Fallback) :
    RangeAccepted ⟨a.cidr, a.cidrRange, fallback⟩ := by
  intro cidr r hcidr hr
  obtain ⟨cidr', hcidr', hacc⟩ := (BootArgs.accepted_of_validate h).cidrRange r hr
  have heq : cidr' = cidr := Option.some.inj (hcidr'.symm.trans hcidr)
  exact heq ▸ hacc

section Dials

variable {c : Connector} {e : Extension}

/-- An assigned source is one of the CIDR. -/
theorem allows_assignSourceIP (hr : c.RangeAccepted) {cidr : Prefix} (hc : c.cidr = some cidr)
    (rnd : RandDraws) (device : String) :
    c.Allows ⟨(assignSourceIP rnd cidr c.cidrRange e).asSlice, device⟩ :=
  .inl (.inl ⟨cidr, _, hc, assignSourceIP_mem (fun r h => hr cidr r hc h) rnd e, rfl⟩)

theorem isValid_of_contains {p : Prefix} {ip : Addr} (h : p.contains ip = true) :
    ip.isValid = true := by
  cases ip with
  | zero => simp [Prefix.contains] at h
  | v4 a => rfl
  | v6 a zone => rfl

/-- The dial from the CIDR has a configured source. -/
theorem allows_cidrDial (hr : c.RangeAccepted) {cidr : Prefix} (hc : c.cidr = some cidr)
    (rnd : RandDraws) (target : AddrPort) :
    c.Allows ((TcpConnector.mk c e).cidrDial rnd target cidr).source := by
  have hvalid := isValid_of_contains (assignSourceIP_mem (fun r h => hr cidr r hc h) rnd e)
  simp only [TcpConnector.cidrDial, dialOf, hvalid, if_true]
  exact allows_assignSourceIP hr hc rnd ""

/-- So does the dial from the fallback. -/
theorem allows_fallbackDial (hf : c.FallbackHonoured) {fb : Fallback} (hfb : c.fallback = some fb)
    (target : AddrPort) : c.Allows (TcpConnector.fallbackDial target fb).source := by
  have h := hf fb hfb
  cases hi : fb.isInterface with
  | true =>
      simp only [TcpConnector.fallbackDial, hi, if_true, dialOf]
      exact .inl (.inr (.inr ⟨fb, hfb, hi, rfl⟩))
  | false =>
      simp only [hi, Bool.false_eq_true, if_false] at h
      simp only [TcpConnector.fallbackDial, hi, Bool.false_eq_true, if_false, dialOf, h, if_true]
      exact .inl (.inr (.inl ⟨fb, hfb, hi, h, rfl⟩))

/-- A `dialContext` call issues its own dial and no other. -/
theorem mem_dials_dialContext {d d' : Dial} {ws : List (Wakeup κ)}
    (h : d' ∈ (dialContext d ws).dials) : d' = d := by
  unfold dialContext at h
  split at h <;> simpa using h

/-- One pass of the race adds at most the fallback dial. -/
theorem mem_dials_raceStep {fbDial d : Dial} {s : FallbackRace κ} {w : Wakeup κ}
    (h : d ∈ (s.step fbDial w).dials) : d ∈ s.dials ∨ d = fbDial := by
  cases w with
  | result r =>
      cases r with
      | ok conn => exact .inl h
      | error err =>
          simp only [FallbackRace.step] at h
          split_ifs at h
          · simpa using h
          · exact .inl h
          · exact .inl h
  | timer =>
      simp only [FallbackRace.step] at h
      split_ifs at h
      · simpa using h
      · exact .inl h
  | ctxDone => exact .inl h

/-- The dials of a whole race are those it began with and the fallback dial. -/
theorem mem_dials_raceRun {fbDial d : Dial} {s : FallbackRace κ} {ws : List (Wakeup κ)}
    (h : d ∈ (s.run fbDial ws).dials) : d ∈ s.dials ∨ d = fbDial := by
  unfold FallbackRace.run at h
  induction ws generalizing s with
  | nil => exact .inl h
  | cons w ws ih =>
      simp only [Race.wake] at h
      split_ifs at h
      · exact .inl h
      · obtain hs | hd := ih h
        · exact mem_dials_raceStep hs
        · exact .inr hd

/-- So does every dial to one address. -/
theorem allows_connectAddr (hr : c.RangeAccepted) (hf : c.FallbackHonoured) (rnd : RandDraws)
    (target : AddrPort) (ws : List (Wakeup κ)) :
    ∀ d ∈ ((TcpConnector.mk c e).connectAddr rnd target ws).dials, c.Allows d.source := by
  intro d hd
  unfold TcpConnector.connectAddr at hd
  cases hcidr : c.cidr with
  | none =>
      cases hfb : c.fallback with
      | none => exact .inr ⟨hcidr, hfb⟩
      | some fb =>
          simp only [hcidr, hfb] at hd
          rw [mem_dials_dialContext hd]
          exact allows_fallbackDial hf hfb target
  | some cidr =>
      cases hfb : c.fallback with
      | none =>
          simp only [hcidr, hfb] at hd
          split_ifs at hd
          · simp at hd
          · rw [mem_dials_dialContext hd]
            exact allows_cidrDial hr hcidr rnd target
      | some fb =>
          simp only [hcidr, hfb] at hd
          split_ifs at hd
          · rw [mem_dials_dialContext hd]
            exact allows_fallbackDial hf hfb target
          · obtain hd | rfl := mem_dials_raceRun hd
            · obtain rfl : d = _ := by simpa using hd
              exact allows_cidrDial hr hcidr rnd target
            · exact allows_fallbackDial hf hfb target

/-- And to several. -/
theorem allows_connectAny (hr : c.RangeAccepted) (hf : c.FallbackHonoured) (env : ConnectEnv κ)
    (addrs : List AddrPort) :
    ∀ d ∈ ((TcpConnector.mk c e).connectAny env addrs).dials, c.Allows d.source := by
  intro d hd
  unfold TcpConnector.connectAny at hd
  split at hd
  · simp at hd
  · exact allows_connectAddr hr hf _ _ _ d hd
  · simp only [List.mem_flatMap] at hd
    obtain ⟨⟨addr, i⟩, -, hd⟩ := hd
    exact allows_connectAddr hr hf _ _ _ d hd

/-- And to a target that has to be resolved. -/
theorem allows_connect (hr : c.RangeAccepted) (hf : c.FallbackHonoured) (env : ConnectEnv κ)
    (target : TargetAddr) :
    ∀ d ∈ ((TcpConnector.mk c e).connect env target).dials, c.Allows d.source := by
  intro d hd
  unfold TcpConnector.connect at hd
  split at hd
  · exact allows_connectAddr hr hf _ _ _ d hd
  · split at hd
    · simp at hd
    · exact allows_connectAny hr hf env _ d hd

end Dials

section Sockets

open UdpConnector

variable {c : Connector} {e : Extension}

/-- A bind of two listen calls succeeds when both do. -/
theorem bind_eq_ok {ε α β : Type} {x : Except ε α} {f : α → Except ε β} {b : β}
    (h : (x >>= f) = .ok b) : ∃ a, x = .ok a ∧ f a = .ok b := by
  cases x with
  | error e => cases h
  | ok a => exact ⟨a, rfl, h⟩

/-- A socket that could be bound is the one that was asked for. -/
theorem eq_of_listenUDP {listen : UdpSocket → Option ConnectError} {s s' : UdpSocket}
    (h : listenUDP listen s = .ok s') : s' = s := by
  unfold listenUDP at h
  split at h
  · exact (Except.ok.inj h).symm
  · cases h

/-- A UDP socket of the CIDR has a configured source. -/
theorem allows_cidrSocket (hr : c.RangeAccepted) {cidr : Prefix} (hc : c.cidr = some cidr)
    {rnd : RandDraws} {listen : UdpSocket → Option ConnectError} {s : UdpSocket}
    (h : (UdpConnector.mk c e).createSocketWithCIDR rnd listen cidr = .ok s) :
    c.Allows s.source := by
  rw [eq_of_listenUDP h]
  exact allows_assignSourceIP hr hc rnd ""

/-- So does one of the fallback address. -/
theorem allows_fallbackSocket (hf : c.FallbackHonoured) {fb : Fallback}
    (hfb : c.fallback.filter (fun fb => !fb.isInterface) = some fb)
    {listen : UdpSocket → Option ConnectError} {s : UdpSocket}
    (h : createSocketWithAddr listen fb.address = .ok s) : c.Allows s.source := by
  obtain ⟨hsome, hi⟩ := Option.filter_eq_some_iff.mp hfb
  have hi : fb.isInterface = false := by simpa using hi
  have hvalid := hf fb hsome
  simp only [hi, Bool.false_eq_true, if_false] at hvalid
  rw [eq_of_listenUDP h]
  exact .inl (.inr (.inl ⟨fb, hsome, hi, hvalid, rfl⟩))

/-- So do both sockets of an association. -/
theorem allows_createSocketDualStack (hr : c.RangeAccepted) (hf : c.FallbackHonoured)
    {rnd : RandDraws} {listen : UdpSocket → Option ConnectError} {preferred : UdpSocket}
    {second : Option UdpSocket}
    (h : (UdpConnector.mk c e).createSocketDualStack rnd listen = .ok (preferred, second)) :
    c.Allows preferred.source ∧ ∀ s, second = some s → c.Allows s.source := by
  unfold createSocketDualStack at h
  split at h
  · next cidr fb hcidr hfb =>
      obtain ⟨pre, hpre, h⟩ := bind_eq_ok h
      obtain ⟨sec, hsec, h⟩ := bind_eq_ok h
      cases h
      refine ⟨allows_cidrSocket hr hcidr hpre, ?_⟩
      rintro s ⟨⟩
      exact allows_fallbackSocket hf hfb hsec
  · next fb hcidr hfb =>
      obtain ⟨pre, hpre, h⟩ := bind_eq_ok h
      cases h
      exact ⟨allows_fallbackSocket hf hfb hpre, by simp⟩
  · next cidr hcidr hfb =>
      obtain ⟨pre, hpre, h⟩ := bind_eq_ok h
      cases h
      exact ⟨allows_cidrSocket hr hcidr hpre, by simp⟩
  · next hcidr hfb =>
      -- neither a CIDR nor a usable fallback address: an interface would need a CIDR
      have hcidr : c.cidr = none := hcidr
      have hnone : c.fallback = none := by
        cases hsome : c.fallback with
        | none => rfl
        | some fb =>
            have hfilter : fb.isInterface = true := by simpa [hsome] using hfb
            have := hf fb hsome
            simp [hfilter, hcidr] at this
      exact ⟨.inr ⟨hcidr, hnone⟩, fun s _ => .inr ⟨hcidr, hnone⟩⟩

/-- A fallback that both connectors honour is enough for the policy. -/
theorem sourcePolicy_of_fallbackHonoured (hr : c.RangeAccepted) (hf : c.FallbackHonoured) :
    c.SourcePolicy :=
  fun _ => ⟨fun _ env target => allows_connect hr hf env target,
    fun _ _ _ _ h => allows_createSocketDualStack hr hf h⟩

/-! ### Where the policy fails -/

theorem asSlice_ne_nil_of_contains {p : Prefix} {ip : Addr} (h : p.contains ip = true) :
    ip.asSlice ≠ [] := by
  cases ip with
  | zero => simp [Prefix.contains] at h
  | v4 a => simp [Addr.asSlice, Addr.as4]
  | v6 a zone => simp [Addr.asSlice, Addr.as16]

/-- A socket without an IP and without a device is nobody's configured source. -/
theorem not_configured_unbound {fb : Fallback} (hfb : c.fallback = some fb)
    (hi : fb.isInterface = false) (hinvalid : fb.address.isValid = false) :
    ¬ c.Configured ⟨[], ""⟩ := by
  rintro (⟨cidr, ip, -, hmem, hip⟩ | ⟨fb', hfb', -, hvalid, -⟩ | ⟨fb', hfb', hi', -⟩)
  · exact asSlice_ne_nil_of_contains hmem hip.symm
  · cases hfb.symm.trans hfb'
    simp [hinvalid] at hvalid
  · cases hfb.symm.trans hfb'
    simp [hi] at hi'

/-- With an interface as the only setting, a socket that is not bound to that
interface is no configured source. -/
theorem not_configured_ip {fb : Fallback} (hcidr : c.cidr = none) (hfb : c.fallback = some fb)
    (hi : fb.isInterface = true) (ip : List UInt8) : ¬ c.Configured ⟨ip, ""⟩ := by
  rintro (⟨cidr, -, hc, -⟩ | ⟨fb', hfb', hi', -⟩ | ⟨fb', hfb', -, hdev⟩)
  · cases hcidr.symm.trans hc
  · cases hfb.symm.trans hfb'
    simp [hi] at hi'
  · cases hfb.symm.trans hfb'
    simp [Fallback.isInterface, ← hdev] at hi

/-- And it is needed: a fallback that is ignored somewhere leaves a dial or a socket unbound. -/
theorem fallbackHonoured_of_sourcePolicy (h : c.SourcePolicy) : c.FallbackHonoured := by
  intro fb hfb
  have hudp := (h .noExt).2 ⟨0, 0, 0⟩ (fun _ => none)
  have hallows : ∀ {src}, c.Allows src → c.Configured src := by
    rintro src (hconf | ⟨-, hnone⟩)
    · exact hconf
    · cases hfb.symm.trans hnone
  cases hi : fb.isInterface with
  | true =>
      simp only [if_true]
      cases hcidr : c.cidr with
      | some cidr => rfl
      | none =>
          have hfilter : c.fallback.filter (fun fb => !fb.isInterface) = none := by simp [hfb, hi]
          have hsock := hudp ⟨.udp4, Addr.ipv4Unspecified.asSlice⟩
            (some ⟨.udp6, Addr.ipv6Unspecified.asSlice⟩)
            (by simp only [createSocketDualStack, hcidr, hfilter]; rfl)
          exact absurd (hallows hsock.1) (not_configured_ip hcidr hfb hi _)
  | false =>
      simp only [Bool.false_eq_true, if_false]
      cases haddr : fb.address with
      | v4 a => rfl
      | v6 a zone => rfl
      | zero =>
          have hnot := not_configured_unbound hfb hi (by rw [haddr]; rfl)
          have hfilter : c.fallback.filter (fun fb => !fb.isInterface) = some fb := by
            simp [hfb, Option.filter, hi]
          cases hcidr : c.cidr with
          | none =>
              have hsock := hudp ⟨.udp, []⟩ none
                (by simp only [createSocketDualStack, hcidr, hfilter, haddr]; rfl)
              exact absurd (hallows hsock.1) hnot
          | some cidr =>
              have hsock := hudp ⟨.udp, (assignSourceIP ⟨0, 0, 0⟩ cidr c.cidrRange .noExt).asSlice⟩
                (some ⟨.udp, []⟩)
                (by simp only [createSocketDualStack, hcidr, hfilter, haddr]; rfl)
              exact absurd (hallows (hsock.2 _ rfl)) hnot

end Sockets

/-- The connectors that keep the policy are exactly those whose fallback can be
honoured on every path: none at all, a valid address, or an interface next to a
CIDR. -/
theorem sourcePolicy_iff (c : Connector) (hr : c.RangeAccepted) :
    c.SourcePolicy ↔ c.FallbackHonoured :=
  ⟨fallbackHonoured_of_sourcePolicy, sourcePolicy_of_fallbackHonoured hr⟩

/-- The default settings with a CIDR and a range in it. -/
def rangedArgs : BootArgs where
  concurrent := 1024
  workers := 0
  cidr := some ⟨.v4 0x0a000000#32, 8, by decide⟩
  cidrRange := some 16
  connectTimeout := 10
  udp :=
    { maxPacketSize := defaultUDPMaxPacketSize
      batchSize := defaultUDPBatchSize
      batchBufferBudget := defaultUDPBatchBufferBudget
      sendQueueSize := defaultUDPSendQueueSize
      sendWorkers := 0
      socketBufferBytes := 0
      maxAssociations := 0
      gso := false
      gro := false }
  auth := ⟨[], []⟩
  tlsCert := ""
  tlsKey := ""

/-- The settings pass `Validate`. -/
theorem rangedArgs_validate : rangedArgs.validate (fun _ => "") = .ok () := rfl

/-- A CIDR with an interface fallback is one of them. -/
theorem sourcePolicy_iff_cidr_interface :
    SourcePolicy ⟨rangedArgs.cidr, rangedArgs.cidrRange, some ⟨.zero, "eth1"⟩⟩ :=
  (sourcePolicy_iff _ (rangeAccepted_of_validate rangedArgs_validate _)).mpr
    (by rintro fb ⟨⟩; decide)

/-- With `--fallback eth1` and no CIDR the UDP sockets are wildcard sockets on
no interface, so relayed datagrams leave from the system's default source. -/
theorem not_sourcePolicy_interface : ¬ SourcePolicy ⟨none, none, some ⟨.zero, "eth1"⟩⟩ := by
  intro h
  have hpre := ((h .noExt).2 ⟨0, 0, 0⟩ (fun _ => none) ⟨.udp4, [0, 0, 0, 0]⟩
    (some ⟨.udp6, [0, 0, 0, 0, 0, 0, 0, 0, 0, 0, 0, 0, 0, 0, 0, 0]⟩) (by rfl)).1
  obtain (⟨cidr, -, hc, -⟩ | ⟨fb, hfb, hi, -⟩ | ⟨fb, hfb, -, hdev⟩) | ⟨-, hnone⟩ := hpre
  · cases hc
  · cases hfb
    simp [Fallback.isInterface] at hi
  · cases hfb
    simp [UdpSocket.source] at hdev
  · cases hnone

end Connector

end Outway
