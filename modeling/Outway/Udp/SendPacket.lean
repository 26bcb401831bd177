import Outway.Udp.Fate
import Outway.Udp.Response

/-!
# Outway.Udp.SendPacket

The two ways of a packet for a domain name.

`processInbound` batches a packet whose name is in the DNS cache, with the target
`cachedTargetForFamily` chooses.  Any other packet goes to a send worker, and
`UdpConnector.SendPacket` tries the resolved addresses one after the other, each on the
preferred socket and then on the fallback socket.

`Association.route` is the socket and the target of the first attempt that can succeed.  Under a
live context a run of `SendPacket` succeeds there (`live_sendToAny`), and the fast path chooses
the same (`sendPacket_agrees_cached`).
-/

namespace Outway

/-! ## Addresses -/

/-- `WithZone`, which an IPv4 address ignores. -/
def Addr.withZone : Addr → String → Addr
  | .v6 a _, zone => .v6 a zone
  | ip, _ => ip

/-- `AddrFromSlice`, with the zero address for a slice of any other length. -/
def addrFromSlice (ip : List UInt8) : Addr :=
  if h4 : ip.length = 4 then addrFrom4 ⟨ip.toArray, h4⟩
  else if h16 : ip.length = 16 then addrFrom16 ⟨ip.toArray, h16⟩
  else .zero

namespace Udp

open Prog
open Socks (Address)

/-- `UDPAddr.AddrPort` -/
def NetUDPAddr.addrPort (addr : NetUDPAddr) : AddrPort :=
  ⟨(addrFromSlice addr.ip).withZone addr.zone, addr.port⟩

/-- The two forms of an address. -/
theorem addrPort_udpAddrFromAddrPort (ap : AddrPort) : (udpAddrFromAddrPort ap).addrPort = ap := by
  obtain ⟨ip, port⟩ := ap
  cases ip with
  | zero => rfl
  | v4 a =>
      have h : addrFromSlice (Addr.v4 a).asSlice = .v4 a := by
        rw [addrFromSlice, dif_pos (by simp [Addr.asSlice])]
        exact addrFrom4_as4 a
      simp only [udpAddrFromAddrPort, NetUDPAddr.addrPort, h, Addr.withZone]
  | v6 a zone =>
      have h : addrFromSlice (Addr.v6 a zone).asSlice = .v6 a "" := by
        rw [addrFromSlice, dif_neg (by simp [Addr.asSlice]), dif_pos (by simp [Addr.asSlice])]
        exact addrFrom16_as16 a
      simp only [udpAddrFromAddrPort, NetUDPAddr.addrPort, h, Addr.withZone, Addr.zone]

/-- The socket address with its address unmapped. -/
def unmapped (ap : AddrPort) : AddrPort := ⟨ap.addr.unmap, ap.port⟩

/-! ## The resolver -/

inductive SendError where
  /-- the error of the caller's context -/
  | context
  /-- an error of the resolver -/
  | lookup (text : String)
  /-- `failed to resolve %s` -/
  | unresolved (host : List UInt8)
  /-- an error of `WriteToUDP` -/
  | write (err : NetError)
  /-- `failed to send packet to any resolved address` -/
  | noAddress

/-- `netip.ParseAddr` and the DNS cache: what it holds, and what a lookup returns.  A lookup
of a name that the cache holds is served from the cache. -/
structure Resolver where
  parseAddr : List UInt8 → Option Addr
  lookupCached : List UInt8 → Option (List Addr)
  lookup : List UInt8 → Except SendError (List Addr)
  lookup_of_cached {host : List UInt8} {addrs : List Addr} (h : lookupCached host = some addrs) :
    lookup host = .ok addrs

namespace Resolver

variable (r : Resolver)

/-- `LookupCachedHost` -/
def lookupCachedHost (host : List UInt8) : Option (List Addr) :=
  match r.parseAddr host with
  | some ip => some [ip]
  | none => r.lookupCached host

/-- `resolveHost` -/
def resolveHost (host : List UInt8) (port : UInt16) : Except SendError (List AddrPort) :=
  match r.parseAddr host with
  | some ip => .ok [⟨ip, port⟩]
  | none =>
      match r.lookup host with
      | .error err => .error err
      | .ok [] => .error (.unresolved host)
      | .ok ips => .ok (ips.map fun ip => ⟨ip, port⟩)

variable {r}

/-- Both ways of resolving a name see the same addresses. -/
theorem resolveHost_of_cached {host : List UInt8} {addrs : List Addr}
    (h : r.lookupCachedHost host = some addrs) (port : UInt16) :
    r.resolveHost host port =
      if addrs = [] then .error (.unresolved host) else .ok (addrs.map fun ip => ⟨ip, port⟩) := by
  unfold lookupCachedHost at h
  unfold resolveHost
  cases hparse : r.parseAddr host with
  | some ip =>
      obtain rfl : [ip] = addrs := by simpa [hparse] using h
      simp
  | none =>
      simp only [hparse] at h
      rw [r.lookup_of_cached h]
      cases addrs with
      | nil => simp
      | cons ip ips => simp

end Resolver

/-! ## SendPacket -/

/-- What `SendPacket` asks of its context and of the sockets. -/
inductive SendOp where
  | ctxErr
  | writeToUDP (s : Sock) (pkt : List UInt8) (addr : NetUDPAddr)

abbrev SendRes : SendOp → Type
  | .ctxErr => Option SendError
  | .writeToUDP _ _ _ => Except SendError Nat

abbrev Send (α : Type) := Prog SendOp SendRes α

def ctxErr : Send (Option SendError) := .step .ctxErr .ret

def trySendTo (pkt : List UInt8) (addr : AddrPort) (s : Sock) : Send (Except SendError Nat) :=
  .step (.writeToUDP s pkt (udpAddrFromAddrPort addr)) .ret

section Outbound

variable (pkt : List UInt8) (preferredOutbound : Sock) (fallbackOutbound : Option Sock)

def sendPacketWithAddr (addr : AddrPort) : Send (Except SendError Nat) := do
  match ← ctxErr with
  | some err => return .error err
  | none =>
      match ← trySendTo pkt addr preferredOutbound with
      | .ok n => return .ok n
      | .error err =>
          match fallbackOutbound with
          | none => return .error err
          | some s => trySendTo pkt addr s

/-- The loop of `SendPacket`, with the error of the previous address. -/
def sendToAny : List AddrPort → Option SendError → Send (Except SendError Nat)
  | [], lastErr => return .error (lastErr.getD .noAddress)
  | addr :: addrs, _ => do
      match ← sendPacketWithAddr pkt preferredOutbound fallbackOutbound addr with
      | .ok n => return .ok n
      | .error err => sendToAny addrs (some err)

/-- `SendPacket`.  The target is a socket address or a host, as in `TargetAddr`. -/
def sendPacket (r : Resolver) (target : Address) : Send (Except SendError Nat) :=
  match target with
  | .socket ap => sendToAny pkt preferredOutbound fallbackOutbound [ap] none
  | .domain host port =>
      match r.resolveHost host port with
      | .error err => return .error err
      | .ok addrs => sendToAny pkt preferredOutbound fallbackOutbound addrs none

end Outbound

/-- `fallbackOutbound`, `nil` without a fallback socket. -/
def Association.fallbackOutbound (a : Association) : Option Sock :=
  a.fallbackV4.map fun _ => .fallback

variable {size : Nat}

/-- The call of `SendPacket` in `runSendJob`, for a job of the association. -/
def Association.send (a : Association) (r : Resolver) (job : SendJob size) :
    Send (Except SendError Nat) :=
  sendPacket job.packet.payload.bytes .preferred a.fallbackOutbound r (.domain job.host job.port)

/-! ## Attempts -/

/-- One call of `WriteToUDP`. -/
structure Attempt where
  sock : Sock
  addr : NetUDPAddr
  result : Except SendError Nat

namespace Attempt

def succeeded (t : Attempt) : Bool := t.result.isOk

/-- The destination, unmapped. -/
def target (t : Attempt) : AddrPort := unmapped t.addr.addrPort

end Attempt

/-- The target of an attempt, unmapped. -/
theorem target_udpAddrFromAddrPort (s : Sock) (ap : AddrPort) (res : Except SendError Nat) :
    Attempt.target ⟨s, udpAddrFromAddrPort ap, res⟩ = unmapped ap := by
  rw [Attempt.target, addrPort_udpAddrFromAddrPort]

abbrev SendEvent : Type := Prog.Event SendOp SendRes

/-- The attempts of a run, in order. -/
def attempts (es : List SendEvent) : List Attempt :=
  es.filterMap fun
    | ⟨.writeToUDP s _ addr, res⟩ => some ⟨s, addr, res⟩
    | ⟨.ctxErr, _⟩ => none

def firstSuccess (es : List SendEvent) : Option Attempt := (attempts es).find? Attempt.succeeded

theorem attempts_append (es es' : List SendEvent) :
    attempts (es ++ es') = attempts es ++ attempts es' := List.filterMap_append

/-- The first success is in the first part, or in the second. -/
theorem firstSuccess_append (es es' : List SendEvent) :
    firstSuccess (es ++ es') = (firstSuccess es).or (firstSuccess es') := by
  rw [firstSuccess, attempts_append, List.find?_append]
  rfl

/-- Whether a socket is an IPv4 socket; `none` for a fallback socket that does not exist. -/
def Association.sockV4 (a : Association) : Sock → Option Bool
  | .inbound => some a.inboundV4
  | .preferred => some a.preferredV4
  | .fallback => a.fallbackV4

/-- A send succeeds exactly if the unmapped family of its destination is that of the socket.
The context may end at any time unless it is `live`. -/
def Association.Sends (a : Association) (live : Prop) : (o : SendOp) → SendRes o → Prop
  | .ctxErr, err => live → err = none
  | .writeToUDP s _ addr, res => res.isOk = true ↔ a.sockV4 s = some addr.addrPort.addr.unmap.is4

/-- The runs of `SendPacket` on the sockets of an association. -/
def Association.sendAct (a : Association) (live : Prop) (es : List SendEvent) (o : SendOp)
    (res : SendRes o) (es' : List SendEvent) : Prop :=
  es' = es ++ [⟨o, res⟩] ∧ a.Sends live o res

section Runs

variable {a : Association} {live : Prop} {pkt : List UInt8} {es : List SendEvent}

/-- A context that is not cancelled has no error. -/
theorem live_ctxErr {Q : Option SendError → List SendEvent → Prop}
    (h : ∀ err, (live → err = none) → Q err (es ++ [⟨.ctxErr, err⟩])) :
    ctxErr.wp (Contract.live (a.sendAct live)) es Q := by
  refine ⟨⟨none, _, rfl, fun _ => rfl⟩, ?_⟩
  rintro err _ ⟨rfl, herr⟩
  exact h err herr

/-- A send, by its result. -/
theorem live_trySendTo {addr : AddrPort} {s : Sock}
    {Q : Except SendError Nat → List SendEvent → Prop}
    (hok : ∀ n, a.sockV4 s = some addr.addr.unmap.is4 →
      Q (.ok n) (es ++ [⟨.writeToUDP s pkt (udpAddrFromAddrPort addr), .ok n⟩]))
    (herror : ∀ err, a.sockV4 s ≠ some addr.addr.unmap.is4 →
      Q (.error err) (es ++ [⟨.writeToUDP s pkt (udpAddrFromAddrPort addr), .error err⟩])) :
    (trySendTo pkt addr s).wp (Contract.live (a.sendAct live)) es Q := by
  constructor
  · by_cases hv4 : a.sockV4 s = some addr.addr.unmap.is4
    · refine ⟨.ok 0, _, rfl, ?_⟩
      simp [Association.Sends, addrPort_udpAddrFromAddrPort, hv4, Except.isOk, Except.toBool]
    · refine ⟨.error (.write .afNoSupport), _, rfl, ?_⟩
      simp [Association.Sends, addrPort_udpAddrFromAddrPort, hv4, Except.isOk, Except.toBool]
  · rintro (err | n) _ ⟨rfl, hres⟩
    all_goals rw [Association.Sends, addrPort_udpAddrFromAddrPort] at hres
    · exact herror err fun hv4 => nomatch hres.mpr hv4
    · exact hok n (hres.mp rfl)

/-! ## The route -/

/-- An outbound socket has the family of the target. -/
def Association.serves (a : Association) (target : AddrPort) : Bool :=
  a.preferredV4 = target.addr.is4 || a.fallbackV4 = some target.addr.is4

/-- The first target with an outbound socket of its family, and that socket. -/
def Association.route (a : Association) (addrs : List AddrPort) : Option (Sock × AddrPort) :=
  ((addrs.map unmapped).find? a.serves).map fun target => (a.sockFor target, target)

/-- What `SendPacket` has done about `addrs`, with the result `res`. -/
structure Outcome (a : Association) (live : Prop) (addrs : List AddrPort) (es : List SendEvent)
    (res : Except SendError Nat) : Prop where
  first (h : live) : (firstSuccess es).map (fun t => (t.sock, t.target)) = a.route addrs
  served (t : Attempt) (ht : t ∈ attempts es) (h : t.succeeded = true) :
    (a.route addrs).isSome = true
  result : res.isOk = (firstSuccess es).isSome

/-- The first address that can be sent to. -/
theorem route_cons (a : Association) (ap : AddrPort) (addrs : List AddrPort) :
    a.route (ap :: addrs) = (a.route [ap]).or (a.route addrs) := by
  cases h : a.serves (unmapped ap) <;> simp [Association.route, h]

/-- The route to one address, with the preferred socket tried first. -/
theorem route_singleton (a : Association) (ap : AddrPort) :
    a.route [ap] =
      if a.preferredV4 = ap.addr.unmap.is4 then some (.preferred, unmapped ap)
      else if a.fallbackV4 = some ap.addr.unmap.is4 then some (.fallback, unmapped ap)
      else none := by
  by_cases hpreferred : a.preferredV4 = ap.addr.unmap.is4
  · simp [Association.route, Association.serves, Association.sockFor, unmapped, hpreferred]
  · by_cases hfallback : a.fallbackV4 = some ap.addr.unmap.is4 <;>
      simp [Association.route, Association.serves, Association.sockFor, unmapped, hpreferred,
        hfallback]

namespace Outcome

variable {addrs : List AddrPort} {ap : AddrPort} {es₁ es₂ : List SendEvent} {t : Attempt} {n : Nat}
  {err : SendError} {res : Except SendError Nat}

/-- A run that succeeds on the route. -/
theorem of_success (hfirst : firstSuccess es = some t)
    (hroute : a.route addrs = some (t.sock, t.target)) : Outcome a live addrs es (.ok n) where
  first _ := by rw [hfirst, hroute, Option.map_some]
  served _ _ _ := by rw [hroute, Option.isSome_some]
  result := by rw [hfirst]; rfl

/-- A run that fails, and with a live context only if there is no route. -/
theorem of_failure (hfirst : firstSuccess es = none) (hroute : live → a.route addrs = none) :
    Outcome a live addrs es (.error err) where
  first h := by rw [hfirst, hroute h, Option.map_none]
  served t ht h := absurd h (List.find?_eq_none.mp hfirst t ht)
  result := by rw [hfirst]; rfl

/-- A call that fails has had no success. -/
theorem firstSuccess_of_error (h : Outcome a live addrs es (.error err)) :
    firstSuccess es = none := by
  rw [← Option.isNone_iff_eq_none, ← Option.not_isSome, ← h.result]
  rfl

/-- The first address has succeeded. -/
theorem cons_ok (h : Outcome a live [ap] es (.ok n)) : Outcome a live (ap :: addrs) es (.ok n) where
  first hlive := by
    obtain ⟨t, ht⟩ : ∃ t, firstSuccess es = some t := Option.isSome_iff_exists.mp h.result.symm
    rw [route_cons, ← h.first hlive, ht, Option.map_some, Option.some_or]
  served t ht hsucceeded := by
    rw [route_cons, Option.isSome_or, h.served t ht hsucceeded, Bool.true_or]
  result := h.result

/-- The first address has failed. -/
theorem cons_error (h₁ : Outcome a live [ap] es₁ (.error err)) (h₂ : Outcome a live addrs es₂ res) :
    Outcome a live (ap :: addrs) (es₁ ++ es₂) res where
  first hlive := by
    rw [route_cons, ← h₁.first hlive, ← h₂.first hlive, firstSuccess_append,
      h₁.firstSuccess_of_error, Option.map_none, Option.none_or, Option.none_or]
  served t ht hsucceeded := by
    rw [route_cons, Option.isSome_or, Bool.or_eq_true]
    rw [attempts_append, List.mem_append] at ht
    exact ht.imp (h₁.served t · hsucceeded) (h₂.served t · hsucceeded)
  result := by rw [firstSuccess_append, h₁.firstSuccess_of_error, Option.none_or, h₂.result]

end Outcome

/-- The outcome of one address, over the cases of `sendPacketWithAddr`. -/
theorem live_sendPacketWithAddr (ap : AddrPort) :
    (sendPacketWithAddr pkt .preferred a.fallbackOutbound ap).wp (Contract.live (a.sendAct live)) es
      fun res es' => ∃ es₁, es' = es ++ es₁ ∧ Outcome a live [ap] es₁ res := by
  refine wp_bind.mpr (live_ctxErr fun err herr => ?_)
  cases err with
  | some err => exact ⟨_, rfl, .of_failure rfl fun hlive => nomatch herr hlive⟩
  | none =>
      refine wp_bind.mpr (live_trySendTo (fun n hv4 => ?_) fun err hv4 => ?_)
      · refine ⟨_, List.append_assoc _ _ _, .of_success rfl ?_⟩
        rw [route_singleton, if_pos (Option.some_inj.mp hv4), target_udpAddrFromAddrPort]
      replace hv4 : a.preferredV4 ≠ ap.addr.unmap.is4 := mt (congrArg some) hv4
      cases hfallback : a.fallbackV4 with
      | none =>
          simp only [Association.fallbackOutbound, hfallback, Option.map_none]
          refine ⟨_, List.append_assoc _ _ _, .of_failure rfl fun _ => ?_⟩
          rw [route_singleton, if_neg hv4, hfallback, if_neg nofun]
      | some v4 =>
          simp only [Association.fallbackOutbound, hfallback, Option.map_some]
          refine live_trySendTo (fun n hv4' => ?_) fun err hv4' => ?_
          all_goals
            rw [Association.sockV4] at hv4'
            rw [List.append_assoc, List.append_assoc]
          · refine ⟨_, rfl, .of_success rfl ?_⟩
            rw [route_singleton, if_neg hv4, if_pos hv4', target_udpAddrFromAddrPort]
          · refine ⟨_, rfl, .of_failure rfl fun _ => ?_⟩
            rw [route_singleton, if_neg hv4, if_neg hv4']

/-- Induction over the addresses: each one that fails leaves the route to the rest. -/
theorem live_sendToAny (addrs : List AddrPort) (lastErr : Option SendError) :
    (sendToAny pkt .preferred a.fallbackOutbound addrs lastErr).wp
      (Contract.live (a.sendAct live)) es
      fun res es' => ∃ es₁, es' = es ++ es₁ ∧ Outcome a live addrs es₁ res := by
  induction addrs generalizing es lastErr with
  | nil => exact ⟨[], (List.append_nil es).symm, .of_failure rfl fun _ => rfl⟩
  | cons ap addrs ih =>
      refine wp_seq (live_sendPacketWithAddr ap) ?_
      rintro (err | n) _ ⟨es₁, rfl, h₁⟩
      · refine wp_mono (ih (some err)) ?_
        rintro res _ ⟨es₂, rfl, h₂⟩
        exact ⟨es₁ ++ es₂, List.append_assoc _ _ _, h₁.cons_error h₂⟩
      · exact ⟨es₁, rfl, h₁.cons_ok⟩

/-- A job for a name that the cache holds by the time it runs. -/
theorem live_send (a : Association) (live : Prop) {r : Resolver} (job : SendJob size)
    {addrs : List Addr} (hlist : r.lookupCachedHost job.host = some addrs) :
    (a.send r job).wp (Contract.live (a.sendAct live)) [] fun res es =>
      Outcome a live (addrs.map fun ip => ⟨ip, job.port⟩) es res := by
  simp only [Association.send, sendPacket, Resolver.resolveHost_of_cached hlist]
  split_ifs with hnil
  · subst hnil
    exact .of_failure rfl fun _ => rfl
  · refine wp_mono (live_sendToAny _ none) ?_
    rintro res _ ⟨es, rfl, h⟩
    exact h

end Runs

/-! ## The fast path -/

/-- The batch of an outbound socket. -/
def Batches.batchOf (b : Batches size) : Sock → List (WritePacket size)
  | .inbound => []
  | .preferred => b.preferredBatch
  | .fallback => b.fallbackBatch

/-- The operations of a relay program return what they like, but for the resolver. -/
def Resolver.act (r : Resolver) (_ : Unit) : (o : Op size) → Res o → Unit → Prop
  | .lookupCachedHost host, cached, _ => cached = r.lookupCachedHost host
  | _, _, _ => True

section Cached

variable {a : Association} {r : Resolver} {b : Batches size} {pkt : InboundPacket size}
  {name : List UInt8} {port : UInt16} {target : AddrPort}

theorem live_cachedTargetForFamily (a : Association) (r : Resolver) (name : List UInt8)
    (port : UInt16) :
    (cachedTargetForFamily name port a.preferredV4 a.fallbackV4 : Relay size _).wp
      (Contract.live r.act) () fun found _ =>
        found = a.servedTarget (r.lookupCachedHost name) port := by
  refine ⟨⟨r.lookupCachedHost name, (), rfl⟩, ?_⟩
  rintro _ _ rfl
  cases r.lookupCachedHost name with
  | none => rfl
  | some addrs => rfl

/-- A packet with a cached target is batched. -/
theorem live_processInbound (rt : Runtime) (b : Batches size)
    (hdst : pkt.dst = .domain name port) (hfrag : pkt.frag = 0)
    (hauth : isAuthorized pkt.src a.srcIP = true)
    (htarget : a.servedTarget (r.lookupCachedHost name) port = some target) :
    (processInbound rt a b pkt).wp (Contract.live r.act) () fun out _ =>
      out = ((b.accept pkt).enqueue a pkt target, true) := by
  simp only [processInbound, hfrag, hauth, hdst, ne_eq, not_true_eq_false, Bool.not_true,
    Bool.false_eq_true, if_false]
  refine wp_bind.mpr ⟨⟨(), (), trivial⟩, fun _ _ _ => ?_⟩
  rw [wp_ret]
  refine wp_seq (live_cachedTargetForFamily a r name port) ?_
  rintro _ _ rfl
  rw [htarget]
  rfl

/-- `enqueue` extends the batch of one socket. -/
theorem batchOf_enqueue (s : Sock) :
    ((b.accept pkt).enqueue a pkt target).batchOf s =
      b.batchOf s ++ if s = a.sockFor target
        then [⟨pkt.payload, pkt.buffer, target, pkt.batchSlot⟩] else [] := by
  unfold Batches.enqueue Association.sockFor
  cases s <;> split_ifs <;> simp_all [Batches.batchOf, Batches.accept]

/-- The fast path takes the route of the slow path. -/
theorem servedTarget_eq_route (a : Association) (addrs : List Addr) (port : UInt16) :
    (a.servedTarget (some addrs) port).map (fun target => (a.sockFor target, target)) =
      a.route (addrs.map fun ip => ⟨ip, port⟩) := by
  simp only [Association.servedTarget, Association.route, Option.bind_some, List.map_map,
    List.find?_map, Option.map_map]
  rfl

end Cached

/-- **Cached and uncached names.**  A packet for a name with the addresses `addrs` is batched for
the target and on the socket of the first attempt of `SendPacket` that succeeds; if
`cachedTargetForFamily` finds no match among them, every attempt fails, even when the context
ends on the way. -/
theorem sendPacket_agrees_cached (rt : Runtime) (a : Association) (r : Resolver) (live : Prop)
    (b : Batches size) (pkt : InboundPacket size) (name : List UInt8) (port : UInt16)
    (addrs : List Addr) (hdst : pkt.dst = .domain name port) (hfrag : pkt.frag = 0)
    (hauth : isAuthorized pkt.src a.srcIP = true)
    (hlist : r.lookupCachedHost name = some addrs) :
    (∃ es res, Exec (a.sendAct live) [] (a.send r (a.job pkt name port)) es res) ∧
    (∃ found, Exec r.act ()
      (cachedTargetForFamily name port a.preferredV4 a.fallbackV4 : Relay size _) () found) ∧
    ∀ es res found, Exec (a.sendAct live) [] (a.send r (a.job pkt name port)) es res →
      Exec r.act ()
        (cachedTargetForFamily name port a.preferredV4 a.fallbackV4 : Relay size _) () found →
      match found with
      | some target => ∃ sock b',
          (∀ out, Exec r.act () (processInbound rt a b pkt) () out ↔ out = (b', true)) ∧
          (∀ s, b'.batchOf s = b.batchOf s ++ if s = sock
            then [⟨pkt.payload, pkt.buffer, target, pkt.batchSlot⟩] else []) ∧
          (live → ∃ t, firstSuccess es = some t ∧ t.sock = sock ∧ t.target = target)
      | none => ∀ t ∈ attempts es, t.succeeded = false := by
  have hsend := live_send a live (a.job pkt name port) hlist
  have hcached := @live_cachedTargetForFamily size a r name port
  obtain ⟨es₀, res₀, hexec₀, -⟩ := exists_exec hsend
  obtain ⟨_, found₀, hfound₀, -⟩ := exists_exec hcached
  refine ⟨⟨es₀, res₀, hexec₀⟩, ⟨found₀, hfound₀⟩, ?_⟩
  intro es res found hexec hfound
  have houtcome := wp_exec hsend hexec
  have hserved := wp_exec hcached hfound
  have hroute := servedTarget_eq_route a addrs port
  rw [← hlist, ← hserved] at hroute
  cases found with
  | some target =>
      have hinbound := live_processInbound rt b hdst hfrag hauth hserved.symm
      refine ⟨a.sockFor target, _, fun out => ⟨wp_exec hinbound, ?_⟩, batchOf_enqueue, ?_⟩
      · rintro rfl
        obtain ⟨_, out, hout, rfl⟩ := exists_exec hinbound
        exact hout
      · intro hlive
        have hfirst := (houtcome.first hlive).trans hroute.symm
        simpa using hfirst
  | none =>
      intro t ht
      cases hsucceeded : t.succeeded with
      | false => rfl
      | true =>
          have hsome := houtcome.served t ht hsucceeded
          rw [Association.job, ← hroute] at hsome
          cases hsome

/-- The answer `::ffff:1.2.3.4` reaches `1.2.3.4` although the preferred socket is an IPv6 one. -/
theorem sendPacket_agrees_cached_mapped :
    let a : Association := ⟨0, 1, .v4 0x7f000001, true, false, some true, fun _ => false⟩
    let addrs : List Addr := [.v6 0xffff01020304 ""]
    let r : Resolver := ⟨fun _ => none, fun _ => some addrs, fun _ => .ok addrs, by simp⟩
    let pkt : InboundPacket 0 :=
      ⟨⟨none, [7]⟩, ⟨0, [], rfl⟩, 0, .domain [97] 53, ⟨.v4 0x7f000001, 9⟩, false⟩
    ∃ es res t b', Exec (a.sendAct True) [] (a.send r (a.job pkt [97] 53)) es res ∧
      firstSuccess es = some t ∧ t.target = ⟨.v4 0x01020304, 53⟩ ∧
      Exec r.act () (processInbound batchRuntime a ⟨[], [], 0, 0, false⟩ pkt) () (b', true) ∧
      b'.batchOf t.sock = [⟨pkt.payload, pkt.buffer, ⟨.v4 0x01020304, 53⟩, false⟩] := by
  intro a addrs r pkt
  obtain ⟨⟨es, res, hexec⟩, ⟨found, hfound⟩, hagrees⟩ :=
    sendPacket_agrees_cached batchRuntime a r True ⟨[], [], 0, 0, false⟩ pkt [97] 53 addrs rfl rfl
      (by decide) rfl
  obtain rfl : found = some ⟨.v4 0x01020304, 53⟩ :=
    (wp_exec (live_cachedTargetForFamily a r [97] 53) hfound).trans (by decide)
  obtain ⟨sock, b', hinbound, hbatch, hfirst⟩ := hagrees es res _ hexec hfound
  obtain ⟨t, ht, rfl, htarget⟩ := hfirst trivial
  refine ⟨es, res, t, b', hexec, ht, htarget, (hinbound _).mpr rfl, ?_⟩
  rw [hbatch, if_pos rfl]
  cases t.sock <;> rfl

end Udp

end Outway
