import Outway.Netip

/-!
# Outway.Config

The boot configuration and its validation.

`BootArgs.validate` is the gate every configuration passes before a server
starts; the rest of the development takes its facts about sizes and ranges from
`BootArgs.accepted_of_validate`.  Fields no modelled function reads (log level, bind
address, timers) are left out.
-/

namespace Outway

/-- `AuthMode`: optional basic credentials, as byte strings. -/
structure AuthMode where
  username : List UInt8
  password : List UInt8

/-- `Fallback`: a local address or an interface name; the interface wins. -/
structure Fallback where
  address : Addr
  interface : String
  deriving DecidableEq

def Fallback.isInterface (f : Fallback) : Bool := f.interface ≠ ""

def defaultUDPMaxPacketSize : Int := 65507

def defaultUDPBatchSize : Int := 32

def defaultUDPBatchBufferBudget : Int := 1024

def defaultUDPSendQueueSize : Int := 4096

/-- `UDPConfig`: Go `int` fields are `Int`, since the flags accept negative
numbers and `validate` rejects them. -/
structure UDPConfig where
  maxPacketSize : Int
  batchSize : Int
  batchBufferBudget : Int
  sendQueueSize : Int
  sendWorkers : Int
  socketBufferBytes : Int
  maxAssociations : UInt32
  gso : Bool
  gro : Bool

/-- The part of `BootArgs` that `validate` reads. -/
structure BootArgs where
  concurrent : UInt32
  workers : Int
  cidr : Option Prefix
  cidrRange : Option UInt8
  connectTimeout : UInt64
  udp : UDPConfig
  auth : AuthMode
  tlsCert : String
  tlsKey : String

/-- The rejections of `validate`, in the order it checks. -/
inductive ConfigError where
  | concurrent
  | connectTimeout
  | workers
  | maxPacketSize
  | batchSize
  | batchBufferBudget
  | sendQueueSize
  | sendWorkers
  | socketBuffer
  | maxAssociations
  | credentials
  | tlsPair
  | rangeWithoutCidr
  | cidrRange (lo hi : Nat) (cidr : String)
  deriving DecidableEq

/-- The error texts. -/
def ConfigError.message : ConfigError → String
  | .concurrent => "concurrent connection limit must be greater than zero"
  | .connectTimeout => "connect timeout must be greater than zero"
  | .workers => "workers must not be negative"
  | .maxPacketSize => "UDP maximum packet size must be between 512 and 65535"
  | .batchSize => "UDP batch size must be between 1 and 1024"
  | .batchBufferBudget => "UDP batch buffer budget must not be negative"
  | .sendQueueSize => "UDP send queue size must be greater than zero"
  | .sendWorkers => "UDP send workers must be between 0 and 4096"
  | .socketBuffer =>
      "UDP socket buffer must be 0 (system default) or between 4096 and 1073741824 bytes"
  | .maxAssociations => "UDP association limit must not exceed concurrent connection limit"
  | .credentials => "username and password must be configured together"
  | .tlsPair => "TLS certificate and key must be configured together"
  | .rangeWithoutCidr => "CIDR range requires a CIDR"
  | .cidrRange lo hi cidr => s!"CIDR range must be between {lo} and {hi} for {cidr}"

/-- A range `validate` accepts for a prefix: at least the prefix length and at
most the address length. -/
def Prefix.acceptsRange (cidr : Prefix) (r : UInt8) : Prop :=
  cidr.bits ≤ r.toNat ∧ r.toNat ≤ cidr.addr.bitLen

instance (cidr : Prefix) (r : UInt8) : Decidable (cidr.acceptsRange r) :=
  inferInstanceAs (Decidable (_ ∧ _))

/-- One check of `validate`: reject with `e` when `c` holds. -/
def rejectIf (c : Prop) [Decidable c] (e : ConfigError) : Except ConfigError Unit :=
  if c then throw e else pure ()

/-- A check passes when its condition does not hold. -/
theorem rejectIf_eq_ok {c : Prop} [Decidable c] {e : ConfigError} :
    rejectIf c e = .ok () ↔ ¬ c := by
  by_cases hc : c <;> simp [rejectIf, hc, throw, throwThe, MonadExceptOf.throw, pure, Except.pure]

/-- A list of checks passes when all of them do. -/
theorem rejectIf_bind_eq_ok {c : Prop} [Decidable c] {e : ConfigError}
    {rest : Except ConfigError Unit} :
    (rejectIf c e >>= fun _ => rest) = .ok () ↔ ¬ c ∧ rest = .ok () := by
  by_cases hc : c
  · simp [rejectIf, hc, throw, throwThe, MonadExceptOf.throw, bind, Except.bind]
  · simp [rejectIf, hc, bind, Except.bind, pure, Except.pure]

namespace BootArgs

/-- `Validate` checks cross-field constraints.  `showPrefix` is
`netip.Prefix.String`, used in one error text only. -/
def validate (showPrefix : Prefix → String) (a : BootArgs) : Except ConfigError Unit := do
  rejectIf (a.concurrent = 0) .concurrent
  rejectIf (a.connectTimeout = 0) .connectTimeout
  rejectIf (a.workers < 0) .workers
  rejectIf (a.udp.maxPacketSize < 512 ∨ a.udp.maxPacketSize > 65535) .maxPacketSize
  rejectIf (a.udp.batchSize < 1 ∨ a.udp.batchSize > 1024) .batchSize
  rejectIf (a.udp.batchBufferBudget < 0) .batchBufferBudget
  rejectIf (a.udp.sendQueueSize < 1) .sendQueueSize
  rejectIf (a.udp.sendWorkers < 0 ∨ a.udp.sendWorkers > 4096) .sendWorkers
  rejectIf (a.udp.socketBufferBytes ≠ 0 ∧
    (a.udp.socketBufferBytes < 4096 ∨ a.udp.socketBufferBytes > 2 ^ 30)) .socketBuffer
  rejectIf (a.udp.maxAssociations > a.concurrent) .maxAssociations
  rejectIf ((a.auth.username = []) ≠ (a.auth.password = [])) .credentials
  rejectIf ((a.tlsCert = "") ≠ (a.tlsKey = "")) .tlsPair
  match a.cidrRange, a.cidr with
  | none, _ => pure ()
  | some _, none => throw .rangeWithoutCidr
  | some r, some cidr =>
      rejectIf (¬ cidr.acceptsRange r)
        (.cidrRange cidr.bits cidr.addr.bitLen (showPrefix cidr))

/-- What an accepted configuration guarantees to the code that runs on it. -/
structure Accepted (a : BootArgs) : Prop where
  maxPacketSize : 512 ≤ a.udp.maxPacketSize ∧ a.udp.maxPacketSize ≤ 65535
  batchSize : 1 ≤ a.udp.batchSize ∧ a.udp.batchSize ≤ 1024
  batchBufferBudget : 0 ≤ a.udp.batchBufferBudget
  sendQueueSize : 1 ≤ a.udp.sendQueueSize
  sendWorkers : 0 ≤ a.udp.sendWorkers ∧ a.udp.sendWorkers ≤ 4096
  credentials : a.auth.username = [] ↔ a.auth.password = []
  cidrRange : ∀ r, a.cidrRange = some r → ∃ cidr, a.cidr = some cidr ∧ cidr.acceptsRange r

/-- What `Validate` lets through is within the limits it checks. -/
theorem accepted_of_validate {showPrefix : Prefix → String} {a : BootArgs}
    (h : a.validate showPrefix = .ok ()) : a.Accepted := by
  simp only [validate, rejectIf_bind_eq_ok] at h
  obtain ⟨-, -, -, hmax, hbatch, hbudget, hqueue, hworkers, -, -, hcred, -, hrange⟩ := h
  refine ⟨by omega, by omega, by omega, by omega, by omega, ?_, ?_⟩
  · exact iff_of_eq (not_not.mp hcred)
  · intro r hr
    cases hc : a.cidr with
    | none => simp [hr, hc, throw, throwThe, MonadExceptOf.throw] at hrange
    | some cidr =>
        simp only [hr, hc, rejectIf_eq_ok, not_not] at hrange
        exact ⟨cidr, rfl, hrange⟩

end BootArgs

end Outway
