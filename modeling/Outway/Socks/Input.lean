import Outway.Socks.Handshake

/-!
# Outway.Socks.Input

The negotiation on any reader.

The readers of the protocol only ask their input for full reads.  On an input
whose full reads are those of the bytes it has pending, each of them therefore
does what it does on these bytes, and so does the whole negotiation
(`handle_follows`).
-/

namespace Outway.Socks

open Reader

/-- The outcome in terms of what the input has left. -/
def Outcome.map {S T : Type} (f : S → T) : Outcome S → Outcome T
  | .dispatch command address extension rest => .dispatch command address extension (f rest)
  | .rejected e => .rejected e

theorem follows_parseCommand {S : Type} {pending : S → List UInt8} (b : UInt8) :
    Follows pending (parseCommand b : Wire S Command) (parseCommand b) :=
  .ite (follows_pure _) (.ite (follows_pure _) (.ite (follows_pure _) (follows_fail _)))

section Follows

variable {S : Type} [WireInput S] {pending : S → List UInt8}
  (hfull : ∀ n, Follows pending (readFull n : Wire S (Vector UInt8 n)) (readFull n))

include hfull

/-- A byte of a connection is a byte of its stream. -/
theorem follows_readU8 : Follows pending (readU8 : Wire S UInt8) readU8 :=
  (hfull 1).bind fun _ => follows_pure _

/-- So is an address, however its bytes arrive. -/
theorem follows_readAddress : Follows pending (readAddress : Wire S Address) readAddress := by
  refine (follows_readU8 hfull).bind fun atyp => ?_
  refine .ite ((hfull 6).bind fun _ => follows_pure _) (.ite ?_ (.ite ?_ (follows_fail _)))
  · exact (follows_readU8 hfull).bind fun ln => (hfull _).bind fun _ => follows_pure _
  · exact (hfull 18).bind fun _ => follows_pure _

/-- So is a greeting. -/
theorem follows_readMethods : Follows pending (readMethods : Wire S (List Method)) readMethods :=
  (follows_readU8 hfull).bind fun _ => (follows_check _ _).bind fun _ =>
    (follows_readU8 hfull).bind fun _ => (hfull _).bind fun _ => follows_pure _

/-- So is a login. -/
theorem follows_readUsernamePassword :
    Follows pending (readUsernamePassword : Wire S UsernamePassword) readUsernamePassword :=
  (follows_readU8 hfull).bind fun _ => (follows_check _ _).bind fun _ =>
    (follows_readU8 hfull).bind fun _ => (hfull _).bind fun _ => (hfull _).bind fun _ =>
      follows_pure _

/-- So is a request. -/
theorem follows_readRequest : Follows pending (readRequest : Wire S Request) readRequest :=
  (follows_readU8 hfull).bind fun _ => (follows_check _ _).bind fun _ => (hfull 2).bind fun _ =>
    (follows_parseCommand _).bind fun _ => (follows_readAddress hfull).bind fun _ =>
      follows_pure _

/-- The result of a step of the negotiation, in terms of what the input has left. -/
theorem execute_follows (now : BitVec 64) (auth : AuthAdaptor) (s : S) :
    Prod.map id (Except.map fun p => (p.1, pending p.2)) (auth.execute now s) =
      auth.execute now (pending s) := by
  cases auth with
  | none => rfl
  | password user pass =>
      simp only [AuthAdaptor.execute, AuthAdaptor.executePassword]
      rw [← follows_readUsernamePassword hfull s]
      cases readUsernamePassword s with
      | error e => rfl
      | ok p =>
          simp only [Except.map]
          split_ifs <;> rfl

/-- Authentication sees only the stream. -/
theorem authenticate_follows (now : BitVec 64) (auth : AuthAdaptor) (s : S) :
    Prod.map id (Except.map fun p => (p.1, pending p.2)) (authenticate now auth s) =
      authenticate now auth (pending s) := by
  unfold authenticate
  rw [← follows_readMethods hfull s]
  cases readMethods s with
  | error e => rfl
  | ok p =>
      simp only [Except.map]
      split_ifs
      · rw [← execute_follows hfull now auth p.2]
        rfl
      · rfl

/-- The negotiation writes and decides what it does on the pending bytes, and leaves the
input with what is left of them. -/
theorem handle_follows (now : BitVec 64) (auth : AuthAdaptor) (s : S) :
    handle now auth (pending s) =
      ⟨(handle now auth s).written, (handle now auth s).outcome.map pending⟩ := by
  unfold handle
  rw [← authenticate_follows hfull now auth s]
  obtain ⟨written, result⟩ := authenticate now auth s
  cases result with
  | error e => rfl
  | ok p =>
      simp only [Prod.map, Except.map]
      rw [← follows_readRequest hfull p.2]
      cases readRequest p.2 with
      | error e => rfl
      | ok q => rfl

end Follows

end Outway.Socks
