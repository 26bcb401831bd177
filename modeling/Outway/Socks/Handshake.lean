import Outway.Config
import Outway.Ext
import Outway.Socks.Address

/-!
# Outway.Socks.Handshake

From the first byte of a SOCKS5 client to command dispatch: method selection, the
username/password sub-negotiation and the request, read back to back from one
buffered reader, with the replies in between.

`handle` returns the bytes it has written and either the command it dispatches or
the error it gave up with; dispatch is the only way to an outbound dial, a bind or
a UDP association.  Each of the three message readers is shown `Exact` for its
message format, and the formats are then chained.
-/

namespace Outway.Socks

open Reader

variable {S : Type} [WireInput S]

/-! ## Method selection -/

/-- `Method`: an authentication method byte; `MethodFromByte` keeps every byte. -/
abbrev Method := UInt8

def methodNoAuth : Method := 0x00

def methodPassword : Method := 0x02

def methodNoAcceptableMethods : Method := 0xff

/-- `handshake.ReadRequest`: the methods the client offers. -/
def readMethods : Wire S (List Method) := do
  let ver ← readU8
  checkVersion ver
  let nmethods ← readU8
  let buf ← readFull nmethods.toNat
  return buf.toList

/-! ## Username and password -/

def subnegotiationVersion : UInt8 := 0x01

def statusSucceeded : UInt8 := 0x00

def statusFailed : UInt8 := 0xff

/-- `password.UsernamePassword`. -/
structure UsernamePassword where
  username : List UInt8
  password : List UInt8
  deriving DecidableEq

/-- `password.ReadRequest`; the password length is read together with the username. -/
def readUsernamePassword : Wire S UsernamePassword := do
  let ver ← readU8
  Reader.check (ver = subnegotiationVersion) (.subnegotiationVersion ver)
  let ulen ← readU8
  let buf ← readFull (ulen.toNat + 1)
  let plen := buf[ulen.toNat]
  let pwd ← readFull plen.toNat
  return ⟨buf.toList.take ulen.toNat, pwd.toList⟩

/-- `password.Request.MarshalTo`; the lengths are not checked. -/
def UsernamePassword.marshalTo (login : UsernamePassword) : List UInt8 :=
  [subnegotiationVersion, UInt8.ofNat login.username.length] ++ login.username ++
    [UInt8.ofNat login.password.length] ++ login.password

/-- `AuthAdaptor`. -/
inductive AuthAdaptor where
  | none
  | password (username password : List UInt8)

namespace AuthAdaptor

def method : AuthAdaptor → Method
  | .none => methodNoAuth
  | .password _ _ => methodPassword

/-- `executePassword`: the reply written, and the extension with the unread bytes. -/
def executePassword (now : BitVec 64) (username password : List UInt8) (s : S) :
    List UInt8 × Except ProtoError (Extension × S) :=
  match readUsernamePassword s with
  | .error e => ([], .error e)
  | .ok (req, rest) =>
      if username <+: req.username ∧ req.password = password then
        ([subnegotiationVersion, statusSucceeded], .ok (tryFrom now username req.username, rest))
      else ([subnegotiationVersion, statusFailed], .error .credentials)

def execute (now : BitVec 64) (auth : AuthAdaptor) (s : S) :
    List UInt8 × Except ProtoError (Extension × S) :=
  match auth with
  | .none => ([], .ok (.noExt, s))
  | .password user pass => executePassword now user pass s

end AuthAdaptor

/-- `Authenticate`: method selection and the sub-negotiation. -/
def authenticate (now : BitVec 64) (auth : AuthAdaptor) (s : S) :
    List UInt8 × Except ProtoError (Extension × S) :=
  match readMethods s with
  | .error e => ([], .error e)
  | .ok (methods, rest) =>
      if auth.method ∈ methods then
        let (reply, result) := auth.execute now rest
        ([version5, auth.method] ++ reply, result)
      else ([version5, methodNoAcceptableMethods], .error .noAcceptableMethods)

/-! ## The request -/

/-- `Command`. -/
inductive Command where
  | connect
  | bind
  | udpAssociate
  deriving DecidableEq

def Command.byte : Command → UInt8
  | .connect => 0x01
  | .bind => 0x02
  | .udpAssociate => 0x03

def parseCommand (b : UInt8) : Wire S Command :=
  if b = 0x01 then pure .connect
  else if b = 0x02 then pure .bind
  else if b = 0x03 then pure .udpAssociate
  else Reader.fail (.commandCode b)

/-- `Request`. -/
structure Request where
  command : Command
  address : Address

def readRequest : Wire S Request := do
  let ver ← readU8
  checkVersion ver
  let buf ← readFull 2
  let cmd ← parseCommand buf[0]
  let addr ← readAddress
  return ⟨cmd, addr⟩

/-- `Request.MarshalTo` writes its first bytes before the address is encoded. -/
def Request.marshalTo (req : Request) : List UInt8 × Option ProtoError :=
  let (addr, err) := req.address.marshalTo
  ([version5, req.command.byte, 0x00] ++ addr, err)

/-! ## Replies -/

/-- `Reply`. -/
inductive Reply where
  | succeeded
  | generalFailure
  | connectionNotAllowed
  | networkUnreachable
  | hostUnreachable
  | connectionRefused
  | ttlExpired
  | commandNotSupported
  | addressTypeNotSupported
  deriving DecidableEq

def Reply.byte : Reply → UInt8
  | .succeeded => 0x00
  | .generalFailure => 0x01
  | .connectionNotAllowed => 0x02
  | .networkUnreachable => 0x03
  | .hostUnreachable => 0x04
  | .connectionRefused => 0x05
  | .ttlExpired => 0x06
  | .commandNotSupported => 0x07
  | .addressTypeNotSupported => 0x08

/-- `Response`. -/
structure Response where
  reply : Reply
  address : Address

/-- `Response.MarshalTo`: one write, and none when the address cannot be encoded. -/
def Response.marshalTo (resp : Response) : List UInt8 × Option ProtoError :=
  match resp.address.appendTo [version5, resp.reply.byte, 0x00] with
  | .error e => ([], some e)
  | .ok b => (b, none)

/-! ## The connection handler -/

/-- How `handle` leaves the negotiation.  `parseCommand` rejects every other
command byte, so the `default` case of the dispatch is never taken. -/
inductive Outcome (S : Type) where
  /-- the handler of the command runs, with what the reader has left -/
  | dispatch (command : Command) (address : Address) (extension : Extension) (rest : S)
  | rejected (e : ProtoError)
  deriving DecidableEq

structure Handled (S : Type) where
  written : List UInt8
  outcome : Outcome S

/-- `handle` on a client that sends `input`, every reply write succeeding and no
deadline expiring. -/
def handle (now : BitVec 64) (auth : AuthAdaptor) (input : S) : Handled S :=
  match authenticate now auth input with
  | (written, .error e) => ⟨written, .rejected e⟩
  | (written, .ok (extension, rest)) =>
      match readRequest rest with
      | .error e => ⟨written, .rejected e⟩
      | .ok (req, rest) => ⟨written, .dispatch req.command req.address extension rest⟩

/-! ## The message formats -/

/-- A method-selection message: version 5, the number of methods, the methods. -/
def MethodsMessage (msg : List UInt8) (methods : List Method) : Prop :=
  methods.length < 256 ∧ msg = [version5, UInt8.ofNat methods.length] ++ methods

/-- A sub-negotiation message: version 1, then username and password, each after
its length. -/
def LoginMessage (msg : List UInt8) (login : UsernamePassword) : Prop :=
  login.username.length < 256 ∧ login.password.length < 256 ∧
    msg = [subnegotiationVersion, UInt8.ofNat login.username.length] ++ login.username ++
      [UInt8.ofNat login.password.length] ++ login.password

/-- A request: version 5, the command byte, any reserved byte, the address. -/
def RequestMessage (msg : List UInt8) (req : Request) : Prop :=
  ∃ rsv addr, WireAddress addr req.address ∧ msg = [version5, req.command.byte, rsv] ++ addr

/-- A vector that continues a field of `n` bytes, as a list. -/
theorem toList_eq_append_last {n : Nat} (v : Vector UInt8 (n + 1)) :
    v.toList = v.toList.take n ++ [v[n]] := by
  apply List.ext_getElem
  · simp
  · intro i h₁ h₂
    have hi : i < n + 1 := by simpa using h₁
    rw [List.getElem_append]
    split_ifs with hlt
    · simp
    · obtain rfl : i = n := by
        have hlen : (v.toList.take n).length = n := by simp
        omega
      simp

theorem toNat_ofNat_length {l : List UInt8} (h : l.length < 256) :
    (UInt8.ofNat l.length).toNat = l.length := by
  rw [UInt8.toNat_ofNat', Nat.mod_eq_of_lt h]

/-- A field of known length, read whole. -/
theorem exact_readField (n : UInt8) :
    Exact (readFull n.toNat >>= fun buf => pure buf.toList)
      fun msg field => msg = field ∧ field.length < 256 ∧ n = UInt8.ofNat field.length := by
  refine ((exact_readFull _ _ n.toNat).map _).congr ?_
  intro msg field
  constructor
  · rintro ⟨v, rfl, rfl⟩
    have hlen : v.toList.length = n.toNat := Vector.length_toList
    exact ⟨rfl, by rw [hlen]; exact n.toNat_lt, by rw [hlen, UInt8.ofNat_toNat]⟩
  · rintro ⟨rfl, hlen, rfl⟩
    exact ⟨⟨msg.toArray, (toNat_ofNat_length hlen).symm⟩, rfl, rfl⟩

/-- The greeting: a version, a number and as many methods. -/
theorem exact_readMethods : Exact readMethods MethodsMessage := by
  refine (exact_readU8.bind fun ver => (exact_check (ProtoError.version ver)).bind fun _ =>
    exact_readU8.bind fun n => exact_readField n).congr ?_
  intro msg methods
  constructor
  · rintro ⟨m₁, m₂, ver, rfl, ⟨m₃, m₄, -, ⟨rfl, rfl⟩, ⟨m₅, m₆, n, rfl, ⟨rfl, hlen, rfl⟩, rfl⟩,
      rfl⟩, rfl⟩
    exact ⟨hlen, rfl⟩
  · rintro ⟨hlen, rfl⟩
    exact ⟨[version5], _, _, rfl, ⟨[], _, (), ⟨rfl, rfl⟩,
      ⟨[UInt8.ofNat methods.length], methods, _, rfl, ⟨rfl, hlen, rfl⟩, rfl⟩, rfl⟩, rfl⟩

/-- The sub-negotiation: its version and two fields with their lengths. -/
theorem exact_readUsernamePassword : Exact readUsernamePassword LoginMessage := by
  refine (exact_readU8.bind fun ver => (exact_check (ProtoError.subnegotiationVersion ver)).bind
    fun _ => exact_readU8.bind fun ulen => (exact_readFull _ _ (ulen.toNat + 1)).bind fun buf =>
      (exact_readFull _ _ buf[ulen.toNat].toNat).map _).congr ?_
  intro msg login
  constructor
  · rintro ⟨m₁, m₂, ver, rfl, ⟨m₃, m₄, -, ⟨rfl, rfl⟩, ⟨m₅, m₆, ulen, rfl,
      ⟨m₇, m₈, buf, rfl, ⟨pwd, rfl, rfl⟩, rfl⟩, rfl⟩, rfl⟩, rfl⟩
    have hu : (buf.toList.take ulen.toNat).length = ulen.toNat := by simp
    have hp : pwd.toList.length = buf[ulen.toNat].toNat := Vector.length_toList
    refine ⟨by simp only [hu]; exact ulen.toNat_lt, by simp only [hp]; exact UInt8.toNat_lt _, ?_⟩
    simp only [hu, hp, UInt8.ofNat_toNat]
    conv_lhs => rw [toList_eq_append_last buf]
    simp
  · rintro ⟨hu, hp, rfl⟩
    obtain ⟨user, pass⟩ := login
    have hun := toNat_ofNat_length hu
    obtain ⟨v, hv⟩ : ∃ v : Vector UInt8 ((UInt8.ofNat user.length).toNat + 1),
        v.toList = user ++ [UInt8.ofNat pass.length] :=
      ⟨⟨(user ++ [UInt8.ofNat pass.length]).toArray, by simp [hun]⟩, rfl⟩
    obtain ⟨htake, hlast⟩ := List.append_inj ((toList_eq_append_last v).symm.trans hv)
      (by simp [hun])
    have hlast : v[(UInt8.ofNat user.length).toNat] = UInt8.ofNat pass.length :=
      List.singleton_inj.mp hlast
    obtain ⟨w, hw⟩ : ∃ w : Vector UInt8 v[(UInt8.ofNat user.length).toNat].toNat, w.toList = pass :=
      ⟨⟨pass.toArray, by rw [hlast, toNat_ofNat_length hp]; rfl⟩, rfl⟩
    refine ⟨[subnegotiationVersion], _, _, rfl,
      ⟨[], _, (), ⟨rfl, rfl⟩, ⟨[UInt8.ofNat user.length], _, _,
      rfl, ⟨v.toList, w.toList, v, rfl, ⟨w, rfl, ?_⟩, rfl⟩, rfl⟩, rfl⟩, ?_⟩
    · rw [htake, hw]
    · rw [hv, hw]
      simp

/-- A command is one of three bytes. -/
theorem exact_parseCommand (b : UInt8) :
    Exact (parseCommand b) fun (msg : List UInt8) cmd => msg = [] ∧ b = cmd.byte := by
  refine (Exact.ite (fun _ => exact_pure Command.connect) fun _ =>
    Exact.ite (fun _ => exact_pure Command.bind) fun _ =>
      Exact.ite (fun _ => exact_pure Command.udpAssociate) fun _ =>
        exact_fail (ProtoError.commandCode b)).congr ?_
  intro msg cmd
  constructor
  · rintro (⟨hb, rfl, rfl⟩ | ⟨-, ⟨hb, rfl, rfl⟩ | ⟨-, ⟨hb, rfl, rfl⟩ | ⟨-, hfalse⟩⟩⟩)
    · exact ⟨rfl, hb⟩
    · exact ⟨rfl, hb⟩
    · exact ⟨rfl, hb⟩
    · exact hfalse.elim
  · rintro ⟨rfl, rfl⟩
    cases cmd with
    | connect => exact .inl ⟨rfl, rfl, rfl⟩
    | bind => exact .inr ⟨by decide, .inl ⟨rfl, rfl, rfl⟩⟩
    | udpAssociate => exact .inr ⟨by decide, .inr ⟨by decide, .inl ⟨rfl, rfl, rfl⟩⟩⟩

/-- The request: version, command, a reserved byte and an address. -/
theorem exact_readRequest : Exact readRequest RequestMessage := by
  refine (exact_readU8.bind fun ver => (exact_check (ProtoError.version ver)).bind fun _ =>
    (exact_readFull _ _ 2).bind fun buf => (exact_parseCommand buf[0]).bind fun cmd =>
      exact_readAddress.map _).congr ?_
  intro msg req
  constructor
  · rintro ⟨m₁, m₂, ver, rfl, ⟨m₃, m₄, -, ⟨rfl, rfl⟩, ⟨m₅, m₆, buf, rfl,
      ⟨m₇, m₈, cmd, ⟨rfl, hcmd⟩, ⟨addr, haddr, rfl⟩, rfl⟩, rfl⟩, rfl⟩, rfl⟩
    have hbuf : buf.toList = [cmd.byte, buf[1]] := by
      rw [toList_eq_append_last buf, ← hcmd]
      simp [List.take_one, List.head?_eq_getElem?]
    exact ⟨buf[1], m₆, haddr, by simp [hbuf]⟩
  · rintro ⟨rsv, addr, haddr, rfl⟩
    exact ⟨[version5], _, _, rfl, ⟨[], _, (), ⟨rfl, rfl⟩, ⟨[req.command.byte, rsv], addr,
      #v[req.command.byte, rsv], rfl, ⟨[], addr, req.command, ⟨rfl, rfl⟩, ⟨req.address, haddr, rfl⟩,
        rfl⟩, rfl⟩, rfl⟩, rfl⟩

/-! ## Dispatch -/

namespace AuthAdaptor

/-- What a client has to send between method selection and request, and the
extension it then gets. -/
def Login (now : BitVec 64) (auth : AuthAdaptor) (msg : List UInt8) (e : Extension) : Prop :=
  match auth with
  | .none => msg = [] ∧ e = .noExt
  | .password user pass => ∃ login, LoginMessage msg login ∧ user <+: login.username ∧
      login.password = pass ∧ e = tryFrom now user login.username

/-- The reply to a successful login. -/
def loginReply : AuthAdaptor → List UInt8
  | .none => []
  | .password _ _ => [subnegotiationVersion, statusSucceeded]

/-- The adaptor lets in whom its credentials fit. -/
theorem execute_eq_ok_iff {now : BitVec 64} {auth : AuthAdaptor} {s rest : List UInt8}
    {e : Extension} :
    (auth.execute now s).2 = .ok (e, rest) ↔ ∃ msg, auth.Login now msg e ∧ s = msg ++ rest := by
  cases auth with
  | none =>
      simp only [execute, Login]
      constructor
      · intro h
        cases h
        exact ⟨[], ⟨rfl, rfl⟩, rfl⟩
      · rintro ⟨msg, ⟨rfl, rfl⟩, rfl⟩
        rfl
  | password user pass =>
      simp only [execute, executePassword, Login]
      constructor
      · intro h
        cases hread : readUsernamePassword s with
        | error err => simp [hread] at h
        | ok r =>
            obtain ⟨login, mid⟩ := r
            simp only [hread] at h
            split_ifs at h with hok
            cases h
            obtain ⟨msg, hmsg, hs⟩ := (exact_readUsernamePassword s login rest).mp hread
            exact ⟨msg, ⟨login, hmsg, hok.1, hok.2, rfl⟩, hs⟩
      · rintro ⟨msg, ⟨login, hmsg, huser, hpass, rfl⟩, hs⟩
        have hread := (exact_readUsernamePassword s login rest).mpr ⟨msg, hmsg, hs⟩
        simp only [hread]
        rw [if_pos ⟨huser, hpass⟩]

/-- And tells so. -/
theorem execute_reply {now : BitVec 64} {auth : AuthAdaptor} {s rest : List UInt8} {e : Extension}
    (h : (auth.execute now s).2 = .ok (e, rest)) : (auth.execute now s).1 = auth.loginReply := by
  cases auth with
  | none => rfl
  | password user pass =>
      simp only [execute, executePassword] at h ⊢
      cases hread : readUsernamePassword s with
      | error err => simp [hread] at h
      | ok r =>
          simp only [hread] at h ⊢
          split_ifs at h with hok
          rw [if_pos hok]
          rfl

end AuthAdaptor

/-- The stream opens with a method-selection message that offers the adaptor's
method, followed by its login. -/
theorem authenticate_eq_ok_iff {now : BitVec 64} {auth : AuthAdaptor} {s rest : List UInt8}
    {e : Extension} :
    (authenticate now auth s).2 = .ok (e, rest) ↔ ∃ hello methods login,
      MethodsMessage hello methods ∧ auth.method ∈ methods ∧ auth.Login now login e ∧
        s = hello ++ login ++ rest := by
  unfold authenticate
  constructor
  · intro h
    cases hread : readMethods s with
    | error err => simp [hread] at h
    | ok r =>
        obtain ⟨methods, mid⟩ := r
        simp only [hread] at h
        split_ifs at h with hoffer
        obtain ⟨hello, hhello, hs⟩ := (exact_readMethods s methods mid).mp hread
        obtain ⟨login, hlogin, hmid⟩ := AuthAdaptor.execute_eq_ok_iff.mp h
        exact ⟨hello, methods, login, hhello, hoffer, hlogin, by rw [hs, hmid, List.append_assoc]⟩
  · rintro ⟨hello, methods, login, hhello, hoffer, hlogin, hs⟩
    have hread := (exact_readMethods s methods (login ++ rest)).mpr
      ⟨hello, hhello, by rw [hs, List.append_assoc]⟩
    simp only [hread]
    rw [if_pos hoffer]
    exact AuthAdaptor.execute_eq_ok_iff.mpr ⟨login, hlogin, rfl⟩

/-- Who is let in was told the method first. -/
theorem authenticate_written {now : BitVec 64} {auth : AuthAdaptor} {s rest : List UInt8}
    {e : Extension} (h : (authenticate now auth s).2 = .ok (e, rest)) :
    (authenticate now auth s).1 = [version5, auth.method] ++ auth.loginReply := by
  unfold authenticate at h ⊢
  cases hread : readMethods s with
  | error err => simp [hread] at h
  | ok r =>
      simp only [hread] at h ⊢
      split_ifs at h with hoffer
      rw [if_pos hoffer]
      exact congrArg ([version5, auth.method] ++ ·) (AuthAdaptor.execute_reply h)

/-- A request is dispatched behind a greeting, a login and a request. -/
theorem handle_outcome_iff {now : BitVec 64} {auth : AuthAdaptor} {s rest : List UInt8}
    {cmd : Command} {addr : Address} {e : Extension} :
    (handle now auth s).outcome = .dispatch cmd addr e rest ↔
      ∃ mid, (authenticate now auth s).2 = .ok (e, mid) ∧
        readRequest mid = .ok (⟨cmd, addr⟩, rest) := by
  unfold handle
  obtain ⟨written, result⟩ := authenticate now auth s
  cases result with
  | error err => simp
  | ok r =>
      obtain ⟨e', mid⟩ := r
      cases hread : readRequest mid with
      | error err =>
          simp only [hread, Except.ok.injEq, Prod.mk.injEq]
          constructor
          · intro h
            cases h
          · rintro ⟨mid', ⟨rfl, rfl⟩, h⟩
            rw [hread] at h
            cases h
      | ok q =>
          obtain ⟨⟨cmd', addr'⟩, rest'⟩ := q
          simp only [hread]
          constructor
          · intro h
            cases h
            exact ⟨mid, rfl, hread⟩
          · rintro ⟨mid', h, hread'⟩
            cases h
            rw [hread] at hread'
            cases hread'
            rfl

theorem handle_written (now : BitVec 64) (auth : AuthAdaptor) (s : List UInt8) :
    (handle now auth s).written = (authenticate now auth s).1 := by
  unfold handle
  obtain ⟨written, result⟩ := authenticate now auth s
  cases result with
  | error err => rfl
  | ok r =>
      simp only
      cases readRequest r.2 with
      | error err => rfl
      | ok q => rfl

/-- Dispatch, for either adaptor: the three messages one after the other. -/
theorem dispatch_iff {now : BitVec 64} {auth : AuthAdaptor} {s rest : List UInt8}
    {cmd : Command} {addr : Address} {e : Extension} :
    (handle now auth s).outcome = .dispatch cmd addr e rest ↔
      ∃ hello methods login req, MethodsMessage hello methods ∧ auth.method ∈ methods ∧
        auth.Login now login e ∧ RequestMessage req ⟨cmd, addr⟩ ∧
          s = hello ++ login ++ req ++ rest := by
  rw [handle_outcome_iff]
  constructor
  · rintro ⟨mid, hauth, hread⟩
    obtain ⟨hello, methods, login, hhello, hoffer, hlogin, hs⟩ := authenticate_eq_ok_iff.mp hauth
    obtain ⟨req, hreq, hmid⟩ := (exact_readRequest mid ⟨cmd, addr⟩ rest).mp hread
    exact ⟨hello, methods, login, req, hhello, hoffer, hlogin, hreq,
      by rw [hs, hmid, List.append_assoc _ req]⟩
  · rintro ⟨hello, methods, login, req, hhello, hoffer, hlogin, hreq, hs⟩
    refine ⟨req ++ rest, authenticate_eq_ok_iff.mpr
      ⟨hello, methods, login, hhello, hoffer, hlogin, ?_⟩,
      (exact_readRequest _ ⟨cmd, addr⟩ rest).mpr ⟨req, hreq, rfl⟩⟩
    rw [hs, List.append_assoc _ req]

/-- What the client has been sent by then. -/
theorem written_of_dispatch {now : BitVec 64} {auth : AuthAdaptor} {s rest : List UInt8}
    {cmd : Command} {addr : Address} {e : Extension}
    (h : (handle now auth s).outcome = .dispatch cmd addr e rest) :
    (handle now auth s).written = [version5, auth.method] ++ auth.loginReply := by
  obtain ⟨mid, hauth, -⟩ := handle_outcome_iff.mp h
  rw [handle_written, authenticate_written hauth]

/-- The negotiation reaches dispatch for exactly the streams that open with a
method-selection message offering the server's method, the login the server asks
for and a request for that command and address; nothing is read beyond the
request, and the bytes written by then are exactly the replies of success. -/
theorem handle_dispatch_iff (now : BitVec 64) (input : List UInt8) (cmd : Command) (addr : Address)
    (e : Extension) (rest : List UInt8) :
    (∀ U P : List UInt8,
      ((handle now (.password U P) input).outcome = .dispatch cmd addr e rest ↔
        ∃ hello methods login creds req, MethodsMessage hello methods ∧ 0x02 ∈ methods ∧
          LoginMessage login creds ∧ U <+: creds.username ∧ creds.password = P ∧
          e = tryFrom now U creds.username ∧ RequestMessage req ⟨cmd, addr⟩ ∧
          input = hello ++ login ++ req ++ rest) ∧
      ((handle now (.password U P) input).outcome = .dispatch cmd addr e rest →
        (handle now (.password U P) input).written = [0x05, 0x02, 0x01, 0x00])) ∧
    ((handle now .none input).outcome = .dispatch cmd addr e rest ↔
      ∃ hello methods req, MethodsMessage hello methods ∧ 0x00 ∈ methods ∧ e = .noExt ∧
        RequestMessage req ⟨cmd, addr⟩ ∧ input = hello ++ req ++ rest) ∧
    ((handle now .none input).outcome = .dispatch cmd addr e rest →
      (handle now .none input).written = [0x05, 0x00]) := by
  refine ⟨fun U P => ⟨?_, written_of_dispatch⟩, ?_, written_of_dispatch⟩
  · rw [dispatch_iff]
    constructor
    · rintro ⟨hello, methods, login, req, hhello, hoffer, ⟨creds, hlogin, hU, hP, he⟩, hreq, hs⟩
      exact ⟨hello, methods, login, creds, req, hhello, hoffer, hlogin, hU, hP, he, hreq, hs⟩
    · rintro ⟨hello, methods, login, creds, req, hhello, hoffer, hlogin, hU, hP, he, hreq, hs⟩
      exact ⟨hello, methods, login, req, hhello, hoffer, ⟨creds, hlogin, hU, hP, he⟩, hreq, hs⟩
  · rw [dispatch_iff]
    constructor
    · rintro ⟨hello, methods, login, req, hhello, hoffer, ⟨rfl, he⟩, hreq, hs⟩
      exact ⟨hello, methods, req, hhello, hoffer, he, hreq, by rwa [List.append_nil] at hs⟩
    · rintro ⟨hello, methods, req, hhello, hoffer, he, hreq, hs⟩
      exact ⟨hello, methods, [], req, hhello, hoffer, ⟨rfl, he⟩, hreq, by rwa [List.append_nil]⟩

/-- A client of `user` that logs in as `user-x` and asks for a connection to
`1.2.3.4:80` gets it. -/
example : (handle 0 (.password [117] [112]) ([5, 1, 2] ++ [1, 3, 117, 45, 120, 1, 112] ++
      [5, 1, 0, 1, 1, 2, 3, 4, 0, 80] : List UInt8)).outcome =
    .dispatch .connect (.socket ⟨.v4 0x01020304#32, 80⟩) .noExt [] := by decide

end Outway.Socks
