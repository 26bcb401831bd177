import Outway.Connect.Source
import Outway.Server.Tunnel

/-!
# Outway.Server.Commands

The three SOCKS5 commands after the negotiation: what is replied, in which order with the
sockets they need, and when the control connection is closed.

A handler's run is the list of what it does that a client can tell, or has to rely on.
The environment answers each of its operations; writes succeed, no address of a reply fails
to encode, and the server is not shutting down.

`Truthful` is what a client expects of the replies.  `truthful_accept_iff` says for which
requests and answers it gets that: an unknown command is closed without a reply, and UDP
ASSOCIATE replies before it has its outbound sockets.  `acceptor_accept` says that its CONNECT
is the one whose tunnels `Outway.Server.Tunnel` follows.
-/

namespace Outway

/-- `SocketAddr`: the address to listen on for BIND. -/
def TcpConnector.socketAddr (t : TcpConnector) (rnd : RandDraws)
    (defaultFn : Except ConnectError Addr) : Except ConnectError AddrPort :=
  match t.inner.cidr with
  | some cidr => .ok ⟨assignSourceIP rnd cidr t.inner.cidrRange t.extension, 0⟩
  | none =>
      match t.inner.fallback.filter fun fb => !fb.isInterface with
      | some fb => .ok ⟨fb.address, 0⟩
      | none => defaultFn.map (⟨·, 0⟩)

end Outway

namespace Outway.Server

open ReadSource Reader Socks

/-! ## The handlers -/

/-- What a handler does. -/
inductive Act where
  /-- a reply is written to the client -/
  | reply (resp : Response)
  /-- a connection could not be made or accepted, or a socket not be created -/
  | noSocket
  /-- data is relayed -/
  | relay
  /-- the control connection is closed -/
  | close

/-- The answers of the environment. -/
structure Environment where
  /-- `connector.Connect` -/
  connect : Address → Extension → Bool
  /-- the address of `client.LocalAddr()`, the zero address when it has none -/
  localAddr : Addr
  /-- `net.ListenTCP`, with the address of the listener -/
  listenTCP : Addr → Option AddrPort
  /-- `AcceptTCP`, with the address of the peer -/
  acceptTCP : Option AddrPort
  /-- `runtime.beginAssociation` -/
  beginAssociation : Bool
  /-- `net.ListenUDP` for the inbound socket, with its address -/
  listenUDP : Addr → Option AddrPort
  rnd : RandDraws
  /-- the kernel's answer to a listen call for an outbound socket -/
  listenOutbound : UdpSocket → Option ConnectError

namespace Environment

variable (env : Environment)

/-- The address that a handler listens on by default. -/
def localIP : Addr := if env.localAddr.isValid then env.localAddr else .ipv4Unspecified

/-- `MarshalTo` of a reply without an address. -/
def refuse (reply : Socks.Reply) : Act := .reply ⟨reply, .unspecified⟩

def handleConnect (address : Address) (extension : Extension) : List Act :=
  if env.connect address extension then [refuse .succeeded, .relay, .close]
  else [.noSocket, refuse .hostUnreachable, .close]

def handleBind (connector : TcpConnector) : List Act :=
  match connector.socketAddr env.rnd (.ok env.localIP) with
  | .error _ => [refuse .generalFailure, .close]
  | .ok listenIP =>
      match env.listenTCP listenIP.addr with
      | none => [.noSocket, refuse .generalFailure, .close]
      | some bndAddr =>
          .reply ⟨.succeeded, .socket bndAddr⟩ ::
            match env.acceptTCP with
            | none => [.noSocket, refuse .generalFailure, .close]
            | some outboundAddr => [.reply ⟨.succeeded, .socket outboundAddr⟩, .relay, .close]

/-- `handleUDP`, up to the relaying of packets. -/
def handleUDP (connector : UdpConnector) : List Act :=
  if env.beginAssociation then
    match env.listenUDP env.localIP with
    | none => [.noSocket, refuse .generalFailure, .close]
    | some listenAddr =>
        .reply ⟨.succeeded, .socket listenAddr⟩ ::
          match connector.createSocketDualStack env.rnd env.listenOutbound with
          | .error _ => [.noSocket, .close]
          | .ok _ => [.relay, .close]
  else [refuse .connectionNotAllowed]

end Environment

/-- `Socks5Acceptor`: the clock, the adaptor and the connector. -/
structure CommandServer where
  now : BitVec 64
  auth : AuthAdaptor
  connector : Connector

namespace CommandServer

variable (c : CommandServer) (env : Environment)

/-- The dispatch of `handle`. -/
def dispatch (command : Command) (address : Address) (extension : Extension) : List Act :=
  match command with
  | .udpAssociate => env.handleUDP ⟨c.connector, extension⟩
  | .connect => env.handleConnect address extension
  | .bind => env.handleBind ⟨c.connector, extension⟩

/-- `Accept` after the negotiation; it closes the connection in the end. -/
def accept {S : Type} [ReadSource S UInt8] (stream : S) : List Act :=
  match (handle c.now c.auth (⟨[], stream⟩ : BufReader S)).outcome with
  | .dispatch command address extension _ => c.dispatch env command address extension ++ [.close]
  | .rejected _ => [.close]

end CommandServer

/-! ## What a client expects -/

/-- What happens until the control connection is closed. -/
def untilClose : List Act → List Act
  | [] => []
  | .close :: _ => []
  | a :: rest => a :: untilClose rest

/-- The replies among the acts. -/
def repliesOf (acts : List Act) : List Response :=
  acts.filterMap fun
    | .reply resp => some resp
    | _ => none

/-- The replies to a request are complete and truthful: there is one before the connection
is closed; an unknown command is answered as such; and a success is not replied to CONNECT or
UDP ASSOCIATE when something they need could not be created. -/
@[mk_iff]
structure Truthful (command : UInt8) (acts : List Act) : Prop where
  replied : repliesOf (untilClose acts) ≠ []
  unsupported : command ∉ [0x01, 0x02, 0x03] →
    (repliesOf (untilClose acts)).head?.map Response.reply = some .commandNotSupported
  succeeded : command = 0x01 ∨ command = 0x03 →
    (∃ resp ∈ repliesOf acts, resp.reply = .succeeded) → Act.noSocket ∉ acts

/-! ## The handlers, one by one -/

section Handlers

variable {env : Environment}

/-- CONNECT always replies, and with success only when it has a connection. -/
theorem truthful_handleConnect (address : Address) (extension : Extension) :
    Truthful 0x01 (env.handleConnect address extension ++ [.close]) := by
  unfold Environment.handleConnect
  split_ifs <;> constructor <;> simp [untilClose, repliesOf, Environment.refuse]

/-- BIND always replies. -/
theorem truthful_handleBind (connector : TcpConnector) :
    Truthful 0x02 (env.handleBind connector ++ [.close]) := by
  unfold Environment.handleBind
  split
  · constructor <;> simp [untilClose, repliesOf, Environment.refuse]
  · split
    · constructor <;> simp [untilClose, repliesOf, Environment.refuse]
    · split <;> constructor <;> simp [untilClose, repliesOf, Environment.refuse]

/-- UDP ASSOCIATE is truthful unless the outbound sockets cannot be created when the reply is
out. -/
theorem truthful_handleUDP_iff (connector : UdpConnector) :
    Truthful 0x03 (env.handleUDP connector ++ [.close]) ↔
      ¬ (env.beginAssociation = true ∧ (env.listenUDP env.localIP).isSome ∧
        ∃ err, connector.createSocketDualStack env.rnd env.listenOutbound = .error err) := by
  unfold Environment.handleUDP
  cases hbegin : env.beginAssociation with
  | false => simp [truthful_iff, untilClose, repliesOf, Environment.refuse]
  | true =>
    cases hlisten : env.listenUDP env.localIP with
    | none => simp [truthful_iff, untilClose, repliesOf, Environment.refuse]
    | some listenAddr =>
      cases hcreate : connector.createSocketDualStack env.rnd env.listenOutbound with
      | error err => simp [truthful_iff, untilClose, repliesOf]
      | ok sockets => simp [truthful_iff, untilClose, repliesOf]

end Handlers

/-! ## The server -/

namespace CommandServer

/-- A client that is let in with `extension` and sends a complete request, of any command:
its stream. -/
def Requested (c : CommandServer) (bytes : List UInt8) (command : UInt8) (address : Address)
    (extension : Extension) : Prop :=
  ∃ hello methods login rsv addr rest, MethodsMessage hello methods ∧ c.auth.method ∈ methods ∧
    c.auth.Login c.now login extension ∧ WireAddress addr address ∧
      bytes = hello ++ login ++ ([version5, command, rsv] ++ addr) ++ rest

section Accept

variable {S : Type} [ReadSource S UInt8] {c : CommandServer} {env : Environment} {stream : S}
  {command : UInt8} {address : Address} {extension : Extension}

/-- A request that was understood is dispatched, and the connection is closed. -/
theorem accept_of_dispatch {cmd : Command} {rest : List UInt8}
    (h : (handle c.now c.auth (pending stream)).outcome = .dispatch cmd address extension rest) :
    c.accept env stream = c.dispatch env cmd address extension ++ [.close] := by
  rw [handle_stream] at h
  unfold accept
  cases houtcome : (handle c.now c.auth (⟨[], stream⟩ : BufReader S)).outcome with
  | rejected err =>
      rw [houtcome] at h
      cases h
  | dispatch cmd' address' extension' br =>
      rw [houtcome] at h
      cases h
      rfl

/-- All others are closed without a reply. -/
theorem accept_of_rejected
    (h : ∀ cmd a e rest, (handle c.now c.auth (pending stream)).outcome ≠ .dispatch cmd a e rest) :
    c.accept env stream = [.close] := by
  rw [handle_stream] at h
  unfold accept
  cases houtcome : (handle c.now c.auth (⟨[], stream⟩ : BufReader S)).outcome with
  | rejected err => rfl
  | dispatch cmd a e br => exact absurd (by rw [houtcome]; rfl) (h cmd a e (pending br))

/-- A known command is dispatched. -/
theorem accept_of_requested {cmd : Command}
    (h : c.Requested (pending stream) cmd.byte address extension) :
    c.accept env stream = c.dispatch env cmd address extension ++ [.close] := by
  obtain ⟨hello, methods, login, rsv, addr, rest, hhello, hoffer, hlogin, haddr, hs⟩ := h
  have hreq : RequestMessage ([version5, cmd.byte, rsv] ++ addr) ⟨cmd, address⟩ :=
    ⟨rsv, addr, haddr, rfl⟩
  exact accept_of_dispatch
    (dispatch_iff.mpr ⟨hello, methods, login, _, hhello, hoffer, hlogin, hreq, hs⟩)

/-- A request whose command byte is of no command is closed without a reply: `ReadRequest`
fails before the dispatch sees it. -/
theorem accept_of_unknown (h : c.Requested (pending stream) command address extension)
    (hcmd : ∀ cmd : Command, command ≠ cmd.byte) : c.accept env stream = [.close] := by
  obtain ⟨hello, methods, login, rsv, addr, rest, hhello, hoffer, hlogin, haddr, hs⟩ := h
  rw [List.append_assoc] at hs
  have hauth := authenticate_eq_ok_iff.mpr ⟨hello, methods, login, hhello, hoffer, hlogin, hs⟩
  refine accept_of_rejected fun cmd a e rest' hdispatch => ?_
  obtain ⟨mid, hauth', hread⟩ := handle_outcome_iff.mp hdispatch
  cases hauth.symm.trans hauth'
  obtain ⟨msg, ⟨rsv', addr', -, rfl⟩, hmid⟩ := (exact_readRequest _ _ _).mp hread
  simp only [List.cons_append, List.nil_append, List.cons.injEq] at hmid
  exact hcmd cmd hmid.2.1

/-- The bytes 1 to 3 are commands. -/
theorem byte_of_mem (h : command ∈ [0x01, 0x02, 0x03]) : ∃ cmd : Command, command = cmd.byte := by
  simp only [List.mem_cons, List.not_mem_nil, or_false] at h
  rcases h with rfl | rfl | rfl
  · exact ⟨.connect, rfl⟩
  · exact ⟨.bind, rfl⟩
  · exact ⟨.udpAssociate, rfl⟩

theorem byte_mem (cmd : Command) : cmd.byte ∈ [0x01, 0x02, 0x03] := by
  cases cmd <;> decide

/-- The outbound sockets of an association cannot be created, and its reply is out. -/
def Abandons (c : CommandServer) (env : Environment) (extension : Extension) : Prop :=
  env.beginAssociation = true ∧ (env.listenUDP env.localIP).isSome ∧
    ∃ err, (UdpConnector.mk c.connector extension).createSocketDualStack env.rnd
      env.listenOutbound =
      .error err

/-- The replies are complete and truthful for the three commands, whatever the environment
answers, except for an association whose outbound sockets cannot be created after the
inbound one. -/
theorem truthful_accept_iff (h : c.Requested (pending stream) command address extension) :
    Truthful command (c.accept env stream) ↔
      command ∈ [0x01, 0x02, 0x03] ∧ ¬ (command = 0x03 ∧ c.Abandons env extension) := by
  by_cases hmem : command ∈ [0x01, 0x02, 0x03]
  · obtain ⟨cmd, rfl⟩ := byte_of_mem hmem
    rw [accept_of_requested h, and_iff_right hmem]
    cases cmd with
    | connect =>
        have hne : Command.connect.byte ≠ 0x03 := by decide
        exact iff_of_true (truthful_handleConnect address extension) fun h => hne h.1
    | bind =>
        have hne : Command.bind.byte ≠ 0x03 := by decide
        exact iff_of_true (truthful_handleBind _) fun h => hne h.1
    | udpAssociate =>
        have heq : Command.udpAssociate.byte = 0x03 := rfl
        rw [heq, and_iff_right rfl]
        exact truthful_handleUDP_iff _
  · have hcmd : ∀ cmd : Command, command ≠ cmd.byte := by
      rintro cmd rfl
      exact hmem (byte_mem cmd)
    rw [accept_of_unknown h hcmd]
    exact iff_of_false (fun htruth => htruth.replied rfl) fun h => hmem h.1

end Accept

/-! ### The tunnels of CONNECT

`Acceptor` is the same server as far as tunnels go: it writes the replies of the acts, and has
a tunnel if data is relayed. -/

/-- The server of the tunnels, with the dialling of the environment. -/
def acceptor (c : CommandServer) (env : Environment) : Acceptor := ⟨c.now, c.auth, env.connect⟩

/-- The bytes of the replies. -/
def repliesBytes (acts : List Act) : List UInt8 := (repliesOf acts).flatMap (·.marshalTo.1)

/-- The CONNECT of the tunnels sends these replies and opens its tunnel with these. -/
theorem acceptor_handleConnect {S : Type} [ReadSource S UInt8] (c : CommandServer)
    (env : Environment) (room fuel : Nat) (br : BufReader S) (address : Address)
    (extension : Extension) :
    ((c.acceptor env).handleConnect room fuel br address extension).1 =
        repliesBytes (env.handleConnect address extension) ∧
      (((c.acceptor env).handleConnect room fuel br address extension).2.isSome ↔
        Act.relay ∈ env.handleConnect address extension) := by
  unfold Acceptor.handleConnect Environment.handleConnect acceptor
  split_ifs <;> simp [repliesBytes, repliesOf, Environment.refuse]

/-- On a negotiation for CONNECT the two servers agree. -/
theorem acceptor_accept {S : Type} [ReadSource S UInt8] (c : CommandServer) (env : Environment)
    (room fuel : Nat) {stream : S} {address : Address} {extension : Extension}
    {br : BufReader S}
    (h : (handle c.now c.auth (⟨[], stream⟩ : BufReader S)).outcome =
      .dispatch .connect address extension br) :
    ((c.acceptor env).accept room fuel stream).1 =
        (handle c.now c.auth (⟨[], stream⟩ : BufReader S)).written ++
          repliesBytes (c.accept env stream) ∧
      (((c.acceptor env).accept room fuel stream).2.isSome ↔
        Act.relay ∈ c.accept env stream) := by
  obtain ⟨hreply, htunnel⟩ := acceptor_handleConnect c env room fuel br address extension
  have haccept : c.accept env stream = env.handleConnect address extension ++ [.close] := by
    simp only [accept, h, dispatch]
  have hbytes : repliesBytes (env.handleConnect address extension ++ [.close]) =
      repliesBytes (env.handleConnect address extension) := by
    simp [repliesBytes, repliesOf]
  rw [haccept, hbytes, ← hreply, List.mem_append, ← htunnel]
  unfold Acceptor.accept
  generalize hhandled : handle c.now c.auth (⟨[], stream⟩ : BufReader S) = handled at h
  obtain ⟨written, outcome⟩ := handled
  cases h
  have hhandled' : handle (c.acceptor env).now (c.acceptor env).auth (⟨[], stream⟩ : BufReader S) =
      ⟨written, .dispatch .connect address extension br⟩ := hhandled
  simp [hhandled']

/-! ### Runs -/

/-- A server without authentication that listens on the system's default addresses. -/
def unconfigured : CommandServer := ⟨0, .none, ⟨none, none, none⟩⟩

/-- Everything succeeds, except the outbound sockets that `listenOutbound` refuses. -/
def granting (listenOutbound : UdpSocket → Option ConnectError) : Environment where
  connect _ _ := true
  localAddr := .ipv4Unspecified
  listenTCP addr := some ⟨addr, 1080⟩
  acceptTCP := some ⟨.ipv4Unspecified, 80⟩
  beginAssociation := true
  listenUDP addr := some ⟨addr, 1080⟩
  rnd := ⟨0, 0, 0⟩
  listenOutbound := listenOutbound

/-- A client asks for `command` and `0.0.0.0:0`, all in one segment. -/
def asking (command : UInt8) : Arrivals UInt8 :=
  ⟨[[5, 1, 0, 5, command, 0, 1, 0, 0, 0, 0, 0, 0]], by simp⟩

/-- The client asks for the command without authentication. -/
theorem requested_asking (command : UInt8) :
    unconfigured.Requested (pending (asking command)) command .unspecified .noExt :=
  ⟨[5, 1, 0], [0], [], 0, [1, 0, 0, 0, 0, 0, 0], [], ⟨by decide, rfl⟩, by decide, ⟨rfl, rfl⟩,
    .ipv4 (Vector.replicate 4 0) 0 0, rfl⟩

theorem truthful_accept_associate :
    unconfigured.Requested (pending (asking 0x03)) 0x03 .unspecified .noExt ∧
      Truthful 0x03 (unconfigured.accept (granting fun _ => none) (asking 0x03)) := by
  refine ⟨requested_asking 0x03, (truthful_accept_iff (requested_asking 0x03)).mpr ⟨by decide, ?_⟩⟩
  rintro ⟨-, -, -, err, herr⟩
  cases herr

/-- Command 9 gets no reply; and an association is replied to with success although no
outbound socket can be created for it. -/
theorem not_truthful_accept :
    (unconfigured.Requested (pending (asking 0x09)) 0x09 .unspecified .noExt ∧
      ¬ Truthful 0x09 (unconfigured.accept (granting fun _ => none) (asking 0x09))) ∧
    unconfigured.Requested (pending (asking 0x03)) 0x03 .unspecified .noExt ∧
      ¬ Truthful 0x03 (unconfigured.accept
        (granting fun _ => some (.external "too many open files")) (asking 0x03)) := by
  refine ⟨⟨requested_asking 0x09, ?_⟩, requested_asking 0x03, ?_⟩
  · have hcmd : ∀ cmd : Command, 0x09 ≠ cmd.byte := by
      intro cmd
      cases cmd <;> decide
    rw [accept_of_unknown (requested_asking 0x09) hcmd]
    exact fun htruth => htruth.replied rfl
  · have hrequested : unconfigured.Requested (pending (asking 0x03)) Command.udpAssociate.byte
        .unspecified .noExt := requested_asking 0x03
    rw [accept_of_requested hrequested, dispatch, truthful_handleUDP_iff, not_not]
    exact ⟨rfl, rfl, _, rfl⟩

end CommandServer

end Outway.Server
