import Outway.Http.Headers
import Outway.Http.Target
import Outway.Lib.Interp
import Outway.Lib.Monitor

/-!
# Outway.Http.Session

A client's connection to the HTTP proxy, from the handshake to its close.

The connection carries requests one after the other; `Proxy` authenticates each of them by
its own header, opens a tunnel or forwards it, and says whether the connection is kept.
The HTTP server and the auto-detecting server have a request loop of their own, over plain
connections and over TLS.

What is not followed: the bytes of bodies and tunnels, and the errors of calls whose result
the code drops.
-/

namespace Outway.Http.Session

open Prog

/-! ## Requests -/

/-- `*url.URL`, as far as the proxy reads it. -/
structure Url where
  scheme : List UInt8
  host : List UInt8
  /-- what is passed on as it is -/
  path : List UInt8
  deriving DecidableEq

/-- `IsAbs`. -/
def Url.isAbs (u : Url) : Bool := u.scheme ≠ []

/-- `*http.Request`. -/
structure Request where
  method : List UInt8
  url : Url
  host : List UInt8
  requestURI : List UInt8
  header : Header
  /-- `ProtoMajor` and `ProtoMinor` -/
  proto : Nat × Nat
  close : Bool

/-- `*http.Response`. -/
structure Response where
  header : Header
  proto : Nat × Nat
  close : Bool

/-- `ProtoAtLeast`. -/
def protoAtLeast (proto : Nat × Nat) (major minor : Nat) : Bool :=
  proto.1 > major || (proto.1 == major && proto.2 ≥ minor)

/-- `http.MethodConnect`. -/
def methodConnect : List UInt8 := bytes "CONNECT"

def httpScheme : List UInt8 := bytes "http"

def proxyAuthorization : List UInt8 := bytes "Proxy-Authorization"

/-- `Authenticator`. -/
inductive Authenticator where
  | noAuth
  | passwordAuth (username password : List UInt8)

/-- `Handler`; the connector and the transports are behind its operations. -/
structure Handler where
  auth : Authenticator
  base64 : Base64

namespace Handler

variable (h : Handler)

/-- `Authenticate`, at the time `now`. -/
def authenticate (now : BitVec 64) (header : Header) : Except AuthError Extension :=
  match h.auth with
  | .noAuth => .ok .noExt
  | .passwordAuth username password =>
      authenticatePassword h.base64 now username password (header.get proxyAuthorization)

end Handler

/-- `target` of `handleConnect`. -/
def connectTarget (req : Request) : List UInt8 :=
  if req.url.host = [] then req.host else req.url.host

/-- `outURL` of `forwardRequest`. -/
def outURL (req : Request) : Url :=
  if req.url.isAbs then req.url
  else { req.url with
    host := if req.host = [] then req.url.host else req.host
    scheme := httpScheme }

/-- `outReq` of `forwardRequest`. -/
def outRequest (req : Request) : Request :=
  { req with
    url := outURL req
    requestURI := []
    header := removeHopHeaders req.header }

/-- The response as it is passed on. -/
def Response.stripped (resp : Response) : Response :=
  { resp with header := removeHopHeaders resp.header }

/-- Whether the connection is kept after a forwarded request. -/
def keepAlive (req : Request) (resp : Response) : Bool :=
  protoAtLeast req.proto 1 1 && protoAtLeast resp.proto 1 1 && !req.close && !resp.close

/-- The status of a refused request; no error takes the last branch. -/
def authStatus (err : AuthError) : Nat :=
  if err = .proxyAuthRequired then 407
  else if err = .forbidden then 403
  else 500

/-- An answer of the proxy itself. -/
structure Answer where
  status : Nat
  header : List (String × String)
  body : String
  deriving DecidableEq

/-- `resp` of `writeResponse`. -/
def response (status : Nat) (body : String) : Answer where
  status := status
  header :=
    (if status = 407 then [("Proxy-Authenticate", "Basic realm=\"Proxy\"")] else []) ++
      (if body ≠ "" then [("Content-Length", toString body.utf8ByteSize)] else [])
  body := body

/-- `connectEstablishedResponse`, rendered once by `writeResponse`. -/
def connectEstablishedResponse : Answer := response 200 ""

/-- The body of the answer to a CONNECT request without a proper target. -/
def badTarget : String := "CONNECT must be to a socket address"

/-! ## Operations -/

/-- What is taken from a pool. -/
inductive Pooled where
  | reader
  | writer
  deriving DecidableEq

/-- What a session does. -/
inductive Op where
  | acquire (p : Pooled)
  | release (p : Pooled)
  /-- `s.tlsGate.AcquireUntil` -/
  | acquireGate
  | releaseGate
  | handshake
  /-- `conn.SetDeadline`: in `timeout`, or none -/
  | setDeadline (on : Bool)
  /-- `SetReadDeadline` -/
  | setReadDeadline (on : Bool)
  /-- `br.Peek(1)` -/
  | peek
  /-- `Accept` of the SOCKS5 acceptor, which closes the connection when it is done -/
  | socksAccept
  | readRequest
  /-- the time, of which `ext.TryFrom` makes the number of a TTL period -/
  | clock
  /-- `connector.TCP(extension).Connect` -/
  | dial (host : List UInt8) (port : UInt16) (extension : Extension)
  /-- an answer of the proxy is written and flushed -/
  | respond (answer : Answer)
  /-- `br.Buffered()` -/
  | buffered
  /-- `io.CopyN(outbound, br, n)` -/
  | copyBuffered (n : Nat)
  /-- `CopyBidirectionalContext` -/
  | tunnel
  | closeWriteOutbound
  | closeOutbound
  | closeWriteClient
  /-- `h.transports.Get(extension).RoundTrip` -/
  | roundTrip (extension : Extension) (out : Request)
  /-- `resp.Write(bw)` -/
  | relay (resp : Response)
  | flush
  /-- `resp.Body.Close()` -/
  | closeBody
  /-- `stream.Close()` -/
  | close

/-- What an operation returns; `none` and `false` are errors. -/
@[reducible] def Res : Op → Type
  | .acquireGate => Bool
  | .handshake => Bool
  | .peek => Option UInt8
  | .readRequest => Option Request
  | .clock => BitVec 64
  | .dial _ _ _ => Bool
  | .buffered => Nat
  | .copyBuffered _ => Bool
  | .roundTrip _ _ => Option Response
  | .relay _ => Bool
  | _ => Unit

abbrev Event : Type := Prog.Event Op Res

/-- The code of a session. -/
abbrev Proc (α : Type) : Type := Prog Op Res α

/-- Perform one operation. -/
def op (o : Op) : Proc (Res o) := .step o .ret

def writeResponse (status : Nat) (body : String) : Proc Unit := op (.respond (response status body))

/-! ## One request -/

/-- `handleConnect`: whether the connection is kept, and whether there was an error. -/
def handleConnect (req : Request) (extension : Extension) : Proc (Bool × Bool) := do
  let target := connectTarget req
  if target = [] then
    writeResponse 400 badTarget
    return (false, false)
  else
    match splitHostPort target with
    | .error _ =>
        writeResponse 400 badTarget
        return (false, false)
    | .ok (host, port) =>
        if ← op (.dial host port extension) then
          op (.respond connectEstablishedResponse)
          let n ← op .buffered
          let forwarded ← if n > 0 then op (.copyBuffered n) else pure true
          if forwarded then
            op .tunnel
            op .closeWriteOutbound
            op .closeOutbound
            op .closeWriteClient
            return (false, false)
          else
            op .closeOutbound
            return (false, true)
        else
          writeResponse 502 ""
          return (false, true)

def forwardRequest (req : Request) (extension : Extension) : Proc (Bool × Bool) := do
  match ← op (.roundTrip extension (outRequest req)) with
  | none =>
      writeResponse 502 ""
      return (false, true)
  | some resp =>
      if ← op (.relay resp.stripped) then
        op .flush
        op .closeBody
        return (keepAlive req resp, false)
      else
        op .closeBody
        return (false, true)

namespace Handler

variable (h : Handler)

def proxy (req : Request) : Proc (Bool × Bool) := do
  let now ← op .clock
  match h.authenticate now req.header with
  | .error err =>
      writeResponse (authStatus err) ""
      return (false, false)
  | .ok extension =>
      if req.method = methodConnect then handleConnect req extension
      else forwardRequest req extension

/-! ## The request loops -/

/-- Read a request, with a deadline. -/
def readRequest : Proc (Option Request) := do
  op (.setReadDeadline true)
  match ← op .readRequest with
  | none => return none
  | some req =>
      op (.setReadDeadline false)
      return some req

/-- A round of the loop in `HttpServer.accept`. -/
def round : Proc (Option Unit) := do
  match ← readRequest with
  | none => return none
  | some req =>
      let (keepAlive, err) ← h.proxy req
      if err then return none
      else return if keepAlive then some () else none

/-- A round of the loops in `serveHTTP` and `serveHTTPS`: the error is not looked at. -/
def autoRound : Proc (Option Unit) := do
  match ← readRequest with
  | none => return none
  | some req =>
      let (keepAlive, _) ← h.proxy req
      return if keepAlive then some () else none

/-- The handshake, behind its gate: false if the connection was closed. -/
def handshake : Proc Bool := do
  op (.setDeadline true)
  if ← op .acquireGate then
    let ok ← op .handshake
    op .releaseGate
    if ok then
      op (.setDeadline false)
      return true
    else
      op .close
      return false
  else
    op .close
    return false

/-- The loop of `HttpServer.accept`, followed for a number of rounds. -/
def serve (rounds : Nat) : Proc Unit := do
  op (.acquire .reader)
  op (.acquire .writer)
  iterate .fault (fun _ => h.round) rounds ()
  op .close
  op (.release .writer)
  op (.release .reader)

/-- `HttpServer.accept`. -/
def accept (tls : Bool) (rounds : Nat) : Proc Unit := do
  if tls then
    if ← handshake then h.serve rounds
    else return ()
  else h.serve rounds

/-- `serveHTTP` of the auto-detecting server; its reader is the one of `accept`. -/
def serveHTTP (rounds : Nat) : Proc Unit := do
  op (.acquire .writer)
  iterate .fault (fun _ => h.autoRound) rounds ()
  op .close
  op (.release .writer)

/-- `serveHTTPS`. -/
def serveHTTPS (rounds : Nat) : Proc Unit := do
  if ← handshake then
    op (.acquire .reader)
    op (.acquire .writer)
    iterate .fault (fun _ => h.autoRound) rounds ()
    op .close
    op (.release .writer)
    op (.release .reader)
  else return ()

/-- The part of `AutoDetectServer.accept` behind the peek; `httpHdl` and `httpsHdl` are one
handler. -/
def dispatch (rounds : Nat) : Option UInt8 → Proc Unit
  | none => op .close
  | some first => do
      op (.setReadDeadline false)
      if first = 0x05 then op .socksAccept
      else if first < 0x41 then h.serveHTTPS rounds
      else h.serveHTTP rounds

/-- `AutoDetectServer.accept`. -/
def autoAccept (rounds : Nat) : Proc Unit := do
  op (.acquire .reader)
  op (.setReadDeadline true)
  let first ← op .peek
  h.dispatch rounds first
  op (.release .reader)

end Handler

/-! ## The two loops -/

/-- No connection is kept on which there was an error. -/
def KeepsNoError (r : Bool × Bool) : Prop := r.2 = true → r.1 = false

/-- A tunnel is the end of its connection. -/
theorem ensures_handleConnect (req : Request) (extension : Extension) :
    (handleConnect req extension).Ensures KeepsNoError := by
  unfold handleConnect
  dsimp only
  split_ifs
  · simp [writeResponse, op, KeepsNoError]
  · cases splitHostPort (connectTarget req) with
    | error _ => simp [writeResponse, op, KeepsNoError]
    | ok target =>
        simp only [writeResponse, op, step_bind, ret_bind, ensures_step]
        intro dialed
        cases dialed with
        | false => simp [KeepsNoError]
        | true =>
            simp only [if_true, ensures_step]
            intro _ n
            split_ifs <;> simp [KeepsNoError]

/-- A response that could not be passed on is the end of its connection. -/
theorem ensures_forwardRequest (req : Request) (extension : Extension) :
    (forwardRequest req extension).Ensures KeepsNoError := by
  simp only [forwardRequest, writeResponse, op, step_bind, ret_bind, ensures_step]
  intro resp
  cases resp with
  | none => simp [KeepsNoError]
  | some resp => simp [KeepsNoError]

/-- `Proxy` keeps no connection on which there was an error. -/
theorem ensures_proxy (h : Handler) (req : Request) : (h.proxy req).Ensures KeepsNoError := by
  simp only [Handler.proxy, op, step_bind, ret_bind, ensures_step]
  intro now
  cases h.authenticate now req.header with
  | error err => simp [writeResponse, op, KeepsNoError]
  | ok extension =>
      dsimp only
      split_ifs
      · exact ensures_handleConnect req extension
      · exact ensures_forwardRequest req extension

/-- The error that `serveHTTP` and `serveHTTPS` drop makes no difference. -/
theorem autoRound_eq (h : Handler) : h.autoRound = h.round := by
  unfold Handler.autoRound Handler.round
  congr 1
  funext read
  cases read with
  | none => rfl
  | some req =>
      refine bind_congr_of_ensures (ensures_proxy h req) ?_
      rintro ⟨keepAlive, err⟩ hkeep
      cases err with
      | false => rfl
      | true => simp [show keepAlive = false from hkeep rfl]

/-- `serveHTTPS` is the HTTP server behind TLS. -/
theorem serveHTTPS_eq (h : Handler) (rounds : Nat) :
    h.serveHTTPS rounds = h.accept true rounds := by
  simp [Handler.serveHTTPS, Handler.accept, Handler.serve, autoRound_eq]

/-- `serveHTTP` with the reader of `accept` around it is the HTTP server's loop. -/
theorem serveHTTP_eq (h : Handler) (rounds : Nat) :
    (do op (.acquire .reader); h.serveHTTP rounds; op (.release .reader)) =
      h.accept false rounds := by
  simp [Handler.serveHTTP, Handler.accept, Handler.serve, autoRound_eq]

/-- **The two servers**: on a plain connection and behind TLS, the auto-detecting server does
with HTTP what the HTTP server does.  As a whole, its `accept` is the HTTP server's with the
peek and its read deadline put between the reader and the loop. -/
theorem autoDetect_serves_as_http (h : Handler) (rounds : Nat) :
    (do op (.acquire .reader); h.serveHTTP rounds; op (.release .reader)) = h.accept false rounds ∧
      h.serveHTTPS rounds = h.accept true rounds ∧
      ∃ loop, h.accept false rounds = (do op (.acquire .reader); loop) ∧
        h.autoAccept rounds = (do
          op (.acquire .reader)
          op (.setReadDeadline true)
          match ← op .peek with
          | none => do op .close; op (.release .reader)
          | some first => do
              op (.setReadDeadline false)
              if first = 0x05 then do op .socksAccept; op (.release .reader)
              else if first < 0x41 then do h.accept true rounds; op (.release .reader)
              else loop) := by
  refine ⟨serveHTTP_eq h rounds, serveHTTPS_eq h rounds,
    (do h.serveHTTP rounds; op (.release .reader)), (serveHTTP_eq h rounds).symm, ?_⟩
  unfold Handler.autoAccept
  congr 1; funext _
  congr 1; funext _
  congr 1; funext read
  cases read with
  | none => rfl
  | some first =>
      simp only [Handler.dispatch, serveHTTPS_eq]
      split_ifs <;> simp [op]

end Outway.Http.Session
