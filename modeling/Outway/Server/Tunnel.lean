import Outway.Lib.ReadSource
import Outway.Socks.Input

/-!
# Outway.Server.Tunnel

From an accepted connection to a CONNECT tunnel, on the three servers.

A handler reads the negotiation through a buffered reader and then copies from
the connection itself, so the bytes that were buffered go first.  Under the SOCKS5
handler of the auto-detecting server the connection is a buffered reader too.
The handlers are therefore written over any `ReadSource`; the results say that what a
tunnel delivers is the rest of the client's stream after its request, however
the network has cut the stream up.

Parsing of HTTP and TLS is Go's: `RequestReader` and `Tls` are what is assumed of
it.
-/

namespace Outway.Server

open ReadSource Reader Socks

instance neZero_bufSize : NeZero 4096 := ⟨by decide⟩

/-- `bufio.NewReader`. -/
abbrev BufReader (S : Type) : Type := Bufio 4096 S UInt8

instance {S : Type} [ReadSource S UInt8] : WireInput (BufReader S) where
  readFull := ReadSource.readFull .eof .unexpectedEOF

/-- A tunnel: where it leads, and what has been written to the target. -/
structure Tunnel (τ : Type) where
  target : τ
  delivered : List UInt8

/-- The client half of a tunnel: the buffered bytes first, then the copy of the client's
stream.  Calls of the copies have room for `room` bytes; the second is followed for `fuel`
calls. -/
def relay {S : Type} [ReadSource S UInt8] (room fuel : Nat) (br : BufReader S) : List UInt8 :=
  let (early, br) := if 0 < br.buffered then copyN room br.buffered br else ([], br)
  early ++ (copy room fuel br.source).1

/-! ## SOCKS5 -/

/-- `Socks5Acceptor`: the clock and the adaptor, and which targets can be dialled. -/
structure Acceptor where
  now : BitVec 64
  auth : AuthAdaptor
  dial : Address → Extension → Bool

namespace Acceptor

variable {S : Type} [ReadSource S UInt8] (a : Acceptor) (room fuel : Nat)

/-- `handleConnect`: the reply and the tunnel. -/
def handleConnect (br : BufReader S) (address : Address) (extension : Extension) :
    List UInt8 × Option (Tunnel Address) :=
  if a.dial address extension then
    ((Response.mk .succeeded .unspecified).marshalTo.1, some ⟨address, relay room fuel br⟩)
  else ((Response.mk .hostUnreachable .unspecified).marshalTo.1, none)

/-- `Accept`, as far as CONNECT tunnels go: what is written to the client before the
tunnel, and the tunnel. -/
def accept (stream : S) : List UInt8 × Option (Tunnel Address) :=
  match handle a.now a.auth (⟨[], stream⟩ : BufReader S) with
  | ⟨written, .dispatch .connect address extension br⟩ =>
      let (reply, tunnel) := a.handleConnect room fuel br address extension
      (written ++ reply, tunnel)
  | ⟨written, _⟩ => (written, none)

end Acceptor

/-! ## HTTP -/

/-- A reader of Go's `net/http` on a buffered reader.  What it returns and where it stops
depend on the bytes alone (`follows`), and it reads them in order (`consumes`). -/
structure RequestReader (ε ρ : Type) where
  read : {S : Type} → [ReadSource S UInt8] → Reader (BufReader S) ε ρ
  grammar : Reader (List UInt8) ε ρ
  follows : ∀ {S : Type} [ReadSource S UInt8], Follows pending (@read S _) grammar
  consumes : Consumes grammar

/-- `Handler`, on requests `ρ`. -/
structure Handler (ε ρ τ : Type) where
  /-- `http.ReadRequest` -/
  readRequest : RequestReader ε ρ
  /-- `auth.Authenticate` -/
  authenticate : ρ → Option Extension
  isConnect : ρ → Bool
  /-- the host and port of `URL.Host`, or of `Host` -/
  target : ρ → Option τ
  dial : τ → Extension → Bool
  /-- `forwardRequest` reads the body; whether the connection is kept -/
  forwardRequest : ρ → Extension → RequestReader ε Bool

namespace Handler

variable {S ε ρ τ : Type} [ReadSource S UInt8] (h : Handler ε ρ τ) (room fuel : Nat)

def handleConnect (br : BufReader S) (req : ρ) (extension : Extension) : Option (Tunnel τ) :=
  match h.target req with
  | none => none
  | some target =>
      if h.dial target extension then some ⟨target, relay room fuel br⟩ else none

/-- The request loop of `accept`, `serveHTTP` and `serveHTTPS`, for `rounds` requests. -/
def serve : (rounds : Nat) → BufReader S → Option (Tunnel τ)
  | 0, _ => none
  | rounds + 1, br =>
      match h.readRequest.read br with
      | .error _ => none
      | .ok (req, br) =>
          match h.authenticate req with
          | none => none
          | some extension =>
              if h.isConnect req then h.handleConnect room fuel br req extension
              else
                match (h.forwardRequest req extension).read br with
                | .ok (true, br) => serve rounds br
                | _ => none

end Handler

/-- `tls.Server` and its handshake: a connection of decrypted bytes. -/
structure Tls (T : Type) where
  server : {S : Type} → [ReadSource S UInt8] → S → Option T

/-- `AutoDetectServer`. -/
structure AutoDetect (ε ρ τ T : Type) where
  socksAcc : Acceptor
  http : Handler ε ρ τ
  tls : Tls T

/-- The reader over a connection whose first byte was peeked at. -/
def peeked (conn : Arrivals UInt8) : BufReader (Arrivals UInt8) :=
  (Bufio.peek (⟨[], conn⟩ : BufReader (Arrivals UInt8))).2

/-- `AutoDetectServer.accept`: the first byte is peeked at; the SOCKS5 and TLS handlers
read on through the buffered reader (`bufferedConn`), the HTTP handler takes it over. -/
def AutoDetect.accept {ε ρ τ T : Type} [ReadSource T UInt8] (s : AutoDetect ε ρ τ T)
    (room fuel rounds : Nat) (conn : Arrivals UInt8) :
    Option (Tunnel Address) × Option (Tunnel τ) :=
  match Bufio.peek (⟨[], conn⟩ : BufReader (Arrivals UInt8)) with
  | (none, _) => (none, none)
  | (some first, br) =>
      if first = 0x05 then ((s.socksAcc.accept room fuel br).2, none)
      else if first < 0x41 then
        match s.tls.server br with
        | none => (none, none)
        | some stream => (none, s.http.serve room fuel rounds (⟨[], stream⟩ : BufReader T))
      else (none, s.http.serve room fuel rounds br)

/-! ## What is delivered -/

section Relay

variable {S : Type} [ReadSource S UInt8] {room fuel : Nat}

/-- Forwarding what is buffered leaves the connection as it is. -/
theorem early_eq (hroom : 0 < room) (br : BufReader S) :
    (if 0 < br.buffered then copyN room br.buffered br else ([], br)) =
      (br.buffer, ⟨[], br.source⟩) := by
  split_ifs with hbuffered
  · exact Bufio.copyN_buffered hroom br
  · obtain ⟨buffer, source⟩ := br
    obtain rfl : buffer = [] := List.eq_nil_of_length_eq_zero (Nat.eq_zero_of_not_pos hbuffered)
    rfl

end Relay

/-! ## SOCKS5 tunnels -/

section Socks

variable {S : Type} [ReadSource S UInt8] {a : Acceptor} {room fuel : Nat}

/-- The negotiation on a connection is the negotiation on its stream. -/
theorem handle_stream (now : BitVec 64) (auth : AuthAdaptor) (stream : S) :
    handle now auth (pending stream) =
      ⟨(handle now auth (⟨[], stream⟩ : BufReader S)).written,
        (handle now auth (⟨[], stream⟩ : BufReader S)).outcome.map pending⟩ :=
  handle_follows (fun n => follows_readFull ProtoError.eof ProtoError.unexpectedEOF n) now auth
    (⟨[], stream⟩ : BufReader S)

end Socks

/-! ## HTTP tunnels -/

/-- Within `rounds` requests the stream asks for a tunnel to `target`, and then comes `rest`:
the requests before the CONNECT are authenticated and forwarded, and the connection is kept. -/
inductive Handler.Requested {ε ρ τ : Type} (h : Handler ε ρ τ) :
    (rounds : Nat) → (stream : List UInt8) → τ → Extension → (rest : List UInt8) → Prop where
  | connect {rounds : Nat} {stream rest : List UInt8} {req : ρ} {target : τ} {extension : Extension}
      (hread : h.readRequest.grammar stream = .ok (req, rest))
      (hauth : h.authenticate req = some extension) (hconnect : h.isConnect req = true)
      (htarget : h.target req = some target) :
      Requested h (rounds + 1) stream target extension rest
  | next {rounds : Nat} {stream body stream' rest : List UInt8} {req : ρ} {target : τ}
      {extension extension' : Extension} (hread : h.readRequest.grammar stream = .ok (req, body))
      (hauth : h.authenticate req = some extension) (hforward : h.isConnect req = false)
      (hbody : (h.forwardRequest req extension).grammar body = .ok (true, stream'))
      (hnext : Requested h rounds stream' target extension' rest) :
      Requested h (rounds + 1) stream target extension' rest

section Http

variable {S ε ρ τ T : Type} [ReadSource S UInt8] [ReadSource T UInt8] {h : Handler ε ρ τ}
  {room fuel rounds : Nat}

end Http

/-! ## Auto-detection -/

section Auto

variable {ε ρ τ T : Type} [ReadSource T UInt8] {s : AutoDetect ε ρ τ T} {room fuel rounds : Nat}
  {conn : Arrivals UInt8}

/-- The peek at a fresh connection shows the first byte of its stream. -/
theorem peek_conn (conn : Arrivals UInt8) :
    Bufio.peek (⟨[], conn⟩ : BufReader (Arrivals UInt8)) = ((pending conn).head?, peeked conn) :=
  Prod.ext (Bufio.peek_spec (⟨[], conn⟩ : BufReader (Arrivals UInt8))).1 rfl

/-- The peek consumes nothing. -/
theorem pending_peeked (conn : Arrivals UInt8) : pending (peeked conn) = pending conn :=
  (Bufio.peek_spec (⟨[], conn⟩ : BufReader (Arrivals UInt8))).2

end Auto

/-- The bytes of a text. -/
def ascii (text : String) : List UInt8 := text.toList.map fun c => c.toNat.toUInt8

/-- Read a request up to its empty line, in `fuel` bytes at most; `seen` are those read, the
last one first. -/
def readHead {S : Type} (byte : Reader S Unit (Vector UInt8 1)) :
    (fuel : Nat) → (seen : List UInt8) → Reader S Unit (List UInt8)
  | 0, _ => fail ()
  | fuel + 1, seen => do
      let seen := (← byte).toList ++ seen
      if seen.take 4 = [10, 13, 10, 13] then pure seen.reverse else readHead byte fuel seen

/-- The head of a request is read byte by byte. -/
theorem follows_readHead {S : Type} {pending : S → List UInt8}
    {byte : Reader S Unit (Vector UInt8 1)}
    {byte' : Reader (List UInt8) Unit (Vector UInt8 1)} (h : Follows pending byte byte')
    (fuel : Nat) (seen : List UInt8) :
    Follows pending (readHead byte fuel seen) (readHead byte' fuel seen) := by
  induction fuel generalizing seen with
  | zero => exact follows_fail ()
  | succ fuel ih => exact h.bind fun b => (follows_pure _).ite (ih _)

/-- And from the front. -/
theorem consumes_readHead {byte : Reader (List UInt8) Unit (Vector UInt8 1)} (h : Consumes byte)
    (fuel : Nat) (seen : List UInt8) : Consumes (readHead byte fuel seen) := by
  induction fuel generalizing seen with
  | zero => exact consumes_fail ()
  | succ fuel ih => exact Consumes.bind h fun b => Consumes.ite (consumes_pure _) (ih _)

/-- A reader of requests without a body. -/
def requestHeads : RequestReader Unit (List UInt8) where
  read := readHead (ReadSource.readFull () () 1) 64 []
  grammar := readHead (Reader.readFull () () 1) 64 []
  follows := follows_readHead (follows_readFull () () 1) 64 []
  consumes := consumes_readHead (exact_readFull () () 1).consumes 64 []

/-- The request is forwarded and the connection kept. -/
def noBody : RequestReader Unit Bool where
  read := pure true
  grammar := pure true
  follows := follows_pure true
  consumes := consumes_pure true

/-- A server without authentication that reaches every target. -/
def openAuto : AutoDetect Unit (List UInt8) (List UInt8) (Arrivals UInt8) where
  socksAcc := ⟨0, .none, fun _ _ => true⟩
  http :=
    { readRequest := requestHeads
      authenticate _ := some .noExt
      isConnect head := head.take 8 = ascii "CONNECT "
      target head := some ((head.drop 8).takeWhile (· ≠ 32))
      dial _ _ := true
      forwardRequest _ _ := noBody }
  tls := ⟨fun _ => none⟩

/-- A client that asks for a connection to `1.2.3.4:80` and sends two bytes with it, in
three parts. -/
def eagerClient : Arrivals UInt8 where
  chunks := [[5, 1, 0, 5, 1], [0, 1, 1, 2, 3, 4, 0, 80, 104], [105]]
  nonempty := by decide

end Outway.Server
