import Outway.Server.Tunnel

/-!
# Outway.Server.HalfClose

A CONNECT tunnel from its first byte to its last, as the peers see it.

`CopyBidirectionalContext` runs a copy each way.  When one side ends, the write
side of the other is half-closed, which `CloseWrite` can do only if it finds the
method on the connection it is given.  The SOCKS5 server hands over the
`*net.TCPConn` itself, the auto-detecting server a `bufferedConn`, whose method
set is that of the embedded `net.Conn` and has no `CloseWrite`.  The two tunnels
therefore differ in the half-closes of the client and in nothing else
(`autoTunnel_eq`).
-/

namespace Outway.Server

open ReadSource Socks

/-- The two ends of a tunnel. -/
inductive Peer where
  | client
  | target
  deriving DecidableEq

/-- What a peer sees happen on its socket; a write is seen byte by byte. -/
inductive Action where
  | write (peer : Peer) (b : UInt8)
  | closeWrite (peer : Peer)
  | close (peer : Peer)
  deriving DecidableEq

/-- What the peers do. -/
inductive Event where
  | data (peer : Peer) (bytes : List UInt8)
  | eof (peer : Peer)
  deriving DecidableEq

/-- The dynamic types of the connections that are copied between. -/
inductive ConnType where
  | tcpConn
  | tlsConn
  | bufferedConn
  deriving DecidableEq

/-- Whether the type has a method `CloseWrite() error`.  `bufferedConn` embeds `net.Conn`
and adds `Read`. -/
def ConnType.hasCloseWrite : ConnType → Bool
  | .tcpConn => true
  | .tlsConn => true
  | .bufferedConn => false

/-- `CloseWrite`. -/
def closeWrite (c : ConnType) (peer : Peer) : List Action :=
  if c = .tcpConn then [.closeWrite peer]
  else if c.hasCloseWrite then [.closeWrite peer]
  else []

def writes (peer : Peer) (bytes : List UInt8) : List Action := bytes.map (.write peer)

/-! ## The copy -/

/-- The state of `CopyBidirectionalContext`: the client's stream, and which of the two
copies have ended. -/
structure Copying (S : Type) where
  stream : S
  clientDone : Bool
  targetDone : Bool

/-- The end of `handleConnect`, once both copies have ended. -/
def finish (c : ConnType) (clientDone targetDone : Bool) : List Action :=
  if clientDone && targetDone then
    [.closeWrite .target, .close .target] ++ closeWrite c .client ++ [.close .client]
  else []

section Copying

variable {S : Type} [LiveSource S UInt8]

/-- What the tunnel does at an event, and its next state.  Without cancellation and before
the grace timer a copy ends only with its source; `finishDirection` then half-closes the
destination. -/
def Copying.step (room : Nat) (c : ConnType) (t : Copying S) : Event → List Action × Copying S
  | .data .client bytes =>
      if t.clientDone then ([], t)
      else
        let (out, stream) := drain room (LiveSource.feed bytes t.stream)
        (writes .target out, { t with stream })
  | .data .target bytes => if t.targetDone then ([], t) else (writes .client bytes, t)
  | .eof .client =>
      if t.clientDone then ([], t)
      else (closeWrite .tcpConn .target ++ finish c true t.targetDone,
        { t with clientDone := true })
  | .eof .target =>
      if t.targetDone then ([], t)
      else (closeWrite c .client ++ finish c t.clientDone true, { t with targetDone := true })

def Copying.run (room : Nat) (c : ConnType) : Copying S → List Event → List Action
  | _, [] => []
  | t, e :: es => (t.step room c e).1 ++ (t.step room c e).2.run room c es

end Copying

/-- A SOCKS5 CONNECT tunnel on a connection of type `c` that has delivered `stream` by the
time of the reply, over the events after it: the replies, the early data, the copy.
`none` when there is no tunnel. -/
def Acceptor.connectTunnel {S : Type} [LiveSource S UInt8] (a : Acceptor) (room : Nat)
    (c : ConnType) (stream : S) (events : List Event) : Option (List Action) :=
  match handle a.now a.auth (⟨[], stream⟩ : BufReader S) with
  | ⟨written, .dispatch .connect address extension br⟩ =>
      if a.dial address extension then
        let reply := (Response.mk .succeeded .unspecified).marshalTo.1
        let (early, br) := if 0 < br.buffered then copyN room br.buffered br else ([], br)
        let (out, stream) := drain room br.source
        some (writes .client (written ++ reply) ++ writes .target (early ++ out) ++
          Copying.run room c ⟨stream, false, false⟩ events)
      else none
  | _ => none

/-- The tunnel on `Socks5Server`. -/
def socksTunnel (a : Acceptor) (room : Nat) (conn : Arrivals UInt8) (events : List Event) :
    Option (List Action) :=
  a.connectTunnel room .tcpConn conn events

/-- The tunnel on `AutoDetectServer`, where the first byte is 5. -/
def autoTunnel (a : Acceptor) (room : Nat) (conn : Arrivals UInt8) (events : List Event) :
    Option (List Action) :=
  match Bufio.peek (⟨[], conn⟩ : BufReader (Arrivals UInt8)) with
  | (some first, br) => if first = 0x05 then a.connectTunnel room .bufferedConn br events else none
  | (none, _) => none

/-! ## The actions of a tunnel -/

/-- The actions at an event, in terms of which copies have ended. -/
def actionsAt (c : ConnType) (clientDone targetDone : Bool) : Event → List Action
  | .data .client bytes => if clientDone then [] else writes .target bytes
  | .data .target bytes => if targetDone then [] else writes .client bytes
  | .eof .client =>
      if clientDone then [] else .closeWrite .target :: finish c true targetDone
  | .eof .target =>
      if targetDone then [] else closeWrite c .client ++ finish c clientDone true

def actions (c : ConnType) : (clientDone targetDone : Bool) → List Event → List Action
  | _, _, [] => []
  | clientDone, targetDone, e :: es =>
      actionsAt c clientDone targetDone e ++
        actions c (clientDone || e = .eof .client) (targetDone || e = .eof .target) es

/-- The actions of a tunnel, from the negotiation on the client's stream. -/
def Acceptor.tunnelActions (a : Acceptor) (c : ConnType) (events : List Event) :
    Handled (List UInt8) → Option (List Action)
  | ⟨written, .dispatch .connect address extension rest⟩ =>
      if a.dial address extension then
        some (writes .client (written ++ (Response.mk .succeeded .unspecified).marshalTo.1) ++
          writes .target rest ++ actions c false false events)
      else none
  | _ => none

section Run

variable {S : Type} [LiveSource S UInt8] {room : Nat}

/-- What an event makes the tunnel do, when the early bytes are through. -/
theorem step_fst (hroom : 0 < room) (c : ConnType) {t : Copying S} (ht : pending t.stream = [])
    (e : Event) : (t.step room c e).1 = actionsAt c t.clientDone t.targetDone e := by
  obtain ⟨stream, clientDone, targetDone⟩ := t
  cases e with
  | eof peer =>
      cases peer with
      | client => cases clientDone <;> rfl
      | target => cases targetDone <;> rfl
  | data peer bytes =>
      cases peer with
      | target => cases targetDone <;> rfl
      | client =>
          cases clientDone with
          | true => rfl
          | false =>
              have hout : (drain room (LiveSource.feed bytes stream)).1 = bytes := by
                rw [drain_fst hroom, LiveSource.pending_feed, ht, List.nil_append]
              simp [Copying.step, actionsAt, hout]

/-- And what it changes. -/
theorem step_snd (hroom : 0 < room) (c : ConnType) {t : Copying S} (ht : pending t.stream = [])
    (e : Event) : pending (t.step room c e).2.stream = [] ∧
      (t.step room c e).2.clientDone = (t.clientDone || e = .eof .client) ∧
      (t.step room c e).2.targetDone = (t.targetDone || e = .eof .target) := by
  obtain ⟨stream, clientDone, targetDone⟩ := t
  cases e with
  | eof peer =>
      cases peer with
      | client => cases clientDone <;> simpa [Copying.step] using ht
      | target => cases targetDone <;> simpa [Copying.step] using ht
  | data peer bytes =>
      cases peer with
      | target => cases targetDone <;> simpa [Copying.step] using ht
      | client =>
          cases clientDone with
          | true => simpa [Copying.step] using ht
          | false => simpa [Copying.step] using pending_drain hroom _

/-- The run does not depend on the kind of stream the client's bytes come through. -/
theorem run_eq (hroom : 0 < room) (c : ConnType) {t : Copying S} (ht : pending t.stream = [])
    (events : List Event) :
    t.run room c events = actions c t.clientDone t.targetDone events := by
  induction events generalizing t with
  | nil => rfl
  | cons e es ih =>
      obtain ⟨hpending, hclient, htarget⟩ := step_snd hroom c ht e
      rw [Copying.run, actions, step_fst hroom c ht, ih hpending, hclient, htarget]

/-- A tunnel does what its negotiation and the events say. -/
theorem connectTunnel_eq (hroom : 0 < room) (a : Acceptor) (c : ConnType) (stream : S)
    (events : List Event) : a.connectTunnel room c stream events =
      a.tunnelActions c events (handle a.now a.auth (pending stream)) := by
  rw [Acceptor.connectTunnel, handle_stream]
  generalize handle a.now a.auth (⟨[], stream⟩ : BufReader S) = handled
  obtain ⟨written, outcome⟩ := handled
  cases outcome with
  | rejected e => rfl
  | dispatch command address extension br =>
      cases command with
      | bind | udpAssociate => rfl
      | connect =>
          have hrun := run_eq hroom c (t := ⟨(drain room br.source).2, false, false⟩)
            (pending_drain hroom _) events
          simp only [Acceptor.tunnelActions, Outcome.map, early_eq hroom, drain_fst hroom, hrun,
            Bufio.pending_def]

end Run

/-! ## The two servers -/

/-- Without the half-closes of the client. -/
def unseen (as : List Action) : List Action := as.filter (· ≠ .closeWrite .client)

theorem unseen_writes (peer : Peer) (bytes : List UInt8) :
    unseen (writes peer bytes) = writes peer bytes := by
  apply List.filter_eq_self.mpr
  intro x hx
  obtain ⟨b, -, rfl⟩ := List.mem_map.mp hx
  rfl

/-- The two lists of actions one by one. -/
theorem unseen_append (as bs : List Action) : unseen (as ++ bs) = unseen as ++ unseen bs :=
  List.filter_append as bs

/-- At each event the buffered connection does the same but for the half-close. -/
theorem actionsAt_bufferedConn (clientDone targetDone : Bool) (e : Event) :
    actionsAt .bufferedConn clientDone targetDone e =
      unseen (actionsAt .tcpConn clientDone targetDone e) := by
  cases e with
  | eof peer => cases peer <;> cases clientDone <;> cases targetDone <;> rfl
  | data peer bytes =>
      cases peer with
      | client =>
          cases clientDone with
          | true => rfl
          | false => exact (unseen_writes .target bytes).symm
      | target =>
          cases targetDone with
          | true => rfl
          | false => exact (unseen_writes .client bytes).symm

/-- And so it does over all of them. -/
theorem actions_bufferedConn (clientDone targetDone : Bool) (events : List Event) :
    actions .bufferedConn clientDone targetDone events =
      unseen (actions .tcpConn clientDone targetDone events) := by
  induction events generalizing clientDone targetDone with
  | nil => rfl
  | cons e es ih => rw [actions, actions, unseen_append, actionsAt_bufferedConn, ih]

theorem closeWrite_not_mem_writes (peer : Peer) (bytes : List UInt8) :
    .closeWrite .client ∉ writes peer bytes := by
  intro h
  obtain ⟨b, -, hb⟩ := List.mem_map.mp h
  cases hb

/-- Before the target has ended the client is half-closed at its end only. -/
theorem closeWrite_mem_actionsAt {clientDone : Bool} {e : Event} :
    .closeWrite .client ∈ actionsAt .tcpConn clientDone false e ↔ e = .eof .target := by
  cases e with
  | eof peer => cases peer <;> cases clientDone <;> decide
  | data peer bytes =>
      cases peer with
      | client => cases clientDone <;> simp [actionsAt, closeWrite_not_mem_writes]
      | target => simp [actionsAt, closeWrite_not_mem_writes]

/-- The client is half-closed when its target ends, and only then. -/
theorem closeWrite_mem_actions {clientDone : Bool} {events : List Event} :
    .closeWrite .client ∈ actions .tcpConn clientDone false events ↔ .eof .target ∈ events := by
  induction events generalizing clientDone with
  | nil => simp [actions]
  | cons e es ih =>
      rw [actions, List.mem_append, closeWrite_mem_actionsAt, List.mem_cons, eq_comm (b := e)]
      by_cases he : e = .eof .target
      · simp [he]
      · rw [show (false || decide (e = Event.eof .target)) = false by simp [he], ih]

section Negotiated

variable {a : Acceptor} {events : List Event}

/-- The auto-detecting server leaves out the half-close of the client. -/
theorem tunnelActions_bufferedConn (handled : Handled (List UInt8)) :
    a.tunnelActions .bufferedConn events handled =
      (a.tunnelActions .tcpConn events handled).map unseen := by
  obtain ⟨written, outcome⟩ := handled
  cases outcome with
  | rejected e => rfl
  | dispatch command address extension rest =>
      cases command with
      | bind | udpAssociate => rfl
      | connect =>
          simp only [Acceptor.tunnelActions]
          split_ifs
          · rw [Option.map_some, unseen_append, unseen_append, unseen_writes, unseen_writes,
              actions_bufferedConn]
          · rfl

/-- The half-closes of the client in a tunnel are those at the end of its target. -/
theorem closeWrite_mem_tunnelActions {handled : Handled (List UInt8)} {as : List Action}
    (h : a.tunnelActions .tcpConn events handled = some as) :
    .closeWrite .client ∈ as ↔ .eof .target ∈ events := by
  obtain ⟨written, outcome⟩ := handled
  cases outcome with
  | rejected e => cases h
  | dispatch command address extension rest =>
      cases command with
      | bind | udpAssociate => cases h
      | connect =>
          simp only [Acceptor.tunnelActions] at h
          split_ifs at h
          obtain rfl := Option.some.inj h
          simp only [List.mem_append, closeWrite_not_mem_writes, false_or, closeWrite_mem_actions]

/-- A tunnel starts with the byte that the auto-detecting server looks for. -/
theorem head?_of_tunnelActions {c : ConnType} {stream : List UInt8}
    (h : a.tunnelActions c events (handle a.now a.auth stream) ≠ none) :
    stream.head? = some 0x05 := by
  cases hhandled : handle a.now a.auth stream with
  | mk written outcome =>
      cases outcome with
      | rejected e => exact absurd (by rw [hhandled]; rfl) h
      | dispatch command address extension rest =>
          obtain ⟨hello, methods, login, req, ⟨-, rfl⟩, -, -, -, rfl⟩ :=
            dispatch_iff.mp (congrArg Handled.outcome hhandled)
          rfl

end Negotiated

section Servers

variable {a : Acceptor} {room : Nat} {conn : Arrivals UInt8} {events : List Event}

/-- The auto-detecting server's tunnel is the SOCKS5 server's without the half-closes of
the client. -/
theorem autoTunnel_eq (hroom : 0 < room) :
    autoTunnel a room conn events = (socksTunnel a room conn events).map unseen := by
  have hnone (h : (pending conn).head? ≠ some 0x05) : socksTunnel a room conn events = none := by
    by_contra hne
    rw [socksTunnel, connectTunnel_eq hroom] at hne
    exact h (head?_of_tunnelActions hne)
  rw [autoTunnel, peek_conn]
  cases hhead : (pending conn).head? with
  | none =>
      rw [hnone (by simp [hhead])]
      rfl
  | some first =>
      by_cases hfirst : first = 0x05
      · simp only [hfirst, if_true]
        rw [socksTunnel, connectTunnel_eq hroom, connectTunnel_eq hroom, pending_peeked,
          tunnelActions_bufferedConn]
      · simp only [hfirst, if_false]
        rw [hnone (by simpa [hhead] using hfirst)]
        rfl

/-- Nothing is left out when there is no such half-close. -/
theorem unseen_eq_self_iff {as : List Action} :
    unseen as = as ↔ .closeWrite .client ∉ as := by
  rw [unseen, List.filter_eq_self]
  constructor
  · intro h hmem
    simpa using h _ hmem
  · intro h x hx
    have hne : x ≠ .closeWrite .client := fun heq => h (heq ▸ hx)
    exact decide_eq_true hne

end Servers

/-- **Transparency.**  The two servers do the same to both peers exactly when there is no
tunnel or the target does not end.  What is compared is every action on the two sockets: where
the target ends second, the half-close of the client comes right before its close, a peer cannot
tell the two, and it still counts as a difference. -/
theorem auto_transparent_iff (a : Acceptor) {room : Nat} (hroom : 0 < room)
    (conn : Arrivals UInt8) (events : List Event) :
    autoTunnel a room conn events = socksTunnel a room conn events ↔
      socksTunnel a room conn events = none ∨ .eof .target ∉ events := by
  rw [autoTunnel_eq hroom]
  cases htunnel : socksTunnel a room conn events with
  | none => simp
  | some as =>
      rw [socksTunnel, connectTunnel_eq hroom] at htunnel
      rw [← closeWrite_mem_tunnelActions htunnel, Option.map_some, Option.some.injEq,
        unseen_eq_self_iff]
      simp

/-- Bytes both ways and the end of the client's stream are passed on alike. -/
theorem auto_transparent_iff_client :
    autoTunnel openAuto.socksAcc 32768 eagerClient
        [.data .client [1], .data .target [2], .eof .client] =
      socksTunnel openAuto.socksAcc 32768 eagerClient
        [.data .client [1], .data .target [2], .eof .client] :=
  (auto_transparent_iff openAuto.socksAcc (by decide) eagerClient _).mpr (.inr (by decide))

/-- A target that ends first: the SOCKS5 server half-closes the client, the auto-detecting
server does not, and the client's copy is still open. -/
theorem auto_not_transparent :
    .closeWrite .client ∈ (socksTunnel openAuto.socksAcc 32768 eagerClient [.eof .target]).get! ∧
      autoTunnel openAuto.socksAcc 32768 eagerClient [.eof .target] ≠
        socksTunnel openAuto.socksAcc 32768 eagerClient [.eof .target] := by
  decide

end Outway.Server
