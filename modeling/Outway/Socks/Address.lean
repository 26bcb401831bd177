import Outway.Netip
import Outway.Lib.Reader

/-!
# Outway.Socks.Address

The SOCKS5 wire primitives and destination addresses: the stream reader
`readAddress`, the packet parser `parseAddress` with `parseUdpHeader` on top of
it, and the encoder `appendTo`.

`WireAddress` is the address format of the protocol as a relation;
`exact_readAddress` says that the stream reader accepts exactly this format.
-/

namespace Outway.Socks

/-- The errors of the protocol readers. -/
inductive ProtoError where
  | eof
  | unexpectedEOF
  | version (v : UInt8)
  | subnegotiationVersion (v : UInt8)
  | commandCode (b : UInt8)
  | addressType (b : UInt8)
  | domainTooLong (n : Nat)
  | noAcceptableMethods
  | credentials
  deriving DecidableEq

/-- `%#x` of a byte. -/
def hexByte (b : UInt8) : String := "0x" ++ String.ofList (Nat.toDigits 16 b.toNat)

def ProtoError.message : ProtoError → String
  | .eof => "EOF"
  | .unexpectedEOF => "unexpected EOF"
  | .version v => s!"unsupported SOCKS version {hexByte v}"
  | .subnegotiationVersion v => s!"unsupported sub-negotiation version {hexByte v}"
  | .commandCode b => s!"unsupported command code {hexByte b}"
  | .addressType b => s!"unsupported address type {hexByte b}"
  | .domainTooLong n => s!"domain too long: {n}"
  | .noAcceptableMethods => "no available handshake method provided by client"
  | .credentials => "username or password is incorrect"

/-- The readers the protocol is read from, with `io.ReadFull` on them. -/
class WireInput (S : Type) where
  readFull : (n : Nat) → Reader S ProtoError (Vector UInt8 n)

/-- A reader of bytes in memory. -/
instance : WireInput (List UInt8) where
  readFull := Reader.readFull .eof .unexpectedEOF

/-- A protocol reader over inputs `S`. -/
abbrev Wire (S α : Type) := Reader S ProtoError α

section Readers

variable {S : Type} [WireInput S]

def readFull (n : Nat) : Wire S (Vector UInt8 n) := WireInput.readFull n

def readU8 : Wire S UInt8 := do
  let b ← readFull 1
  return b[0]

/-- `binary.BigEndian.Uint16`. -/
def beUint16 (b₁ b₀ : UInt8) : UInt16 := b₁.toUInt16 <<< 8 ||| b₀.toUInt16

/-- `binary.BigEndian.AppendUint16`. -/
def appendUint16 (b : List UInt8) (v : UInt16) : List UInt8 :=
  b ++ [(v >>> 8).toUInt8, v.toUInt8]

def version5 : UInt8 := 5

def checkVersion (v : UInt8) : Wire S Unit := Reader.check (v = version5) (.version v)

end Readers

/-! ## Addresses -/

def addrIPv4 : UInt8 := 0x01

def addrDomain : UInt8 := 0x03

def addrIPv6 : UInt8 := 0x04

/-- `Address`: a socket address, or a domain with a port. -/
inductive Address where
  | socket (ap : AddrPort)
  | domain (name : List UInt8) (port : UInt16)
  deriving DecidableEq, Repr

namespace Address

/-- `Unspecified`, used in replies. -/
def unspecified : Address := .socket ⟨Addr.ipv4Unspecified, 0⟩

/-- `Len`: the serialized length. -/
def len : Address → Nat
  | .socket ap => if ap.addr.is4 then 1 + 4 + 2 else 1 + 16 + 2
  | .domain name _ => 1 + 1 + name.length + 2

def appendTo (a : Address) (b : List UInt8) : Except ProtoError (List UInt8) :=
  match a with
  | .socket ap =>
      if ap.addr.is4 then .ok (appendUint16 (b ++ [addrIPv4] ++ ap.addr.as4.toList) ap.port)
      else .ok (appendUint16 (b ++ [addrIPv6] ++ ap.addr.as16.toList) ap.port)
  | .domain name port =>
      if name.length > 255 then .error (.domainTooLong name.length)
      else .ok (appendUint16 (b ++ [addrDomain, UInt8.ofNat name.length] ++ name) port)

/-- `MarshalTo`, on a writer that takes everything: the bytes written and the error. -/
def marshalTo (a : Address) : List UInt8 × Option ProtoError :=
  match a.appendTo [] with
  | .error e => ([], some e)
  | .ok b => (b, none)

end Address

/-- `ReadAddress`. -/
def readAddress {S : Type} [WireInput S] : Wire S Address := do
  let atyp ← readU8
  if atyp = addrIPv4 then
    let buf ← readFull 6
    return .socket ⟨addrFrom4 #v[buf[0], buf[1], buf[2], buf[3]], beUint16 buf[4] buf[5]⟩
  else if atyp = addrDomain then
    let ln ← readU8
    let buf ← readFull (ln.toNat + 2)
    return .domain (buf.toList.take ln.toNat) (beUint16 buf[ln.toNat] buf[ln.toNat + 1])
  else if atyp = addrIPv6 then
    let buf ← readFull 18
    return .socket ⟨addrFrom16 (Vector.ofFn fun i : Fin 16 => buf[i]), beUint16 buf[16] buf[17]⟩
  else Reader.fail (.addressType atyp)

/-- `ParseAddress`: the address at the front of a packet and the number of bytes
it takes. -/
def parseAddress (buf : List UInt8) : Except ProtoError (Address × Nat) :=
  match buf with
  | [] => .error .unexpectedEOF
  | atyp :: body =>
      if atyp = addrIPv4 then
        match body with
        | b₀ :: b₁ :: b₂ :: b₃ :: p₁ :: p₀ :: _ =>
            .ok (.socket ⟨addrFrom4 (bytes4 b₀ b₁ b₂ b₃), beUint16 p₁ p₀⟩, 1 + 4 + 2)
        | _ => .error .unexpectedEOF
      else if atyp = addrIPv6 then
        if h : body.length < 16 + 2 then .error .unexpectedEOF
        else
          have hbody : 16 + 2 ≤ body.length := Nat.not_lt.mp h
          have h₁ : 16 < body.length := Nat.lt_of_lt_of_le (by decide) hbody
          have h₀ : 17 < body.length := Nat.lt_of_lt_of_le (by decide) hbody
          have hi (i : Fin 16) : i.val < body.length := Nat.lt_trans i.isLt h₁
          .ok (.socket ⟨addrFrom16 (Vector.ofFn fun i : Fin 16 => have := hi i; body[i]),
            beUint16 body[16] body[17]⟩, 1 + 16 + 2)
      else if atyp = addrDomain then
        match body with
        | [] => .error .unexpectedEOF
        | ln :: rest =>
            if h : rest.length < ln.toNat + 2 then .error .unexpectedEOF
            else
              have h₀ : ln.toNat + 1 < rest.length := Nat.not_lt.mp h
              have h₁ : ln.toNat < rest.length := Nat.lt_of_succ_lt h₀
              .ok (.domain (rest.take ln.toNat) (beUint16 rest[ln.toNat] rest[ln.toNat + 1]),
                2 + ln.toNat + 2)
      else .error (.addressType atyp)

/-! ## UDP headers -/

/-- `UdpHeader`. -/
structure UdpHeader where
  frag : UInt8
  address : Address
  deriving DecidableEq, Repr

namespace UdpHeader

def len (h : UdpHeader) : Nat := 3 + h.address.len

def marshalTo (h : UdpHeader) : List UInt8 × Option ProtoError :=
  let (addr, err) := h.address.marshalTo
  ([0x00, 0x00, h.frag] ++ addr, err)

end UdpHeader

/-- `MaxSerializedLen`. -/
def maxSerializedLen : Nat := 1 + 1 + 255 + 2

/-- `UdpHeaderMaxLen`. -/
def udpHeaderMaxLen : Nat := 3 + maxSerializedLen

/-- `ParseUdpHeader`: two reserved bytes, the fragment number and an address. -/
def parseUdpHeader (buf : List UInt8) : Except ProtoError (UdpHeader × Nat) :=
  match buf with
  | _ :: _ :: frag :: body =>
      match parseAddress body with
      | .error e => .error e
      | .ok (addr, addrLen) => .ok (⟨frag, addr⟩, 3 + addrLen)
  | _ => .error .unexpectedEOF

/-- `ReadUdpHeader`: the header and its length. -/
def readUdpHeader {S : Type} [WireInput S] : Wire S (UdpHeader × Nat) := do
  let buf ← readFull 3
  let addr ← readAddress
  return (⟨buf[2], addr⟩, (⟨buf[2], addr⟩ : UdpHeader).len)

/-- `BuildUdpPacket`: the address is encoded in place, and unlike in `appendTo` the
length of a domain is not checked. -/
def buildUdpPacket (frag : UInt8) (src : Address) (payload : List UInt8) : List UInt8 :=
  let buf := [0x00, 0x00, frag]
  match src with
  | .socket ap =>
      let buf :=
        if ap.addr.is4 then buf ++ [addrIPv4] ++ ap.addr.as4.toList
        else buf ++ [addrIPv6] ++ ap.addr.as16.toList
      appendUint16 buf ap.port ++ payload
  | .domain name port =>
      appendUint16 (buf ++ [addrDomain, UInt8.ofNat name.length] ++ name) port ++ payload

/-! ## The address format -/

/-- The address format of the protocol: the type byte, the address, the port in
network order; a domain is preceded by its length. -/
inductive WireAddress : List UInt8 → Address → Prop where
  | ipv4 (b : Bytes4) (p₁ p₀ : UInt8) :
      WireAddress ([addrIPv4] ++ b.toList ++ [p₁, p₀]) (.socket ⟨addrFrom4 b, beUint16 p₁ p₀⟩)
  | ipv6 (b : Bytes16) (p₁ p₀ : UInt8) :
      WireAddress ([addrIPv6] ++ b.toList ++ [p₁, p₀]) (.socket ⟨addrFrom16 b, beUint16 p₁ p₀⟩)
  | domain (name : List UInt8) (h : name.length < 256) (p₁ p₀ : UInt8) :
      WireAddress ([addrDomain, UInt8.ofNat name.length] ++ name ++ [p₁, p₀])
        (.domain name (beUint16 p₁ p₀))

open Reader

/-- One byte is its own message. -/
theorem exact_readU8 : Exact readU8 fun msg b => msg = [b] := by
  refine ((exact_readFull _ _ 1).map fun v => v[0]).congr ?_
  intro msg b
  constructor
  · rintro ⟨v, rfl, rfl⟩
    exact List.ext_getElem (by simp) fun i h₁ h₂ => by
      obtain rfl : i = 0 := by simpa using h₂
      simp
  · rintro rfl
    exact ⟨#v[b], rfl, rfl⟩

/-- A field of `n` bytes and the two port bytes after it. -/
theorem toList_eq_append_port {n : Nat} (v : Vector UInt8 (n + 2)) :
    v.toList = v.toList.take n ++ [v[n], v[n + 1]] := by
  apply List.ext_getElem
  · simp
  · intro i h₁ h₂
    have hi : i < n + 2 := by simpa using h₁
    rw [List.getElem_append]
    split_ifs with hlt
    · simp
    · have hlen : (v.toList.take n).length = n := by simp
      rw [hlen] at hlt
      obtain rfl | rfl : i = n ∨ i = n + 1 := by omega
      · simp
      · simp

theorem toList_ofFn_take (v : Vector UInt8 18) :
    (Vector.ofFn fun i : Fin 16 => v[i]).toList = v.toList.take 16 := by
  apply List.ext_getElem
  · simp
  · intro i h₁ h₂
    simp

/-- An IPv4 address and its port. -/
theorem exact_readSocket4 :
    Exact (readFull 6 >>= fun buf => pure (Address.socket
        ⟨addrFrom4 #v[buf[0], buf[1], buf[2], buf[3]], beUint16 buf[4] buf[5]⟩))
      fun msg a => ∃ (b : Bytes4) (p₁ p₀ : UInt8), msg = b.toList ++ [p₁, p₀] ∧
        a = .socket ⟨addrFrom4 b, beUint16 p₁ p₀⟩ := by
  refine ((exact_readFull _ _ 6).map _).congr ?_
  intro msg a
  constructor
  · rintro ⟨⟨⟨l⟩, hl⟩, hmsg, rfl⟩
    match l, hl, hmsg with
    | [b₀, b₁, b₂, b₃, p₁, p₀], _, hmsg => exact ⟨#v[b₀, b₁, b₂, b₃], p₁, p₀, hmsg, rfl⟩
  · rintro ⟨⟨⟨l⟩, hl⟩, p₁, p₀, hmsg, rfl⟩
    match l, hl, hmsg with
    | [b₀, b₁, b₂, b₃], _, hmsg => exact ⟨#v[b₀, b₁, b₂, b₃, p₁, p₀], hmsg, rfl⟩

/-- An IPv6 address and its port. -/
theorem exact_readSocket6 :
    Exact (readFull 18 >>= fun buf => pure (Address.socket
        ⟨addrFrom16 (Vector.ofFn fun i : Fin 16 => buf[i]), beUint16 buf[16] buf[17]⟩))
      fun msg a => ∃ (b : Bytes16) (p₁ p₀ : UInt8), msg = b.toList ++ [p₁, p₀] ∧
        a = .socket ⟨addrFrom16 b, beUint16 p₁ p₀⟩ := by
  refine ((exact_readFull _ _ 18).map _).congr ?_
  intro msg a
  constructor
  · rintro ⟨v, rfl, rfl⟩
    refine ⟨Vector.ofFn fun i : Fin 16 => v[i], v[16], v[17], ?_, rfl⟩
    rw [toList_ofFn_take v]
    exact toList_eq_append_port v
  · rintro ⟨b, p₁, p₀, rfl, rfl⟩
    obtain ⟨v, hv⟩ : ∃ v : Vector UInt8 18, v.toList = b.toList ++ [p₁, p₀] :=
      ⟨⟨(b.toList ++ [p₁, p₀]).toArray, by simp⟩, rfl⟩
    have hsplit := (toList_eq_append_port v).symm.trans hv
    obtain ⟨hb, hport⟩ := List.append_inj hsplit (by simp)
    obtain ⟨hp₁, hp₀⟩ : v[16] = p₁ ∧ v[17] = p₀ := by simpa using hport
    have hvec : (Vector.ofFn fun i : Fin 16 => v[i]) = b :=
      Vector.toList_inj.mp ((toList_ofFn_take v).trans hb)
    exact ⟨v, hv.symm, by rw [hvec, hp₁, hp₀]⟩

/-- A domain, its length before it and its port after it. -/
theorem exact_readDomain :
    Exact (readU8 >>= fun ln => readFull (ln.toNat + 2) >>= fun buf =>
        pure (Address.domain (buf.toList.take ln.toNat) (beUint16 buf[ln.toNat] buf[ln.toNat + 1])))
      fun msg a => ∃ (name : List UInt8) (p₁ p₀ : UInt8), name.length < 256 ∧
        msg = UInt8.ofNat name.length :: name ++ [p₁, p₀] ∧ a = .domain name (beUint16 p₁ p₀) := by
  refine (exact_readU8.bind fun ln => (exact_readFull _ _ (ln.toNat + 2)).map _).congr ?_
  intro msg a
  constructor
  · rintro ⟨m₁, m₂, ln, rfl, ⟨v, rfl, rfl⟩, rfl⟩
    have hlen : (v.toList.take ln.toNat).length = ln.toNat := by simp
    refine ⟨v.toList.take ln.toNat, v[ln.toNat], v[ln.toNat + 1], ?_, ?_, rfl⟩
    · rw [hlen]
      exact ln.toNat_lt
    · rw [hlen, UInt8.ofNat_toNat, List.singleton_append, List.cons_append,
        ← toList_eq_append_port v]
  · rintro ⟨name, p₁, p₀, hlen, rfl, rfl⟩
    have hln : (UInt8.ofNat name.length).toNat = name.length := by
      rw [UInt8.toNat_ofNat', Nat.mod_eq_of_lt hlen]
    have hsize : (name ++ [p₁, p₀]).length = (UInt8.ofNat name.length).toNat + 2 := by simp [hln]
    refine ⟨[UInt8.ofNat name.length], name ++ [p₁, p₀], UInt8.ofNat name.length, rfl,
      ⟨⟨(name ++ [p₁, p₀]).toArray, hsize⟩, rfl, ?_⟩, rfl⟩
    simp only [Vector.toList, Vector.getElem_mk, List.getElem_toArray, hln]
    simp

/-- **Exactness**: `readAddress` accepts the address format and nothing else, and
consumes no byte beyond the address. -/
theorem exact_readAddress : Exact readAddress WireAddress := by
  refine (exact_readU8.bind fun atyp => Exact.ite (fun _ => exact_readSocket4) fun _ =>
    Exact.ite (fun _ => exact_readDomain) fun _ => Exact.ite (fun _ => exact_readSocket6) fun _ =>
      exact_fail (ProtoError.addressType atyp)).congr ?_
  intro msg a
  constructor
  · rintro ⟨m₁, m₂, atyp, rfl, h, rfl⟩
    obtain ⟨rfl, b, p₁, p₀, rfl, rfl⟩ | ⟨-, ⟨rfl, name, p₁, p₀, hlen, rfl, rfl⟩ |
      ⟨-, ⟨rfl, b, p₁, p₀, rfl, rfl⟩ | ⟨-, hfalse⟩⟩⟩ := h
    · exact .ipv4 b p₁ p₀
    · exact .domain name hlen p₁ p₀
    · exact .ipv6 b p₁ p₀
    · exact hfalse.elim
  · intro h
    cases h with
    | ipv4 b p₁ p₀ => exact ⟨[addrIPv4], _, _, rfl, .inl ⟨rfl, b, p₁, p₀, rfl, rfl⟩, rfl⟩
    | ipv6 b p₁ p₀ =>
        exact ⟨[addrIPv6], _, _, rfl, .inr ⟨by decide, .inr ⟨by decide,
          .inl ⟨rfl, b, p₁, p₀, rfl, rfl⟩⟩⟩, rfl⟩
    | domain name hlen p₁ p₀ =>
        exact ⟨[addrDomain], _, _, rfl, .inr
          ⟨by decide, .inl ⟨rfl, name, p₁, p₀, hlen, rfl, rfl⟩⟩, rfl⟩

/-! ## The packet parsers -/

/-- A field of `n` bytes at the front of a packet, the two port bytes after it, and
the rest. -/
theorem eq_field_append_port {l : List UInt8} {n : Nat} (h : n + 2 ≤ l.length) :
    l = l.take n ++ [l[n], l[n + 1]] ++ l.drop (n + 2) := by
  have htake : l.take (n + 2) = l.take n ++ [l[n], l[n + 1]] := by
    rw [List.take_succ_eq_append_getElem (by omega), List.take_succ_eq_append_getElem (by omega),
      List.append_assoc, List.singleton_append]
  rw [← htake, List.take_append_drop]

/-- What `parseAddress` accepts is an address of the format at the front of the
packet, and the count is its length. -/
theorem wireAddress_of_parseAddress {buf : List UInt8} {a : Address} {k : Nat}
    (h : parseAddress buf = .ok (a, k)) :
    ∃ w rest, buf = w ++ rest ∧ w.length = k ∧ WireAddress w a := by
  match buf with
  | [] => simp [parseAddress] at h
  | atyp :: body =>
      simp only [parseAddress] at h
      split_ifs at h with h4 h6 hlen hd
      · split at h
        · next b₀ b₁ b₂ b₃ p₁ p₀ rest =>
            obtain ⟨rfl, rfl⟩ : _ ∧ _ := by simpa using h
            exact ⟨_, rest, by rw [h4]; rfl, rfl, .ipv4 #v[b₀, b₁, b₂, b₃] p₁ p₀⟩
        · simp at h
      · obtain ⟨rfl, rfl⟩ : _ ∧ _ := by simpa using h
        have hfield : (Vector.ofFn fun i : Fin 16 => body[i]).toList = body.take 16 := by
          apply List.ext_getElem
          · simp
            omega
          · intro i h₁ h₂
            simp
        refine ⟨_, body.drop 18, ?_, ?_,
          .ipv6 (Vector.ofFn fun i : Fin 16 => body[i]) body[16] body[17]⟩
        · rw [h6, hfield, List.append_assoc, List.append_assoc, List.singleton_append,
            ← List.append_assoc, ← eq_field_append_port (by omega)]
        · simp
      · match body with
        | [] => simp at h
        | ln :: rest =>
            simp only at h
            split_ifs at h with hlen
            obtain ⟨rfl, rfl⟩ : _ ∧ _ := by simpa using h
            have hname : (rest.take ln.toNat).length = ln.toNat := by
              rw [List.length_take]
              omega
            refine ⟨_, rest.drop (ln.toNat + 2), ?_, ?_, .domain (rest.take ln.toNat)
              (by rw [hname]; exact ln.toNat_lt) rest[ln.toNat] rest[ln.toNat + 1]⟩
            · rw [hd, hname, UInt8.ofNat_toNat, List.append_assoc, List.append_assoc,
                ← List.append_assoc (rest.take _), ← eq_field_append_port (by omega)]
              rfl
            · simp [hname]
              omega

/-- A relay datagram: two reserved bytes, the fragment number, the destination and the
payload. -/
inductive WireDatagram : List UInt8 → UInt8 → Address → List UInt8 → Prop where
  | mk (r₁ r₀ frag : UInt8) {w : List UInt8} {a : Address} (payload : List UInt8)
      (h : WireAddress w a) : WireDatagram ([r₁, r₀, frag] ++ w ++ payload) frag a payload

/-- The third byte of a datagram is its fragment number. -/
theorem WireDatagram.getElem?_two {d : List UInt8} {frag : UInt8} {a : Address}
    {payload : List UInt8} (h : WireDatagram d frag a payload) : d[2]? = some frag := by
  cases h
  simp

/-- What `parseUdpHeader` accepts is a relay datagram, and the payload starts after the
bytes it counts. -/
theorem wireDatagram_of_parseUdpHeader {buf : List UInt8} {hdr : UdpHeader} {hlen : Nat}
    (h : parseUdpHeader buf = .ok (hdr, hlen)) :
    hlen ≤ buf.length ∧ WireDatagram buf hdr.frag hdr.address (buf.drop hlen) := by
  match buf with
  | [] | [_] | [_, _] => simp [parseUdpHeader] at h
  | r₁ :: r₀ :: frag :: body =>
      simp only [parseUdpHeader] at h
      split at h
      · simp at h
      · next addr k haddr =>
          obtain ⟨rfl, rfl⟩ : _ ∧ _ := by simpa using h
          obtain ⟨w, rest, rfl, rfl, hw⟩ := wireAddress_of_parseAddress haddr
          have hdrop : (r₁ :: r₀ :: frag :: (w ++ rest)).drop (3 + w.length) = rest := by
            rw [show r₁ :: r₀ :: frag :: (w ++ rest) = ([r₁, r₀, frag] ++ w) ++ rest by simp]
            exact List.drop_left' (by simp; omega)
          refine ⟨by simp; omega, ?_⟩
          rw [hdrop]
          simpa using WireDatagram.mk r₁ r₀ frag rest hw

end Outway.Socks
