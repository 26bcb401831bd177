import Outway.Socks.Handshake

/-!
# Outway.Socks.Codec

The encoders against the decoders.

`wireAddress_iff` says that the address format is what `appendTo` writes for an
`Encodable` address.  The stream readers are exact for formats made of it, and
`parseAddress_eq_ok_iff` / `parseUdpHeader_eq_ok_iff` say the same of the packet
parsers; round trips and the agreement of the two kinds of parser are then read
off the formats.
-/

namespace Outway.Socks

open Reader

/-! ## Port bytes -/

theorem toNat_beUint16 (b₁ b₀ : UInt8) :
    (beUint16 b₁ b₀).toNat = b₁.toNat * 256 + b₀.toNat := by
  have h₁ := b₁.toNat_lt
  have h₀ := b₀.toNat_lt
  have hor := Nat.shiftLeft_add_eq_or_of_lt (i := 8) h₀ b₁.toNat
  simp only [beUint16, UInt16.toNat_or, UInt16.toNat_shiftLeft, UInt8.toNat_toUInt16]
  rw [show (8 : UInt16).toNat % 16 = 8 from rfl, Nat.mod_eq_of_lt, ← hor]
  · rw [Nat.shiftLeft_eq]
  · rw [Nat.shiftLeft_eq]
    omega

/-- The port bytes of the encoder read back. -/
theorem beUint16_bytes (v : UInt16) : beUint16 (v >>> 8).toUInt8 v.toUInt8 = v := by
  apply UInt16.toNat_inj.mp
  have hv := v.toNat_lt
  rw [toNat_beUint16]
  simp only [UInt16.toNat_toUInt8, UInt16.toNat_shiftRight]
  rw [show (8 : UInt16).toNat % 16 = 8 from rfl, Nat.shiftRight_eq_div_pow]
  omega

/-- The encoder writes the port bytes that were read. -/
theorem appendUint16_beUint16 (b : List UInt8) (b₁ b₀ : UInt8) :
    appendUint16 b (beUint16 b₁ b₀) = b ++ [b₁, b₀] := by
  have h₁ := b₁.toNat_lt
  have h₀ := b₀.toNat_lt
  have hhigh : (beUint16 b₁ b₀ >>> 8).toUInt8 = b₁ := by
    apply UInt8.toNat_inj.mp
    simp only [UInt16.toNat_toUInt8, UInt16.toNat_shiftRight, toNat_beUint16]
    rw [show (8 : UInt16).toNat % 16 = 8 from rfl, Nat.shiftRight_eq_div_pow]
    omega
  have hlow : (beUint16 b₁ b₀).toUInt8 = b₀ := by
    apply UInt8.toNat_inj.mp
    rw [UInt16.toNat_toUInt8, toNat_beUint16]
    omega
  rw [appendUint16, hhigh, hlow]

/-! ## Addresses -/

/-- The addresses the format carries: a valid address without a zone, or a domain whose
length fits its length byte. -/
def Address.Encodable : Address → Prop
  | .socket ⟨.zero, _⟩ => False
  | .socket ⟨.v4 _, _⟩ => True
  | .socket ⟨.v6 _ zone, _⟩ => zone = ""
  | .domain name _ => name.length ≤ 255

/-- What can be read can be written. -/
theorem WireAddress.encodable {w : List UInt8} {a : Address} (h : WireAddress w a) :
    a.Encodable := by
  cases h with
  | ipv4 b p₁ p₀ => trivial
  | ipv6 b p₁ p₀ => exact rfl
  | domain name hlen p₁ p₀ => exact Nat.le_of_lt_succ hlen

/-- What is decoded is encoded as it was, after any bytes. -/
theorem WireAddress.appendTo_eq {w : List UInt8} {a : Address} (h : WireAddress w a)
    (b : List UInt8) : a.appendTo b = .ok (b ++ w) := by
  cases h with
  | ipv4 v p₁ p₀ =>
      have hv : (addrFrom4 v).is4 = true := rfl
      simp only [Address.appendTo, hv, if_true]
      rw [as4_addrFrom4, appendUint16_beUint16]
      simp
  | ipv6 v p₁ p₀ =>
      have hv : (addrFrom16 v).is4 = false := rfl
      simp only [Address.appendTo, hv, Bool.false_eq_true, if_false]
      rw [as16_addrFrom16, appendUint16_beUint16]
      simp
  | domain name hlen p₁ p₀ =>
      rw [Address.appendTo, if_neg (by omega), appendUint16_beUint16]
      simp

/-- Every encodable address has a wire form. -/
theorem exists_wireAddress {a : Address} (h : a.Encodable) : ∃ w, WireAddress w a := by
  match a, h with
  | .socket ⟨.v4 v, port⟩, _ =>
      have hw := WireAddress.ipv4 (Addr.v4 v).as4 (port >>> 8).toUInt8 port.toUInt8
      rw [addrFrom4_as4, beUint16_bytes] at hw
      exact ⟨_, hw⟩
  | .socket ⟨.v6 v zone, port⟩, h =>
      obtain rfl : zone = "" := h
      have hw := WireAddress.ipv6 (Addr.v6 v "").as16 (port >>> 8).toUInt8 port.toUInt8
      rw [addrFrom16_as16, beUint16_bytes] at hw
      exact ⟨_, hw⟩
  | .domain name port, h =>
      have hw := WireAddress.domain name (Nat.lt_succ_of_le h) (port >>> 8).toUInt8 port.toUInt8
      rw [beUint16_bytes] at hw
      exact ⟨_, hw⟩

/-- The format is what `appendTo` writes. -/
theorem wireAddress_iff {w : List UInt8} {a : Address} :
    WireAddress w a ↔ a.Encodable ∧ a.appendTo [] = .ok w := by
  constructor
  · intro h
    exact ⟨h.encodable, h.appendTo_eq []⟩
  · intro ⟨hencodable, hw⟩
    obtain ⟨w', hw'⟩ := exists_wireAddress hencodable
    rw [hw'.appendTo_eq] at hw
    obtain rfl : w' = w := Except.ok.inj hw
    exact hw'

/-- The length of an address is that of its bytes. -/
theorem WireAddress.length_eq {w : List UInt8} {a : Address} (h : WireAddress w a) :
    w.length = a.len := by
  cases h with
  | ipv4 b p₁ p₀ => simp [Address.len, addrFrom4, Addr.is4]
  | ipv6 b p₁ p₀ => simp [Address.len, addrFrom16, Addr.is4]
  | domain name hlen p₁ p₀ =>
      simp [Address.len]
      omega

/-- An address is written as it is read. -/
theorem WireAddress.marshalTo_eq {w : List UInt8} {a : Address} (h : WireAddress w a) :
    a.marshalTo = (w, none) := by
  rw [Address.marshalTo, (wireAddress_iff.mp h).2]

/-- A field of `n` bytes at the front of a packet and the port bytes after it. -/
theorem getElem_field_port {field rest body : List UInt8} {p₁ p₀ : UInt8} {n : Nat}
    (hbody : body = field ++ [p₁, p₀] ++ rest) (hn : field.length = n) :
    ∃ h : n + 2 ≤ body.length, body.take n = field ∧ body[n] = p₁ ∧ body[n + 1] = p₀ := by
  subst hbody hn
  simp

/-- `parseAddress` finds an address at the front of a packet. -/
theorem parseAddress_append {w : List UInt8} {a : Address} (h : WireAddress w a)
    (rest : List UInt8) : parseAddress (w ++ rest) = .ok (a, w.length) := by
  cases h with
  | ipv4 b p₁ p₀ =>
      obtain ⟨⟨l⟩, hl⟩ := b
      match l, hl with
      | [b₀, b₁, b₂, b₃], _ => rfl
  | ipv6 b p₁ p₀ =>
      rw [List.append_assoc [addrIPv6], List.append_assoc [addrIPv6], List.singleton_append]
      generalize hbody : b.toList ++ [p₁, p₀] ++ rest = body
      obtain ⟨hlen, hb, hp₁, hp₀⟩ := getElem_field_port hbody.symm b.length_toList
      have hfield : (Vector.ofFn fun i : Fin 16 => body[i]) = b := by
        apply Vector.ext
        intro i hi
        simp [← hbody]
      simp only [parseAddress]
      rw [if_neg (by decide), if_pos trivial, dif_neg (by omega), hfield, hp₁, hp₀]
      simp
  | domain name hname p₁ p₀ =>
      rw [show [addrDomain, UInt8.ofNat name.length] ++ name ++ [p₁, p₀] ++ rest =
        addrDomain :: UInt8.ofNat name.length :: (name ++ [p₁, p₀] ++ rest) by simp]
      generalize hbody : name ++ [p₁, p₀] ++ rest = body
      have hln := toNat_ofNat_length hname
      obtain ⟨hlen, htake, hp₁, hp₀⟩ := getElem_field_port hbody.symm hln.symm
      simp only [parseAddress]
      rw [if_neg (by decide), if_neg (by decide), if_pos trivial, dif_neg (by omega), htake,
        hp₁, hp₀, hln]
      simp
      omega

/-- `parseAddress` accepts exactly the packets with an address at the front. -/
theorem parseAddress_eq_ok_iff {buf : List UInt8} {a : Address} {n : Nat} :
    parseAddress buf = .ok (a, n) ↔ ∃ w rest, WireAddress w a ∧ buf = w ++ rest ∧ n = w.length := by
  constructor
  · intro h
    obtain ⟨w, rest, hbuf, hn, hw⟩ := wireAddress_of_parseAddress h
    exact ⟨w, rest, hw, hbuf, hn.symm⟩
  · rintro ⟨w, rest, hw, rfl, rfl⟩
    exact parseAddress_append hw rest

/-! ## UDP headers -/

/-- `parseUdpHeader` accepts exactly the packets with a header at the front. -/
theorem parseUdpHeader_eq_ok_iff {buf : List UInt8} {hdr : UdpHeader} {n : Nat} :
    parseUdpHeader buf = .ok (hdr, n) ↔ ∃ r₁ r₀ w rest, WireAddress w hdr.address ∧
      buf = [r₁, r₀, hdr.frag] ++ w ++ rest ∧ n = 3 + w.length := by
  constructor
  · intro h
    match buf with
    | [] | [_] | [_, _] => simp [parseUdpHeader] at h
    | r₁ :: r₀ :: frag :: body =>
        simp only [parseUdpHeader] at h
        cases haddr : parseAddress body with
        | error e => simp [haddr] at h
        | ok p =>
            obtain ⟨addr, k⟩ := p
            rw [haddr] at h
            obtain ⟨rfl, rfl⟩ := Prod.mk.inj (Except.ok.inj h)
            obtain ⟨w, rest, hw, rfl, rfl⟩ := parseAddress_eq_ok_iff.mp haddr
            exact ⟨r₁, r₀, w, rest, hw, rfl, rfl⟩
  · rintro ⟨r₁, r₀, w, rest, hw, rfl, rfl⟩
    have haddr := parseAddress_append hw rest
    simp only [List.cons_append, List.nil_append, parseUdpHeader, haddr]

/-- The header of a datagram: two reserved bytes, the fragment and an address. -/
theorem exact_readUdpHeader : Exact readUdpHeader fun msg p => ∃ r₁ r₀ w,
    WireAddress w p.1.address ∧ msg = [r₁, r₀, p.1.frag] ++ w ∧ p.2 = 3 + w.length := by
  refine ((exact_readFull _ _ 3).bind fun buf => exact_readAddress.map _).congr ?_
  intro msg p
  constructor
  · rintro ⟨m₁, w, ⟨⟨l⟩, hl⟩, hm₁, ⟨a, hw, rfl⟩, rfl⟩
    match l, hl, hm₁ with
    | [r₁, r₀, frag], _, hm₁ =>
        exact ⟨r₁, r₀, w, hw, by rw [hm₁]; rfl, by rw [hw.length_eq]; rfl⟩
  · rintro ⟨r₁, r₀, w, hw, rfl, hlen⟩
    obtain ⟨⟨frag, a⟩, n⟩ := p
    refine ⟨_, w, #v[r₁, r₀, frag], rfl, ⟨a, hw, ?_⟩, rfl⟩
    rw [hw.length_eq] at hlen
    exact congrArg (Prod.mk _) hlen

/-- The packet of a wire address. -/
theorem buildUdpPacket_eq (frag : UInt8) {w : List UInt8} {a : Address} (h : WireAddress w a)
    (payload : List UInt8) : buildUdpPacket frag a payload =
      [0x00, 0x00, frag] ++ w ++ payload := by
  cases h with
  | ipv4 b p₁ p₀ =>
      have hb : (addrFrom4 b).is4 = true := rfl
      simp only [buildUdpPacket, hb, if_true]
      rw [as4_addrFrom4, appendUint16_beUint16]
      simp
  | ipv6 b p₁ p₀ =>
      have hb : (addrFrom16 b).is4 = false := rfl
      simp only [buildUdpPacket, hb, Bool.false_eq_true, if_false]
      rw [as16_addrFrom16, appendUint16_beUint16]
      simp
  | domain name hlen p₁ p₀ =>
      rw [buildUdpPacket, appendUint16_beUint16]
      simp

/-! ## Round trips -/

section RoundTrip

variable {a : Address} {req : Request} {login : UsernamePassword} {hdr : UdpHeader}
  {s buf rest : List UInt8} {n : Nat}

/-- An address is read back from its `len` bytes. -/
theorem readAddress_appendTo (h : a.Encodable) :
    ∃ w, w.length = a.len ∧ (∀ b, a.appendTo b = .ok (b ++ w)) ∧
      ∀ rest, readAddress (w ++ rest) = .ok (a, rest) := by
  obtain ⟨w, hw⟩ := exists_wireAddress h
  exact ⟨w, hw.length_eq, hw.appendTo_eq, exact_readAddress.read_append hw⟩

/-- A request that is written is read back. -/
theorem readRequest_marshalTo (h : req.address.Encodable) :
    ∃ w, req.marshalTo = (w, none) ∧ ∀ rest, readRequest (w ++ rest) = .ok (req, rest) := by
  obtain ⟨w, hw⟩ := exists_wireAddress h
  refine ⟨[version5, req.command.byte, 0x00] ++ w, ?_,
    exact_readRequest.read_append ⟨0x00, w, hw, rfl⟩⟩
  rw [Request.marshalTo, hw.marshalTo_eq]

/-- So is a login with fields of at most 255 bytes. -/
theorem readUsernamePassword_marshalTo (hu : login.username.length ≤ 255)
    (hp : login.password.length ≤ 255) (rest : List UInt8) :
    readUsernamePassword (login.marshalTo ++ rest) = .ok (login, rest) :=
  exact_readUsernamePassword.read_append ⟨Nat.lt_succ_of_le hu, Nat.lt_succ_of_le hp, rfl⟩ rest

theorem length_header (r₁ r₀ frag : UInt8) (w : List UInt8) :
    ([r₁, r₀, frag] ++ w).length = 3 + w.length := by
  rw [List.length_append]
  rfl

/-- So is a datagram, and its payload stands behind the header. -/
theorem parseUdpHeader_buildUdpPacket (h : a.Encodable) (frag : UInt8) (payload : List UInt8) :
    ∃ n, parseUdpHeader (buildUdpPacket frag a payload) = .ok (⟨frag, a⟩, n) ∧
      (buildUdpPacket frag a payload).drop n = payload := by
  obtain ⟨w, hw⟩ := exists_wireAddress h
  rw [buildUdpPacket_eq frag hw]
  refine ⟨3 + w.length, ?_, List.drop_left' (length_header _ _ _ w)⟩
  exact parseUdpHeader_eq_ok_iff.mpr ⟨0x00, 0x00, w, payload, hw, rfl, rfl⟩

/-- An address that was read is written as it was. -/
theorem appendTo_of_readAddress (h : readAddress s = .ok (a, rest)) :
    ∃ w, s = w ++ rest ∧ a.appendTo [] = .ok w := by
  obtain ⟨w, hw, rfl⟩ := (exact_readAddress _ _ _).mp h
  exact ⟨w, rfl, (wireAddress_iff.mp hw).2⟩

/-- A request that was read is written as it was, but for its reserved byte. -/
theorem marshalTo_of_readRequest (h : readRequest s = .ok (req, rest)) :
    ∃ v c rsv w, s = [v, c, rsv] ++ w ++ rest ∧ req.marshalTo = ([v, c, 0x00] ++ w, none) := by
  obtain ⟨_, ⟨rsv, w, hw, rfl⟩, rfl⟩ := (exact_readRequest _ _ _).mp h
  refine ⟨version5, req.command.byte, rsv, w, rfl, ?_⟩
  rw [Request.marshalTo, hw.marshalTo_eq]

/-- A login is written as it was read. -/
theorem marshalTo_of_readUsernamePassword (h : readUsernamePassword s = .ok (login, rest)) :
    s = login.marshalTo ++ rest := by
  obtain ⟨_, ⟨-, -, rfl⟩, rfl⟩ := (exact_readUsernamePassword _ _ _).mp h
  rfl

/-- A header that was parsed is written as it was, but for its reserved bytes. -/
theorem buildUdpPacket_of_parseUdpHeader (h : parseUdpHeader buf = .ok (hdr, n)) :
    ∃ r₁ r₀ w, buf.take n = [r₁, r₀] ++ w ∧ hdr.marshalTo = ([0x00, 0x00] ++ w, none) ∧
      buildUdpPacket hdr.frag hdr.address (buf.drop n) = [0x00, 0x00] ++ w ++ buf.drop n := by
  obtain ⟨r₁, r₀, w, rest, hw, rfl, rfl⟩ := parseUdpHeader_eq_ok_iff.mp h
  have hlen := length_header r₁ r₀ hdr.frag w
  rw [List.take_left' hlen, List.drop_left' hlen, buildUdpPacket_eq _ hw]
  refine ⟨r₁, r₀, hdr.frag :: w, rfl, ?_, rfl⟩
  rw [UdpHeader.marshalTo, hw.marshalTo_eq]
  rfl

end RoundTrip

/-- **Round trips.**  Decoding undoes encoding, with nothing read beyond the message:
addresses, requests, logins and packets.  Encoding what was decoded gives the bytes
consumed, but for zeros in the reserved places. -/
theorem codec_roundTrip :
    ((∀ a : Address, a.Encodable → ∃ w, w.length = a.len ∧ (∀ b, a.appendTo b = .ok (b ++ w)) ∧
        ∀ rest, readAddress (w ++ rest) = .ok (a, rest)) ∧
      (∀ req : Request, req.address.Encodable → ∃ w, req.marshalTo = (w, none) ∧
        ∀ rest, readRequest (w ++ rest) = .ok (req, rest)) ∧
      (∀ login : UsernamePassword, login.username.length ≤ 255 → login.password.length ≤ 255 →
        ∀ rest, readUsernamePassword (login.marshalTo ++ rest) = .ok (login, rest)) ∧
      ∀ a : Address, a.Encodable → ∀ (frag : UInt8) (payload : List UInt8), ∃ n,
        parseUdpHeader (buildUdpPacket frag a payload) = .ok (⟨frag, a⟩, n) ∧
          (buildUdpPacket frag a payload).drop n = payload) ∧
    (∀ s a rest, readAddress s = .ok (a, rest) → ∃ w, s = w ++ rest ∧ a.appendTo [] = .ok w) ∧
    (∀ s req rest, readRequest s = .ok (req, rest) → ∃ v c rsv w, s = [v, c, rsv] ++ w ++ rest ∧
      req.marshalTo = ([v, c, 0x00] ++ w, none)) ∧
    (∀ s login rest, readUsernamePassword s = .ok (login, rest) → s = login.marshalTo ++ rest) ∧
    ∀ buf hdr n, parseUdpHeader buf = .ok (hdr, n) → ∃ r₁ r₀ w,
      buf.take n = [r₁, r₀] ++ w ∧ hdr.marshalTo = ([0x00, 0x00] ++ w, none) ∧
        buildUdpPacket hdr.frag hdr.address (buf.drop n) = [0x00, 0x00] ++ w ++ buf.drop n :=
  ⟨⟨fun _ => readAddress_appendTo, fun _ => readRequest_marshalTo,
      fun _ => readUsernamePassword_marshalTo, fun _ => parseUdpHeader_buildUdpPacket⟩,
    fun _ _ _ => appendTo_of_readAddress, fun _ _ _ => marshalTo_of_readRequest,
    fun _ _ _ => marshalTo_of_readUsernamePassword, fun _ _ _ => buildUdpPacket_of_parseUdpHeader⟩

/-! ## The two kinds of parser -/

/-- **Parser agreement.**  The packet parsers accept what the stream readers accept, with
the same result, and the length they report is within the packet and is what the
reader consumes. -/
theorem parse_agrees_read :
    (∀ buf hdr n, parseUdpHeader buf = .ok (hdr, n) →
      n ≤ buf.length ∧ readUdpHeader buf = .ok ((hdr, n), buf.drop n)) ∧
    (∀ buf p rest, readUdpHeader buf = .ok (p, rest) → parseUdpHeader buf = .ok p) ∧
    (∀ buf a n, parseAddress buf = .ok (a, n) →
      n ≤ buf.length ∧ readAddress buf = .ok (a, buf.drop n)) ∧
    ∀ buf a rest, readAddress buf = .ok (a, rest) → ∃ n, parseAddress buf = .ok (a, n) := by
  refine ⟨fun buf hdr n h => ?_, fun buf p rest h => ?_, fun buf a n h => ?_,
    fun buf a rest h => ?_⟩
  · obtain ⟨r₁, r₀, w, rest, hw, rfl, rfl⟩ := parseUdpHeader_eq_ok_iff.mp h
    have hlen := length_header r₁ r₀ hdr.frag w
    rw [List.drop_left' hlen]
    refine ⟨by rw [List.length_append]; omega, ?_⟩
    exact exact_readUdpHeader.read_append (a := (hdr, 3 + w.length)) ⟨r₁, r₀, w, hw, rfl, rfl⟩ rest
  · obtain ⟨_, ⟨r₁, r₀, w, hw, rfl, hlen⟩, rfl⟩ := (exact_readUdpHeader _ _ _).mp h
    exact parseUdpHeader_eq_ok_iff.mpr ⟨r₁, r₀, w, rest, hw, rfl, hlen⟩
  · obtain ⟨w, rest, hw, rfl, rfl⟩ := parseAddress_eq_ok_iff.mp h
    rw [List.drop_left]
    exact ⟨by rw [List.length_append]; omega, exact_readAddress.read_append hw rest⟩
  · obtain ⟨w, hw, rfl⟩ := (exact_readAddress _ _ _).mp h
    exact ⟨w.length, parseAddress_append hw rest⟩

end Outway.Socks
