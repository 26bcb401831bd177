import Outway.Connect.Source
import Outway.Socks.Codec
import Outway.Udp.Bounds

/-!
# Outway.Udp.Response

What a response carries and where it goes.

`prepareUDPResponse` writes the header in front of the payload if the buffer has the room, and
builds a new packet otherwise.  Only the first way unmaps the remote address;
`prepareUDPResponse_relays_iff` says when the room matters.

The batch writers keep one `net.UDPAddr` per message and rewrite it with `setUDPAddr`;
`setUDPAddr_faithful_iff` compares what is left in it with `net.UDPAddrFromAddrPort`.
-/

namespace Outway

/-- `Zone` -/
def Addr.zone : Addr → String
  | .v6 _ zone => zone
  | _ => ""

namespace Udp

open Prog
open Socks (Address parseUdpHeader udpHeaderMaxLen appendUint16)

variable {size : Nat}

/-! ## The bytes of a response -/

/-- What is written in place stands in front of what follows it. -/
theorem take_drop_overwrite_append {bs : List UInt8} {off : Nat} {data : List UInt8}
    (h : off + data.length ≤ bs.length) (k : Nat) :
    ((overwrite bs off data).drop off).take (data.length + k) =
      data ++ (bs.drop (off + data.length)).take k := by
  have hoff : (bs.take off).length = off := by
    rw [List.length_take]
    omega
  have hdata : data.take (bs.length - off) = data := List.take_of_length_le (by omega)
  rw [overwrite, hdata, List.append_assoc, List.drop_left' hoff, List.take_length_add_append]

/-- The header written in place is that of `BuildUDPPacket`. -/
theorem responseHeader_append (ap : AddrPort) (payload : List UInt8) :
    responseHeader ap ++ payload = Socks.buildUdpPacket 0 (.socket ap) payload := by
  simp only [responseHeader, Socks.buildUdpPacket]
  split_ifs <;> rfl

/-- Its length is that of the family. -/
theorem length_responseHeader (ap : AddrPort) :
    (responseHeader ap).length = if ap.addr.is4 then 3 + 1 + 4 + 2 else 3 + 1 + 16 + 2 := by
  simp only [responseHeader, appendUint16]
  split_ifs <;> simp

/-- A header written right in front of the payload. -/
theorem header_inPlace {bs header payload : List UInt8} {room : Nat}
    (hheader : header.length ≤ room) (hroom : room + payload.length ≤ bs.length)
    (hpayload : (bs.drop room).take payload.length = payload) :
    ((overwrite bs (room - header.length) header).drop (room - header.length)).take
      (room + payload.length - (room - header.length)) = header ++ payload := by
  have hlen : room + payload.length - (room - header.length) =
      header.length + payload.length := by omega
  have hend : room - header.length + header.length = room := by omega
  rw [hlen, take_drop_overwrite_append (by omega), hend, hpayload]

/-- The readers have put the payload behind the room of the header, or there is no such room. -/
def Placed (payload : List UInt8) (buffer : Buffer size) : Prop :=
  size < udpHeaderMaxLen + payload.length ∨
    (buffer.bytes.drop udpHeaderMaxLen).take payload.length = payload

/-- The client finds the remote end in the header, and the payload behind it. -/
def RelaysFrom (remote : AddrPort) (payload response : List UInt8) : Prop :=
  ∃ n, parseUdpHeader response = .ok (⟨0, .socket remote⟩, n) ∧ response.drop n = payload

section Prepare

variable {payload : Slice} {buffer : Buffer size} {remote : AddrPort}

/-- In place, the header is that of the unmapped address. -/
theorem prepareUDPResponse_inPlace (hroom : udpHeaderMaxLen + payload.bytes.length ≤ size)
    (hplaced : Placed payload.bytes buffer) :
    (prepareUDPResponse payload buffer remote).Ensures fun r =>
      r.1.bytes =
        Socks.buildUdpPacket 0 (.socket ⟨remote.addr.unmap, remote.port⟩) payload.bytes := by
  have hpayload := hplaced.resolve_left (by omega)
  have hbytes := buffer.length_bytes
  have hlen := length_responseHeader ⟨remote.addr.unmap, remote.port⟩
  have hshort : (responseHeader ⟨remote.addr.unmap, remote.port⟩).length ≤ udpHeaderMaxLen := by
    rw [hlen]
    split_ifs <;> decide
  simp only [prepareUDPResponse, if_pos hroom, ensures_bind, ensures_slice, pure_eq, ensures_ret,
    ← hlen]
  refine ⟨by omega, by omega, ?_⟩
  rw [← responseHeader_append]
  exact header_inPlace hshort (hroom.trans_eq hbytes.symm) hpayload

/-- Without the room, it is that of the address as it is. -/
theorem prepareUDPResponse_built (hroom : size < udpHeaderMaxLen + payload.bytes.length) :
    prepareUDPResponse payload buffer remote =
      .ret (⟨none, Socks.buildUdpPacket 0 (.socket remote) payload.bytes⟩, buffer) := by
  rw [prepareUDPResponse, if_neg (by omega)]
  rfl

/-- A reply tells its sender. -/
theorem relaysFrom_buildUdpPacket (h : (Address.socket remote).Encodable) (payload : List UInt8) :
    RelaysFrom remote payload (Socks.buildUdpPacket 0 (.socket remote) payload) :=
  Socks.parseUdpHeader_buildUdpPacket h 0 payload

/-- And only one. -/
theorem RelaysFrom.unique {remote' : AddrPort} {p p' response : List UInt8}
    (h : RelaysFrom remote p response) (h' : RelaysFrom remote' p' response) :
      remote = remote' := by
  obtain ⟨n, hparse, -⟩ := h
  obtain ⟨n', hparse', -⟩ := h'
  rw [hparse] at hparse'
  grind

theorem unmap_eq_self_iff {ip : Addr} : ip.unmap = ip ↔ ip.is4In6 = false := by
  cases ip with
  | zero => simp [Addr.unmap, Addr.is4In6]
  | v4 a => simp [Addr.unmap, Addr.is4In6]
  | v6 a zone =>
      simp only [Addr.unmap]
      split_ifs with hmapped
      · simp [hmapped]
      · simpa using hmapped

/-- An unmapped address can be encoded when the mapped one can. -/
theorem encodable_unmap (h : (Address.socket remote).Encodable) :
    (Address.socket ⟨remote.addr.unmap, remote.port⟩).Encodable := by
  obtain ⟨ip, port⟩ := remote
  cases ip with
  | zero => exact h
  | v4 a => exact h
  | v6 a zone =>
      simp only [Addr.unmap]
      split_ifs
      · trivial
      · exact h

end Prepare

/-- **Responses**: a response carries the unmapped remote address and the payload, as the packet
`BuildUdpPacket` makes of them, unless the remote address is mapped and the buffer has no
room. -/
theorem prepareUDPResponse_relays_iff (payload : Slice) (buffer : Buffer size) (remote : AddrPort)
    (hremote : (Address.socket remote).Encodable) (hplaced : Placed payload.bytes buffer) :
    (prepareUDPResponse payload buffer remote).Ensures (fun r =>
        RelaysFrom ⟨remote.addr.unmap, remote.port⟩ payload.bytes r.1.bytes ∧
          r.1.bytes =
            Socks.buildUdpPacket 0 (.socket ⟨remote.addr.unmap, remote.port⟩) payload.bytes) ↔
      (size < udpHeaderMaxLen + payload.bytes.length → remote.addr.is4In6 = false) := by
  have hunmapped := relaysFrom_buildUdpPacket (encodable_unmap hremote) payload.bytes
  rcases Nat.lt_or_ge size (udpHeaderMaxLen + payload.bytes.length) with hshort | hroom
  · rw [prepareUDPResponse_built hshort, ensures_ret]
    simp only [hshort, true_imp_iff, ← unmap_eq_self_iff]
    constructor
    · intro h
      have hsame := (relaysFrom_buildUdpPacket hremote payload.bytes).unique h.1
      exact (congrArg AddrPort.addr hsame).symm
    · intro hsame
      rw [hsame] at hunmapped ⊢
      exact ⟨hunmapped, rfl⟩
  · refine iff_of_true ?_ fun hshort => absurd hshort (by omega)
    refine (prepareUDPResponse_inPlace hroom hplaced).mono fun r hr => ⟨?_, hr⟩
    rw [hr]
    exact hunmapped

/-- A response from `::ffff:1.2.3.4` with room for the header. -/
theorem prepareUDPResponse_relays_mapped :
    (prepareUDPResponse ⟨none, [0]⟩ (zeroBuffer 263) ⟨.v6 0xffff01020304 "", 53⟩).Ensures fun r =>
      RelaysFrom ⟨.v4 0x01020304, 53⟩ [0] r.1.bytes ∧
        r.1.bytes = Socks.buildUdpPacket 0 (.socket ⟨.v4 0x01020304, 53⟩) [0] :=
  (prepareUDPResponse_relays_iff ⟨none, [0]⟩ (zeroBuffer 263) ⟨.v6 0xffff01020304 "", 53⟩ rfl
    (.inr rfl)).mpr fun hshort => absurd hshort (by decide)

/-- Without the room, the client sees the mapped address. -/
theorem prepareUDPResponse_short :
    ∃ response buffer,
      prepareUDPResponse ⟨none, [0]⟩ (zeroBuffer 1) ⟨.v6 0xffff01020304 "", 53⟩ =
        .ret (response, buffer) ∧
      parseUdpHeader response.bytes = .ok (⟨0, .socket ⟨.v6 0xffff01020304 "", 53⟩⟩, 22) ∧
      (Addr.v6 0xffff01020304 "").unmap = .v4 0x01020304 :=
  ⟨_, _, prepareUDPResponse_built (by decide), by rfl, by rfl⟩

/-! ## The reusable address -/

/-- `net.UDPAddr` -/
structure NetUDPAddr extends UDPAddr where
  zone : String
  deriving DecidableEq

/-- `net.UDPAddrFromAddrPort` -/
def udpAddrFromAddrPort (ap : AddrPort) : NetUDPAddr := ⟨⟨ap.addr.asSlice, ap.port⟩, ap.addr.zone⟩

/-- A `net.UDPAddr` whose `IP` is the front of a backing array of 16 bytes. -/
structure ReusableUDPAddr where
  backing : List UInt8
  len : Nat
  port : UInt16
  zone : String
  length_backing : backing.length = 16
  len_le : len ≤ 16

def newReusableUDPAddr : ReusableUDPAddr := ⟨List.replicate 16 0, 16, 0, "", rfl, le_rfl⟩

namespace ReusableUDPAddr

/-- The address as it is read. -/
def value (dst : ReusableUDPAddr) : NetUDPAddr := ⟨⟨dst.backing.take dst.len, dst.port⟩, dst.zone⟩

/-- `setUDPAddr`: reslice, copy over the front of the backing array, drop the zone. -/
def setUDPAddr (dst : ReusableUDPAddr) (ap : AddrPort) : ReusableUDPAddr :=
  if ap.addr.is4 then
    { backing := overwrite dst.backing 0 ap.addr.as4.toList
      len := 4
      port := ap.port
      zone := ""
      length_backing := by rw [length_overwrite, dst.length_backing]
      len_le := by decide }
  else
    { backing := overwrite dst.backing 0 ap.addr.as16.toList
      len := 16
      port := ap.port
      zone := ""
      length_backing := by rw [length_overwrite, dst.length_backing]
      len_le := le_rfl }

/-- Nothing of what was there before is left. -/
theorem value_setUDPAddr (dst : ReusableUDPAddr) (ap : AddrPort) :
    (dst.setUDPAddr ap).value = ⟨Udp.setUDPAddr ap, ""⟩ := by
  have hread (data : List UInt8) (hlen : 0 + data.length ≤ 16) :
      (overwrite dst.backing 0 data).take data.length = data :=
    take_drop_overwrite (hlen.trans_eq dst.length_backing.symm)
  unfold setUDPAddr Udp.setUDPAddr value
  split_ifs
  · have hbytes := hread ap.addr.as4.toList (by simp)
    rw [Vector.length_toList] at hbytes
    simp only [hbytes]
  · have hbytes := hread ap.addr.as16.toList (by simp)
    rw [Vector.length_toList] at hbytes
    simp only [hbytes]

end ReusableUDPAddr

/-- A valid address and a port. -/
abbrev ValidAddrPort : Type := { ap : AddrPort // ap.addr.isValid = true }

theorem setUDPAddr_eq_asSlice (ap : ValidAddrPort) :
    setUDPAddr ap.1 = ⟨ap.1.addr.asSlice, ap.1.port⟩ := by
  obtain ⟨⟨ip, port⟩, hvalid⟩ := ap
  cases ip with
  | zero => cases hvalid
  | v4 a => rfl
  | v6 a zone => rfl

/-- The reusable address after a sequence of writes. -/
def writeAddrs (aps : List ValidAddrPort) : ReusableUDPAddr :=
  aps.foldl (fun dst ap => dst.setUDPAddr ap.1) newReusableUDPAddr

/-- The reused address is the last that was written. -/
theorem value_writeAddrs_concat (aps : List ValidAddrPort) (ap : ValidAddrPort) :
    (writeAddrs (aps ++ [ap])).value = ⟨setUDPAddr ap, ""⟩ := by
  rw [writeAddrs, List.foldl_concat, ReusableUDPAddr.value_setUDPAddr]

/-- **The reusable address**: after each write of a sequence it is what
`net.UDPAddrFromAddrPort` returns for the address written, exactly if that has no zone. -/
theorem setUDPAddr_faithful_iff (aps : List ValidAddrPort) (i : Fin aps.length) :
    (writeAddrs (aps.take (i + 1))).value = udpAddrFromAddrPort aps[i] ↔
      aps[i].1.addr.zone = "" := by
  rw [List.take_succ_eq_append_getElem i.isLt, value_writeAddrs_concat, setUDPAddr_eq_asSlice]
  simp only [udpAddrFromAddrPort, NetUDPAddr.mk.injEq, true_and, eq_comm, Fin.getElem_fin]

/-- The zone of `fe80::1%eth0` is lost. -/
theorem setUDPAddr_drops_zone :
    let ap : ValidAddrPort := ⟨⟨.v6 0xfe800000000000000000000000000001 "eth0", 53⟩, rfl⟩
    (writeAddrs [ap]).value.zone = "" ∧ (udpAddrFromAddrPort ap).zone = "eth0" :=
  ⟨rfl, rfl⟩

end Udp

end Outway
