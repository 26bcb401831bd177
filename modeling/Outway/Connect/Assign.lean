import Outway.Config
import Outway.Ext
import Outway.Lib.NetHost
import Outway.Connect.ModBound

/-!
# Outway.Connect.Assign

Source-address selection: `assignSourceIP` picks an address of the configured
CIDR for a username extension.  `Session` and `TTL` values pick an address
deterministically, a `Range` value fixes the bits up to the configured range
and leaves the rest to the random generator, and everything else is random.

The random generator is an argument: `RandDraws` holds the numbers it hands
out during one selection.
-/

namespace Outway

open Uint128

/-- What the random generator returns during one selection.  `RandomU32` and
`RandomU64` take the first number of their width, `RandomU128` takes two. -/
structure RandDraws where
  uint32 : BitVec 32
  uint64 : BitVec 64
  nextUint64 : BitVec 64

namespace RandDraws

def randomU32 (rnd : RandDraws) : BitVec 32 := rnd.uint32

def randomU64 (rnd : RandDraws) : BitVec 64 := rnd.uint64

def randomU128 (rnd : RandDraws) : Bytes16 := wordsToBytes rnd.uint64 rnd.nextUint64

end RandDraws

/-! ## uint32 helpers -/

def ipv4ToUint32 (addr : Addr) : BitVec 32 :=
  let b := addr.as4
  widen 32 (b.get 0) <<< 24 ||| widen 32 (b.get 1) <<< 16 ||| widen 32 (b.get 2) <<< 8 |||
    widen 32 (b.get 3)

def uint32ToIPv4 (v : BitVec 32) : Addr :=
  addrFrom4 (bytes4 (byteOf v 3) (byteOf v 2) (byteOf v 1) (byteOf v 0))

/-- The four bytes of an IPv4 address are its word. -/
theorem ipv4ToUint32_v4 (a : BitVec 32) : ipv4ToUint32 (.v4 a) = a := beUint32_byteOf a

/-- And a word is an IPv4 address. -/
theorem uint32ToIPv4_eq (v : BitVec 32) : uint32ToIPv4 v = .v4 v :=
  congrArg Addr.v4 (beUint32_byteOf v)

/-! ## The selection -/

/-- `extractValue`: the value carried by the extension, if any. -/
def extractValue (e : Extension) : Option (BitVec 64) :=
  match e.type with
  | .range | .session | .ttl => some e.value
  | .none => none

def assignRandIPv4 (rnd : RandDraws) (cidr : Prefix) : Addr :=
  let prefixLen := cidr.bits
  let base := ipv4ToUint32 cidr.maskedAddr
  let r := rnd.randomU32
  let netPart := (base >>> (32 - prefixLen)) <<< (32 - prefixLen)
  let hostPart := (r <<< prefixLen) >>> prefixLen
  uint32ToIPv4 (netPart ||| hostPart)

def assignRandIPv6 (rnd : RandDraws) (cidr : Prefix) : Addr :=
  let prefixLen := cidr.bits
  let base := ipv6ToUint128 cidr.maskedAddr
  let r128 := bytesToUint128 rnd.randomU128
  let hostBits := 128 - prefixLen
  let netMask := notUint128 (newUint128FromBitRange hostBits)
  let netPart := andUint128 base netMask
  let hostMask := newUint128FromBitRange hostBits
  let hostPart := andUint128 r128 hostMask
  uint128ToIPv6 (orUint128 netPart hostPart)

/-- The unsigned `width - rng` of the `WithRange` functions, as a shift count.
Go's subtraction wraps when `rng` exceeds the width, and a shift by the wrapped
count clears the word, as a shift by the width does. -/
def bitsBelow (width : Nat) (rng : UInt8) : Nat :=
  if rng.toNat ≤ width then width - rng.toNat else width

def assignIPv4WithRange (rnd : RandDraws) (cidr : Prefix) (rng : UInt8) (combined : BitVec 32) :
    Addr :=
  let base := ipv4ToUint32 cidr.maskedAddr
  let prefixLen := cidr.bits
  if rng.toNat < prefixLen then assignRandIPv4 rnd cidr
  else
    let combinedShifted :=
      (combined &&& (1#32 <<< (rng.toNat - prefixLen) - 1#32)) <<< bitsBelow 32 rng
    let subnetMask := 0xffffffff#32 <<< (32 - prefixLen)
    let subnetWithFixed := (base &&& subnetMask) ||| combinedShifted
    let hostMask := 1#32 <<< bitsBelow 32 rng - 1#32
    let hostPart := rnd.randomU32 &&& hostMask
    uint32ToIPv4 (subnetWithFixed ||| hostPart)

def assignIPv6WithRange (rnd : RandDraws) (cidr : Prefix) (rng : UInt8) (combined : Uint128) :
    Addr :=
  let base := ipv6ToUint128 cidr.maskedAddr
  let prefixLen := cidr.bits
  if rng.toNat < prefixLen then assignRandIPv6 rnd cidr
  else
    let maskBits := if rng.toNat - prefixLen < 128
      then subUint128 (newUint128LShiftOne (rng.toNat - prefixLen)) uint128One
      else uint128FromU64 0
    let combinedShifted := shlUint128 (andUint128 combined maskBits) (bitsBelow 128 rng)
    let subnetMask := notUint128 (subUint128 (newUint128LShiftOne (128 - prefixLen)) uint128One)
    let subnetWithFixed := orUint128 (andUint128 base subnetMask) combinedShifted
    let hostMask := subUint128 (newUint128LShiftOne (bitsBelow 128 rng)) uint128One
    let hostPart := andUint128 (uint128FromU64 rnd.randomU64) hostMask
    uint128ToIPv6 (orUint128 subnetWithFixed hostPart)

/-- The deterministic choice of `assignIPv4FromExtension` for a `TTL` or
`Session` value. -/
def assignIPv4Sticky (cidr : Prefix) (combined : BitVec 64) : Addr :=
  let prefixLen := cidr.bits
  if prefixLen ≥ 32 then cidr.maskedAddr
  else
    let subnetMask := 0xffffffff#32 <<< (32 - prefixLen)
    let base := ipv4ToUint32 cidr.maskedAddr &&& subnetMask
    let capacity := 1#32 <<< (32 - prefixLen) - 1#32
    if capacity = 0 then cidr.maskedAddr
    else uint32ToIPv4 (base ||| (combined.setWidth 32 % capacity))

/-- The deterministic choice of `assignIPv6FromExtension` for a `TTL` or
`Session` value. -/
def assignIPv6Sticky (cidr : Prefix) (combined : BitVec 64) : Addr :=
  let prefixLen := cidr.bits
  if prefixLen ≥ 128 then cidr.maskedAddr
  else
    let hostBits := 128 - prefixLen
    let mask := newUint128FromBitRange hostBits
    let base := ipv6ToUint128 cidr.maskedAddr
    let subnetMask := notUint128 mask
    let capacity := subUint128 (newUint128LShiftOne hostBits) uint128One
    if isZeroUint128 capacity then cidr.maskedAddr
    else
      let mod := modUint128 (uint128FromU64 combined) capacity
      uint128ToIPv6 (orUint128 (andUint128 base subnetMask) mod)

def assignIPv4FromExtension (rnd : RandDraws) (cidr : Prefix) (cidrRange : Option UInt8)
    (e : Extension) : Addr :=
  match extractValue e with
  | none => assignRandIPv4 rnd cidr
  | some combined =>
      match e.type with
      | .ttl | .session => assignIPv4Sticky cidr combined
      | .range =>
          match cidrRange with
          | some rng => assignIPv4WithRange rnd cidr rng (combined.setWidth 32)
          | none => assignRandIPv4 rnd cidr
      | .none => assignRandIPv4 rnd cidr

def assignIPv6FromExtension (rnd : RandDraws) (cidr : Prefix) (cidrRange : Option UInt8)
    (e : Extension) : Addr :=
  match extractValue e with
  | none => assignRandIPv6 rnd cidr
  | some combined =>
      match e.type with
      | .ttl | .session => assignIPv6Sticky cidr combined
      | .range =>
          match cidrRange with
          | some rng => assignIPv6WithRange rnd cidr rng (uint128FromU64 combined)
          | none => assignRandIPv6 rnd cidr
      | .none => assignRandIPv6 rnd cidr

/-- `assignSourceIP` picks a source address from the CIDR for the extension. -/
def assignSourceIP (rnd : RandDraws) (cidr : Prefix) (cidrRange : Option UInt8) (e : Extension) :
    Addr :=
  if cidr.addr.is4 then assignIPv4FromExtension rnd cidr cidrRange e
  else assignIPv6FromExtension rnd cidr cidrRange e

/-! ## Containment -/

open NetHost

namespace Prefix

/-- An IPv4 word is in the prefix when it has the base's network part. -/
theorem contains_v4 {p : Prefix} {a x : BitVec 32} (ha : p.addr = .v4 a)
    (h : x >>> (32 - p.bits) = a >>> (32 - p.bits)) : p.contains (.v4 x) = true := by
  simp [contains, ha, BitVec.ushiftRight_xor_distrib, h]

/-- A zone-free IPv6 word is in the prefix when it has the base's network part. -/
theorem contains_v6 {p : Prefix} {a x : BitVec 128} {zone : String} (ha : p.addr = .v6 a zone)
    (h : x >>> (128 - p.bits) = a >>> (128 - p.bits)) : p.contains (.v6 x "") = true := by
  simp [contains, ha, BitVec.ushiftRight_xor_distrib, h]

/-- An IPv4 network has at most 32 bits. -/
theorem bits_le_of_v4 {p : Prefix} {a : BitVec 32} (ha : p.addr = .v4 a) : p.bits ≤ 32 := by
  simpa only [ha] using p.wf

/-- An IPv6 network has at most 128 bits, and no zone. -/
theorem bits_le_of_v6 {p : Prefix} {a : BitVec 128} {zone : String} (ha : p.addr = .v6 a zone) :
    p.bits ≤ 128 ∧ zone = "" := by
  simpa only [ha] using p.wf

/-- `Masked` clears the host bits. -/
theorem maskedAddr_v4 {p : Prefix} {a : BitVec 32} (ha : p.addr = .v4 a) :
    p.maskedAddr = .v4 ((a >>> (32 - p.bits)) <<< (32 - p.bits)) := by
  simp only [maskedAddr, ha]

theorem maskedAddr_v6 {p : Prefix} {a : BitVec 128} {zone : String} (ha : p.addr = .v6 a zone) :
    p.maskedAddr = .v6 ((a >>> (128 - p.bits)) <<< (128 - p.bits)) "" := by
  simp only [maskedAddr, ha, (bits_le_of_v6 ha).2]

end Prefix

section IPv4

variable {cidr : Prefix} {a : BitVec 32}

/-- The base word the branches start from keeps the network part of the CIDR. -/
theorem base_shiftRight_v4 (ha : cidr.addr = .v4 a) :
    ipv4ToUint32 cidr.maskedAddr >>> (32 - cidr.bits) = a >>> (32 - cidr.bits) := by
  rw [Prefix.maskedAddr_v4 ha, ipv4ToUint32_v4, clear_shiftRight]

/-- The address of the network is in it. -/
theorem maskedAddr_mem_v4 (ha : cidr.addr = .v4 a) : cidr.contains cidr.maskedAddr = true := by
  rw [Prefix.maskedAddr_v4 ha]
  exact Prefix.contains_v4 ha (clear_shiftRight a _)

/-- A network part of the CIDR joined with a host part is in the CIDR. -/
theorem uint32ToIPv4_mem (ha : cidr.addr = .v4 a) {net host : BitVec 32}
    (hnet : net >>> (32 - cidr.bits) = a >>> (32 - cidr.bits))
    (hhost : IsHost (32 - cidr.bits) host) :
    cidr.contains (uint32ToIPv4 (net ||| host)) = true := by
  rw [uint32ToIPv4_eq]
  exact Prefix.contains_v4 ha ((or_host_shiftRight hhost).trans hnet)

/-- A random IPv4 address is in the network. -/
theorem assignRandIPv4_mem (ha : cidr.addr = .v4 a) (rnd : RandDraws) :
    cidr.contains (assignRandIPv4 rnd cidr) = true :=
  uint32ToIPv4_mem ha ((clear_shiftRight _ _).trans (base_shiftRight_v4 ha))
    (isHost_shiftLeft_shiftRight rnd.randomU32 cidr.bits)

/-- So is the one that a session sticks to. -/
theorem assignIPv4Sticky_mem (ha : cidr.addr = .v4 a) (combined : BitVec 64) :
    cidr.contains (assignIPv4Sticky cidr combined) = true := by
  simp only [assignIPv4Sticky]
  split_ifs with h32 hcap
  · exact maskedAddr_mem_v4 ha
  · exact maskedAddr_mem_v4 ha
  · apply uint32ToIPv4_mem ha
    · rw [show (0xffffffff#32) = BitVec.allOnes 32 by rfl, and_shiftLeft_ones_shiftRight]
      exact base_shiftRight_v4 ha
    · have hmask := toNat_lowMask (w := 32) (show 32 - cidr.bits ≤ 32 by omega)
      have hpos : (1#32 <<< (32 - cidr.bits) - 1#32).toNat ≠ 0 :=
        fun h0 => hcap (BitVec.eq_of_toNat_eq h0)
      have hmod := Nat.mod_lt (combined.setWidth 32).toNat (Nat.pos_of_ne_zero hpos)
      apply isHost_of_le
      rw [BitVec.toNat_umod]
      omega

/-- And the one of a range. -/
theorem assignIPv4WithRange_mem (ha : cidr.addr = .v4 a) {rng : UInt8}
    (hr : cidr.acceptsRange rng) (rnd : RandDraws) (combined : BitVec 32) :
    cidr.contains (assignIPv4WithRange rnd cidr rng combined) = true := by
  obtain ⟨hlo, hhi⟩ := hr
  have hhi32 : rng.toNat ≤ 32 := by simpa only [ha, Addr.bitLen] using hhi
  have hbelow : bitsBelow 32 rng = 32 - rng.toNat := if_pos hhi32
  simp only [assignIPv4WithRange]
  rw [if_neg (by omega), hbelow]
  -- the fixed bits end where the prefix begins, the random bits end below them
  have hfixed : IsHost (32 - cidr.bits)
      ((combined &&& (1#32 <<< (rng.toNat - cidr.bits) - 1#32)) <<< (32 - rng.toNat)) := by
    have hmask := toNat_lowMask (w := 32) (show rng.toNat - cidr.bits ≤ 32 by omega)
    have := (isHost_and_right (x := combined) (isHost_of_le hmask.le)).shiftLeft
      (i := 32 - rng.toNat)
    exact this.mono (by omega)
  have hrand : IsHost (32 - cidr.bits)
      (rnd.randomU32 &&& (1#32 <<< (32 - rng.toNat) - 1#32)) := by
    have hmask := toNat_lowMask (w := 32) (show 32 - rng.toNat ≤ 32 by omega)
    exact (isHost_and_right (isHost_of_le hmask.le)).mono (by omega)
  apply uint32ToIPv4_mem ha _ hrand
  rw [or_host_shiftRight hfixed, show (0xffffffff#32) = BitVec.allOnes 32 by rfl,
    and_shiftLeft_ones_shiftRight]
  exact base_shiftRight_v4 ha

/-- Whatever the extension asks for, the address is in the network. -/
theorem assignIPv4FromExtension_mem (ha : cidr.addr = .v4 a) {cidrRange : Option UInt8}
    (hr : ∀ r, cidrRange = some r → cidr.acceptsRange r) (rnd : RandDraws) (e : Extension) :
    cidr.contains (assignIPv4FromExtension rnd cidr cidrRange e) = true := by
  unfold assignIPv4FromExtension
  cases extractValue e with
  | none => exact assignRandIPv4_mem ha rnd
  | some combined =>
      cases e.type with
      | none => exact assignRandIPv4_mem ha rnd
      | ttl => exact assignIPv4Sticky_mem ha combined
      | session => exact assignIPv4Sticky_mem ha combined
      | range =>
          cases cidrRange with
          | none => exact assignRandIPv4_mem ha rnd
          | some rng => exact assignIPv4WithRange_mem ha (hr rng rfl) rnd _

end IPv4

section IPv6

variable {cidr : Prefix} {a : BitVec 128} {zone : String}

/-- The base keeps the bits of the network. -/
theorem base_shiftRight_v6 (ha : cidr.addr = .v6 a zone) :
    (ipv6ToUint128 cidr.maskedAddr).toBitVec >>> (128 - cidr.bits) = a >>> (128 - cidr.bits) := by
  rw [Prefix.maskedAddr_v6 ha, toBitVec_ipv6ToUint128, clear_shiftRight]

theorem maskedAddr_mem_v6 (ha : cidr.addr = .v6 a zone) :
    cidr.contains cidr.maskedAddr = true := by
  rw [Prefix.maskedAddr_v6 ha]
  exact Prefix.contains_v6 ha (clear_shiftRight a _)

/-- A network part of the CIDR joined with a host part is in the CIDR. -/
theorem uint128ToIPv6_mem (ha : cidr.addr = .v6 a zone) {net host : Uint128}
    (hnet : net.toBitVec >>> (128 - cidr.bits) = a >>> (128 - cidr.bits))
    (hhost : IsHost (128 - cidr.bits) host.toBitVec) :
    cidr.contains (uint128ToIPv6 (orUint128 net host)) = true := by
  rw [uint128ToIPv6_eq, toBitVec_orUint128]
  exact Prefix.contains_v6 ha ((or_host_shiftRight hhost).trans hnet)

/-- Clearing the host bits with the complement of a host mask keeps the network
part, whichever of the two helpers built the mask. -/
theorem and_not_mask_v6 (ha : cidr.addr = .v6 a zone) {mask : Uint128}
    (hmask : mask.toNat = 2 ^ (128 - cidr.bits) - 1) :
    (andUint128 (ipv6ToUint128 cidr.maskedAddr) (notUint128 mask)).toBitVec >>> (128 - cidr.bits) =
      a >>> (128 - cidr.bits) := by
  rw [toBitVec_andUint128, toBitVec_notUint128,
    and_not_mask_shiftRight _ ((toNat_toBitVec mask).trans hmask)]
  exact base_shiftRight_v6 ha

/-- A word cut with a mask of `k` low bits is a host part of `k` bits. -/
theorem isHost_andUint128 {x mask : Uint128} {k : Nat} (hmask : mask.toNat = 2 ^ k - 1) :
    IsHost k (andUint128 x mask).toBitVec := by
  rw [toBitVec_andUint128]
  exact isHost_and_right (isHost_of_le ((toNat_toBitVec mask).trans hmask).le)

/-- A random IPv6 address is in the network. -/
theorem assignRandIPv6_mem (ha : cidr.addr = .v6 a zone) (rnd : RandDraws) :
    cidr.contains (assignRandIPv6 rnd cidr) = true := by
  have hmask := toNat_newUint128FromBitRange (show 128 - cidr.bits ≤ 128 by omega)
  exact uint128ToIPv6_mem ha (and_not_mask_v6 ha hmask) (isHost_andUint128 hmask)

/-- So is the one that a session sticks to, whatever remainder `modUint128` has computed. -/
theorem assignIPv6Sticky_mem (ha : cidr.addr = .v6 a zone) (combined : BitVec 64) :
    cidr.contains (assignIPv6Sticky cidr combined) = true := by
  simp only [assignIPv6Sticky]
  split_ifs with h128 hcap
  · exact maskedAddr_mem_v6 ha
  · exact maskedAddr_mem_v6 ha
  · have hle : 128 - cidr.bits ≤ 128 := by omega
    apply uint128ToIPv6_mem ha (and_not_mask_v6 ha (toNat_newUint128FromBitRange hle))
    simp only [IsHost, toNat_toBitVec]
    exact toNat_modUint128_lt combined (by omega) (toNat_sub_lShiftOne_one hle)

/-- And the one of a range. -/
theorem assignIPv6WithRange_mem (ha : cidr.addr = .v6 a zone) {rng : UInt8}
    (hr : cidr.acceptsRange rng) (rnd : RandDraws) (combined : Uint128) :
    cidr.contains (assignIPv6WithRange rnd cidr rng combined) = true := by
  obtain ⟨hlo, hhi⟩ := hr
  have hhi128 : rng.toNat ≤ 128 := by simpa only [ha, Addr.bitLen] using hhi
  have hbelow : bitsBelow 128 rng = 128 - rng.toNat := if_pos hhi128
  simp only [assignIPv6WithRange]
  rw [if_neg (by omega), hbelow]
  -- the fixed bits end where the prefix begins, the random bits end below them
  have hfixed : IsHost (128 - cidr.bits)
      (shlUint128 (andUint128 combined (if rng.toNat - cidr.bits < 128
        then subUint128 (newUint128LShiftOne (rng.toNat - cidr.bits)) uint128One
        else uint128FromU64 0)) (128 - rng.toNat)).toBitVec := by
    rw [toBitVec_shlUint128]
    split_ifs with hwidth
    · have hmask := toNat_sub_lShiftOne_one (show rng.toNat - cidr.bits ≤ 128 by omega)
      exact ((isHost_andUint128 hmask).shiftLeft).mono (by omega)
    · have hmask : (uint128FromU64 0).toNat = 2 ^ 0 - 1 := rfl
      exact ((isHost_andUint128 hmask).shiftLeft).mono (by omega)
  have hrand : IsHost (128 - cidr.bits) (andUint128 (uint128FromU64 rnd.randomU64)
      (subUint128 (newUint128LShiftOne (128 - rng.toNat)) uint128One)).toBitVec := by
    have hmask := toNat_sub_lShiftOne_one (show 128 - rng.toNat ≤ 128 by omega)
    exact (isHost_andUint128 hmask).mono (by omega)
  apply uint128ToIPv6_mem ha _ hrand
  rw [toBitVec_orUint128, or_host_shiftRight hfixed]
  exact and_not_mask_v6 ha (toNat_sub_lShiftOne_one (by omega))

/-- Whatever the extension asks for, the address is in the network. -/
theorem assignIPv6FromExtension_mem (ha : cidr.addr = .v6 a zone) {cidrRange : Option UInt8}
    (hr : ∀ r, cidrRange = some r → cidr.acceptsRange r) (rnd : RandDraws) (e : Extension) :
    cidr.contains (assignIPv6FromExtension rnd cidr cidrRange e) = true := by
  unfold assignIPv6FromExtension
  cases extractValue e with
  | none => exact assignRandIPv6_mem ha rnd
  | some combined =>
      cases e.type with
      | none => exact assignRandIPv6_mem ha rnd
      | ttl => exact assignIPv6Sticky_mem ha combined
      | session => exact assignIPv6Sticky_mem ha combined
      | range =>
          cases cidrRange with
          | none => exact assignRandIPv6_mem ha rnd
          | some rng => exact assignIPv6WithRange_mem ha (hr rng rfl) rnd _

end IPv6

/-- Every branch of the selection stays inside the CIDR. -/
theorem assignSourceIP_mem {cidr : Prefix} {cidrRange : Option UInt8}
    (hr : ∀ r, cidrRange = some r → cidr.acceptsRange r) (rnd : RandDraws) (e : Extension) :
    cidr.contains (assignSourceIP rnd cidr cidrRange e) = true := by
  unfold assignSourceIP
  cases ha : cidr.addr with
  | zero => exact absurd cidr.wf (by simp [ha])
  | v4 a => exact assignIPv4FromExtension_mem ha hr rnd e
  | v6 a zone => exact assignIPv6FromExtension_mem ha hr rnd e

/-- `contains` relates addresses of one family only. -/
theorem Prefix.family_of_contains {p : Prefix} {ip : Addr} (h : p.contains ip = true) :
    ip.is4 = p.addr.is4 ∧ ip.is6 = p.addr.is6 := by
  unfold contains at h
  cases ha : p.addr <;> cases ip <;> simp_all [Addr.is4, Addr.is6]

/-- A `Session` or `TTL` extension draws no random number. -/
theorem assignSourceIP_sticky {e : Extension} (he : e.type = .session ∨ e.type = .ttl)
    (rnd rnd' : RandDraws) (cidr : Prefix) (cidrRange : Option UInt8) :
    assignSourceIP rnd cidr cidrRange e = assignSourceIP rnd' cidr cidrRange e := by
  unfold assignSourceIP assignIPv4FromExtension assignIPv6FromExtension extractValue
  rcases he with he | he <;> simp only [he]

/-- The address picked for an outbound connection is of the CIDR's family and
inside the CIDR, whatever the extension and the random numbers; for the sticky
extensions the random numbers play no part. -/
theorem assignSourceIP_in_cidr (cidr : Prefix) (cidrRange : Option UInt8)
    (hr : ∀ r, cidrRange = some r → cidr.acceptsRange r) (e : Extension) (rnd : RandDraws) :
    (assignSourceIP rnd cidr cidrRange e).is4 = cidr.addr.is4 ∧
      (assignSourceIP rnd cidr cidrRange e).is6 = cidr.addr.is6 ∧
      cidr.contains (assignSourceIP rnd cidr cidrRange e) = true ∧
      (e.type = .session ∨ e.type = .ttl →
        ∀ rnd', assignSourceIP rnd' cidr cidrRange e = assignSourceIP rnd cidr cidrRange e) := by
  have hmem := assignSourceIP_mem hr rnd e
  obtain ⟨h4, h6⟩ := Prefix.family_of_contains hmem
  exact ⟨h4, h6, hmem, fun he rnd' => assignSourceIP_sticky he rnd' rnd cidr cidrRange⟩

/-- A `/48` with range 64, a session value and all random bits set. -/
theorem assignSourceIP_in_cidr_v6 :
    let cidr : Prefix := ⟨.v6 0x20010db8000100000000000000000000#128 "", 48, by simp⟩
    let rnd : RandDraws := ⟨0xffffffff#32, 0xffffffffffffffff#64, 0xffffffffffffffff#64⟩
    cidr.acceptsRange 64 ∧
      cidr.contains (assignSourceIP rnd cidr (some 64) ⟨.session, 0xdeadbeef#64⟩) = true := by
  intro cidr rnd
  have hr : cidr.acceptsRange 64 := by decide
  have hrange : ∀ r, some (64 : UInt8) = some r → cidr.acceptsRange r := by
    intro r h
    exact (Option.some.inj h) ▸ hr
  exact ⟨hr, (assignSourceIP_in_cidr cidr (some 64) hrange ⟨.session, 0xdeadbeef#64⟩ rnd).2.2.1⟩

end Outway
