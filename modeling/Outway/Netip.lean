import Mathlib

/-!
# Outway.Netip

The part of Go's `net/netip` the proxy relies on: addresses, address-port
pairs and prefixes.

An `Addr` is the zero (invalid) address, an IPv4 address or an IPv6 address
with an optional zone; IPv4-mapped IPv6 addresses (`::ffff:a.b.c.d`) are IPv6
addresses until `unmap` turns them into IPv4.  Addresses are kept as the bit
vectors `netip` itself stores; `as4` / `as16` and `addrFrom4` / `addrFrom16`
are the big-endian byte views.
-/

namespace Outway

/-- Go's `[4]byte`. -/
abbrev Bytes4 := Vector UInt8 4

/-- Go's `[16]byte`. -/
abbrev Bytes16 := Vector UInt8 16

/-! ## Big-endian words -/

/-- Byte `k` of a word, counted from the least significant one. -/
def byteOf {w : Nat} (x : BitVec w) (k : Nat) : UInt8 := UInt8.ofBitVec ((x >>> (8 * k)).setWidth 8)

/-- Go's `uint32(b)` and `uint64(b)` on a byte. -/
def widen (w : Nat) (b : UInt8) : BitVec w := b.toBitVec.setWidth w

/-- `binary.BigEndian.Uint32`. -/
def beUint32 (b0 b1 b2 b3 : UInt8) : BitVec 32 :=
  widen 32 b0 <<< 24 ||| widen 32 b1 <<< 16 ||| widen 32 b2 <<< 8 ||| widen 32 b3

/-- `binary.BigEndian.Uint64`. -/
def beUint64 (b0 b1 b2 b3 b4 b5 b6 b7 : UInt8) : BitVec 64 :=
  widen 64 b0 <<< 56 ||| widen 64 b1 <<< 48 ||| widen 64 b2 <<< 40 ||| widen 64 b3 <<< 32 |||
    widen 64 b4 <<< 24 ||| widen 64 b5 <<< 16 ||| widen 64 b6 <<< 8 ||| widen 64 b7

/-- A byte of `x` shifted to `s` carries eight bits of `x` and nothing else. -/
theorem getLsbD_widen_byteOf_shiftLeft {v : Nat} (w : Nat) (x : BitVec v) (k s i : Nat) :
    (widen w (byteOf x k) <<< s).getLsbD i =
      (decide (i < w) && decide (s ≤ i) && decide (i < s + 8) && x.getLsbD (8 * k + (i - s))) := by
  simp only [widen, byteOf, BitVec.getLsbD_shiftLeft, BitVec.getLsbD_setWidth,
    BitVec.getLsbD_ushiftRight]
  grind

/-- The bytes of a word, put together again. -/
theorem beUint32_byteOf (x : BitVec 32) :
    beUint32 (byteOf x 3) (byteOf x 2) (byteOf x 1) (byteOf x 0) = x := by
  apply BitVec.eq_of_getLsbD_eq
  intro i hi
  have h0 := getLsbD_widen_byteOf_shiftLeft 32 x 0 0 i
  rw [BitVec.shiftLeft_zero] at h0
  simp only [beUint32, BitVec.getLsbD_or, getLsbD_widen_byteOf_shiftLeft, h0]
  grind

theorem beUint64_byteOf (x : BitVec 64) :
    beUint64 (byteOf x 7) (byteOf x 6) (byteOf x 5) (byteOf x 4)
      (byteOf x 3) (byteOf x 2) (byteOf x 1) (byteOf x 0) = x := by
  apply BitVec.eq_of_getLsbD_eq
  intro i hi
  have h0 := getLsbD_widen_byteOf_shiftLeft 64 x 0 0 i
  rw [BitVec.shiftLeft_zero] at h0
  simp only [beUint64, BitVec.getLsbD_or, getLsbD_widen_byteOf_shiftLeft, h0]
  grind

/-- A byte shifted to `s`. -/
theorem getLsbD_widen_shiftLeft (w : Nat) (b : UInt8) (s i : Nat) :
    (widen w b <<< s).getLsbD i =
      (decide (i < w) && decide (s ≤ i) && b.toBitVec.getLsbD (i - s)) := by
  simp only [widen, BitVec.getLsbD_shiftLeft, BitVec.getLsbD_setWidth]
  grind

/-- A byte of a word, by its bits. -/
theorem byteOf_eq {w : Nat} {x : BitVec w} {k : Nat} {b : UInt8}
    (h : ∀ i < 8, x.getLsbD (8 * k + i) = b.toBitVec.getLsbD i) : byteOf x k = b := by
  apply UInt8.toBitVec_inj.mp
  apply BitVec.eq_of_getLsbD_eq
  intro i hi
  simp only [byteOf, BitVec.getLsbD_setWidth, BitVec.getLsbD_ushiftRight, hi, decide_true,
    Bool.true_and, h i hi]

/-- A word of bytes has these bytes. -/
theorem byteOf_beUint32 (b0 b1 b2 b3 : UInt8) :
    byteOf (beUint32 b0 b1 b2 b3) 3 = b0 ∧ byteOf (beUint32 b0 b1 b2 b3) 2 = b1 ∧
      byteOf (beUint32 b0 b1 b2 b3) 1 = b2 ∧ byteOf (beUint32 b0 b1 b2 b3) 0 = b3 := by
  have hlow (b : UInt8) (i : Nat) (hi : 8 ≤ i) : b.toBitVec.getLsbD i = false :=
    BitVec.getLsbD_of_ge _ _ hi
  have h0 (i : Nat) := getLsbD_widen_shiftLeft 32 b3 0 i
  simp only [BitVec.shiftLeft_zero] at h0
  refine ⟨byteOf_eq ?_, byteOf_eq ?_, byteOf_eq ?_, byteOf_eq ?_⟩ <;> intro i hi <;>
    simp only [beUint32, BitVec.getLsbD_or, getLsbD_widen_shiftLeft, h0] <;> grind

theorem byteOf_beUint64 (b0 b1 b2 b3 b4 b5 b6 b7 : UInt8) :
    let x := beUint64 b0 b1 b2 b3 b4 b5 b6 b7
    byteOf x 7 = b0 ∧ byteOf x 6 = b1 ∧ byteOf x 5 = b2 ∧ byteOf x 4 = b3 ∧
      byteOf x 3 = b4 ∧ byteOf x 2 = b5 ∧ byteOf x 1 = b6 ∧ byteOf x 0 = b7 := by
  have hlow (b : UInt8) (i : Nat) (hi : 8 ≤ i) : b.toBitVec.getLsbD i = false :=
    BitVec.getLsbD_of_ge _ _ hi
  have h0 (i : Nat) := getLsbD_widen_shiftLeft 64 b7 0 i
  simp only [BitVec.shiftLeft_zero] at h0
  refine ⟨byteOf_eq ?_, byteOf_eq ?_, byteOf_eq ?_, byteOf_eq ?_, byteOf_eq ?_, byteOf_eq ?_,
    byteOf_eq ?_, byteOf_eq ?_⟩ <;> intro i hi <;>
    simp only [beUint64, BitVec.getLsbD_or, getLsbD_widen_shiftLeft, h0] <;> grind

/-! ## Addresses -/

/-- `netip.Addr`; an empty `zone` means no zone. -/
inductive Addr where
  | zero
  | v4 (a : BitVec 32)
  | v6 (a : BitVec 128) (zone : String)
  deriving DecidableEq, Repr

namespace Addr

def isValid : Addr → Bool
  | .zero => false
  | _ => true

def is4 : Addr → Bool
  | .v4 _ => true
  | _ => false

def is6 : Addr → Bool
  | .v6 _ _ => true
  | _ => false

/-- `Is4In6`: an IPv6 address of the form `::ffff:a.b.c.d`. -/
def is4In6 : Addr → Bool
  | .v6 a _ => a >>> 32 == 0xffff#128
  | _ => false

/-- `Unmap` removes the IPv4-mapped prefix, and with it the zone. -/
def unmap : Addr → Addr
  | .v6 a zone => if (Addr.v6 a zone).is4In6 then .v4 (a.setWidth 32) else .v6 a zone
  | ip => ip

def ipv4Unspecified : Addr := .v4 0

def ipv6Unspecified : Addr := .v6 0 ""

/-- `BitLen`: 0 for the zero address. -/
def bitLen : Addr → Nat
  | .zero => 0
  | .v4 _ => 32
  | .v6 _ _ => 128

/-- `As4`, big-endian.  Go panics on the zero address and on IPv6 addresses
that are not IPv4-mapped; every caller in the proxy tests `is4` first. -/
def as4 : Addr → Bytes4
  | .zero => #v[0, 0, 0, 0]
  | .v4 a => #v[byteOf a 3, byteOf a 2, byteOf a 1, byteOf a 0]
  | .v6 a _ => #v[byteOf a 3, byteOf a 2, byteOf a 1, byteOf a 0]

/-- The 128 bits `netip` stores; an IPv4 address is stored IPv4-mapped. -/
def bits128 : Addr → BitVec 128
  | .zero => 0
  | .v4 a => 0xffff#96 ++ a
  | .v6 a _ => a

/-- `As16`, big-endian; the zone is dropped. -/
def as16 (ip : Addr) : Bytes16 :=
  let hi : BitVec 64 := ip.bits128.extractLsb' 64 64
  let lo : BitVec 64 := ip.bits128.extractLsb' 0 64
  #v[byteOf hi 7, byteOf hi 6, byteOf hi 5, byteOf hi 4,
    byteOf hi 3, byteOf hi 2, byteOf hi 1, byteOf hi 0,
    byteOf lo 7, byteOf lo 6, byteOf lo 5, byteOf lo 4,
    byteOf lo 3, byteOf lo 2, byteOf lo 1, byteOf lo 0]

end Addr

/-- `[4]byte{b₃, b₂, b₁, b₀}`. -/
def bytes4 (b₃ b₂ b₁ b₀ : UInt8) : Bytes4 := #v[b₃, b₂, b₁, b₀]

/-- `netip.AddrFrom4`. -/
def addrFrom4 (b : Bytes4) : Addr := .v4 (beUint32 b[0] b[1] b[2] b[3])

/-- `netip.AddrFrom16`: an IPv6 address without a zone, IPv4-mapped or not. -/
def addrFrom16 (b : Bytes16) : Addr :=
  .v6 (beUint64 b[0] b[1] b[2] b[3] b[4] b[5] b[6] b[7] ++
    beUint64 b[8] b[9] b[10] b[11] b[12] b[13] b[14] b[15]) ""

/-- An IPv4 address and its four bytes. -/
theorem addrFrom4_as4 (a : BitVec 32) : addrFrom4 (Addr.v4 a).as4 = .v4 a :=
  congrArg Addr.v4 (beUint32_byteOf a)

theorem as4_addrFrom4 (b : Bytes4) : (addrFrom4 b).as4 = b := by
  obtain ⟨h3, h2, h1, h0⟩ := byteOf_beUint32 b[0] b[1] b[2] b[3]
  simp only [addrFrom4, Addr.as4, h3, h2, h1, h0]
  apply Vector.ext
  intro i hi
  interval_cases i <;> rfl

/-- An IPv6 address and its sixteen bytes. -/
theorem addrFrom16_as16 (a : BitVec 128) : addrFrom16 (Addr.v6 a "").as16 = .v6 a "" := by
  have hhi := beUint64_byteOf (a.extractLsb' 64 64)
  have hlo := beUint64_byteOf (a.extractLsb' 0 64)
  refine congrArg (Addr.v6 · "") ((congrArg₂ (· ++ ·) hhi hlo).trans ?_)
  rw [BitVec.extractLsb'_append_extractLsb']

/-- Sixteen bytes and their address. -/
theorem as16_addrFrom16 (b : Bytes16) : (addrFrom16 b).as16 = b := by
  obtain ⟨h15, h14, h13, h12, h11, h10, h9, h8⟩ :=
    byteOf_beUint64 b[0] b[1] b[2] b[3] b[4] b[5] b[6] b[7]
  obtain ⟨h7, h6, h5, h4, h3, h2, h1, h0⟩ :=
    byteOf_beUint64 b[8] b[9] b[10] b[11] b[12] b[13] b[14] b[15]
  simp only [addrFrom16, Addr.as16, Addr.bits128, BitVec.extractLsb'_append_eq_left,
    BitVec.extractLsb'_append_eq_right, h15, h14, h13, h12, h11, h10, h9, h8, h7, h6, h5,
    h4, h3, h2, h1, h0]
  apply Vector.ext
  intro i hi
  interval_cases i <;> rfl

/-- `netip.AddrPort`. -/
structure AddrPort where
  addr : Addr
  port : UInt16
  deriving DecidableEq, Repr

/-! ## Prefixes -/

/-- `netip.Prefix` as `netip.ParsePrefix` returns it: a valid address without
a zone (host bits may be set) and a length that fits its family. -/
structure Prefix where
  addr : Addr
  bits : Nat
  wf : match addr with
    | .zero => False
    | .v4 _ => bits ≤ 32
    | .v6 _ zone => bits ≤ 128 ∧ zone = ""

namespace Prefix

/-- `Masked().Addr()`: the base with the host bits cleared. -/
def maskedAddr (p : Prefix) : Addr :=
  match p.addr with
  | .zero => .zero
  | .v4 a => .v4 ((a >>> (32 - p.bits)) <<< (32 - p.bits))
  | .v6 a zone => .v6 ((a >>> (128 - p.bits)) <<< (128 - p.bits)) zone

/-- `Contains`: same family, no zone, and the top `bits` bits agree. -/
def contains (p : Prefix) (ip : Addr) : Bool :=
  match p.addr, ip with
  | .v4 a, .v4 b => (b ^^^ a) >>> (32 - p.bits) == 0
  | .v6 a _, .v6 b zone => zone == "" && (b ^^^ a) >>> (128 - p.bits) == 0
  | _, _ => false

end Prefix

end Outway
