import Outway.Connect.Assign

/-!
# Outway.Connect.Words

The selected source addresses as numbers.

Every selection joins the network part of the CIDR with bits of its own, and the parts
do not overlap, so the address is their sum.  `Addr.top` is how the results about
selections read an address: by its leading bits.
-/

namespace Outway

open Uint128 NetHost

namespace Addr

/-- The address as a number. -/
def word : Addr → Nat
  | .zero => 0
  | .v4 a => a.toNat
  | .v6 a _ => a.toNat

/-- The `r` leading bits of an address. -/
def top (r : Nat) (ip : Addr) : Nat := ip.word / 2 ^ (ip.bitLen - r)

end Addr

namespace Prefix

/-- The network part of the CIDR, as a number. -/
def network (cidr : Prefix) : Nat :=
  cidr.addr.top cidr.bits * 2 ^ (cidr.addr.bitLen - cidr.bits)

/-- The network is the address without its host bits. -/
theorem network_v4 {cidr : Prefix} {a : BitVec 32} (ha : cidr.addr = .v4 a) :
    cidr.network = a.toNat / 2 ^ (32 - cidr.bits) * 2 ^ (32 - cidr.bits) := by
  simp only [network, Addr.top, Addr.word, Addr.bitLen, ha]

theorem network_v6 {cidr : Prefix} {a : BitVec 128} {zone : String} (ha : cidr.addr = .v6 a zone) :
    cidr.network = a.toNat / 2 ^ (128 - cidr.bits) * 2 ^ (128 - cidr.bits) := by
  simp only [network, Addr.top, Addr.word, Addr.bitLen, ha]

/-! ## Host parts -/

/-- The address of the CIDR with the given host part. -/
def withHost (cidr : Prefix) (host : Nat) : Addr :=
  match cidr.addr with
  | .zero => .zero
  | .v4 _ => .v4 (BitVec.ofNat 32 (cidr.network + host))
  | .v6 _ _ => .v6 (BitVec.ofNat 128 (cidr.network + host)) ""

section WithHost

variable {cidr : Prefix} {ip : Addr} {host : Nat}

/-- An address with the number of network and host is the network with the host put in. -/
theorem withHost_v4 {a x : BitVec 32} (ha : cidr.addr = .v4 a)
    (hx : x.toNat = cidr.network + host) : .v4 x = cidr.withHost host := by
  simp only [withHost, ha, ← hx, BitVec.ofNat_toNat, BitVec.setWidth_eq]

theorem withHost_v6 {a x : BitVec 128} {zone : String} (ha : cidr.addr = .v6 a zone)
    (hx : x.toNat = cidr.network + host) : .v6 x "" = cidr.withHost host := by
  simp only [withHost, ha, ← hx, BitVec.ofNat_toNat, BitVec.setWidth_eq]

/-- The number of an address has the width of its family. -/
theorem word_lt (ip : Addr) : ip.word < 2 ^ ip.bitLen := by
  cases ip with
  | zero => decide
  | v4 a => exact a.isLt
  | v6 a zone => exact a.isLt

/-- A host part does not overflow the address. -/
theorem network_add_lt (hhost : host < 2 ^ (cidr.addr.bitLen - cidr.bits)) :
    cidr.network + host < 2 ^ cidr.addr.bitLen :=
  clear_add_host_lt (word_lt cidr.addr) (by omega) hhost

theorem bitLen_withHost : (cidr.withHost host).bitLen = cidr.addr.bitLen := by
  unfold withHost
  cases cidr.addr <;> rfl

/-- The number of an address is that of its network and its host part. -/
theorem word_withHost (hhost : host < 2 ^ (cidr.addr.bitLen - cidr.bits)) :
    (cidr.withHost host).word = cidr.network + host := by
  have hlt := network_add_lt hhost
  cases ha : cidr.addr with
  | zero => exact absurd cidr.wf (by simp [ha])
  | v4 a =>
      rw [ha] at hlt
      simp only [withHost, ha, Addr.word, BitVec.toNat_ofNat]
      exact Nat.mod_eq_of_lt hlt
  | v6 a zone =>
      rw [ha] at hlt
      simp only [withHost, ha, Addr.word, BitVec.toNat_ofNat]
      exact Nat.mod_eq_of_lt hlt

/-- Different host parts are different addresses. -/
theorem withHost_inj {host' : Nat} (hhost : host < 2 ^ (cidr.addr.bitLen - cidr.bits))
    (hhost' : host' < 2 ^ (cidr.addr.bitLen - cidr.bits)) :
    cidr.withHost host = cidr.withHost host' ↔ host = host' := by
  constructor
  · intro h
    have hword := congrArg Addr.word h
    rw [word_withHost hhost, word_withHost hhost'] at hword
    omega
  · exact congrArg _

/-- Every host part gives an address of the network. -/
theorem contains_withHost (hhost : host < 2 ^ (cidr.addr.bitLen - cidr.bits)) :
    cidr.contains (cidr.withHost host) = true := by
  have hlt := network_add_lt hhost
  cases ha : cidr.addr with
  | zero => exact absurd cidr.wf (by simp [ha])
  | v4 a =>
      rw [ha] at hlt hhost
      have hx : (BitVec.ofNat 32 (cidr.network + host)).toNat = cidr.network + host :=
        (BitVec.toNat_ofNat _ _).trans (Nat.mod_eq_of_lt hlt)
      rw [← withHost_v4 ha hx]
      simp only [contains, ha, beq_iff_eq, xor_shiftRight_eq_zero_iff]
      rw [hx, network_v4 ha]
      exact clear_add_host_div hhost
  | v6 a zone =>
      rw [ha] at hlt hhost
      have hx : (BitVec.ofNat 128 (cidr.network + host)).toNat = cidr.network + host :=
        (BitVec.toNat_ofNat _ _).trans (Nat.mod_eq_of_lt hlt)
      rw [← withHost_v6 ha hx]
      simp only [contains, ha, beq_iff_eq, xor_shiftRight_eq_zero_iff, beq_self_eq_true,
        Bool.true_and]
      rw [hx, network_v6 ha]
      exact clear_add_host_div hhost

/-- And every address of the network has one. -/
theorem exists_withHost (h : cidr.contains ip = true) :
    ∃ host < 2 ^ (cidr.addr.bitLen - cidr.bits), ip = cidr.withHost host := by
  refine ⟨ip.word % 2 ^ (cidr.addr.bitLen - cidr.bits), Nat.mod_lt _ (Nat.two_pow_pos _), ?_⟩
  unfold contains at h
  split at h
  · next a x ha =>
      rw [beq_iff_eq, xor_shiftRight_eq_zero_iff] at h
      apply withHost_v4 ha
      rw [network_v4 ha, ← h, ha]
      exact (Nat.div_add_mod' _ _).symm
  · next a zone x zone' ha =>
      rw [Bool.and_eq_true, beq_iff_eq, beq_iff_eq, xor_shiftRight_eq_zero_iff] at h
      rw [h.1]
      apply withHost_v6 ha
      rw [network_v6 ha, ← h.2, ha]
      exact (Nat.div_add_mod' _ _).symm
  · cases h

/-- The addresses of a CIDR are those with a host part. -/
theorem contains_iff : cidr.contains ip = true ↔
    ∃ host < 2 ^ (cidr.addr.bitLen - cidr.bits), ip = cidr.withHost host := by
  constructor
  · exact exists_withHost
  · rintro ⟨host, hhost, rfl⟩
    exact contains_withHost hhost

end WithHost

end Prefix

/-! ## IPv4 -/

section IPv4

variable {cidr : Prefix} {a : BitVec 32} (ha : cidr.addr = .v4 a) (rnd : RandDraws)
include ha

/-- Masking the base again changes nothing. -/
theorem toNat_clear_base_v4 :
    ((ipv4ToUint32 cidr.maskedAddr >>> (32 - cidr.bits)) <<< (32 - cidr.bits)).toNat =
      cidr.network := by
  rw [toNat_clear, ← Nat.shiftRight_eq_div_pow, ← BitVec.toNat_ushiftRight, base_shiftRight_v4 ha,
    BitVec.toNat_ushiftRight, Nat.shiftRight_eq_div_pow, Prefix.network_v4 ha]

/-- The network ends in zeros. -/
theorem dvd_network_v4 : 2 ^ (32 - cidr.bits) ∣ cidr.network := by
  rw [Prefix.network_v4 ha]
  exact Nat.dvd_mul_left _ _

/-- The network part joined with a host part, as every branch ends. -/
theorem uint32ToIPv4_eq_withHost {net host : BitVec 32} (hnet : net.toNat = cidr.network)
    (hhost : IsHost (32 - cidr.bits) host) :
    uint32ToIPv4 (net ||| host) = cidr.withHost host.toNat := by
  rw [uint32ToIPv4_eq]
  apply Prefix.withHost_v4 ha
  rw [toNat_or_host (by rw [hnet]; exact dvd_network_v4 ha) hhost, hnet]

/-- A random IPv4 address has the low bits that were drawn. -/
theorem assignRandIPv4_eq : assignRandIPv4 rnd cidr =
    cidr.withHost (rnd.uint32.toNat % 2 ^ (32 - cidr.bits)) := by
  rw [← toNat_shiftLeft_shiftRight rnd.uint32 (Prefix.bits_le_of_v4 ha)]
  exact uint32ToIPv4_eq_withHost ha (toNat_clear_base_v4 ha) (isHost_shiftLeft_shiftRight _ _)

/-- The bits of the range come from the value, those below it are drawn. -/
theorem assignIPv4WithRange_eq {rng : UInt8} (hr : cidr.acceptsRange rng) (v : BitVec 32) :
    assignIPv4WithRange rnd cidr rng v =
      cidr.withHost (v.toNat % 2 ^ (rng.toNat - cidr.bits) * 2 ^ (32 - rng.toNat) +
        rnd.uint32.toNat % 2 ^ (32 - rng.toNat)) := by
  obtain ⟨hlo, hhi⟩ := hr
  have hhi32 : rng.toNat ≤ 32 := by simpa only [ha, Addr.bitLen] using hhi
  have hbelow : bitsBelow 32 rng = 32 - rng.toNat := if_pos hhi32
  have hfixed := toNat_lowMask (w := 32) (show rng.toNat - cidr.bits ≤ 32 by omega)
  have hhost := toNat_lowMask (w := 32) (show 32 - rng.toNat ≤ 32 by omega)
  simp only [assignIPv4WithRange]
  rw [if_neg (by omega), hbelow, uint32ToIPv4_eq]
  apply Prefix.withHost_v4 ha
  rw [show (0xffffffff#32) = BitVec.allOnes 32 by rfl, and_shiftLeft_ones_eq_clear,
    toNat_or_fixed_or_host (n := rng.toNat - cidr.bits) (by omega) ?_
      (isHost_and_right (isHost_of_le hfixed.le)) (isHost_and_right (isHost_of_le hhost.le)),
    toNat_and_mask _ hfixed, toNat_and_mask _ hhost, toNat_clear_base_v4 ha, RandDraws.randomU32,
    Nat.add_assoc]
  rw [toNat_clear_base_v4 ha,
    show rng.toNat - cidr.bits + (32 - rng.toNat) = 32 - cidr.bits by omega]
  exact dvd_network_v4 ha

end IPv4

/-! ## IPv6 -/

/-- A word of 64 bits is widened with zeros. -/
theorem toNat_uint128FromU64 (v : BitVec 64) : (uint128FromU64 v).toNat = v.toNat := by
  simp [uint128FromU64, Uint128.toNat]

/-- The bytes of two words, from the left. -/
theorem get_wordsToBytes (hi lo : BitVec 64) (i : Fin 16) : (wordsToBytes hi lo).get i =
    if i.val < 8 then byteOf hi (7 - i.val) else byteOf lo (7 - (i.val - 8)) := by
  simp [wordsToBytes, Vector.get_eq_getElem]

/-- The two draws of `RandomU128` are the halves of what it returns. -/
theorem bytesToUint128_wordsToBytes (hi lo : BitVec 64) :
    bytesToUint128 (wordsToBytes hi lo) = ⟨hi, lo⟩ := by
  simp only [bytesToUint128, get_wordsToBytes, Uint128.mk.injEq]
  exact ⟨beUint64_byteOf hi, beUint64_byteOf lo⟩

section IPv6

variable {cidr : Prefix} {a : BitVec 128} {zone : String} (ha : cidr.addr = .v6 a zone)
  (rnd : RandDraws)
include ha

/-- The base is the address without its host bits. -/
theorem toBitVec_base_v6 : (ipv6ToUint128 cidr.maskedAddr).toBitVec =
    (a >>> (128 - cidr.bits)) <<< (128 - cidr.bits) := by
  rw [Prefix.maskedAddr_v6 ha, toBitVec_ipv6ToUint128]

/-- Clearing the host bits of the base again changes nothing. -/
theorem toNat_and_not_mask_v6 {mask : Uint128} (hmask : mask.toNat = 2 ^ (128 - cidr.bits) - 1) :
    (andUint128 (ipv6ToUint128 cidr.maskedAddr) (notUint128 mask)).toBitVec.toNat =
      cidr.network := by
  rw [toBitVec_andUint128, toBitVec_notUint128,
    and_not_mask_eq_clear _ ((toNat_toBitVec mask).trans hmask), toBitVec_base_v6 ha,
    clear_shiftRight, toNat_clear, Prefix.network_v6 ha]

theorem dvd_network_v6 : 2 ^ (128 - cidr.bits) ∣ cidr.network := by
  rw [Prefix.network_v6 ha]
  exact Nat.dvd_mul_left _ _

omit ha in
/-- A mask of low bits is a remainder. -/
theorem toNat_andUint128 {x mask : Uint128} {k : Nat} (hmask : mask.toNat = 2 ^ k - 1) :
    (andUint128 x mask).toNat = x.toNat % 2 ^ k := by
  rw [← toNat_toBitVec, toBitVec_andUint128, toNat_and_mask _ ((toNat_toBitVec mask).trans hmask),
    toNat_toBitVec]

/-- The network part joined with a host part, as every branch ends. -/
theorem uint128ToIPv6_eq_withHost {mask host : Uint128}
    (hmask : mask.toNat = 2 ^ (128 - cidr.bits) - 1) (hhost : host.toNat < 2 ^ (128 - cidr.bits)) :
    uint128ToIPv6 (orUint128 (andUint128 (ipv6ToUint128 cidr.maskedAddr) (notUint128 mask)) host) =
      cidr.withHost host.toNat := by
  rw [uint128ToIPv6_eq]
  apply Prefix.withHost_v6 ha
  rw [toBitVec_orUint128, toNat_or_host ?_ (by rw [IsHost, toNat_toBitVec]; exact hhost),
    toNat_and_not_mask_v6 ha hmask, toNat_toBitVec]
  rw [toNat_and_not_mask_v6 ha hmask]
  exact dvd_network_v6 ha

/-- A random IPv6 address has the low bits of the two words that were drawn. -/
theorem assignRandIPv6_eq : assignRandIPv6 rnd cidr = cidr.withHost
    ((rnd.uint64.toNat * 2 ^ 64 + rnd.nextUint64.toNat) % 2 ^ (128 - cidr.bits)) := by
  have hmask := toNat_newUint128FromBitRange (show 128 - cidr.bits ≤ 128 by omega)
  have hhost : (andUint128 (bytesToUint128 rnd.randomU128)
      (newUint128FromBitRange (128 - cidr.bits))).toNat =
      (rnd.uint64.toNat * 2 ^ 64 + rnd.nextUint64.toNat) % 2 ^ (128 - cidr.bits) := by
    rw [toNat_andUint128 hmask, RandDraws.randomU128, bytesToUint128_wordsToBytes]
    rfl
  rw [← hhost]
  exact uint128ToIPv6_eq_withHost ha hmask (hhost.trans_lt (Nat.mod_lt _ (Nat.two_pow_pos _)))

/-- The bits of the range come from the value, unless the range is the whole address; those below
it are drawn. -/
theorem assignIPv6WithRange_eq {rng : UInt8} (hr : cidr.acceptsRange rng) (v : BitVec 64) :
    assignIPv6WithRange rnd cidr rng (uint128FromU64 v) =
      cidr.withHost ((if rng.toNat - cidr.bits < 128
        then v.toNat % 2 ^ (rng.toNat - cidr.bits) else 0) * 2 ^ (128 - rng.toNat) +
        rnd.uint64.toNat % 2 ^ (128 - rng.toNat)) := by
  obtain ⟨hlo, hhi⟩ := hr
  have hhi128 : rng.toNat ≤ 128 := by simpa only [ha, Addr.bitLen] using hhi
  have hbelow : bitsBelow 128 rng = 128 - rng.toNat := if_pos hhi128
  have hnet := toNat_sub_lShiftOne_one (show 128 - cidr.bits ≤ 128 by omega)
  have hhost := toNat_sub_lShiftOne_one (show 128 - rng.toNat ≤ 128 by omega)
  have hfixed : (andUint128 (uint128FromU64 v) (if rng.toNat - cidr.bits < 128
      then subUint128 (newUint128LShiftOne (rng.toNat - cidr.bits)) uint128One
      else uint128FromU64 0)).toNat =
      if rng.toNat - cidr.bits < 128 then v.toNat % 2 ^ (rng.toNat - cidr.bits) else 0 := by
    split_ifs with hwidth
    · rw [toNat_andUint128 (toNat_sub_lShiftOne_one hwidth.le), toNat_uint128FromU64]
    · have hmask : (uint128FromU64 0).toNat = 2 ^ 0 - 1 := rfl
      rw [toNat_andUint128 hmask, Nat.pow_zero, Nat.mod_one]
  have hsmall : (if rng.toNat - cidr.bits < 128 then v.toNat % 2 ^ (rng.toNat - cidr.bits) else 0) <
      2 ^ (rng.toNat - cidr.bits) := by
    split_ifs
    · exact Nat.mod_lt _ (Nat.two_pow_pos _)
    · exact Nat.two_pow_pos _
  simp only [assignIPv6WithRange]
  rw [if_neg (by omega), hbelow, uint128ToIPv6_eq]
  apply Prefix.withHost_v6 ha
  rw [toBitVec_orUint128, toBitVec_orUint128, toBitVec_shlUint128,
    toNat_or_fixed_or_host (n := rng.toNat - cidr.bits) (by omega) ?_ ?_ (isHost_andUint128 hhost),
    toNat_and_not_mask_v6 ha hnet, toNat_toBitVec, toNat_toBitVec, hfixed, toNat_andUint128 hhost,
    toNat_uint128FromU64, RandDraws.randomU64, Nat.add_assoc]
  · rw [toNat_and_not_mask_v6 ha hnet,
      show rng.toNat - cidr.bits + (128 - rng.toNat) = 128 - cidr.bits by omega]
    exact dvd_network_v6 ha
  · rw [IsHost, toNat_toBitVec, hfixed]
    exact hsmall

end IPv6

end Outway
