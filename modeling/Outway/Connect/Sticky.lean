import Outway.Connect.Words

/-!
# Outway.Connect.Sticky

The source address of a `Session` or `TTL` value.

Both families keep the network part and reduce the value modulo the largest host part.
For IPv4, and for IPv6 networks of `/64` and longer, the machine remainder does that.
For shorter IPv6 prefixes the capacity has two words, and the loop of `modUint128` reads
the value backwards: a single bit `k` of the value becomes the host bit `126 - 2 * k`,
folded into the host part.
-/

namespace Outway

open Uint128 NetHost

/-! ## One bit through the loop -/

/-- A power of two that is doubled to the end of the loop runs through the bits below `h`
in a cycle. -/
theorem toNat_modLoop_pow {a b : Uint128} {h : Nat} (hh : 2 ≤ h) (hb : b.toNat = 2 ^ h - 1)
    (n e : Nat) (r : Uint128) (hbits : ∀ i < n, modBit a i = false) (hr : r.toNat = 2 ^ e)
    (he : e < h) (hn : e + n ≤ 127) : (modLoop a b n r).toNat = 2 ^ ((e + n) % h) := by
  induction n generalizing e r with
  | zero => rw [Nat.add_zero, Nat.mod_eq_of_lt he]; exact hr
  | succ n ih =>
      have hdouble : 2 * r.toNat = 2 ^ (e + 1) := by rw [hr, Nat.pow_succ, Nat.mul_comm]
      have hfits : 2 * r.toNat < 2 ^ 128 := by
        rw [hdouble]
        exact Nat.pow_lt_pow_right (by decide) (by omega)
      have hstep := toNat_modStep_of_not (b := b) (hbits n (by omega)) hfits
      rw [hb, hdouble] at hstep
      have hrest := fun i (hi : i < n) => hbits i (by omega)
      change (modLoop a b n (modStep a b n r)).toNat = _
      rcases Nat.lt_or_eq_of_le (Nat.succ_le_of_lt he) with hlt | heq
      · have hsmall : 2 ^ (e + 1) * 2 ≤ 2 ^ h := by
          rw [← Nat.pow_succ]
          exact Nat.pow_le_pow_right (by decide) hlt
        have hpos : 0 < 2 ^ (e + 1) := Nat.two_pow_pos _
        have hge : 2 ^ 1 ≤ 2 ^ (e + 1) := Nat.pow_le_pow_right (by decide) (by omega)
        rw [if_neg (by omega)] at hstep
        rw [ih (e + 1) _ hrest hstep hlt (by omega), Nat.add_right_comm, Nat.add_assoc]
      · -- the bit leaves at `h` and the subtraction brings it back at 0
        have hone : 1 ≤ 2 ^ h := Nat.one_le_two_pow
        rw [Nat.succ_eq_add_one] at heq
        rw [heq, if_pos (by omega), Nat.sub_sub_self hone] at hstep
        rw [ih 0 _ hrest hstep (by omega) (by omega), show e + (n + 1) = 0 + n + h by omega,
          Nat.add_mod_right]

/-- The iteration that reads the first bit. -/
theorem toNat_modStep_first {a b : Uint128} {i : Nat} (hi : i < 64) (hbit : modBit a i = true)
    (hb : 2 ^ 64 ≤ b.toNat) : (modStep a b i ⟨0#64, 0#64⟩).toNat = 2 ^ i := by
  have hshl : shlUint128 ⟨0#64, 0#64⟩ 1 = ⟨0#64, 0#64⟩ := by decide
  have hlt : 2 ^ i < 2 ^ 64 := Nat.pow_lt_pow_right (by decide) hi
  have hset : (⟨0#64, 0#64 ||| 1#64 <<< i⟩ : Uint128).toNat = 2 ^ i := by
    simp only [Uint128.toNat, BitVec.zero_or, toNat_one_shiftLeft hi, BitVec.toNat_ofNat]
    omega
  simp only [modStep, hbit, if_true, hshl, GE.ge, if_neg (show ¬ 64 ≤ i by omega),
    cmpUint128_nonneg_iff, hset]
  rw [if_neg (by omega), hset]

/-- What `modUint128` makes of one bit. -/
theorem toNat_modUint128_twoPow {b : Uint128} {h k : Nat} (hh : 65 ≤ h)
    (hb : b.toNat = 2 ^ h - 1) (hk : k < 64) :
    (modUint128 (uint128FromU64 (BitVec.twoPow 64 k)) b).toNat = 2 ^ ((126 - 2 * k) % h) := by
  have hpow : 2 ^ 65 ≤ 2 ^ h := Nat.pow_le_pow_right (by decide) hh
  have hbit (i : Nat) : modBit (uint128FromU64 (BitVec.twoPow 64 k)) i = decide (i + k = 63) := by
    rw [modBit_uint128FromU64, BitVec.getLsbD_twoPow]
    grind
  have hskip := modLoop_zero (a := uint128FromU64 (BitVec.twoPow 64 k)) (b := b) (by omega)
    (63 - k + 1) k fun i _ _ => by rw [hbit, decide_eq_false (by omega)]
  have hfirst := toNat_modStep_first (b := b) (show 63 - k < 64 by omega)
    ((hbit _).trans (decide_eq_true (by omega))) (by omega)
  rw [Nat.add_right_comm, Nat.sub_add_cancel (by omega)] at hskip
  rw [modUint128_eq_modLoop _ hh hb, hskip, modLoop,
    toNat_modLoop_pow (by omega) hb _ _ _ (fun i _ => by rw [hbit, decide_eq_false (by omega)])
      hfirst (by omega) (by omega),
    show 63 - k + (63 - k) = 126 - 2 * k by omega]

/-! ## The host part of a value -/

namespace Prefix

/-- The capacity of the CIDR, as the selection counts it: the largest host part. -/
def capacity (cidr : Prefix) : Nat := 2 ^ (cidr.addr.bitLen - cidr.bits) - 1

/-- What a sticky value stands for. -/
def stickyAddr (cidr : Prefix) (value : Nat) : Addr := cidr.withHost (value % cidr.capacity)

end Prefix

section IPv4

variable {cidr : Prefix} {a : BitVec 32} (ha : cidr.addr = .v4 a)
include ha

/-- For IPv4 the host part is the remainder. -/
theorem assignIPv4FromExtension_sticky (hp : cidr.bits < 32) (rnd : RandDraws)
    (cidrRange : Option UInt8) {e : Extension} (he : e.type = .session ∨ e.type = .ttl) :
    assignIPv4FromExtension rnd cidr cidrRange e =
      cidr.stickyAddr (e.value.setWidth 32).toNat := by
  have hcap := toNat_lowMask (w := 32) (show 32 - cidr.bits ≤ 32 by omega)
  have hpow : 2 ^ 1 ≤ 2 ^ (32 - cidr.bits) := Nat.pow_le_pow_right (by decide) (by omega)
  have hne : 1#32 <<< (32 - cidr.bits) - 1#32 ≠ 0 := by
    intro h
    have hzero : 2 ^ (32 - cidr.bits) - 1 = 0 := by rw [← hcap, h]; rfl
    omega
  have hsticky : assignIPv4FromExtension rnd cidr cidrRange e = assignIPv4Sticky cidr e.value := by
    rcases he with he | he <;> simp only [assignIPv4FromExtension, extractValue, he]
  have hhost : IsHost (32 - cidr.bits)
      (e.value.setWidth 32 % (1#32 <<< (32 - cidr.bits) - 1#32)) := by
    have hmod := Nat.mod_lt (e.value.setWidth 32).toNat
      (show (2 ^ (32 - cidr.bits) - 1) > 0 by omega)
    apply isHost_of_le
    rw [BitVec.toNat_umod, hcap]
    omega
  have hnet : (ipv4ToUint32 cidr.maskedAddr &&& 0xffffffff#32 <<< (32 - cidr.bits)).toNat =
      cidr.network := by
    rw [show (0xffffffff#32) = BitVec.allOnes 32 by rfl, and_shiftLeft_ones_eq_clear,
      toNat_clear_base_v4 ha]
  simp only [hsticky, assignIPv4Sticky]
  rw [if_neg (by omega), if_neg hne, uint32ToIPv4_eq_withHost ha hnet hhost, BitVec.toNat_umod,
    hcap, Prefix.stickyAddr, Prefix.capacity, ha, Addr.bitLen]

end IPv4

section IPv6

variable {cidr : Prefix} {a : BitVec 128} {zone : String} (ha : cidr.addr = .v6 a zone)
include ha

/-- The capacity as the code computes it. -/
theorem toNat_capacity_v6 :
    (subUint128 (newUint128LShiftOne (128 - cidr.bits)) uint128One).toNat = cidr.capacity := by
  rw [toNat_sub_lShiftOne_one (by omega), Prefix.capacity, ha, Addr.bitLen]

theorem assignIPv6FromExtension_sticky (hp : cidr.bits < 128) (rnd : RandDraws)
    (cidrRange : Option UInt8) {e : Extension} (he : e.type = .session ∨ e.type = .ttl) :
    assignIPv6FromExtension rnd cidr cidrRange e = cidr.withHost
      (modUint128 (uint128FromU64 e.value)
        (subUint128 (newUint128LShiftOne (128 - cidr.bits)) uint128One)).toNat := by
  have hcap := toNat_sub_lShiftOne_one (show 128 - cidr.bits ≤ 128 by omega)
  have hpow : 2 ^ 1 ≤ 2 ^ (128 - cidr.bits) := Nat.pow_le_pow_right (by decide) (by omega)
  have hsticky : assignIPv6FromExtension rnd cidr cidrRange e = assignIPv6Sticky cidr e.value := by
    rcases he with he | he <;> simp only [assignIPv6FromExtension, extractValue, he]
  simp only [hsticky, assignIPv6Sticky]
  rw [if_neg (by omega), isZeroUint128_eq_false (by omega), if_neg (by decide)]
  exact uint128ToIPv6_eq_withHost ha (toNat_newUint128FromBitRange (by omega))
    (toNat_modUint128_lt e.value (by omega) hcap)

/-- The two-word reduction is wrong for one of the values 1 and 2. -/
theorem modUint128_ne_mod (hp : cidr.bits ≤ 63) : ∃ v : BitVec 64,
    (modUint128 (uint128FromU64 v)
      (subUint128 (newUint128LShiftOne (128 - cidr.bits)) uint128One)).toNat ≠
      v.toNat % cidr.capacity := by
  have hcap := toNat_sub_lShiftOne_one (show 128 - cidr.bits ≤ 128 by omega)
  have hcapacity : cidr.capacity = 2 ^ (128 - cidr.bits) - 1 := by
    rw [← toNat_capacity_v6 ha, hcap]
  have hpow : 2 ^ 65 ≤ 2 ^ (128 - cidr.bits) := Nat.pow_le_pow_right (by decide) (by omega)
  by_cases h126 : cidr.bits = 2
  · refine ⟨BitVec.twoPow 64 1, ?_⟩
    rw [toNat_modUint128_twoPow (by omega) hcap (by decide), hcapacity, h126]
    decide
  · refine ⟨BitVec.twoPow 64 0, ?_⟩
    have hone : (BitVec.twoPow 64 0).toNat = 1 := by decide
    rw [toNat_modUint128_twoPow (by omega) hcap (by decide), hcapacity, hone,
      Nat.mod_eq_of_lt (show 1 < 2 ^ (128 - cidr.bits) - 1 by omega)]
    have hexp : 126 % (128 - cidr.bits) ≠ 0 := by
      by_cases hlt : 126 < 128 - cidr.bits
      · rw [Nat.mod_eq_of_lt hlt]; decide
      · rw [Nat.mod_eq_sub_mod (by omega), Nat.mod_eq_of_lt (by omega)]; omega
    exact (Nat.one_lt_two_pow hexp).ne'

end IPv6

/-- **Sticky IPv6 addresses**: the value picks the host part that is its remainder, as it does
for IPv4 (`assignIPv4FromExtension_sticky`), and no two values of a network shorter than `/64`
share an address, for the networks from `/64` up and for no other. -/
theorem assignIPv6FromExtension_sticky_iff (cidr : Prefix) (h6 : cidr.addr.is6 = true)
    (hp : cidr.bits < 128) :
    ((∀ rnd cidrRange e, e.type = .session ∨ e.type = .ttl →
        assignIPv6FromExtension rnd cidr cidrRange e = cidr.stickyAddr e.value.toNat) ∧
      (∀ v : BitVec 64, (modUint128 (uint128FromU64 v)
        (subUint128 (newUint128LShiftOne (128 - cidr.bits)) uint128One)).toNat =
          v.toNat % cidr.capacity) ∧
      (cidr.bits ≤ 63 → ∀ rnd rnd' cidrRange e e', e.type = .session ∨ e.type = .ttl →
        e'.type = .session ∨ e'.type = .ttl → e.value ≠ e'.value →
          assignIPv6FromExtension rnd cidr cidrRange e ≠
            assignIPv6FromExtension rnd' cidr cidrRange e')) ↔
      64 ≤ cidr.bits := by
  cases ha : cidr.addr with
  | zero => simp [ha, Addr.is6] at h6
  | v4 a => simp [ha, Addr.is6] at h6
  | v6 a zone =>
      have hcap := toNat_sub_lShiftOne_one (show 128 - cidr.bits ≤ 128 by omega)
      have hpow : 2 ^ 1 ≤ 2 ^ (128 - cidr.bits) := Nat.pow_le_pow_right (by decide) (by omega)
      constructor
      · rintro ⟨-, hmod, -⟩
        by_contra hcon
        obtain ⟨v, hv⟩ := modUint128_ne_mod ha (show cidr.bits ≤ 63 by omega)
        exact hv (hmod v)
      · intro h64
        have hexact (v : BitVec 64) : (modUint128 (uint128FromU64 v)
            (subUint128 (newUint128LShiftOne (128 - cidr.bits)) uint128One)).toNat =
              v.toNat % cidr.capacity := by
          rw [toNat_modUint128_of_word rfl ((hi_eq_zero_iff hcap).mpr (by omega)) (by omega),
            toNat_capacity_v6 ha, toNat_uint128FromU64]
        refine ⟨fun rnd cidrRange e he => ?_, hexact, fun h63 => by omega⟩
        rw [assignIPv6FromExtension_sticky ha hp rnd cidrRange he, hexact, Prefix.stickyAddr]

/-- A `/80`, the value `2 ^ 48 + 4` and its remainder 5. -/
theorem assignIPv6FromExtension_sticky_80 :
    let cidr : Prefix := ⟨.v6 0x20010db8000100000000000000000000#128 "", 80, by simp⟩
    let rnd : RandDraws := ⟨0#32, 0#64, 0#64⟩
    cidr.addr.is6 = true ∧ cidr.bits < 128 ∧ 64 ≤ cidr.bits ∧
      assignIPv6FromExtension rnd cidr none ⟨.session, 0x1000000000004#64⟩ = cidr.stickyAddr 5 := by
  intro cidr rnd
  have h := ((assignIPv6FromExtension_sticky_iff cidr rfl (by decide)).mpr (by decide)).1 rnd none
    ⟨.session, 0x1000000000004#64⟩ (.inl rfl)
  exact ⟨rfl, by decide, by decide, h.trans (by decide +kernel)⟩

/-- In a `/56` the values 1 and `2 ^ 36` share their address, and neither is the host part
it got. -/
theorem assignIPv6FromExtension_collision :
    let cidr : Prefix := ⟨.v6 0x20010db8000100000000000000000000#128 "", 56, by simp⟩
    let rnd : RandDraws := ⟨0#32, 0#64, 0#64⟩
    let capacity := subUint128 (newUint128LShiftOne (128 - cidr.bits)) uint128One
    assignIPv6FromExtension rnd cidr none ⟨.session, 1#64⟩ ≠ cidr.stickyAddr 1 ∧
      (modUint128 (uint128FromU64 1#64) capacity).toNat ≠ 1 % capacity.toNat ∧
      assignIPv6FromExtension rnd cidr none ⟨.session, 1#64⟩ =
        assignIPv6FromExtension rnd cidr none ⟨.session, 0x1000000000#64⟩ := by
  decide +kernel

end Outway
