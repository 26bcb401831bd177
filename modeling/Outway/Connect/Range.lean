import Outway.Connect.Words

/-!
# Outway.Connect.Range

Which addresses the range extension and the random selection return.

A range `r` splits the CIDR into sub-blocks of `r` leading bits; the value of a `Range`
extension names one of them and the rest of the address is drawn at random.  One lemma
says, for both families, which host part is selected: the fixed bits and the drawn bits.
The two ways in which IPv6 differs show in it: no bit is fixed when the whole address
should be, and only 64 bits are drawn.
-/

namespace Outway

open Uint128 NetHost

/-! ## Sub-blocks -/

namespace Prefix

variable {cidr : Prefix} {r : UInt8}

/-- A `Range` value as the selection of the CIDR's family takes it: cut to 32 bits for
IPv4, extended for IPv6. -/
def rangeValue (cidr : Prefix) (v : BitVec 64) : Nat :=
  match cidr.addr with
  | .v4 _ => (v.setWidth 32).toNat
  | _ => v.toNat

/-- The `r` leading bits of the sub-block that a value names: the prefix and the low bits
of the value. -/
def subBlock (cidr : Prefix) (r : UInt8) (v : BitVec 64) : Nat :=
  cidr.addr.top cidr.bits * 2 ^ (r.toNat - cidr.bits) +
    cidr.rangeValue v % 2 ^ (r.toNat - cidr.bits)

/-- The address is in the CIDR and in the sub-block that the value names. -/
def InSubBlock (cidr : Prefix) (r : UInt8) (v : BitVec 64) (ip : Addr) : Prop :=
  cidr.contains ip = true ∧ ip.top r.toNat = cidr.subBlock r v

/-- The CIDR is all of IPv6 and the range is the whole address. -/
def WholeRange (cidr : Prefix) (r : UInt8) : Prop :=
  cidr.addr.is6 = true ∧ cidr.bits = 0 ∧ r = 128

instance (cidr : Prefix) (r : UInt8) : Decidable (cidr.WholeRange r) :=
  inferInstanceAs (Decidable (_ ∧ _))

section Blocks

variable (hr : cidr.acceptsRange r)
include hr

/-- The host bits are the bits of the range and those below it. -/
theorem two_pow_hostBits : 2 ^ (cidr.addr.bitLen - cidr.bits) =
    2 ^ (r.toNat - cidr.bits) * 2 ^ (cidr.addr.bitLen - r.toNat) := by
  obtain ⟨hlo, hhi⟩ := hr
  rw [← Nat.pow_add]
  congr 1
  omega

/-- The bits of a sub-block and the bits below it make a host part. -/
theorem block_add_lt {block host : Nat} (hblock : block < 2 ^ (r.toNat - cidr.bits))
    (hhost : host < 2 ^ (cidr.addr.bitLen - r.toNat)) :
    block * 2 ^ (cidr.addr.bitLen - r.toNat) + host < 2 ^ (cidr.addr.bitLen - cidr.bits) := by
  rw [two_pow_hostBits hr, ← Nat.div_lt_iff_lt_mul (Nat.two_pow_pos _), clear_add_host_div hhost]
  exact hblock

/-- Within the CIDR a sub-block is told by the host part. -/
theorem inSubBlock_withHost {host : Nat} {v : BitVec 64}
    (hhost : host < 2 ^ (cidr.addr.bitLen - cidr.bits)) :
    cidr.InSubBlock r v (cidr.withHost host) ↔
      host / 2 ^ (cidr.addr.bitLen - r.toNat) =
        cidr.rangeValue v % 2 ^ (r.toNat - cidr.bits) := by
  have htop : (cidr.withHost host).top r.toNat =
      cidr.addr.top cidr.bits * 2 ^ (r.toNat - cidr.bits) +
        host / 2 ^ (cidr.addr.bitLen - r.toNat) := by
    rw [Addr.top, bitLen_withHost, word_withHost hhost, network, two_pow_hostBits hr,
      ← Nat.mul_assoc, Nat.mul_comm _ (2 ^ (cidr.addr.bitLen - r.toNat)),
      Nat.mul_add_div (Nat.two_pow_pos _)]
  rw [InSubBlock, contains_withHost hhost, htop, subBlock, Nat.add_left_cancel_iff]
  exact and_iff_right rfl

end Blocks

end Prefix

/-! ## The selected host parts -/

/-- The random selection of the CIDR's family. -/
def assignRand (rnd : RandDraws) (cidr : Prefix) : Addr :=
  if cidr.addr.is4 then assignRandIPv4 rnd cidr else assignRandIPv6 rnd cidr

/-- The range selection of the CIDR's family. -/
def assignWithRange (rnd : RandDraws) (cidr : Prefix) (r : UInt8) (v : BitVec 64) : Addr :=
  if cidr.addr.is4 then assignIPv4WithRange rnd cidr r (v.setWidth 32)
  else assignIPv6WithRange rnd cidr r (uint128FromU64 v)

theorem assignSourceIP_range (rnd : RandDraws) (cidr : Prefix) (r : UInt8) (v : BitVec 64) :
    assignSourceIP rnd cidr (some r) ⟨.range, v⟩ = assignWithRange rnd cidr r v := rfl

namespace RandDraws

/-- How many random bits the range selection draws. -/
def width : Addr → Nat
  | .v4 _ => 32
  | _ => 64

/-- What the range selection draws. -/
def drawn (rnd : RandDraws) : Addr → Nat
  | .v4 _ => rnd.uint32.toNat
  | _ => rnd.uint64.toNat

/-- The random part has the width that is drawn. -/
theorem drawn_lt (rnd : RandDraws) (base : Addr) : rnd.drawn base < 2 ^ width base := by
  cases base with
  | v4 a => exact rnd.uint32.isLt
  | _ => exact rnd.uint64.isLt

/-- Every number of that width can be drawn. -/
theorem exists_drawn (base : Addr) {n : Nat} (hn : n < 2 ^ width base) :
    ∃ rnd : RandDraws, rnd.drawn base = n := by
  refine ⟨⟨BitVec.ofNat 32 n, BitVec.ofNat 64 n, 0⟩, ?_⟩
  cases base with
  | v4 a => exact (BitVec.toNat_ofNat _ _).trans (Nat.mod_eq_of_lt hn)
  | _ => exact (BitVec.toNat_ofNat _ _).trans (Nat.mod_eq_of_lt hn)

end RandDraws

section Range

variable {cidr : Prefix} {r : UInt8} (hr : cidr.acceptsRange r) (v : BitVec 64)

/-- The bits of the value that end up in the address: all that should, except over the
whole range. -/
def fixedBits (cidr : Prefix) (r : UInt8) (v : BitVec 64) : Nat :=
  if cidr.WholeRange r then 0 else cidr.rangeValue v % 2 ^ (r.toNat - cidr.bits)

/-- The host part that the range selection returns. -/
def rangeHost (rnd : RandDraws) (cidr : Prefix) (r : UInt8) (v : BitVec 64) : Nat :=
  fixedBits cidr r v * 2 ^ (cidr.addr.bitLen - r.toNat) +
    rnd.drawn cidr.addr % 2 ^ (cidr.addr.bitLen - r.toNat)

/-- The upper host bits are the fixed ones. -/
theorem rangeHost_div (rnd : RandDraws) :
    rangeHost rnd cidr r v / 2 ^ (cidr.addr.bitLen - r.toNat) = fixedBits cidr r v :=
  clear_add_host_div (Nat.mod_lt _ (Nat.two_pow_pos _))

/-- The fixed bits fit between the prefix and the range. -/
theorem fixedBits_lt : fixedBits cidr r v < 2 ^ (r.toNat - cidr.bits) := by
  unfold fixedBits
  split_ifs
  · exact Nat.two_pow_pos _
  · exact Nat.mod_lt _ (Nat.two_pow_pos _)

/-- They are the bits of the value, but where the range is the whole address. -/
theorem fixedBits_eq_iff : fixedBits cidr r v = cidr.rangeValue v % 2 ^ (r.toNat - cidr.bits) ↔
    ¬ (cidr.WholeRange r ∧ v ≠ 0) := by
  unfold fixedBits
  split_ifs with hwhole
  · obtain ⟨h6, hbits, rfl⟩ := hwhole
    have hvalue : cidr.rangeValue v = v.toNat := by
      unfold Prefix.rangeValue
      split
      · next ha => rw [ha] at h6; cases h6
      · rfl
    have hlt : v.toNat < 2 ^ 128 := Nat.lt_trans v.isLt (by decide)
    rw [hvalue, hbits, show (128 : UInt8).toNat - 0 = 128 by rfl, Nat.mod_eq_of_lt hlt]
    have hzero : 0 = v.toNat ↔ v = 0 := by rw [eq_comm, ← BitVec.toNat_inj]; rfl
    simp only [Prefix.WholeRange, h6, hbits, hzero, and_self, true_and, ne_eq, not_not]
  · simp only [hwhole, false_and, not_false_eq_true]

include hr

/-- The host part stays below the prefix. -/
theorem rangeHost_lt (rnd : RandDraws) :
    rangeHost rnd cidr r v < 2 ^ (cidr.addr.bitLen - cidr.bits) :=
  Prefix.block_add_lt hr (fixedBits_lt v) (Nat.mod_lt _ (Nat.two_pow_pos _))

/-- An address of a range is the network with the host part put in. -/
theorem assignWithRange_eq (rnd : RandDraws) :
    assignWithRange rnd cidr r v = cidr.withHost (rangeHost rnd cidr r v) := by
  unfold assignWithRange rangeHost
  cases ha : cidr.addr with
  | zero => exact absurd cidr.wf (by simp [ha])
  | v4 a =>
      have hwhole : ¬ cidr.WholeRange r := by simp [Prefix.WholeRange, ha, Addr.is6]
      rw [if_pos (by rfl), assignIPv4WithRange_eq ha rnd hr, fixedBits, if_neg hwhole]
      simp only [Prefix.rangeValue, ha, Addr.bitLen, RandDraws.drawn]
  | v6 a zone =>
      have hwhole : cidr.WholeRange r ↔ ¬ r.toNat - cidr.bits < 128 := by
        have hhi : r.toNat ≤ 128 := by simpa only [ha, Addr.bitLen] using hr.2
        simp only [Prefix.WholeRange, ha, Addr.is6, true_and, ← UInt8.toNat_inj]
        grind
      rw [if_neg (by simp [Addr.is4]), assignIPv6WithRange_eq ha rnd hr, fixedBits]
      simp only [hwhole, ite_not, Prefix.rangeValue, ha, Addr.bitLen, RandDraws.drawn]

end Range

/-! ## Stickiness of the range extension -/

/-- **Sticky ranges**: the range selection stays in the sub-block that the value names, and
so do any two selections with that value, unless a value other than 0 should fix every bit
of an IPv6 address. -/
theorem assignSourceIP_range_iff (cidr : Prefix) (r : UInt8) (hr : cidr.acceptsRange r)
    (v : BitVec 64) :
    (∀ rnd rnd', cidr.InSubBlock r v (assignSourceIP rnd cidr (some r) ⟨.range, v⟩) ∧
        (assignSourceIP rnd cidr (some r) ⟨.range, v⟩).top r.toNat =
          (assignSourceIP rnd' cidr (some r) ⟨.range, v⟩).top r.toNat) ↔
      ¬ (cidr.WholeRange r ∧ v ≠ 0) := by
  have hblock (rnd : RandDraws) :
      cidr.InSubBlock r v (assignSourceIP rnd cidr (some r) ⟨.range, v⟩) ↔
        ¬ (cidr.WholeRange r ∧ v ≠ 0) := by
    rw [assignSourceIP_range, assignWithRange_eq hr,
      Prefix.inSubBlock_withHost hr (rangeHost_lt hr v rnd), rangeHost_div, fixedBits_eq_iff]
  constructor
  · intro h
    exact (hblock ⟨0, 0, 0⟩).mp (h ⟨0, 0, 0⟩ ⟨0, 0, 0⟩).1
  · intro h rnd rnd'
    have hin := (hblock rnd).mpr h
    exact ⟨hin, hin.2.trans ((hblock rnd').mpr h).2.symm⟩

/-- A `/48` with range 64 and all random bits set. -/
theorem assignSourceIP_range_48 :
    let cidr : Prefix := ⟨.v6 0x20010db8000100000000000000000000#128 "", 48, by simp⟩
    let rnd : RandDraws := ⟨0xffffffff#32, 0xffffffffffffffff#64, 0xffffffffffffffff#64⟩
    cidr.acceptsRange 64 ∧
      (assignSourceIP rnd cidr (some 64) ⟨.range, 0xabcdef#64⟩).top 64 = 0x20010db80001cdef := by
  intro cidr rnd
  have hr : cidr.acceptsRange 64 := by decide
  have hin := ((assignSourceIP_range_iff cidr 64 hr 0xabcdef#64).mpr (by decide) rnd rnd).1
  exact ⟨hr, hin.2.trans (by decide +kernel)⟩

/-- All of IPv6 with range 128: the value 1 selects the address 0. -/
theorem assignSourceIP_range_whole :
    let cidr : Prefix := ⟨.v6 0#128 "", 0, by simp⟩
    let rnd : RandDraws := ⟨0#32, 0#64, 0#64⟩
    cidr.acceptsRange 128 ∧ cidr.subBlock 128 1#64 = 1 ∧
      (assignSourceIP rnd cidr (some 128) ⟨.range, 1#64⟩).top 128 = 0 := by
  decide +kernel

/-! ## Reach of the random selection -/

/-- Every address of the CIDR can be drawn. -/
theorem exists_assignRand {cidr : Prefix} {ip : Addr} (h : cidr.contains ip = true) :
    ∃ rnd, assignRand rnd cidr = ip := by
  obtain ⟨host, hhost, rfl⟩ := Prefix.contains_iff.mp h
  unfold assignRand
  cases ha : cidr.addr with
  | zero => exact absurd cidr.wf (by simp [ha])
  | v4 a =>
      rw [ha, Addr.bitLen] at hhost
      have hlt : host < 2 ^ 32 :=
        Nat.lt_of_lt_of_le hhost (Nat.pow_le_pow_right (by decide) (by omega))
      refine ⟨⟨BitVec.ofNat 32 host, 0, 0⟩, ?_⟩
      rw [if_pos (by rfl), assignRandIPv4_eq ha, BitVec.toNat_ofNat, Nat.mod_eq_of_lt hlt,
        Nat.mod_eq_of_lt hhost]
  | v6 a zone =>
      rw [ha, Addr.bitLen] at hhost
      have hlt : host < 2 ^ 128 :=
        Nat.lt_of_lt_of_le hhost (Nat.pow_le_pow_right (by decide) (by omega))
      refine ⟨⟨0, BitVec.ofNat 64 (host / 2 ^ 64), BitVec.ofNat 64 host⟩, ?_⟩
      rw [if_neg (by simp [Addr.is4]), assignRandIPv6_eq ha, BitVec.toNat_ofNat, BitVec.toNat_ofNat,
        Nat.mod_eq_of_lt (show host / 2 ^ 64 < 2 ^ 64 by omega), Nat.div_add_mod',
        Nat.mod_eq_of_lt hhost]

section Reach

variable {cidr : Prefix} {r : UInt8} (hr : cidr.acceptsRange r) (v : BitVec 64)
include hr

/-- When the sub-block is all reached, each of its host parts is selected. -/
theorem exists_rangeHost (hreach : ∀ ip, cidr.InSubBlock r v ip →
      ∃ rnd, assignWithRange rnd cidr r v = ip) {host : Nat}
    (hhost : host < 2 ^ (cidr.addr.bitLen - r.toNat)) :
    ∃ rnd, rangeHost rnd cidr r v =
      cidr.rangeValue v % 2 ^ (r.toNat - cidr.bits) * 2 ^ (cidr.addr.bitLen - r.toNat) + host := by
  have hlt := Prefix.block_add_lt hr (Nat.mod_lt (cidr.rangeValue v) (Nat.two_pow_pos _)) hhost
  obtain ⟨rnd, hrnd⟩ := hreach _
    ((Prefix.inSubBlock_withHost hr hlt).mpr (clear_add_host_div hhost))
  refine ⟨rnd, ?_⟩
  rw [assignWithRange_eq hr, Prefix.withHost_inj (rangeHost_lt hr v rnd) hlt] at hrnd
  exact hrnd

/-- All of the sub-block can be drawn when the generator is wide enough for it. -/
theorem exists_assignWithRange_iff :
    (∀ ip, cidr.InSubBlock r v ip → ∃ rnd, assignWithRange rnd cidr r v = ip) ↔
      cidr.addr.bitLen - r.toNat ≤ RandDraws.width cidr.addr ∧
        ¬ (cidr.WholeRange r ∧ v ≠ 0) := by
  rw [← fixedBits_eq_iff]
  constructor
  · intro hreach
    constructor
    · -- otherwise the bit above the drawn ones is set in some address of the sub-block
      by_contra hcon
      have hbit : 2 ^ RandDraws.width cidr.addr < 2 ^ (cidr.addr.bitLen - r.toNat) :=
        Nat.pow_lt_pow_right (by decide) (by omega)
      obtain ⟨rnd, hrnd⟩ := exists_rangeHost hr v hreach hbit
      have hmod := congrArg (· % 2 ^ (cidr.addr.bitLen - r.toNat)) hrnd
      simp only [rangeHost, Nat.mul_add_mod_self_right, Nat.mod_mod] at hmod
      rw [Nat.mod_eq_of_lt hbit] at hmod
      have hdrawn := rnd.drawn_lt cidr.addr
      have hle := Nat.mod_le (rnd.drawn cidr.addr) (2 ^ (cidr.addr.bitLen - r.toNat))
      omega
    · obtain ⟨rnd, hrnd⟩ := exists_rangeHost hr v hreach (Nat.two_pow_pos _)
      rw [← rangeHost_div v rnd, hrnd]
      exact clear_add_host_div (Nat.two_pow_pos _)
  · rintro ⟨hwidth, hfixed⟩ ip hin
    obtain ⟨host, hhost, rfl⟩ := Prefix.contains_iff.mp hin.1
    rw [Prefix.inSubBlock_withHost hr hhost, ← hfixed] at hin
    have hmod : host % 2 ^ (cidr.addr.bitLen - r.toNat) < 2 ^ (cidr.addr.bitLen - r.toNat) :=
      Nat.mod_lt _ (Nat.two_pow_pos _)
    obtain ⟨rnd, hrnd⟩ := RandDraws.exists_drawn cidr.addr
      (Nat.lt_of_lt_of_le hmod (Nat.pow_le_pow_right (by decide) hwidth))
    refine ⟨rnd, ?_⟩
    rw [assignWithRange_eq hr, rangeHost, hrnd, Nat.mod_mod, ← hin, Nat.div_add_mod']

end Reach

/-- **Reach**: every address of the CIDR can be drawn at random, and every address of the
sub-block that a value names can be returned for it: always for IPv4, and for IPv6 when the
64 drawn bits cover the sub-block and the value's bits are kept. -/
theorem assign_reaches_iff (cidr : Prefix) (r : UInt8) (hr : cidr.acceptsRange r)
    (v : BitVec 64) :
    ((∀ ip, cidr.contains ip = true → ∃ rnd, assignRand rnd cidr = ip) ∧
        (∀ ip, cidr.InSubBlock r v ip → ∃ rnd, assignWithRange rnd cidr r v = ip)) ↔
      cidr.addr.is4 = true ∨ (64 ≤ r.toNat ∧ ¬ (cidr.WholeRange r ∧ v ≠ 0)) := by
  rw [and_iff_right fun ip => exists_assignRand, exists_assignWithRange_iff hr]
  cases ha : cidr.addr with
  | zero => exact absurd cidr.wf (by simp [ha])
  | v4 a =>
      have hwhole : ¬ cidr.WholeRange r := by simp [Prefix.WholeRange, ha, Addr.is6]
      simp [hwhole, Addr.bitLen, RandDraws.width, Addr.is4]
  | v6 a zone =>
      have hhi : r.toNat ≤ 128 := by simpa only [ha, Addr.bitLen] using hr.2
      have hbits : 128 - r.toNat ≤ 64 ↔ 64 ≤ r.toNat := by omega
      simp only [Addr.bitLen, RandDraws.width, Addr.is4, hbits, Bool.false_eq_true, false_or]

/-- A `/16` of IPv4 with range 24: the last address of the third sub-block. -/
theorem assign_reaches_v4 :
    let cidr : Prefix := ⟨.v4 0xc0a80000#32, 16, by simp⟩
    cidr.acceptsRange 24 ∧
      ∃ rnd, assignWithRange rnd cidr 24 2#64 = .v4 0xc0a802ff#32 := by
  intro cidr
  have hr : cidr.acceptsRange 24 := by decide
  exact ⟨hr, ((assign_reaches_iff cidr 24 hr 2#64).mpr (.inl rfl)).2 _ ⟨by decide, by decide⟩⟩

/-- In a `/32` with range 48 no random outcome sets bit 64 of the address. -/
theorem assign_unreached :
    let cidr : Prefix := ⟨.v6 0x20010db8000000000000000000000000#128 "", 32, by simp⟩
    cidr.acceptsRange 48 ∧ cidr.InSubBlock 48 0#64 (.v6 0x20010db8000000010000000000000000#128 "") ∧
      ∀ rnd, assignWithRange rnd cidr 48 0#64 ≠ .v6 0x20010db8000000010000000000000000#128 "" := by
  intro cidr
  have hr : cidr.acceptsRange 48 := by decide
  refine ⟨hr, ⟨by decide, by decide⟩, ?_⟩
  intro rnd h
  have hword : cidr.network + rangeHost rnd cidr 48 0#64 = 0x20010db8000000010000000000000000 := by
    rw [← Prefix.word_withHost (rangeHost_lt hr _ rnd), ← assignWithRange_eq hr, h]
    rfl
  have hzero : fixedBits cidr 48 0#64 = 0 := by decide
  have hnet : cidr.network + 2 ^ 64 = 0x20010db8000000010000000000000000 := by decide +kernel
  have hdrawn : rnd.drawn cidr.addr < 2 ^ 64 := rnd.drawn_lt cidr.addr
  have hle := Nat.mod_le (rnd.drawn cidr.addr) (2 ^ (cidr.addr.bitLen - (48 : UInt8).toNat))
  rw [rangeHost, hzero, Nat.zero_mul, Nat.zero_add] at hword
  omega

end Outway
