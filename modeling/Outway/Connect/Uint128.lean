import Outway.Netip

/-!
# Outway.Connect.Uint128

The two-word 128-bit helpers of the source-address selection: a `Uint128` is a
pair of 64-bit halves, and every helper works on the halves the way the code
does.  Go shifts by the operand width or more give zero, which is what
`BitVec`'s shifts by a `Nat` do.

`Uint128.toNat` is the integer a pair stands for and `Uint128.toBitVec` the
128-bit vector; the helpers are characterised against these once, so the
address proofs never look at the halves again.
-/

namespace Outway

/-- `uint128`: two 64-bit halves. -/
@[ext] structure Uint128 where
  hi : BitVec 64
  lo : BitVec 64
  deriving DecidableEq, Repr

/-! ## The helpers -/

def uint128One : Uint128 := ⟨0#64, 1#64⟩

def uint128FromU64 (v : BitVec 64) : Uint128 := ⟨0#64, v⟩

def isZeroUint128 (a : Uint128) : Bool := a.hi == 0#64 && a.lo == 0#64

def bytesToUint128 (b : Bytes16) : Uint128 :=
  ⟨widen 64 (b.get 0) <<< 56 ||| widen 64 (b.get 1) <<< 48 ||| widen 64 (b.get 2) <<< 40 |||
      widen 64 (b.get 3) <<< 32 ||| widen 64 (b.get 4) <<< 24 ||| widen 64 (b.get 5) <<< 16 |||
      widen 64 (b.get 6) <<< 8 ||| widen 64 (b.get 7),
    widen 64 (b.get 8) <<< 56 ||| widen 64 (b.get 9) <<< 48 ||| widen 64 (b.get 10) <<< 40 |||
      widen 64 (b.get 11) <<< 32 ||| widen 64 (b.get 12) <<< 24 ||| widen 64 (b.get 13) <<< 16 |||
      widen 64 (b.get 14) <<< 8 ||| widen 64 (b.get 15)⟩

def ipv6ToUint128 (addr : Addr) : Uint128 := bytesToUint128 addr.as16

/-- The byte loop shared by `uint128ToIPv6` and `RandomU128`: the two words in
big-endian byte order. -/
def wordsToBytes (hi lo : BitVec 64) : Bytes16 :=
  Vector.ofFn fun i =>
    if i.val < 8 then byteOf hi (7 - i.val) else byteOf lo (7 - (i.val - 8))

def uint128ToIPv6 (a : Uint128) : Addr := addrFrom16 (wordsToBytes a.hi a.lo)

/-- `1 << n`. -/
def newUint128LShiftOne (n : Nat) : Uint128 :=
  if n ≥ 128 then ⟨0#64, 0#64⟩
  else if n < 64 then ⟨0#64, 1#64 <<< n⟩
  else ⟨1#64 <<< (n - 64), 0#64⟩

/-- `(1 << n) - 1`, a mask of `n` low bits. -/
def newUint128FromBitRange (n : Nat) : Uint128 :=
  if n ≥ 128 then ⟨~~~0#64, ~~~0#64⟩
  else if n < 64 then ⟨0#64, 1#64 <<< n - 1#64⟩
  else ⟨1#64 <<< (n - 64) - 1#64, ~~~0#64⟩

def notUint128 (a : Uint128) : Uint128 := ⟨~~~a.hi, ~~~a.lo⟩

def andUint128 (a b : Uint128) : Uint128 := ⟨a.hi &&& b.hi, a.lo &&& b.lo⟩

def orUint128 (a b : Uint128) : Uint128 := ⟨a.hi ||| b.hi, a.lo ||| b.lo⟩

def shlUint128 (a : Uint128) (n : Nat) : Uint128 :=
  if n = 0 then a
  else if n ≥ 128 then ⟨0#64, 0#64⟩
  else if n < 64 then ⟨a.hi <<< n ||| a.lo >>> (64 - n), a.lo <<< n⟩
  else ⟨a.lo <<< (n - 64), 0#64⟩

def shrUint128 (a : Uint128) (n : Nat) : Uint128 :=
  if n = 0 then a
  else if n ≥ 128 then ⟨0#64, 0#64⟩
  else if n < 64 then ⟨a.hi >>> n, a.lo >>> n ||| a.hi <<< (64 - n)⟩
  else ⟨0#64, a.hi >>> (n - 64)⟩

def subUint128 (a b : Uint128) : Uint128 :=
  let lo := a.lo - b.lo
  let carry := if a.lo < b.lo then 1#64 else 0#64
  ⟨a.hi - b.hi - carry, lo⟩

def cmpUint128 (a b : Uint128) : Int :=
  if a.hi ≠ b.hi then (if a.hi > b.hi then 1 else -1)
  else if a.lo > b.lo then 1
  else if a.lo < b.lo then -1
  else 0

/-- The bit test of `modUint128`'s loop at index `i`, as the code writes it. -/
def modBit (a : Uint128) (i : Nat) : Bool :=
  (a.hi >>> (63 - i % 64)) &&& 1#64 != 0#64 ||
    (decide (i < 64) && (a.lo >>> (63 - i)) &&& 1#64 != 0#64)

/-- One iteration of `modUint128`'s loop at index `i`. -/
def modStep (a b : Uint128) (i : Nat) (r : Uint128) : Uint128 :=
  let r := shlUint128 r 1
  let r := if modBit a i then
      (if i ≥ 64 then { r with hi := r.hi ||| 1#64 <<< (i - 64) }
       else { r with lo := r.lo ||| 1#64 <<< i })
    else r
  if cmpUint128 r b ≥ 0 then subUint128 r b else r

/-- The iterations for the indices `i - 1, …, 0`. -/
def modLoop (a b : Uint128) : Nat → Uint128 → Uint128
  | 0, r => r
  | i + 1, r => modLoop a b i (modStep a b i r)

def modUint128 (a b : Uint128) : Uint128 :=
  if isZeroUint128 b then a
  else if b.hi = 0#64 ∧ a.hi = 0#64 then ⟨0#64, a.lo % b.lo⟩
  else modLoop a b 128 ⟨0#64, 0#64⟩

/-! ## The integer a pair stands for -/

namespace Uint128

def toNat (a : Uint128) : Nat := a.hi.toNat * 2 ^ 64 + a.lo.toNat

def toBitVec (a : Uint128) : BitVec 128 := a.hi ++ a.lo

/-- The two words are one word of 128 bits. -/
@[simp] theorem toNat_toBitVec (a : Uint128) : a.toBitVec.toNat = a.toNat := by
  rw [toBitVec, BitVec.toNat_append, ← Nat.shiftLeft_add_eq_or_of_lt a.lo.isLt, Nat.shiftLeft_eq]
  rfl

theorem toNat_lt (a : Uint128) : a.toNat < 2 ^ 128 := by
  have hhi := a.hi.isLt
  have hlo := a.lo.isLt
  unfold toNat
  omega

/-- A value is determined by its number. -/
theorem toNat_inj {a b : Uint128} (h : a.toNat = b.toNat) : a = b := by
  have ha := a.lo.isLt
  have hb := b.lo.isLt
  unfold toNat at h
  ext1
  · apply BitVec.eq_of_toNat_eq; omega
  · apply BitVec.eq_of_toNat_eq; omega

end Uint128

open Uint128

/-! ## Bitwise helpers -/

/-- The bitwise operations work on the two words. -/
@[simp] theorem toBitVec_andUint128 (a b : Uint128) :
    (andUint128 a b).toBitVec = a.toBitVec &&& b.toBitVec := BitVec.and_append.symm

@[simp] theorem toBitVec_orUint128 (a b : Uint128) :
    (orUint128 a b).toBitVec = a.toBitVec ||| b.toBitVec := BitVec.or_append.symm

@[simp] theorem toBitVec_notUint128 (a : Uint128) :
    (notUint128 a).toBitVec = ~~~a.toBitVec := BitVec.not_append.symm

/-! ## Shifts, masks and subtraction -/

/-- A one-bit word shifted within its width is the power of two. -/
theorem toNat_one_shiftLeft {n : Nat} (h : n < 64) : (1#64 <<< n).toNat = 2 ^ n := by
  have hlt : 2 ^ n < 2 ^ 64 := Nat.pow_lt_pow_right (by decide) h
  rw [BitVec.toNat_shiftLeft, Nat.shiftLeft_eq, BitVec.toNat_ofNat,
    Nat.mod_eq_of_lt (show 1 < 2 ^ 64 by decide), Nat.one_mul, Nat.mod_eq_of_lt hlt]

/-- `newUint128LShiftOne n` is `2 ^ n`, cut to 128 bits. -/
theorem toNat_newUint128LShiftOne (n : Nat) :
    (newUint128LShiftOne n).toNat = 2 ^ n % 2 ^ 128 := by
  unfold newUint128LShiftOne
  split
  · next h =>
      rw [Nat.mod_eq_zero_of_dvd (Nat.pow_dvd_pow 2 h)]
      rfl
  · next h =>
      rw [Nat.mod_eq_of_lt (Nat.pow_lt_pow_right (by decide) (by omega))]
      split
      · next h64 => simp only [Uint128.toNat, toNat_one_shiftLeft h64]; simp
      · next h64 =>
          simp only [Uint128.toNat, toNat_one_shiftLeft (show n - 64 < 64 by omega)]
          rw [← Nat.pow_add, Nat.sub_add_cancel (by omega)]
          rfl

/-- Subtraction borrows across the halves and wraps at 128 bits. -/
theorem toNat_subUint128 (a b : Uint128) :
    (subUint128 a b).toNat = (a.toNat + (2 ^ 128 - b.toNat)) % 2 ^ 128 := by
  have ha := a.lo.isLt
  have hb := b.lo.isLt
  have ha' := a.hi.isLt
  have hb' := b.hi.isLt
  simp only [subUint128, Uint128.toNat]
  by_cases hlt : a.lo < b.lo
  · have hlt' : a.lo.toNat < b.lo.toNat := hlt
    simp only [if_pos hlt, BitVec.toNat_sub, BitVec.toNat_ofNat]
    omega
  · have hlt' : ¬ a.lo.toNat < b.lo.toNat := hlt
    simp only [if_neg hlt, BitVec.toNat_sub, BitVec.toNat_ofNat]
    omega

/-- Subtraction wraps at `2 ^ 128`. -/
theorem cast_toNat_subUint128 (a b : Uint128) :
    ((subUint128 a b).toNat : Int) = ((a.toNat : Int) - b.toNat) % 2 ^ 128 := by
  have ha := a.toNat_lt
  have hb := b.toNat_lt
  rw [toNat_subUint128]
  omega

/-- Without a borrow out of the top word subtraction is exact. -/
theorem toNat_subUint128_of_le {a b : Uint128} (h : b.toNat ≤ a.toNat) :
    (subUint128 a b).toNat = a.toNat - b.toNat := by
  have ha := a.toNat_lt
  rw [toNat_subUint128]
  omega

/-- `1 << n` minus one is the mask of `n` low bits, also at `n = 128` where the
shift gives zero and the subtraction wraps. -/
theorem toNat_sub_lShiftOne_one {n : Nat} (h : n ≤ 128) :
    (subUint128 (newUint128LShiftOne n) uint128One).toNat = 2 ^ n - 1 := by
  have hone : uint128One.toNat = 1 := rfl
  rw [toNat_subUint128, toNat_newUint128LShiftOne, hone]
  rcases Nat.lt_or_eq_of_le h with hlt | heq
  · have hpow : 2 ^ n < 2 ^ 128 := Nat.pow_lt_pow_right (by decide) hlt
    have hpos : 0 < 2 ^ n := Nat.two_pow_pos n
    rw [Nat.mod_eq_of_lt hpow]
    omega
  · subst heq
    decide

/-- The bit-range mask is the same number. -/
theorem toNat_newUint128FromBitRange {n : Nat} (h : n ≤ 128) :
    (newUint128FromBitRange n).toNat = 2 ^ n - 1 := by
  unfold newUint128FromBitRange
  have hmax : (~~~0#64).toNat = 2 ^ 64 - 1 := by decide
  have hsub (k : Nat) (hk : k < 64) : (1#64 <<< k - 1#64).toNat = 2 ^ k - 1 := by
    have hpos : 0 < 2 ^ k := Nat.two_pow_pos k
    have hlt : 2 ^ k < 2 ^ 64 := Nat.pow_lt_pow_right (by decide) hk
    rw [BitVec.toNat_sub, toNat_one_shiftLeft hk, BitVec.toNat_ofNat]
    omega
  split
  · next hge =>
      have heq : n = 128 := by omega
      subst heq
      decide
  · next hge =>
      split
      · next h64 => simp only [Uint128.toNat, hsub n h64]; simp
      · next h64 =>
          have hpow : 2 ^ n = 2 ^ (n - 64) * 2 ^ 64 := by
            rw [← Nat.pow_add, Nat.sub_add_cancel (by omega)]
          have hpos : 0 < 2 ^ (n - 64) := Nat.two_pow_pos _
          simp only [Uint128.toNat, hsub (n - 64) (by omega), hmax]
          rw [hpow]
          omega

/-- From 128 on the shift count makes no difference. -/
theorem newUint128LShiftOne_min (n : Nat) :
    newUint128LShiftOne (min n 128) = newUint128LShiftOne n := by
  rcases Nat.le_total n 128 with hle | hge
  · rw [min_eq_left hle]
  · rw [min_eq_right hge, newUint128LShiftOne, newUint128LShiftOne, if_pos le_rfl, if_pos hge]

/-- More than 128 bits are all bits. -/
theorem newUint128FromBitRange_min (n : Nat) :
    newUint128FromBitRange (min n 128) = newUint128FromBitRange n := by
  rcases Nat.le_total n 128 with hle | hge
  · rw [min_eq_left hle]
  · rw [min_eq_right hge, newUint128FromBitRange, newUint128FromBitRange, if_pos le_rfl, if_pos hge]

/-- The two ways to write the mask of `n` low bits, for any `n`. -/
theorem newUint128FromBitRange_eq_sub (n : Nat) :
    newUint128FromBitRange n = subUint128 (newUint128LShiftOne n) uint128One := by
  have hle : min n 128 ≤ 128 := min_le_right n 128
  rw [← newUint128FromBitRange_min, ← newUint128LShiftOne_min]
  apply toNat_inj
  rw [toNat_newUint128FromBitRange hle, toNat_sub_lShiftOne_one hle]

/-- Left shift carries across the halves like a 128-bit shift. -/
theorem toBitVec_shlUint128 (a : Uint128) (n : Nat) :
    (shlUint128 a n).toBitVec = a.toBitVec <<< n := by
  apply BitVec.eq_of_getLsbD_eq
  intro i hi
  unfold shlUint128
  split_ifs with h0 h128 h64
  · subst h0; simp
  · have hlt : i < n := by omega
    simp [toBitVec, hi, hlt]
  · simp only [toBitVec, BitVec.getLsbD_append, BitVec.getLsbD_or, BitVec.getLsbD_shiftLeft,
      BitVec.getLsbD_ushiftRight]
    grind
  · have hidx : i - 64 - (n - 64) = i - n := by omega
    simp only [toBitVec, BitVec.getLsbD_append, BitVec.getLsbD_shiftLeft, BitVec.getLsbD_zero, hidx]
    grind

/-- Left shift multiplies and cuts to 128 bits. -/
theorem toNat_shlUint128 (a : Uint128) (n : Nat) :
    (shlUint128 a n).toNat = a.toNat * 2 ^ n % 2 ^ 128 := by
  rw [← toNat_toBitVec, toBitVec_shlUint128, BitVec.toNat_shiftLeft, toNat_toBitVec,
    Nat.shiftLeft_eq]

/-- Right shift carries across the halves like a 128-bit shift. -/
theorem toBitVec_shrUint128 (a : Uint128) (n : Nat) :
    (shrUint128 a n).toBitVec = a.toBitVec >>> n := by
  apply BitVec.eq_of_getLsbD_eq
  intro i hi
  unfold shrUint128
  split_ifs with h0 h128 h64
  · subst h0; simp
  · have hge : 128 ≤ n + i := by omega
    simp [toBitVec, BitVec.getLsbD_of_ge _ _ hge]
  · simp only [toBitVec, BitVec.getLsbD_append, BitVec.getLsbD_or, BitVec.getLsbD_shiftLeft,
      BitVec.getLsbD_ushiftRight]
    grind
  · have hidx : n - 64 + i = n + i - 64 := by omega
    simp only [toBitVec, BitVec.getLsbD_append, BitVec.getLsbD_ushiftRight,
      BitVec.getLsbD_zero, hidx]
    grind

/-- Right shift divides. -/
theorem toNat_shrUint128 (a : Uint128) (n : Nat) :
    (shrUint128 a n).toNat = a.toNat / 2 ^ n := by
  rw [← toNat_toBitVec, toBitVec_shrUint128, BitVec.toNat_ushiftRight, toNat_toBitVec,
    Nat.shiftRight_eq_div_pow]

/-- `cmpUint128` is the sign of the difference. -/
theorem cmpUint128_eq_sign (a b : Uint128) :
    cmpUint128 a b = ((a.toNat : Int) - b.toNat).sign := by
  have ha := a.lo.isLt
  have hb := b.lo.isLt
  have hne : a.hi ≠ b.hi ↔ a.hi.toNat ≠ b.hi.toNat := BitVec.toNat_ne_iff_ne.symm
  simp only [cmpUint128, Uint128.toNat, GT.gt, hne, BitVec.lt_def]
  split_ifs
  · exact (Int.sign_eq_one_of_pos (by omega)).symm
  · exact (Int.sign_eq_neg_one_of_neg (by omega)).symm
  · exact (Int.sign_eq_one_of_pos (by omega)).symm
  · exact (Int.sign_eq_neg_one_of_neg (by omega)).symm
  · exact (Int.sign_eq_zero_iff_zero.mpr (by omega)).symm

/-- The comparison is that of the numbers. -/
theorem cmpUint128_nonneg_iff (a b : Uint128) : 0 ≤ cmpUint128 a b ↔ b.toNat ≤ a.toNat := by
  rw [cmpUint128_eq_sign, Int.sign_nonneg_iff]
  omega

/-! ## Bytes -/

/-- The two words of an IPv6 address are its halves. -/
theorem toBitVec_ipv6ToUint128 (a : BitVec 128) (zone : String) :
    (ipv6ToUint128 (.v6 a zone)).toBitVec = a := by
  have hwords : ipv6ToUint128 (.v6 a zone) = ⟨a.extractLsb' 64 64, a.extractLsb' 0 64⟩ := by
    ext1
    · exact beUint64_byteOf _
    · exact beUint64_byteOf _
  rw [hwords, toBitVec, BitVec.extractLsb'_append_extractLsb']

/-- `uint128ToIPv6` is the zone-free address with the given words as halves. -/
theorem uint128ToIPv6_eq (a : Uint128) : uint128ToIPv6 a = .v6 a.toBitVec "" := by
  have hhi := beUint64_byteOf a.hi
  have hlo := beUint64_byteOf a.lo
  simp only [uint128ToIPv6, addrFrom16, wordsToBytes, Vector.getElem_ofFn, toBitVec]
  simp [hhi, hlo]

/-- The bytes of an address and its two words. -/
theorem ipv6ToUint128_uint128ToIPv6 (a : Uint128) : ipv6ToUint128 (uint128ToIPv6 a) = a := by
  apply toNat_inj
  rw [← toNat_toBitVec, uint128ToIPv6_eq, toBitVec_ipv6ToUint128, toNat_toBitVec]

/-- There and back, an address keeps its 16 bytes and loses its zone. -/
theorem uint128ToIPv6_ipv6ToUint128 (a : BitVec 128) (zone : String) :
    uint128ToIPv6 (ipv6ToUint128 (.v6 a zone)) = .v6 a "" := by
  rw [uint128ToIPv6_eq, toBitVec_ipv6ToUint128]

/-- The conversions are inverse to each other on the addresses of 16 bytes. -/
theorem invOn_uint128ToIPv6 :
    Set.InvOn ipv6ToUint128 uint128ToIPv6 Set.univ (Set.range addrFrom16) := by
  constructor
  · intro a _
    exact ipv6ToUint128_uint128ToIPv6 a
  · rintro _ ⟨b, rfl⟩
    exact uint128ToIPv6_ipv6ToUint128 _ _

/-! ## The helpers as integer arithmetic -/

/-- **Two-word arithmetic**: on all pairs and for every shift count, the helpers compute with
the integers the pairs stand for, and the conversions are inverse bijections between the
pairs and the addresses of 16 bytes. -/
theorem uint128_arithmetic (a b : Uint128) (n : Nat) :
    (shlUint128 a n).toNat = a.toNat * 2 ^ n % 2 ^ 128 ∧
      (shrUint128 a n).toNat = a.toNat / 2 ^ n ∧
      ((subUint128 a b).toNat : Int) = ((a.toNat : Int) - b.toNat) % 2 ^ 128 ∧
      cmpUint128 a b = ((a.toNat : Int) - b.toNat).sign ∧
      (newUint128LShiftOne n).toNat = 2 ^ n % 2 ^ 128 ∧
      (newUint128FromBitRange n).toNat = 2 ^ min n 128 - 1 ∧
      newUint128FromBitRange n = subUint128 (newUint128LShiftOne n) uint128One ∧
      Set.InvOn ipv6ToUint128 uint128ToIPv6 Set.univ (Set.range addrFrom16) ∧
      Set.BijOn uint128ToIPv6 Set.univ (Set.range addrFrom16) ∧
      Set.BijOn ipv6ToUint128 (Set.range addrFrom16) Set.univ := by
  have hto : Set.MapsTo uint128ToIPv6 Set.univ (Set.range addrFrom16) :=
    fun a _ => ⟨wordsToBytes a.hi a.lo, rfl⟩
  have hof : Set.MapsTo ipv6ToUint128 (Set.range addrFrom16) Set.univ :=
    fun _ _ => Set.mem_univ _
  refine ⟨toNat_shlUint128 a n, toNat_shrUint128 a n, cast_toNat_subUint128 a b,
    cmpUint128_eq_sign a b, toNat_newUint128LShiftOne n, ?_, newUint128FromBitRange_eq_sub n,
    invOn_uint128ToIPv6, invOn_uint128ToIPv6.bijOn hto hof, invOn_uint128ToIPv6.symm.bijOn hof hto⟩
  rw [← newUint128FromBitRange_min, toNat_newUint128FromBitRange (min_le_right n 128)]

end Outway
