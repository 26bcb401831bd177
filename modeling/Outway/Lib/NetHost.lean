import Mathlib

/-!
# Outway.Lib.NetHost

Splitting a machine word into its network part (the bits from `k` up) and its
host part (the `k` low bits).  Two words lie in one network when they agree
after a right shift by `k`; the lemmas say which word operations keep the
network part and which produce pure host parts.
-/

namespace NetHost

variable {w k : Nat}

/-- `x` has no bit at or above `k`. -/
def IsHost (k : Nat) (x : BitVec w) : Prop := x.toNat < 2 ^ k

/-! ## Host parts -/

/-- A mask of host bits leaves host bits. -/
theorem isHost_and_right {x y : BitVec w} (h : IsHost k y) : IsHost k (x &&& y) :=
  Nat.lt_of_le_of_lt (by rw [BitVec.toNat_and]; exact Nat.and_le_right) h

/-- A host part is one of more bits, too. -/
theorem IsHost.mono {x : BitVec w} {k' : Nat} (h : IsHost k x) (hk : k ≤ k') : IsHost k' x :=
  Nat.lt_of_lt_of_le h (Nat.pow_le_pow_right (by omega) hk)

theorem isHost_of_le {x : BitVec w} (h : x.toNat ≤ 2 ^ k - 1) : IsHost k x := by
  have : 0 < 2 ^ k := by positivity
  simp only [IsHost]
  omega

/-- `(1 << k) - 1` is the mask of the `k` low bits, also at `k = w` where the
shift gives zero and the subtraction wraps. -/
theorem toNat_lowMask (h : k ≤ w) : (1#w <<< k - 1#w).toNat = 2 ^ k - 1 := by
  have hpos : 0 < 2 ^ k := by positivity
  rcases Nat.lt_or_eq_of_le h with hlt | heq
  · have hpow : 2 ^ k < 2 ^ w := Nat.pow_lt_pow_right (by omega) hlt
    have hone : 1 < 2 ^ w := Nat.one_lt_two_pow (by omega)
    rw [BitVec.toNat_sub, BitVec.toNat_shiftLeft, BitVec.toNat_ofNat, Nat.mod_eq_of_lt hone,
      Nat.shiftLeft_eq, Nat.one_mul, Nat.mod_eq_of_lt hpow,
      show 2 ^ w - 1 + 2 ^ k = 2 ^ k - 1 + 2 ^ w by omega, Nat.add_mod_right,
      Nat.mod_eq_of_lt (by omega)]
  · subst heq
    rw [BitVec.shiftLeft_eq_zero (Nat.le_refl k), BitVec.zero_sub, BitVec.neg_one_eq_allOnes,
      BitVec.toNat_allOnes]

/-- Shifting a host part of `j` bits up by `i` gives a host part of `i + j` bits. -/
theorem IsHost.shiftLeft {x : BitVec w} {i j : Nat} (h : IsHost j x) :
    IsHost (i + j) (x <<< i) := by
  have hx : x.toNat < 2 ^ j := h
  calc (x <<< i).toNat ≤ x.toNat <<< i := by rw [BitVec.toNat_shiftLeft]; exact Nat.mod_le _ _
    _ = x.toNat * 2 ^ i := Nat.shiftLeft_eq _ _
    _ < 2 ^ j * 2 ^ i := Nat.mul_lt_mul_of_pos_right hx (by positivity)
    _ = 2 ^ (i + j) := by rw [Nat.pow_add, Nat.mul_comm]

/-- Shifting up and down again leaves the low `w - i` bits. -/
theorem isHost_shiftLeft_shiftRight (x : BitVec w) (i : Nat) :
    IsHost (w - i) ((x <<< i) >>> i) := by
  simp only [IsHost, BitVec.toNat_ushiftRight, BitVec.toNat_shiftLeft, Nat.shiftRight_eq_div_pow]
  rcases Nat.le_total w i with hwi | hiw
  · have hlt : x.toNat <<< i % 2 ^ w < 2 ^ i :=
      Nat.lt_of_lt_of_le (Nat.mod_lt _ (by positivity)) (Nat.pow_le_pow_right (by omega) hwi)
    rw [Nat.div_eq_of_lt hlt]
    positivity
  · rw [Nat.div_lt_iff_lt_mul (by positivity), ← Nat.pow_add, Nat.sub_add_cancel hiw]
    exact Nat.mod_lt _ (by positivity)

/-! ## Words of one network -/

/-- Putting a host part in keeps the network. -/
theorem or_host_shiftRight {x y : BitVec w} (h : IsHost k y) : (x ||| y) >>> k = x >>> k := by
  have hy : y >>> k = 0#w := by
    apply BitVec.eq_of_toNat_eq
    rw [BitVec.toNat_ushiftRight, Nat.shiftRight_eq_div_pow, Nat.div_eq_of_lt h]
    simp
  rw [BitVec.ushiftRight_or_distrib, hy, BitVec.or_zero]

/-- Clearing the host bits keeps the network. -/
theorem clear_shiftRight (x : BitVec w) (k : Nat) : ((x >>> k) <<< k) >>> k = x >>> k := by
  ext i hi
  simp only [BitVec.getElem_ushiftRight, BitVec.getLsbD_shiftLeft, BitVec.getLsbD_ushiftRight]
  by_cases h : k + i < w
  · simp [h]
  · simp [h, BitVec.getLsbD_of_ge x (k + i) (by omega)]

theorem and_shiftLeft_ones_shiftRight (x : BitVec w) (k : Nat) :
    (x &&& BitVec.allOnes w <<< k) >>> k = x >>> k := by
  ext i hi
  simp only [BitVec.getElem_ushiftRight, BitVec.getLsbD_and, BitVec.getLsbD_shiftLeft]
  by_cases h : k + i < w
  · simp [h, hi]
  · simp [BitVec.getLsbD_of_ge x (k + i) (by omega)]

/-- So does masking them away. -/
theorem and_not_mask_shiftRight {m : BitVec w} (x : BitVec w) (h : m.toNat = 2 ^ k - 1) :
    (x &&& ~~~m) >>> k = x >>> k := by
  have hm : m >>> k = 0#w := by
    apply BitVec.eq_of_toNat_eq
    rw [BitVec.toNat_ushiftRight, Nat.shiftRight_eq_div_pow, h,
      Nat.div_eq_of_lt (Nat.sub_lt (by positivity) (by omega))]
    simp
  ext i hi
  have hbit : m.getLsbD (k + i) = false := by
    have := congrArg (fun b => b.getLsbD i) hm
    simpa [BitVec.getLsbD_ushiftRight] using this
  simp only [BitVec.getElem_ushiftRight, BitVec.getLsbD_and, BitVec.getLsbD_not, hbit]
  by_cases hw : k + i < w
  · simp [hw]
  · simp [BitVec.getLsbD_of_ge x (k + i) (by omega)]

/-! ## Words as numbers -/

/-- The network part, as a number. -/
theorem toNat_clear (x : BitVec w) (k : Nat) :
    ((x >>> k) <<< k).toNat = x.toNat / 2 ^ k * 2 ^ k := by
  have hle : x.toNat / 2 ^ k * 2 ^ k ≤ x.toNat := Nat.div_mul_le_self _ _
  rw [BitVec.toNat_shiftLeft, BitVec.toNat_ushiftRight, Nat.shiftLeft_eq, Nat.shiftRight_eq_div_pow,
    Nat.mod_eq_of_lt (Nat.lt_of_le_of_lt hle x.isLt)]

/-- The host part, as a number. -/
theorem toNat_and_mask {m : BitVec w} (x : BitVec w) (h : m.toNat = 2 ^ k - 1) :
    (x &&& m).toNat = x.toNat % 2 ^ k := by
  rw [BitVec.toNat_and, h, Nat.and_two_pow_sub_one_eq_mod]

theorem and_shiftLeft_ones_eq_clear (x : BitVec w) (k : Nat) :
    x &&& BitVec.allOnes w <<< k = (x >>> k) <<< k := by
  apply BitVec.eq_of_getLsbD_eq
  intro i hi
  simp only [BitVec.getLsbD_and, BitVec.getLsbD_shiftLeft, BitVec.getLsbD_allOnes,
    BitVec.getLsbD_ushiftRight]
  grind

/-- Masking with the complement clears the host bits. -/
theorem and_not_mask_eq_clear {m : BitVec w} (x : BitVec w) (h : m.toNat = 2 ^ k - 1) :
    x &&& ~~~m = (x >>> k) <<< k := by
  have hbit (i : Nat) : m.getLsbD i = decide (i < k) := by
    rw [BitVec.getLsbD, h, Nat.testBit_two_pow_sub_one]
  apply BitVec.eq_of_getLsbD_eq
  intro i hi
  simp only [BitVec.getLsbD_and, BitVec.getLsbD_not, BitVec.getLsbD_shiftLeft,
    BitVec.getLsbD_ushiftRight, hbit]
  grind

/-- Shifting up and down drops the upper bits. -/
theorem toNat_shiftLeft_shiftRight (x : BitVec w) {i : Nat} (hi : i ≤ w) :
    ((x <<< i) >>> i).toNat = x.toNat % 2 ^ (w - i) := by
  have hpow : 2 ^ w = 2 ^ (w - i) * 2 ^ i := by rw [← Nat.pow_add, Nat.sub_add_cancel hi]
  rw [BitVec.toNat_ushiftRight, BitVec.toNat_shiftLeft, Nat.shiftLeft_eq, Nat.shiftRight_eq_div_pow,
    hpow, Nat.mul_mod_mul_right, Nat.mul_div_cancel _ (Nat.two_pow_pos i)]

/-- Two words lie in one network when their numbers agree from bit `k` up. -/
theorem xor_shiftRight_eq_zero_iff {x y : BitVec w} :
    (x ^^^ y) >>> k = 0 ↔ x.toNat / 2 ^ k = y.toNat / 2 ^ k := by
  have hzero : x >>> k ^^^ y >>> k = 0 ↔ x >>> k = y >>> k := BitVec.xor_eq_zero_iff
  rw [BitVec.ushiftRight_xor_distrib, hzero, ← BitVec.toNat_inj, BitVec.toNat_ushiftRight,
    BitVec.toNat_ushiftRight, Nat.shiftRight_eq_div_pow, Nat.shiftRight_eq_div_pow]

/-- The network of a network with a host part. -/
theorem clear_add_host_div {q host : Nat} (hhost : host < 2 ^ k) :
    (q * 2 ^ k + host) / 2 ^ k = q := by
  rw [Nat.mul_comm, Nat.mul_add_div (Nat.two_pow_pos k), Nat.div_eq_of_lt hhost, Nat.add_zero]

/-- A host part does not carry into the bits above the word. -/
theorem clear_add_host_lt {n host : Nat} (hn : n < 2 ^ w) (hk : k ≤ w) (hhost : host < 2 ^ k) :
    n / 2 ^ k * 2 ^ k + host < 2 ^ w := by
  have hpow : 2 ^ w = 2 ^ (w - k) * 2 ^ k := by rw [← Nat.pow_add, Nat.sub_add_cancel hk]
  have hdiv : n / 2 ^ k + 1 ≤ 2 ^ (w - k) := by
    rw [Nat.add_one_le_iff, Nat.div_lt_iff_lt_mul (Nat.two_pow_pos k), ← hpow]
    exact hn
  calc n / 2 ^ k * 2 ^ k + host < n / 2 ^ k * 2 ^ k + 2 ^ k := Nat.add_lt_add_left hhost _
    _ = (n / 2 ^ k + 1) * 2 ^ k := (Nat.succ_mul _ _).symm
    _ ≤ 2 ^ w := by rw [hpow]; exact Nat.mul_le_mul_right _ hdiv

/-- A word without host bits joined with a host part is their sum. -/
theorem toNat_or_host {net host : BitVec w} (hnet : 2 ^ k ∣ net.toNat) (hhost : IsHost k host) :
    (net ||| host).toNat = net.toNat + host.toNat := by
  obtain ⟨q, hq⟩ := hnet
  rw [BitVec.toNat_or, hq, Nat.mul_comm, ← Nat.shiftLeft_eq, Nat.shiftLeft_add_eq_or_of_lt hhost]

/-- A network part, `n` fixed bits below it and a host part of `k` bits add up. -/
theorem toNat_or_fixed_or_host {net fixed host : BitVec w} {n : Nat} (hn : n + k ≤ w)
    (hnet : 2 ^ (n + k) ∣ net.toNat) (hfixed : IsHost n fixed) (hhost : IsHost k host) :
    (net ||| fixed <<< k ||| host).toNat = net.toNat + fixed.toNat * 2 ^ k + host.toNat := by
  have hlt : fixed.toNat * 2 ^ k < 2 ^ w := by
    calc fixed.toNat * 2 ^ k < 2 ^ n * 2 ^ k := Nat.mul_lt_mul_of_pos_right hfixed (by positivity)
      _ = 2 ^ (n + k) := (Nat.pow_add 2 n k).symm
      _ ≤ 2 ^ w := Nat.pow_le_pow_right (by omega) hn
  have hshift : (fixed <<< k).toNat = fixed.toNat * 2 ^ k := by
    rw [BitVec.toNat_shiftLeft, Nat.shiftLeft_eq, Nat.mod_eq_of_lt hlt]
  have hjoin : (net ||| fixed <<< k).toNat = net.toNat + fixed.toNat * 2 ^ k := by
    rw [toNat_or_host hnet (by rw [Nat.add_comm]; exact hfixed.shiftLeft), hshift]
  rw [toNat_or_host ?_ hhost, hjoin]
  rw [hjoin]
  exact Nat.dvd_add (Nat.dvd_trans (Nat.pow_dvd_pow 2 (by omega)) hnet) (Nat.dvd_mul_left _ _)

end NetHost
