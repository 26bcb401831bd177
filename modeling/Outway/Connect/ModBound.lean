import Outway.Connect.Uint128

/-!
# Outway.Connect.ModBound

A bound on `modUint128` for the divisors the address selection uses.

The loop of `modUint128` reads the dividend's low word backwards and adds the
bit it reads at position `i` instead of position `0`, so its result is not the
remainder.  It still stays below `2 ^ h` for the divisor `2 ^ h - 1`, which is
what keeps the selected address inside its prefix.  The reason is arithmetical:
the bit added at index `i` is shifted `i` more times, so the undivided
accumulator has ones in every other position only, and folding such a number
modulo `2 ^ h - 1` never needs more than the one subtraction per step the loop
performs.
-/

namespace Outway

open Uint128

/-! ## Numbers without adjacent ones -/

/-- No two adjacent binary digits of `u` are both one. -/
def Sparse (u : Nat) : Prop := ∀ k, u / 2 ^ k % 4 ≠ 3

theorem sparse_zero : Sparse 0 := by
  intro k
  simp

/-- Appending the digits `0x` keeps a number sparse. -/
theorem sparse_append {u x : Nat} (hu : Sparse u) (hx : x ≤ 1) : Sparse (4 * u + x) := by
  intro k
  match k with
  | 0 => simp only [Nat.pow_zero, Nat.div_one]; omega
  | 1 => simp only [Nat.pow_one]; omega
  | k + 2 =>
      have hdiv : (4 * u + x) / 2 ^ (k + 2) = u / 2 ^ k := by
        rw [Nat.pow_add, Nat.mul_comm (2 ^ k), ← Nat.div_div_eq_div_mul]
        congr 1
        omega
      rw [hdiv]
      exact hu k

/-- The low `h` digits of a shifted sparse number do not start with two ones. -/
theorem mod_two_pow_lt_of_sparse {u i h : Nat} (hu : Sparse u) (hi : i ≤ h - 2) (hh : 2 ≤ h) :
    2 ^ i * u % 2 ^ h < 3 * 2 ^ (h - 2) := by
  have hpow : 2 ^ h = 2 ^ (h - 2) * 4 := by
    rw [show (4 : Nat) = 2 ^ 2 from rfl, ← Nat.pow_add, Nat.sub_add_cancel hh]
  have hdiv : 2 ^ i * u / 2 ^ (h - 2) = u / 2 ^ (h - 2 - i) := by
    rw [← Nat.sub_add_cancel hi, Nat.pow_add, Nat.mul_comm (2 ^ (h - 2 - i)),
      Nat.mul_div_mul_left _ _ (Nat.two_pow_pos i), Nat.add_sub_cancel]
  have hdigit : 2 ^ i * u % 2 ^ h / 2 ^ (h - 2) ≠ 3 := by
    rw [hpow, Nat.mod_mul_right_div_self, hdiv]
    exact hu _
  have hlt : 2 ^ i * u % 2 ^ h / 2 ^ (h - 2) < 4 := by
    rw [Nat.div_lt_iff_lt_mul (Nat.two_pow_pos _), Nat.mul_comm 4, ← hpow]
    exact Nat.mod_lt _ (Nat.two_pow_pos h)
  exact (Nat.div_lt_iff_lt_mul (Nat.two_pow_pos _)).mp (by omega)

/-! ## Folding modulo `2 ^ h - 1` -/

/-- The two halves of `t` around bit `h`, added: congruent to `t` modulo
`2 ^ h - 1`. -/
def foldAt (h t : Nat) : Nat := t / 2 ^ h + t % 2 ^ h

theorem foldAt_le (h t : Nat) : foldAt h t ≤ t := by
  have hdm := Nat.div_add_mod t (2 ^ h)
  have hle : t / 2 ^ h ≤ 2 ^ h * (t / 2 ^ h) := Nat.le_mul_of_pos_left _ (Nat.two_pow_pos h)
  unfold foldAt
  omega

/-- A folded sparse number stays below `2 ^ h`. -/
theorem foldAt_lt {u i h : Nat} (hu : Sparse u) (hi : i ≤ 63) (hh : 65 ≤ h)
    (hlt : u < 4 ^ (64 - i)) : foldAt h (2 ^ i * u) + 1 < 2 ^ h := by
  have hmod := mod_two_pow_lt_of_sparse hu (show i ≤ h - 2 by omega) (by omega)
  have hpow : 2 ^ h = 2 ^ (h - 2) * 4 := by
    rw [show (4 : Nat) = 2 ^ 2 from rfl, ← Nat.pow_add, Nat.sub_add_cancel (by omega)]
  have hquot : 2 ^ i * u / 2 ^ h < 2 ^ (h - 2) := by
    rw [Nat.div_lt_iff_lt_mul (Nat.two_pow_pos h)]
    calc 2 ^ i * u < 2 ^ i * 4 ^ (64 - i) := Nat.mul_lt_mul_of_pos_left hlt (Nat.two_pow_pos i)
      _ = 2 ^ (i + 2 * (64 - i)) := by
        rw [show (4 : Nat) = 2 ^ 2 from rfl, ← Nat.pow_mul, ← Nat.pow_add]
      _ ≤ 2 ^ (h - 2 + h) := Nat.pow_le_pow_right (by decide) (by omega)
      _ = 2 ^ (h - 2) * 2 ^ h := Nat.pow_add 2 _ _
  unfold foldAt
  omega

/-- One step on the folded number: doubling, adding the new digit at position
`i` and subtracting `2 ^ h - 1` once if possible. -/
theorem foldAt_step {u x i h : Nat} (hu : Sparse u) (hx : x ≤ 1) (hi : i ≤ 63) (hh : 65 ≤ h)
    (hlt : u < 4 ^ (63 - i)) :
    (if 2 ^ h - 1 ≤ 2 * foldAt h (2 ^ (i + 1) * u) + x * 2 ^ i
      then 2 * foldAt h (2 ^ (i + 1) * u) + x * 2 ^ i - (2 ^ h - 1)
      else 2 * foldAt h (2 ^ (i + 1) * u) + x * 2 ^ i) =
    foldAt h (2 ^ i * (4 * u + x)) := by
  have hfold := foldAt_lt (sparse_append hu hx) hi hh
    (show 4 * u + x < 4 ^ (64 - i) by rw [show 64 - i = 63 - i + 1 by omega, Nat.pow_succ]; omega)
  -- `t` is the undivided accumulator and `s` its part below `2 ^ h`, a multiple of `2 ^ (i + 1)`
  obtain ⟨t, ht⟩ : ∃ t, t = 2 ^ (i + 1) * u := ⟨_, rfl⟩
  have htwice : 2 ^ i * (4 * u + x) = 2 * t + x * 2 ^ i := by rw [ht, Nat.pow_succ]; ring
  have hdvd : 2 ^ (i + 1) ∣ t % 2 ^ h := by
    rw [ht]
    exact (Nat.dvd_mod_iff (Nat.pow_dvd_pow 2 (by omega))).mpr (Nat.dvd_mul_right _ _)
  obtain ⟨s, hs⟩ := hdvd
  have hsmall : t % 2 ^ h + 2 ^ (i + 1) ≤ 2 ^ h := by
    have hlt' : t % 2 ^ h < 2 ^ h := Nat.mod_lt _ (Nat.two_pow_pos h)
    have hsplit : 2 ^ h = 2 ^ (i + 1) * 2 ^ (h - (i + 1)) := by
      rw [← Nat.pow_add, Nat.add_sub_cancel' (by omega)]
    rw [hs, hsplit] at hlt' ⊢
    rw [← Nat.mul_succ]
    exact Nat.mul_le_mul_left _ (Nat.lt_of_mul_lt_mul_left hlt')
  have hxi : x * 2 ^ i ≤ 2 ^ i := by
    calc x * 2 ^ i ≤ 1 * 2 ^ i := Nat.mul_le_mul_right _ hx
      _ = 2 ^ i := Nat.one_mul _
  have hpow : 2 ^ (i + 1) = 2 * 2 ^ i := by rw [Nat.pow_succ, Nat.mul_comm]
  have hpos : 0 < 2 ^ h := Nat.two_pow_pos h
  have hsplit : 2 * t + x * 2 ^ i =
      2 ^ h * (2 * (t / 2 ^ h)) + (2 * (t % 2 ^ h) + x * 2 ^ i) := by
    have hdm := Nat.div_add_mod t (2 ^ h)
    rw [Nat.mul_left_comm]
    omega
  rw [htwice] at hfold ⊢
  rw [← ht]
  by_cases hcarry : 2 * (t % 2 ^ h) + x * 2 ^ i < 2 ^ h
  · have hfold' : foldAt h (2 * t + x * 2 ^ i) = 2 * foldAt h t + x * 2 ^ i := by
      rw [hsplit]
      unfold foldAt
      rw [Nat.mul_add_div hpos, Nat.div_eq_of_lt hcarry, Nat.mul_add_mod, Nat.mod_eq_of_lt hcarry]
      omega
    rw [hfold'] at hfold ⊢
    rw [if_neg (by omega)]
  · obtain ⟨w, hw⟩ := Nat.exists_eq_add_of_le (Nat.le_of_not_lt hcarry)
    have hwlt : w < 2 ^ h := by omega
    have hfold' : foldAt h (2 * t + x * 2 ^ i) + (2 ^ h - 1) = 2 * foldAt h t + x * 2 ^ i := by
      rw [hsplit, hw, ← Nat.add_assoc, ← Nat.mul_succ]
      unfold foldAt
      rw [Nat.mul_add_div hpos, Nat.div_eq_of_lt hwlt, Nat.mul_add_mod, Nat.mod_eq_of_lt hwlt]
      omega
    rw [if_pos (by omega)]
    omega

/-! ## The loop -/

/-- Setting one bit of a word adds the power of two or changes nothing. -/
theorem toNat_or_bit (x : BitVec 64) {i : Nat} (hi : i < 64) :
    ∃ e ≤ 1, (x ||| 1#64 <<< i).toNat = x.toNat + e * 2 ^ i := by
  have hbit : 1#64 <<< i = BitVec.twoPow 64 i := (BitVec.twoPow_eq 64 i).symm
  cases hx : x.getLsbD i with
  | true =>
      refine ⟨0, by decide, ?_⟩
      have hor : x ||| 1#64 <<< i = x := by
        apply BitVec.eq_of_getLsbD_eq
        intro j hj
        by_cases hij : j = i
        · subst hij; simp [hx]
        · rw [hbit, BitVec.getLsbD_or, BitVec.getLsbD_twoPow]
          have : ¬ i = j := fun h => hij h.symm
          simp [this]
      rw [hor]
      omega
  | false =>
      refine ⟨1, by decide, ?_⟩
      have hand : x &&& 1#64 <<< i = 0#64 := by
        rw [hbit, BitVec.and_twoPow, hx]
        rfl
      rw [← BitVec.add_eq_or_of_and_eq_zero x _ hand, BitVec.toNat_add_of_and_eq_zero hand,
        toNat_one_shiftLeft hi]
      omega

theorem toNat_shlUint128_one {r : Uint128} (hr : 2 * r.toNat < 2 ^ 128) :
    (shlUint128 r 1).toNat = 2 * r.toNat := by
  rw [toNat_shlUint128, Nat.pow_one, Nat.mul_comm, Nat.mod_eq_of_lt hr]

/-- The divisor is subtracted once if it fits. -/
theorem toNat_reduce (r b : Uint128) :
    (if cmpUint128 r b ≥ 0 then subUint128 r b else r).toNat =
      if b.toNat ≤ r.toNat then r.toNat - b.toNat else r.toNat := by
  simp only [GE.ge, cmpUint128_nonneg_iff]
  split
  · next hle => exact toNat_subUint128_of_le hle
  · rfl

/-- One iteration below index 64, on integers: the accumulator is doubled, the
digit may be added at position `i`, and the divisor is subtracted once if it
fits. -/
theorem toNat_modStep {a b r : Uint128} {i : Nat} (hi : i < 64) (hr : 2 * r.toNat < 2 ^ 128) :
    ∃ x ≤ 1, (modStep a b i r).toNat =
      if b.toNat ≤ 2 * r.toNat + x * 2 ^ i then 2 * r.toNat + x * 2 ^ i - b.toNat
      else 2 * r.toNat + x * 2 ^ i := by
  have hshl := toNat_shlUint128_one hr
  have hset : ∃ x ≤ 1, (if modBit a i then
      (if i ≥ 64 then { shlUint128 r 1 with hi := (shlUint128 r 1).hi ||| 1#64 <<< (i - 64) }
       else { shlUint128 r 1 with lo := (shlUint128 r 1).lo ||| 1#64 <<< i })
      else shlUint128 r 1 : Uint128).toNat = 2 * r.toNat + x * 2 ^ i := by
    by_cases hbit : modBit a i = true
    · obtain ⟨e, he, hlo⟩ := toNat_or_bit (shlUint128 r 1).lo hi
      refine ⟨e, he, ?_⟩
      rw [if_pos hbit, if_neg (by omega), ← hshl]
      simp only [Uint128.toNat, hlo]
      omega
    · refine ⟨0, by decide, ?_⟩
      rw [if_neg hbit, hshl]
      omega
  obtain ⟨x, hx, hval⟩ := hset
  refine ⟨x, hx, ?_⟩
  rw [modStep, toNat_reduce, hval]

/-- The accumulator of the loop before the indices `n - 1, …, 0`: a folded
sparse number. -/
def ModInv (h n : Nat) (r : Uint128) : Prop :=
  ∃ u, r.toNat = foldAt h (2 ^ n * u) ∧ Sparse u ∧ u < 4 ^ (64 - n)

theorem modInv_step {a b r : Uint128} {h i : Nat} (hh : 65 ≤ h) (hi : i < 64)
    (hb : b.toNat = 2 ^ h - 1) (hinv : ModInv h (i + 1) r) : ModInv h i (modStep a b i r) := by
  obtain ⟨u, hr, hu, hlt⟩ := hinv
  have hbound : 2 * r.toNat < 2 ^ 128 := by
    have hle := foldAt_le h (2 ^ (i + 1) * u)
    have hmul : 2 ^ (i + 1) * u < 2 ^ (i + 1) * 4 ^ (64 - (i + 1)) :=
      Nat.mul_lt_mul_of_pos_left hlt (Nat.two_pow_pos _)
    have hpow : 2 ^ (i + 1) * 4 ^ (64 - (i + 1)) ≤ 2 ^ 127 := by
      rw [show (4 : Nat) = 2 ^ 2 from rfl, ← Nat.pow_mul, ← Nat.pow_add]
      exact Nat.pow_le_pow_right (by decide) (by omega)
    omega
  obtain ⟨x, hx, hval⟩ := toNat_modStep (a := a) (b := b) hi hbound
  refine ⟨4 * u + x, ?_, sparse_append hu hx, ?_⟩
  · rw [hval, hb, hr]
    exact foldAt_step hu hx (by omega) hh (by rw [show 63 - i = 64 - (i + 1) by omega]; exact hlt)
  · rw [show 64 - i = 64 - (i + 1) + 1 by omega, Nat.pow_succ]
    omega

/-- Below index 64 the loop keeps the invariant to its end. -/
theorem modInv_modLoop {a b : Uint128} {h : Nat} (hh : 65 ≤ h) (hb : b.toNat = 2 ^ h - 1)
    (n : Nat) (r : Uint128) (hn : n ≤ 64) (hinv : ModInv h n r) :
    ModInv h 0 (modLoop a b n r) := by
  induction n generalizing r with
  | zero => exact hinv
  | succ n ih => exact ih _ (by omega) (modInv_step hh (by omega) hb hinv)

/-- An iteration that reads no bit. -/
theorem toNat_modStep_of_not {a b r : Uint128} {i : Nat} (hbit : modBit a i = false)
    (hr : 2 * r.toNat < 2 ^ 128) : (modStep a b i r).toNat =
      if b.toNat ≤ 2 * r.toNat then 2 * r.toNat - b.toNat else 2 * r.toNat := by
  rw [modStep, hbit, toNat_reduce, if_neg Bool.false_ne_true, toNat_shlUint128_one hr]

/-- Until the first bit is read the accumulator stays at zero. -/
theorem modLoop_zero {a b : Uint128} (hb : 0 < b.toNat) (m k : Nat)
    (hbits : ∀ i, m ≤ i → i < m + k → modBit a i = false) :
    modLoop a b (m + k) ⟨0#64, 0#64⟩ = modLoop a b m ⟨0#64, 0#64⟩ := by
  induction k with
  | zero => rfl
  | succ k ih =>
      have hzero : (⟨0#64, 0#64⟩ : Uint128).toNat = 0 := rfl
      have hstep : modStep a b (m + k) ⟨0#64, 0#64⟩ = ⟨0#64, 0#64⟩ := by
        apply toNat_inj
        rw [toNat_modStep_of_not (hbits _ (by omega) (by omega)) (by rw [hzero]; decide), hzero,
          if_neg (by omega)]
      change modLoop a b (m + k) (modStep a b (m + k) ⟨0#64, 0#64⟩) = _
      rw [hstep, ih fun i hm hi => hbits i hm (by omega)]

/-- The bits of a one-word dividend, as the loop reads them: backwards, and only at the
indices below 64. -/
theorem modBit_uint128FromU64 (v : BitVec 64) (i : Nat) :
    modBit (uint128FromU64 v) i = (decide (i < 64) && v.getLsbD (63 - i)) := by
  have hone (x : BitVec 64) : (x &&& 1#64 != 0#64) = x.getLsbD 0 := by
    rw [show (1#64) = BitVec.twoPow 64 0 by rfl, BitVec.and_twoPow]
    cases x.getLsbD 0 <;> rfl
  simp only [modBit, uint128FromU64, BitVec.zero_ushiftRight, BitVec.zero_and, bne_self_eq_false,
    Bool.false_or, hone, BitVec.getLsbD_ushiftRight, Nat.add_zero]

/-! ## The remainder -/

theorem isZeroUint128_eq_false {b : Uint128} (hb : 0 < b.toNat) : isZeroUint128 b = false := by
  cases hz : isZeroUint128 b with
  | false => rfl
  | true =>
      simp only [isZeroUint128, Bool.and_eq_true, beq_iff_eq] at hz
      have hzero : b.toNat = 0 := by simp [Uint128.toNat, hz.1, hz.2]
      omega

/-- On operands of one word `modUint128` is the machine remainder. -/
theorem toNat_modUint128_of_word {a b : Uint128} (ha : a.hi = 0#64) (hb : b.hi = 0#64)
    (hpos : 0 < b.toNat) : (modUint128 a b).toNat = a.toNat % b.toNat := by
  unfold modUint128
  rw [isZeroUint128_eq_false hpos, if_neg (by decide), if_pos ⟨hb, ha⟩]
  simp [Uint128.toNat, ha, hb]

/-- A divisor `2 ^ h - 1` has one word exactly when `h ≤ 64`. -/
theorem hi_eq_zero_iff {b : Uint128} {h : Nat} (hb : b.toNat = 2 ^ h - 1) :
    b.hi = 0#64 ↔ h ≤ 64 := by
  have hlo := b.lo.isLt
  unfold Uint128.toNat at hb
  constructor
  · intro hhi
    by_contra hcon
    have hle : 2 ^ 65 ≤ 2 ^ h := Nat.pow_le_pow_right (by decide) (by omega)
    rw [hhi, BitVec.toNat_ofNat] at hb
    omega
  · intro hle
    have hpow : 2 ^ h ≤ 2 ^ 64 := Nat.pow_le_pow_right (by decide) hle
    have hpos : 0 < 2 ^ h := Nat.two_pow_pos h
    apply BitVec.eq_of_toNat_eq
    rw [BitVec.toNat_ofNat]
    omega

/-- With a divisor of two words a one-word dividend goes through the loop, whose first 64
iterations do nothing. -/
theorem modUint128_eq_modLoop (v : BitVec 64) {b : Uint128} {h : Nat} (hh : 65 ≤ h)
    (hb : b.toNat = 2 ^ h - 1) :
    modUint128 (uint128FromU64 v) b = modLoop (uint128FromU64 v) b 64 ⟨0#64, 0#64⟩ := by
  have hpow : 2 ^ 65 ≤ 2 ^ h := Nat.pow_le_pow_right (by decide) hh
  have hpos : 0 < b.toNat := by omega
  have hhi : ¬ (b.hi = 0#64 ∧ (uint128FromU64 v).hi = 0#64) := by
    rw [hi_eq_zero_iff hb]
    omega
  unfold modUint128
  rw [isZeroUint128_eq_false hpos, if_neg (by decide), if_neg hhi]
  apply modLoop_zero hpos 64 64
  intro i hi _
  rw [modBit_uint128FromU64, decide_eq_false (by omega), Bool.false_and]

/-- **Bound**: reducing a 64-bit value by `2 ^ h - 1` gives less than `2 ^ h`. -/
theorem toNat_modUint128_lt (v : BitVec 64) {b : Uint128} {h : Nat} (h1 : 1 ≤ h)
    (hb : b.toNat = 2 ^ h - 1) : (modUint128 (uint128FromU64 v) b).toNat < 2 ^ h := by
  have hpow : 2 ^ 1 ≤ 2 ^ h := Nat.pow_le_pow_right (by decide) h1
  by_cases h64 : h ≤ 64
  · rw [toNat_modUint128_of_word rfl ((hi_eq_zero_iff hb).mpr h64) (by omega)]
    have hmod := Nat.mod_lt (uint128FromU64 v).toNat (show b.toNat > 0 by omega)
    omega
  · have hh : 65 ≤ h := by omega
    have hstart : ModInv h 64 ⟨0#64, 0#64⟩ :=
      ⟨0, by simp [foldAt, Uint128.toNat], sparse_zero, by simp⟩
    obtain ⟨u, hval, hu, hlt⟩ := modInv_modLoop (a := uint128FromU64 v) hh hb 64 _ (by omega) hstart
    rw [modUint128_eq_modLoop v hh hb, hval]
    have hfold := foldAt_lt hu (show 0 ≤ 63 by omega) hh hlt
    omega

end Outway
