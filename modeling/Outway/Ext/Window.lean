import Outway.Ext.Grammar

/-!
# Outway.Ext.Window

The windows of a `-ttl-` extension.

The value of the extension is a hash of the start of the current window.  On the eight bytes
of a window `fxHash64` reads one word, the window with its bytes in reverse order, and
multiplies it with an odd constant.  Both steps can be undone, so two windows share a value
only if they are the same.
-/

namespace Outway

/-! ## The hash of a word -/

/-- The inverse of the multiplier of `fxHash64` modulo `2 ^ 64`. -/
def fxInverse : BitVec 64 := 0x2040003d780970bd#64

/-- The multiplier of the hash is odd, so a round of it can be undone. -/
theorem fxRound_zero_mul_fxInverse (n : BitVec 64) : fxRound 0 n * fxInverse = n := by
  have hrotl : rotl64 0 5 = 0#64 := by decide
  have hinverse : 0x517cc1b727220a95#64 * fxInverse = 1#64 := by decide
  rw [fxRound, hrotl, BitVec.zero_xor, BitVec.mul_assoc, hinverse, BitVec.mul_one]

/-- One word is hashed without a loss. -/
theorem fxRound_zero_injective : Function.Injective (fxRound 0) :=
  Function.LeftInverse.injective (g := (· * fxInverse)) fxRound_zero_mul_fxInverse

theorem or_reverse (x0 x1 x2 x3 x4 x5 x6 x7 : BitVec 64) :
    x0 ||| x1 ||| x2 ||| x3 ||| x4 ||| x5 ||| x6 ||| x7 =
      x7 ||| x6 ||| x5 ||| x4 ||| x3 ||| x2 ||| x1 ||| x0 := by
  ac_rfl

/-- Eight bytes are one word, read from the last byte to the first. -/
theorem fxHash64_eight (b0 b1 b2 b3 b4 b5 b6 b7 : UInt8) :
    fxHash64 [b0, b1, b2, b3, b4, b5, b6, b7] =
      fxRound 0 (beUint64 b7 b6 b5 b4 b3 b2 b1 b0) := by
  have hword : fxHash64 [b0, b1, b2, b3, b4, b5, b6, b7] =
      fxRound 0 (widen 64 b0 ||| widen 64 b1 <<< 8 ||| widen 64 b2 <<< 16 ||| widen 64 b3 <<< 24 |||
        widen 64 b4 <<< 32 ||| widen 64 b5 <<< 40 ||| widen 64 b6 <<< 48 ||| widen 64 b7 <<< 56) :=
    rfl
  exact hword.trans (congrArg (fxRound 0) (or_reverse _ _ _ _ _ _ _ _))

/-- The bytes that `parseTTL` hashes. -/
def windowBytes (window : BitVec 64) : List UInt8 :=
  [byteOf window 7, byteOf window 6, byteOf window 5, byteOf window 4,
    byteOf window 3, byteOf window 2, byteOf window 1, byteOf window 0]

/-- Two windows never have the same hash. -/
theorem fxHash64_windowBytes_injective :
    Function.Injective fun window => fxHash64 (windowBytes window) := by
  intro w w' h
  simp only [windowBytes, fxHash64_eight] at h
  have hword := fxRound_zero_injective h
  -- the bytes of the hashed words are those of the windows, in reverse order
  obtain ⟨h0, h1, h2, h3, h4, h5, h6, h7⟩ := byteOf_beUint64 (byteOf w 0) (byteOf w 1) (byteOf w 2)
    (byteOf w 3) (byteOf w 4) (byteOf w 5) (byteOf w 6) (byteOf w 7)
  obtain ⟨h0', h1', h2', h3', h4', h5', h6', h7'⟩ := byteOf_beUint64 (byteOf w' 0) (byteOf w' 1)
    (byteOf w' 2) (byteOf w' 3) (byteOf w' 4) (byteOf w' 5) (byteOf w' 6) (byteOf w' 7)
  rw [hword] at h0 h1 h2 h3 h4 h5 h6 h7
  rw [← beUint64_byteOf w, ← beUint64_byteOf w', ← h0, ← h1, ← h2, ← h3, ← h4, ← h5, ← h6, ← h7,
    h0', h1', h2', h3', h4', h5', h6', h7']

/-! ## Windows -/

/-- The start of the window of a time. -/
def windowStart (ttl : Nat) (now : BitVec 64) : BitVec 64 := now - now % BitVec.ofNat 64 ttl

/-- The window starts at the last multiple of its length, without overflow. -/
theorem toNat_windowStart {ttl : Nat} (hlt : ttl < 2 ^ 64) (now : BitVec 64) :
    (windowStart ttl now).toNat = ttl * (now.toNat / ttl) := by
  have hdiv := Nat.div_add_mod now.toNat ttl
  have hmod : (now % BitVec.ofNat 64 ttl).toNat = now.toNat % ttl := by
    rw [BitVec.toNat_umod, BitVec.toNat_ofNat, Nat.mod_eq_of_lt hlt]
  have hle : now % BitVec.ofNat 64 ttl ≤ now := by
    rw [BitVec.le_def, hmod]
    exact Nat.mod_le _ _
  rw [windowStart, BitVec.toNat_sub_of_le hle, hmod]
  omega

/-- Two times are in one window when they have the same quotient. -/
theorem windowStart_eq_iff {ttl : Nat} (hpos : 1 ≤ ttl) (hlt : ttl < 2 ^ 64) (t t' : BitVec 64) :
    windowStart ttl t = windowStart ttl t' ↔ t.toNat / ttl = t'.toNat / ttl := by
  rw [← BitVec.toNat_inj, toNat_windowStart hlt, toNat_windowStart hlt]
  exact Nat.mul_right_inj (by omega)

/-- The value of a lifetime is the hash of its window. -/
theorem parseTTL_value {s : List UInt8} {ttl : Nat} (hs : Numeral s ttl) (hpos : 1 ≤ ttl)
    (hlt : ttl < 2 ^ 64) (now : BitVec 64) :
    (parseTTL now s).value = fxHash64 (windowBytes (windowStart ttl now)) := by
  simp only [parseTTL, parseUint_eq_some_iff.mpr ⟨hs, hlt⟩, if_neg (show ttl ≠ 0 by omega)]
  rfl

/-- **Windows of a TTL**: at two times the extension has the same value exactly if they are
in the same window. -/
theorem parseTTL_value_eq_iff {s : List UInt8} {ttl : Nat} (hs : Numeral s ttl) (hpos : 1 ≤ ttl)
    (hlt : ttl < 2 ^ 64) (t₁ t₂ : BitVec 64) :
    (parseTTL t₁ s).value = (parseTTL t₂ s).value ↔ t₁.toNat / ttl = t₂.toNat / ttl := by
  rw [parseTTL_value hs hpos hlt, parseTTL_value hs hpos hlt, ← windowStart_eq_iff hpos hlt]
  exact fxHash64_windowBytes_injective.eq_iff

/-- With a TTL of 60 seconds the value changes from second 119 to second 120. -/
theorem parseTTL_value_sixty :
    Numeral [0x36, 0x30] 60 ∧
      (parseTTL 119#64 [0x36, 0x30]).value ≠ (parseTTL 120#64 [0x36, 0x30]).value ∧
      (parseTTL 60#64 [0x36, 0x30]).value = (parseTTL 119#64 [0x36, 0x30]).value := by
  have hs : Numeral [0x36, 0x30] 60 := ⟨by decide, [6, 0], rfl, rfl⟩
  have hiff := parseTTL_value_eq_iff hs (by decide) (by decide)
  exact ⟨hs, fun h => absurd ((hiff _ _).mp h) (by decide), (hiff _ _).mpr (by decide)⟩

end Outway
