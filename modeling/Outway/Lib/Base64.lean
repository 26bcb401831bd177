import Mathlib

/-!
# Outway.Lib.Base64

The standard base64 encoding: three bytes are one number below `2 ^ 24`, written as four
digits in base 64, and a last group of one or two bytes is padded with `=`.

The decoder is the lenient one: line ends are skipped, padding is required and nothing may
follow it, and the bits that padding leaves over are not looked at.  `round_trip` says that it
undoes the encoder.
-/

namespace Base64

/-! ## The alphabet -/

/-- `=` -/
def pad : UInt8 := 0x3d

/-- The character of a digit: `A`–`Z`, `a`–`z`, `0`–`9`, `+`, `/`. -/
def digit (v : Nat) : UInt8 :=
  if v < 26 then .ofNat (0x41 + v)
  else if v < 52 then .ofNat (0x61 + (v - 26))
  else if v < 62 then .ofNat (0x30 + (v - 52))
  else if v = 62 then 0x2b
  else 0x2f

/-- The digit of a character. -/
def value (c : UInt8) : Option Nat :=
  if 0x41 ≤ c ∧ c ≤ 0x5a then some (c.toNat - 0x41)
  else if 0x61 ≤ c ∧ c ≤ 0x7a then some (c.toNat - 0x61 + 26)
  else if 0x30 ≤ c ∧ c ≤ 0x39 then some (c.toNat - 0x30 + 52)
  else if c = 0x2b then some 62
  else if c = 0x2f then some 63
  else none

/-- The alphabet is read as it is written. -/
theorem value_digit {v : Nat} (h : v < 64) : value (digit v) = some v := by
  have hall : ∀ v : Fin 64, value (digit v) = some v.val := by decide
  exact hall ⟨v, h⟩

/-- No digit is the padding or a line end. -/
theorem digit_ne {v : Nat} (h : v < 64) :
    digit v ≠ pad ∧ digit v ≠ 0x0d ∧ digit v ≠ 0x0a := by
  have hall : ∀ v : Fin 64, digit v ≠ pad ∧ digit v ≠ 0x0d ∧ digit v ≠ 0x0a := by decide
  exact hall ⟨v, h⟩

/-! ## Both directions -/

/-- The number three bytes are. -/
def word (a b c : UInt8) : Nat := a.toNat * 65536 + b.toNat * 256 + c.toNat

/-- The `i`-th of the four digits of a number, counted from the left. -/
def digitAt (n i : Nat) : UInt8 := digit (n / 64 ^ (3 - i) % 64)

def encode : List UInt8 → List UInt8
  | [] => []
  | [a] => [digitAt (word a 0 0) 0, digitAt (word a 0 0) 1, pad, pad]
  | [a, b] => [digitAt (word a b 0) 0, digitAt (word a b 0) 1, digitAt (word a b 0) 2, pad]
  | a :: b :: c :: rest =>
      digitAt (word a b c) 0 :: digitAt (word a b c) 1 :: digitAt (word a b c) 2 ::
        digitAt (word a b c) 3 :: encode rest

/-- The number of a group of four characters. -/
def quantum (w x y z : UInt8) : Option Nat := do
  let w ← value w
  let x ← value x
  let y ← value y
  let z ← value z
  return ((w * 64 + x) * 64 + y) * 64 + z

/-- The three bytes of a number. -/
def unpack (n : Nat) : List UInt8 := [.ofNat (n / 65536), .ofNat (n / 256), .ofNat n]

/-- The groups of a text without line ends. -/
def decodeQuanta : List UInt8 → Option (List UInt8)
  | [] => some []
  | w :: x :: y :: z :: rest =>
      -- padding stands only at the end, for one byte or for two
      if rest = [] ∧ z = pad then
        if y = pad then (quantum w x (digit 0) (digit 0)).map fun n => (unpack n).take 1
        else (quantum w x y (digit 0)).map fun n => (unpack n).take 2
      else
        match quantum w x y z, decodeQuanta rest with
        | some n, some bytes => some (unpack n ++ bytes)
        | _, _ => none
  | _ => none

def decode (text : List UInt8) : Option (List UInt8) :=
  decodeQuanta (text.filter fun c => c ≠ 0x0d ∧ c ≠ 0x0a)

/-! ## The round trip -/

/-- What the encoder writes is neither padding nor a line end. -/
theorem digitAt_ne (n i : Nat) : digitAt n i ≠ pad ∧ digitAt n i ≠ 0x0d ∧ digitAt n i ≠ 0x0a :=
  digit_ne (Nat.mod_lt _ (by decide))

theorem value_digitAt (n i : Nat) : value (digitAt n i) = some (n / 64 ^ (3 - i) % 64) :=
  value_digit (Nat.mod_lt _ (by decide))

theorem word_lt (a b c : UInt8) : word a b c < 2 ^ 24 := by
  have ha := a.toNat_lt
  have hb := b.toNat_lt
  have hc := c.toNat_lt
  simp only [word]
  omega

/-- The digits of a number below `2 ^ 24` give it back. -/
theorem quantum_digitAt {n : Nat} (h : n < 2 ^ 24) :
    quantum (digitAt n 0) (digitAt n 1) (digitAt n 2) (digitAt n 3) = some n := by
  simp only [quantum, value_digitAt, Option.pure_def, Option.bind_eq_bind, Option.bind_some,
    Option.some.injEq]
  norm_num
  omega

/-- The digits that padding stands for are zero. -/
theorem digitAt_eq_zero {n i : Nat} (h : 64 ^ (4 - i) ∣ n) (hi : i < 4) :
    digitAt n i = digit 0 := by
  obtain ⟨k, rfl⟩ := h
  have hpow : 64 ^ (4 - i) = 64 ^ (3 - i) * 64 := by rw [← pow_succ]; congr 1; omega
  rw [digitAt, hpow, Nat.mul_assoc, Nat.mul_div_cancel_left _ (by positivity),
    Nat.mul_mod_right]

/-- The bytes of a number are those it was made of. -/
theorem unpack_word (a b c : UInt8) : unpack (word a b c) = [a, b, c] := by
  have ha := a.toNat_lt
  have hb := b.toNat_lt
  have hc := c.toNat_lt
  simp only [unpack, word, List.cons.injEq, and_true, ← UInt8.toNat_inj, UInt8.toNat_ofNat']
  omega

/-- The encoder writes no line ends. -/
theorem filter_encode (data : List UInt8) :
    (encode data).filter (fun c => c ≠ 0x0d ∧ c ≠ 0x0a) = encode data := by
  rw [List.filter_eq_self]
  intro c hc
  have hpad : pad ≠ 0x0d ∧ pad ≠ 0x0a := by decide
  fun_induction encode data <;> grind [digitAt_ne]

/-- The groups of the encoder are read one by one. -/
theorem decodeQuanta_encode (data : List UInt8) : decodeQuanta (encode data) = some data := by
  fun_induction encode data with
  | case1 => rfl
  | case2 a =>
      have hquantum := quantum_digitAt (word_lt a 0 0)
      rw [digitAt_eq_zero (i := 2) (by simp [word]; omega) (by decide),
        digitAt_eq_zero (i := 3) (by simp [word]; omega) (by decide)] at hquantum
      simp [decodeQuanta, hquantum, unpack_word]
  | case3 a b =>
      have hquantum := quantum_digitAt (word_lt a b 0)
      rw [digitAt_eq_zero (i := 3) (by simp [word]; omega) (by decide)] at hquantum
      simp [decodeQuanta, hquantum, unpack_word, (digitAt_ne _ _).1]
  | case4 a b c rest ih =>
      rw [decodeQuanta, if_neg fun h => (digitAt_ne _ _).1 h.2, quantum_digitAt (word_lt a b c), ih]
      simp [unpack_word]

/-- **Round trip.** -/
theorem round_trip (data : List UInt8) : decode (encode data) = some data := by
  rw [decode, filter_encode, decodeQuanta_encode]

/-- `u:p` is `dTpw`. -/
example : encode [0x75, 0x3a, 0x70] = [0x64, 0x54, 0x70, 0x77] := by decide

end Base64
