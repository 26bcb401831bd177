import Outway.Ext

/-!
# Outway.Ext.Grammar

Which usernames carry an extension.

The documented forms are `<user>-session-<id>`, `<user>-ttl-<seconds>` and
`<user>-range-<value>`.  `tryFrom` looks for the markers anywhere, and for `-session-`
even in the configured name, so it reads other usernames as extensions too and some of
the documented ones as another kind.  `tryFrom_documented_iff` says which usernames it
reads as documented.
-/

namespace Outway

/-! ## Numerals -/

/-- `s` is a decimal numeral for `n`. -/
def Numeral (s : List UInt8) (n : Nat) : Prop :=
  s ≠ [] ∧ ∃ digits, s.mapM digitValue = some digits ∧ Nat.ofDigits 10 digits.reverse = n

/-- The number that a numeral spells, read from the left. -/
theorem ofDigits_reverse (digits : List Nat) :
    Nat.ofDigits 10 digits.reverse = digits.foldl (fun n d => n * 10 + d) 0 := by
  rw [Nat.ofDigits_eq_foldr, List.foldr_reverse]
  congr 1
  funext n d
  simp only [Nat.cast_id]
  omega

/-- Reading on makes a number no smaller. -/
theorem le_foldl_digits (n : Nat) (digits : List Nat) :
    n ≤ digits.foldl (fun n d => n * 10 + d) n := by
  induction digits generalizing n with
  | nil => exact le_rfl
  | cons d digits ih =>
      have := ih (n * 10 + d)
      rw [List.foldl_cons]
      omega

/-- The digit loop reads a numeral to its end unless the number gets too large; it never
gets smaller again. -/
theorem parseDigits_eq_some_iff {n m : Nat} {s : List UInt8} (hn : n < 2 ^ 64) :
    parseDigits n s = some m ↔ m < 2 ^ 64 ∧ ∃ digits, s.mapM digitValue = some digits ∧
      digits.foldl (fun n d => n * 10 + d) n = m := by
  induction s generalizing n with
  | nil =>
      simp only [parseDigits, Option.some.injEq, List.mapM_nil, Option.pure_def]
      constructor
      · rintro rfl
        exact ⟨hn, [], rfl, rfl⟩
      · rintro ⟨-, digits, rfl, h⟩
        exact h
  | cons b rest ih =>
      cases hb : digitValue b with
      | none => simp [parseDigits, hb]
      | some d =>
          have hcons (digits : List Nat) : (b :: rest).mapM digitValue = some digits ↔
              ∃ digits', rest.mapM digitValue = some digits' ∧ d :: digits' = digits := by
            simp [List.mapM_cons, hb, Option.bind_eq_some_iff]
          simp only [parseDigits, hb, Option.bind_eq_bind, Option.bind_some, hcons]
          split_ifs with hlt
          · rw [ih hlt]
            constructor
            · rintro ⟨hm, digits, hdigits, rfl⟩
              exact ⟨hm, d :: digits, ⟨digits, hdigits, rfl⟩, rfl⟩
            · rintro ⟨hm, _, ⟨digits, hdigits, rfl⟩, rfl⟩
              exact ⟨hm, digits, hdigits, rfl⟩
          · refine iff_of_false (by simp) ?_
            rintro ⟨hm, _, ⟨digits, -, rfl⟩, rfl⟩
            exact hlt ((le_foldl_digits _ digits).trans_lt hm)

/-- `parseUint` reads the numerals of the numbers below `2 ^ 64`. -/
theorem parseUint_eq_some_iff {s : List UInt8} {n : Nat} :
    parseUint s = some n ↔ Numeral s n ∧ n < 2 ^ 64 := by
  unfold parseUint Numeral
  by_cases hs : s = []
  · simp [hs]
  · rw [if_neg hs, parseDigits_eq_some_iff (Nat.two_pow_pos 64), and_iff_right hs, and_comm]
    simp only [ofDigits_reverse]

/-- A numeral has no hyphen. -/
theorem Numeral.hyphen_not_mem {s : List UInt8} {n : Nat} (h : Numeral s n) : 0x2d ∉ s := by
  obtain ⟨-, digits, hdigits, -⟩ := h
  intro hmem
  obtain ⟨front, back, rfl⟩ := List.append_of_mem hmem
  rw [List.mapM_append, List.mapM_cons] at hdigits
  have hhyphen : digitValue 0x2d = none := by decide
  simp [hhyphen] at hdigits

/-! ## The documented forms -/

/-- The documented grammar: which kind of extension the username `full` carries for the
configured name `pre`. -/
def Documented (pre full : List UInt8) : ExtensionType → Prop
  | .session => ∃ id, full = pre ++ extSession ++ id
  | .ttl => ∃ s n, Numeral s n ∧ 1 ≤ n ∧ n < 2 ^ 64 ∧ full = pre ++ extTTL ++ s
  | .range => ∃ value, full = pre ++ extRange ++ value
  | .none => (¬ ∃ id, full = pre ++ extSession ++ id) ∧
      (¬ ∃ s n, Numeral s n ∧ 1 ≤ n ∧ n < 2 ^ 64 ∧ full = pre ++ extTTL ++ s) ∧
      ¬ ∃ value, full = pre ++ extRange ++ value

/-- The usernames that `tryFrom` does not read as documented: the first of the markers
`-session-`, `-ttl-` and `-range-` that it finds is not the one after the configured name.
`-session-` is looked for in the whole username, the others behind the configured name. -/
def Misread (pre full : List UInt8) : Prop :=
  ∃ rest, full = pre ++ rest ∧
    ((extSession <:+: full ∧ ¬ extSession <+: rest) ∨
      (¬ extSession <:+: full ∧ extTTL <:+: rest ∧ extRange <+: rest) ∨
      (¬ extSession <:+: full ∧ ¬ extTTL <:+: rest ∧ extRange <:+: rest ∧ ¬ extRange <+: rest))

section Forms

variable {pre rest : List UInt8}

theorem append_eq_append_marker {marker tail : List UInt8} :
    pre ++ rest = pre ++ marker ++ tail ↔ marker ++ tail = rest := by
  rw [List.append_assoc, List.append_cancel_left_eq, eq_comm]

/-- Behind the configured name, a session is what starts with its marker. -/
@[simp] theorem documented_session :
    Documented pre (pre ++ rest) .session ↔ extSession <+: rest := by
  simp only [Documented, append_eq_append_marker]
  exact Iff.rfl

/-- A lifetime is its marker and a positive number of 64 bits. -/
@[simp] theorem documented_ttl : Documented pre (pre ++ rest) .ttl ↔
    ∃ s n, Numeral s n ∧ 1 ≤ n ∧ n < 2 ^ 64 ∧ extTTL ++ s = rest := by
  simp only [Documented, append_eq_append_marker]

/-- A range is what starts with its marker. -/
@[simp] theorem documented_range :
    Documented pre (pre ++ rest) .range ↔ extRange <+: rest := by
  simp only [Documented, append_eq_append_marker]
  exact Iff.rfl

/-- All else is no extension. -/
theorem documented_none {full : List UInt8} : Documented pre full .none ↔
    ¬ Documented pre full .session ∧ ¬ Documented pre full .ttl ∧ ¬ Documented pre full .range :=
  Iff.rfl

/-- Two markers of which neither starts the other do not both start a username. -/
theorem not_starts_both {m m' : List UInt8} (h : ¬ m <+: m') (h' : ¬ m' <+: m) (hm : m <+: rest) :
    ¬ m' <+: rest := by
  intro hm'
  obtain hle | hle := Nat.le_total m.length m'.length
  · exact h (List.prefix_of_prefix_length_le hm hm' hle)
  · exact h' (List.prefix_of_prefix_length_le hm' hm hle)

theorem extTTL_starts_of_documented (h : Documented pre (pre ++ rest) .ttl) : extTTL <+: rest := by
  obtain ⟨s, n, -, -, -, rfl⟩ := documented_ttl.mp h
  exact List.prefix_append _ _

/-- An extension stands behind the configured name. -/
theorem starts_of_documented {full : List UInt8} {kind : ExtensionType}
    (h : Documented pre full kind) (hkind : kind ≠ .none) : pre <+: full := by
  cases kind with
  | none => exact absurd rfl hkind
  | session =>
      obtain ⟨id, rfl⟩ := h
      exact ⟨_, (List.append_assoc _ _ _).symm⟩
  | ttl =>
      obtain ⟨s, n, -, -, -, rfl⟩ := h
      exact ⟨_, (List.append_assoc _ _ _).symm⟩
  | range =>
      obtain ⟨value, rfl⟩ := h
      exact ⟨_, (List.append_assoc _ _ _).symm⟩

/-- A username carries one kind of extension. -/
theorem documented_unique {full : List UInt8} {kind kind' : ExtensionType}
    (h : Documented pre full kind) (h' : Documented pre full kind') : kind = kind' := by
  by_cases hpre : pre <+: full
  · obtain ⟨rest, rfl⟩ := hpre
    have hst : extSession <+: rest → ¬ extTTL <+: rest := not_starts_both (by decide) (by decide)
    have hsr : extSession <+: rest → ¬ extRange <+: rest := not_starts_both (by decide) (by decide)
    have htr : extTTL <+: rest → ¬ extRange <+: rest := not_starts_both (by decide) (by decide)
    have hts (hd : Documented pre (pre ++ rest) .ttl) := extTTL_starts_of_documented hd
    cases kind <;> cases kind' <;>
      simp only [documented_none, documented_session, documented_range, reduceCtorEq] at h h' ⊢ <;>
      tauto
  · have hnone {kind : ExtensionType} (h : Documented pre full kind) : kind = .none := by
      by_contra hkind
      exact hpre (starts_of_documented h hkind)
    rw [hnone h, hnone h']

end Forms

/-! ## The parser -/

section Parser

variable {pre rest : List UInt8} (now : BitVec 64)

/-- `CutPrefix` of what it was put in front of. -/
theorem cutPrefix_append (pre rest : List UInt8) : cutPrefix (pre ++ rest) pre = some rest := by
  rw [cutPrefix, if_pos (List.prefix_append pre rest), List.drop_left]

/-- `TrimPrefix` of a marker that is there. -/
theorem trimPrefix_append (marker tail : List UInt8) :
    trimPrefix (marker ++ tail) marker = tail := by
  rw [trimPrefix, cutPrefix_append, Option.getD_some]

/-- And of one that is not. -/
theorem trimPrefix_of_not {s marker : List UInt8} (h : ¬ marker <+: s) :
    trimPrefix s marker = s := by
  rw [trimPrefix, cutPrefix, if_neg h, Option.getD_none]

/-- `parseTTL` accepts the numerals of the positive numbers that fit 64 bits. -/
theorem parseTTL_of_numeral {s : List UInt8} {n : Nat} (h : Numeral s n) (hpos : 1 ≤ n)
    (hlt : n < 2 ^ 64) : (parseTTL now s).type = .ttl := by
  simp only [parseTTL, parseUint_eq_some_iff.mpr ⟨h, hlt⟩, if_neg (show n ≠ 0 by omega)]

/-- A lifetime that is not such a number is no extension. -/
theorem parseTTL_of_not {s : List UInt8} (h : ¬ ∃ n, Numeral s n ∧ 1 ≤ n ∧ n < 2 ^ 64) :
    parseTTL now s = .noExt := by
  unfold parseTTL
  split
  · rfl
  · next n hn =>
      obtain ⟨hnum, hlt⟩ := parseUint_eq_some_iff.mp hn
      have hzero : n = 0 := by
        by_contra hne
        exact h ⟨n, hnum, Nat.one_le_iff_ne_zero.mpr hne, hlt⟩
      rw [if_pos hzero]

/-- What stands behind a `-ttl-` that is not at the front is no numeral. -/
theorem parseTTL_of_not_starts (hin : extTTL <:+: rest) (hstart : ¬ extTTL <+: rest) :
    parseTTL now (trimPrefix rest extTTL) = .noExt := by
  rw [trimPrefix_of_not hstart]
  refine parseTTL_of_not now fun ⟨n, hnum, _⟩ => hnum.hyphen_not_mem (hin.subset ?_)
  decide

/-- Behind its marker, a lifetime is read as documented. -/
theorem parseTTL_documented :
    Documented pre (pre ++ (extTTL ++ rest)) (parseTTL now rest).type := by
  have hst : ¬ extSession <+: extTTL ++ rest :=
    not_starts_both (by decide) (by decide) (List.prefix_append extTTL rest)
  have hsr : ¬ extRange <+: extTTL ++ rest :=
    not_starts_both (by decide) (by decide) (List.prefix_append extTTL rest)
  by_cases hnum : ∃ n, Numeral rest n ∧ 1 ≤ n ∧ n < 2 ^ 64
  · obtain ⟨n, hn, hpos, hlt⟩ := hnum
    rw [parseTTL_of_numeral now hn hpos hlt]
    exact documented_ttl.mpr ⟨rest, n, hn, hpos, hlt, rfl⟩
  · rw [parseTTL_of_not now hnum]
    refine documented_none.mpr ⟨hst ∘ documented_session.mp, fun httl => hnum ?_,
      hsr ∘ documented_range.mp⟩
    obtain ⟨s, n, hn, hpos, hlt, hs⟩ := documented_ttl.mp httl
    obtain rfl := List.append_cancel_left hs
    exact ⟨n, hn, hpos, hlt⟩

/-- A username with none of the markers right behind the configured name carries nothing. -/
theorem documented_none_of_not_starts (pre rest : List UInt8) (hs : ¬ extSession <+: rest)
    (ht : ¬ extTTL <+: rest) (hr : ¬ extRange <+: rest) : Documented pre (pre ++ rest) .none :=
  documented_none.mpr ⟨hs ∘ documented_session.mp, ht ∘ extTTL_starts_of_documented,
    hr ∘ documented_range.mp⟩

/-- Behind the configured name, `tryFrom` looks for one marker after the other. -/
theorem tryFrom_append (pre rest : List UInt8) : tryFrom now pre (pre ++ rest) =
    if extSession <:+: pre ++ rest then ⟨.session, fxHash64 (pre ++ rest)⟩
    else if extTTL <:+: rest then parseTTL now (trimPrefix rest extTTL)
    else if extRange <:+: rest then ⟨.range, fxHash64 (trimPrefix rest extRange)⟩
    else .noExt := by
  rw [tryFrom, cutPrefix_append]

/-- The extension is read as documented but for the misread names. -/
theorem tryFrom_type_documented_iff (pre rest : List UInt8) :
    Documented pre (pre ++ rest) (tryFrom now pre (pre ++ rest)).type ↔
      ¬ Misread pre (pre ++ rest) := by
  have hmis : Misread pre (pre ++ rest) ↔
      (extSession <:+: pre ++ rest ∧ ¬ extSession <+: rest) ∨
        (¬ extSession <:+: pre ++ rest ∧ extTTL <:+: rest ∧ extRange <+: rest) ∨
        (¬ extSession <:+: pre ++ rest ∧ ¬ extTTL <:+: rest ∧ extRange <:+: rest ∧
          ¬ extRange <+: rest) := by
    simp [Misread]
  have hsession (h : extSession <+: rest) : extSession <:+: pre ++ rest :=
    h.isInfix.trans (List.suffix_append pre rest).isInfix
  rw [hmis, tryFrom_append]
  split_ifs with hs ht hr
  · simp [hs]
  · have hns : ¬ extSession <+: rest := hs ∘ hsession
    by_cases hstart : extTTL <+: rest
    · have hnr : ¬ extRange <+: rest := not_starts_both (by decide) (by decide) hstart
      obtain ⟨tail, rfl⟩ := hstart
      rw [trimPrefix_append]
      exact iff_of_true (parseTTL_documented now) (by simp [hs, ht, hnr])
    · -- only a `-range-` in front is then documented
      rw [parseTTL_of_not_starts now ht hstart]
      by_cases hstartr : extRange <+: rest
      · refine iff_of_false (fun hnone => ?_) (by simp [hs, ht, hstartr])
        exact (documented_none.mp hnone).2.2 (documented_range.mpr hstartr)
      · exact iff_of_true (documented_none_of_not_starts pre rest hns hstart hstartr)
          (by simp [hs, ht, hstartr])
  · simp [hs, ht, hr]
  · have hnone := documented_none_of_not_starts pre rest (hs ∘ hsession)
      (fun h => ht h.isInfix) fun h => hr h.isInfix
    exact iff_of_true hnone (by simp [hs, ht, hr])

end Parser

/-- **The grammar of usernames**: `tryFrom` accepts exactly the documented forms, each as its
kind, for the usernames that it does not misread, and for no other. -/
theorem tryFrom_documented_iff (now : BitVec 64) (pre full : List UInt8) :
    (∀ kind, (tryFrom now pre full).type = kind ↔ Documented pre full kind) ↔
      ¬ Misread pre full := by
  have hkind : (∀ kind, (tryFrom now pre full).type = kind ↔ Documented pre full kind) ↔
      Documented pre full (tryFrom now pre full).type := by
    constructor
    · exact fun h => (h _).mp rfl
    · intro h kind
      exact ⟨fun heq => heq ▸ h, fun h' => documented_unique h h'⟩
  rw [hkind]
  by_cases hpre : pre <+: full
  · obtain ⟨rest, rfl⟩ := hpre
    exact tryFrom_type_documented_iff now pre rest
  · have htype : (tryFrom now pre full).type = .none := by
      rw [tryFrom, cutPrefix, if_neg hpre]
      rfl
    have hnone {kind : ExtensionType} (hkind : kind ≠ .none) : ¬ Documented pre full kind :=
      fun h => hpre (starts_of_documented h hkind)
    rw [htype, documented_none]
    refine iff_of_true ⟨hnone (by decide), hnone (by decide), hnone (by decide)⟩ ?_
    rintro ⟨rest, rfl, -⟩
    exact hpre (List.prefix_append pre rest)

/-- The configured name `a-session-b` is read as a session although nothing follows it, and
`ax-range-b` as a range of `a`. -/
theorem tryFrom_misreads :
    (tryFrom 0 ([0x61] ++ extSession ++ [0x62]) ([0x61] ++ extSession ++ [0x62])).type = .session ∧
      Documented ([0x61] ++ extSession ++ [0x62]) ([0x61] ++ extSession ++ [0x62]) .none ∧
      (tryFrom 0 [0x61] ([0x61, 0x78] ++ extRange ++ [0x62])).type = .range ∧
      Documented [0x61] ([0x61, 0x78] ++ extRange ++ [0x62]) .none := by
  refine ⟨by decide +kernel, ?_, by decide +kernel, ?_⟩
  · have h := documented_none_of_not_starts ([0x61] ++ extSession ++ [0x62]) []
      (by decide) (by decide) (by decide)
    simpa using h
  · exact documented_none_of_not_starts [0x61] ([0x78] ++ extRange ++ [0x62])
      (by decide) (by decide) (by decide)

end Outway
