import Mathlib.Data.List.AList
import Outway.Ext

/-!
# Outway.Http.Headers

Hop-by-hop headers.

`removeHopHeaders` deletes nine fixed fields and the fields that the `Connection` header
names.  It reads the names from the first `Connection` value only, and `Header.del` brings
a name into canonical form only if it is a token.  `removeHopHeaders_exact_iff` says for which
headers exactly the hop-by-hop fields go.

Strings are bytes.  The canonical form, `strings.Split` and `strings.TrimSpace` are those of
Go's library.
-/

namespace Outway.Http

/-! ## Field names -/

def isLowerByte (c : UInt8) : Bool := 0x61 ≤ c && c ≤ 0x7a

def isUpperByte (c : UInt8) : Bool := 0x41 ≤ c && c ≤ 0x5a

def toLowerByte (c : UInt8) : UInt8 := if isUpperByte c then c + 0x20 else c

def toUpperByte (c : UInt8) : UInt8 := if isLowerByte c then c - 0x20 else c

/-- `-` -/
def hyphen : UInt8 := 0x2d

/-- `,` -/
def comma : UInt8 := 0x2c

/-- The bytes of a token: letters, digits and the signs of the grammar. -/
def validHeaderFieldByte (c : UInt8) : Bool :=
  isLowerByte c || isUpperByte c || (0x30 ≤ c && c ≤ 0x39) ||
    [0x21, 0x23, 0x24, 0x25, 0x26, 0x27, 0x2a, 0x2b, 0x2d, 0x2e, 0x5e, 0x5f, 0x60, 0x7c,
      0x7e].contains c

def isToken (name : List UInt8) : Bool := name.all validHeaderFieldByte

/-- The loop of `canonicalMIMEHeaderKey`: upper case at the start and behind a hyphen. -/
def capitalize : Bool → List UInt8 → List UInt8
  | _, [] => []
  | upper, c :: rest =>
      let c := if upper then toUpperByte c else toLowerByte c
      c :: capitalize (c == hyphen) rest

/-- `textproto.CanonicalMIMEHeaderKey`: a name that is no token stays as it is. -/
def canonicalMIMEHeaderKey (name : List UInt8) : List UInt8 :=
  if isToken name then capitalize true name else name

/-- Equality of field names: case does not matter. -/
def EqualFold (a b : List UInt8) : Prop := a.map toLowerByte = b.map toLowerByte

instance (a b : List UInt8) : Decidable (EqualFold a b) := inferInstanceAs (Decidable (_ = _))

/-- The UTF-8 encodings of the runes of `unicode.IsSpace`. -/
def spaceRunes : List (List UInt8) :=
  [[0x09], [0x0a], [0x0b], [0x0c], [0x0d], [0x20], [0xc2, 0x85], [0xc2, 0xa0],
    [0xe1, 0x9a, 0x80], [0xe2, 0x80, 0x80], [0xe2, 0x80, 0x81], [0xe2, 0x80, 0x82],
    [0xe2, 0x80, 0x83], [0xe2, 0x80, 0x84], [0xe2, 0x80, 0x85], [0xe2, 0x80, 0x86],
    [0xe2, 0x80, 0x87], [0xe2, 0x80, 0x88], [0xe2, 0x80, 0x89], [0xe2, 0x80, 0x8a],
    [0xe2, 0x80, 0xa8], [0xe2, 0x80, 0xa9], [0xe2, 0x80, 0xaf], [0xe2, 0x81, 0x9f],
    [0xe3, 0x80, 0x80]]

/-- Drop the runes in front, at most `fuel` of them. -/
def trimRunes (runes : List (List UInt8)) : Nat → List UInt8 → List UInt8
  | 0, s => s
  | fuel + 1, s =>
      match runes.find? fun r => r.isPrefixOf s with
      | some r => trimRunes runes fuel (s.drop r.length)
      | none => s

/-- `strings.TrimSpace`; an encoding read backwards is one of the reversed ones. -/
def trimSpace (s : List UInt8) : List UInt8 :=
  let s := trimRunes spaceRunes s.length s
  (trimRunes (spaceRunes.map List.reverse) s.length s.reverse).reverse

/-! ## The header map -/

/-- `http.Header` as `http.ReadRequest` produces it: every key is in canonical form. -/
structure Header where
  entries : AList fun _ : List UInt8 => List (List UInt8)
  canonical : ∀ key ∈ entries, key ≠ [] ∧ canonicalMIMEHeaderKey key = key

namespace Header

/-- `Get`: the first value, empty if there is none. -/
def get (h : Header) (name : List UInt8) : List UInt8 :=
  match h.entries.lookup (canonicalMIMEHeaderKey name) with
  | some (value :: _) => value
  | _ => []

def del (h : Header) (name : List UInt8) : Header where
  entries := h.entries.erase (canonicalMIMEHeaderKey name)
  canonical key hkey := h.canonical key (AList.mem_erase.mp hkey).2

end Header

/-- The bytes of a string. -/
def bytes (s : String) : List UInt8 := s.toUTF8.data.toList

def connection : List UInt8 := bytes "Connection"

def hopHeaders : List (List UInt8) :=
  ["Connection", "Proxy-Connection", "Keep-Alive", "Proxy-Authenticate", "Proxy-Authorization",
    "Te", "Trailer", "Transfer-Encoding", "Upgrade"].map bytes

/-- The tokens of the first `Connection` value, captured before the header is deleted. -/
def Header.connectionTokens (h : Header) : List (List UInt8) :=
  let conn := h.get connection
  if conn ≠ [] then conn.splitOn comma else []

def removeHopHeaders (h : Header) : Header :=
  h.connectionTokens.foldl (fun h tok => h.del (trimSpace tok)) (hopHeaders.foldl Header.del h)

/-! ## What should go -/

/-- A value of the `Connection` header names a field. -/
def Names (value key : List UInt8) : Prop :=
  ∃ tok ∈ value.splitOn comma, EqualFold (trimSpace tok) key

instance (value key : List UInt8) : Decidable (Names value key) :=
  inferInstanceAs (Decidable (∃ _ ∈ _, _))

namespace Header

/-- The values of the `Connection` header. -/
def connections (h : Header) : List (List UInt8) := (h.entries.lookup connection).getD []

/-- A hop-by-hop field of a header: one of the nine, or named by any `Connection` value. -/
def HopByHop (h : Header) (key : List UInt8) : Prop :=
  key ∈ hopHeaders ∨ ∃ value ∈ h.connections, Names value key

instance (h : Header) (key : List UInt8) : Decidable (h.HopByHop key) :=
  inferInstanceAs (Decidable (_ ∨ ∃ _ ∈ _, _))

/-- The first `Connection` value names a field in a way that `del` understands: exactly, or, if
the field name is a token, in any case. -/
def Deletes (h : Header) (key : List UInt8) : Prop :=
  ∃ tok ∈ (h.get connection).splitOn comma,
    trimSpace tok = key ∨ isToken key = true ∧ EqualFold (trimSpace tok) key

instance (h : Header) (key : List UInt8) : Decidable (h.Deletes key) :=
  inferInstanceAs (Decidable (∃ _ ∈ _, _))

end Header

/-! ## Canonical names -/

theorem toUpperByte_toLowerByte (c : UInt8) : toUpperByte (toLowerByte c) = toUpperByte c := by
  revert c
  decide +kernel

theorem toLowerByte_toLowerByte (c : UInt8) : toLowerByte (toLowerByte c) = toLowerByte c := by
  revert c
  decide +kernel

theorem toLowerByte_toUpperByte (c : UInt8) : toLowerByte (toUpperByte c) = toLowerByte c := by
  revert c
  decide +kernel

/-- The case of a letter does not decide whether it may stand in a name. -/
theorem validHeaderFieldByte_toLowerByte (c : UInt8) :
    validHeaderFieldByte (toLowerByte c) = validHeaderFieldByte c := by
  revert c
  decide +kernel

/-- Writing a name with capitals changes only its case. -/
theorem map_toLowerByte_capitalize (upper : Bool) (name : List UInt8) :
    (capitalize upper name).map toLowerByte = name.map toLowerByte := by
  fun_induction capitalize upper name with
  | case1 => rfl
  | case2 upper c rest c' ih =>
      simp only [List.map_cons, ih]
      congr 1
      simp only [c']
      split_ifs
      · exact toLowerByte_toUpperByte c
      · exact toLowerByte_toLowerByte c

/-- And it does not depend on the case it had. -/
theorem capitalize_map_toLowerByte (upper : Bool) (name : List UInt8) :
    capitalize upper (name.map toLowerByte) = capitalize upper name := by
  induction name generalizing upper with
  | nil => rfl
  | cons c rest ih =>
      simp only [List.map_cons, capitalize, toUpperByte_toLowerByte, toLowerByte_toLowerByte, ih]

theorem isToken_map_toLowerByte (name : List UInt8) :
    isToken (name.map toLowerByte) = isToken name := by
  simp [isToken, List.all_map, Function.comp_def, validHeaderFieldByte_toLowerByte]

namespace EqualFold

variable {a b : List UInt8}

/-- Names that differ in case are tokens together. -/
theorem isToken_eq (h : EqualFold a b) : isToken a = isToken b := by
  rw [← isToken_map_toLowerByte a, h, isToken_map_toLowerByte]

/-- And have one canonical spelling. -/
theorem capitalize_eq (h : EqualFold a b) (upper : Bool) :
    capitalize upper a = capitalize upper b := by
  rw [← capitalize_map_toLowerByte, h, capitalize_map_toLowerByte]

end EqualFold

/-- The canonical spelling is one of the name. -/
theorem equalFold_canonical (name : List UInt8) : EqualFold (canonicalMIMEHeaderKey name) name := by
  unfold canonicalMIMEHeaderKey
  split_ifs
  · exact map_toLowerByte_capitalize true name
  · rfl

/-- The names that `del` takes for a canonical key. -/
theorem canonical_eq_iff {name key : List UInt8} (hkey : canonicalMIMEHeaderKey key = key) :
    canonicalMIMEHeaderKey name = key ↔
      name = key ∨ isToken key = true ∧ EqualFold name key := by
  constructor
  · rintro rfl
    have hfold := equalFold_canonical name
    by_cases htoken : isToken name = true
    · exact .inr ⟨hfold.isToken_eq ▸ htoken, hfold.symm⟩
    · exact .inl (if_neg htoken).symm
  · rintro (rfl | ⟨htoken, hfold⟩)
    · exact hkey
    · have hname : isToken name = true := hfold.isToken_eq ▸ htoken
      calc canonicalMIMEHeaderKey name = capitalize true name := if_pos hname
        _ = capitalize true key := hfold.capitalize_eq true
        _ = canonicalMIMEHeaderKey key := (if_pos htoken).symm
        _ = key := hkey

/-! ## What goes -/

/-- Deleting one name after the other. -/
theorem lookup_foldl_del {α : Type} (name : α → List UInt8) (items : List α) (h : Header)
    (key : List UInt8) :
    (items.foldl (fun h x => h.del (name x)) h).entries.lookup key =
      if ∃ x ∈ items, canonicalMIMEHeaderKey (name x) = key then none
      else h.entries.lookup key := by
  induction items generalizing h with
  | nil => simp
  | cons x items ih =>
      rw [List.foldl_cons, ih]
      by_cases hrest : ∃ y ∈ items, canonicalMIMEHeaderKey (name y) = key
      · simp [hrest]
      · by_cases hx : canonicalMIMEHeaderKey (name x) = key
        · subst hx
          simp [Header.del]
        · rw [if_neg hrest, if_neg (by simp [hx, hrest])]
          exact AList.lookup_erase_ne (Ne.symm hx)

/-- The hop-by-hop names of the source are spelled canonically. -/
theorem canonical_of_mem_hopHeaders : ∀ key ∈ hopHeaders, canonicalMIMEHeaderKey key = key := by
  decide +kernel

theorem exists_canonical_hopHeaders_iff (key : List UInt8) :
    (∃ name ∈ hopHeaders, canonicalMIMEHeaderKey name = key) ↔ key ∈ hopHeaders := by
  constructor
  · rintro ⟨name, hname, rfl⟩
    rwa [canonical_of_mem_hopHeaders name hname]
  · exact fun hkey => ⟨key, hkey, canonical_of_mem_hopHeaders key hkey⟩

/-- A spelling of a name is not empty. -/
theorem EqualFold.ne_nil {a b : List UInt8} (h : EqualFold a b) (hb : b ≠ []) : a ≠ [] := by
  rintro rfl
  exact hb (List.map_eq_nil_iff.mp h.symm)

namespace Header

variable (h : Header) {key : List UInt8}

theorem lookup_connection : h.entries.lookup (canonicalMIMEHeaderKey connection) =
    h.entries.lookup connection := by
  rw [canonical_of_mem_hopHeaders connection (by decide)]

/-- `Get` finds the first value, if there is one. -/
theorem get_connection : h.get connection = h.connections.headD [] := by
  unfold get connections
  rw [lookup_connection]
  rcases h.entries.lookup connection with _ | _ | _ <;> rfl

/-- The tokens that `removeHopHeaders` deletes, for a key that is present. -/
theorem exists_connectionTokens_iff (hkey : key ∈ h.entries) :
    (∃ tok ∈ h.connectionTokens, canonicalMIMEHeaderKey (trimSpace tok) = key) ↔ h.Deletes key := by
  obtain ⟨hne, hcanon⟩ := h.canonical key hkey
  simp only [canonical_eq_iff hcanon, Deletes, connectionTokens]
  split_ifs with hconn
  · rfl
  · -- an empty value has the empty token only, and that is no key
    rw [not_not.mp hconn]
    refine iff_of_false (by simp) ?_
    rintro ⟨tok, htok, hname⟩
    obtain rfl : tok = [] := by simpa using htok
    rcases hname with rfl | ⟨-, hfold⟩
    · exact hne rfl
    · exact hfold.ne_nil hne rfl

/-- The fixed names are taken out, and nothing else. -/
theorem lookup_foldl_hopHeaders : (hopHeaders.foldl del h).entries.lookup key =
    if key ∈ hopHeaders then none else h.entries.lookup key := by
  have hfold := lookup_foldl_del id hopHeaders h key
  simpa only [id, exists_canonical_hopHeaders_iff] using hfold

/-- What is taken out: the fixed names and those that `Connection` lists. -/
theorem lookup_removeHopHeaders (hkey : key ∈ h.entries) : (removeHopHeaders h).entries.lookup key =
    if key ∈ hopHeaders ∨ h.Deletes key then none else h.entries.lookup key := by
  have hdel := h.exists_connectionTokens_iff hkey
  rw [removeHopHeaders, lookup_foldl_del trimSpace, lookup_foldl_hopHeaders]
  grind

/-- No field is made up. -/
theorem lookup_removeHopHeaders_of_notMem (hkey : key ∉ h.entries) :
    (removeHopHeaders h).entries.lookup key = none := by
  rw [removeHopHeaders, lookup_foldl_del trimSpace, lookup_foldl_hopHeaders,
    AList.lookup_eq_none.mpr hkey, ite_self, ite_self]

/-- What is deleted is a hop-by-hop field. -/
theorem hopByHop_of_deletes (hkey : key ∈ h.entries) (hdel : h.Deletes key) : h.HopByHop key := by
  obtain ⟨tok, htok, hname⟩ := hdel
  have hfold : EqualFold (trimSpace tok) key := by
    rcases hname with rfl | ⟨-, hfold⟩
    · rfl
    · exact hfold
  rw [get_connection] at htok
  cases hvalues : h.connections with
  | nil =>
      rw [hvalues] at htok
      obtain rfl : tok = [] := by simpa using htok
      exact absurd rfl (hfold.ne_nil (h.canonical key hkey).1)
  | cons value rest =>
      rw [hvalues] at htok
      exact .inr ⟨value, by simp [hvalues], tok, htok, hfold⟩

end Header

/-- **Hop-by-hop fields**: `removeHopHeaders` keeps exactly the fields that are not hop-by-hop,
unchanged, if and only if every field that is present, named by a `Connection` value and not
one of the nine is named by the first value in a way that `del` understands. -/
theorem removeHopHeaders_exact_iff (h : Header) :
    (∀ key, (removeHopHeaders h).entries.lookup key =
        if h.HopByHop key then none else h.entries.lookup key) ↔
      ∀ key ∈ h.entries, key ∉ hopHeaders → (∃ value ∈ h.connections, Names value key) →
        h.Deletes key := by
  constructor
  · intro hexact key hkey hfixed hnamed
    have hhop : h.HopByHop key := .inr hnamed
    have hlookup := hexact key
    rw [if_pos hhop, h.lookup_removeHopHeaders hkey] at hlookup
    by_contra hdel
    rw [if_neg (not_or.mpr ⟨hfixed, hdel⟩)] at hlookup
    exact AList.lookup_eq_none.mp hlookup hkey
  · intro hall key
    by_cases hkey : key ∈ h.entries
    · rw [h.lookup_removeHopHeaders hkey]
      have hiff : (key ∈ hopHeaders ∨ h.Deletes key) ↔ h.HopByHop key := by
        constructor
        · rintro (hfixed | hdel)
          · exact .inl hfixed
          · exact h.hopByHop_of_deletes hkey hdel
        · rintro (hfixed | hnamed)
          · exact .inl hfixed
          · by_cases hfixed : key ∈ hopHeaders
            · exact .inl hfixed
            · exact .inr (hall key hkey hfixed hnamed)
      simp only [hiff]
    · rw [h.lookup_removeHopHeaders_of_notMem hkey, AList.lookup_eq_none.mpr hkey, ite_self]

/-- With `Connection: close` and `Connection: X-Internal` on two lines, `X-Internal` stays. -/
theorem removeHopHeaders_second_value :
    let h : Header := ⟨[⟨bytes "Connection", [bytes "close", bytes "X-Internal"]⟩,
      ⟨bytes "X-Internal", [bytes "secret"]⟩].toAList, by decide +kernel⟩
    (removeHopHeaders h).entries.lookup (bytes "X-Internal") = some [bytes "secret"] ∧
      h.HopByHop (bytes "X-Internal") := by
  decide +kernel

end Outway.Http
