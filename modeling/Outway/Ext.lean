import Outway.Netip

/-!
# Outway.Ext

Proxy username extensions: `<user>-session-<id>`, `<user>-ttl-<seconds>` and
`<user>-range-<value>` carry a 64-bit value that selects the outbound source
address.

Go strings are byte strings, so usernames are `List UInt8`.  The clock that
`parseTTL` reads is an argument.
-/

namespace Outway

/-- `ExtensionType`. -/
inductive ExtensionType where
  | none
  | ttl
  | range
  | session
  deriving DecidableEq, Repr

/-- `Extension`: the kind and its 64-bit value. -/
structure Extension where
  type : ExtensionType
  value : BitVec 64
  deriving DecidableEq, Repr

/-- `ext.None`, the zero extension. -/
def Extension.noExt : Extension := ⟨.none, 0⟩

/-- `-ttl-` -/
def extTTL : List UInt8 := [0x2d, 0x74, 0x74, 0x6c, 0x2d]

/-- `-session-` -/
def extSession : List UInt8 := [0x2d, 0x73, 0x65, 0x73, 0x73, 0x69, 0x6f, 0x6e, 0x2d]

/-- `-range-` -/
def extRange : List UInt8 := [0x2d, 0x72, 0x61, 0x6e, 0x67, 0x65, 0x2d]

/-! ## FxHash -/

def rotl64 (x : BitVec 64) (r : Nat) : BitVec 64 := (x <<< r) ||| (x >>> (64 - r))

/-- One round of `fxHash64`: `hash = (rotl64(hash, 5) ^ n) * mult`. -/
def fxRound (hash n : BitVec 64) : BitVec 64 := (rotl64 hash 5 ^^^ n) * 0x517cc1b727220a95#64

/-- The loop over full 8-byte little-endian words; returns the hash and the
remaining bytes. -/
def fxWords (hash : BitVec 64) : List UInt8 → BitVec 64 × List UInt8
  | b0 :: b1 :: b2 :: b3 :: b4 :: b5 :: b6 :: b7 :: rest =>
      fxWords (fxRound hash (widen 64 b0 ||| widen 64 b1 <<< 8 ||| widen 64 b2 <<< 16 |||
        widen 64 b3 <<< 24 ||| widen 64 b4 <<< 32 ||| widen 64 b5 <<< 40 ||| widen 64 b6 <<< 48 |||
        widen 64 b7 <<< 56)) rest
  | rem => (hash, rem)

def fxHash64 (data : List UInt8) : BitVec 64 :=
  let (hash, rem) := fxWords 0 data
  let (hash, rem) := match rem with
    | b0 :: b1 :: b2 :: b3 :: rest =>
        (fxRound hash
          (widen 64 b0 ||| widen 64 b1 <<< 8 ||| widen 64 b2 <<< 16 ||| widen 64 b3 <<< 24), rest)
    | rem => (hash, rem)
  let (hash, rem) := match rem with
    | b0 :: b1 :: rest => (fxRound hash (widen 64 b0 ||| widen 64 b1 <<< 8), rest)
    | rem => (hash, rem)
  match rem with
    | b0 :: _ => fxRound hash (widen 64 b0)
    | [] => hash

/-! ## Parsing -/

/-- The value of a decimal digit. -/
def digitValue (b : UInt8) : Option Nat :=
  if 0x30 ≤ b ∧ b ≤ 0x39 then some (b.toNat - 0x30) else none

/-- The digit loop of `strconv.ParseUint(s, 10, 64)`, failing on a byte that is
no digit or on overflow. -/
def parseDigits (n : Nat) : List UInt8 → Option Nat
  | [] => some n
  | b :: rest => do
      let d ← digitValue b
      if n * 10 + d < 2 ^ 64 then parseDigits (n * 10 + d) rest else none

/-- `strconv.ParseUint(s, 10, 64)`. -/
def parseUint (s : List UInt8) : Option Nat := if s = [] then none else parseDigits 0 s

/-- `parseTTL` at the Unix time `now`: a hash of the start of the current
window of `ttl` seconds. -/
def parseTTL (now : BitVec 64) (s : List UInt8) : Extension :=
  match parseUint s with
  | none => .noExt
  | some ttl =>
      if ttl = 0 then .noExt
      else
        let window := now - now % BitVec.ofNat 64 ttl
        ⟨.ttl, fxHash64 [byteOf window 7, byteOf window 6, byteOf window 5, byteOf window 4,
          byteOf window 3, byteOf window 2, byteOf window 1, byteOf window 0]⟩

/-- `strings.CutPrefix`. -/
def cutPrefix (s pre : List UInt8) : Option (List UInt8) :=
  if pre <+: s then some (s.drop pre.length) else none

/-- `strings.TrimPrefix`. -/
def trimPrefix (s pre : List UInt8) : List UInt8 := (cutPrefix s pre).getD s

/-- `TryFrom`: parse an extension from a full username, given the configured
username. -/
def tryFrom (now : BitVec 64) (pre full : List UInt8) : Extension :=
  match cutPrefix full pre with
  | none => .noExt
  | some extracted =>
      if extSession <:+: full then ⟨.session, fxHash64 full⟩
      else if extTTL <:+: extracted then parseTTL now (trimPrefix extracted extTTL)
      else if extRange <:+: extracted then ⟨.range, fxHash64 (trimPrefix extracted extRange)⟩
      else .noExt

end Outway
