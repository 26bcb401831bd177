import Outway.Lib.Base64
import Outway.Socks.Handshake

/-!
# Outway.Http.Auth

Basic authentication of the HTTP listener, beside the SOCKS5 sub-negotiation.

SOCKS5 sends username and password as two fields.  The HTTP header joins them with a
colon, and `authenticatePassword` splits the joined string at its last colon, so a colon
in the password moves the boundary.  `authenticatePassword_agrees_iff` says for which
credentials the two listeners agree.

`Base64` holds the two directions of the encoding and the round trip, which is all the result
needs; `stdEncoding` is the encoding of the source.
-/

namespace Outway.Http

open Socks (UsernamePassword)

/-! ## The header -/

/-- An `Encoding` of the package `base64`. -/
structure Base64 where
  encodeToString : List UInt8 → List UInt8
  decodeString : List UInt8 → Option (List UInt8)
  decode_encode : ∀ data, decodeString (encodeToString data) = some data

/-- `base64.StdEncoding`. -/
def stdEncoding : Base64 := ⟨Base64.encode, Base64.decode, Base64.round_trip⟩

/-- `:` -/
def colon : UInt8 := 0x3a

/-- The prefix `Basic ` of the header. -/
def basic : List UInt8 := [0x42, 0x61, 0x73, 0x69, 0x63, 0x20]

/-- The sentinel errors. -/
inductive AuthError where
  | proxyAuthRequired
  | forbidden
  deriving DecidableEq

/-- `strings.LastIndex` of a byte. -/
def lastIndex (c : UInt8) : List UInt8 → Option Nat
  | [] => none
  | b :: rest =>
      match lastIndex c rest with
      | some i => some (i + 1)
      | none => if b = c then some 0 else none

/-- `authenticatePassword` on the value of `Proxy-Authorization`, empty when the header is
missing. -/
def authenticatePassword (base64 : Base64) (now : BitVec 64) (username password : List UInt8)
    (proxyAuth : List UInt8) : Except AuthError Extension :=
  if proxyAuth = [] then .error .proxyAuthRequired
  else
    match cutPrefix proxyAuth basic with
    | none => .error .proxyAuthRequired
    | some encoded =>
        match base64.decodeString encoded with
        | none => .error .proxyAuthRequired
        | some authStr =>
            match lastIndex colon authStr with
            | none => .error .proxyAuthRequired
            | some idx =>
                let authUsername := authStr.take idx
                let authPassword := authStr.drop (idx + 1)
                if username <+: authUsername ∧ authPassword = password then
                  .ok (tryFrom now username authUsername)
                else .error .forbidden

/-- The header of a client with the given credentials. -/
def basicHeader (base64 : Base64) (user pass : List UInt8) : List UInt8 :=
  basic ++ base64.encodeToString (user ++ colon :: pass)

/-! ## The last colon -/

theorem lastIndex_eq_none_iff {c : UInt8} {s : List UInt8} : lastIndex c s = none ↔ c ∉ s := by
  induction s with
  | nil => simp [lastIndex]
  | cons b rest ih =>
      rw [lastIndex]
      cases h : lastIndex c rest with
      | some i =>
          have hmem : c ∈ rest := by
            by_contra hcon
            simp [ih.mpr hcon] at h
          simp [hmem]
      | none =>
          have hmem : c ∉ rest := ih.mp h
          simp [hmem, eq_comm]

/-- The split at the last occurrence. -/
theorem lastIndex_append {c : UInt8} (a : List UInt8) {b : List UInt8} (h : c ∉ b) :
    lastIndex c (a ++ c :: b) = some a.length := by
  induction a with
  | nil => simp [lastIndex, lastIndex_eq_none_iff.mpr h]
  | cons x a ih => simp [lastIndex, ih]

/-- A byte that occurs has a last occurrence. -/
theorem exists_last_split {c : UInt8} {s : List UInt8} (h : c ∈ s) :
    ∃ a b, s = a ++ c :: b ∧ c ∉ b := by
  obtain ⟨front, rest, hsplit, hfront⟩ := List.eq_append_cons_of_mem (List.mem_reverse.mpr h)
  refine ⟨rest.reverse, front.reverse, ?_, by simpa using hfront⟩
  rw [← List.reverse_reverse s, hsplit]
  simp

/-- And only one. -/
theorem last_split_unique {c : UInt8} {a a' b b' : List UInt8} (hb : c ∉ b) (hb' : c ∉ b')
    (h : a ++ c :: b = a' ++ c :: b') : a = a' ∧ b = b' := by
  have hlength : a.length = a'.length := by
    rw [← Option.some.injEq, ← lastIndex_append a hb, h, lastIndex_append a' hb']
  obtain ⟨ha, hrest⟩ := List.append_inj h hlength
  exact ⟨ha, (List.cons.inj hrest).2⟩

/-! ## Both listeners -/

section Agree

variable {base64 : Base64} {now : BitVec 64} {username password user pass a b : List UInt8}

/-- A header is judged by what stands around its last colon. -/
theorem authenticatePassword_eq (hsplit : user ++ colon :: pass = a ++ colon :: b)
    (hb : colon ∉ b) :
    authenticatePassword base64 now username password (basicHeader base64 user pass) =
      if username <+: a ∧ b = password then .ok (tryFrom now username a)
      else .error .forbidden := by
  have hne : basicHeader base64 user pass ≠ [] := by simp [basicHeader, basic]
  have hcut : cutPrefix (basicHeader base64 user pass) basic =
      some (base64.encodeToString (a ++ colon :: b)) := by
    rw [cutPrefix, basicHeader, if_pos (List.prefix_append _ _), List.drop_left, hsplit]
  have hdrop : (a ++ colon :: b).drop (a.length + 1) = b := by simp [List.drop_append]
  simp only [authenticatePassword, if_neg hne, hcut, base64.decode_encode, lastIndex_append a hb,
    List.take_left, hdrop]

/-- The sub-negotiation judges the two fields. -/
theorem executePassword_marshalTo (huser : user.length < 256) (hpass : pass.length < 256) :
    (Socks.AuthAdaptor.executePassword now username password
        (UsernamePassword.marshalTo ⟨user, pass⟩)).2 =
      if username <+: user ∧ pass = password then .ok (tryFrom now username user, [])
      else .error .credentials := by
  have hread := (Socks.exact_readUsernamePassword (UsernamePassword.marshalTo ⟨user, pass⟩)
    ⟨user, pass⟩ []).mpr ⟨_, ⟨huser, hpass, rfl⟩, (List.append_nil _).symm⟩
  rw [Socks.AuthAdaptor.executePassword, hread]
  simp only
  split_ifs <;> rfl

end Agree

/-- Two judgements agree when they accept the same, with the same extension. -/
theorem accepts_iff {A B : Prop} [Decidable A] [Decidable B] (x y : Extension) :
    (∀ e, (if A then .ok x else .error .forbidden : Except AuthError Extension) = .ok e ↔
        (if B then .ok (y, []) else .error .credentials :
          Except Socks.ProtoError (Extension × List UInt8)) = .ok (e, [])) ↔
      (A ↔ B) ∧ (A → B → x = y) := by
  by_cases hA : A <;> by_cases hB : B <;> simp [hA, hB]

/-- Two judgements that never accept together agree when both refuse. -/
theorem refuse_iff {A B C : Prop} (h : ¬ (A ∧ B)) : (A ↔ B) ∧ (A → B → C) ↔ ¬ B ∧ ¬ A := by
  constructor
  · intro ⟨hiff, _⟩
    exact ⟨fun hB => h ⟨hiff.mpr hB, hB⟩, fun hA => h ⟨hA, hiff.mp hA⟩⟩
  · intro ⟨hB, hA⟩
    exact ⟨iff_of_false hA hB, fun hA' => absurd hA' hA⟩

/-- The configured password has a colon: its owner is turned away by the HTTP listener. -/
def LocksOut (username password user pass : List UInt8) : Prop :=
  colon ∈ password ∧ pass = password ∧ username <+: user

/-- The password ends in a colon and the configured one, and what stands before it continues
a username: the HTTP listener lets it in. -/
def LetsIn (username password user pass : List UInt8) : Prop :=
  colon ∉ password ∧ ∃ front, pass = front ++ colon :: password ∧
    username <+: user ++ colon :: front

/-- **One set of credentials**: the two listeners accept a username and password with the
same extension, or both refuse them, unless the colon locks their owner out or lets them in. -/
theorem authenticatePassword_agrees_iff (base64 : Base64) (now : BitVec 64)
    (username password user pass : List UInt8) (huser : user.length < 256)
    (hpass : pass.length < 256) :
    (∀ e, authenticatePassword base64 now username password (basicHeader base64 user pass) = .ok e ↔
        (Socks.AuthAdaptor.executePassword now username password
          (UsernamePassword.marshalTo ⟨user, pass⟩)).2 = .ok (e, [])) ↔
      ¬ LocksOut username password user pass ∧ ¬ LetsIn username password user pass := by
  rw [executePassword_marshalTo huser hpass]
  by_cases hcolon : colon ∈ pass
  · obtain ⟨front, last, rfl, hlast⟩ := exists_last_split hcolon
    have hlocks : LocksOut username password user (front ++ colon :: last) ↔
        username <+: user ∧ front ++ colon :: last = password := by
      constructor
      · exact fun h => ⟨h.2.2, h.2.1⟩
      · exact fun h => ⟨h.2 ▸ hcolon, h.2, h.1⟩
    have hlets : LetsIn username password user (front ++ colon :: last) ↔
        username <+: user ++ colon :: front ∧ last = password := by
      constructor
      · rintro ⟨hclean, front', hsplit, hstarts⟩
        obtain ⟨rfl, rfl⟩ := last_split_unique hlast hclean hsplit
        exact ⟨hstarts, rfl⟩
      · rintro ⟨hstarts, rfl⟩
        exact ⟨hlast, front, rfl, hstarts⟩
    -- the two readings cannot both be the configured password
    have hboth : ¬ (last = password ∧ front ++ colon :: last = password) := by
      rintro ⟨rfl, hlong⟩
      have hlength := congrArg List.length hlong
      rw [List.length_append, List.length_cons] at hlength
      omega
    rw [authenticatePassword_eq (a := user ++ colon :: front) (b := last) (by simp) hlast,
      accepts_iff, hlocks, hlets]
    exact refuse_iff fun h => hboth ⟨h.1.2, h.2.2⟩
  · have hlocks : ¬ LocksOut username password user pass := by
      rintro ⟨hmem, rfl, -⟩
      exact hcolon hmem
    have hlets : ¬ LetsIn username password user pass := by
      rintro ⟨-, front, rfl, -⟩
      simp at hcolon
    rw [authenticatePassword_eq rfl hcolon, accepts_iff]
    exact iff_of_true ⟨Iff.rfl, fun _ _ => rfl⟩ ⟨hlocks, hlets⟩

/-- The user `u`, the password `p` and the session `u-session-1`: the header is
`Basic dS1zZXNzaW9uLTE6cA==`. -/
theorem authenticatePassword_agrees_session :
    let user := [0x75] ++ extSession ++ [0x31]
    user.length < 256 ∧ [0x70].length < 256 ∧
      basicHeader stdEncoding user [0x70] =
        basic ++ [0x64, 0x53, 0x31, 0x7a, 0x5a, 0x58, 0x4e, 0x7a, 0x61, 0x57, 0x39, 0x75,
          0x4c, 0x54, 0x45, 0x36, 0x63, 0x41, 0x3d, 0x3d] ∧
      authenticatePassword stdEncoding 0 [0x75] [0x70] (basicHeader stdEncoding user [0x70]) =
        .ok (tryFrom 0 [0x75] user) := by
  intro user
  have hlocks : ¬ LocksOut [0x75] [0x70] user [0x70] := fun h => absurd h.1 (by decide)
  have hlets : ¬ LetsIn [0x75] [0x70] user [0x70] := by
    rintro ⟨-, front, hsplit, -⟩
    have hlength := congrArg List.length hsplit
    rw [List.length_append] at hlength
    simp at hlength
  have hagree := (authenticatePassword_agrees_iff stdEncoding 0 [0x75] [0x70] user [0x70]
    (by decide) (by decide)).mpr ⟨hlocks, hlets⟩
  exact ⟨by decide, by decide, by decide +kernel, (hagree _).mpr (by decide +kernel)⟩

/-- The user `u` with the password `p`: `u` with the password `x:p`, whose header is
`Basic dTp4OnA=`, is let in by the HTTP listener and refused by the other. -/
theorem authenticatePassword_letsIn :
    basicHeader stdEncoding [0x75] [0x78, colon, 0x70] =
        basic ++ [0x64, 0x54, 0x70, 0x34, 0x4f, 0x6e, 0x41, 0x3d] ∧
      authenticatePassword stdEncoding 0 [0x75] [0x70]
          (basic ++ [0x64, 0x54, 0x70, 0x34, 0x4f, 0x6e, 0x41, 0x3d]) = .ok .noExt ∧
      (Socks.AuthAdaptor.executePassword 0 [0x75] [0x70]
        (UsernamePassword.marshalTo ⟨[0x75], [0x78, colon, 0x70]⟩)).2 = .error .credentials := by
  decide +kernel

end Outway.Http
