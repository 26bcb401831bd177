import Outway.Ext.Grammar
import Outway.Http.Auth

/-!
# Outway.Http.Target

The target of a CONNECT request.

`splitHostPort` hands the string to Go's `net.SplitHostPort`, which looks for the last colon,
and parses the port.  `splitHostPort_eq_ok_iff` says which strings it takes: a host without
colons and brackets, or any host without brackets in brackets, a colon, and the numeral of a
port.
-/

namespace Outway.Http

/-! ## `net.SplitHostPort` -/

/-- `[` -/
def openBracket : UInt8 := 0x5b

/-- `]` -/
def closeBracket : UInt8 := 0x5d

/-- The errors of `net.SplitHostPort`, and of the port. -/
inductive TargetError where
  | missingPort
  | tooManyColons
  | missingBracket
  | unexpectedOpen
  | unexpectedClose
  | port
  deriving DecidableEq

/-- The checks for stray brackets, behind the positions `j` and `k`. -/
def strayBrackets (hostport : List UInt8) (j k : Nat) (ok : List UInt8 × List UInt8) :
    Except TargetError (List UInt8 × List UInt8) :=
  if openBracket ∈ hostport.drop j then .error .unexpectedOpen
  else if closeBracket ∈ hostport.drop k then .error .unexpectedClose
  else .ok ok

/-- `net.SplitHostPort`. -/
def netSplitHostPort (hostport : List UInt8) : Except TargetError (List UInt8 × List UInt8) :=
  match lastIndex colon hostport with
  | none => .error .missingPort
  | some i =>
      let port := hostport.drop (i + 1)
      if hostport.head? = some openBracket then
        if closeBracket ∉ hostport then .error .missingBracket
        else
          let close := hostport.idxOf closeBracket
          -- the first bracket has to stand just before the last colon
          if close + 1 = hostport.length then .error .missingPort
          else if close + 1 = i then
            strayBrackets hostport 1 (close + 1) ((hostport.take close).drop 1, port)
          else if hostport[close + 1]? = some colon then .error .tooManyColons
          else .error .missingPort
      else
        let host := hostport.take i
        if colon ∈ host then .error .tooManyColons
        else strayBrackets hostport 0 0 (host, port)

/-! ## The target -/

/-- `parsePort`: `strconv.ParseUint` with 16 bits takes what it takes with 64 bits if that is
in range. -/
def parsePort (s : List UInt8) : Except TargetError UInt16 :=
  match parseUint s with
  | none => .error .port
  | some p => if p < 2 ^ 16 then .ok (.ofNat p) else .error .port

def splitHostPort (target : List UInt8) : Except TargetError (List UInt8 × UInt16) :=
  if colon ∉ target then .error .missingPort
  else do
    let (host, portStr) ← netSplitHostPort target
    let port ← parsePort portStr
    return (host, port)

/-! ## What is taken -/

/-- A host, with brackets if it is in brackets. -/
inductive HostPart : (text host : List UInt8) → Prop where
  | plain {host : List UInt8} (hcolon : colon ∉ host) (hopen : openBracket ∉ host)
      (hclose : closeBracket ∉ host) : HostPart host host
  | bracketed {host : List UInt8} (hopen : openBracket ∉ host) (hclose : closeBracket ∉ host) :
      HostPart (openBracket :: host ++ [closeBracket]) host

/-- The target stands for the host and the port. -/
def Authority (target host : List UInt8) (port : UInt16) : Prop :=
  ∃ text digits, HostPart text host ∧ Numeral digits port.toNat ∧ target = text ++ colon :: digits

/-- A port is a numeral of 16 bits. -/
theorem parsePort_eq_ok_iff {s : List UInt8} {port : UInt16} :
    parsePort s = .ok port ↔ Numeral s port.toNat := by
  unfold parsePort
  constructor
  · intro h
    split at h
    · cases h
    · next p hp =>
        split_ifs at h with hlt
        obtain rfl := Except.ok.inj h
        rw [UInt16.toNat_ofNat_of_lt' hlt]
        exact (parseUint_eq_some_iff.mp hp).1
  · intro h
    have hlt : port.toNat < 2 ^ 16 := port.toNat_lt
    rw [parseUint_eq_some_iff.mpr ⟨h, by omega⟩]
    simp only [if_pos hlt, UInt16.ofNat_toNat]

/-- A numeral is made of digits. -/
theorem notMem_of_numeral {s : List UInt8} {n : Nat} (h : Numeral s n) {b : UInt8}
    (hb : digitValue b = none) : b ∉ s := by
  obtain ⟨-, digits, hdigits, -⟩ := h
  intro hmem
  obtain ⟨front, back, rfl⟩ := List.append_of_mem hmem
  rw [List.mapM_append, List.mapM_cons, hb] at hdigits
  simp at hdigits

/-- No bracket stands behind the places that were looked at. -/
theorem strayBrackets_eq_ok_iff {hostport : List UInt8} {j k : Nat}
    {parts parts' : List UInt8 × List UInt8} : strayBrackets hostport j k parts = .ok parts' ↔
      openBracket ∉ hostport.drop j ∧ closeBracket ∉ hostport.drop k ∧ parts = parts' := by
  unfold strayBrackets
  split_ifs <;> simp_all

/-- A first bracket just before the last colon: what stands before it, and behind. -/
theorem split_at_bracket {a b : List UInt8} (hmem : closeBracket ∈ a ++ colon :: b)
    (hindex : (a ++ colon :: b).idxOf closeBracket + 1 = a.length) :
    ∃ front, a = front ++ [closeBracket] ∧ closeBracket ∉ front ∧
      (a ++ colon :: b).idxOf closeBracket = front.length := by
  obtain ⟨front, back, heq, hfront⟩ := List.eq_append_cons_of_mem hmem
  have hidx : (a ++ colon :: b).idxOf closeBracket = front.length := by
    rw [heq, List.idxOf_append_of_notMem hfront, List.idxOf_cons_self, Nat.add_zero]
  have hsplit : a ++ colon :: b = (front ++ [closeBracket]) ++ back := by simp [heq]
  exact ⟨front, (List.append_inj hsplit (by simp; omega)).1, hfront, hidx⟩

/-- `SplitHostPort` takes a host part, a colon, and a port without colons and brackets. -/
theorem netSplitHostPort_eq_ok_iff {hostport host port : List UInt8} :
    netSplitHostPort hostport = .ok (host, port) ↔
      ∃ text, HostPart text host ∧ colon ∉ port ∧ openBracket ∉ port ∧ closeBracket ∉ port ∧
        hostport = text ++ colon :: port := by
  obtain ⟨hoc, hcc, hco⟩ : openBracket ≠ colon ∧ closeBracket ≠ colon ∧
    closeBracket ≠ openBracket := by
    decide
  constructor
  · intro h
    by_cases hmem : colon ∈ hostport
    · obtain ⟨a, b, rfl, hb⟩ := exists_last_split hmem
      simp only [netSplitHostPort, lastIndex_append a hb] at h
      split_ifs at h with hhead hclose hend hindex
      · -- in brackets
        obtain ⟨front, rfl, hfront, hidx⟩ := split_at_bracket hclose hindex
        obtain ⟨c, text, rfl⟩ : ∃ c text, front = c :: text := by
          cases front with
          | nil => simp [closeBracket, openBracket] at hhead
          | cons c text => exact ⟨c, text, rfl⟩
        obtain rfl : c = openBracket := by simpa using hhead
        simp only [hidx, strayBrackets_eq_ok_iff, Prod.mk.injEq] at h
        obtain ⟨hopen, hclose, hhost, hport⟩ := h
        obtain rfl : b = port := by simpa using hport
        obtain rfl : text = host := by simpa using hhost
        simp at hopen hclose
        refine ⟨_, .bracketed ?_ ?_, hb, ?_, ?_, rfl⟩ <;> simp_all
      · -- a plain host
        simp only [strayBrackets_eq_ok_iff, Prod.mk.injEq] at h
        obtain ⟨hopen, hclose, hhost, hport⟩ := h
        obtain rfl : b = port := by simpa using hport
        obtain rfl : a = host := by simpa using hhost
        refine ⟨a, .plain ?_ ?_ ?_, hb, ?_, ?_, rfl⟩ <;> simp_all
    · rw [netSplitHostPort, lastIndex_eq_none_iff.mpr hmem] at h
      cases h
  · rintro ⟨text, hhost, hcolon, hopen, hclose, rfl⟩
    simp only [netSplitHostPort, lastIndex_append text hcolon]
    cases hhost with
    | plain hcolon' hopen' hclose' =>
        have hhead : (host ++ colon :: port).head? ≠ some openBracket := by
          cases host with
          | nil => simpa using hoc.symm
          | cons c host =>
              intro h
              obtain rfl : c = openBracket := by simpa using h
              exact hopen' List.mem_cons_self
        rw [if_neg hhead]
        simp [hcolon', strayBrackets_eq_ok_iff, hopen, hopen', hclose, hclose', hoc, hcc]
    | bracketed hopen' hclose' =>
        have hidx : (openBracket :: host ++ [closeBracket] ++ colon :: port).idxOf closeBracket =
            host.length + 1 := by
          have hfront : closeBracket ∉ openBracket :: host := by simp [hco, hclose']
          rw [List.append_assoc, List.singleton_append, List.idxOf_append_of_notMem hfront,
            List.idxOf_cons_self]
          simp
        simp only [hidx]
        rw [if_pos (by simp), if_neg (by simp), if_neg (by simp), if_pos (by simp)]
        simp [strayBrackets_eq_ok_iff, hopen, hopen', hclose, hoc, hcc, hco.symm]

/-- Which targets of CONNECT are taken, and for which host and port. -/
theorem splitHostPort_eq_ok_iff (target host : List UInt8) (port : UInt16) :
    splitHostPort target = .ok (host, port) ↔ Authority target host port := by
  have hbytes : digitValue colon = none ∧ digitValue openBracket = none ∧
      digitValue closeBracket = none := by decide
  unfold splitHostPort Authority
  constructor
  · intro h
    split_ifs at h with hcolon
    cases hsplit : netSplitHostPort target with
    | error err => simp [hsplit, bind, Except.bind] at h
    | ok parts =>
        obtain ⟨host', digits⟩ := parts
        obtain ⟨text, htext, -, -, -, rfl⟩ := netSplitHostPort_eq_ok_iff.mp hsplit
        cases hport : parsePort digits with
        | error err => simp [hsplit, hport, bind, Except.bind] at h
        | ok port' =>
            simp only [hsplit, hport, bind, Except.bind, pure, Except.pure, Except.ok.injEq,
              Prod.mk.injEq] at h
            obtain ⟨rfl, rfl⟩ := h
            exact ⟨text, digits, htext, parsePort_eq_ok_iff.mp hport, rfl⟩
  · rintro ⟨text, digits, htext, hdigits, rfl⟩
    have hsplit : netSplitHostPort (text ++ colon :: digits) = .ok (host, digits) :=
      netSplitHostPort_eq_ok_iff.mpr ⟨text, htext, notMem_of_numeral hdigits hbytes.1,
        notMem_of_numeral hdigits hbytes.2.1, notMem_of_numeral hdigits hbytes.2.2, rfl⟩
    rw [if_neg (by simp), hsplit]
    simp [bind, Except.bind, parsePort_eq_ok_iff.mpr hdigits, pure, Except.pure]

end Outway.Http
