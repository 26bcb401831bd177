import Outway.Connect.Source

/-!
# Outway.Connect.Mapped

IPv4-mapped targets of `TcpConnector.connect`.

`connectAddr` compares the family of its target with the family of the CIDR, and takes
`::ffff:a.b.c.d` for an IPv6 address.  `decisions_mapped_iff` says for which connectors the
mapped form of an IPv4 address is dialled like the address itself: only for those without a
CIDR.
-/

namespace Outway

/-- `::ffff:a.b.c.d` -/
def Addr.v4Mapped (a : BitVec 32) : Addr := .v6 (Addr.v4 a).bits128 ""

/-! ## Decisions -/

/-- What a `Connect` call decides: the sources it dials from, one after the other, and its
result. -/
@[ext] structure Decision (κ : Type) where
  sources : List Source
  result : Option (Except ConnectError κ)

/-- An error with the address it names unmapped. -/
def ConnectError.unmap : ConnectError → ConnectError
  | .familyMismatch target cidr => .familyMismatch ⟨target.addr.unmap, target.port⟩ cidr
  | err => err

variable {κ : Type}

def Trace.decision (t : Trace κ) : Decision κ where
  sources := t.dials.map Dial.source
  result := t.result.map fun r => r.mapError ConnectError.unmap

/-- The decisions of `Connect` for a target, over all outcomes of its environment. -/
def TcpConnector.decisions (t : TcpConnector) (κ : Type) (target : TargetAddr) : Set (Decision κ) :=
  Set.range fun env : ConnectEnv κ => (t.connect env target).decision

/-- The target of a socket address. -/
def TargetAddr.ofAddr (ip : Addr) (port : UInt16) : TargetAddr := ⟨some ⟨ip, port⟩, "", 0⟩

/-- The environment of one dial. -/
def ConnectEnv.single (ws : List (Wakeup κ)) : ConnectEnv κ where
  parseAddr _ := none
  lookup _ := .ok []
  wakeups := []
  rnd _ := ⟨0, 0, 0⟩
  inner _ := ws

section Decisions

variable {t : TcpConnector} {ip : Addr} {port : UInt16}

/-- A target that is an address is connected to as it is. -/
theorem connect_ofAddr (env : ConnectEnv κ) : t.connect env (.ofAddr ip port) =
    t.connectAddr (env.rnd 0) ⟨ip, port⟩ (env.inner 0) := rfl

/-- A dial is decided by its source alone. -/
theorem decision_dialContext {d d' : Dial} (h : d.source = d'.source) (ws : List (Wakeup κ)) :
    (dialContext d ws).decision = (dialContext d' ws).decision := by
  unfold dialContext
  split <;> simp [Trace.decision, h]

/-- The source of a fallback does not depend on the target. -/
theorem source_fallbackDial (target target' : AddrPort) (fb : Fallback) :
    (TcpConnector.fallbackDial target fb).source =
      (TcpConnector.fallbackDial target' fb).source := by
  unfold TcpConnector.fallbackDial
  split_ifs <;> rfl

/-- Without a CIDR the target does not matter. -/
theorem decision_connectAddr_of_none (hcidr : t.inner.cidr = none) (rnd : RandDraws)
    (target target' : AddrPort) (ws : List (Wakeup κ)) :
    (t.connectAddr rnd target ws).decision = (t.connectAddr rnd target' ws).decision := by
  simp only [TcpConnector.connectAddr, hcidr]
  cases t.inner.fallback with
  | none =>
      have hsource : (TcpConnector.plainDial target).source =
        (TcpConnector.plainDial target').source := rfl
      exact decision_dialContext hsource ws
  | some fb => exact decision_dialContext (source_fallbackDial target target' fb) ws

theorem length_dials_dialContext (d : Dial) (ws : List (Wakeup κ)) :
    (dialContext d ws).dials.length = 1 := by
  unfold dialContext
  split <;> rfl

/-- The number of sources left when the CIDR is of no use. -/
def TcpConnector.fallbackCount (t : TcpConnector) : Nat := if t.inner.fallback.isSome then 1 else 0

/-- A target of the other family is dialled from the fallback or not at all. -/
theorem length_sources_of_ne {cidr : Prefix} (hcidr : t.inner.cidr = some cidr)
    (hne : cidr.addr.is4 ≠ ip.is4) {d : Decision κ} (h : d ∈ t.decisions κ (.ofAddr ip port)) :
    d.sources.length = t.fallbackCount := by
  obtain ⟨env, rfl⟩ := h
  simp only [connect_ofAddr, TcpConnector.connectAddr, hcidr, Trace.decision, List.length_map,
    TcpConnector.fallbackCount]
  cases t.inner.fallback with
  | none => simp [hne]
  | some fb =>
      simp only [if_pos hne]
      exact length_dials_dialContext _ _

/-- A target of the CIDR's family can be dialled from the CIDR too. -/
theorem exists_length_sources_of_eq (κ : Type) (port : UInt16) {cidr : Prefix}
    (hcidr : t.inner.cidr = some cidr) (heq : cidr.addr.is4 = ip.is4) :
    ∃ d ∈ t.decisions κ (.ofAddr ip port), d.sources.length = t.fallbackCount + 1 := by
  refine ⟨_, ⟨.single [.timer], rfl⟩, ?_⟩
  simp only [connect_ofAddr, TcpConnector.connectAddr, hcidr, Trace.decision, List.length_map,
    TcpConnector.fallbackCount]
  cases t.inner.fallback with
  | none =>
      simp only [heq, ne_eq, not_true_eq_false, if_false]
      exact length_dials_dialContext _ _
  | some fb =>
      simp only [heq, ne_eq, not_true_eq_false, if_false]
      rfl

/-- A network of one family tells the two spellings of an address apart. -/
theorem decisions_ne (ip ip' : Addr) {cidr : Prefix} (hcidr : t.inner.cidr = some cidr)
    (heq : cidr.addr.is4 = ip.is4) (hne : cidr.addr.is4 ≠ ip'.is4) :
    t.decisions κ (.ofAddr ip port) ≠ t.decisions κ (.ofAddr ip' port) := by
  intro hsame
  obtain ⟨d, hd, hlen⟩ := exists_length_sources_of_eq κ port hcidr heq
  rw [hsame] at hd
  have := length_sources_of_ne hcidr hne hd
  omega

end Decisions

/-- **Mapped targets**: `Connect` decides about the IPv4-mapped form of an address as about the
address itself exactly if there is no CIDR. -/
theorem decisions_mapped_iff (t : TcpConnector) (κ : Type) (a : BitVec 32) (port : UInt16) :
    t.decisions κ (.ofAddr (.v4Mapped a) port) = t.decisions κ (.ofAddr (.v4 a) port) ↔
      t.inner.cidr = none := by
  constructor
  · intro h
    by_contra hsome
    obtain ⟨cidr, hcidr⟩ := Option.ne_none_iff_exists'.mp hsome
    -- one of the two forms is of the CIDR's family, the other is not
    cases hfamily : cidr.addr.is4 with
    | true =>
        have hne : cidr.addr.is4 ≠ (Addr.v4Mapped a).is4 := by
          rw [hfamily]
          exact Bool.noConfusion
        exact decisions_ne (.v4 a) (.v4Mapped a) hcidr hfamily hne h.symm
    | false =>
        have hne : cidr.addr.is4 ≠ (Addr.v4 a).is4 := by
          rw [hfamily]
          exact Bool.noConfusion
        exact decisions_ne (.v4Mapped a) (.v4 a) hcidr hfamily hne h
  · intro hcidr
    exact congrArg Set.range (funext fun env => decision_connectAddr_of_none hcidr _ _ _ _)

/-- With the CIDR `10.0.0.0/8` and no fallback, `1.2.3.4` is dialled from the CIDR and
`::ffff:1.2.3.4` is refused. -/
theorem decisions_mapped_refused :
    let t : TcpConnector := ⟨⟨some ⟨.v4 0x0a000000#32, 8, by decide⟩, none, none⟩, .noExt⟩
    let env : ConnectEnv Unit := .single [.result (.ok ())]
    (t.connect env (.ofAddr (.v4 0x01020304#32) 80)).decision =
        ⟨[⟨[10, 0, 0, 0], ""⟩], some (.ok ())⟩ ∧
      (t.connect env (.ofAddr (.v4Mapped 0x01020304#32) 80)).decision =
        ⟨[], some (.error (.familyMismatch ⟨.v4 0x01020304#32, 80⟩
          ⟨.v4 0x0a000000#32, 8, by decide⟩))⟩ ∧
      t.decisions Unit (.ofAddr (.v4Mapped 0x01020304#32) 80) ≠
        t.decisions Unit (.ofAddr (.v4 0x01020304#32) 80) := by
  refine ⟨rfl, rfl, (decisions_ne _ _ rfl ?_ ?_).symm⟩
  · rfl
  · decide

end Outway
