import Outway.Connect.Source

/-!
# Outway.Server.Route

The local route of the CIDR.

`addRouteToLoopback` looks for the route in the local table and adds it if it is not there.
It looks for the prefix as the operator wrote it, and the kernel lists the masked one:
`addRouteToLoopback_twice_iff` says that the second start finds the route of the first one
exactly if the prefix has no host bits.

Assumed of the kernel: it stores and lists a route under its masked prefix, and refuses a
route whose masked prefix, table and priority exist.  What else it refuses is a parameter.
-/

namespace Outway

deriving instance DecidableEq for Prefix

/-- `Masked` -/
def Prefix.masked (p : Prefix) : Prefix where
  addr := p.maskedAddr
  bits := p.bits
  wf := by
    have hwf := p.wf
    unfold Prefix.maskedAddr
    split at hwf <;> simp_all

/-- A prefix is an IPv4 or an IPv6 network, without a zone. -/
theorem Prefix.addr_cases (p : Prefix) :
    (∃ a, p.addr = .v4 a ∧ p.bits ≤ 32) ∨ ∃ a, p.addr = .v6 a "" ∧ p.bits ≤ 128 := by
  obtain ⟨addr, bits, hwf⟩ := p
  cases addr with
  | zero => exact hwf.elim
  | v4 a => exact .inl ⟨a, rfl, hwf⟩
  | v6 a zone =>
      obtain ⟨hbits, rfl⟩ := hwf
      exact .inr ⟨a, rfl, hbits⟩

theorem Prefix.eq_of {p q : Prefix} (haddr : p.addr = q.addr) (hbits : p.bits = q.bits) :
    p = q := by
  cases p
  cases q
  simp_all

theorem ushiftRight_shiftLeft_idem {w : Nat} (x : BitVec w) (s : Nat) :
    x >>> s <<< s >>> s <<< s = x >>> s <<< s := by
  apply BitVec.eq_of_getLsbD_eq
  intro i hi
  simp only [BitVec.getLsbD_shiftLeft, BitVec.getLsbD_ushiftRight]
  grind

/-- Masking twice is masking once. -/
theorem Prefix.maskedAddr_masked (p : Prefix) : p.masked.maskedAddr = p.masked.addr := by
  obtain ⟨addr, bits, hwf⟩ := p
  cases addr with
  | zero => rfl
  | v4 a => exact congrArg Addr.v4 (ushiftRight_shiftLeft_idem a _)
  | v6 a zone => exact congrArg (Addr.v6 · zone) (ushiftRight_shiftLeft_idem a _)

namespace Server

/-! ## `net.IPNet` -/

structure IPNet where
  ip : List UInt8
  mask : List UInt8

/-- The loop of `net.CIDRMask`: `n` ones in `l` bytes. -/
def maskBytes : Nat → Nat → List UInt8
  | _, 0 => []
  | n, l + 1 =>
      if 8 ≤ n then 0xff :: maskBytes (n - 8) l
      else ~~~(0xff >>> UInt8.ofNat n) :: maskBytes 0 l

/-- `net.CIDRMask` -/
def cidrMask (ones bits : Nat) : List UInt8 :=
  if (bits = 32 ∨ bits = 128) ∧ ones ≤ bits then maskBytes ones (bits / 8) else []

/-- The inner loop of `simpleMaskLength`: the ones at the top of a byte, and what is left. -/
def topOnes : Nat → UInt8 → Nat × UInt8
  | 0, v => (0, v)
  | fuel + 1, v =>
      if v &&& 0x80 ≠ 0 then
        let (n, v) := topOnes fuel (v <<< 1)
        (n + 1, v)
      else (0, v)

/-- `simpleMaskLength`; `none` for its -1. -/
def simpleMaskLength : List UInt8 → Option Nat
  | [] => some 0
  | v :: rest =>
      if v = 0xff then (simpleMaskLength rest).map (· + 8)
      else
        let (n, v) := topOnes 8 v
        if v = 0 ∧ rest.all (· = 0) then some n else none

/-- `IPMask.Size`, the number of ones. -/
def maskSize (mask : List UInt8) : Nat := (simpleMaskLength mask).getD 0

def v4InV6 : List UInt8 := [0, 0, 0, 0, 0, 0, 0, 0, 0, 0, 0xff, 0xff]

/-- `IP.Equal`: an IPv4 address and its mapped form are equal. -/
def ipEqual (ip x : List UInt8) : Bool :=
  if ip.length = x.length then ip == x
  else if ip.length = 4 ∧ x.length = 16 then x.take 12 == v4InV6 && ip == x.drop 12
  else if ip.length = 16 ∧ x.length = 4 then ip.take 12 == v4InV6 && ip.drop 12 == x
  else false

/-- `bytesEqual` -/
def bytesEqual (a b : List UInt8) : Bool :=
  if a.length ≠ b.length then false else (a.zip b).all fun (x, y) => x == y

def ipNetEqual (a b : IPNet) : Bool := ipEqual a.ip b.ip && bytesEqual a.mask b.mask

def prefixToIPNet (p : Prefix) : IPNet where
  ip := p.addr.asSlice
  mask := cidrMask p.bits p.addr.bitLen

/-- `IP.To4` -/
def to4 (ip : List UInt8) : Option (List UInt8) :=
  if ip.length = 4 then some ip
  else if ip.length = 16 ∧ ip.take 12 = v4InV6 then some (ip.drop 12)
  else none

/-! ## The routing table -/

/-- `netlink.Route`, the fields that are set. -/
structure Route where
  linkIndex : Nat
  dst : IPNet
  type : Nat
  protocol : Nat
  scope : Nat
  table : Nat
  priority : Nat

/-- A route of the kernel, with its masked prefix. -/
structure KernelRoute where
  linkIndex : Nat
  dst : Prefix
  type : Nat
  protocol : Nat
  scope : Nat
  table : Nat
  priority : Nat
  masked : dst.maskedAddr = dst.addr

def KernelRoute.key (r : KernelRoute) : Prefix × Nat × Nat := (r.dst, r.table, r.priority)

/-- No two routes have the same prefix, table and priority. -/
structure RoutingTable where
  routes : List KernelRoute
  distinct : (routes.map KernelRoute.key).Nodup

/-- The system: its links, whether routes can be listed, and the routes it refuses for reasons
of its own. -/
structure Host where
  linkByName : String → Except String Nat
  listError : Option String
  refuses : Route → Option String

/-- The prefix of a netlink message.  The family follows from the address, so a mapped one is
sent as IPv4; a length that does not fit the family is invalid. -/
def destination (net : IPNet) : Option Prefix :=
  let ones := maskSize net.mask
  match to4 net.ip with
  | some ip =>
      if h : ip.length = 4 ∧ ones ≤ 32 then
        some ⟨addrFrom4 ⟨ip.toArray, h.1⟩, ones, h.2⟩
      else none
  | none =>
      if h : net.ip.length = 16 ∧ ones ≤ 128 then
        some ⟨addrFrom16 ⟨net.ip.toArray, h.1⟩, ones, h.2, rfl⟩
      else none

/-- The route the kernel stores for a request. -/
def Route.stored (route : Route) (dst : Prefix) : KernelRoute where
  linkIndex := route.linkIndex
  dst := dst.masked
  type := route.type
  protocol := route.protocol
  scope := route.scope
  table := route.table
  priority := route.priority
  masked := dst.maskedAddr_masked

namespace Host

variable (host : Host)

/-- `netlink.RouteListFiltered` with a filter on the table. -/
def routeListFiltered (t : RoutingTable) (table : Nat) : Except String (List KernelRoute) :=
  match host.listError with
  | some err => .error err
  | none => .ok (t.routes.filter fun r => r.table = table)

/-- `netlink.RouteAdd` -/
def routeAdd (t : RoutingTable) (route : Route) : Except String RoutingTable :=
  match destination route.dst with
  | none => .error "invalid argument"
  | some dst =>
      match host.refuses route with
      | some err => .error err
      | none =>
          if h : (route.stored dst).key ∈ t.routes.map KernelRoute.key then .error "file exists"
          else .ok ⟨route.stored dst :: t.routes, List.nodup_cons.mpr ⟨h, t.distinct⟩⟩

end Host

/-! ## The set-up -/

def routeTableLocal : Nat := 255

def routePriority : Nat := 1024

/-- The route that `addRouteToLoopback` adds: `RTN_LOCAL`, `RTPROT_BOOT`, `RT_SCOPE_UNIVERSE`. -/
def loopbackRoute (lo : Nat) (dstNet : IPNet) : Route :=
  ⟨lo, dstNet, 2, 3, 0, routeTableLocal, routePriority⟩

def addRouteToLoopback (host : Host) (cidr : Prefix) (t : RoutingTable) :
    Except String RoutingTable :=
  match host.linkByName "lo" with
  | .error err => .error s!"get loopback interface: {err}"
  | .ok lo =>
      let dstNet := prefixToIPNet cidr
      match host.routeListFiltered t routeTableLocal with
      | .error err => .error s!"list routes: {err}"
      | .ok routes =>
          if routes.any fun r => ipNetEqual (prefixToIPNet r.dst) dstNet then .ok t
          else
            match host.routeAdd t (loopbackRoute lo dstNet) with
            | .error err => .error s!"add route: {err}"
            | .ok t => .ok t

/-! ## Prefixes and networks -/

theorem length_maskBytes (n l : Nat) : (maskBytes n l).length = l := by
  fun_induction maskBytes n l <;> simp_all

theorem all_zero_maskBytes (l : Nat) : (maskBytes 0 l).all (· = 0) = true := by
  induction l with
  | zero => rfl
  | succ l ih =>
      rw [maskBytes, if_neg (by decide), List.all_cons, ih]
      rfl

/-- The last byte of a mask that has ones. -/
theorem topOnes_mask : ∀ n < 8, ~~~(0xff >>> UInt8.ofNat n) ≠ (0xff : UInt8) ∧
    topOnes 8 (~~~(0xff >>> UInt8.ofNat n)) = (n, 0) := by
  decide

/-- The length of a mask is read back. -/
theorem simpleMaskLength_maskBytes {n l : Nat} (h : n ≤ 8 * l) :
    simpleMaskLength (maskBytes n l) = some n := by
  induction l generalizing n with
  | zero =>
      obtain rfl : n = 0 := by omega
      rfl
  | succ l ih =>
      rw [maskBytes]
      split_ifs with hfull
      · rw [simpleMaskLength, if_pos rfl, ih (by omega), Option.map_some, Nat.sub_add_cancel hfull]
      · obtain ⟨hne, hones⟩ := topOnes_mask n (by omega)
        simp [simpleMaskLength, hne, hones, all_zero_maskBytes]

/-- `Size` of `CIDRMask`. -/
theorem maskSize_cidrMask {ones bits : Nat} (hbits : bits = 32 ∨ bits = 128) (h : ones ≤ bits) :
    maskSize (cidrMask ones bits) = ones := by
  rw [maskSize, cidrMask, if_pos ⟨hbits, h⟩, simpleMaskLength_maskBytes (by omega),
    Option.getD_some]

/-- The mask of the route has the length of the prefix. -/
theorem maskSize_prefixToIPNet (p : Prefix) : maskSize (prefixToIPNet p).mask = p.bits := by
  obtain ⟨addr, bits, hwf⟩ := p
  cases addr with
  | zero => exact hwf.elim
  | v4 a => exact maskSize_cidrMask (.inl rfl) hwf
  | v6 a zone => exact maskSize_cidrMask (.inr rfl) hwf.1

/-- And the width of its family. -/
theorem length_mask_prefixToIPNet (p : Prefix) :
    (prefixToIPNet p).mask.length = p.addr.bitLen / 8 := by
  obtain ⟨addr, bits, hwf⟩ := p
  cases addr with
  | zero => exact hwf.elim
  | v4 a => rw [prefixToIPNet, cidrMask, if_pos ⟨.inl rfl, hwf⟩, length_maskBytes]
  | v6 a zone => rw [prefixToIPNet, cidrMask, if_pos ⟨.inr rfl, hwf.1⟩, length_maskBytes]

theorem bytesEqual_iff (a b : List UInt8) : bytesEqual a b = true ↔ a = b := by
  unfold bytesEqual
  split_ifs with hlen
  · exact iff_of_false id fun h => hlen (congrArg List.length h)
  · rw [not_not] at hlen
    constructor
    · intro hall
      apply List.ext_getElem hlen
      intro i hi hi'
      have hmem : (a[i], b[i]) ∈ a.zip b := List.mem_iff_getElem.mpr ⟨i, by simp [hi, hi'], by simp⟩
      simpa using List.all_eq_true.mp hall _ hmem
    · rintro rfl
      rw [List.all_eq_true]
      intro ⟨x, y⟩ hmem
      obtain ⟨i, hi, hxy⟩ := List.mem_iff_getElem.mp hmem
      rw [List.getElem_zip] at hxy
      obtain ⟨rfl, rfl⟩ := Prod.mk.inj hxy
      exact beq_self_eq_true _

/-- The bytes of an address and its family determine it. -/
theorem addr_eq_of_asSlice {p q : Prefix} (hlen : p.addr.bitLen = q.addr.bitLen)
    (h : p.addr.asSlice = q.addr.asSlice) : p.addr = q.addr := by
  obtain ⟨a, ha, -⟩ | ⟨a, ha, -⟩ := p.addr_cases <;>
    obtain ⟨b, hb, -⟩ | ⟨b, hb, -⟩ := q.addr_cases <;>
      rw [ha, hb] at hlen h ⊢
  · have hbytes := congrArg addrFrom4 (Vector.toList_inj.mp h)
    rwa [addrFrom4_as4, addrFrom4_as4] at hbytes
  · cases hlen
  · cases hlen
  · have hbytes := congrArg addrFrom16 (Vector.toList_inj.mp h)
    rwa [addrFrom16_as16, addrFrom16_as16] at hbytes

theorem length_asSlice (ip : Addr) : ip.asSlice.length = ip.bitLen / 8 := by
  cases ip <;> simp [Addr.asSlice, Addr.bitLen]

/-- The comparison of networks is that of prefixes. -/
theorem ipNetEqual_prefixToIPNet_iff (p q : Prefix) :
    ipNetEqual (prefixToIPNet p) (prefixToIPNet q) = true ↔ p = q := by
  constructor
  · intro h
    obtain ⟨hip, hmask⟩ := Bool.and_eq_true_iff.mp h
    rw [bytesEqual_iff] at hmask
    have hbits : p.bits = q.bits := by
      rw [← maskSize_prefixToIPNet p, hmask, maskSize_prefixToIPNet]
    have hlen := congrArg List.length hmask
    rw [length_mask_prefixToIPNet, length_mask_prefixToIPNet] at hlen
    -- masks of one length, so addresses of one length: the mapped cases of `IP.Equal` are out
    rw [ipEqual, if_pos (by simpa only [prefixToIPNet, length_asSlice] using hlen),
      beq_iff_eq] at hip
    have hfamily : p.addr.bitLen = q.addr.bitLen := by
      obtain ⟨a, ha, -⟩ | ⟨a, ha, -⟩ := p.addr_cases <;>
        obtain ⟨b, hb, -⟩ | ⟨b, hb, -⟩ := q.addr_cases <;> simp_all [Addr.bitLen]
    exact Prefix.eq_of (addr_eq_of_asSlice hfamily hip) hbits
  · rintro rfl
    simp [ipNetEqual, ipEqual, bytesEqual_iff]

/-- What the kernel makes of the destination. -/
theorem destination_eq_some {net : IPNet} {dst : Prefix} (h : destination net = some dst) :
    dst.bits = maskSize net.mask ∧
      ((∃ ip, ∃ h4 : ip.length = 4, to4 net.ip = some ip ∧ dst.addr = addrFrom4 ⟨ip.toArray, h4⟩ ∧
          dst.bits ≤ 32) ∨
        ∃ h16 : net.ip.length = 16, dst.addr = addrFrom16 ⟨net.ip.toArray, h16⟩) := by
  unfold destination at h
  cases hip : to4 net.ip with
  | some ip =>
      simp only [hip] at h
      split_ifs at h with hfit
      obtain rfl := Option.some.inj h
      exact ⟨rfl, .inl ⟨ip, hfit.1, rfl, rfl, hfit.2⟩⟩
  | none =>
      simp only [hip] at h
      split_ifs at h with hfit
      obtain rfl := Option.some.inj h
      exact ⟨rfl, .inr ⟨hfit.1, rfl⟩⟩

/-- A short prefix of a mapped address has host bits. -/
theorem maskedAddr_ne_of_to4 {p : Prefix} {a : BitVec 128} {ip : List UInt8}
    (ha : p.addr = .v6 a "") (hbits : p.bits ≤ 32) (hip : to4 p.addr.asSlice = some ip) :
    p.maskedAddr ≠ p.addr := by
  have hbyte : byteOf (a.extractLsb' 0 64) 4 = 0xff := by
    rw [ha, to4] at hip
    split_ifs at hip with hfour hmapped
    · rw [length_asSlice] at hfour
      exact absurd hfour (by simp [Addr.bitLen])
    · have := congrArg (·[11]?) hmapped.2
      simpa [Addr.asSlice, Addr.as16, Addr.bits128, v4InV6] using this
  have hbit : a.getLsbD 32 = true := by
    have := congrArg (fun b => b.toBitVec.getLsbD 0) hbyte
    simpa [byteOf] using this
  intro hmasked
  rw [Prefix.maskedAddr, ha] at hmasked
  have hclear := congrArg (·.getLsbD 32) (Addr.v6.inj hmasked).1
  simp only [BitVec.getLsbD_shiftLeft, hbit] at hclear
  have : 32 < 128 - p.bits := by omega
  simp [this] at hclear

/-- The bytes of an IPv4 address and the address. -/
theorem addrFrom4_asSlice {ip : Addr} {a : BitVec 32} (ha : ip = .v4 a)
    (h4 : ip.asSlice.length = 4) : addrFrom4 ⟨ip.asSlice.toArray, h4⟩ = ip := by
  subst ha
  exact addrFrom4_as4 a

theorem addrFrom16_asSlice {ip : Addr} {a : BitVec 128} (ha : ip = .v6 a "")
    (h16 : ip.asSlice.length = 16) : addrFrom16 ⟨ip.asSlice.toArray, h16⟩ = ip := by
  subst ha
  exact addrFrom16_as16 a

/-- A destination is the prefix itself, or the IPv4 form of a mapped prefix, which then has
host bits. -/
theorem destination_prefixToIPNet {p dst : Prefix} (h : destination (prefixToIPNet p) = some dst) :
    dst = p ∨ dst.addr.is4 = true ∧ p.addr.is4 = false ∧ p.maskedAddr ≠ p.addr := by
  obtain ⟨hsize, ⟨ip, h4, hip, hdst, hshort⟩ | ⟨h16, hdst⟩⟩ := destination_eq_some h
  all_goals
    rw [maskSize_prefixToIPNet] at hsize
    obtain ⟨a, ha, -⟩ | ⟨a, ha, -⟩ := p.addr_cases
  · obtain rfl : p.addr.asSlice = ip := by
      simpa [to4, prefixToIPNet, length_asSlice, ha, Addr.bitLen] using hip
    exact .inl (Prefix.eq_of (hdst.trans (addrFrom4_asSlice ha h4)) hsize)
  · exact .inr ⟨by rw [hdst]; rfl, by rw [ha]; rfl, maskedAddr_ne_of_to4 ha (hsize ▸ hshort) hip⟩
  · rw [prefixToIPNet, length_asSlice, ha] at h16
    exact absurd h16 (by simp [Addr.bitLen])
  · exact .inl (Prefix.eq_of (hdst.trans (addrFrom16_asSlice ha h16)) hsize)

/-! ## Two starts -/

section Starts

variable {host : Host} {cidr : Prefix} {t t' : RoutingTable}

/-- The local table has a route of this prefix. -/
def RoutingTable.HasLocal (t : RoutingTable) (p : Prefix) : Prop :=
  ∃ r ∈ t.routes, r.table = routeTableLocal ∧ r.dst = p

instance (t : RoutingTable) (p : Prefix) : Decidable (t.HasLocal p) :=
  inferInstanceAs (Decidable (∃ _ ∈ _, _ ∧ _))

/-- The lookup finds the route exactly when the local table has it. -/
theorem any_listed_iff (t : RoutingTable) (p : Prefix) :
    ((t.routes.filter fun r => r.table = routeTableLocal).any fun r =>
      ipNetEqual (prefixToIPNet r.dst) (prefixToIPNet p)) = true ↔ t.HasLocal p := by
  simp only [List.any_eq_true, List.mem_filter, decide_eq_true_eq, ipNetEqual_prefixToIPNet_iff,
    RoutingTable.HasLocal, and_assoc]

/-- A listed prefix has no host bits. -/
theorem RoutingTable.HasLocal.masked {p : Prefix} (h : t.HasLocal p) : p.maskedAddr = p.addr := by
  obtain ⟨r, -, -, rfl⟩ := h
  exact r.masked

/-- With the loopback interface and the listing at hand, the set-up adds the route unless the
prefix is listed. -/
theorem addRouteToLoopback_eq {lo : Nat} (hlo : host.linkByName "lo" = .ok lo)
    (hlist : host.listError = none) (t : RoutingTable) : addRouteToLoopback host cidr t =
      if t.HasLocal cidr then .ok t
      else (host.routeAdd t (loopbackRoute lo (prefixToIPNet cidr))).mapError fun err =>
        s!"add route: {err}" := by
  simp only [addRouteToLoopback, Host.routeListFiltered, hlo, hlist, any_listed_iff]
  congr 1
  cases host.routeAdd t (loopbackRoute lo (prefixToIPNet cidr)) <;> rfl

/-- A start that succeeds has found the route or has added it. -/
theorem addRouteToLoopback_eq_ok (h : addRouteToLoopback host cidr t = .ok t') :
    host.listError = none ∧ ∃ lo, host.linkByName "lo" = .ok lo ∧
      (t.HasLocal cidr ∧ t' = t ∨
        ¬ t.HasLocal cidr ∧ host.routeAdd t (loopbackRoute lo (prefixToIPNet cidr)) = .ok t') := by
  have hlist : host.listError = none := by
    by_contra hsome
    obtain ⟨err, herr⟩ := Option.ne_none_iff_exists'.mp hsome
    unfold addRouteToLoopback Host.routeListFiltered at h
    cases hlo : host.linkByName "lo" <;> simp [hlo, herr] at h
  cases hlo : host.linkByName "lo" with
  | error err => simp [addRouteToLoopback, hlo] at h
  | ok lo =>
      refine ⟨hlist, lo, rfl, ?_⟩
      rw [addRouteToLoopback_eq hlo hlist] at h
      split_ifs at h with hfound
      · exact .inl ⟨hfound, (Except.ok.inj h).symm⟩
      · cases hadd : host.routeAdd t (loopbackRoute lo (prefixToIPNet cidr)) with
        | error err => simp [hadd, Except.mapError] at h
        | ok added =>
            rw [hadd] at h
            exact .inr ⟨hfound, h⟩

/-- An added route stands in front of the others. -/
theorem routeAdd_eq_ok {route : Route} (h : host.routeAdd t route = .ok t') :
    host.refuses route = none ∧
      ∃ dst, destination route.dst = some dst ∧ t'.routes = route.stored dst :: t.routes := by
  unfold Host.routeAdd at h
  cases hdst : destination route.dst with
  | none => simp [hdst] at h
  | some dst =>
      cases hrefuses : host.refuses route with
      | some err => simp [hdst, hrefuses] at h
      | none =>
          simp only [hdst, hrefuses] at h
          split_ifs at h
          exact ⟨rfl, dst, rfl, congrArg RoutingTable.routes (Except.ok.inj h).symm⟩

/-- The same request again is refused. -/
theorem routeAdd_again {route : Route} (h : host.routeAdd t route = .ok t') :
    host.routeAdd t' route = .error "file exists" := by
  obtain ⟨hrefuses, dst, hdst, hroutes⟩ := routeAdd_eq_ok h
  have hexists : (route.stored dst).key ∈ t'.routes.map KernelRoute.key := by
    rw [hroutes]
    exact List.mem_cons_self
  simp only [Host.routeAdd, hdst, hrefuses, dif_pos hexists]

/-- What `RouteAdd` has stored is found under the prefix of the request only if that is
masked. -/
theorem hasLocal_routeAdd_iff {lo : Nat}
    (h : host.routeAdd t (loopbackRoute lo (prefixToIPNet cidr)) = .ok t') :
    t'.HasLocal cidr ↔ cidr.maskedAddr = cidr.addr := by
  refine ⟨RoutingTable.HasLocal.masked, fun hmasked => ?_⟩
  obtain ⟨-, dst, hdst, hroutes⟩ := routeAdd_eq_ok h
  obtain rfl | ⟨-, -, hne⟩ := destination_prefixToIPNet hdst
  · exact ⟨_, hroutes ▸ List.mem_cons_self, rfl, Prefix.eq_of hmasked rfl⟩
  · exact absurd hmasked hne

/-- A start after one that succeeded finds the route, or fails. -/
theorem addRouteToLoopback_again (h : addRouteToLoopback host cidr t = .ok t') :
    addRouteToLoopback host cidr t' =
      if cidr.maskedAddr = cidr.addr then .ok t' else .error "add route: file exists" := by
  obtain ⟨hlist, lo, hlo, ⟨hfound, rfl⟩ | ⟨-, hadd⟩⟩ := addRouteToLoopback_eq_ok h
  · rw [h, if_pos hfound.masked]
  · rw [addRouteToLoopback_eq hlo hlist t', routeAdd_again hadd]
    simp only [hasLocal_routeAdd_iff hadd]
    rfl

end Starts

/-- **Two starts**: after a start that succeeded, the next one succeeds and adds nothing exactly
if the prefix has no host bits. -/
theorem addRouteToLoopback_twice_iff (host : Host) (cidr : Prefix) (t t' : RoutingTable)
    (hfirst : addRouteToLoopback host cidr t = .ok t') :
    addRouteToLoopback host cidr t' = .ok t' ↔ cidr.maskedAddr = cidr.addr := by
  rw [addRouteToLoopback_again hfirst]
  split_ifs with hmasked
  · exact iff_of_true rfl hmasked
  · exact iff_of_false id hmasked

/-- A host that refuses nothing, with loopback interface 1. -/
def Host.plain : Host := ⟨fun _ => .ok 1, none, fun _ => none⟩

def RoutingTable.empty : RoutingTable := ⟨[], List.nodup_nil⟩

/-- A host that refuses nothing adds the route. -/
theorem addRouteToLoopback_plain {cidr dst : Prefix}
    (hdst : destination (prefixToIPNet cidr) = some dst) :
    ∃ t, addRouteToLoopback .plain cidr .empty = .ok t := by
  have hnew : ¬ RoutingTable.empty.HasLocal cidr := by
    rintro ⟨r, hr, -⟩
    cases hr
  rw [addRouteToLoopback_eq rfl rfl, if_neg hnew]
  simp only [Host.routeAdd, Host.plain, loopbackRoute, hdst, RoutingTable.empty, List.map_nil,
    List.not_mem_nil]
  exact ⟨_, rfl⟩

/-- `2001:db8::/64` is found again. -/
theorem addRouteToLoopback_twice_masked :
    let cidr : Prefix := ⟨.v6 0x20010db8000000000000000000000000 "", 64, by decide⟩
    ∃ t, addRouteToLoopback .plain cidr .empty = .ok t ∧
      addRouteToLoopback .plain cidr t = .ok t := by
  intro cidr
  have hdst : destination (prefixToIPNet cidr) = some cidr := by decide +kernel
  obtain ⟨t, hfirst⟩ := addRouteToLoopback_plain hdst
  exact ⟨t, hfirst, (addRouteToLoopback_twice_iff .plain cidr .empty t hfirst).mpr (by decide)⟩

/-- `2001:db8::1/64` is added by the first start, and the second start fails on it. -/
theorem addRouteToLoopback_hostBits :
    let cidr : Prefix := ⟨.v6 0x20010db8000000000000000000000001 "", 64, by decide⟩
    ∃ t, addRouteToLoopback .plain cidr .empty = .ok t ∧
      addRouteToLoopback .plain cidr t = .error "add route: file exists" := by
  intro cidr
  have hdst : destination (prefixToIPNet cidr) = some cidr := by decide +kernel
  obtain ⟨t, hfirst⟩ := addRouteToLoopback_plain hdst
  refine ⟨t, hfirst, ?_⟩
  rw [addRouteToLoopback_again hfirst, if_neg (by decide)]

end Server

end Outway
