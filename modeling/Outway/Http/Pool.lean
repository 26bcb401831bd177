import Outway.Ext
import Outway.Lib.Recency

/-!
# Outway.Http.Pool

The pool of HTTP transports, one for each username extension in use.

`get` keeps the time of the last use with each entry, as a count of the calls, and makes
room by a scan for the smallest.  The scan runs over a Go map, whose order is arbitrary:
every call comes with an order of its own.  Calls are made under the pool's lock, so a
run is a sequence of them.

`Tracks` ties the pool to the history of requests: sorted by last use, its entries are
those of the most recent distinct extensions.
-/

namespace Outway.Http

open Recency

/-! ## The pool -/

/-- `*http.Transport`: which one it is, the extension its `DialContext` connects with, and
its idle limits. -/
structure Transport where
  serial : Nat
  extension : Extension
  maxIdleConns : Nat
  maxIdleConnsPerHost : Nat
  deriving DecidableEq

/-- `transportEntry`. -/
structure Entry where
  transport : Transport
  lastUsed : UInt64
  deriving DecidableEq

/-- `transportPool`; `entries` lists the map, and `made` counts the transports made. -/
structure Pool where
  entries : List (Extension × Entry)
  clock : UInt64
  defaultTransport : Transport
  made : Nat

def maxTransportEntries : Nat := 128

/-- `newTransport`. -/
def newTransport (serial : Nat) (extension : Extension) : Transport where
  serial := serial
  extension := extension
  maxIdleConns := if extension.type = .none then 1024 else 16
  maxIdleConnsPerHost := if extension.type = .none then 128 else 8

/-- `newTransportPool`. -/
def newTransportPool : Pool where
  entries := []
  clock := 0
  defaultTransport := newTransport 0 .noExt
  made := 1

/-- The order in which `range` walks a map. -/
structure Iteration where
  order : List (Extension × Entry) → List (Extension × Entry)
  perm : ∀ entries, (order entries).Perm entries

/-- The scan for the entry used longest ago. -/
def oldest : List (Extension × Entry) → Option (Extension × Entry) → Option (Extension × Entry)
  | [], found => found
  | candidate :: rest, none => oldest rest (some candidate)
  | candidate :: rest, some found =>
      oldest rest (some (if candidate.2.lastUsed < found.2.lastUsed then candidate else found))

namespace Pool

/-- `p.entries[extension]`. -/
def lookup (p : Pool) (extension : Extension) : Option Entry :=
  (p.entries.find? (·.1 = extension)).map Prod.snd

/-- `entry.lastUsed = p.clock`. -/
def touched (extension : Extension) (clock : UInt64) (c : Extension × Entry) : Extension × Entry :=
  if c.1 = extension then (c.1, { c.2 with lastUsed := clock }) else c

/-- The entries after making room for another one. -/
def makeRoom (p : Pool) (it : Iteration) : List (Extension × Entry) :=
  if maxTransportEntries ≤ p.entries.length then
    match oldest (it.order p.entries) none with
    | some (oldestExtension, _) => p.entries.filter (·.1 ≠ oldestExtension)
    | none => p.entries
  else p.entries

/-- `Get`. -/
def get (p : Pool) (it : Iteration) (extension : Extension) : Transport × Pool :=
  if extension.type = .none then (p.defaultTransport, p)
  else
    let clock := p.clock + 1
    match p.lookup extension with
    | some entry =>
        (entry.transport, { p with clock, entries := p.entries.map (touched extension clock) })
    | none =>
        let transport := newTransport p.made extension
        (transport, { p with
          clock
          entries := (extension, ⟨transport, clock⟩) :: p.makeRoom it
          made := p.made + 1 })

/-- The pool after a sequence of calls. -/
def run (p : Pool) : List (Iteration × Extension) → Pool
  | [] => p
  | (it, extension) :: rest => run (p.get it extension).2 rest

end Pool

/-- The extensions that requests ask transports for, latest first. -/
def history (requests : List (Iteration × Extension)) : List Extension :=
  ((requests.map Prod.snd).filter (·.type ≠ .none)).reverse

/-! ## The scan -/

/-- When an entry was last used. -/
def stamp (c : Extension × Entry) : Nat := c.2.lastUsed.toNat

/-- The scan finds an entry of the list, and none was used before it. -/
theorem oldest_spec (l : List (Extension × Entry)) (found : Extension × Entry) :
    ∃ c ∈ found :: l, oldest l (some found) = some c ∧ ∀ x ∈ found :: l, stamp c ≤ stamp x := by
  induction l generalizing found with
  | nil => exact ⟨found, List.mem_cons_self, rfl, by simp⟩
  | cons y rest ih =>
      obtain ⟨c, hmem, hc, hle⟩ := ih (if y.2.lastUsed < found.2.lastUsed then y else found)
      refine ⟨c, ?_, hc, ?_⟩
      · split_ifs at hmem
        · exact List.mem_cons_of_mem _ hmem
        · rcases List.mem_cons.mp hmem with rfl | hmem
          · exact List.mem_cons_self
          · exact List.mem_cons_of_mem _ (List.mem_cons_of_mem _ hmem)
      · simp only [List.forall_mem_cons] at hle ⊢
        split_ifs at hle with hlt
        · rw [UInt64.lt_iff_toNat_lt] at hlt
          exact ⟨hle.1.trans hlt.le, hle⟩
        · rw [UInt64.lt_iff_toNat_lt, not_lt] at hlt
          exact ⟨hle.1, hle.1.trans hlt, hle.2⟩

/-- The scan finds an entry with the smallest stamp. -/
theorem oldest_of_ne_nil {l : List (Extension × Entry)} (hne : l ≠ []) :
    ∃ c ∈ l, oldest l none = some c ∧ ∀ x ∈ l, stamp c ≤ stamp x := by
  obtain ⟨y, rest, rfl⟩ := List.exists_cons_of_ne_nil hne
  exact oldest_spec rest y

/-! ## The entries by last use -/

/-- The entries, used last first, are those of the given extensions. -/
structure Sorted (l entries : List (Extension × Entry)) (keys : List Extension) : Prop where
  perm : l.Perm entries
  keys : l.map Prod.fst = keys
  order : l.Pairwise fun a b => stamp b < stamp a

section Sorted

variable {l entries : List (Extension × Entry)} {keys : List Extension} (h : Sorted l entries keys)
  {e : Extension} {clock : UInt64}
include h

theorem Sorted.length : entries.length = keys.length := by
  rw [← h.perm.length_eq, ← h.keys, List.length_map]

/-- The pool's keys are the most recent ones. -/
theorem Sorted.keys_perm : (entries.map Prod.fst).Perm keys :=
  h.keys ▸ (h.perm.map Prod.fst).symm

/-- A use of an entry moves it to the front. -/
theorem Sorted.touch (hnodup : keys.Nodup) (he : e ∈ keys)
    (hclock : ∀ c ∈ entries, stamp c < clock.toNat) :
    ∃ l', Sorted l' (entries.map (Pool.touched e clock)) (e :: keys.erase e) := by
  rw [← h.keys, List.mem_map] at he
  obtain ⟨⟨e', entry⟩, hmem, rfl⟩ := he
  obtain ⟨front, rest, rfl⟩ := List.append_of_mem hmem
  have hkeys : keys = front.map Prod.fst ++ e' :: rest.map Prod.fst := by
    rw [← h.keys, List.map_append, List.map_cons]
  rw [hkeys, List.nodup_middle, List.nodup_cons, ← List.map_append] at hnodup
  have hothers : ∀ c ∈ front ++ rest, c.1 ≠ e' := by
    intro c hc heq
    exact hnodup.1 (List.mem_map.mpr ⟨c, hc, heq⟩)
  have hsame : (front ++ rest).map (Pool.touched e' clock) = front ++ rest :=
    (List.map_congr_left fun c hc => if_neg (hothers c hc)).trans (List.map_id' _)
  refine ⟨(e', { entry with lastUsed := clock }) :: (front ++ rest), ?_, ?_, ?_⟩
  · refine List.Perm.trans ?_ (h.perm.map _)
    rw [List.map_append, List.map_cons]
    refine List.Perm.trans ?_ List.perm_middle.symm
    rw [← List.map_append, hsame, Pool.touched, if_pos rfl]
  · have hfront : e' ∉ front.map Prod.fst := fun hmem =>
      hnodup.1 (by rw [List.map_append]; exact List.mem_append_left _ hmem)
    rw [hkeys, List.erase_append_right _ hfront, List.erase_cons_head, List.map_cons,
      List.map_append]
  · refine List.pairwise_cons.mpr ⟨fun c hc => ?_, h.order.sublist ?_⟩
    · exact hclock c (h.perm.subset (by simp only [List.mem_append, List.mem_cons] at hc ⊢; tauto))
    · exact List.Sublist.append_left (List.sublist_cons_self _ _) _

/-- The entry used longest ago gives way to a new one. -/
theorem Sorted.dropOldest (hnodup : keys.Nodup) (hne : entries ≠ []) (it : Iteration) :
    ∃ victim, oldest (it.order entries) none = some victim ∧
      Sorted l.dropLast (entries.filter (·.1 ≠ victim.1)) keys.dropLast := by
  have hperm := (it.perm entries).trans h.perm.symm
  have hne' : it.order entries ≠ [] := fun hnil => hne (by simpa [hnil] using it.perm entries)
  have hl : l ≠ [] := fun hnil => hne' (by simpa [hnil] using hperm)
  obtain ⟨c, hmem, hc, hle⟩ := oldest_of_ne_nil hne'
  have hsplit := List.dropLast_append_getLast hl
  have horder := h.order
  rw [← hsplit, List.pairwise_append] at horder
  -- the stamps differ, so the scan finds the last entry
  have hlast : c = l.getLast hl := by
    have hcl : c ∈ l := hperm.subset hmem
    rw [← hsplit, List.mem_append, List.mem_singleton] at hcl
    rcases hcl with hcl | hcl
    · have hlt := horder.2.2 c hcl _ (List.mem_singleton_self _)
      have hmin := hle _ (hperm.symm.subset (List.getLast_mem hl))
      omega
    · exact hcl
  have hkeys : keys = l.dropLast.map Prod.fst ++ [c.1] := by
    rw [← h.keys, hlast, ← List.map_singleton, ← List.map_append, hsplit]
  have hothers : ∀ x ∈ l.dropLast, x.1 ≠ c.1 := by
    intro x hx heq
    rw [hkeys, List.nodup_append] at hnodup
    exact hnodup.2.2 _ (List.mem_map_of_mem hx) _ (List.mem_singleton_self _) heq
  refine ⟨c, hc, ?_, ?_, horder.1⟩
  · refine List.Perm.trans ?_ (h.perm.filter _)
    conv_rhs => rw [← hsplit, List.filter_append, ← hlast]
    rw [List.filter_eq_self.mpr (by simpa using hothers)]
    simp
  · rw [hkeys, List.dropLast_concat]

end Sorted

/-! ## One call -/

/-- The pool holds the entries of the most recent extensions, each with a transport made
for it. -/
structure Tracks (requests : List Extension) (p : Pool) : Prop where
  clock : p.clock.toNat = requests.length
  sorted : ∃ l, Sorted l p.entries ((recent requests).take maxTransportEntries)
  used : ∀ c ∈ p.entries, stamp c ≤ p.clock.toNat
  built : ∀ c ∈ p.entries, c.2.transport.extension = c.1

namespace Pool

variable {p : Pool} {it : Iteration} {e e' : Extension} {t : Transport}

/-- The extensions with an entry. -/
def keys (p : Pool) : List Extension := p.entries.map Prod.fst

/-- The pool has a transport for an extension. -/
def Holds (p : Pool) (e : Extension) (t : Transport) : Prop :=
  ∃ entry, (e, entry) ∈ p.entries ∧ entry.transport = t

/-- An entry that is found is in the pool. -/
theorem lookup_eq_some {entry : Entry} (h : p.lookup e = some entry) : (e, entry) ∈ p.entries := by
  simp only [lookup, Option.map_eq_some_iff] at h
  obtain ⟨⟨e', entry'⟩, hfind, rfl⟩ := h
  have heq : e' = e := by simpa using List.find?_some hfind
  exact heq ▸ List.mem_of_find?_eq_some hfind

/-- A key that is not found is not in it. -/
theorem lookup_eq_none (h : p.lookup e = none) : e ∉ p.keys := by
  simp only [lookup, Option.map_eq_none_iff, List.find?_eq_none, decide_eq_true_eq] at h
  rintro hmem
  obtain ⟨c, hc, rfl⟩ := List.mem_map.mp hmem
  exact h c hc rfl

/-- A request without an extension has the default transport. -/
theorem get_none (h : e.type = .none) : p.get it e = (p.defaultTransport, p) := if_pos h

/-- A call for an extension with an entry. -/
theorem get_hit {entry : Entry} (he : e.type ≠ .none) (h : p.lookup e = some entry) :
    p.get it e = (entry.transport,
      { p with clock := p.clock + 1, entries := p.entries.map (touched e (p.clock + 1)) }) := by
  rw [get, if_neg he, h]

/-- A call for an extension without an entry. -/
theorem get_miss (he : e.type ≠ .none) (h : p.lookup e = none) :
    p.get it e = (newTransport p.made e,
      { p with
        clock := p.clock + 1
        entries := (e, ⟨newTransport p.made e, p.clock + 1⟩) :: p.makeRoom it
        made := p.made + 1 }) := by
  rw [get, if_neg he, h]

/-- Making room adds nothing. -/
theorem makeRoom_subset : p.makeRoom it ⊆ p.entries := by
  unfold makeRoom
  split
  · split
    · exact List.filter_subset_self _
    · exact List.Subset.refl _
  · exact List.Subset.refl _

/-- Making room drops all entries of an extension or none. -/
theorem mem_makeRoom {c : Extension × Entry} (hc : c ∈ p.entries)
    (hmem : c.1 ∈ (p.makeRoom it).map Prod.fst) : c ∈ p.makeRoom it := by
  unfold makeRoom at *
  split
  · rw [if_pos ‹_›] at hmem
    split
    · next hfound =>
        rw [hfound] at hmem
        obtain ⟨c', hc', heq⟩ := List.mem_map.mp hmem
        rw [List.mem_filter] at hc' ⊢
        exact ⟨hc, heq ▸ hc'.2⟩
    · exact hc
  · exact hc

theorem touched_fst (clock : UInt64) (c : Extension × Entry) : (touched e clock c).1 = c.1 := by
  unfold touched
  split <;> rfl

/-- A use leaves the transport as it is. -/
theorem touched_transport (clock : UInt64) (c : Extension × Entry) :
    (touched e clock c).2.transport = c.2.transport := by
  unfold touched
  split <;> rfl

/-- A use of one key leaves the others in the pool. -/
theorem mem_map_touched {l : List (Extension × Entry)} {entry : Entry} (h : (e, entry) ∈ l)
    (clock : UInt64) : (e, (touched e' clock (e, entry)).2) ∈ l.map (touched e' clock) :=
  List.mem_map.mpr ⟨_, h, Prod.ext (touched_fst _ _) rfl⟩

/-- After a call the pool holds the transport that it returned. -/
theorem get_holds (he : e.type ≠ .none) : (p.get it e).2.Holds e (p.get it e).1 := by
  cases h : p.lookup e with
  | some entry =>
      rw [get_hit he h]
      exact ⟨_, mem_map_touched (lookup_eq_some h) _, touched_transport _ _⟩
  | none =>
      rw [get_miss he h]
      exact ⟨_, List.mem_cons_self, rfl⟩

/-- A transport stays as long as its extension has an entry. -/
theorem Holds.get (h : p.Holds e t) (hmem : e ∈ (p.get it e').2.keys) :
    (p.get it e').2.Holds e t := by
  obtain ⟨entry, hentry, rfl⟩ := h
  by_cases he' : e'.type = .none
  · rw [get_none he']
    exact ⟨entry, hentry, rfl⟩
  · cases hlookup : p.lookup e' with
    | some found =>
        rw [get_hit he' hlookup]
        exact ⟨_, mem_map_touched hentry _, touched_transport _ _⟩
    | none =>
        have hne : e ≠ e' := by
          rintro rfl
          exact lookup_eq_none hlookup (List.mem_map_of_mem hentry)
        rw [get_miss he' hlookup] at hmem ⊢
        have hroom := (List.mem_cons.mp hmem).resolve_left hne
        exact ⟨entry, List.mem_cons_of_mem _ (mem_makeRoom hentry hroom), rfl⟩

/-- A call for an extension with an entry returns its transport. -/
theorem Holds.get_eq (h : p.Holds e t) (he : e.type ≠ .none) (hnodup : p.keys.Nodup) :
    (p.get it e).1 = t := by
  obtain ⟨entry, hentry, rfl⟩ := h
  cases hlookup : p.lookup e with
  | none => exact absurd (List.mem_map_of_mem hentry) (lookup_eq_none hlookup)
  | some found =>
      have heq := List.inj_on_of_nodup_map hnodup (lookup_eq_some hlookup) hentry rfl
      rw [get_hit he hlookup, (Prod.mk.inj heq).2]

end Pool

namespace Tracks

variable {requests : List Extension} {p : Pool} (h : Tracks requests p) {it : Iteration}
  {e : Extension}
include h

/-- The keys of a pool are the most recent extensions of its history. -/
theorem keys_perm : p.keys.Perm ((recent requests).take maxTransportEntries) := by
  obtain ⟨l, hl⟩ := h.sorted
  exact hl.keys_perm

/-- No extension is there twice. -/
theorem nodup_keys : p.keys.Nodup :=
  h.keys_perm.nodup_iff.mpr ((nodup_recent requests).sublist (List.take_sublist _ _))

/-- An extension is in the pool when it is among the most recent ones. -/
theorem mem_keys : e ∈ p.keys ↔ e ∈ (recent requests).take maxTransportEntries :=
  h.keys_perm.mem_iff

/-- Making room leaves the entries of the most recent extensions, but one. -/
theorem sorted_makeRoom (it : Iteration) : ∃ l,
    Sorted l (p.makeRoom it) ((recent requests).take (maxTransportEntries - 1)) := by
  obtain ⟨l, hl⟩ := h.sorted
  have hlength := hl.length
  rw [List.length_take] at hlength
  unfold Pool.makeRoom
  by_cases hfull : maxTransportEntries ≤ p.entries.length
  · have hne : p.entries ≠ [] := List.ne_nil_of_length_pos (lt_of_lt_of_le (by decide) hfull)
    have hnodup := (nodup_recent requests).sublist (List.take_sublist maxTransportEntries _)
    obtain ⟨victim, hvictim, hsorted⟩ := hl.dropOldest hnodup hne it
    have hkeys : ((recent requests).take maxTransportEntries).dropLast =
        (recent requests).take (maxTransportEntries - 1) := by
      rw [List.dropLast_eq_take, List.length_take, List.take_take]
      congr 1
      omega
    rw [if_pos hfull, hvictim, ← hkeys]
    exact ⟨_, hsorted⟩
  · have hkeys : (recent requests).take maxTransportEntries =
        (recent requests).take (maxTransportEntries - 1) := by
      rw [List.take_of_length_le (by omega), List.take_of_length_le (by omega)]
    rw [if_neg hfull, ← hkeys]
    exact ⟨l, hl⟩

/-- One call keeps the pool in step with the requests. -/
theorem get (hlt : requests.length + 1 < 2 ^ 64) (it : Iteration) (he : e.type ≠ .none) :
    Tracks (e :: requests) (p.get it e).2 := by
  have hclock : (p.clock + 1).toNat = p.clock.toNat + 1 := by
    have hc := h.clock
    rw [UInt64.toNat_add, UInt64.toNat_one]
    omega
  have hle : p.clock.toNat ≤ (p.clock + 1).toNat := by omega
  cases hlookup : p.lookup e with
  | some entry =>
      have hmem : e ∈ (recent requests).take maxTransportEntries :=
        h.mem_keys.mp (List.mem_map_of_mem (Pool.lookup_eq_some hlookup))
      obtain ⟨l, hl⟩ := h.sorted
      rw [Pool.get_hit he hlookup]
      refine ⟨hclock.trans (congrArg (· + 1) h.clock), ?_, ?_, ?_⟩
      · rw [show maxTransportEntries = 127 + 1 from rfl] at *
        rw [take_recent_cons_of_mem hmem]
        refine hl.touch ((nodup_recent requests).sublist (List.take_sublist _ _)) hmem ?_
        intro c hc
        have := h.used c hc
        omega
      · rw [List.forall_mem_map]
        intro c hc
        have := h.used c hc
        unfold Pool.touched
        split
        · exact le_rfl
        · exact this.trans hle
      · rw [List.forall_mem_map]
        intro c hc
        rw [Pool.touched_transport, Pool.touched_fst]
        exact h.built c hc
  | none =>
      have hmem : e ∉ (recent requests).take maxTransportEntries :=
        fun hmem => Pool.lookup_eq_none hlookup (h.mem_keys.mpr hmem)
      obtain ⟨l, hl⟩ := h.sorted_makeRoom it
      have hused : ∀ c ∈ p.makeRoom it, stamp c ≤ p.clock.toNat :=
        fun c hc => h.used c (Pool.makeRoom_subset hc)
      rw [Pool.get_miss he hlookup]
      refine ⟨hclock.trans (congrArg (· + 1) h.clock), ⟨_ :: l, hl.perm.cons _, ?_, ?_⟩, ?_, ?_⟩
      · rw [show maxTransportEntries = 127 + 1 from rfl] at *
        rw [take_recent_cons_of_not_mem hmem, List.map_cons, hl.keys]
      · refine List.pairwise_cons.mpr ⟨fun c hc => ?_, hl.order⟩
        have := hused c (hl.perm.subset hc)
        simp only [stamp] at this ⊢
        omega
      · refine List.forall_mem_cons.mpr ⟨le_rfl, fun c hc => ?_⟩
        have := hused c hc
        exact this.trans hle
      · exact List.forall_mem_cons.mpr ⟨rfl, fun c hc => h.built c (Pool.makeRoom_subset hc)⟩

end Tracks

/-! ## Runs -/

/-- The empty pool. -/
theorem tracks_newTransportPool : Tracks [] newTransportPool :=
  ⟨rfl, ⟨[], .refl _, rfl, .nil⟩, by simp [newTransportPool], by simp [newTransportPool]⟩

/-- A request counts when it has an extension. -/
theorem history_cons (it : Iteration) (e : Extension) (rest : List (Iteration × Extension)) :
    history ((it, e) :: rest) = history rest ++ if e.type = .none then [] else [e] := by
  by_cases he : e.type = .none <;> simp [history, he]

theorem history_append (done rest : List (Iteration × Extension)) :
    history (done ++ rest) = history rest ++ history done := by
  simp [history]

theorem length_history_le (requests : List (Iteration × Extension)) :
    (history requests).length ≤ requests.length := by
  rw [history, List.length_reverse]
  exact (List.length_filter_le _ _).trans_eq (List.length_map _)

/-- One run after the other. -/
theorem Pool.run_append (p : Pool) (done rest : List (Iteration × Extension)) :
    p.run (done ++ rest) = (p.run done).run rest := by
  induction done generalizing p with
  | nil => rfl
  | cons r done ih => exact ih _

/-- The pool is in step with the requests after every call. -/
theorem Tracks.run {requests : List Extension} {p : Pool} (h : Tracks requests p)
    (calls : List (Iteration × Extension)) (hlt : requests.length + calls.length < 2 ^ 64) :
    Tracks (history calls ++ requests) (p.run calls) := by
  induction calls generalizing requests p with
  | nil => exact h
  | cons call calls ih =>
      obtain ⟨it, e⟩ := call
      rw [List.length_cons] at hlt
      rw [history_cons, List.append_assoc]
      by_cases he : e.type = .none
      · rw [if_pos he, List.nil_append, Pool.run, Pool.get_none he]
        exact ih h (by omega)
      · rw [if_neg he, List.singleton_append]
        exact ih (h.get (by omega) it he) (by rw [List.length_cons]; omega)

theorem defaultTransport_get (p : Pool) (it : Iteration) (e : Extension) :
    (p.get it e).2.defaultTransport = p.defaultTransport := by
  unfold Pool.get
  split
  · rfl
  · split <;> rfl

/-- The default transport stays. -/
theorem defaultTransport_run (p : Pool) (calls : List (Iteration × Extension)) :
    (p.run calls).defaultTransport = p.defaultTransport := by
  induction calls generalizing p with
  | nil => rfl
  | cons call calls ih => exact (ih _).trans (defaultTransport_get _ _ _)

/-- A transport stays in the pool while fewer than 128 other extensions are asked for. -/
theorem holds_run {requests : List Extension} {p : Pool} {e : Extension} {t : Transport}
    (h : Tracks (e :: requests) p) (hholds : p.Holds e t) (calls : List (Iteration × Extension))
    (hlt : requests.length + 1 + calls.length < 2 ^ 64)
    (hfew : ((history calls).toFinset.erase e).card < maxTransportEntries) :
    (p.run calls).Holds e t := by
  induction calls using List.reverseRecOn with
  | nil => exact hholds
  | append_singleton calls call ih =>
      obtain ⟨it, e'⟩ := call
      rw [List.length_append, List.length_singleton] at hlt
      have hsubset : (history calls).toFinset.erase e ⊆
          (history (calls ++ [(it, e')])).toFinset.erase e := by
        refine Finset.erase_subset_erase e fun x hx => ?_
        rw [history_append]
        simp only [List.mem_toFinset, List.mem_append] at hx ⊢
        exact .inr hx
      have hrun := h.run (calls ++ [(it, e')])
        (by rw [List.length_append, List.length_singleton, List.length_cons]; omega)
      have hmem := hrun.mem_keys.mpr (mem_take_recent hfew)
      rw [Pool.run_append] at hmem ⊢
      exact (ih (by omega) ((Finset.card_le_card hsubset).trans_lt hfew)).get hmem

/-- **The transport pool is an LRU map.**  In every sequence of fewer than `2 ^ 64` calls:
after each call the pool holds exactly the 128 most recent distinct extensions; a call
returns a transport made for its extension; a repeated call returns the same transport as
long as fewer than 128 others were asked for in between; and a call without an extension
returns the default transport and changes nothing. -/
theorem transportPool_lru (calls : List (Iteration × Extension)) (hlt : calls.length < 2 ^ 64) :
    (∀ done rest, calls = done ++ rest →
      ((newTransportPool.run done).entries.map Prod.fst).Perm
        ((recent (history done)).take 128)) ∧
    (∀ done it e rest, calls = done ++ (it, e) :: rest → e.type ≠ .none →
      ((newTransportPool.run done).get it e).1.extension = e) ∧
    (∀ done it e between it' rest, calls = done ++ (it, e) :: between ++ (it', e) :: rest →
      e.type ≠ .none → ((history between).toFinset.erase e).card < 128 →
        ((newTransportPool.run (done ++ (it, e) :: between)).get it' e).1 =
          ((newTransportPool.run done).get it e).1) ∧
    (∀ done it e rest, calls = done ++ (it, e) :: rest → e.type = .none →
      (newTransportPool.run done).get it e =
        (newTransportPool.defaultTransport, newTransportPool.run done)) := by
  have htracks (done : List (Iteration × Extension)) (hdone : done.length < 2 ^ 64) :
      Tracks (history done) (newTransportPool.run done) := by
    simpa using tracks_newTransportPool.run done (by simpa using hdone)
  refine ⟨?_, ?_, ?_, ?_⟩
  · rintro done rest rfl
    rw [List.length_append] at hlt
    exact (htracks done (by omega)).keys_perm
  · rintro done it e rest rfl he
    rw [List.length_append, List.length_cons] at hlt
    have hdone := htracks done (by omega)
    have hlen := length_history_le done
    have hbuilt := (hdone.get (by omega) it he).built
    obtain ⟨entry, hentry, heq⟩ : ((newTransportPool.run done).get it e).2.Holds e
        ((newTransportPool.run done).get it e).1 := Pool.get_holds he
    rw [← heq]
    exact hbuilt _ hentry
  · rintro done it e between it' rest rfl he hfew
    simp only [List.length_append, List.length_cons] at hlt
    have hdone := htracks done (by omega)
    have hlen := length_history_le done
    have hnext := hdone.get (by omega) it he
    have hstays := holds_run hnext (Pool.get_holds he) between (by omega) hfew
    have hrun := hnext.run between (by rw [List.length_cons]; omega)
    rw [Pool.run_append]
    exact hstays.get_eq he hrun.nodup_keys
  · rintro done it e rest rfl he
    rw [Pool.get_none he, defaultTransport_run]

/-- Three calls: a session, a range and the session again. -/
theorem transportPool_lru_again :
    let it : Iteration := ⟨id, fun _ => .refl _⟩
    let session : Extension := ⟨.session, 7⟩
    let range : Extension := ⟨.range, 7⟩
    ([(it, session), (it, range), (it, session)].length < 2 ^ 64) ∧
      ((newTransportPool.run [(it, session), (it, range)]).get it session).1 =
        (newTransportPool.get it session).1 := by
  intro it session range
  have hlt : [(it, session), (it, range), (it, session)].length < 2 ^ 64 := by
    show 3 < 2 ^ 64
    decide
  exact ⟨hlt, (transportPool_lru _ hlt).2.2.1 [] it session [(it, range)] it [] rfl
    (by decide) (by decide)⟩

end Outway.Http
