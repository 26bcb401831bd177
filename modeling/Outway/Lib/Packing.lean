import Mathlib

/-!
# Outway.Lib.Packing

Packing a list of items in order into groups, each as long as two limits allow: a
number of items and a total size.

`groups_uniform` says how the groups of a list look whose items have one size, the last
one at most that size: full groups until the rest fits.  `cut` is the other direction,
splitting data into pieces of one size.
-/

namespace Packing

variable {α β : Type*}

/-! ## Greedy groups -/

/-- How large items are, how many a group may hold and how large it may be. -/
structure Limits (α : Type*) where
  len : α → Nat
  count : Nat
  total : Nat

namespace Limits

variable (L : Limits α)

/-- The size of a group. -/
def size (group : List α) : Nat := (group.map L.len).sum

@[simp] theorem size_nil : L.size [] = 0 := rfl

@[simp] theorem size_cons (x : α) (l : List α) : L.size (x :: l) = L.len x + L.size l := rfl

@[simp] theorem size_append (l l' : List α) : L.size (l ++ l') = L.size l + L.size l' := by
  simp [size]

/-- The size of packets that are all of one length. -/
theorem size_of_uniform {n : Nat} {l : List α} (h : ∀ x ∈ l, L.len x = n) :
    L.size l = l.length * n := by
  rw [size, List.map_congr_left h, List.map_const', List.sum_replicate, smul_eq_mul]

/-- How many items a group holds when it is filled from the front of a list, starting
from `taken` items of size `total`. -/
def fit : List α → Nat → Nat → Nat
  | [], _, taken => taken
  | x :: rest, total, taken =>
      if taken < L.count ∧ total + L.len x ≤ L.total then fit rest (total + L.len x) (taken + 1)
      else taken

/-- The list cut into groups. -/
def groups (l : List α) : List (List α) :=
  if _h : L.fit l 0 0 = 0 then []
  else l.take (L.fit l 0 0) :: groups (l.drop (L.fit l 0 0))
termination_by l.length
decreasing_by
  cases l with
  | nil => exact absurd rfl _h
  | cons x rest => simp only [List.length_drop, List.length_cons]; omega

variable {L} {x : α} {l front : List α} {total taken : Nat}

/-- A group takes no more than there is. -/
theorem fit_le (l : List α) (total taken : Nat) : L.fit l total taken ≤ taken + l.length := by
  induction l generalizing total taken with
  | nil => exact le_rfl
  | cons x rest ih =>
      rw [fit, List.length_cons]
      split_ifs
      · have := ih (total + L.len x) (taken + 1)
        omega
      · omega

/-- Nor more than its count. -/
theorem fit_le_count (h : taken ≤ L.count) : L.fit l total taken ≤ L.count := by
  induction l generalizing total taken with
  | nil => exact h
  | cons x rest ih =>
      rw [fit]
      split_ifs with hfits
      · exact ih hfits.1
      · exact h

/-- A packet that fits at all is taken. -/
theorem fit_cons_pos (hcount : 0 < L.count) (hx : L.len x ≤ L.total) :
    0 < L.fit (x :: l) 0 0 := by
  have hmono (l : List α) (total taken : Nat) : taken ≤ L.fit l total taken := by
    induction l generalizing total taken with
    | nil => exact le_rfl
    | cons x rest ih =>
        rw [fit]
        split_ifs
        · exact (Nat.le_succ _).trans (ih _ _)
        · exact le_rfl
  rw [fit, if_pos ⟨hcount, by omega⟩]
  exact hmono _ _ _

/-- Items that fit are all taken. -/
theorem fit_append (hcount : taken + front.length ≤ L.count)
    (htotal : total + L.size front ≤ L.total) :
    L.fit (front ++ l) total taken = L.fit l (total + L.size front) (taken + front.length) := by
  induction front generalizing total taken with
  | nil => rfl
  | cons x rest ih =>
      rw [size_cons] at htotal
      rw [List.length_cons] at hcount
      rw [List.cons_append, fit, if_pos ⟨by omega, by omega⟩, ih (by omega) (by omega), size_cons,
        List.length_cons]
      congr 1 <;> omega

/-! ## The groups of a list -/

/-- The first group, and the groups of the rest. -/
theorem groups_cons (hcount : 0 < L.count) (hx : L.len x ≤ L.total) :
    L.groups (x :: l) = (x :: l).take (L.fit (x :: l) 0 0) ::
      L.groups ((x :: l).drop (L.fit (x :: l) 0 0)) := by
  rw [groups, dif_neg (fit_cons_pos hcount hx).ne']

@[simp] theorem groups_nil : L.groups [] = [] := by
  rw [groups]
  rfl

/-- A list whose items fit one by one is partitioned in order. -/
theorem flatten_groups (hcount : 0 < L.count) (l : List α) (hl : ∀ x ∈ l, L.len x ≤ L.total) :
    (L.groups l).flatten = l := by
  induction l using groups.induct L with
  | case1 l h =>
      cases l with
      | nil => simp
      | cons x rest =>
          exact absurd h (fit_cons_pos hcount (hl x List.mem_cons_self)).ne'
  | case2 l h ih =>
      rw [groups, dif_neg h, List.flatten_cons, ih fun x hx => hl x (List.mem_of_mem_drop hx),
        List.take_append_drop]

/-- No group is empty. -/
theorem groups_ne_nil (l : List α) : ∀ g ∈ L.groups l, g ≠ [] := by
  induction l using groups.induct L with
  | case1 l h => simp [groups, h]
  | case2 l h ih =>
      rw [groups, dif_neg h]
      intro g hg
      rcases List.mem_cons.mp hg with rfl | hg
      · cases l with
        | nil => exact absurd rfl h
        | cons x rest => simpa using h
      · exact ih g hg

/-- No group is longer than the count. -/
theorem length_groups_le (l : List α) : ∀ g ∈ L.groups l, g.length ≤ L.count := by
  induction l using groups.induct L with
  | case1 l h => simp [groups, h]
  | case2 l h ih =>
      rw [groups, dif_neg h]
      intro g hg
      rcases List.mem_cons.mp hg with rfl | hg
      · exact (List.length_take_le _ _).trans (fit_le_count (Nat.zero_le _))
      · exact ih g hg

/-! ## Lists of one size -/

variable (L)

/-- How many items of size `n` a group holds. -/
def perGroup (n : Nat) : Nat := min L.count (L.total / n)

/-- The rest of a list, `r` items of size `n` and a last one of size `last`, fits one group. -/
def Ends (n r last : Nat) : Prop :=
  r < L.perGroup n ∨
    r = L.perGroup n ∧ L.perGroup n < L.count ∧ L.perGroup n * n + last ≤ L.total

instance (n r last : Nat) : Decidable (L.Ends n r last) := inferInstanceAs (Decidable (_ ∨ _))

variable {L} {n : Nat}

/-- A group has room for at least one packet. -/
theorem perGroup_pos (hcount : 0 < L.count) (hn : 0 < n) (hfits : n ≤ L.total) :
    0 < L.perGroup n :=
  lt_min hcount (Nat.div_pos hfits hn)

theorem le_of_not_ends {r last : Nat} (h : ¬ L.Ends n r last) : L.perGroup n ≤ r :=
  not_lt.mp fun hlt => h (.inl hlt)

/-- A full group is within the total. -/
theorem perGroup_mul_le : L.perGroup n * n ≤ L.total :=
  (Nat.mul_le_mul_right n (min_le_right _ _)).trans (Nat.div_mul_le_self _ _)

/-- One more would not be. -/
theorem total_lt_of_perGroup_lt (hn : 0 < n) (h : L.perGroup n < L.count) :
    L.total < (L.perGroup n + 1) * n := by
  have hdiv : L.perGroup n = L.total / n := by
    unfold perGroup at *
    omega
  rw [hdiv, Nat.mul_comm]
  exact Nat.lt_mul_div_succ _ hn

section Uniform

variable {full : List α} {last : α} (hfull : ∀ x ∈ full, L.len x = n)
include hfull

/-- When the rest fits, it is one group. -/
theorem groups_of_ends (hlast : L.len last ≤ n) (h : L.Ends n full.length (L.len last)) :
    L.groups (full ++ [last]) = [full ++ [last]] := by
  have hmul : L.perGroup n * n ≤ L.total := perGroup_mul_le
  have hle : full.length ≤ L.perGroup n := by
    rcases h with h | h
    · exact h.le
    · exact h.1.le
  have hsize : L.size full = full.length * n := L.size_of_uniform hfull
  have hmul' : full.length * n ≤ L.perGroup n * n := Nat.mul_le_mul_right n hle
  have hroom : full.length < L.count ∧ L.size full + L.len last ≤ L.total := by
    rw [hsize]
    rcases h with h | ⟨h, hlt, hroom⟩
    · have hnext : (full.length + 1) * n ≤ L.perGroup n * n := Nat.mul_le_mul_right n h
      rw [Nat.succ_mul] at hnext
      exact ⟨h.trans_le (min_le_left _ _), by omega⟩
    · rw [h]
      exact ⟨hlt, hroom⟩
  have hfit : L.fit (full ++ [last]) 0 0 = (full ++ [last]).length := by
    rw [fit_append (by omega) (by omega), fit, if_pos (by omega), fit, Nat.zero_add,
      List.length_append, List.length_singleton]
  rw [groups, hfit, dif_neg (by simp), List.take_length, List.drop_length, groups_nil]

/-- Otherwise the next group is full. -/
theorem groups_of_not_ends (hcount : 0 < L.count) (hn : 0 < n) (hfits : n ≤ L.total)
    (h : ¬ L.Ends n full.length (L.len last)) :
    L.groups (full ++ [last]) =
      full.take (L.perGroup n) :: L.groups (full.drop (L.perGroup n) ++ [last]) := by
  have hpos := perGroup_pos hcount hn hfits
  have hmul : L.perGroup n * n ≤ L.total := perGroup_mul_le
  have hle : L.perGroup n ≤ full.length := le_of_not_ends h
  have htake : (full.take (L.perGroup n)).length = L.perGroup n := List.length_take_of_le hle
  have hsize : L.size (full.take (L.perGroup n)) = L.perGroup n * n := by
    rw [L.size_of_uniform fun x hx => hfull x (List.mem_of_mem_take hx), htake]
  -- the item behind a full group does not fit into it
  have hstop : L.fit (full.drop (L.perGroup n) ++ [last]) (L.perGroup n * n) (L.perGroup n) =
      L.perGroup n := by
    cases hdrop : full.drop (L.perGroup n) with
    | nil =>
        have hlen : full.length = L.perGroup n :=
          le_antisymm (List.drop_eq_nil_iff.mp hdrop) hle
        rw [List.nil_append, fit, if_neg]
        exact fun hroom => h (.inr ⟨hlen, hroom⟩)
    | cons y rest =>
        have hy : L.len y = n := hfull y (List.mem_of_mem_drop (hdrop ▸ List.mem_cons_self))
        rw [List.cons_append, fit, if_neg]
        rintro ⟨hlt, hroom⟩
        have hmax := total_lt_of_perGroup_lt hn hlt
        rw [Nat.succ_mul] at hmax
        omega
  have hfit : L.fit (full ++ [last]) 0 0 = L.perGroup n := by
    conv_lhs => rw [← List.take_append_drop (L.perGroup n) full, List.append_assoc]
    rw [fit_append (by rw [htake, Nat.zero_add]; exact min_le_left _ _) (by rw [hsize]; omega),
      htake, hsize, Nat.zero_add, Nat.zero_add, hstop]
  rw [groups, hfit, dif_neg hpos.ne', List.take_append_of_le_length hle,
    List.drop_append_of_le_length hle]

end Uniform

/-- Induction over a list of one size, group by group. -/
theorem uniform_induction {P : List α → Prop} (hcount : 0 < L.count) (hn : 0 < n)
    (hfits : n ≤ L.total) (last : Nat)
    (ends : ∀ full, L.Ends n full.length last → P full)
    (step : ∀ full, ¬ L.Ends n full.length last → P (full.drop (L.perGroup n)) → P full)
    (full : List α) : P full := by
  have hpos := perGroup_pos hcount hn hfits
  induction hlen : full.length using Nat.strong_induction_on generalizing full with
  | _ len ih =>
      by_cases h : L.Ends n full.length last
      · exact ends full h
      · have hle : L.perGroup n ≤ full.length := le_of_not_ends h
        exact step full h (ih _ (by rw [List.length_drop]; omega) _ rfl)

/-! ## The largest group -/

section Largest

variable (L)

/-- Whether the groups of `r` items of size `n` and a last item keep a bound of their own:
the full groups, the rest, and the group to which the last item is added though it is full. -/
def Bounded (n r last bound : Nat) : Prop :=
  (L.perGroup n ≤ r → L.perGroup n * n ≤ bound) ∧
    (¬ L.perGroup n ∣ r → r % L.perGroup n * n + last ≤ bound) ∧
    (L.perGroup n ∣ r → L.perGroup n < L.count → L.perGroup n * n + last ≤ L.total →
      L.perGroup n * n + last ≤ bound)

instance (n r last bound : Nat) : Decidable (L.Bounded n r last bound) :=
  inferInstanceAs (Decidable (_ ∧ _ ∧ _))

variable {L}

/-- The last packets go into one group. -/
theorem bounded_of_ends {r last bound : Nat} (hr : 0 < r) (h : L.Ends n r last) :
    L.Bounded n r last bound ↔ r * n + last ≤ bound := by
  rcases h with h | ⟨rfl, hlt, hroom⟩
  · have hdvd : ¬ L.perGroup n ∣ r := Nat.not_dvd_of_pos_of_lt hr h
    simp only [Bounded, hdvd, Nat.mod_eq_of_lt h, not_le.mpr h, not_false_eq_true, false_imp_iff,
      true_imp_iff, true_and, and_true]
  · simp only [Bounded, dvd_refl, not_true_eq_false, le_refl, false_imp_iff, true_imp_iff, hlt,
      hroom, true_and]
    omega

/-- Before that, a full group is split off. -/
theorem bounded_of_not_ends {r last bound : Nat} (hr : L.perGroup n < r) :
    L.Bounded n r last bound ↔
      L.perGroup n * n ≤ bound ∧ L.Bounded n (r - L.perGroup n) last bound := by
  have hmod : (r - L.perGroup n) % L.perGroup n = r % L.perGroup n :=
    (Nat.mod_eq_sub_mod hr.le).symm
  have hdvd : L.perGroup n ∣ r - L.perGroup n ↔ L.perGroup n ∣ r := by
    rw [Nat.dvd_iff_mod_eq_zero, Nat.dvd_iff_mod_eq_zero, hmod]
  simp only [Bounded, hmod, hdvd, hr.le, true_imp_iff]
  tauto

/-- **The largest group** of a list of one size. -/
theorem size_groups_le_iff (hcount : 0 < L.count) (hn : 0 < n) (hfits : n ≤ L.total)
    {last : α} (hlast : L.len last ≤ n) {bound : Nat} (hbound : L.len last ≤ bound)
    (full : List α) (hfull : ∀ x ∈ full, L.len x = n) (hne : full ≠ []) :
    (∀ g ∈ L.groups (full ++ [last]), L.size g ≤ bound) ↔
      L.Bounded n full.length (L.len last) bound := by
  have hpos := perGroup_pos hcount hn hfits
  induction full using uniform_induction hcount hn hfits (L.len last) with
  | ends full h =>
      rw [groups_of_ends hfull hlast h, bounded_of_ends (List.length_pos_iff.mpr hne) h,
        ← L.size_of_uniform hfull]
      simp only [List.mem_singleton, forall_eq, size_append, size_cons, size_nil, Nat.add_zero]
  | step full h ih =>
      have hle : L.perGroup n ≤ full.length := le_of_not_ends h
      have htake : L.size (full.take (L.perGroup n)) = L.perGroup n * n := by
        rw [L.size_of_uniform fun x hx => hfull x (List.mem_of_mem_take hx),
          List.length_take_of_le hle]
      rw [groups_of_not_ends hfull hcount hn hfits h, List.forall_mem_cons, htake]
      by_cases hdrop : full.drop (L.perGroup n) = []
      · -- the last item is a group of its own
        have hlen : full.length = L.perGroup n := le_antisymm (List.drop_eq_nil_iff.mp hdrop) hle
        have hroom : ¬ (L.perGroup n < L.count ∧ L.perGroup n * n + L.len last ≤ L.total) :=
          fun hroom => h (.inr ⟨hlen, hroom⟩)
        have hnil : ∀ x ∈ ([] : List α), L.len x = n := by simp
        have halone : L.groups ([] ++ [last]) = [[last]] := groups_of_ends hnil hlast (.inl hpos)
        rw [hdrop, halone, hlen]
        simp only [Bounded, dvd_refl, le_refl, not_true_eq_false, false_imp_iff, true_imp_iff,
          List.mem_singleton, forall_eq, size_cons, size_nil, Nat.add_zero]
        tauto
      · have hlt : L.perGroup n < full.length := by
          rw [List.drop_eq_nil_iff] at hdrop
          omega
        have hrest : (∀ g ∈ L.groups (full.drop (L.perGroup n) ++ [last]), L.size g ≤ bound) ↔ _ :=
          ih (fun x hx => hfull x (List.mem_of_mem_drop hx)) hdrop
        rw [hrest, List.length_drop, bounded_of_not_ends hlt]

end Largest

end Limits

/-! ## Cutting data -/

/-- Data cut into pieces of `k` items, the last possibly shorter; data of at most `k`
items, or any data when `k` is 0, stays one piece. -/
def cut (k : Nat) (data : List β) : List (List β) :=
  if 0 < k ∧ k < data.length then data.take k :: cut k (data.drop k) else [data]
termination_by data.length
decreasing_by simp only [List.length_drop]; omega

/-- Pieces of `k` items and a last one are what the data is cut into. -/
theorem cut_flatten_append {k : Nat} {pieces : List (List β)} {last : List β}
    (hpieces : ∀ p ∈ pieces, p.length = k) (hlast : last.length ≤ k) (hne : last ≠ []) :
    cut k (pieces.flatten ++ last) = pieces ++ [last] := by
  have hpos : 0 < last.length := List.length_pos_iff.mpr hne
  induction pieces with
  | nil => rw [List.flatten_nil, List.nil_append, cut, if_neg (by omega), List.nil_append]
  | cons p rest ih =>
      have hp : p.length = k := hpieces p List.mem_cons_self
      rw [cut, if_pos, List.flatten_cons, List.append_assoc, List.take_left' hp, List.drop_left' hp,
        ih fun q hq => hpieces q (List.mem_cons_of_mem _ hq), List.cons_append]
      simp only [List.flatten_cons, List.length_append]
      omega

/-- Without a last piece there are only the full ones. -/
theorem cut_flatten {k : Nat} (hk : 0 < k) {pieces : List (List β)} (hne : pieces ≠ [])
    (hpieces : ∀ p ∈ pieces, p.length = k) : cut k pieces.flatten = pieces := by
  have hlast := hpieces _ (List.getLast_mem hne)
  have hsplit := List.dropLast_append_getLast hne
  have hcut := cut_flatten_append (fun p hp => hpieces p (List.dropLast_subset _ hp)) hlast.le
    (List.ne_nil_of_length_pos (by omega))
  rw [hsplit] at hcut
  rwa [← hsplit, List.flatten_append, List.flatten_singleton, hsplit]

/-! ## Cutting groups -/

section Groups

variable {L : Limits α} {n k : Nat} {payload : α → List β}
  (hlen : ∀ x, L.len x = (payload x).length) (hk : k = n ∨ k = 0 ∧ n = L.total) (hn : 0 < n)
include hlen hk hn

/-- A group of full items is cut into them. -/
theorem cut_full {group : List α} (hne : group ≠ []) (hgroup : ∀ x ∈ group, L.len x = n)
    (hsize : L.size group ≤ L.total) :
    cut k (group.flatMap payload) = group.map payload := by
  rcases hk with rfl | ⟨rfl, rfl⟩
  · refine cut_flatten hn (by simpa using hne) ?_
    simp only [List.forall_mem_map]
    exact fun x hx => (hlen x).symm.trans (hgroup x hx)
  · -- a single item
    rw [L.size_of_uniform hgroup] at hsize
    have hone : group.length ≤ 1 := Nat.le_of_mul_le_mul_right (by omega) hn
    obtain ⟨x, rfl⟩ := List.length_eq_one_iff.mp
      (le_antisymm hone (List.length_pos_iff.mpr hne))
    rw [cut, if_neg (by omega)]
    simp

/-- A group that ends in the last item: an empty one leaves no piece, unless it is alone. -/
theorem cut_last {full : List α} {last : α} (hfull : ∀ x ∈ full, L.len x = n)
    (hlast : L.len last ≤ n) (hsize : L.size (full ++ [last]) ≤ L.total) :
    cut k ((full ++ [last]).flatMap payload) =
      if 0 < L.len last ∨ full = [] then (full ++ [last]).map payload else full.map payload := by
  have hflat : (full ++ [last]).flatMap payload = (full.map payload).flatten ++ payload last := by
    simp [List.flatMap_def]
  rw [L.size_append, L.size_of_uniform hfull, L.size_cons, L.size_nil, Nat.add_zero] at hsize
  by_cases hnil : full = []
  · have hone : ¬ (0 < k ∧ k < (payload last).length) := by
      rw [← hlen]
      omega
    rw [if_pos (.inr hnil), hflat, hnil, List.map_nil, List.flatten_nil, List.nil_append, cut,
      if_neg hone]
    rfl
  · have hpos : 0 < full.length := List.length_pos_iff.mpr hnil
    by_cases hempty : L.len last = 0
    · have hlast' : payload last = [] := List.length_eq_zero_iff.mp ((hlen last).symm.trans hempty)
      have hfits : L.size full ≤ L.total := by
        rw [L.size_of_uniform hfull]
        omega
      rw [if_neg (by simp [hempty, hnil]), hflat, hlast', List.append_nil, ← List.flatMap_def,
        cut_full hlen hk hn hnil hfull hfits]
    · -- a last item that is not empty cannot follow an item as large as a group
      have hkn : k = n := by
        rcases hk with h | ⟨-, rfl⟩
        · exact h
        · have hle : 1 * L.total ≤ full.length * L.total := Nat.mul_le_mul_right _ hpos
          omega
      rw [if_pos (.inl (by omega)), hflat, hkn, cut_flatten_append, List.map_append]
      · rfl
      · simp only [List.forall_mem_map]
        exact fun x hx => (hlen x).symm.trans (hfull x hx)
      · rw [← hlen]
        exact hlast
      · rw [← List.length_pos_iff, ← hlen]
        omega

/-- **Cutting the groups** of a list of one size gives the items back, without an empty
last item, which is kept only when the groups before it are full by their number. -/
theorem cut_groups (hcount : 0 < L.count) (hfits : n ≤ L.total) {last : α}
    (hlast : L.len last ≤ n) (full : List α) (hfull : ∀ x ∈ full, L.len x = n) (hne : full ≠ []) :
    (L.groups (full ++ [last])).flatMap (fun g => cut k (g.flatMap payload)) =
      if 0 < L.len last ∨ L.perGroup n = L.count ∧ L.count ∣ full.length
      then (full ++ [last]).map payload else full.map payload := by
  have hpos := Limits.perGroup_pos hcount hn hfits
  have hmul : L.perGroup n * n ≤ L.total := Limits.perGroup_mul_le
  induction full using Limits.uniform_induction hcount hn hfits (L.len last) with
  | ends full h =>
      have hlen' : 0 < full.length := List.length_pos_iff.mpr hne
      have hdvd : ¬ (L.perGroup n = L.count ∧ L.count ∣ full.length) := by
        rintro ⟨hm, hdvd⟩
        have := Nat.le_of_dvd hlen' hdvd
        unfold Limits.Ends at h
        omega
      have hroom : full.length * n + L.len last ≤ L.total := by
        rcases h with h | ⟨h, -, hroom⟩
        · have hnext : (full.length + 1) * n ≤ L.perGroup n * n := Nat.mul_le_mul_right n h
          rw [Nat.succ_mul] at hnext
          omega
        · rw [h]
          exact hroom
      have hsize : L.size (full ++ [last]) ≤ L.total := by
        rw [L.size_append, L.size_of_uniform hfull]
        exact hroom
      rw [Limits.groups_of_ends hfull hlast h, List.flatMap_singleton,
        cut_last hlen hk hn hfull hlast hsize]
      simp only [hne, hdvd]
  | step full h ih =>
      have hle : L.perGroup n ≤ full.length := Limits.le_of_not_ends h
      have htake : L.size (full.take (L.perGroup n)) ≤ L.total := by
        rw [L.size_of_uniform fun x hx => hfull x (List.mem_of_mem_take hx),
          List.length_take_of_le hle]
        exact hmul
      have hne' : full.take (L.perGroup n) ≠ [] := by
        simp [List.take_eq_nil_iff, hpos.ne', hne]
      rw [Limits.groups_of_not_ends hfull hcount hn hfits h, List.flatMap_cons,
        cut_full hlen hk hn hne' (fun x hx => hfull x (List.mem_of_mem_take hx)) htake]
      by_cases hdrop : full.drop (L.perGroup n) = []
      · -- the last item is a group of its own
        have heq : full.length = L.perGroup n := le_antisymm (List.drop_eq_nil_iff.mp hdrop) hle
        have hkept : 0 < L.len last ∨ L.perGroup n = L.count ∧ L.count ∣ full.length := by
          have hmax : L.perGroup n ≤ L.count := min_le_left _ _
          rw [heq]
          by_contra hcon
          have hlt : L.perGroup n ≠ L.count := fun hm => hcon (.inr ⟨hm, hm ▸ dvd_refl _⟩)
          exact h (.inr ⟨heq, by omega, by omega⟩)
        have hnil : ∀ x ∈ ([] : List α), L.len x = n := by simp
        have halone : L.groups ([] ++ [last]) = [[] ++ [last]] :=
          Limits.groups_of_ends hnil hlast (.inl hpos)
        rw [if_pos hkept, hdrop, halone, List.flatMap_singleton,
          cut_last hlen hk hn hnil hlast (by simpa using hlast.trans hfits),
          if_pos (.inr rfl), ← List.map_append, List.take_of_length_le heq.le, List.nil_append]
      · have hrest : (L.groups (full.drop (L.perGroup n) ++ [last])).flatMap
            (fun g => cut k (g.flatMap payload)) = _ :=
          ih (fun x hx => hfull x (List.mem_of_mem_drop hx)) hdrop
        have hdvd : L.perGroup n = L.count ∧ L.count ∣ (full.drop (L.perGroup n)).length ↔
            L.perGroup n = L.count ∧ L.count ∣ full.length := by
          rw [List.length_drop]
          refine and_congr_right fun hm => ?_
          rw [Nat.dvd_iff_mod_eq_zero, Nat.dvd_iff_mod_eq_zero, ← hm, ← Nat.mod_eq_sub_mod hle]
        simp only [hrest, hdvd]
        split_ifs
        · rw [← List.map_append, ← List.append_assoc, List.take_append_drop]
        · rw [← List.map_append, List.take_append_drop]

end Groups

end Packing
