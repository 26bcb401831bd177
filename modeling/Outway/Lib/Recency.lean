import Mathlib

/-!
# Outway.Lib.Recency

The distinct keys of a history, most recent first.

A history lists its keys from the latest to the oldest.  A cache that keeps the keys used
last holds the front of `recent`; the lemmas say how that front changes with one more use,
and how long a key stays in it.
-/

namespace Recency

variable {κ : Type*} [DecidableEq κ]

/-- The distinct keys of a history, most recent first. -/
def recent : List κ → List κ
  | [] => []
  | k :: older => k :: (recent older).erase k

/-- No key is there twice. -/
theorem nodup_recent (history : List κ) : (recent history).Nodup := by
  induction history with
  | nil => exact List.nodup_nil
  | cons k older ih => exact List.nodup_cons.mpr ⟨ih.not_mem_erase, ih.erase k⟩

/-- All keys of the history are there. -/
theorem mem_recent {history : List κ} {k : κ} : k ∈ recent history ↔ k ∈ history := by
  induction history with
  | nil => rfl
  | cons k' older ih =>
      by_cases h : k = k'
      · simp [recent, h]
      · simp [recent, h, List.mem_erase_of_ne, ih]

/-! ## One more use -/

section Use

variable {history : List κ} {k : κ} {n : Nat}

/-- Taking out one of the first keys. -/
theorem take_erase_of_mem {l : List κ} (h : k ∈ l.take (n + 1)) :
    (l.erase k).take n = (l.take (n + 1)).erase k := by
  induction l generalizing n with
  | nil => simp at h
  | cons x rest ih =>
      by_cases hx : x = k
      · subst hx
        simp
      · cases n with
        | zero => simp [Ne.symm hx] at h
        | succ n =>
            have hrest : k ∈ rest.take (n + 1) := by simpa [Ne.symm hx] using h
            rw [List.take_succ_cons, List.erase_cons_tail (by simp [hx]),
              List.erase_cons_tail (by simp [hx]), List.take_succ_cons, ih hrest]

/-- Taking out a later one. -/
theorem take_erase_of_not_mem {l : List κ} (h : k ∉ l.take (n + 1)) :
    (l.erase k).take n = l.take n := by
  induction l generalizing n with
  | nil => rfl
  | cons x rest ih =>
      have hx : x ≠ k := fun hx => h (by simp [hx])
      cases n with
      | zero => simp
      | succ n =>
          have hrest : k ∉ rest.take (n + 1) := fun hmem => h (by simp [hmem])
          rw [List.erase_cons_tail (by simp [hx]), List.take_succ_cons, List.take_succ_cons,
            ih hrest]

/-- A key in front moves to the front. -/
theorem take_recent_cons_of_mem (h : k ∈ (recent history).take (n + 1)) :
    (recent (k :: history)).take (n + 1) = k :: ((recent history).take (n + 1)).erase k := by
  rw [recent, List.take_succ_cons, take_erase_of_mem h]

/-- Another key pushes the last one out. -/
theorem take_recent_cons_of_not_mem (h : k ∉ (recent history).take (n + 1)) :
    (recent (k :: history)).take (n + 1) = k :: (recent history).take n := by
  rw [recent, List.take_succ_cons, take_erase_of_not_mem h]

end Use

/-! ## How long a key stays -/

theorem takeWhile_erase {p : κ → Bool} {k : κ} (hk : p k = true) (l : List κ) :
    (l.erase k).takeWhile p = (l.takeWhile p).erase k := by
  induction l with
  | nil => rfl
  | cons x rest ih =>
      by_cases hx : x = k
      · subst hx
        simp [hk]
      · rw [List.erase_cons_tail (by simp [hx])]
        cases hp : p x with
        | true => simp [hp, ih, hx]
        | false => simp [hp]

/-- Only keys used since its last use stand in front of a key. -/
theorem mem_takeWhile_recent {since history : List κ} {k x : κ}
    (h : x ∈ (recent (since ++ k :: history)).takeWhile (· ≠ k)) : x ∈ since ∧ x ≠ k := by
  induction since with
  | nil => simp [recent] at h
  | cons y since ih =>
      by_cases hy : y = k
      · simp [recent, hy] at h
      · rw [List.cons_append, recent, List.takeWhile_cons_of_pos (by simpa using hy),
          takeWhile_erase (by simpa using hy)] at h
        rcases List.mem_cons.mp h with rfl | h
        · exact ⟨List.mem_cons_self, hy⟩
        · obtain ⟨hmem, hne⟩ := ih (List.mem_of_mem_erase h)
          exact ⟨List.mem_cons_of_mem _ hmem, hne⟩

/-- A key is among the `n` most recent ones while fewer than `n` others have been used. -/
theorem mem_take_recent {since history : List κ} {k : κ} {n : Nat}
    (h : (since.toFinset.erase k).card < n) : k ∈ (recent (since ++ k :: history)).take n := by
  have hmem : k ∈ recent (since ++ k :: history) := mem_recent.mpr (by simp)
  obtain ⟨front, rest, hsplit, hfront⟩ := List.eq_append_cons_of_mem hmem
  have htakeWhile : (recent (since ++ k :: history)).takeWhile (· ≠ k) = front := by
    rw [hsplit, List.takeWhile_append_of_pos, List.takeWhile_cons_of_neg (by simp), List.append_nil]
    intro x hx
    simpa using ne_of_mem_of_not_mem hx hfront
  have hnodup : front.Nodup :=
    (hsplit ▸ nodup_recent (since ++ k :: history)).sublist (List.sublist_append_left _ _)
  have hsubset : front.toFinset ⊆ since.toFinset.erase k := by
    intro x hx
    rw [← htakeWhile, List.mem_toFinset] at hx
    obtain ⟨hin, hne⟩ := mem_takeWhile_recent hx
    simp [hin, hne]
  have hlength : front.length < n := by
    rw [← List.toFinset_card_of_nodup hnodup]
    exact (Finset.card_le_card hsubset).trans_lt h
  rw [hsplit, List.take_append, List.mem_append]
  right
  obtain ⟨m, hm⟩ : ∃ m, n - front.length = m + 1 := ⟨n - front.length - 1, by omega⟩
  rw [hm, List.take_succ_cons]
  exact List.mem_cons_self

end Recency
