import Mathlib

/-!
# Outway.Lib.Reader

Readers that consume a part of an input and may fail.

On lists, `Reader.Exact r L` says that the reader `r` accepts exactly the messages of the
relation `L` and consumes nothing beyond them: it returns `a` and leaves `rest`
if and only if the input is a message for `a` followed by `rest`.  Exactness
composes along `bind`, so a format read field by field is specified field by
field.

On any other input, `Reader.Follows pending m r` says that `m` does what `r` does
on the list of what the input still has to deliver.
-/

/-- A reader over inputs `S` with errors `ε`. -/
def Reader (S ε α : Type) : Type := S → Except ε (α × S)

namespace Reader

variable {S σ ε α β : Type}

instance : Monad (Reader S ε) where
  pure a := fun s => .ok (a, s)
  bind r f := fun s =>
    match r s with
    | .error e => .error e
    | .ok (a, rest) => f a rest

/-- Fail with `e`. -/
def fail (e : ε) : Reader S ε α := fun _ => .error e

/-- Fail with `e` unless `c` holds. -/
def check (c : Prop) [Decidable c] (e : ε) : Reader S ε Unit :=
  if c then pure () else fail e

/-- Read exactly `n` symbols.  The error tells an input that ends before the
first symbol (`eof`) from one that ends inside. -/
def readFull (eof unexpectedEOF : ε) (n : Nat) : Reader (List σ) ε (Vector σ n) := fun s =>
  if h : n ≤ s.length then
    .ok (⟨(s.take n).toArray, by simp [h]⟩, s.drop n)
  else if s = [] then .error eof
  else .error unexpectedEOF

theorem pure_apply (a : α) (s : S) : (pure a : Reader S ε α) s = .ok (a, s) := rfl

theorem bind_apply (r : Reader S ε α) (f : α → Reader S ε β) (s : S) :
    (r >>= f) s = match r s with
      | .error e => .error e
      | .ok (a, rest) => f a rest := rfl

/-- `r` accepts exactly the messages of `L`. -/
def Exact (r : Reader (List σ) ε α) (L : List σ → α → Prop) : Prop :=
  ∀ s a rest, r s = .ok (a, rest) ↔ ∃ msg, L msg a ∧ s = msg ++ rest

/-- A message is read back, and what follows it is left. -/
theorem Exact.read_append {r : Reader (List σ) ε α} {L : List σ → α → Prop} (h : Exact r L)
    {msg : List σ} {a : α} (hmsg : L msg a) (rest : List σ) : r (msg ++ rest) = .ok (a, rest) :=
  (h _ _ _).mpr ⟨msg, hmsg, rfl⟩

/-- A language can be stated in another way. -/
theorem Exact.congr {r : Reader (List σ) ε α} {L L' : List σ → α → Prop} (h : Exact r L)
    (hL : ∀ msg a, L msg a ↔ L' msg a) : Exact r L' := by
  intro s a rest
  rw [h s a rest]
  simp only [hL]

theorem exact_pure (a : α) :
    Exact (pure a : Reader (List σ) ε α) fun msg b => msg = [] ∧ b = a := by
  intro s b rest
  rw [pure_apply]
  constructor
  · intro h
    cases h
    exact ⟨[], ⟨rfl, rfl⟩, rfl⟩
  · rintro ⟨msg, ⟨rfl, rfl⟩, rfl⟩
    rfl

theorem exact_fail (e : ε) : Exact (fail e : Reader (List σ) ε α) fun _ _ => False := by
  intro s a rest
  constructor
  · intro h
    cases h
  · rintro ⟨msg, h, -⟩
    exact h.elim

/-- A check reads nothing. -/
theorem exact_check {c : Prop} [Decidable c] (e : ε) :
    Exact (check c e : Reader (List σ) ε Unit) fun msg _ => msg = [] ∧ c := by
  unfold check
  by_cases hc : c
  · rw [if_pos hc]
    exact (exact_pure ()).congr fun msg a => by simp [hc]
  · rw [if_neg hc]
    exact (exact_fail e).congr fun msg a => by simp [hc]

/-- A read of fixed length is its own message. -/
theorem exact_readFull (eof unexpectedEOF : ε) (n : Nat) :
    Exact (readFull eof unexpectedEOF n : Reader (List σ) ε (Vector σ n)) fun msg v =>
      msg = v.toList := by
  intro s v rest
  unfold readFull
  constructor
  · intro h
    split_ifs at h with hlen hnil
    obtain ⟨rfl, rfl⟩ := Prod.mk.inj (Except.ok.inj h)
    exact ⟨s.take n, by simp [Vector.toList], (List.take_append_drop n s).symm⟩
  · rintro ⟨msg, rfl, rfl⟩
    have hlen : v.toList.length = n := Vector.length_toList
    have hdrop : (v.toList ++ rest).drop n = rest := by
      rw [List.drop_append_of_le_length hlen.ge, List.drop_of_length_le hlen.le, List.nil_append]
    rw [dif_pos (by rw [List.length_append]; omega)]
    simp only [hdrop, Except.ok.injEq, Prod.mk.injEq, and_true]
    apply Vector.toList_inj.mp
    simp [Vector.toList]

/-- Exactness of a sequence: the message is a message of the first reader followed
by one of the second. -/
theorem Exact.bind {r : Reader (List σ) ε α} {f : α → Reader (List σ) ε β} {L : List σ → α → Prop}
    {M : α → List σ → β → Prop} (hr : Exact r L) (hf : ∀ a, Exact (f a) (M a)) :
    Exact (r >>= f) fun msg b => ∃ m₁ m₂ a, L m₁ a ∧ M a m₂ b ∧ msg = m₁ ++ m₂ := by
  intro s b rest
  rw [bind_apply]
  constructor
  · intro h
    cases hrs : r s with
    | error e => simp [hrs] at h
    | ok p =>
        obtain ⟨a, mid⟩ := p
        simp only [hrs] at h
        obtain ⟨m₁, hL, hs⟩ := (hr s a mid).mp hrs
        obtain ⟨m₂, hM, hmid⟩ := (hf a mid b rest).mp h
        exact ⟨m₁ ++ m₂, ⟨m₁, m₂, a, hL, hM, rfl⟩, by rw [hs, hmid, List.append_assoc]⟩
  · rintro ⟨msg, ⟨m₁, m₂, a, hL, hM, rfl⟩, hs⟩
    have hrs : r s = .ok (a, m₂ ++ rest) :=
      (hr s a (m₂ ++ rest)).mpr ⟨m₁, hL, by rw [hs, List.append_assoc]⟩
    simp only [hrs]
    exact (hf a (m₂ ++ rest) b rest).mpr ⟨m₂, hM, rfl⟩

/-- A reader that returns a function of what it read. -/
theorem Exact.map {r : Reader (List σ) ε α} {L : List σ → α → Prop} (hr : Exact r L) (g : α → β) :
    Exact (r >>= fun a => pure (g a)) fun msg b => ∃ a, L msg a ∧ b = g a := by
  refine (hr.bind fun a => exact_pure (g a)).congr ?_
  intro msg b
  constructor
  · rintro ⟨m₁, m₂, a, hL, ⟨rfl, hb⟩, rfl⟩
    exact ⟨a, by rwa [List.append_nil], hb⟩
  · rintro ⟨a, hL, hb⟩
    exact ⟨msg, [], a, hL, ⟨rfl, hb⟩, (List.append_nil msg).symm⟩

/-- A choice reads the messages of its branches. -/
theorem Exact.ite {c : Prop} [Decidable c] {r r' : Reader (List σ) ε α} {L L' : List σ → α → Prop}
    (h : c → Exact r L) (h' : ¬ c → Exact r' L') :
    Exact (if c then r else r') fun msg a => (c ∧ L msg a) ∨ (¬ c ∧ L' msg a) := by
  by_cases hc : c
  · rw [if_pos hc]
    exact (h hc).congr fun msg a => by simp [hc]
  · rw [if_neg hc]
    exact (h' hc).congr fun msg a => by simp [hc]

/-- The reader leaves an end of its input. -/
def Consumes (r : Reader (List σ) ε α) : Prop := ∀ {s rest a}, r s = .ok (a, rest) → rest <:+ s

theorem consumes_pure (a : α) : Consumes (pure a : Reader (List σ) ε α) := by
  intro s rest b h
  cases h
  exact List.suffix_rfl

theorem consumes_fail (e : ε) : Consumes (fail e : Reader (List σ) ε α) := by
  intro s rest a h
  cases h

/-- A reader that accepts exactly some messages leaves what follows its message. -/
theorem Exact.consumes {r : Reader (List σ) ε α} {L : List σ → α → Prop} (h : Exact r L) :
    Consumes r := by
  intro s rest a hread
  obtain ⟨msg, -, rfl⟩ := (h s a rest).mp hread
  exact List.suffix_append msg rest

/-- A sequence takes its input from the front when both parts do. -/
theorem Consumes.bind {r : Reader (List σ) ε α} {f : α → Reader (List σ) ε β} (hr : Consumes r)
    (hf : ∀ a, Consumes (f a)) : Consumes (r >>= f) := by
  intro s rest b h
  rw [bind_apply] at h
  cases hread : r s with
  | error e => simp [hread] at h
  | ok p =>
      simp only [hread] at h
      exact (hf p.1 h).trans (hr hread)

theorem Consumes.ite {c : Prop} [Decidable c] {r r' : Reader (List σ) ε α} (h : Consumes r)
    (h' : Consumes r') : Consumes (if c then r else r') := by
  split_ifs
  · exact h
  · exact h'

/-! ## Other inputs -/

section Follows

variable {pending : S → List σ} {m : Reader S ε α} {r : Reader (List σ) ε α}

/-- `m` does on an input what `r` does on what the input still has to deliver. -/
def Follows (pending : S → List σ) (m : Reader S ε α) (r : Reader (List σ) ε α) : Prop :=
  ∀ s, (m s).map (fun p => (p.1, pending p.2)) = r (pending s)

theorem follows_pure (a : α) : Follows pending (pure a : Reader S ε α) (pure a) := fun _ => rfl

theorem follows_fail (e : ε) : Follows pending (fail e : Reader S ε α) (fail e) := fun _ => rfl

/-- A check looks at no input. -/
theorem follows_check (c : Prop) [Decidable c] (e : ε) :
    Follows pending (check c e : Reader S ε Unit) (check c e) := by
  unfold check
  split_ifs
  · exact follows_pure ()
  · exact follows_fail e

/-- A sequence follows its specification when both parts do. -/
theorem Follows.bind {f : α → Reader S ε β} {g : α → Reader (List σ) ε β}
    (hm : Follows pending m r) (hf : ∀ a, Follows pending (f a) (g a)) :
    Follows pending (m >>= f) (r >>= g) := by
  intro s
  rw [bind_apply, bind_apply, ← hm s]
  cases m s with
  | error e => rfl
  | ok p => exact hf p.1 p.2

/-- So does a choice. -/
theorem Follows.ite {c : Prop} [Decidable c] {m' : Reader S ε α} {r' : Reader (List σ) ε α}
    (h : Follows pending m r) (h' : Follows pending m' r') :
    Follows pending (if c then m else m') (if c then r else r') := by
  split_ifs
  · exact h
  · exact h'

end Follows

end Reader
