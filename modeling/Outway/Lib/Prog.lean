import Mathlib

/-!
# Outway.Lib.Prog

Sequential programs over operations, and threads of them over a shared state.

A `Prog` returns a value, performs an operation and goes on with its result, or
has failed.  A `Contract` says over a logical state when an operation may be
performed and how its result changes that state; `Prog.wp` is the weakest
precondition of a program against a contract, with one rule per way of building
a program.

What `wp` proves of a program on its own holds wherever the program runs:
`Prog.wp_exec` for its complete executions, `Threads.invariant` for any
interleaving with other programs over a shared state.
-/

/-- A program over operations `Op` whose results have the types `Res`. -/
inductive Prog (Op : Type) (Res : Op → Type) (α : Type) : Type where
  | ret (a : α) : Prog Op Res α
  | step (o : Op) (k : Res o → Prog Op Res α) : Prog Op Res α
  | fault : Prog Op Res α

namespace Prog

variable {Op : Type} {Res : Op → Type} {α β γ : Type}

protected def bind (p : Prog Op Res α) (f : α → Prog Op Res β) : Prog Op Res β :=
  match p with
  | .ret a => f a
  | .step o k => .step o fun r => (k r).bind f
  | .fault => .fault

instance : Monad (Prog Op Res) where
  pure := .ret
  bind := Prog.bind

@[simp] theorem pure_eq (a : α) : (pure a : Prog Op Res α) = .ret a := rfl

@[simp] theorem ret_bind (a : α) (f : α → Prog Op Res β) : (Prog.ret a >>= f) = f a := rfl

@[simp] theorem step_bind (o : Op) (k : Res o → Prog Op Res α) (f : α → Prog Op Res β) :
    (Prog.step o k >>= f) = .step o fun r => k r >>= f := rfl

@[simp] theorem fault_bind (f : α → Prog Op Res β) :
    ((.fault : Prog Op Res α) >>= f) = .fault := rfl

/-- The monad laws: returning what was returned changes nothing. -/
theorem bind_ret (p : Prog Op Res α) : p.bind .ret = p := by
  induction p with
  | ret a => rfl
  | step o k ih => exact congrArg (Prog.step o) (funext ih)
  | fault => rfl

/-- And sequencing is associative. -/
theorem bind_bind (p : Prog Op Res α) (f : α → Prog Op Res β) (g : β → Prog Op Res γ) :
    (p.bind f).bind g = p.bind fun a => (f a).bind g := by
  induction p with
  | ret a => rfl
  | step o k ih => exact congrArg (Prog.step o) (funext ih)
  | fault => rfl

instance : LawfulMonad (Prog Op Res) :=
  LawfulMonad.mk' _ (fun p => bind_ret p) (fun _ _ => rfl) fun p f g => bind_bind p f g

/-- Run `body` until it returns `none`, followed for `n` rounds; `cut` stands for the rest
of a loop that goes on for longer.  Every finite part of an endless loop is part of one
of these. -/
def iterate {A : Type} (cut : Prog Op Res Unit) (body : A → Prog Op Res (Option A)) :
    Nat → A → Prog Op Res Unit
  | 0, _ => cut
  | n + 1, a => body a >>= fun
      | none => .ret ()
      | some a' => iterate cut body n a'

/-! ## Executions -/

/-- `Exec act s p s' a`: from state `s` the program can run to its end, return `a`
and leave the state `s'`. -/
inductive Exec {S : Type} (act : S → (o : Op) → Res o → S → Prop) :
    S → Prog Op Res α → S → α → Prop where
  | ret (s : S) (a : α) : Exec act s (.ret a) s a
  | step {s s' s'' : S} {o : Op} {k : Res o → Prog Op Res α} {r : Res o} {a : α}
      (h : act s o r s') (hk : Exec act s' (k r) s'' a) : Exec act s (.step o k) s'' a

/-! ## Contracts and weakest preconditions -/

/-- A contract over a logical state `G`: when an operation may be performed, what
its result may be and how the state follows, and whether the program may fail. -/
structure Contract (Op : Type) (Res : Op → Type) (G : Type) where
  ok : G → Op → Prop
  trans : G → (o : Op) → Res o → G → Prop
  fault : Prop

variable {G : Type} (C : Contract Op Res G)

/-- From the logical state `g` the program keeps to the contract and ends in `Q`. -/
def wp (p : Prog Op Res α) (g : G) (Q : α → G → Prop) : Prop :=
  match p with
  | .ret a => Q a g
  | .step o k => C.ok g o ∧ ∀ r g', C.trans g o r g' → (k r).wp g' Q
  | .fault => C.fault

variable {C}

@[simp] theorem wp_ret {a : α} {g : G} {Q : α → G → Prop} :
    (Prog.ret a : Prog Op Res α).wp C g Q ↔ Q a g := Iff.rfl

@[simp] theorem wp_fault {g : G} {Q : α → G → Prop} :
    (Prog.fault : Prog Op Res α).wp C g Q ↔ C.fault := Iff.rfl

@[simp] theorem wp_step {o : Op} {k : Res o → Prog Op Res α} {g : G} {Q : α → G → Prop} :
    (Prog.step o k).wp C g Q ↔ C.ok g o ∧ ∀ r g', C.trans g o r g' → (k r).wp C g' Q := Iff.rfl

/-- A postcondition can be weakened. -/
theorem wp_mono {p : Prog Op Res α} {g : G} {Q Q' : α → G → Prop} (h : p.wp C g Q)
    (hQ : ∀ a g', Q a g' → Q' a g') : p.wp C g Q' := by
  induction p generalizing g with
  | ret a => exact hQ a g h
  | step o k ih => exact ⟨h.1, fun r g' hr => ih r (h.2 r g' hr)⟩
  | fault => exact h

/-- A sequence is right when its first part brings about what the second needs. -/
@[simp] theorem wp_bind {p : Prog Op Res α} {f : α → Prog Op Res β} {g : G} {Q : β → G → Prop} :
    (p >>= f).wp C g Q ↔ p.wp C g fun a g' => (f a).wp C g' Q := by
  induction p generalizing g with
  | ret a => exact Iff.rfl
  | step o k ih => simp only [step_bind, wp_step, ih]
  | fault => exact Iff.rfl

/-- Sequencing: what the first program establishes is what the second needs. -/
theorem wp_seq {p : Prog Op Res α} {f : α → Prog Op Res β} {g : G} {Q : β → G → Prop}
    {R : α → G → Prop} (hp : p.wp C g R) (hf : ∀ a g', R a g' → (f a).wp C g' Q) :
    (p >>= f).wp C g Q :=
  wp_bind.mpr (wp_mono hp hf)

/-- Folding a program over a list, with an invariant over what remains. -/
theorem wp_foldlM {σ : Type} {f : σ → β → Prog Op Res σ} (inv : List β → σ → G → Prop)
    (hstep : ∀ b rest s g, inv (b :: rest) s g → (f s b).wp C g fun s' g' => inv rest s' g')
    {l : List β} {s : σ} {g : G} (h : inv l s g) :
    (l.foldlM f s).wp C g fun s' g' => inv [] s' g' := by
  induction l generalizing s g with
  | nil => exact h
  | cons b rest ih =>
      rw [List.foldlM_cons]
      exact wp_seq (hstep b rest s g h) fun s' g' h' => ih h'

/-- A counting loop, with an invariant over the next index. -/
theorem wp_foldlM_range' {σ : Type} {f : σ → Nat → Prog Op Res σ} (inv : Nat → σ → G → Prop)
    {first n : Nat}
    (hstep : ∀ i s g, first ≤ i → i < first + n → inv i s g →
      (f s i).wp C g fun s' g' => inv (i + 1) s' g')
    {s : σ} {g : G} (h : inv first s g) :
    ((List.range' first n).foldlM f s).wp C g fun s' g' => inv (first + n) s' g' := by
  induction n generalizing first s g with
  | zero => exact h
  | succ n ih =>
      rw [List.range'_succ, List.foldlM_cons]
      refine wp_seq (hstep first s g le_rfl (by omega) h) fun s' g' h' => ?_
      rw [← Nat.add_assoc, Nat.add_right_comm]
      exact ih (fun i s g h₁ h₂ => hstep i s g (by omega) (by omega)) h'

/-- Performing a program for every element of a list. -/
theorem wp_forM {f : β → Prog Op Res PUnit} (inv : List β → G → Prop)
    (hstep : ∀ b rest g, inv (b :: rest) g → (f b).wp C g fun _ g' => inv rest g')
    {l : List β} {g : G} (h : inv l g) : (l.forM f).wp C g fun _ g' => inv [] g' := by
  induction l generalizing g with
  | nil => exact h
  | cons b rest ih => exact wp_seq (hstep b rest g h) fun _ g' h' => ih h'

/-- A loop, with an invariant over the rounds it is still followed for. -/
theorem wp_iterate_rounds {A : Type} {cut : Prog Op Res Unit} {body : A → Prog Op Res (Option A)}
    (inv : Nat → A → G → Prop) {post : G → Prop}
    (hcut : ∀ a g, inv 0 a g → cut.wp C g fun _ g' => post g')
    (hbody : ∀ n a g, inv (n + 1) a g → (body a).wp C g fun r g' =>
      match r with
      | none => post g'
      | some a' => inv n a' g')
    {n : Nat} {a : A} {g : G} (h : inv n a g) :
    (iterate cut body n a).wp C g fun _ g' => post g' := by
  induction n generalizing a g with
  | zero => exact hcut a g h
  | succ n ih =>
      refine wp_seq (hbody n a g h) fun r g' hr => ?_
      cases r with
      | none => exact hr
      | some a' => exact ih hr

/-- A loop keeps what each round keeps. -/
theorem wp_iterate {A : Type} {body : A → Prog Op Res (Option A)} (inv : A → G → Prop)
    {post : G → Prop} (hpost : ∀ a g, inv a g → post g)
    (hbody : ∀ a g, inv a g → (body a).wp C g fun r g' =>
      match r with
      | none => post g'
      | some a' => inv a' g')
    {n : Nat} {a : A} {g : G} (h : inv a g) :
    (iterate (.ret ()) body n a).wp C g fun _ g' => post g' := by
  refine wp_iterate_rounds (fun _ => inv) ?_ (fun _ => hbody) h
  exact hpost

/-- A loop that fails where it is followed no further ends only as its last round does. -/
theorem wp_iterate_fault (hfault : C.fault) {A : Type} {body : A → Prog Op Res (Option A)}
    (inv : A → G → Prop) {post : G → Prop}
    (hbody : ∀ a g, inv a g → (body a).wp C g fun r g' =>
      match r with
      | none => post g'
      | some a' => inv a' g')
    {n : Nat} {a : A} {g : G} (h : inv a g) :
    (iterate .fault body n a).wp C g fun _ g' => post g' := by
  refine wp_iterate_rounds (fun _ => inv) ?_ (fun _ => hbody) h
  exact fun _ _ _ => hfault

/-- Soundness for executions: a program that keeps to the contract ends in its
postcondition wherever the results follow the contract. -/
theorem wp_exec {p : Prog Op Res α} {g g' : G} {a : α} {Q : α → G → Prop} (h : p.wp C g Q)
    (he : Exec C.trans g p g' a) : Q a g' := by
  induction he with
  | ret g a => exact h
  | step ht _ ih => exact ih (h.2 _ _ ht)

/-! ## Results without a state -/

/-- Whatever the operations return, the program does not fail, and what it returns
satisfies `Q`. -/
def Ensures (p : Prog Op Res α) (Q : α → Prop) : Prop :=
  p.wp (⟨fun _ _ => True, fun _ _ _ _ => True, False⟩ : Contract Op Res Unit) () fun a _ => Q a

@[simp] theorem ensures_ret {a : α} {Q : α → Prop} :
    (Prog.ret a : Prog Op Res α).Ensures Q ↔ Q a := Iff.rfl

@[simp] theorem ensures_fault {Q : α → Prop} :
    (Prog.fault : Prog Op Res α).Ensures Q ↔ False := Iff.rfl

@[simp] theorem ensures_step {o : Op} {k : Res o → Prog Op Res α} {Q : α → Prop} :
    (Prog.step o k).Ensures Q ↔ ∀ r, (k r).Ensures Q :=
  ⟨fun h r => h.2 r () trivial, fun h => ⟨trivial, fun r _ _ => h r⟩⟩

/-- What a sequence ensures. -/
@[simp] theorem ensures_bind {p : Prog Op Res α} {f : α → Prog Op Res β} {Q : β → Prop} :
    (p >>= f).Ensures Q ↔ p.Ensures fun a => (f a).Ensures Q := wp_bind

/-- A postcondition can be weakened. -/
theorem Ensures.mono {p : Prog Op Res α} {Q Q' : α → Prop} (h : p.Ensures Q)
    (hQ : ∀ a, Q a → Q' a) : p.Ensures Q' := wp_mono h fun a _ => hQ a

/-- A sequence, with what holds in between. -/
theorem Ensures.bind {p : Prog Op Res α} {f : α → Prog Op Res β} {R : α → Prop} {Q : β → Prop}
    (hp : p.Ensures R) (hf : ∀ a, R a → (f a).Ensures Q) : (p >>= f).Ensures Q :=
  ensures_bind.mpr (hp.mono hf)

/-- A loop over a list keeps its invariant. -/
theorem ensures_foldlM {σ : Type} {f : σ → β → Prog Op Res σ} (inv : List β → σ → Prop)
    (hstep : ∀ b rest s, inv (b :: rest) s → (f s b).Ensures (inv rest))
    {l : List β} {s : σ} (h : inv l s) : (l.foldlM f s).Ensures (inv []) :=
  wp_foldlM (fun rest s _ => inv rest s) (fun b rest s _ => hstep b rest s) h

/-- A loop over a list does not fault when no round does. -/
theorem ensures_forM {f : β → Prog Op Res PUnit} {l : List β}
    (hstep : ∀ b ∈ l, (f b).Ensures fun _ => True) : (l.forM f).Ensures fun _ => True :=
  wp_mono (wp_forM (fun rest _ => ∀ b ∈ rest, (f b).Ensures fun _ => True)
    (fun b _ _ h => wp_mono (h b List.mem_cons_self) fun _ _ _ b' hb' =>
      h b' (List.mem_cons_of_mem b hb')) hstep) fun _ _ _ => trivial

/-- A loop does not fault when its rounds keep an invariant. -/
theorem ensures_iterate {A : Type} {body : A → Prog Op Res (Option A)} (inv : A → Prop)
    (hbody : ∀ a, inv a → (body a).Ensures fun r => ∀ a', r = some a' → inv a')
    {n : Nat} {a : A} (h : inv a) : (iterate (.ret ()) body n a).Ensures fun _ => True := by
  refine wp_iterate (fun a _ => inv a) (fun _ _ _ => trivial) (fun a _ ha => ?_) h
  refine wp_mono (hbody a ha) fun r _ hr => ?_
  cases r with
  | none => trivial
  | some a' => exact hr a' rfl

/-- For some results of its operations the program returns a value that satisfies `Q`. -/
def May (p : Prog Op Res α) (Q : α → Prop) : Prop :=
  match p with
  | .ret a => Q a
  | .step _ k => ∃ r, (k r).May Q
  | .fault => False

@[simp] theorem may_ret {a : α} {Q : α → Prop} : (Prog.ret a : Prog Op Res α).May Q ↔ Q a := Iff.rfl

@[simp] theorem may_fault {Q : α → Prop} : (Prog.fault : Prog Op Res α).May Q ↔ False := Iff.rfl

@[simp] theorem may_step {o : Op} {k : Res o → Prog Op Res α} {Q : α → Prop} :
    (Prog.step o k).May Q ↔ ∃ r, (k r).May Q := Iff.rfl

/-- What a sequence may bring about. -/
@[simp] theorem may_bind {p : Prog Op Res α} {f : α → Prog Op Res β} {Q : β → Prop} :
    (p >>= f).May Q ↔ p.May fun a => (f a).May Q := by
  induction p with
  | ret a => exact Iff.rfl
  | step o k ih => simp only [step_bind, may_step, ih]
  | fault => exact Iff.rfl

/-- A possible result can be weakened. -/
theorem May.mono {p : Prog Op Res α} {Q Q' : α → Prop} (h : p.May Q) (hQ : ∀ a, Q a → Q' a) :
    p.May Q' := by
  induction p with
  | ret a => exact hQ a h
  | step o k ih =>
      obtain ⟨r, hr⟩ := h
      exact ⟨r, ih r hr⟩
  | fault => exact h

/-- A loop may keep its invariant when each round may. -/
theorem may_foldlM {σ : Type} {f : σ → β → Prog Op Res σ} (inv : List β → σ → Prop)
    (hstep : ∀ b rest s, inv (b :: rest) s → (f s b).May (inv rest))
    {l : List β} {s : σ} (h : inv l s) : (l.foldlM f s).May (inv []) := by
  induction l generalizing s with
  | nil => exact h
  | cons b rest ih =>
      rw [List.foldlM_cons, may_bind]
      exact (hstep b rest s h).mono fun s' h' => ih h'

/-- What always holds and what may hold of the returned value meet. -/
theorem Ensures.and_may {p : Prog Op Res α} {Q R : α → Prop} (h : p.Ensures Q) (hp : p.May R) :
    ∃ a, Q a ∧ R a := by
  induction p with
  | ret a => exact ⟨a, h, hp⟩
  | step o k ih =>
      obtain ⟨r, hr⟩ := hp
      exact ih r (ensures_step.mp h r) hr
  | fault => exact hp.elim

/-! ## Executions as a contract -/

/-- The contract of executions against `act` that run to their end: an operation needs
to have a result, and the program must not fail. -/
def Contract.live {S : Type} (act : S → (o : Op) → Res o → S → Prop) : Contract Op Res S where
  ok s o := ∃ r s', act s o r s'
  trans := act
  fault := False

/-- A program that is never stuck has an execution. -/
theorem exists_exec {S : Type} {act : S → (o : Op) → Res o → S → Prop} {p : Prog Op Res α} {s : S}
    {Q : α → S → Prop} (h : p.wp (Contract.live act) s Q) : ∃ s' a, Exec act s p s' a ∧ Q a s' := by
  induction p generalizing s with
  | ret a => exact ⟨s, a, .ret s a, h⟩
  | step o k ih =>
      obtain ⟨⟨r, s₁, hact⟩, hk⟩ := h
      obtain ⟨s', a, hexec, hQ⟩ := ih r (hk r s₁ hact)
      exact ⟨s', a, .step hact hexec, hQ⟩
  | fault => exact h.elim

end Prog

/-! ## Threads -/

namespace Threads

variable {Op : Type} {Res : Op → Type} {ι S G : Type} [DecidableEq ι]

/-- One thread performs its next operation on the shared state. -/
inductive Step (act : ι → S → (o : Op) → Res o → S → Prop) :
    (ι → Prog Op Res Unit) × S → (ι → Prog Op Res Unit) × S → Prop where
  | mk {ps : ι → Prog Op Res Unit} {s s' : S} (i : ι) (o : Op) (k : Res o → Prog Op Res Unit)
      (r : Res o) (hp : ps i = .step o k) (ha : act i s o r s') :
      Step act (ps, s) (Function.update ps i (k r), s')

/-- The states the threads can reach. -/
def Reachable (act : ι → S → (o : Op) → Res o → S → Prop) (start : (ι → Prog Op Res Unit) × S)
    (now : (ι → Prog Op Res Unit) × S) : Prop :=
  Relation.ReflTransGen (Step act) start now

/-- A thread can run a part of its program to the end while the others wait. -/
theorem Reachable.exec {act : ι → S → (o : Op) → Res o → S → Prop} {i : ι} {α : Type}
    {p : Prog Op Res α} {f : α → Prog Op Res Unit} {ps : ι → Prog Op Res Unit} {s s' : S} {a : α}
    (hp : ps i = p >>= f) (he : Prog.Exec (act i) s p s' a) :
    Reachable act (ps, s) (Function.update ps i (f a), s') := by
  induction he generalizing ps with
  | ret s a =>
      have hsame : Function.update ps i (f a) = ps := by
        rw [show f a = ps i from hp.symm, Function.update_eq_self]
      rw [hsame]
      exact .refl
  | step h _ ih =>
      have hself (q : Prog Op Res Unit) : Function.update ps i q i = q :=
        Function.update_self i q ps
      have hrest := ih (hself _)
      rw [Function.update_idem] at hrest
      exact .head (.mk i _ _ _ hp h) hrest

/-- **Invariants of interleavings.**  Suppose each thread's program keeps to the
thread's contract from its own logical state, and an operation performed within
its contract carries an invariant `I` over all logical states and the shared
state along.  Then in every reachable state the invariant holds for some logical
states, and every thread keeps to its contract from there on. -/
theorem invariant {act : ι → S → (o : Op) → Res o → S → Prop} (C : ι → Prog.Contract Op Res G)
    (I : (ι → G) → S → Prop) (post : ι → G → Prop)
    (hact : ∀ {gs s i o r s'}, I gs s → (C i).ok (gs i) o → act i s o r s' →
      ∃ g, (C i).trans (gs i) o r g ∧ I (Function.update gs i g) s')
    {start now : (ι → Prog Op Res Unit) × S} {gs₀ : ι → G} (hI : I gs₀ start.2)
    (hwp : ∀ i, (start.1 i).wp (C i) (gs₀ i) fun _ g => post i g)
    (h : Reachable act start now) :
    ∃ gs, I gs now.2 ∧ ∀ i, (now.1 i).wp (C i) (gs i) fun _ g => post i g := by
  induction h with
  | refl => exact ⟨gs₀, hI, hwp⟩
  | tail _ hstep ih =>
      obtain ⟨gs, hI, hwp⟩ := ih
      cases hstep with
      | @mk ps s s' i o k r hp ha =>
          have hi : (Prog.step o k).wp (C i) (gs i) fun _ g => post i g := hp ▸ hwp i
          obtain ⟨g, htrans, hI'⟩ := hact hI hi.1 ha
          refine ⟨Function.update gs i g, hI', ?_⟩
          intro j
          by_cases hj : j = i
          · subst hj
            simpa using hi.2 r g htrans
          · simpa [Function.update_of_ne hj] using hwp j

end Threads
