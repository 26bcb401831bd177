import Outway.Lib.Log

/-!
# Outway.Lib.Interp

Programs carried out in other operations.

`Prog.interp` replaces each operation of a program by a program.  A contract that is kept
by the program is kept by the result, read through a relation between the logical states
(`wp_interp`).  For contracts over logs, `wp_and` puts two contracts of one program
together, `Only` is the contract that looks at the operation alone, and `Scripted` the one
that lists the operations.
-/

namespace Prog

variable {Op Op' : Type} {Res : Op → Type} {Res' : Op' → Type} {α β G G' : Type}

/-- Carry out each operation by a program over other operations. -/
def interp (h : (o : Op) → Prog Op' Res' (Res o)) : Prog Op Res α → Prog Op' Res' α
  | .ret a => .ret a
  | .step o k => h o >>= fun r => (k r).interp h
  | .fault => .fault

/-- A program that keeps to a contract, carried out in other operations, keeps to a contract
that follows the first one. -/
theorem wp_interp {C : Contract Op Res G} {C' : Contract Op' Res' G'}
    {h : (o : Op) → Prog Op' Res' (Res o)} (R : G → G' → Prop) (hfault : C.fault → C'.fault)
    (hstep : ∀ {g g' o}, R g g' → C.ok g o →
      (h o).wp C' g' fun r g₁' => ∃ g₁, C.trans g o r g₁ ∧ R g₁ g₁')
    {p : Prog Op Res α} {g : G} {g' : G'} {Q : α → G → Prop} (hp : p.wp C g Q) (hR : R g g') :
    (p.interp h).wp C' g' fun a g₁' => ∃ g₁, Q a g₁ ∧ R g₁ g₁' := by
  induction p generalizing g g' with
  | ret a => exact ⟨g, hp, hR⟩
  | step o k ih =>
      refine wp_seq (hstep hR hp.1) ?_
      rintro r g₁' ⟨g₁, htrans, hR₁⟩
      exact ih r (hp.2 r g₁ htrans) hR₁
  | fault => exact hfault hp

/-- Two contracts over the log of one program. -/
theorem wp_and {P P' : List (Event Op Res) → Op → Prop} {p : Prog Op Res α}
    {es : List (Event Op Res)} {Q Q' : α → List (Event Op Res) → Prop}
    (h : p.wp (Contract.logging P) es Q) (h' : p.wp (Contract.logging P') es Q') :
    p.wp (Contract.logging fun es o => P es o ∧ P' es o) es fun a es => Q a es ∧ Q' a es := by
  induction p generalizing es with
  | ret a => exact ⟨h, h'⟩
  | step o k ih => exact ⟨⟨h.1, h'.1⟩, fun r es' hes' => ih r (h.2 r es' hes') (h'.2 r es' hes')⟩
  | fault => exact h

/-- An interpretation that cannot fault keeps what the program ensures. -/
theorem Ensures.interp {h : (o : Op) → Prog Op' Res' (Res o)} {p : Prog Op Res α} {Q : α → Prop}
    (hp : p.Ensures Q) (hh : ∀ o, (h o).Ensures fun _ => True) : (p.interp h).Ensures Q := by
  induction p with
  | ret a => exact hp
  | step o k ih => exact (hh o).bind fun r _ => ih r (ensures_step.mp hp r)
  | fault => exact hp

/-- A contract can be weakened to one that permits more. -/
theorem wp_permits_mono {P P' : List (Event Op Res) → Op → Prop} (hP : ∀ es o, P es o → P' es o)
    {p : Prog Op Res α} {es : List (Event Op Res)} {Q : α → List (Event Op Res) → Prop}
    (h : p.wp (Contract.logging P) es Q) : p.wp (Contract.logging P') es Q := by
  induction p generalizing es with
  | ret a => exact h
  | step o k ih => exact ⟨hP es o h.1, fun r es' hes' => ih r (h.2 r es' hes')⟩
  | fault => exact h

/-- A program only adds to its log. -/
theorem wp_grows (p : Prog Op Res α) (es : List (Event Op Res)) :
    p.wp (Contract.logging fun _ _ => True) es fun _ es' => es <+: es' := by
  induction p generalizing es with
  | ret a => exact List.prefix_refl es
  | step o k ih =>
      refine ⟨trivial, fun r es' hes' => wp_mono (ih r es') fun _ _ h => ?_⟩
      exact (hes' ▸ List.prefix_append es [⟨o, r⟩]).trans h
  | fault => trivial

/-- Every operation that the program performs satisfies `P`. -/
def Only (P : Op → Prop) (p : Prog Op Res α) : Prop :=
  match p with
  | .ret _ => True
  | .step o k => P o ∧ ∀ r, (k r).Only P
  | .fault => True

/-- Two programs of the same operations, one after the other. -/
theorem Only.bind {P : Op → Prop} {p : Prog Op Res α} {f : α → Prog Op Res β} (hp : p.Only P)
    (hf : ∀ a, (f a).Only P) : (p >>= f).Only P := by
  induction p with
  | ret a => exact hf a
  | step o k ih => exact ⟨hp.1, fun r => ih r (hp.2 r)⟩
  | fault => exact trivial

/-- A program of certain operations keeps to a contract that permits them. -/
theorem Only.wp {P : Op → Prop} {p : Prog Op Res α} (h : p.Only P) (es : List (Event Op Res)) :
    p.wp (Contract.logging fun _ o => P o) es fun _ _ => True := by
  induction p generalizing es with
  | ret a => exact trivial
  | step o k ih => exact ⟨h.1, fun r es' _ => ih r (h.2 r) es'⟩
  | fault => exact trivial

/-- The operations of a program follow a list. -/
def Scripted (ops : List Op) (es : List (Event Op Res)) (o : Op) : Prop :=
  es.map Sigma.fst ++ [o] <+: ops

/-- One operation of a script. -/
theorem wp_scripted {ops rest : List Op} {o : Op} {es : List (Event Op Res)}
    {permits : List (Event Op Res) → Op → Prop} (hpermits : ∀ o, Scripted ops es o → permits es o)
    (hes : es.map Sigma.fst ++ o :: rest = ops) :
    (Prog.step o .ret).wp (Contract.logging permits) es
      fun _ es' => es'.map Sigma.fst ++ rest = ops := by
  refine wp_op (hpermits o ⟨rest, ?_⟩) fun r => ?_
  · rw [List.append_assoc]
    exact hes
  · rw [List.map_append, List.append_assoc]
    exact hes

end Prog
