import Outway.Lib.Log

/-!
# Outway.Lib.Progress

Threads that nothing blocks.

A program is finite, so a thread whose next operation is always possible can run to its
end while the others wait (`Threads.finishes`).  What a program `Ensures` whatever its
operations return, it ensures from wherever a run of the threads has brought it.
-/

namespace Prog

variable {Op : Type} {Res : Op → Type} {α G : Type}

/-- The next operation of a program that keeps to a contract. -/
theorem ok_of_step {C : Contract Op Res G} {p : Prog Op Res α} {g : G} {Q : α → G → Prop}
    (h : p.wp C g Q) {o : Op} {k : Res o → Prog Op Res α} (hp : p = .step o k) : C.ok g o := by
  subst hp
  exact h.1

end Prog

namespace Threads

open Prog

variable {Op : Type} {Res : Op → Type} {ι S : Type} [DecidableEq ι]
  {act : ι → S → (o : Op) → Res o → S → Prop}

/-- A thread cannot fault later if its program could not. -/
theorem ensures_of_reachable {start now : (ι → Prog Op Res Unit) × S} {i : ι} {Q : Unit → Prop}
    (h : Reachable act start now) (hi : (start.1 i).Ensures Q) : (now.1 i).Ensures Q := by
  induction h with
  | refl => exact hi
  | tail _ hstep ih =>
      cases hstep with
      | @mk ps s s' j o k r hp ha =>
          by_cases hij : i = j
          · subst hij
            have hk : (Prog.step o k).Ensures Q := hp ▸ ih
            simpa using ensures_step.mp hk r
          · simpa [Function.update_of_ne hij] using ih

/-- **Threads that are not blocked.**  Suppose the thread's steps keep `P`, and where `P` holds
its next operation is possible.  Then the thread can run to its end, while the others stand
still. -/
theorem finishes {i : ι} (P : (ι → Prog Op Res Unit) × S → Prop)
    (hstep : ∀ {ps s o k r s'}, P (ps, s) → ps i = .step o k → act i s o r s' →
      P (Function.update ps i (k r), s'))
    (henabled : ∀ {ps s o k}, P (ps, s) → ps i = .step o k → ∃ r s', act i s o r s')
    {now : (ι → Prog Op Res Unit) × S} (h : P now) :
    ∃ later, Reachable act now later ∧ P later ∧ (∀ j ≠ i, later.1 j = now.1 j) ∧
      (later.1 i = .ret () ∨ later.1 i = .fault) := by
  obtain ⟨ps, s⟩ := now
  induction hp : ps i generalizing ps s with
  | ret a => exact ⟨(ps, s), .refl, h, fun _ _ => rfl, .inl hp⟩
  | fault => exact ⟨(ps, s), .refl, h, fun _ _ => rfl, .inr hp⟩
  | step o k ih =>
      obtain ⟨r, s', hact⟩ := henabled h hp
      have hmove : Step act (ps, s) (Function.update ps i (k r), s') := .mk i o k r hp hact
      obtain ⟨later, hlater, hP, hothers, hend⟩ :=
        ih r _ _ (hstep h hp hact) (Function.update_self i _ ps)
      refine ⟨later, .head hmove hlater, hP, fun j hj => ?_, hend⟩
      rw [hothers j hj]
      exact Function.update_of_ne hj _ _

end Threads
