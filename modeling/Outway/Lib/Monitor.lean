import Outway.Lib.Log

/-!
# Outway.Lib.Monitor

Programs that run alone, watched by a monitor.

A monitor follows the operations of a program with a state of its own and says in each
state which operations it lets through.  `After` is a run so far, with what is left of the
program; `After.monitored` says that a program which keeps to a monitor does so in every
run, to its end or not.
-/

namespace Prog

variable {Op : Type} {Res : Op → Type} {α β G : Type}

/-- After the entries `es` the program has come to `p'`. -/
inductive After (p : Prog Op Res α) : List (Event Op Res) → Prog Op Res α → Prop where
  | start : After p [] p
  | step {es : List (Event Op Res)} {o : Op} {k : Res o → Prog Op Res α} (r : Res o)
      (h : After p es (.step o k)) : After p (es ++ [⟨o, r⟩]) (k r)

/-- One operation more at the front. -/
theorem After.cons {o : Op} {k : Res o → Prog Op Res α} {r : Res o} {p' : Prog Op Res α}
    {es : List (Event Op Res)} (h : (k r).After es p') :
    (Prog.step o k).After (⟨o, r⟩ :: es) p' := by
  induction h with
  | start => exact .step r .start
  | step r' _ ih => exact .step r' ih

/-- A program that has run to its end goes on with the next. -/
theorem After.bind {p : Prog Op Res α} {f : α → Prog Op Res β} {p' : Prog Op Res β}
    {es es' : List (Event Op Res)} {a : α} (h : p.After es (.ret a)) (h' : (f a).After es' p') :
    (p >>= f).After (es ++ es') p' := by
  have hlift {es : List (Event Op Res)} {q : Prog Op Res α} (hq : p.After es q) :
      (p >>= f).After es (q >>= f) := by
    induction hq with
    | start => exact .start
    | step r _ ih => exact .step r ih
  induction h' with
  | start => simpa using hlift h
  | step r _ ih =>
      rw [← List.append_assoc]
      exact .step r ih

theorem After.eq_of_ret {a : α} {q : Prog Op Res α} {es : List (Event Op Res)}
    (h : (Prog.ret a).After es q) : es = [] ∧ q = .ret a := by
  induction h with
  | start => exact ⟨rfl, rfl⟩
  | step r _ ih => cases ih.2

/-- Without an entry, a program is where it was. -/
theorem After.eq_of_nil {p q : Prog Op Res α} (h : p.After [] q) : q = p := by
  generalize hes : [] = es at h
  cases h with
  | start => rfl
  | step r _ => simp at hes

/-- A run of one program after another is still in the first, or the first has returned. -/
theorem After.of_bind {p : Prog Op Res α} {f : α → Prog Op Res β} {q : Prog Op Res β}
    {es : List (Event Op Res)} (h : (p >>= f).After es q) :
    (∃ p', p.After es p' ∧ q = p' >>= f) ∨
      ∃ es₁ es₂ a, es = es₁ ++ es₂ ∧ p.After es₁ (.ret a) ∧ (f a).After es₂ q := by
  induction h with
  | start => exact .inl ⟨p, .start, rfl⟩
  | @step es o k r _ ih =>
      obtain ⟨p', hp', hq⟩ | ⟨es₁, es₂, a, rfl, hp, hf⟩ := ih
      · cases p' with
        | ret a =>
            rw [ret_bind] at hq
            exact .inr ⟨es, [⟨o, r⟩], a, rfl, hp', hq ▸ .cons .start⟩
        | step o' k' =>
            cases hq
            exact .inl ⟨k' r, .step r hp', rfl⟩
        | fault => cases hq
      · exact .inr ⟨es₁, es₂ ++ [⟨o, r⟩], a, List.append_assoc _ _ _, hp, .step r hf⟩

/-- A finished run of one program after another is a finished run of each. -/
theorem After.of_bind_ret {p : Prog Op Res α} {f : α → Prog Op Res β} {b : β}
    {es : List (Event Op Res)} (h : (p >>= f).After es (.ret b)) :
    ∃ es₁ es₂ a, es = es₁ ++ es₂ ∧ p.After es₁ (.ret a) ∧ (f a).After es₂ (.ret b) := by
  obtain ⟨p', hp', hq⟩ | h := h.of_bind
  · cases p' with
    | ret a =>
        rw [ret_bind] at hq
        exact ⟨es, [], a, (List.append_nil es).symm, hp', hq ▸ .start⟩
    | step o k => cases hq
    | fault => cases hq
  · exact h

/-- A run of one operation with a continuation. -/
theorem After.of_step {o : Op} {k : Res o → Prog Op Res α} {q : Prog Op Res α}
    {es : List (Event Op Res)} (h : (Prog.step o k).After es q) :
    es = [] ∨ ∃ r es', es = ⟨o, r⟩ :: es' ∧ (k r).After es' q := by
  induction h with
  | start => exact .inl rfl
  | @step es o' k' r h ih =>
      obtain rfl | ⟨r', es', rfl, h'⟩ := ih
      · cases h.eq_of_nil
        exact .inr ⟨r, [], rfl, .start⟩
      · exact .inr ⟨r', es' ++ [⟨o', r⟩], rfl, .step r h'⟩

/-- A run of a fold is over, or it is at one element of the list. -/
theorem After.of_foldlM {σ : Type} {f : σ → β → Prog Op Res σ} {l : List β} {s : σ}
    {q : Prog Op Res σ} {es : List (Event Op Res)} (h : (l.foldlM f s).After es q) :
    (∃ s', q = .ret s') ∨ ∃ done x rest s' es₁ es₂ p', l = done ++ x :: rest ∧ es = es₁ ++ es₂ ∧
      (done.foldlM f s).After es₁ (.ret s') ∧ (f s' x).After es₂ p' := by
  induction l generalizing s es with
  | nil => exact .inl ⟨s, h.eq_of_ret.2⟩
  | cons x rest ih =>
      rw [List.foldlM_cons] at h
      obtain ⟨p', hp', -⟩ | ⟨es₁, es₂, s₁, rfl, hx, hrest⟩ := h.of_bind
      · exact .inr ⟨[], x, rest, s, [], es, p', rfl, rfl, .start, hp'⟩
      · obtain hret | ⟨done, y, rest, s', es₃, es₄, p', rfl, rfl, hdone, hy⟩ := ih hrest
        · exact .inl hret
        · refine .inr ⟨x :: done, y, rest, s', es₁ ++ es₃, es₄, p', rfl,
            (List.append_assoc _ _ _).symm, ?_, hy⟩
          rw [List.foldlM_cons]
          exact hx.bind hdone

/-- The entries of a loop, round after round; the last round need not be over. -/
inductive Rounds {A : Type} (body : A → Prog Op Res (Option A)) :
    A → List (Event Op Res) → Prop where
  | now {a : A} {es : List (Event Op Res)} {p : Prog Op Res (Option A)} (h : (body a).After es p) :
      Rounds body a es
  | next {a a' : A} {es es' : List (Event Op Res)} (h : (body a).After es (.ret (some a')))
      (hrest : Rounds body a' es') : Rounds body a (es ++ es')

/-- The entries of a loop are those of its rounds. -/
theorem After.rounds {A : Type} {body : A → Prog Op Res (Option A)} {n : Nat} {a : A}
    {q : Prog Op Res Unit} {es : List (Event Op Res)}
    (h : (iterate (.ret ()) body n a).After es q) : Rounds body a es := by
  induction n generalizing a es with
  | zero =>
      obtain ⟨rfl, -⟩ := h.eq_of_ret
      exact .now .start
  | succ n ih =>
      obtain ⟨p', hp', -⟩ | ⟨es₁, es₂, r, rfl, hbody, hrest⟩ := h.of_bind
      · exact .now hp'
      · cases r with
        | none =>
            obtain ⟨rfl, -⟩ := hrest.eq_of_ret
            rw [List.append_nil]
            exact .now hbody
        | some a' => exact .next hbody (ih hrest)

/-- What a program keeps to over its log, it keeps to after a part of a run. -/
theorem After.wp_logging {permits : List (Event Op Res) → Op → Prop} {p p' : Prog Op Res α}
    {before es : List (Event Op Res)} {Q : α → List (Event Op Res) → Prop} (h : p.After es p')
    (hp : p.wp (Contract.logging permits) before Q) :
    p'.wp (Contract.logging permits) (before ++ es) Q := by
  induction h with
  | start => rwa [List.append_nil]
  | @step es o k r _ ih =>
      rw [← List.append_assoc]
      exact ih.2 r _ rfl

/-- The contract of a monitor.  A failure ends it. -/
def Contract.monitor (permits : G → Op → Prop) (next : G → Event Op Res → G) :
    Contract Op Res G where
  ok := permits
  trans g o r g' := g' = next g ⟨o, r⟩
  fault := True

section Monitor

variable {permits : G → Op → Prop} {next : G → Event Op Res → G}

/-- An operation is checked in the state of the monitor, and moves it on. -/
@[simp] theorem wp_monitor_step {o : Op} {k : Res o → Prog Op Res α} {g : G} {Q : α → G → Prop} :
    (Prog.step o k).wp (Contract.monitor permits next) g Q ↔
      permits g o ∧ ∀ r, (k r).wp (Contract.monitor permits next) (next g ⟨o, r⟩) Q := by
  simp [Contract.monitor]

/-- A thread that keeps to a monitor keeps to it over its log. -/
theorem wp_logging_of_monitor {p : Prog Op Res α} {es : List (Event Op Res)} {g : G}
    {Q : α → G → Prop} (h : p.wp (Contract.monitor permits next) (es.foldl next g) Q) :
    p.wp (Contract.logging fun es o => permits (es.foldl next g) o) es
      fun a es => Q a (es.foldl next g) := by
  induction p generalizing es with
  | ret a => exact h
  | step o k ih =>
      obtain ⟨hok, hnext⟩ := wp_monitor_step.mp h
      refine ⟨hok, ?_⟩
      rintro r es' rfl
      exact ih r (by simpa using hnext r)
  | fault => trivial

end Monitor

/-- Two continuations that agree on what the program can return. -/
theorem bind_congr_of_ensures {p : Prog Op Res α} {Q : α → Prop} (h : p.Ensures Q)
    {f g : α → Prog Op Res β} (hfg : ∀ a, Q a → f a = g a) : p >>= f = p >>= g := by
  induction p with
  | ret a => exact hfg a h
  | step o k ih => exact congrArg (Prog.step o) (funext fun r => ih r (ensures_step.mp h r))
  | fault => rfl

end Prog

namespace Threads

open Prog

variable {Op : Type} {Res : Op → Type} {ι S : Type} [DecidableEq ι]

/-- The entries of a thread are a run of its program, up to where the thread is. -/
theorem Reachable.after {act : ι → S → (o : Op) → Res o → S → Prop}
    (log : S → List (ι × Event Op Res))
    (hlog : ∀ {i s o r s'}, act i s o r s' → log s' = log s ++ [(i, ⟨o, r⟩)])
    {start now : (ι → Prog Op Res Unit) × S} (hstart : log start.2 = [])
    (h : Reachable act start now) (i : ι) : (start.1 i).After (own (log now.2) i) (now.1 i) := by
  induction h with
  | refl =>
      rw [hstart]
      exact .start
  | tail _ hstep ih =>
      cases hstep with
      | @mk ps s s' j o k r hp ha =>
          rw [hlog ha, own_concat]
          by_cases hj : i = j
          · subst hj
            rw [Function.update_self]
            simp only [Function.update_self]
            exact .step r (hp ▸ ih)
          · rw [Function.update_of_ne hj]
            simpa only [Function.update_of_ne hj] using ih

end Threads
