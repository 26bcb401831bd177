import Outway.Lib.Prog

/-!
# Outway.Lib.Log

Logs of operations.

A contract can be about what a program has done so far: `Contract.logging` lets an
operation through by the history of the program.  When the shared state of a set
of threads keeps the log of all their operations, `Threads.permitted` says that
every entry was permitted by its thread's own entries before it.

`Justified`, `Occurs` and `latest` are the ways a property looks into a log: every
entry, or some entry, against the entries before it, and the last entry of a kind.
-/

section Lists

variable {β γ : Type}

/-- Every entry of the log stands in `P` to the entries before it. -/
def Justified (P : List β → β → Prop) (log : List β) : Prop :=
  ∀ before x after, log = before ++ x :: after → P before x

theorem justified_nil (P : List β → β → Prop) : Justified P [] := by
  intro before x after h
  simp at h

/-- A place in an extended log is the new entry or a place in the log. -/
theorem concat_eq_append_cons {log before after : List β} {x y : β}
    (heq : log ++ [x] = before ++ y :: after) :
    log = before ∧ x = y ∨ ∃ rest, log = before ++ y :: rest := by
  obtain rfl | ⟨rest, z, rfl⟩ := after.eq_nil_or_concat
  · obtain ⟨rfl, hxy⟩ := List.append_inj' heq rfl
    exact .inl ⟨rfl, List.singleton_inj.mp hxy⟩
  · rw [List.concat_eq_append, ← List.cons_append, ← List.append_assoc] at heq
    exact .inr ⟨rest, (List.append_inj' heq rfl).1⟩

/-- A log is justified when its last entry is, behind the others. -/
theorem Justified.concat {P : List β → β → Prop} {log : List β} {x : β} (h : Justified P log)
    (hx : P log x) : Justified P (log ++ [x]) := by
  intro before y after heq
  obtain ⟨rfl, rfl⟩ | ⟨rest, hlog⟩ := concat_eq_append_cons heq
  · exact hx
  · exact h before y rest hlog

/-- What is justified in a log is justified in its beginnings. -/
theorem Justified.initial {P : List β → β → Prop} {log start : List β} (h : Justified P log)
    (hstart : start <+: log) : Justified P start := by
  obtain ⟨rest, rfl⟩ := hstart
  intro before x after heq
  exact h before x (after ++ rest) (by rw [heq, List.append_assoc, List.cons_append])

/-- An entry is justified by what stands before it. -/
theorem Justified.of_mem {P : List β → β → Prop} {log : List β} {x : β} (h : Justified P log)
    (hx : x ∈ log) : ∃ before, before <+: log ∧ P before x := by
  obtain ⟨before, after, rfl⟩ := List.append_of_mem hx
  exact ⟨before, List.prefix_append _ _, h before x after rfl⟩

/-- What holds of the empty log and is carried along by every justified entry holds of a
justified log. -/
theorem Justified.induction {P : List β → β → Prop} {Q : List β → Prop} {log : List β}
    (h : Justified P log) (hnil : Q []) (hconcat : ∀ es e, Q es → P es e → Q (es ++ [e])) :
    Q log := by
  induction log using List.reverseRecOn with
  | nil => exact hnil
  | append_singleton es e ih =>
      exact hconcat es e (ih (h.initial (List.prefix_append es [e]))) (h es e [] rfl)

/-- Some entry of the log stands in `P` to the entries before it. -/
def Occurs (P : List β → β → Prop) (log : List β) : Prop :=
  ∃ before x after, log = before ++ x :: after ∧ P before x

theorem not_occurs_nil (P : List β → β → Prop) : ¬ Occurs P [] := by
  rintro ⟨before, x, after, h, -⟩
  simp at h

/-- Something occurs with the last entry, or has occurred before. -/
theorem occurs_concat {P : List β → β → Prop} {log : List β} {x : β} :
    Occurs P (log ++ [x]) ↔ Occurs P log ∨ P log x := by
  constructor
  · rintro ⟨before, y, after, heq, hP⟩
    obtain ⟨rfl, rfl⟩ | ⟨rest, hlog⟩ := concat_eq_append_cons heq
    · exact .inr hP
    · exact .inl ⟨before, y, rest, hlog, hP⟩
  · rintro (⟨before, y, after, rfl, hP⟩ | hP)
    · exact ⟨before, y, after ++ [x], by simp, hP⟩
    · exact ⟨log, x, [], rfl, hP⟩

theorem countP_concat (p : β → Bool) (log : List β) (x : β) :
    (log ++ [x]).countP p = log.countP p + (p x).toNat := by
  rw [List.countP_append, List.countP_singleton]
  cases p x <;> rfl

theorem filterMap_concat (f : β → Option γ) (log : List β) (x : β) :
    (log ++ [x]).filterMap f = log.filterMap f ++ (f x).toList := by
  rw [List.filterMap_append]
  cases hx : f x <;> simp [hx]

/-- The value of the last entry that has one. -/
def latest (f : β → Option γ) (log : List β) : Option γ := log.reverse.findSome? f

@[simp] theorem latest_nil (f : β → Option γ) : latest f [] = none := rfl

/-- The latest is the last entry's, if it has one. -/
@[simp] theorem latest_concat (f : β → Option γ) (log : List β) (x : β) :
    latest f (log ++ [x]) = (f x).or (latest f log) := by
  rw [latest, List.reverse_concat, List.findSome?_cons]
  cases f x <;> rfl

/-- Behind the latest entry of a kind there is no other. -/
theorem latest_eq_some {f : β → Option γ} {log : List β} {c : γ} (h : latest f log = some c) :
    ∃ before x after, log = before ++ x :: after ∧ f x = some c ∧ ∀ y ∈ after, f y = none := by
  obtain ⟨l₁, x, l₂, hlog, hx, hnone⟩ := List.findSome?_eq_some_iff.mp h
  refine ⟨l₂.reverse, x, l₁.reverse, ?_, hx, fun y hy => hnone y (List.mem_reverse.mp hy)⟩
  rw [← List.reverse_reverse log, hlog]
  simp

end Lists

namespace Prog

variable {Op : Type} {Res : Op → Type}

/-- An operation with its result. -/
abbrev Event (Op : Type) (Res : Op → Type) : Type := (o : Op) × Res o

/-- The contract over the history of a program.  A failure ends it. -/
def Contract.logging (permits : List (Event Op Res) → Op → Prop) :
    Contract Op Res (List (Event Op Res)) where
  ok := permits
  trans es o r es' := es' = es ++ [⟨o, r⟩]
  fault := True

/-- One operation. -/
theorem wp_op {permits : List (Event Op Res) → Op → Prop} {o : Op} {es : List (Event Op Res)}
    {Q : Res o → List (Event Op Res) → Prop} (hok : permits es o)
    (hQ : ∀ r, Q r (es ++ [⟨o, r⟩])) :
    (Prog.step o .ret).wp (Contract.logging permits) es Q := by
  refine ⟨hok, fun r es' hes' => ?_⟩
  rw [hes']
  exact hQ r

/-- The program can perform the operations of `es` with their results and return `a`. -/
def Performs {α : Type} (p : Prog Op Res α) (es : List (Event Op Res)) (a : α) : Prop :=
  Exec (fun es o r es' => es' = es ++ [⟨o, r⟩]) [] p es a

/-- What a program has done satisfies its postcondition. -/
theorem Performs.of_wp {α : Type} {permits : List (Event Op Res) → Op → Prop} {p : Prog Op Res α}
    {es : List (Event Op Res)} {a : α} {Q : α → List (Event Op Res) → Prop}
    (h : p.Performs es a) (hp : p.wp (Contract.logging permits) [] Q) : Q a es :=
  wp_exec hp h

/-- Any program keeps to the contract that permits everything. -/
theorem wp_logging_true {α : Type} (p : Prog Op Res α) (es : List (Event Op Res)) :
    p.wp (Contract.logging fun _ _ => True) es fun _ _ => True := by
  induction p generalizing es with
  | ret a => trivial
  | step o k ih => exact ⟨trivial, fun r es' _ => ih r es'⟩
  | fault => trivial

end Prog

namespace Threads

open Prog

variable {Op : Type} {Res : Op → Type} {ι S : Type} [DecidableEq ι]

/-- Changing one summand. -/
theorem sum_update_add {κ G M : Type} [DecidableEq κ] [AddCommMonoid M] {t : Finset κ} {i : κ}
    (hi : i ∈ t) (f : G → M) (gs : κ → G) (g : G) :
    ∑ j ∈ t, f (Function.update gs i g j) + f (gs i) = ∑ j ∈ t, f (gs j) + f g := by
  have hrest : ∑ j ∈ t.erase i, f (Function.update gs i g j) = ∑ j ∈ t.erase i, f (gs j) :=
    Finset.sum_congr rfl fun j hj => by
      rw [Function.update_of_ne (Finset.ne_of_mem_erase hj)]
  rw [← Finset.add_sum_erase t _ hi, ← Finset.add_sum_erase t (fun j => f (gs j)) hi, hrest,
    Function.update_self]
  abel

/-- The entries of one thread. -/
def own (log : List (ι × Event Op Res)) (i : ι) : List (Event Op Res) :=
  log.filterMap fun x => if x.1 = i then some x.2 else none

/-- An entry is one of its own thread. -/
theorem own_concat (log : List (ι × Event Op Res)) (i : ι) (e : Event Op Res) :
    own (log ++ [(i, e)]) = Function.update (own log) i (own log i ++ [e]) := by
  funext j
  by_cases hj : j = i
  · subst hj
    simp [own]
  · simp [own, Function.update_of_ne hj, Ne.symm hj]

/-- A thread's entries in a beginning are among its entries. -/
theorem own_subset {start log : List (ι × Event Op Res)} (h : start <+: log) (i : ι) :
    own start i ⊆ own log i := by
  obtain ⟨rest, rfl⟩ := h
  rw [own, own, List.filterMap_append]
  exact List.subset_append_left _ _

/-- A thread's entries are those of the log that it made. -/
theorem mem_own {log : List (ι × Event Op Res)} {i : ι} {e : Event Op Res} :
    e ∈ own log i ↔ (i, e) ∈ log := by
  simp [own]

/-- A place among the entries of one thread is a place in the log. -/
theorem own_eq_append_cons {log : List (ι × Event Op Res)} {i : ι} {e : Event Op Res}
    {es es' : List (Event Op Res)} (h : own log i = es ++ e :: es') :
    ∃ before after, log = before ++ (i, e) :: after ∧ own before i = es ∧ own after i = es' := by
  obtain ⟨l₁, l₂, rfl, rfl, htail⟩ := List.filterMap_eq_append_iff.mp h
  obtain ⟨skipped, x, after, rfl, hskipped, hx, hafter⟩ := List.filterMap_eq_cons_iff.mp htail
  have hentry : x = (i, e) := by grind
  have hnone : own skipped i = [] := List.filterMap_eq_nil_iff.mpr hskipped
  refine ⟨l₁ ++ skipped, after, by rw [hentry, List.append_assoc], ?_, hafter⟩
  rw [own, List.filterMap_append]
  exact (congrArg _ hnone).trans (List.append_nil _)

/-- When every entry is justified by its thread's own, each thread's entries are justified. -/
theorem justified_own {P : ι → List (Event Op Res) → Event Op Res → Prop}
    {log : List (ι × Event Op Res)}
    (h : Justified (fun before x => P x.1 (own before x.1) x.2) log) (i : ι) :
    Justified (P i) (own log i) := by
  intro es e es' heq
  obtain ⟨before, after, hlog, rfl, -⟩ := own_eq_append_cons heq
  exact h before (i, e) after hlog

/-- What only the entries of one thread have can be read off these. -/
theorem filterMap_own {γ : Type} {f : Event Op Res → Option γ}
    {log : List (ι × Event Op Res)} {i : ι} (h : ∀ x ∈ log, x.1 ≠ i → f x.2 = none) :
    (own log i).filterMap f = log.filterMap fun x => f x.2 := by
  rw [own, List.filterMap_filterMap]
  refine List.filterMap_congr fun x hx => ?_
  by_cases hi : x.1 = i
  · rw [if_pos hi, Option.bind_some]
  · rw [if_neg hi, Option.bind_none, h x hx hi]

/-- A sum over the log, thread by thread. -/
theorem sum_own {M : Type} [AddCommMonoid M] (f : Event Op Res → M) {T : Finset ι}
    {log : List (ι × Event Op Res)} (hT : ∀ x ∈ log, x.1 ∈ T) :
    ∑ i ∈ T, ((own log i).map f).sum = (log.map fun x => f x.2).sum := by
  induction log with
  | nil => simp [own]
  | cons x log ih =>
      have hx (i : ι) : ((own (x :: log) i).map f).sum =
          (if x.1 = i then f x.2 else 0) + ((own log i).map f).sum := by
        simp only [own, List.filterMap_cons]
        split_ifs <;> simp
      simp only [hx]
      rw [Finset.sum_add_distrib, Finset.sum_ite_eq, if_pos (hT x List.mem_cons_self),
        ih fun y hy => hT y (List.mem_cons_of_mem x hy), List.map_cons, List.sum_cons]

/-- The log only grows. -/
theorem log_prefix {act : ι → S → (o : Op) → Res o → S → Prop} (log : S → List (ι × Event Op Res))
    (hlog : ∀ {i s o r s'}, act i s o r s' → log s' = log s ++ [(i, ⟨o, r⟩)])
    {now later : (ι → Prog Op Res Unit) × S} (h : Reachable act now later) :
    log now.2 <+: log later.2 := by
  induction h with
  | refl => exact List.prefix_refl _
  | tail _ hstep ih =>
      obtain ⟨i, o, k, r, hp, ha⟩ := hstep
      rw [hlog ha]
      exact ih.trans (List.prefix_append _ _)

/-- **Invariants of logged threads.**  Suppose each thread's program keeps to what `permits`
says about its own history, the shared state keeps the log, and an operation permitted
by its thread's entries in the log carries `Inv` along.  Then `Inv` holds in every
reachable state, and every thread keeps to `permits` from there on. -/
theorem logged {act : ι → S → (o : Op) → Res o → S → Prop} (log : S → List (ι × Event Op Res))
    (hlog : ∀ {i s o r s'}, act i s o r s' → log s' = log s ++ [(i, ⟨o, r⟩)])
    (permits : ι → List (Event Op Res) → Op → Prop) (post : ι → List (Event Op Res) → Prop)
    (Inv : S → Prop)
    (hstep : ∀ {i s o r s'}, Inv s → permits i (own (log s) i) o → act i s o r s' → Inv s')
    {start now : (ι → Prog Op Res Unit) × S} (hstart : log start.2 = []) (hinv : Inv start.2)
    (hwp : ∀ i, (start.1 i).wp (Contract.logging (permits i)) [] fun _ es => post i es)
    (h : Reachable act start now) :
    Inv now.2 ∧ ∀ i, (now.1 i).wp (Contract.logging (permits i)) (own (log now.2) i)
      fun _ es => post i es := by
  obtain ⟨gs, ⟨rfl, hinv⟩, hwp⟩ := invariant (fun i => Contract.logging (permits i))
    (fun gs s => gs = own (log s) ∧ Inv s) post
    (fun {gs s i o r s'} ⟨hgs, hinv⟩ hok ha => by
      refine ⟨_, rfl, ?_, ?_⟩
      · rw [hlog ha, own_concat, hgs]
      · exact hstep hinv (hgs ▸ hok) ha)
    ⟨rfl, hinv⟩ (by rw [hstart]; exact hwp) h
  exact ⟨hinv, hwp⟩

/-- **Permitted logs.**  Under the same assumptions every entry of the log was permitted
when it was made. -/
theorem permitted {act : ι → S → (o : Op) → Res o → S → Prop} (log : S → List (ι × Event Op Res))
    (hlog : ∀ {i s o r s'}, act i s o r s' → log s' = log s ++ [(i, ⟨o, r⟩)])
    (permits : ι → List (Event Op Res) → Op → Prop) {start now : (ι → Prog Op Res Unit) × S}
    (hstart : log start.2 = [])
    (hwp : ∀ i, (start.1 i).wp (Contract.logging (permits i)) [] fun _ _ => True)
    (h : Reachable act start now) :
    Justified (fun before x => permits x.1 (own before x.1) x.2.1) (log now.2) :=
  (logged log hlog permits (fun _ _ => True)
    (fun s => Justified (fun before x => permits x.1 (own before x.1) x.2.1) (log s))
    (fun {i s o r s'} hjust hok ha => by
      rw [hlog ha]
      exact hjust.concat hok)
    hstart (by rw [hstart]; exact justified_nil _) hwp h).1

end Threads
