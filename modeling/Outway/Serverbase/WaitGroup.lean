import Outway.Lib.Progress
import Outway.Serverbase.Lifecycle

/-!
# Outway.Serverbase.WaitGroup

The counter of the wait group is the number of the goroutines that were added to it and
have not left it.

A run of the lifecycle is a run of `Serverbase.Accept` with more entries (`Linked`): what
that module keeps is kept here.  A connection is then handed over once, a handler added
once, and the tasks that were added and not finished are what the counter counts
(`Counted`).  An accept loop that adds a handler is itself one of them, so that its `Add`
never finds the counter at zero.
-/

namespace Outway.Serverbase.Lifecycle

open Prog

variable {life : Lifecycle}

/-! ## The run of the accept model -/

/-- The entry that `Serverbase.Accept` sees. -/
def project (x : life.ι × life.Event) : Option (life.server.ι × Serverbase.Event) :=
  (part x.1).bind fun b => (baseEvent x.2).map fun e => (b, e)

def baseLog (log : List (life.ι × life.Event)) : List (life.server.ι × Serverbase.Event) :=
  log.filterMap project

/-- The entries of a thread there are its entries here. -/
theorem own_baseLog {log : List (life.ι × life.Event)} {i : life.ι} {b : life.server.ι}
    (hb : part i = some b) (honly : ∀ x ∈ log, part x.1 = some b → x.1 ≠ i → baseEvent x.2 = none) :
    Threads.own (baseLog log) b = baseEvents (Threads.own log i) := by
  rw [Threads.own, baseLog, List.filterMap_filterMap, baseEvents, Threads.own,
    List.filterMap_filterMap]
  refine List.filterMap_congr fun x hx => ?_
  by_cases hi : x.1 = i
  · subst hi
    cases he : baseEvent x.2 <;> simp [project, hb, he]
  · by_cases hpart : part x.1 = some b
    · simp [project, hi, honly x hx hpart hi]
    · cases hp : part x.1 with
      | none => simp [project, hi, hp]
      | some b' =>
          have hne : b' ≠ b := fun h => hpart (by rw [hp, h])
          cases he : baseEvent x.2 <;> simp [project, hi, hp, he, hne]

/-- The entries of a loop, without those about the wait group. -/
theorem own_baseLog_loop (log : List (life.ι × life.Event)) (ln : Fin life.listeners) :
    Threads.own (baseLog log) (.acceptLoop ln) = baseEvents (Threads.own log (.acceptLoop ln)) := by
  refine own_baseLog (i := .acceptLoop ln) rfl fun x _ hx hne => ?_
  cases hi : x.1 <;> simp_all [part]

theorem own_baseLog_handler (log : List (life.ι × life.Event)) (conn : Conn) :
    Threads.own (baseLog log) (.handler conn) = baseEvents (Threads.own log (.handler conn)) := by
  refine own_baseLog (i := .handler conn) rfl fun x _ hx hne => ?_
  cases hi : x.1 <;> simp_all [part]

/-- The caller that got `closeOnce`. -/
def Once.owner : Once → Option Nat
  | .fresh => none
  | .running n => some n
  | .finished n _ => some n

/-- The lifecycle follows the accept model. -/
structure Linked (s : life.State) : Prop where
  log_eq : s.base.log = baseLog s.log
  once_eq : ∀ n, (.closer n, ⟨.onceDo, true⟩) ∈ s.log → s.once.owner = some n
  closer_once : ∀ n e, (.closer n, e) ∈ s.log → (baseEvent e).isSome →
    (.closer n, ⟨.onceDo, true⟩) ∈ s.log
  kept : Server.Kept s.base

theorem linked_init : Linked life.init where
  log_eq := rfl
  once_eq _ h := absurd h List.not_mem_nil
  closer_once _ _ h := absurd h List.not_mem_nil
  kept := Server.kept_init

section Step

variable {i : life.ι} {s s' : life.State} {o : Op life.listeners} {r : Res o}

/-- An operation of the accept model is its step there, and no other is one. -/
theorem base_of_act (ha : act i s o r s') :
    (∃ bo br b, o = .base bo ∧ baseEvent ⟨o, r⟩ = some ⟨bo, br⟩ ∧ part i = some b ∧
      Server.act b s.base bo br s'.base) ∨
    baseEvent ⟨o, r⟩ = none ∧ s'.base = s.base := by
  obtain ⟨t, ht, rfl⟩ := ha
  cases o <;> simp only [effect] at ht <;> simp only [baseEvent] <;> grind

/-- `closeOnce` has one owner, which keeps it. -/
theorem owner_of_act (ha : act i s o r s') :
    (∀ n, s.once.owner = some n → s'.once.owner = some n ∨
      ∃ m err, i = .closer m ∧ o = .setCloseErr err ∧ s'.once = .finished m err) ∧
    ∀ n, (i, (⟨o, r⟩ : life.Event)) = (.closer n, ⟨.onceDo, true⟩) →
      s.once = .fresh ∧ s'.once = .running n := by
  obtain ⟨t, ht, rfl⟩ := ha
  cases o <;> simp only [effect] at ht <;> grind [Once.owner]

theorem length_baseEvents {es : List life.Event} (h : ∀ o ∈ ops es, ∃ bo, o = .base bo) :
    (baseEvents es).length = (ops es).length := by
  induction es using List.reverseRecOn with
  | nil => rfl
  | append_singleton es e ih =>
      simp only [ops_concat, List.forall_mem_append, List.forall_mem_singleton] at h
      obtain ⟨o, r⟩ := e
      obtain ⟨bo, rfl⟩ := h.2
      simp [ih h.1, baseEvent]

/-- All operations of a handler but the last are its operations in the accept model. -/
theorem handlerPermits_of_scripted {conn : Conn} {es : List life.Event} {bo : Serverbase.Op}
    (h : Scripted (life.handlerOps conn) es (.base bo)) :
    handlerPermits life.server.gate conn (baseEvents es) bo := by
  have hprefix : ops es ++ [.base bo] <+: (Serverbase.handlerOps life.server.gate conn).map
    .base := by
    refine (List.prefix_concat_iff.mp h).resolve_left fun heq => ?_
    simpa using (List.append_inj' heq rfl).2
  have hbase : ∀ o ∈ ops es, ∃ bo, o = .base bo := fun o ho => by
    have := hprefix.subset (List.mem_append_left _ ho)
    grind
  obtain ⟨rest, hrest⟩ := hprefix
  have hat := congrArg (fun l => l[(ops es).length]?) hrest
  simpa [handlerPermits, length_baseEvents hbase] using hat.symm

/-- What the lifecycle permits, the accept model permits. -/
theorem Linked.permits (h : Linked s) {bo : Serverbase.Op} {b : life.server.ι}
    (hb : part i = some b) (hp : Lifecycle.permits i (Threads.own s.log i) (.base bo)) :
    life.server.permits b (Threads.own s.base.log b) bo := by
  rw [h.log_eq]
  cases i with
  | acceptLoop ln =>
      obtain rfl := Option.some.inj hb
      rw [own_baseLog_loop]
      obtain hscript | ⟨-, hloop⟩ := hp
      · exact False.elim (preparing_of_scripted hscript)
      · cases bo with
        | go conn => exact hloop.2
        | _ => exact hloop.2.1
  | handler conn =>
      obtain rfl := Option.some.inj hb
      rw [own_baseLog_handler]
      exact handlerPermits_of_scripted hp
  | closer n =>
      obtain rfl := Option.some.inj hb
      -- only the caller that got `closeOnce` has entries there
      rw [own_baseLog (i := .closer n) rfl fun x hx hpart hne => ?_]
      · exact hp.2
      · obtain ⟨j, e⟩ := x
        cases j with
        | closer m =>
            by_contra he
            have hm := h.once_eq m (h.closer_once m e hx (Option.isSome_iff_ne_none.mpr he))
            have hn := h.once_eq n (Threads.mem_own.mp hp.1)
            exact hne (by rw [Option.some.inj (hm.symm.trans hn)])
        | _ => simp [part] at hpart
  | waiter => exact absurd hb (by simp [part])

/-- A step of the lifecycle is a permitted step of the accept model, or none. -/
theorem Linked.base_step (h : Linked s) (hp : Lifecycle.permits i (Threads.own s.log i) o)
    (ha : act i s o r s') :
    (∃ bo br b, o = .base bo ∧ baseEvent ⟨o, r⟩ = some ⟨bo, br⟩ ∧ part i = some b ∧
      life.server.permits b (Threads.own s.base.log b) bo ∧ Server.act b s.base bo br s'.base) ∨
    baseEvent ⟨o, r⟩ = none ∧ s'.base = s.base := by
  obtain ⟨bo, br, b, rfl, he, hb, hact⟩ | hquiet := base_of_act ha
  · exact .inl ⟨bo, br, b, rfl, he, hb, h.permits hb hp, hact⟩
  · exact .inr hquiet

/-- The gate and the set are those of the smaller model. -/
theorem Linked.step (h : Linked s) (hp : Lifecycle.permits i (Threads.own s.log i) o)
    (ha : act i s o r s') : Linked s' := by
  have hlog := log_of_act ha
  obtain ⟨howner, honce⟩ := owner_of_act ha
  refine ⟨?_, fun n hmem => ?_, fun n e hmem he => ?_, ?_⟩
  · rw [hlog, baseLog, filterMap_concat]
    obtain ⟨bo, br, b, rfl, he, hb, hact⟩ | ⟨he, hbase⟩ := base_of_act ha
    · rw [Server.log_of_act hact, h.log_eq]
      simp [project, hb, he, baseLog]
    · rw [hbase, h.log_eq]
      cases hb : part i <;> simp [project, hb, he, baseLog]
  · rw [hlog] at hmem
    obtain hmem | hmem := List.mem_append.mp hmem
    · have hn := h.once_eq n hmem
      obtain hsame | ⟨m, err, rfl, rfl, hset⟩ := howner n hn
      · exact hsame
      · -- only the owner leaves the function
        have hm := h.once_eq m (Threads.mem_own.mp hp.1)
        rw [hset, Once.owner]
        exact hm.symm.trans hn
    · rw [(honce n (List.mem_singleton.mp hmem).symm).2]
      rfl
  · rw [hlog] at hmem ⊢
    obtain hmem | hmem := List.mem_append.mp hmem
    · exact List.mem_append_left _ (h.closer_once n e hmem he)
    · obtain ⟨rfl, rfl⟩ := Prod.mk.inj (List.mem_singleton.mp hmem)
      cases o with
      | base bo => exact List.mem_append_left _ (Threads.mem_own.mp hp.1)
      | _ => simp [baseEvent] at he
  · obtain ⟨bo, br, b, rfl, he, hb, hpb, hact⟩ | ⟨-, hbase⟩ := h.base_step hp ha
    · exact h.kept.step hpb hact
    · rw [hbase]
      exact h.kept

end Step

/-! ## Tasks -/

def adds : life.Event → Option (Task life.listeners)
  | ⟨.wgAdd t, _⟩ => some t
  | _ => none

def dones : life.Event → Option (Task life.listeners)
  | ⟨.wgDone t, _⟩ => some t
  | _ => none

/-- The tasks that were added to the wait group. -/
def added (log : List (life.ι × life.Event)) : List (Task life.listeners) :=
  log.filterMap fun x => adds x.2

/-- The tasks that have left it. -/
def finished (log : List (life.ι × life.Event)) : List (Task life.listeners) :=
  log.filterMap fun x => dones x.2

@[simp] theorem added_concat (log : List (life.ι × life.Event)) (i : life.ι) (e : life.Event) :
    added (log ++ [(i, e)]) = added log ++ (adds e).toList :=
  filterMap_concat _ _ _

@[simp] theorem finished_concat (log : List (life.ι × life.Event)) (i : life.ι) (e : life.Event) :
    finished (log ++ [(i, e)]) = finished log ++ (dones e).toList :=
  filterMap_concat _ _ _

theorem adds_eq_some {e : life.Event} {t : Task life.listeners} :
    adds e = some t ↔ e.1 = .wgAdd t := by
  obtain ⟨o, r⟩ := e
  cases o <;> simp [adds]

theorem dones_eq_some {e : life.Event} {t : Task life.listeners} :
    dones e = some t ↔ e.1 = .wgDone t := by
  obtain ⟨o, r⟩ := e
  cases o <;> simp [dones]

/-- What a thread has added is added. -/
theorem mem_added_of_own {log : List (life.ι × life.Event)} {i : life.ι} {t : Task life.listeners}
    (h : .wgAdd t ∈ ops (Threads.own log i)) : t ∈ added log := by
  obtain ⟨e, he, ht⟩ := List.mem_map.mp h
  exact List.mem_filterMap.mpr ⟨(i, e), Threads.mem_own.mp he, adds_eq_some.mpr ht⟩

/-- The goroutine that a task is. -/
def Task.thread : Task life.listeners → life.ι
  | .acceptLoop ln => .acceptLoop ln
  | .handler conn => .handler conn

/-! ### Who adds and who leaves -/

/-- `Start` adds a loop before it starts it. -/
theorem mem_of_goLoop {l : List (Fin life.extra)} {before : List (Op life.listeners)}
    {ln : Fin life.listeners}
    (h : before ++ [.goLoop ln] <+: l.flatMap (fun ln => [.wgAdd (.acceptLoop ln.succ),
      .goLoop ln.succ]) ++ [.wgAdd (.acceptLoop 0)]) : .wgAdd (.acceptLoop ln) ∈ before := by
  induction l generalizing before with
  | nil => rcases before with _ | ⟨a, before⟩ <;> simp at h
  | cons ln' l ih =>
      rcases before with _ | ⟨a, _ | ⟨b, before⟩⟩
      · simp at h
      · simp only [List.flatMap_cons, List.cons_append, List.nil_append, List.cons_prefix_cons] at h
        grind
      · simp only [List.flatMap_cons, List.cons_append, List.nil_append, List.cons_prefix_cons] at h
        exact List.mem_cons_of_mem _ (List.mem_cons_of_mem _ (ih h.2.2))

/-- No loop is added twice. -/
theorem nodup_prologue (ln : Fin life.listeners) : (life.prologue ln).Nodup := by
  unfold prologue
  split_ifs
  · simp only [List.nodup_append, List.nodup_flatMap]
    refine ⟨⟨by simp, ?_⟩, by simp, ?_⟩
    · refine (List.nodup_finRange life.extra).imp fun {a b} hab => ?_
      simp [Function.onFun, List.disjoint_left, hab]
    · simp only [List.mem_flatMap, List.mem_cons, List.not_mem_nil, or_false]
      rintro _ ⟨ln, -, rfl | rfl⟩ _ rfl <;> simp [Fin.succ_ne_zero]
  · simp

/-- What is still to come of the prologue was not done. -/
theorem notMem_of_scripted {ln : Fin life.listeners} {es : List life.Event} {o : Op life.listeners}
    (h : Scripted (life.prologue ln) es o) : o ∉ ops es := by
  have hnodup := (nodup_prologue ln).sublist h.sublist
  intro hmem
  exact (List.nodup_append.mp hnodup).2.2 _ hmem _ (List.mem_singleton_self o) rfl

/-- `Start` adds the loops, and the loops add the handlers. -/
theorem add_of_permits {i : life.ι} {es : List life.Event} {t : Task life.listeners}
    (h : Lifecycle.permits i es (.wgAdd t)) :
    (i = .acceptLoop 0 ∧ (∃ ln, t = .acceptLoop ln) ∧ Scripted (life.prologue 0) es (.wgAdd t)) ∨
    ∃ ln conn, i = .acceptLoop ln ∧ t = .handler conn ∧ Looping ln es ∧ reserved es = false ∧
      Serverbase.loopPermits life.server.gate (baseEvents es) (.go conn) := by
  obtain ⟨ln, rfl⟩ : ∃ ln, i = .acceptLoop ln := belongs_of_permits h
  obtain hscript | ⟨hlooping, hloop⟩ := h
  · have hprep := preparing_of_scripted hscript
    cases t with
    | handler conn => exact False.elim hprep
    | acceptLoop l =>
        by_cases hln : ln = 0
        · subst hln
          exact .inl ⟨rfl, ⟨l, rfl⟩, hscript⟩
        · have := hscript.subset (List.mem_append_right _ (List.mem_singleton_self _))
          simp [prologue, hln] at this
  · cases t with
    | acceptLoop l => exact False.elim hloop
    | handler conn => exact .inr ⟨ln, conn, rfl, rfl, hlooping, hloop⟩

/-- A loop is added before it is started. -/
theorem goLoop_added {log : List (life.ι × life.Event)} {i : life.ι} {ln : Fin life.listeners}
    (h : Lifecycle.permits i (Threads.own log i) (.goLoop ln)) : .acceptLoop ln ∈ added log := by
  obtain ⟨l, rfl⟩ : ∃ l, i = .acceptLoop l := belongs_of_permits h
  obtain hscript | ⟨-, hloop⟩ := h
  · by_cases hl : l = 0
    · subst hl
      have hadd : .wgAdd (.acceptLoop ln) ∈ ops (Threads.own log (.acceptLoop 0)) :=
        mem_of_goLoop (l := List.finRange life.extra) hscript
      exact mem_added_of_own hadd
    · have := hscript.subset (List.mem_append_right _ (List.mem_singleton_self _))
      simp [prologue, hl] at this
  · exact False.elim hloop

/-- So is a handler. -/
theorem go_added {log : List (life.ι × life.Event)} {i : life.ι} {conn : Conn}
    (h : Lifecycle.permits i (Threads.own log i) (.base (.go conn))) :
      .handler conn ∈ added log := by
  obtain ⟨ln, rfl⟩ : ∃ ln, i = .acceptLoop ln := belongs_of_permits h
  obtain hscript | ⟨-, hloop⟩ := h
  · exact False.elim (preparing_of_scripted hscript)
  · exact mem_added_of_own hloop.1

/-- A goroutine leaves the wait group once, when it has done all the rest. -/
theorem done_of_permits {i : life.ι} {es : List life.Event} {t : Task life.listeners}
    (h : Lifecycle.permits i es (.wgDone t)) :
    i = t.thread ∧ .wgDone t ∉ ops es ∧
      ((∃ ln, t = .acceptLoop ln ∧ Looping ln es ∧ reserved es = false ∧
          pending (baseEvents es) = .idle ∧ ∃ e ∈ baseEvents es, tellsEnd e) ∨
        ∃ conn, t = .handler conn ∧
          ops es = (Serverbase.handlerOps life.server.gate conn).map .base) := by
  cases i with
  | acceptLoop ln =>
      obtain hscript | ⟨hlooping, rfl, hloop⟩ := h
      · exact False.elim (preparing_of_scripted hscript)
      · exact ⟨rfl, hlooping.not_done, .inl ⟨ln, rfl, hlooping, hloop⟩⟩
  | handler conn =>
      obtain heq | hprefix := List.prefix_concat_iff.mp h
      · obtain ⟨hops, hlast⟩ := List.append_inj' heq rfl
        obtain rfl : t = .handler conn := by simpa using hlast
        refine ⟨rfl, ?_, .inr ⟨conn, rfl, hops⟩⟩
        rw [ops, hops]
        simp
      · have := hprefix.subset (List.mem_append_right _ (List.mem_singleton_self _))
        simp at this
  | closer n => exact False.elim h
  | waiter => exact False.elim h

/-! ## The counter -/

/-- The pending connection of an accept loop, which `Serverbase.Accept` sees too. -/
def waitingConn (log : List (life.ι × life.Event)) (ln : Fin life.listeners) : Option Conn :=
  (pending (baseEvents (Threads.own log (.acceptLoop ln)))).conn

/-- The tasks of the wait group and its counter. -/
structure Counted (s : life.State) : Prop where
  linked : Linked s
  counter : s.wg + (finished s.log).length = (added s.log).length
  nodup_added : (added s.log).Nodup
  nodup_finished : (finished s.log).Nodup
  finished_subset : finished s.log ⊆ added s.log
  /-- a goroutine leaves the wait group itself -/
  done_own : ∀ t ∈ finished s.log, .wgDone t ∈ ops (Threads.own s.log t.thread)
  /-- the loops are added by `Start` -/
  loop_own : ∀ ln, .acceptLoop ln ∈ added s.log →
    .wgAdd (.acceptLoop ln) ∈ ops (Threads.own s.log (.acceptLoop 0))
  loops_added : ∀ ln ∈ s.loops, .acceptLoop ln ∈ added s.log
  begun_added : ∀ i ln, .beginLoop ln ∈ ops (Threads.own s.log i) → .acceptLoop ln ∈ added s.log
  started_added : ∀ conn ∈ Server.started s.base.log, .handler conn ∈ added s.log
  handler_ops : ∀ conn, ops (Threads.own s.log (.handler conn)) <+: life.handlerOps conn
  /-- a handler that was added was started, or is about to be -/
  handler_added : ∀ conn, .handler conn ∈ added s.log → conn ∈ Server.started s.base.log ∨
    ∃ ln, reserved (Threads.own s.log (.acceptLoop ln)) = true ∧ waitingConn s.log ln = some conn

/-- The wait group is at zero. -/
theorem counted_init : Counted life.init where
  linked := linked_init
  counter := rfl
  nodup_added := List.nodup_nil
  nodup_finished := List.nodup_nil
  finished_subset := List.nil_subset _
  done_own _ h := absurd h List.not_mem_nil
  loop_own _ h := absurd h List.not_mem_nil
  loops_added _ h := absurd h (Finset.notMem_empty _)
  begun_added _ _ h := absurd h List.not_mem_nil
  started_added _ h := absurd h List.not_mem_nil
  handler_ops _ := List.nil_prefix
  handler_added _ h := absurd h List.not_mem_nil

/-- What a loop has in hand, by its own entries. -/
theorem Counted.pendings_eq {s : life.State} (h : Counted s) (ln : Fin life.listeners) :
    Server.pendings s.base.log ln = pending (baseEvents (Threads.own s.log (.acceptLoop ln))) := by
  rw [Server.pendings, h.linked.log_eq, own_baseLog_loop]

/-- The goroutine of an accept loop is in the wait group before its loop begins. -/
theorem Counted.looping_added {s : life.State} (h : Counted s) {ln : Fin life.listeners}
    (hln : Looping ln (Threads.own s.log (.acceptLoop ln))) : .acceptLoop ln ∈ added s.log := by
  have hmem := hln.prologue.subset
  by_cases hzero : ln = 0
  · subst hzero
    exact mem_added_of_own (hmem (by simp [prologue]))
  · exact h.begun_added _ ln (hmem (by simp [prologue, hzero]))

/-- A goroutine of the wait group that has not called `Done`. -/
theorem Counted.notMem_finished {s : life.State} (h : Counted s) {t : Task life.listeners}
    (ht : .wgDone t ∉ ops (Threads.own s.log t.thread)) : t ∉ finished s.log :=
  fun hmem => ht (h.done_own t hmem)

/-- A goroutine that has not left keeps the counter above zero. -/
theorem Counted.wg_pos {s : life.State} (h : Counted s) {t : Task life.listeners}
    (hadded : t ∈ added s.log) (hfinished : t ∉ finished s.log) : 0 < s.wg := by
  have hsub : t :: finished s.log ⊆ added s.log := List.cons_subset.mpr ⟨hadded, h.finished_subset⟩
  have hle := (List.subperm_of_subset (List.nodup_cons.mpr ⟨hfinished, h.nodup_finished⟩)
    hsub).length_le
  have := h.counter
  rw [List.length_cons] at hle
  omega

/-- When the counter is zero, all have left. -/
theorem Counted.mem_finished {s : life.State} (h : Counted s) (hzero : s.wg = 0)
    {t : Task life.listeners} (ht : t ∈ added s.log) : t ∈ finished s.log := by
  by_contra hnot
  have := h.wg_pos ht hnot
  omega

/-- A connection is pending in one loop only. -/
theorem loop_unique {server : Server} {s : server.State} (h : Server.Kept s)
    {ln ln' : Fin server.listeners} {conn : Conn}
    (hconn : (Server.pendings s.log ln).conn = some conn)
    (hconn' : (Server.pendings s.log ln').conn = some conn) : ln = ln' := by
  by_contra hne
  have hpair : (Server.pendings s.log ln).holds conn + (Server.pendings s.log ln').holds conn ≤
      ∑ l, (Server.pendings s.log l).holds conn := by
    rw [← Finset.sum_pair (f := fun l => (Server.pendings s.log l).holds conn) hne]
    exact Finset.sum_le_sum_of_subset (Finset.subset_univ _)
  have hone := h.acceptCount_le conn
  have heq := h.conn_eq conn
  simp only [Pending.holds, hconn, hconn', if_true] at hpair
  simp only [Pending.holds] at heq
  omega

section Step

variable {i : life.ι} {s s' : life.State} {o : Op life.listeners} {r : Res o}

/-- The counter is changed by `Add` and `Done` alone. -/
theorem wg_of_act (ha : act i s o r s') :
    s'.wg + (dones ⟨o, r⟩).toList.length = s.wg + (adds ⟨o, r⟩).toList.length := by
  obtain ⟨t, ht, rfl⟩ := ha
  cases o <;> simp only [effect] at ht <;> simp only [adds, dones] <;> grind

/-- A loop begins when it was started. -/
theorem loops_of_act (ha : act i s o r s') :
    (∀ ln ∈ s'.loops, ln ∈ s.loops ∨ o = .goLoop ln) ∧ ∀ ln, o = .beginLoop ln → ln ∈ s.loops := by
  obtain ⟨t, ht, rfl⟩ := ha
  cases o <;> simp only [effect] at ht <;> grind

/-- An entry is one of its own thread. -/
theorem own_log_of_act (ha : act i s o r s') (j : life.ι) :
    Threads.own s'.log j =
      if j = i then Threads.own s.log i ++ [⟨o, r⟩] else Threads.own s.log j := by
  rw [log_of_act ha, Threads.own_concat]
  by_cases hj : j = i
  · subst hj
    simp
  · simp [hj]

/-- A thread's entries stay. -/
theorem ops_own_subset (ha : act i s o r s') (j : life.ι) :
    ops (Threads.own s.log j) ⊆ ops (Threads.own s'.log j) := by
  rw [own_log_of_act ha]
  split_ifs with hj
  · subst hj
    simp
  · exact List.Subset.refl _

/-- A task is added once. -/
theorem Counted.notMem_added (h : Counted s) {t : Task life.listeners}
    (hp : Lifecycle.permits i (Threads.own s.log i) (.wgAdd t)) : t ∉ added s.log := by
  obtain ⟨rfl, ⟨ln, rfl⟩, hscript⟩ | ⟨ln, conn, rfl, rfl, -, hreserved, hgo⟩ := add_of_permits hp
  · exact fun hmem => notMem_of_scripted hscript (h.loop_own ln hmem)
  · intro hmem
    have hconn : (Server.pendings s.base.log ln).conn = some conn := by
      rw [h.pendings_eq]
      exact congrArg Pending.conn hgo
    obtain hstarted | ⟨ln', hreserved', hconn'⟩ := h.handler_added conn hmem
    · exact h.linked.kept.notMem_started hconn hstarted
    · rw [waitingConn, ← h.pendings_eq] at hconn'
      obtain rfl := loop_unique h.linked.kept hconn hconn'
      rw [hreserved] at hreserved'
      exact Bool.false_ne_true hreserved'

/-- Whoever is done was added. -/
theorem Counted.done_added (h : Counted s) {t : Task life.listeners}
    (hp : Lifecycle.permits i (Threads.own s.log i) (.wgDone t)) : t ∈ added s.log := by
  obtain ⟨rfl, -, ⟨ln, rfl, hlooping, -⟩ | ⟨conn, rfl, hops⟩⟩ := done_of_permits hp
  · exact h.looping_added hlooping
  · -- the handler has served its connection, so it was started
    refine h.started_added conn (h.linked.kept.handler_started conn fun hnil => ?_)
    rw [h.linked.log_eq, own_baseLog_handler] at hnil
    have hbase : ∀ o ∈ ops (Threads.own s.log (Task.thread (.handler conn))), ∃ bo,
      o = .base bo := by
      rw [hops]
      simp
    have hlength := length_baseEvents hbase
    rw [hops, Task.thread, hnil] at hlength
    simp [Serverbase.handlerOps] at hlength

/-- A task is added by its `Add`. -/
theorem mem_added_of_act (ha : act i s o r s') {t : Task life.listeners} :
    t ∈ added s'.log ↔ t ∈ added s.log ∨ o = .wgAdd t := by
  rw [log_of_act ha, added_concat, List.mem_append, Option.mem_toList, adds_eq_some]

/-- And is finished by its `Done`. -/
theorem mem_finished_of_act (ha : act i s o r s') {t : Task life.listeners} :
    t ∈ finished s'.log ↔ t ∈ finished s.log ∨ o = .wgDone t := by
  rw [log_of_act ha, finished_concat, List.mem_append, Option.mem_toList, dones_eq_some]

theorem added_subset (ha : act i s o r s') : added s.log ⊆ added s'.log :=
  fun _ ht => (mem_added_of_act ha).mpr (.inl ht)

/-- A handler is started by its `go`. -/
theorem started_of_act (ha : act i s o r s') {conn : Conn} :
    conn ∈ Server.started s'.base.log ↔ conn ∈ Server.started s.base.log ∨
      o = .base (.go conn) := by
  obtain ⟨bo, br, b, rfl, -, -, hact⟩ | ⟨he, hbase⟩ := base_of_act ha
  · rw [Server.log_of_act hact, Server.mem_started_concat]
    simp
  · rw [hbase]
    cases o <;> simp_all [baseEvent]

/-- A loop that has added a handler starts it next. -/
theorem go_of_reserved {ln : Fin life.listeners} {es : List life.Event} {conn : Conn}
    (hp : listenerPermits ln es o) (hreserved : reserved es = true)
    (hconn : (pending (baseEvents es)).conn = some conn) : o = .base (.go conn) := by
  obtain hscript | ⟨-, hloop⟩ := hp
  · have hprep : ∀ o ∈ ops es, Preparing o := fun o ho =>
      preparing_of_mem (hscript.subset (List.mem_append_left _ ho))
    simp [(quiet_of_preparing hprep).1] at hreserved
  · cases o with
    | base bo =>
        cases bo with
        | go conn' =>
            have hgo : pending (baseEvents es) = ⟨some conn', _, _⟩ := hloop.2
            simp_all
        | _ => simp [hloop.1] at hreserved
    | wgAdd t =>
        cases t with
        | handler conn' => simp [hloop.1] at hreserved
        | acceptLoop l => exact False.elim hloop
    | wgDone t => simp [hloop.2.1] at hreserved
    | _ => exact False.elim hloop

/-- A handler that was added is started by the loop that has added it. -/
theorem Counted.handler_added_step (h : Counted s)
    (hp : Lifecycle.permits i (Threads.own s.log i) o) (ha : act i s o r s') (conn : Conn)
    (hadded : .handler conn ∈ added s'.log) : conn ∈ Server.started s'.base.log ∨
      ∃ ln, reserved (Threads.own s'.log (.acceptLoop ln)) = true ∧
        waitingConn s'.log ln = some conn := by
  rw [started_of_act ha]
  simp only [waitingConn, own_log_of_act ha]
  obtain hold | rfl := (mem_added_of_act ha).mp hadded
  · obtain hstarted | ⟨ln, hreserved, hconn⟩ := h.handler_added conn hold
    · exact .inl (.inl hstarted)
    · by_cases hi : .acceptLoop ln = i
      · subst hi
        exact .inl (.inr (go_of_reserved hp hreserved hconn))
      · exact .inr ⟨ln, by rw [if_neg hi]; exact hreserved, by rw [if_neg hi]; exact hconn⟩
  · obtain ⟨-, ⟨ln, hln⟩, -⟩ | ⟨ln, conn', rfl, heq, -, -, hgo⟩ := add_of_permits hp
    · simp at hln
    · obtain rfl : conn = conn' := by simpa using heq
      refine .inr ⟨ln, by simp [reserve], ?_⟩
      simp [baseEvent, show pending _ = _ from hgo]

theorem Counted.step (h : Counted s) (hp : Lifecycle.permits i (Threads.own s.log i) o)
    (ha : act i s o r s') : Counted s' := by
  have hlog := log_of_act ha
  refine ⟨h.linked.step hp ha, ?_, ?_, ?_, ?_, fun t ht => ?_, fun ln hln => ?_, fun ln hln => ?_,
    fun j ln hln => ?_, fun conn hconn => ?_, fun conn => ?_, h.handler_added_step hp ha⟩
  · have hmove := wg_of_act ha
    have hbefore := h.counter
    rw [hlog, added_concat, finished_concat, List.length_append, List.length_append]
    omega
  · rw [hlog, added_concat]
    cases ht : adds ⟨o, r⟩ with
    | none => simpa using h.nodup_added
    | some t =>
        obtain rfl := adds_eq_some.mp ht
        simpa [List.nodup_append, h.nodup_added] using fun t' ht' => by
          rintro rfl
          exact h.notMem_added hp ht'
  · rw [hlog, finished_concat]
    cases ht : dones ⟨o, r⟩ with
    | none => simpa using h.nodup_finished
    | some t =>
        obtain rfl := dones_eq_some.mp ht
        obtain ⟨rfl, hnot, -⟩ := done_of_permits hp
        simpa [List.nodup_append, h.nodup_finished] using fun t' ht' => by
          rintro rfl
          exact h.notMem_finished hnot ht'
  · intro t ht
    obtain ht | rfl := (mem_finished_of_act ha).mp ht
    · exact added_subset ha (h.finished_subset ht)
    · exact added_subset ha (h.done_added hp)
  · obtain ht | rfl := (mem_finished_of_act ha).mp ht
    · exact ops_own_subset ha _ (h.done_own t ht)
    · obtain ⟨rfl, -⟩ := done_of_permits hp
      simp [own_log_of_act ha]
  · obtain hln | rfl := (mem_added_of_act ha).mp hln
    · exact ops_own_subset ha _ (h.loop_own ln hln)
    · obtain ⟨rfl, -⟩ | ⟨_, _, -, heq, -⟩ := add_of_permits hp
      · simp [own_log_of_act ha]
      · simp at heq
  · obtain hln | rfl := (loops_of_act ha).1 ln hln
    · exact added_subset ha (h.loops_added ln hln)
    · exact added_subset ha (goLoop_added hp)
  · rw [own_log_of_act ha] at hln
    split_ifs at hln with hj
    · subst hj
      rw [ops_concat, List.mem_append, List.mem_singleton] at hln
      obtain hln | rfl := hln
      · exact added_subset ha (h.begun_added _ ln hln)
      · exact added_subset ha (h.loops_added ln ((loops_of_act ha).2 ln rfl))
    · exact added_subset ha (h.begun_added _ ln hln)
  · obtain hconn | rfl := (started_of_act ha).mp hconn
    · exact added_subset ha (h.started_added conn hconn)
    · exact added_subset ha (go_added hp)
  · rw [own_log_of_act ha]
    split_ifs with hi
    · subst hi
      rw [ops_concat]
      exact hp
    · exact h.handler_ops conn

end Step

/-! ## Waking up -/

/-- `Wait` went to sleep before `Start` had added all its loops. -/
def Early (log : List (life.ι × life.Event)) : Prop :=
  Occurs (fun before x => x = (.waiter, ⟨.wgWait, false⟩) ∧ life.startLoop ∉ added before) log

/-- Who sleeps in `Wait` is woken up at zero, and finds zero. -/
structure Roused (s : life.State) : Prop where
  asleep_pos : s.asleep → 0 < s.wg
  slept : s.asleep ∨ s.woken → Early s.log ∨ .acceptLoop 0 ∈ added s.log
  woken_zero : s.woken → Early s.log ∨ s.wg = 0
  wake : (.waiter, ⟨.wgWake, false⟩) ∈ s.log → Early s.log

/-- Nobody waits. -/
theorem roused_init : Roused life.init where
  asleep_pos h := absurd h Bool.false_ne_true
  slept h := by simp [init] at h
  woken_zero h := absurd h Bool.false_ne_true
  wake h := absurd h List.not_mem_nil

section Step

variable {i : life.ι} {s s' : life.State} {o : Op life.listeners} {r : Res o}

/-- The waiter sleeps while the counter is above zero, and is woken at zero. -/
theorem sleep_of_act (ha : act i s o r s') :
    (s'.asleep → 0 < s.wg ∧ (⟨o, r⟩ : life.Event) = ⟨.wgWait, false⟩ ∨
      s.asleep ∧ ∀ t, o = .wgDone t → 1 < s.wg) ∧
    (s'.woken → s.woken ∨ s.asleep ∧ s'.wg = 0) ∧
    ((⟨o, r⟩ : life.Event) = ⟨.wgWake, false⟩ → s.woken ∧ s.wg ≠ 0) := by
  obtain ⟨t, ht, rfl⟩ := ha
  cases o <;> simp only [effect] at ht <;> grind

/-- The loop that `Start` runs itself is added last. -/
theorem notMem_of_scripted_start {es : List life.Event} (h : Scripted (life.prologue 0) es o) :
    .wgAdd (.acceptLoop 0) ∉ ops es := by
  obtain ⟨rest, hrest⟩ := h
  have hnodup := nodup_prologue (0 : Fin life.listeners)
  have hlast : (life.prologue 0).getLast? = some (.wgAdd (.acceptLoop 0)) := by simp [prologue]
  rw [← hrest, List.append_assoc] at hnodup hlast
  rw [List.getLast?_append_of_ne_nil _ (by simp)] at hlast
  intro hmem
  exact (List.nodup_append.mp hnodup).2.2 _ hmem _ (List.mem_of_getLast? hlast) rfl

/-- When `Start` has added its loops, only loops of the wait group add to it. -/
theorem Counted.wg_pos_of_add (h : Counted s) {t : Task life.listeners}
    (hp : Lifecycle.permits i (Threads.own s.log i) (.wgAdd t))
    (hall : .acceptLoop 0 ∈ added s.log) : 0 < s.wg := by
  obtain ⟨rfl, -, hscript⟩ | ⟨ln, conn, rfl, rfl, hlooping, -⟩ := add_of_permits hp
  · exact absurd (h.loop_own 0 hall) (notMem_of_scripted_start hscript)
  · exact h.wg_pos (h.looping_added hlooping) (h.notMem_finished hlooping.not_done)

theorem Roused.step (hc : Counted s) (h : Roused s)
    (hp : Lifecycle.permits i (Threads.own s.log i) o) (ha : act i s o r s') : Roused s' := by
  obtain ⟨hasleep, hwoken, hwake⟩ := sleep_of_act ha
  have hmove := wg_of_act ha
  have hearly {x} (hx : Early s.log) : Early (s.log ++ [x]) := occurs_concat.mpr (.inl hx)
  have hlog := log_of_act ha
  refine ⟨fun hs => ?_, fun hs => ?_, fun hs => ?_, fun hmem => ?_⟩
  · obtain ⟨hpos, he⟩ | ⟨hslept, hdone⟩ := hasleep hs
    · obtain ⟨rfl, -⟩ := Sigma.mk.inj he
      simp [adds, dones] at hmove
      omega
    · have hpos := h.asleep_pos hslept
      cases hd : dones ⟨o, r⟩ with
      | none => simp [hd] at hmove; omega
      | some t =>
          have := hdone t (dones_eq_some.mp hd)
          simp [hd] at hmove
          omega
  · have hbefore : (s.asleep ∨ s.woken) ∨ (⟨o, r⟩ : life.Event) = ⟨.wgWait, false⟩ := by
      obtain hs | hs := hs
      · exact (hasleep hs).elim (fun h => .inr h.2) fun h => .inl (.inl h.1)
      · exact (hwoken hs).elim (fun h => .inl (.inr h)) fun h => .inl (.inl h.1)
    rw [hlog]
    obtain hbefore | he := hbefore
    · exact (h.slept hbefore).imp hearly fun hall => hlog ▸ added_subset ha hall
    · obtain rfl : o = .wgWait := congrArg Sigma.fst he
      obtain rfl : i = .waiter := belongs_of_permits hp
      by_cases hall : .acceptLoop 0 ∈ added s.log
      · exact .inr (hlog ▸ added_subset ha hall)
      · exact .inl (occurs_concat.mpr (.inr ⟨by rw [he], hall⟩))
  · rw [hlog]
    obtain hs' | ⟨hslept, hzero⟩ := hwoken hs
    · obtain hx | hzero := h.woken_zero hs'
      · exact .inl (hearly hx)
      · obtain hx | hall := h.slept (.inr hs')
        · exact .inl (hearly hx)
        · -- nothing is added any more
          cases hadd : adds ⟨o, r⟩ with
          | none => simp [hadd] at hmove; omega
          | some t =>
              obtain rfl := adds_eq_some.mp hadd
              have := hc.wg_pos_of_add hp hall
              omega
    · exact .inr hzero
  · rw [hlog] at hmem ⊢
    obtain hmem | hmem := List.mem_append.mp hmem
    · exact hearly (h.wake hmem)
    · obtain ⟨-, he⟩ := Prod.mk.inj (List.mem_singleton.mp hmem)
      obtain ⟨hs, hne⟩ := hwake he.symm
      exact hearly ((h.woken_zero hs).resolve_right hne)

end Step

/-! ## The wait group -/

/-- The goroutines that were added to the wait group and have not called `Done`. -/
def openTasks (log : List (life.ι × life.Event)) : Finset (Task life.listeners) :=
  (added log).toFinset.filter fun t => .wgDone t ∉ ops (Threads.own log t.thread)

/-- A goroutine that has called `Done` is not counted any more. -/
theorem notMem_openTasks {log : List (life.ι × life.Event)} {t : Task life.listeners}
    (ht : .wgDone t ∈ ops (Threads.own log t.thread)) : t ∉ openTasks log := by
  simp [openTasks, ht]

/-- The open tasks were added and are not finished. -/
theorem Counted.mem_openTasks {s : life.State} (h : Counted s) {t : Task life.listeners} :
    t ∈ openTasks s.log ↔ t ∈ added s.log ∧ t ∉ finished s.log := by
  rw [openTasks, Finset.mem_filter, List.mem_toFinset]
  refine and_congr_right fun _ => not_congr ⟨fun hmem => ?_, h.done_own t⟩
  obtain ⟨e, he, ht⟩ := List.mem_map.mp hmem
  exact List.mem_filterMap.mpr ⟨(t.thread, e), Threads.mem_own.mp he, dones_eq_some.mpr ht⟩

/-- The counter is their number. -/
theorem Counted.wg_eq {s : life.State} (h : Counted s) : s.wg = (openTasks s.log).card := by
  have hopen : openTasks s.log = (added s.log).toFinset \ (finished s.log).toFinset := by
    ext t
    rw [h.mem_openTasks, Finset.mem_sdiff, List.mem_toFinset, List.mem_toFinset]
  have hsub : (finished s.log).toFinset ⊆ (added s.log).toFinset := fun t ht =>
    List.mem_toFinset.mpr (h.finished_subset (List.mem_toFinset.mp ht))
  rw [hopen, Finset.card_sdiff_of_subset hsub, List.toFinset_card_of_nodup h.nodup_added,
    List.toFinset_card_of_nodup h.nodup_finished, ← h.counter, Nat.add_sub_cancel]

/-- A handler that has left the wait group has done all it had to do. -/
theorem Counted.ops_eq {s : life.State} (h : Counted s) {conn : Conn}
    (hdone : .handler conn ∈ finished s.log) :
    ops (Threads.own s.log (.handler conn)) = life.handlerOps conn := by
  refine (List.prefix_concat_iff.mp (h.handler_ops conn)).resolve_right fun hprefix => ?_
  simpa using hprefix.subset (h.done_own _ hdone)

theorem counted_of_reaches {now : (life.ι → life.Proc Unit) × life.State} (h : life.Reaches now) :
    (Counted now.2 ∧ Roused now.2) ∧ ∀ i, (now.1 i).wp (Contract.logging (Lifecycle.permits i))
      (Threads.own now.2.log i) fun _ es => post i es :=
  Threads.logged State.log log_of_act Lifecycle.permits post (fun s => Counted s ∧ Roused s)
    (fun h hp ha => ⟨h.1.step hp ha, h.2.step h.1 hp ha⟩) rfl ⟨counted_init, roused_init⟩
    wp_program h

/-- The wait group counts the goroutines it is for. -/
theorem waitGroup_exact {now : (life.ι → life.Proc Unit) × life.State} (h : life.Reaches now) :
    now.2.wg = (openTasks now.2.log).card ∧
    -- a handler is in it from before its start until it ends
    (∀ conn ∈ Server.started now.2.base.log, .handler conn ∈ openTasks now.2.log ∨
      ops (Threads.own now.2.log (.handler conn)) = life.handlerOps conn) ∧
    -- an accept loop that adds a handler is in it, and `Done` is called from within
    (∀ i t k, now.1 i = .step (.wgAdd t) k → (∃ ln, t = .acceptLoop ln) ∨
      ∃ ln, i = .acceptLoop ln ∧ .acceptLoop ln ∈ openTasks now.2.log) ∧
    (∀ i t k, now.1 i = .step (.wgDone t) k → i = t.thread ∧ t ∈ openTasks now.2.log) ∧
    -- `Wait` does not panic unless it went to sleep while `Start` was adding its loops
    ((.waiter, ⟨.wgWake, false⟩) ∈ now.2.log → Early now.2.log) := by
  obtain ⟨⟨hcounted, hroused⟩, hwp⟩ := counted_of_reaches h
  have hpermits {i o k} (hi : now.1 i = .step o k) :
      Lifecycle.permits i (Threads.own now.2.log i) o := ok_of_step (hwp i) hi
  refine ⟨hcounted.wg_eq, fun conn hconn => ?_, fun i t k hi => ?_, fun i t k hi => ?_,
    hroused.wake⟩
  · by_cases hdone : .handler conn ∈ finished now.2.log
    · exact .inr (hcounted.ops_eq hdone)
    · exact .inl (hcounted.mem_openTasks.mpr ⟨hcounted.started_added conn hconn, hdone⟩)
  · obtain ⟨-, hloop, -⟩ | ⟨ln, conn, rfl, rfl, hlooping, -⟩ := add_of_permits (hpermits hi)
    · exact .inl hloop
    · refine .inr ⟨ln, rfl, hcounted.mem_openTasks.mpr ⟨hcounted.looping_added hlooping, ?_⟩⟩
      exact hcounted.notMem_finished hlooping.not_done
  · obtain ⟨rfl, hnot, -⟩ := done_of_permits (hpermits hi)
    exact ⟨rfl, hcounted.mem_openTasks.mpr ⟨hcounted.done_added (hpermits hi),
      hcounted.notMem_finished hnot⟩⟩

/-- One listener, one connection at a time, and three rounds of the accept loop. -/
abbrev solo : Lifecycle := ⟨1, 0, 3, true⟩

theorem Reaches.step {ps : life.ι → life.Proc Unit} {s s' : life.State}
    (h : life.Reaches (ps, s)) {i : life.ι} {o : Op life.listeners} {k : Res o → life.Proc Unit}
    (hp : ps i = .step o k) (r : Res o) (ha : act i s o r s') :
    life.Reaches (Function.update ps i (k r), s') := h.tail (.mk i o k r hp ha)

/-- An operation of the accept model. -/
theorem Reaches.stepBase {ps : life.ι → life.Proc Unit} {s : life.State}
    (h : life.Reaches (ps, s)) {i : life.ι} {o : Serverbase.Op}
    {k : Serverbase.Res o → life.Proc Unit}
    (hp : ps i = .step (.base o) k) (r : Serverbase.Res o) {b : life.server.ι}
    (hb : part i = some b) {t : life.server.State} (ht : Server.effect b s.base o r t) :
    life.Reaches (Function.update ps i (k r),
      { s with base := { t with log := s.base.log ++ [(b, ⟨o, r⟩)] },
               log := s.log ++ [(i, ⟨.base o, r⟩)] }) :=
  h.step hp r ⟨_, ⟨b, _, hb, ⟨t, ht, rfl⟩, rfl⟩, rfl⟩

/-- A handler is started, runs to its end and leaves the wait group; then the `Add` of a second
connection is refused, as `Close` has come to its shard. -/
theorem reaches_solo : ∃ now, solo.Reaches now ∧ now.2.wg = 1 ∧
    ⟨0, 0⟩ ∈ Server.started now.2.base.log ∧
    (.handler ⟨0, 0⟩, ⟨.wgDone (.handler ⟨0, 0⟩), ()⟩) ∈ now.2.log ∧
    (.acceptLoop 0, ⟨.base (.add ⟨1, 0⟩), false⟩) ∈ now.2.log := by
  have h : solo.Reaches (solo.program, solo.init) := .refl
  have h := h.step (i := .acceptLoop 0) rfl () ⟨_, rfl, rfl⟩
  have h := h.stepBase (i := .acceptLoop 0) rfl (.ok ⟨0, 0⟩) rfl
    ⟨Finset.notMem_empty _, by simp [init, Server.init], rfl⟩
  have h := h.stepBase (i := .acceptLoop 0) rfl true rfl ⟨rfl, rfl⟩
  have h := h.stepBase (i := .acceptLoop 0) rfl false rfl ⟨rfl, rfl⟩
  have h := h.stepBase (i := .acceptLoop 0) rfl true rfl ⟨rfl, rfl⟩
  have h := h.step (i := .acceptLoop 0) rfl () ⟨_, rfl, rfl⟩
  have h := h.stepBase (i := .acceptLoop 0) rfl () rfl rfl
  -- the handler
  have h := h.stepBase (i := .handler ⟨0, 0⟩) rfl () rfl ⟨by simp [Server.started], rfl⟩
  have h := h.stepBase (i := .handler ⟨0, 0⟩) rfl () rfl rfl
  have h := h.stepBase (i := .handler ⟨0, 0⟩) rfl () rfl ⟨Nat.one_pos, rfl⟩
  have h := h.step (i := .handler ⟨0, 0⟩) rfl () ⟨_, ⟨Nat.two_pos, rfl⟩, rfl⟩
  -- the second connection
  have h := h.stepBase (i := .acceptLoop 0) rfl (.ok ⟨1, 0⟩) rfl
    ⟨Finset.notMem_empty _, by simp [init, Server.init], rfl⟩
  have h := h.stepBase (i := .acceptLoop 0) rfl true rfl ⟨rfl, rfl⟩
  have h := h.stepBase (i := .acceptLoop 0) rfl false rfl ⟨rfl, rfl⟩
  have h := h.step (i := .closer 0) rfl true ⟨_, ⟨rfl, 0, rfl, rfl⟩, rfl⟩
  have h := h.step (i := .closer 0) rfl () ⟨_, rfl, rfl⟩
  have h := h.stepBase (i := .closer 0) rfl () rfl ⟨rfl, rfl⟩
  have h := h.stepBase (i := .closer 0) rfl ([] : List Conn) rfl ⟨rfl, rfl, rfl⟩
  have h := h.stepBase (i := .acceptLoop 0) rfl false rfl ⟨rfl, rfl⟩
  exact ⟨_, h, rfl, by simp [Server.started], by simp, by simp⟩

/-- The accept loop is counted, and the handler that has ended is not. -/
theorem waitGroup_exact_solo : ∃ now, solo.Reaches now ∧ now.2.wg = 1 ∧
    (openTasks now.2.log).card = 1 ∧
    ops (Threads.own now.2.log (.handler ⟨0, 0⟩)) = solo.handlerOps ⟨0, 0⟩ ∧
    (.acceptLoop 0, ⟨.base (.add ⟨1, 0⟩), false⟩) ∈ now.2.log := by
  obtain ⟨now, hreach, hwg, hstarted, hdone, hrefused⟩ := reaches_solo
  obtain ⟨hcard, hhandler, -⟩ := waitGroup_exact hreach
  have hleft : .handler ⟨0, 0⟩ ∉ openTasks now.2.log :=
    notMem_openTasks (List.mem_map.mpr ⟨_, Threads.mem_own.mpr hdone, rfl⟩)
  exact ⟨now, hreach, hwg, hcard.symm.trans hwg, (hhandler _ hstarted).resolve_left hleft, hrefused⟩

end Outway.Serverbase.Lifecycle
