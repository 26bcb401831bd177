import Outway.Serverbase.Gate

/-!
# Outway.Serverbase.Shutdown

Shutdown misses no connection.

`CloseAll` walks the shards one at a time while other threads add and remove
connections.  `Registered` relates the shards to the log: a connection that was
added is still in its shard, was removed before the shard was closed, or was taken
out by `CloseAll`.  It holds whatever code the other threads run
(`registered_of_meets`).  For the server's own threads, conservation of connections
says what becomes of each connection an accept loop has accepted.
-/

namespace Outway.Serverbase

open Prog

/-! ## Adding once -/

/-- The entry calls `Add` for the connection. -/
def adds (conn : Conn) (e : Event) : Bool := e.1 = .add conn

namespace Pending

variable {g : ConnectionGate} {p : Pending} {e : Event}

/-- Whether the loop has yet to add the connection. -/
def unadded (conn : Conn) (p : Pending) : Nat :=
  if p.conn = some conn ∧ p.added = none then 1 else 0

/-- A loop adds a connection at most once. -/
theorem add_balance (conn : Conn) (h : p.Allows g e.1) :
    (adds conn e).toNat + (p.next e).unadded conn ≤ (accepts conn e).toNat + p.unadded conn := by
  obtain ⟨o, r⟩ := e
  cases o with
  | accept ln =>
      obtain rfl := h
      cases r <;> simp [accepts, adds, unadded, next, idle, Bool.toNat, Bool.cond_decide]
  | trySendToken | sendTokenOrDone => cases r <;> exact le_of_eq rfl
  | checkDone | receiveToken => exact le_of_eq rfl
  | add conn =>
      obtain rfl := h
      simp [accepts, adds, unadded, next, Bool.toNat, Bool.cond_decide]
  | go conn | close conn => simp [accepts, adds, unadded, next, idle]
  | _ => exact h.elim

/-- A connection is marked as added by its own `Add`. -/
theorem added_of_next {conn : Conn} (h : p.Allows g e.1) (hconn : (p.next e).conn = some conn)
    (hadded : (p.next e).added = some true) :
    e = ⟨.add conn, true⟩ ∨ p.conn = some conn ∧ p.added = some true := by
  obtain ⟨o, r⟩ := e
  cases o with
  | accept ln =>
      cases r with
      | error err => exact .inr ⟨hconn, hadded⟩
      | ok accepted => simp [next] at hadded
  | trySendToken | sendTokenOrDone => cases r <;> exact .inr ⟨hconn, hadded⟩
  | checkDone | receiveToken => exact .inr ⟨hconn, hadded⟩
  | add conn' =>
      obtain rfl := h
      obtain rfl : conn' = conn := by simpa [next] using hconn
      obtain rfl : r = true := by simpa [next] using hadded
      exact .inl rfl
  | go conn' | close conn' => simp [next, idle] at hadded
  | _ => exact h.elim

end Pending

namespace Server

variable {server : Server}

/-! ## What the log says about a connection -/

/-- `Add` has returned true for the connection. -/
def Added (log : List (server.ι × Event)) (conn : Conn) : Prop :=
  ∃ i, (i, ⟨.add conn, true⟩) ∈ log

/-- `CloseAll` has closed the shard and taken the connections out of it. -/
def Took (log : List (server.ι × Event)) (k : Fin connSetShards) (conns : List Conn) : Prop :=
  (.closer, ⟨.closeShard k, conns⟩) ∈ log

/-- The connection, once added, was removed before its shard was closed. -/
def RemovedInTime (log : List (server.ι × Event)) (conn : Conn) : Prop :=
  Occurs (fun before x => x.2.1 = .remove conn ∧ Added before conn ∧
    ∀ conns, ¬ Took before (shardFor conn) conns) log

/-- `Add` is called at most once for a connection. -/
def AddedOnce (log : List (server.ι × Event)) : Prop :=
  Justified (fun before x => ∀ conn, x.2.1 = .add conn → ∀ i, ¬ Did before i (.add conn)) log

section Concat

variable {log : List (server.ι × Event)} {i j : server.ι} {e : Event} {o : Op} {conn : Conn}

/-- A connection is registered by an `Add` that returns true. -/
theorem added_concat : Added (log ++ [(i, e)]) conn ↔ Added log conn ∨ e = ⟨.add conn, true⟩ := by
  simp only [Added, List.mem_append, List.mem_singleton, Prod.mk.injEq]
  grind

/-- `CloseAll` takes the connections of a shard with one entry. -/
theorem took_concat {k : Fin connSetShards} {conns : List Conn} :
    Took (log ++ [(i, e)]) k conns ↔
      Took log k conns ∨ i = .closer ∧ e = ⟨.closeShard k, conns⟩ := by
  simp only [Took, List.mem_append, List.mem_singleton, Prod.mk.injEq, eq_comm]

theorem did_concat : Did (log ++ [(i, e)]) j o ↔ Did log j o ∨ i = j ∧ e.1 = o := by
  obtain ⟨o', r⟩ := e
  simp only [Did, List.mem_append, List.mem_singleton, Prod.mk.injEq, exists_or]
  refine or_congr_right ⟨fun ⟨r', hj, he⟩ => ⟨hj.symm, congrArg Sigma.fst he.symm⟩, ?_⟩
  rintro ⟨rfl, rfl⟩
  exact ⟨r, rfl, rfl⟩

/-- A connection is removed in time when its shard was not taken before. -/
theorem removedInTime_concat : RemovedInTime (log ++ [(i, e)]) conn ↔ RemovedInTime log conn ∨
    e.1 = .remove conn ∧ Added log conn ∧ ∀ conns, ¬ Took log (shardFor conn) conns :=
  occurs_concat

theorem AddedOnce.of_concat {x : server.ι × Event} (h : AddedOnce (log ++ [x])) : AddedOnce log :=
  h.initial (List.prefix_append _ _)

/-- A connection is registered for the first time. -/
theorem AddedOnce.not_did (h : AddedOnce (log ++ [(i, e)])) (he : e.1 = .add conn) :
    ¬ Did log j (.add conn) :=
  h log (i, e) [] rfl conn he j

/-- What was removed had been registered. -/
theorem RemovedInTime.added (h : RemovedInTime log conn) : Added log conn := by
  obtain ⟨before, x, after, rfl, -, ⟨i, hadd⟩, -⟩ := h
  exact ⟨i, List.mem_append_left _ hadd⟩

end Concat

/-! ## The registry -/

/-- The registry and the log of a run. -/
structure Registered (set : ConnectionSet) (log : List (server.ι × Event)) : Prop where
  closed_iff : ∀ k, (set.shards k).closed ↔ ∃ conns, Took log k conns
  closed_empty : ∀ k, (set.shards k).closed → (set.shards k).conns = ∅
  added : ∀ conn, Added log conn → conn ∈ (set.shards (shardFor conn)).conns ∨
    RemovedInTime log conn ∨ ∃ conns, Took log (shardFor conn) conns ∧ conn ∈ conns
  removed : AddedOnce log → ∀ conn, RemovedInTime log conn →
    conn ∉ (set.shards (shardFor conn)).conns ∧ ∀ k conns, Took log k conns → conn ∉ conns
  home : ∀ k, ∀ conn ∈ (set.shards k).conns, shardFor conn = k
  took_home : ∀ k conns, Took log k conns → ∀ conn ∈ conns, shardFor conn = k
  took_once : ∀ k conns conns', Took log k conns → Took log k conns' → conns = conns'
  /-- the caller of `Close` closes what it took -/
  closed : ∀ conn, Did log .closer (.close conn) → ∃ k conns, Took log k conns ∧ conn ∈ conns

namespace Registered

variable {set : ConnectionSet} {log : List (server.ι × Event)} {i : server.ι} {conn : Conn}

/-- An entry that does not change the registry. -/
theorem quiet (h : Registered set log) {e : Event}
    (hadd : ∀ conn, e ≠ ⟨.add conn, true⟩) (hremove : ∀ conn, e.1 ≠ .remove conn)
    (hshard : ∀ k, e.1 ≠ .closeShard k)
    (hclose : ∀ conn, i = .closer → e.1 = .close conn → ∃ k conns, Took log k conns ∧
      conn ∈ conns) :
    Registered set (log ++ [(i, e)]) := by
  have htook {k conns} : Took (log ++ [(i, e)]) k conns ↔ Took log k conns := by
    rw [took_concat, or_iff_left]
    exact fun he => hshard k (congrArg Sigma.fst he.2)
  have hadded {conn} : Added (log ++ [(i, e)]) conn ↔ Added log conn := by
    rw [added_concat, or_iff_left (hadd conn)]
  have hremoved {conn} : RemovedInTime (log ++ [(i, e)]) conn ↔ RemovedInTime log conn := by
    rw [removedInTime_concat, or_iff_left]
    exact fun he => hremove conn he.1
  refine ⟨?_, h.closed_empty, ?_, fun honce => ?_, h.home, ?_, ?_, fun conn hdid => ?_⟩
  · simpa only [htook] using h.closed_iff
  · simpa only [hadded, hremoved, htook] using h.added
  · simpa only [hremoved, htook] using h.removed honce.of_concat
  · simpa only [htook] using h.took_home
  · simpa only [htook] using h.took_once
  · simp only [htook]
    obtain hdid | ⟨hi, he⟩ := did_concat.mp hdid
    · exact h.closed conn hdid
    · exact hclose conn hi he

/-- `Add` on an open shard. -/
theorem add (h : Registered set log) (hopen : (set.shards (shardFor conn)).closed = false) :
    Registered (set.setConns (shardFor conn) (insert conn (set.shards (shardFor conn)).conns))
      (log ++ [(i, ⟨.add conn, true⟩)]) := by
  have htook {k conns} : Took (log ++ [(i, ⟨.add conn, true⟩)]) k conns ↔ Took log k conns := by
    rw [took_concat, or_iff_left (by simp)]
  have hremoved {conn'} : RemovedInTime (log ++ [(i, ⟨.add conn, true⟩)]) conn' ↔
      RemovedInTime log conn' := by
    rw [removedInTime_concat, or_iff_left (by simp)]
  refine ⟨fun k => ?_, fun k hk => ?_, fun conn' hadded => ?_, fun honce conn' hconn' => ?_,
    fun k conn' hconn' => ?_, ?_, ?_, fun conn' hdid => ?_⟩
  · simpa only [ConnectionSet.closed_setConns, htook] using h.closed_iff k
  · rw [ConnectionSet.closed_setConns] at hk
    have hne : k ≠ shardFor conn := by
      rintro rfl
      simp [hopen] at hk
    rw [ConnectionSet.conns_setConns, if_neg hne]
    exact h.closed_empty k hk
  · simp only [hremoved, htook, ConnectionSet.conns_setConns]
    obtain hadded | heq := added_concat.mp hadded
    · refine (h.added conn' hadded).imp_left fun hmem => ?_
      split_ifs with hk
      · exact Finset.mem_insert_of_mem (hk ▸ hmem)
      · exact hmem
    · obtain rfl : conn = conn' := by simpa using heq
      simp
  · -- a connection that was removed was added before, so it is another one
    rw [hremoved] at hconn'
    have hne : conn' ≠ conn := by
      rintro rfl
      obtain ⟨j, hadd⟩ := hconn'.added
      exact honce.not_did rfl ⟨true, hadd⟩
    simp only [htook, ConnectionSet.conns_setConns]
    obtain ⟨hnot, htaken⟩ := h.removed honce.of_concat conn' hconn'
    refine ⟨?_, htaken⟩
    split_ifs with hk
    · rw [Finset.mem_insert, not_or, ← hk]
      exact ⟨hne, hnot⟩
    · exact hnot
  · rw [ConnectionSet.conns_setConns] at hconn'
    split_ifs at hconn' with hk
    · obtain rfl | hmem := Finset.mem_insert.mp hconn'
      · exact hk.symm
      · rw [hk]
        exact h.home _ conn' hmem
    · exact h.home k conn' hconn'
  · simpa only [htook] using h.took_home
  · simpa only [htook] using h.took_once
  · simp only [htook]
    exact h.closed conn' ((did_concat.mp hdid).resolve_right (by simp))

/-- `Remove`. -/
theorem remove (h : Registered set log) {r : Unit} :
    Registered (set.remove conn) (log ++ [(i, ⟨.remove conn, r⟩)]) := by
  have htook {k conns} : Took (log ++ [(i, ⟨.remove conn, r⟩)]) k conns ↔ Took log k conns := by
    rw [took_concat, or_iff_left (by simp)]
  have hadded {conn'} : Added (log ++ [(i, ⟨.remove conn, r⟩)]) conn' ↔ Added log conn' := by
    rw [added_concat, or_iff_left (by simp)]
  have hmem {k conn'} : conn' ∈ ((set.remove conn).shards k).conns ↔
      conn' ∈ (set.shards k).conns ∧ ¬ (conn' = conn ∧ k = shardFor conn) := by
    rw [ConnectionSet.remove, ConnectionSet.conns_setConns]
    by_cases hk : k = shardFor conn
    · subst hk
      simp [and_comm]
    · simp [hk]
  have hclosed {k} : ((set.remove conn).shards k).closed = (set.shards k).closed :=
    ConnectionSet.closed_setConns _ _ _ _
  refine ⟨fun k => ?_, fun k hk => ?_, fun conn' hconn' => ?_, fun honce conn' hconn' => ?_,
    fun k conn' hconn' => ?_, ?_, ?_, fun conn' hdid => ?_⟩
  · simpa only [hclosed, htook] using h.closed_iff k
  · rw [hclosed] at hk
    refine Finset.eq_empty_of_forall_notMem fun conn' hconn' => ?_
    rw [hmem, h.closed_empty k hk] at hconn'
    exact Finset.notMem_empty _ hconn'.1
  · simp only [htook, hmem, removedInTime_concat]
    rw [hadded] at hconn'
    by_cases hconn : conn' = conn
    · subst hconn
      -- removed now, unless its shard was closed
      obtain hin | hremoved | htaken := h.added conn' hconn'
      · refine .inr (.inl (.inr ⟨rfl, hconn', fun conns htaken => ?_⟩))
        have hempty := h.closed_empty _ ((h.closed_iff _).mpr ⟨conns, htaken⟩)
        rw [hempty] at hin
        exact Finset.notMem_empty _ hin
      · exact .inr (.inl (.inl hremoved))
      · exact .inr (.inr htaken)
    · simpa [hconn, Ne.symm hconn] using h.added conn' hconn'
  · simp only [htook, hmem]
    obtain hremoved | ⟨heq, -, hopen⟩ := removedInTime_concat.mp hconn'
    · obtain ⟨hnot, htaken⟩ := h.removed honce.of_concat conn' hremoved
      exact ⟨fun hin => hnot hin.1, htaken⟩
    · obtain rfl : conn = conn' := by simpa using heq
      refine ⟨fun hin => hin.2 ⟨rfl, rfl⟩, fun k conns htaken hin => ?_⟩
      obtain rfl := h.took_home k conns htaken conn hin
      exact hopen conns htaken
  · exact h.home k conn' (hmem.mp hconn').1
  · simpa only [htook] using h.took_home
  · simpa only [htook] using h.took_once
  · simp only [htook]
    exact h.closed conn' ((did_concat.mp hdid).resolve_right (by simp))

/-- `CloseAll` takes the connections of a shard. -/
theorem closeShard (h : Registered set log) {k : Fin connSetShards} {conns : List Conn}
    (hopen : ∀ conns, ¬ Took log k conns) (hconns : ↑conns = (set.shards k).conns.val) :
    Registered (set.closeShard k)
      (log ++ [((.closer : server.ι), (⟨.closeShard k, conns⟩ : Event))]) := by
  have hmem {conn} : conn ∈ conns ↔ conn ∈ (set.shards k).conns := by
    rw [← Finset.mem_val, ← hconns, Multiset.mem_coe]
  have htook {k' conns'} : Took (log ++ [((.closer : server.ι), (⟨.closeShard k, conns⟩ : Event))])
      k' conns' ↔ Took log k' conns' ∨ k' = k ∧ conns' = conns := by
    rw [took_concat]
    grind
  have hremoved {conn'} : RemovedInTime (log ++ [((.closer : server.ι),
      (⟨.closeShard k, conns⟩ : Event))]) conn' ↔ RemovedInTime log conn' := by
    rw [removedInTime_concat, or_iff_left (by simp)]
  refine ⟨fun k' => ?_, fun k' hk => ?_, fun conn' hconn' => ?_, fun honce conn' hconn' => ?_,
    fun k' conn' hconn' => ?_, fun k' conns' htaken conn' hconn' => ?_,
    fun k' conns₁ conns₂ h₁ h₂ => ?_, fun conn' hdid => ?_⟩
  · simp only [ConnectionSet.shards_closeShard, htook]
    have := h.closed_iff k'
    by_cases hk : k' = k <;> simp_all
  · rw [ConnectionSet.shards_closeShard] at hk ⊢
    split_ifs at hk ⊢
    · rfl
    · exact h.closed_empty k' hk
  · rw [added_concat, or_iff_left (by simp)] at hconn'
    simp only [hremoved, htook, ConnectionSet.shards_closeShard]
    obtain hin | hrest := h.added conn' hconn'
    · by_cases hk : shardFor conn' = k
      · exact .inr (.inr ⟨conns, .inr ⟨hk, rfl⟩, hmem.mpr (hk ▸ hin)⟩)
      · rw [if_neg hk]
        exact .inl hin
    · exact .inr (hrest.imp_right fun ⟨conns', htaken, hin⟩ => ⟨conns', .inl htaken, hin⟩)
  · rw [hremoved] at hconn'
    obtain ⟨hnot, htaken⟩ := h.removed honce.of_concat conn' hconn'
    simp only [htook, ConnectionSet.shards_closeShard]
    refine ⟨by split_ifs <;> simp [hnot], ?_⟩
    rintro k' conns' (htook | ⟨rfl, rfl⟩)
    · exact htaken k' conns' htook
    · intro hin
      have hin := hmem.mp hin
      rw [← h.home _ conn' hin] at hin
      exact hnot hin
  · rw [ConnectionSet.shards_closeShard] at hconn'
    split_ifs at hconn'
    · exact absurd hconn' (Finset.notMem_empty _)
    · exact h.home k' conn' hconn'
  · obtain htaken | ⟨rfl, rfl⟩ := htook.mp htaken
    · exact h.took_home k' conns' htaken conn' hconn'
    · exact h.home _ conn' (hmem.mp hconn')
  · rw [htook] at h₁ h₂
    obtain h₁ | ⟨rfl, rfl⟩ := h₁
    · obtain h₂ | ⟨rfl, rfl⟩ := h₂
      · exact h.took_once k' _ _ h₁ h₂
      · exact absurd h₁ (hopen _)
    · obtain h₂ | ⟨-, rfl⟩ := h₂
      · exact absurd h₂ (hopen _)
      · rfl
  · obtain ⟨k', conns', htaken, hin⟩ := h.closed conn'
      ((did_concat.mp hdid).resolve_right (by simp))
    exact ⟨k', conns', htook.mpr (.inl htaken), hin⟩

/-- `close(s.done)` leaves the shards. -/
theorem closeDone (h : Registered set log) : Registered { set with done := true } log :=
  ⟨h.closed_iff, h.closed_empty, h.added, h.removed, h.home, h.took_home, h.took_once, h.closed⟩

end Registered

/-- Whatever the other threads do, the caller of `Close` keeps to its part. -/
def closingPermits : server.ι → List Event → Op → Prop
  | .closer => closerPermits
  | _ => fun _ _ => True

def closingPost : server.ι → List Event → Prop
  | .closer, es => ∀ k, ShardDone es k
  | _, _ => True

/-- One operation: the sets are what the log says. -/
theorem registered_step {i : server.ι} {s s' : server.State} {o : Op} {r : Res o}
    (h : Registered s.conns s.log) (hp : closingPermits i (Threads.own s.log i) o)
    (ha : act i s o r s') : Registered s'.conns s'.log := by
  have hclose (conn : Conn) (hi : i = .closer) (ho : o = .close conn) :
      ∃ k conns, Took s.log k conns ∧ conn ∈ conns := by
    subst hi ho
    obtain ⟨k, conns, htook, hin⟩ := hp
    exact ⟨k, conns, Threads.mem_own.mp htook, hin⟩
  obtain ⟨t, ht, rfl⟩ := ha
  cases o with
  | accept ln =>
      cases r with
      | error err => obtain ⟨-, rfl⟩ := ht; exact h.quiet (by simp) (by simp) (by simp) hclose
      | ok conn => obtain ⟨-, -, rfl⟩ := ht; exact h.quiet (by simp) (by simp) (by simp) hclose
  | trySendToken =>
      simp only [effect] at ht
      split_ifs at ht <;> obtain ⟨-, rfl⟩ := ht <;>
        exact h.quiet (by simp) (by simp) (by simp) hclose
  | sendTokenOrDone =>
      cases r <;> obtain ⟨-, rfl⟩ := ht <;> exact h.quiet (by simp) (by simp) (by simp) hclose
  | checkDone | receiveToken | serve _ =>
      obtain ⟨-, rfl⟩ := ht
      exact h.quiet (by simp) (by simp) (by simp) hclose
  | go _ | closeListener _ | close _ =>
      obtain rfl := ht
      exact h.quiet (by simp) (by simp) (by simp) hclose
  | add conn =>
      obtain ⟨rfl, rfl⟩ := ht
      cases hclosed : (s.conns.shards (shardFor conn)).closed with
      | true =>
          simp only [ConnectionSet.add, hclosed, if_true]
          exact h.quiet (by simp) (by simp) (by simp) (by simp)
      | false =>
          simp only [ConnectionSet.add, hclosed, Bool.false_eq_true, if_false]
          exact h.add hclosed
  | remove conn => obtain rfl := ht; exact h.remove
  | closeDone =>
      obtain ⟨-, rfl⟩ := ht
      exact (h.quiet (by simp) (by simp) (by simp) hclose).closeDone
  | closeShard k =>
      obtain ⟨rfl, hconns, rfl⟩ := ht
      exact h.closeShard (fun conns htook => hp conns (Threads.mem_own.mpr htook)) hconns

/-- Nothing is registered. -/
theorem registered_init : Registered server.init.conns server.init.log := by
  refine ⟨fun k => ?_, fun _ _ => rfl, fun conn ⟨i, hadd⟩ => ?_, fun _ conn hremoved => ?_,
    fun k conn hin => ?_, fun k conns htook => ?_, fun k conns _ htook => ?_,
    fun conn ⟨r, hdid⟩ => ?_⟩
  · simp [init, newConnectionSet, Took]
  · exact absurd hadd List.not_mem_nil
  · exact absurd hremoved (not_occurs_nil _)
  · exact absurd hin (Finset.notMem_empty _)
  · exact absurd htook List.not_mem_nil
  · exact absurd htook List.not_mem_nil
  · exact absurd hdid List.not_mem_nil

/-- The registry and the log fit in every run against one call of `Close`, and that call
goes on as permitted. -/
theorem registered_of_meets {clients : server.ι → Proc Unit}
    {now : (server.ι → Proc Unit) × server.State} (h : Meets clients now) :
    Registered now.2.conns now.2.log ∧ (now.1 .closer).wp (Contract.logging closerPermits)
      (Threads.own now.2.log .closer) fun _ es => ∀ k, ShardDone es k := by
  have hall := Threads.logged State.log log_of_act closingPermits closingPost
    (fun s : server.State => Registered s.conns s.log) registered_step rfl registered_init
    (fun i => ?_) h
  · exact ⟨hall.1, hall.2 .closer⟩
  · cases i with
    | closer =>
        dsimp only
        rw [Function.update_self]
        exact wp_closer server
    | acceptLoop ln => exact wp_logging_true _ _
    | handler conn => exact wp_logging_true _ _

/-! ## After `CloseAll` -/

/-- `CloseAll` has returned: what is left of `Close` are the listeners. -/
def CloseAllReturned (now : (server.ι → Proc Unit) × server.State) : Prop :=
  ∃ lns errs, now.1 .closer = (do let _ ← closeListeners lns errs)

/-- A call that has returned has gone through all shards. -/
theorem shardDone_of_returned {clients : server.ι → Proc Unit}
    {now : (server.ι → Proc Unit) × server.State} (h : Meets clients now)
    (hret : CloseAllReturned now) (k : Fin connSetShards) :
    ShardDone (Threads.own now.2.log .closer) k := by
  obtain ⟨-, hwp⟩ := registered_of_meets h
  obtain ⟨lns, errs, heq⟩ := hret
  rw [heq] at hwp
  cases lns with
  | nil => exact hwp k
  | cons ln lns => exact hwp.1 k

/-- Once `CloseAll` has returned, `Add` refuses. -/
theorem add_eq_false_of_returned {clients : server.ι → Proc Unit}
    {now later : (server.ι → Proc Unit) × server.State} (h : Meets clients now)
    (hret : CloseAllReturned now) (hlater : Threads.Reachable act now later) {i : server.ι}
    {conn : Conn} {added : Bool} {s' : server.State}
    (ha : act i later.2 (.add conn) added s') : added = false := by
  obtain ⟨conns, htook, -⟩ := shardDone_of_returned h hret (shardFor conn)
  have htook : Took later.2.log (shardFor conn) conns :=
    (Threads.log_prefix State.log log_of_act hlater).subset (Threads.mem_own.mp htook)
  obtain ⟨hregistered, -⟩ := registered_of_meets (h.trans hlater)
  have hclosed := (hregistered.closed_iff _).mpr ⟨conns, htook⟩
  obtain ⟨t, ⟨rfl, -⟩, -⟩ := ha
  rw [ConnectionSet.add, if_pos hclosed]

/-- Once `CloseAll` has returned, every connection that was added is closed or had left. -/
theorem closed_or_removed {clients : server.ι → Proc Unit}
    {now : (server.ι → Proc Unit) × server.State} (h : Meets clients now)
    (hret : CloseAllReturned now) {conn : Conn} (hadded : Added now.2.log conn) :
    Did now.2.log .closer (.close conn) ∨ RemovedInTime now.2.log conn := by
  obtain ⟨hregistered, -⟩ := registered_of_meets h
  obtain ⟨conns, htook, hclosed⟩ := shardDone_of_returned h hret (shardFor conn)
  obtain hin | hremoved | ⟨conns', htook', hin⟩ := hregistered.added conn hadded
  · have hempty := hregistered.closed_empty _
      ((hregistered.closed_iff _).mpr ⟨conns, Threads.mem_own.mp htook⟩)
    rw [hempty] at hin
    exact absurd hin (Finset.notMem_empty _)
  · exact .inr hremoved
  · obtain rfl := hregistered.took_once _ _ _ (Threads.mem_own.mp htook) htook'
    exact .inl ((hclosed conn hin).imp fun _ => Threads.mem_own.mp)

/-- A connection that had left in time is not closed by `CloseAll`. -/
theorem not_closed_of_removed {clients : server.ι → Proc Unit}
    {now : (server.ι → Proc Unit) × server.State} (h : Meets clients now)
    (honce : AddedOnce now.2.log) {conn : Conn} (hremoved : RemovedInTime now.2.log conn) :
    ¬ Did now.2.log .closer (.close conn) := by
  obtain ⟨hregistered, -⟩ := registered_of_meets h
  intro hclosed
  obtain ⟨k, conns, htook, hin⟩ := hregistered.closed conn hclosed
  exact (hregistered.removed honce conn hremoved).2 k conns htook hin

/-! ## What becomes of an accepted connection -/

/-- How often `Add` was called for the connection. -/
def addCount (log : List (server.ι × Event)) (conn : Conn) : Nat :=
  log.countP fun x => adds conn x.2

/-- The accept loops deal with each connection in order. -/
structure Ordered (s : server.State) : Prop where
  add_le : ∀ conn, addCount s.log conn + ∑ ln, (pendings s.log ln).unadded conn ≤
    acceptCount s.log conn
  added_once : AddedOnce s.log
  added_mem : ∀ ln conn, (pendings s.log ln).conn = some conn →
    (pendings s.log ln).added = some true → (.acceptLoop ln, ⟨.add conn, true⟩) ∈ s.log
  go_after_add : Justified (fun before x => ∀ conn, x.2.1 = .go conn →
    (x.1, ⟨.add conn, true⟩) ∈ before) s.log
  loop_eq : ∀ ln conn, (Threads.own s.log (.acceptLoop ln)).countP (accepts conn) =
    (Threads.own s.log (.acceptLoop ln)).countP (handsOver conn) +
      (Threads.own s.log (.acceptLoop ln)).countP (closes conn) + (pendings s.log ln).holds conn

theorem ordered_init : Ordered server.init where
  add_le conn := by
    have hidle : ∑ ln, (pendings server.init.log ln).unadded conn = 0 :=
      Finset.sum_eq_zero fun _ _ => rfl
    rw [hidle]
    rfl
  added_once := justified_nil _
  added_mem _ _ hconn := absurd hconn (by simp [pendings, init, Threads.own, Pending.idle])
  go_after_add := justified_nil _
  loop_eq _ _ := rfl

section Step

variable {i : server.ι} {s s' : server.State} {o : Op} {r : Res o}

/-- Only accept loops add connections and start handlers. -/
theorem loop_of_permits {conn : Conn} {es : List Event} (ho : o = .add conn ∨ o = .go conn)
    (hp : server.permits i es o) : ∃ ln, i = .acceptLoop ln := by
  cases i with
  | acceptLoop ln => exact ⟨ln, rfl⟩
  | handler conn' =>
      have hmem := mem_handlerOps (List.mem_of_getElem? hp)
      rcases ho with rfl | rfl <;> simp at hmem
  | closer => rcases ho with rfl | rfl <;> exact hp.elim

/-- A connection is registered once for each time it is accepted. -/
theorem Ordered.add_le_step (h : Ordered s) (hp : server.permits i (Threads.own s.log i) o)
    (conn : Conn) :
    addCount (s.log ++ [(i, ⟨o, r⟩)]) conn +
        ∑ ln, (pendings (s.log ++ [(i, ⟨o, r⟩)]) ln).unadded conn ≤
      acceptCount (s.log ++ [(i, ⟨o, r⟩)]) conn := by
  have hbefore := h.add_le conn
  rw [addCount, countP_concat, acceptCount_concat, ← addCount]
  dsimp only
  by_cases hi : ∃ ln, i = .acceptLoop ln
  · obtain ⟨ln, rfl⟩ := hi
    have hmove := Pending.add_balance (p := pendings s.log ln) (e := ⟨o, r⟩) conn hp
    have hsum := Threads.sum_update_add (Finset.mem_univ ln) (Pending.unadded conn)
      (pendings s.log) ((pendings s.log ln).next ⟨o, r⟩)
    rw [pendings_concat_loop]
    omega
  · have hadds : adds conn ⟨o, r⟩ = false :=
      decide_eq_false fun ho => hi (loop_of_permits (.inl ho) hp)
    rw [pendings_concat_of_ne _ (not_exists.mp hi), hadds]
    exact hbefore.trans (Nat.le_add_right _ _)

/-- A connection is added once: the loop that adds it has not, and no other loop has it. -/
theorem Ordered.not_did_add (hk : Kept s) (h : Ordered s) {conn : Conn}
    (hp : server.permits i (Threads.own s.log i) (.add conn)) (j : server.ι) :
    ¬ Did s.log j (.add conn) := by
  obtain ⟨ln, rfl⟩ := loop_of_permits (.inl rfl) hp
  have hpending : pendings s.log ln = ⟨some conn, server.gate.tokens.isSome, none⟩ := hp
  have hone : (pendings s.log ln).unadded conn = 1 := by
    rw [hpending, Pending.unadded, if_pos ⟨rfl, rfl⟩]
  have hle := Finset.single_le_sum (f := fun ln => (pendings s.log ln).unadded conn)
    (fun _ _ => Nat.zero_le _) (Finset.mem_univ ln)
  have hadd := h.add_le conn
  have haccept := hk.acceptCount_le conn
  have hzero : addCount s.log conn = 0 := by omega
  rintro ⟨added, hmem⟩
  exact List.countP_eq_zero.mp hzero _ hmem (decide_eq_true rfl)

theorem Ordered.step (hk : Kept s) (h : Ordered s)
    (hp : server.permits i (Threads.own s.log i) o) (ha : act i s o r s') : Ordered s' := by
  refine ⟨fun conn => ?_, ?_, fun ln conn hconn hadded => ?_, ?_, fun ln conn => ?_⟩ <;>
    rw [log_of_act ha] at *
  · exact h.add_le_step hp conn
  · refine h.added_once.concat fun conn ho j => ?_
    obtain rfl : o = .add conn := ho
    exact h.not_did_add hk hp j
  · by_cases hi : ∃ ln', i = .acceptLoop ln'
    · obtain ⟨ln', rfl⟩ := hi
      rw [pendings_concat_loop] at hconn hadded
      by_cases hln : ln = ln'
      · subst hln
        rw [Function.update_self] at hconn hadded
        obtain heq | ⟨hconn, hadded⟩ :=
          Pending.added_of_next (g := server.gate) (e := ⟨o, r⟩) hp hconn hadded
        · rw [heq]
          simp
        · exact List.mem_append_left _ (h.added_mem ln conn hconn hadded)
      · rw [Function.update_of_ne hln] at hconn hadded
        exact List.mem_append_left _ (h.added_mem ln conn hconn hadded)
    · rw [pendings_concat_of_ne _ (not_exists.mp hi)] at hconn hadded
      exact List.mem_append_left _ (h.added_mem ln conn hconn hadded)
  · refine h.go_after_add.concat fun conn ho => ?_
    obtain rfl : o = .go conn := ho
    obtain ⟨ln, rfl⟩ := loop_of_permits (.inr rfl) hp
    have hpending : pendings s.log ln = ⟨some conn, server.gate.tokens.isSome, some true⟩ := hp
    exact h.added_mem ln conn (by rw [hpending]) (by rw [hpending])
  · have hbefore := h.loop_eq ln conn
    rw [pendings, Threads.own_concat]
    by_cases hi : i = .acceptLoop ln
    · subst hi
      have hbalance := Pending.conn_balance (e := ⟨o, r⟩) conn hp
      rw [pendings] at hbefore
      rw [Function.update_self, countP_concat, countP_concat, countP_concat, pending_concat]
      omega
    · rw [Function.update_of_ne (Ne.symm hi)]
      exact hbefore

end Step

/-- In every run of a server its accept loops deal with each connection in order, and go
on as permitted. -/
theorem ordered_of_reaches {now : (server.ι → Proc Unit) × server.State} (h : server.Reaches now) :
    (Kept now.2 ∧ Ordered now.2) ∧ ∀ i, (now.1 i).wp (Contract.logging (server.permits i))
      (Threads.own now.2.log i) fun _ es => server.post i es :=
  Threads.logged State.log log_of_act server.permits server.post (fun s => Kept s ∧ Ordered s)
    (fun h hp ha => ⟨h.1.step hp ha, h.2.step h.1 hp ha⟩) rfl ⟨kept_init, ordered_init⟩
    server.wp_program h

/-- The accept loop has accepted the connection. -/
def Accepted (log : List (server.ι × Event)) (ln : Fin server.listeners) (conn : Conn) : Prop :=
  ∃ l, (.acceptLoop ln, ⟨.accept l, .ok conn⟩) ∈ log

/-- The loop has handed the connection to its only handler, after a successful `Add`. -/
def Handed (log : List (server.ι × Event)) (ln : Fin server.listeners) (conn : Conn) : Prop :=
  Occurs (fun before x => x = (.acceptLoop ln, ⟨.go conn, ()⟩) ∧
    (.acceptLoop ln, ⟨.add conn, true⟩) ∈ before) log ∧ (started log).count conn = 1

/-- The accept loop is between two connections, or has ended. -/
def Between (now : (server.ι → Proc Unit) × server.State) (ln : Fin server.listeners) : Prop :=
  ∃ rounds, now.1 (.acceptLoop ln) = acceptLoop server.gate ln rounds

/-- A loop between two rounds has nothing in hand. -/
theorem pendings_of_between {now : (server.ι → Proc Unit) × server.State}
    (h : server.Reaches now) {ln : Fin server.listeners} (hln : Between now ln) :
    pendings now.2.log ln = .idle := by
  have hwp := (ordered_of_reaches h).2 (.acceptLoop ln)
  obtain ⟨rounds, heq⟩ := hln
  rw [heq] at hwp
  cases rounds with
  | zero => exact hwp
  | succ rounds => exact hwp.1

theorem closeCount_pos {log : List (server.ι × Event)} {ln : Fin server.listeners} {conn : Conn}
    (h : Did log (.acceptLoop ln) (.close conn)) : 0 < closeCount log conn := by
  obtain ⟨r, hmem⟩ := h
  exact List.countP_pos_iff.mpr ⟨_, hmem, decide_eq_true rfl⟩

theorem mem_started_of_mem {log : List (server.ι × Event)} {i : server.ι} {conn : Conn} {r : Unit}
    (h : (i, ⟨.go conn, r⟩) ∈ log) : conn ∈ started log :=
  List.mem_filterMap.mpr ⟨_, h, rfl⟩

/-- The loop has handed the connection to one handler or has closed it, and not both. -/
theorem handed_or_closed {now : (server.ι → Proc Unit) × server.State} (h : server.Reaches now)
    {ln : Fin server.listeners} {conn : Conn} (hconn : Accepted now.2.log ln conn)
    (hln : Between now ln) :
    Handed now.2.log ln conn ∧ ¬ Did now.2.log (.acceptLoop ln) (.close conn) ∨
      Did now.2.log (.acceptLoop ln) (.close conn) ∧ conn ∉ started now.2.log := by
  obtain ⟨⟨hkept, hordered⟩, -⟩ := ordered_of_reaches h
  have hone := hkept.acceptCount_le conn
  have hall := hkept.conn_eq conn
  -- the loop's own account: what it accepted it has handed over or closed
  have hown := hordered.loop_eq ln conn
  have hidle : (pendings now.2.log ln).holds conn = 0 := by
    rw [pendings_of_between h hln]
    rfl
  have haccepted : 0 < (Threads.own now.2.log (.acceptLoop ln)).countP (accepts conn) := by
    obtain ⟨l, hmem⟩ := hconn
    exact List.countP_pos_iff.mpr ⟨_, Threads.mem_own.mpr hmem, decide_eq_true rfl⟩
  by_cases hclosed : Did now.2.log (.acceptLoop ln) (.close conn)
  · have := closeCount_pos hclosed
    refine .inr ⟨hclosed, List.count_eq_zero.mp ?_⟩
    omega
  · have hnone : (Threads.own now.2.log (.acceptLoop ln)).countP (closes conn) = 0 := by
      refine List.countP_eq_zero.mpr fun ⟨o, r⟩ hmem hcloses => ?_
      obtain rfl : o = .close conn := of_decide_eq_true hcloses
      exact hclosed ⟨r, Threads.mem_own.mp hmem⟩
    obtain ⟨⟨o, r⟩, hmem, hgo⟩ := List.countP_pos_iff.mp
      (by omega : 0 < (Threads.own now.2.log (.acceptLoop ln)).countP (handsOver conn))
    obtain rfl : o = .go conn := of_decide_eq_true hgo
    have hmem := Threads.mem_own.mp hmem
    obtain ⟨before, after, hlog⟩ := List.append_of_mem hmem
    have hadded := hordered.go_after_add before _ after hlog conn rfl
    have hstarted := List.count_pos_iff.mpr (mem_started_of_mem hmem)
    refine .inl ⟨⟨⟨before, _, after, hlog, rfl, hadded⟩, ?_⟩, hclosed⟩
    omega

/-- A loop that works on a connection can go on, unless the gate is full and the server is
not shutting down. -/
theorem loop_can_step {now : (server.ι → Proc Unit) × server.State} (h : server.Reaches now)
    {ln : Fin server.listeners} {o : Op} {k : Res o → Proc Unit}
    (hln : now.1 (.acceptLoop ln) = .step o k) (haccept : ∀ l, o ≠ .accept l)
    (hwait : o = .sendTokenOrDone → now.2.tokens < server.max.toNat ∨ now.2.conns.done) :
    ∃ r s', act (.acceptLoop ln) now.2 o r s' := by
  have hp := (ordered_of_reaches h).2 (.acceptLoop ln)
  rw [hln] at hp
  have hp := hp.1
  cases o with
  | accept l => exact absurd rfl (haccept l)
  | trySendToken =>
      by_cases hroom : now.2.tokens < server.max.toNat
      · exact ⟨true, _, _, by rw [effect, if_pos hroom]; exact ⟨rfl, rfl⟩, rfl⟩
      · exact ⟨false, _, _, by rw [effect, if_neg hroom]; exact ⟨rfl, rfl⟩, rfl⟩
  | sendTokenOrDone =>
      obtain hroom | hdone := hwait rfl
      · exact ⟨true, _, _, ⟨hroom, rfl⟩, rfl⟩
      · exact ⟨false, _, _, ⟨hdone, rfl⟩, rfl⟩
  | checkDone => exact ⟨_, _, _, ⟨rfl, rfl⟩, rfl⟩
  | receiveToken =>
      -- a loop of an unlimited gate has no token to give back
      have hmax : server.max ≠ 0 := fun hzero => by
        have hsome := hp.1
        rw [gate, newConnectionGate, if_pos hzero] at hsome
        exact Bool.false_ne_true hsome
      exact ⟨(), _, _, ⟨tokens_pos hmax h hln, rfl⟩, rfl⟩
  | add conn => exact ⟨_, _, _, ⟨rfl, rfl⟩, rfl⟩
  | go conn => exact ⟨(), _, _, rfl, rfl⟩
  | close conn => exact ⟨none, _, _, rfl, rfl⟩
  | _ => exact hp.elim

/-- What `CloseAll` does not touch. -/
structure Untouched (s t : server.State) : Prop where
  tokens : t.tokens = s.tokens
  listeners : t.closedListeners = s.closedListeners
  log : s.log <+: t.log

/-- What the closing call does leaves the connections of others as they are. -/
theorem Untouched.step {s t t' : server.State} {o : Op} {r : Res o} (h : Untouched s t)
    (ha : act .closer t o r t')
    (ho : o = .closeDone ∨ (∃ k, o = .closeShard k) ∨ ∃ conn, o = .close conn) :
      Untouched s t' := by
  obtain ⟨u, hu, rfl⟩ := ha
  have hlog := h.log.trans (List.prefix_append t.log [(.closer, ⟨o, r⟩)])
  obtain rfl | ⟨k, rfl⟩ | ⟨conn, rfl⟩ := ho
  · obtain ⟨-, rfl⟩ := hu
    exact ⟨h.tokens, h.listeners, hlog⟩
  · obtain ⟨-, -, rfl⟩ := hu
    exact ⟨h.tokens, h.listeners, hlog⟩
  · obtain rfl := hu
    exact ⟨h.tokens, h.listeners, hlog⟩

/-- `CloseAll` is never stuck. -/
theorem live_closeAll (s : server.State) :
    closeAll.wp (Contract.live (act .closer)) s fun _ t => Untouched s t := by
  have hsame : Untouched s s := ⟨rfl, rfl, List.prefix_refl _⟩
  refine wp_bind.mpr ⟨⟨(), _, _, ⟨rfl, rfl⟩, rfl⟩, fun _ t ha => ?_⟩
  refine wp_foldlM (fun _ _ t => Untouched s t) (fun k _ errs t ht => ?_) (hsame.step ha (.inl rfl))
  refine wp_bind.mpr ⟨⟨(t.conns.shards k).conns.toList, _, _, ⟨rfl, ?_, rfl⟩, rfl⟩,
    fun conns t' ha => ?_⟩
  · exact Finset.coe_toList _
  · refine wp_foldlM (fun _ _ t => Untouched s t) (fun conn _ _ t ht => ?_)
      (ht.step ha (.inr (.inl ⟨k, rfl⟩)))
    exact wp_bind.mpr ⟨⟨none, _, _, rfl, rfl⟩, fun _ _ ha => ht.step ha (.inr (.inr ⟨conn, rfl⟩))⟩

/-- A call of `Close` that has not begun can get through `CloseAll`. -/
theorem Reaches.returned {ps : server.ι → Proc Unit} {s : server.State}
    (h : server.Reaches (ps, s)) (hps : ps .closer = server.close) :
    ∃ now, server.Reaches now ∧ CloseAllReturned now ∧ s.log ⊆ now.2.log := by
  obtain ⟨s', errs, hexec, -⟩ := exists_exec (live_closeAll s)
  have hrun := Threads.Reachable.exec hps hexec
  refine ⟨_, h.trans hrun, ⟨List.range server.listeners, errs, ?_⟩,
    (Threads.log_prefix State.log log_of_act hrun).subset⟩
  dsimp only
  rw [Function.update_self]

/-- A connection is accepted and registered, and then `CloseAll` runs. -/
theorem reaches_solo_returned :
    ∃ now, solo.Reaches now ∧ CloseAllReturned now ∧ Added now.2.log ⟨0, 0⟩ := by
  have h : solo.Reaches (solo.program, solo.init) := .refl
  have h := h.step (i := .acceptLoop 0) rfl (.ok ⟨0, 0⟩)
    ⟨_, ⟨Finset.notMem_empty _, by simp [init], rfl⟩, rfl⟩
  have h := h.step (i := .acceptLoop 0) rfl true ⟨_, ⟨rfl, rfl⟩, rfl⟩
  have h := h.step (i := .acceptLoop 0) rfl false ⟨_, ⟨rfl, rfl⟩, rfl⟩
  have h := h.step (i := .acceptLoop 0) rfl true ⟨_, ⟨rfl, rfl⟩, rfl⟩
  obtain ⟨now, hreach, hret, hlog⟩ := h.returned rfl
  exact ⟨now, hreach, hret, .acceptLoop 0, hlog (List.mem_append_right _ (by simp))⟩

end Server

/-- Shutdown misses no connection. -/
theorem Server.shutdown_misses_none (server : Server) :
    -- against any code in the other threads, once `CloseAll` has returned
    (∀ (clients : server.ι → Proc Unit) now, Meets clients now → CloseAllReturned now →
      (∀ conn, Added now.2.log conn →
        Did now.2.log .closer (.close conn) ∨ RemovedInTime now.2.log conn) ∧
      ∀ later, Threads.Reachable act now later → ∀ i conn added s',
        act i later.2 (.add conn) added s' → added = false) ∧
    -- and at any time
    (∀ (clients : server.ι → Proc Unit) now, Meets clients now → AddedOnce now.2.log →
      ∀ conn, RemovedInTime now.2.log conn → ¬ Did now.2.log .closer (.close conn)) ∧
    -- in the server's own runs
    ∀ now, server.Reaches now → AddedOnce now.2.log ∧
      (∀ ln conn, Accepted now.2.log ln conn → Between now ln →
        Handed now.2.log ln conn ∧ ¬ Did now.2.log (.acceptLoop ln) (.close conn) ∨
        Did now.2.log (.acceptLoop ln) (.close conn) ∧ conn ∉ started now.2.log) ∧
      ∀ ln o k, now.1 (.acceptLoop ln) = .step o k → (∀ l, o ≠ .accept l) →
        (o = .sendTokenOrDone → now.2.tokens < server.max.toNat ∨ now.2.conns.done) →
        ∃ r s', act (.acceptLoop ln) now.2 o r s' :=
  ⟨fun _ _ h hret => ⟨fun _ => closed_or_removed h hret, fun _ hlater _ _ _ _ =>
      add_eq_false_of_returned h hret hlater⟩,
    fun _ _ h honce _ => not_closed_of_removed h honce,
    fun _ h => ⟨(ordered_of_reaches h).1.2.added_once, fun _ _ => handed_or_closed h,
      fun _ _ _ => loop_can_step h⟩⟩

/-- The registered connection is closed, or had been removed. -/
theorem Server.shutdown_misses_none_solo : ∃ now, solo.Reaches now ∧ CloseAllReturned now ∧
    (Did now.2.log .closer (.close ⟨0, 0⟩) ∨ RemovedInTime now.2.log ⟨0, 0⟩) := by
  obtain ⟨now, hreach, hret, hadded⟩ := reaches_solo_returned
  exact ⟨now, hreach, hret,
    ((shutdown_misses_none solo).1 solo.program now hreach.meets hret).1 _ hadded⟩

end Outway.Serverbase
