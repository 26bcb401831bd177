import Outway.Serverbase.Accept

/-!
# Outway.Serverbase.Handover

What each thread of a server may do next, by what it has done.

An accept loop works on at most one connection; `Pending` is that connection, with
whether the loop has a token and has registered it.  A handler runs through its
operations once.  The caller of `Close` closes what it took out of a shard.
`permits` collects the three, and `wp_program` says that the programs keep to it.
-/

namespace Outway.Serverbase

open Prog

/-! ## Accept loops -/

/-- The connection an accept loop is working on. -/
structure Pending where
  conn : Option Conn
  /-- the loop has a token it has neither returned nor passed on -/
  token : Bool
  /-- what `Add` returned -/
  added : Option Bool
  deriving DecidableEq

namespace Pending

/-- Between two connections. -/
def idle : Pending := ⟨none, false, none⟩

def next (p : Pending) : Event → Pending
  | ⟨.accept _, .ok conn⟩ => ⟨some conn, false, none⟩
  | ⟨.trySendToken, true⟩ => { p with token := true }
  | ⟨.sendTokenOrDone, true⟩ => { p with token := true }
  | ⟨.receiveToken, _⟩ => { p with token := false }
  | ⟨.add _, added⟩ => { p with added := some added }
  | ⟨.go _, _⟩ => idle
  | ⟨.close _, _⟩ => idle
  | _ => p

/-- What the loop may do next, behind the gate `g`. -/
def Allows (g : ConnectionGate) (p : Pending) : Op → Prop
  | .accept _ => p = idle
  | .trySendToken => g.tokens.isSome ∧ ∃ conn, p = ⟨some conn, false, none⟩
  | .sendTokenOrDone => g.tokens.isSome ∧ ∃ conn, p = ⟨some conn, false, none⟩
  | .checkDone => ∃ conn token, p = ⟨some conn, token, none⟩
  | .receiveToken => g.tokens.isSome ∧ ∃ conn added, p = ⟨some conn, true, added⟩ ∧
    added ≠ some true
  | .add conn => p = ⟨some conn, g.tokens.isSome, none⟩
  | .go conn => p = ⟨some conn, g.tokens.isSome, some true⟩
  | .close conn => ∃ added, p = ⟨some conn, false, added⟩ ∧ added ≠ some true
  | _ => False

end Pending

/-- The pending connection after a loop's entries. -/
def pending (es : List Event) : Pending := es.foldl Pending.next .idle

@[simp] theorem pending_nil : pending [] = .idle := rfl

@[simp] theorem pending_concat (es : List Event) (e : Event) :
    pending (es ++ [e]) = (pending es).next e := by
  simp [pending]

/-- What a loop may do after its entries. -/
def loopPermits (g : ConnectionGate) (es : List Event) (o : Op) : Prop := (pending es).Allows g o

section Loop

variable {g : ConnectionGate} {es : List Event} {conn : Conn}

/-- The pending connection after one more entry. -/
theorem pending_of_next {p p' : Pending} (hes : pending es = p) (e : Event) (hp : p.next e = p') :
    pending (es ++ [e]) = p' := by
  rw [pending_concat, hes, hp]

/-- A slot is kept unless the end has begun. -/
theorem wp_keepUnlessDone (hg : g.tokens.isSome) (hes : pending es = ⟨some conn, true, none⟩) :
    ConnectionGate.keepUnlessDone.wp (Contract.logging (loopPermits g)) es
      fun ok es' => pending es' = ⟨some conn, ok, none⟩ := by
  refine wp_bind.mpr (wp_op ⟨conn, true, hes⟩ fun done => ?_)
  have hes' := pending_of_next hes ⟨.checkDone, done⟩ rfl
  cases done with
  | false => exact hes'
  | true =>
      have hreceive : loopPermits g _ .receiveToken := ⟨hg, conn, none, hes', by simp⟩
      exact wp_bind.mpr (wp_op hreceive fun _ => pending_of_next hes' _ rfl)

/-- `AcquireUntil` leaves the loop with a token of a limited gate exactly if it returns
true. -/
theorem wp_acquireUntil (hes : pending es = ⟨some conn, false, none⟩) :
    g.acquireUntil.wp (Contract.logging (loopPermits g)) es
      fun ok es' => pending es' = ⟨some conn, ok && g.tokens.isSome, none⟩ := by
  obtain ⟨_ | n⟩ := g
  · refine wp_bind.mpr (wp_op ⟨conn, false, hes⟩ fun done => ?_)
    rw [pure_eq, wp_ret, Option.isSome_none, Bool.and_false]
    exact pending_of_next hes _ rfl
  · simp only [Option.isSome_some, Bool.and_true]
    refine wp_bind.mpr (wp_op ⟨rfl, conn, hes⟩ fun sent => ?_)
    cases sent with
    | true => exact wp_keepUnlessDone rfl (pending_of_next hes _ rfl)
    | false =>
        have hes' := pending_of_next hes ⟨.trySendToken, false⟩ rfl
        refine wp_bind.mpr (wp_op ⟨rfl, conn, hes'⟩ fun sent => ?_)
        cases sent with
        | true => exact wp_keepUnlessDone rfl (pending_of_next hes' _ rfl)
        | false => exact pending_of_next hes' ⟨.sendTokenOrDone, false⟩ rfl

/-- A refused connection's slot is given back. -/
theorem wp_release (hes : pending es = ⟨some conn, g.tokens.isSome, some false⟩) :
    g.release.wp (Contract.logging (loopPermits g)) es
      fun _ es' => pending es' = ⟨some conn, false, some false⟩ := by
  obtain ⟨_ | n⟩ := g
  · exact hes
  · exact wp_op ⟨rfl, conn, some false, hes, by simp⟩ fun _ => pending_of_next hes _ rfl

/-- A connection that was not registered is closed. -/
theorem wp_close {added : Option Bool} (hes : pending es = ⟨some conn, false, added⟩)
    (hadded : added ≠ some true) :
    (op (.close conn)).wp (Contract.logging (loopPermits g)) es
      fun _ es' => pending es' = .idle :=
  wp_op ⟨added, hes, hadded⟩ fun _ => pending_of_next hes _ rfl

/-- A round leaves no connection behind. -/
theorem wp_acceptRound (ln : Nat) (hes : pending es = .idle) :
    (acceptRound g ln).wp (Contract.logging (loopPermits g)) es
      fun _ es' => pending es' = .idle := by
  refine wp_bind.mpr (wp_op hes fun r => ?_)
  cases r with
  | error err => exact pending_of_next hes ⟨.accept ln, .error err⟩ rfl
  | ok conn =>
      have haccepted := pending_of_next hes ⟨.accept ln, .ok conn⟩ rfl
      refine wp_seq (wp_acquireUntil haccepted) fun ok es₁ h₁ => ?_
      cases ok with
      | false => exact wp_seq (wp_close h₁ (by simp)) fun _ _ h₂ => h₂
      | true =>
          refine wp_bind.mpr (wp_op h₁ fun added => ?_)
          cases added with
          | true =>
              have hadded := pending_of_next h₁ ⟨.add conn, true⟩ rfl
              exact wp_bind.mpr (wp_op hadded fun _ => pending_of_next hadded _ rfl)
          | false =>
              have hrefused := pending_of_next h₁ ⟨.add conn, false⟩ rfl
              refine wp_seq (wp_release hrefused) fun _ _ h₂ => ?_
              exact wp_seq (wp_close h₂ (by simp)) fun _ _ h₃ => h₃

/-- A loop ends with nothing in hand. -/
theorem wp_acceptLoop (ln rounds : Nat) (hes : pending es = .idle) :
    (acceptLoop g ln rounds).wp (Contract.logging (loopPermits g)) es
      fun _ es' => pending es' = .idle :=
  wp_iterate (fun _ es => pending es = .idle) (fun _ _ h => h)
    (fun _ _ h => wp_mono (wp_acceptRound ln h) fun r _ h' => by cases r <;> exact h') hes

end Loop

/-! ## Handlers -/

/-- The operations of a handler, in order. -/
def handlerOps (g : ConnectionGate) (conn : Conn) : List Op :=
  [.serve conn, .remove conn] ++ if g.tokens.isSome then [.receiveToken] else []

/-- What a handler does. -/
theorem mem_handlerOps {g : ConnectionGate} {conn : Conn} {o : Op} (h : o ∈ handlerOps g conn) :
    o = .serve conn ∨ o = .remove conn ∨ o = .receiveToken := by
  obtain ⟨_ | n⟩ := g
  · exact (by simpa [handlerOps] using h : o = .serve conn ∨ o = .remove conn).imp_right .inl
  · simpa [handlerOps] using h

theorem eq_of_concat_receiveToken {g : ConnectionGate} {conn : Conn} {ops : List Op}
    (h : ops ++ [.receiveToken] <+: handlerOps g conn) : ops = [.serve conn, .remove conn] := by
  obtain ⟨rest, h⟩ := h
  obtain ⟨_ | n⟩ := g <;> rcases ops with _ | ⟨a, _ | ⟨b, _ | ⟨c, ops⟩⟩⟩ <;>
    simp [handlerOps] at h ⊢
  exact ⟨h.1, h.2.1⟩

def handlerPermits (g : ConnectionGate) (conn : Conn) (es : List Event) (o : Op) : Prop :=
  (handlerOps g conn)[es.length]? = some o

/-- A handler serves, removes its connection, and gives its slot back, in this order. -/
theorem wp_handler (g : ConnectionGate) (conn : Conn) :
    (handler g conn).wp (Contract.logging (handlerPermits g conn)) []
      fun _ es => es.length = (handlerOps g conn).length := by
  refine wp_bind.mpr (wp_op rfl fun _ => ?_)
  refine wp_bind.mpr (wp_op rfl fun _ => ?_)
  obtain ⟨_ | n⟩ := g
  · rfl
  · exact wp_op rfl fun _ => rfl

/-! ## Shutdown -/

/-- The shard was closed, and so were the connections taken out of it. -/
def ShardDone (es : List Event) (k : Fin connSetShards) : Prop :=
  ∃ conns : List Conn, (⟨.closeShard k, conns⟩ : Event) ∈ es ∧
    ∀ conn ∈ conns, ∃ err : Option IoError, (⟨.close conn, err⟩ : Event) ∈ es

/-- A shard that is done stays so. -/
theorem ShardDone.mono {es es' : List Event} {k : Fin connSetShards} (h : ShardDone es k)
    (hes : es ⊆ es') : ShardDone es' k := by
  obtain ⟨conns, htaken, hclosed⟩ := h
  exact ⟨conns, hes htaken, fun conn hconn => (hclosed conn hconn).imp fun _ h => hes h⟩

/-- The shard was not closed yet. -/
def ShardOpen (es : List Event) (k : Fin connSetShards) : Prop :=
  ∀ conns : List Conn, (⟨.closeShard k, conns⟩ : Event) ∉ es

theorem ShardOpen.concat {es : List Event} {k : Fin connSetShards} (h : ShardOpen es k) {e : Event}
    (he : e.1 ≠ .closeShard k) : ShardOpen (es ++ [e]) k := by
  intro conns hmem
  obtain hmem | hmem := List.mem_append.mp hmem
  · exact h conns hmem
  · exact he (congrArg Sigma.fst (List.mem_singleton.mp hmem)).symm

/-- What the caller of `Close` may do: close each shard once, close the connections it
took, and go on to the listeners when `CloseAll` has done its work. -/
def closerPermits (es : List Event) : Op → Prop
  | .closeDone => True
  | .closeShard k => ShardOpen es k
  | .close conn => ∃ k, ∃ conns : List Conn, (⟨.closeShard k, conns⟩ : Event) ∈ es ∧ conn ∈ conns
  | .closeListener _ => ∀ k, ShardDone es k
  | _ => False

/-- Closing the connections taken from a shard; `before` are the entries up to there. -/
theorem wp_closeConns {before : List Event} {k : Fin connSetShards} {conns : List Conn}
    (htaken : (⟨.closeShard k, conns⟩ : Event) ∈ before) (errs : List IoError) :
    (closeConns errs conns).wp (Contract.logging closerPermits) before
      fun _ es => before ⊆ es ∧ (∀ k', ShardOpen before k' → ShardOpen es k') ∧ ShardDone es k := by
  refine wp_mono (wp_foldlM (fun rest _ es => before ⊆ es ∧
      (∀ k', ShardOpen before k' → ShardOpen es k') ∧ rest ⊆ conns ∧
      ∀ conn ∈ conns, conn ∈ rest ∨ ∃ err : Option IoError, (⟨.close conn, err⟩ : Event) ∈ es)
    (fun conn rest errs es ⟨hbefore, hopen, hrest, hclosed⟩ => ?_)
    ⟨List.Subset.refl _, fun _ h => h, List.Subset.refl _, fun conn hconn => .inl hconn⟩)
    fun _ es ⟨hbefore, hopen, _, hclosed⟩ => ⟨hbefore, hopen, conns, hbefore htaken,
      fun conn hconn => (hclosed conn hconn).resolve_left List.not_mem_nil⟩
  obtain ⟨hconn, hrest⟩ := List.cons_subset.mp hrest
  refine wp_bind.mpr (wp_op ⟨k, conns, hbefore htaken, hconn⟩ fun err =>
    ⟨List.Subset.trans hbefore (List.subset_append_left _ _), fun k' hk' => ?_, hrest,
      fun conn' hconn' => ?_⟩)
  · exact (hopen k' hk').concat (by simp)
  · obtain hmem | ⟨err', hmem⟩ := hclosed conn' hconn'
    · obtain rfl | hmem := List.mem_cons.mp hmem
      · exact .inr ⟨err, List.mem_append_right _ List.mem_cons_self⟩
      · exact .inl hmem
    · exact .inr ⟨err', List.mem_append_left _ hmem⟩

/-- When `CloseAll` returns it is done with every shard. -/
theorem wp_closeAll : closeAll.wp (Contract.logging closerPermits) []
    fun _ es => ∀ k, ShardDone es k := by
  refine wp_bind.mpr (wp_op trivial fun _ => ?_)
  refine wp_mono (wp_foldlM
    (fun rest _ es => rest.Nodup ∧ (∀ k ∈ rest, ShardOpen es k) ∧ ∀ k, k ∈ rest ∨ ShardDone es k)
    (fun k rest errs es ⟨hnodup, hopen, hdone⟩ => ?_)
    ⟨List.nodup_finRange _, fun k _ => by simp [ShardOpen], fun k => .inl (List.mem_finRange k)⟩)
    fun _ es ⟨_, _, hdone⟩ k => (hdone k).resolve_left List.not_mem_nil
  obtain ⟨hk, hnodup⟩ := List.nodup_cons.mp hnodup
  refine wp_bind.mpr (wp_op (hopen k List.mem_cons_self) fun conns => ?_)
  refine wp_mono (wp_closeConns (k := k) (by simp) errs)
    fun _ es' ⟨hsub, hopen', hdone'⟩ => ⟨hnodup, fun k' hk' => ?_, fun k' => ?_⟩
  · refine hopen' k' ((hopen k' (List.mem_cons_of_mem _ hk')).concat fun heq => hk ?_)
    obtain rfl : k = k' := by simpa using heq
    exact hk'
  · obtain hmem | hold := hdone k'
    · obtain rfl | hmem := List.mem_cons.mp hmem
      · exact .inr hdone'
      · exact .inl hmem
    · exact .inr (hold.mono (List.Subset.trans (List.subset_append_left _ _) hsub))

/-- Closing the listeners comes behind `CloseAll`. -/
theorem wp_closeListeners (lns : List Nat) (errs : List IoError) {es : List Event}
    (hes : ∀ k, ShardDone es k) :
    (closeListeners lns errs).wp (Contract.logging closerPermits) es
      fun _ es' => ∀ k, ShardDone es' k :=
  wp_foldlM (fun _ _ es => ∀ k, ShardDone es k)
    (fun _ _ _ _ hdone => wp_bind.mpr (wp_op hdone fun _ k =>
      (hdone k).mono (List.subset_append_left _ _))) hes

namespace Server

variable (server : Server)

/-- `Close` goes through every shard. -/
theorem wp_closer :
    server.close.wp (Contract.logging closerPermits) [] fun _ es => ∀ k, ShardDone es k :=
  wp_seq wp_closeAll fun errs _ hdone =>
    wp_seq (wp_closeListeners _ errs hdone) fun _ _ hdone => hdone

/-! ## All threads -/

/-- What a thread may do after its entries. -/
def permits : server.ι → List Event → Op → Prop
  | .acceptLoop _ => loopPermits server.gate
  | .handler conn => handlerPermits server.gate conn
  | .closer => closerPermits

/-- How a thread ends. -/
def post : server.ι → List Event → Prop
  | .acceptLoop _, es => pending es = .idle
  | .handler conn, es => es.length = (handlerOps server.gate conn).length
  | .closer, es => ∀ k, ShardDone es k

/-- Every thread keeps to its part. -/
theorem wp_program (i : server.ι) :
    (server.program i).wp (Contract.logging (server.permits i))
    [] fun _ es => server.post i es := by
  cases i with
  | acceptLoop ln => exact wp_acceptLoop ln server.rounds rfl
  | handler conn => exact wp_handler server.gate conn
  | closer => exact wp_closer server

end Server

end Outway.Serverbase
