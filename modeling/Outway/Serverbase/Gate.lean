import Outway.Serverbase.Handover

/-!
# Outway.Serverbase.Gate

The gate is exact: its tokens are those of the running handlers and of the accept
loops on the way to one.

Both connections and tokens are conserved.  A loop accounts for each on its own
(`Pending.conn_balance`, `Pending.token_balance`); summed over the loops and the
handlers, that is `Kept` and `Exact` for the states of every run.
-/

namespace Outway.Serverbase

open Prog

/-! ## What an entry moves -/

/-- The entry puts a token into the gate. -/
def sends : Event → Bool
  | ⟨.trySendToken, sent⟩ => sent
  | ⟨.sendTokenOrDone, sent⟩ => sent
  | _ => false

/-- The entry takes a token out of the gate. -/
def receives (e : Event) : Bool := e.1 = .receiveToken

/-- The entry hands a connection to a handler, with the token. -/
def hands : Event → Bool
  | ⟨.go _, _⟩ => true
  | _ => false

/-- The entry brings in the connection. -/
def accepts (conn : Conn) : Event → Bool
  | ⟨.accept _, .ok accepted⟩ => accepted = conn
  | _ => false

def handsOver (conn : Conn) (e : Event) : Bool := e.1 = .go conn

def closes (conn : Conn) (e : Event) : Bool := e.1 = .close conn

namespace Pending

variable {g : ConnectionGate} {p : Pending} {e : Event}

/-- A loop gets a token, and gives it back or hands it over. -/
theorem token_balance (hg : g.tokens.isSome) (h : p.Allows g e.1) :
    (sends e).toNat + p.token.toNat =
      (receives e).toNat + (hands e).toNat + (p.next e).token.toNat := by
  obtain ⟨o, r⟩ := e
  cases o with
  | accept ln =>
      obtain rfl := h
      cases r <;> rfl
  | trySendToken | sendTokenOrDone =>
      obtain ⟨-, conn, rfl⟩ := h
      cases r <;> rfl
  | checkDone => rfl
  | receiveToken =>
      obtain ⟨-, conn, added, rfl, -⟩ := h
      rfl
  | add conn => rfl
  | go conn =>
      obtain rfl := h
      rw [hg]
      rfl
  | close conn =>
      obtain ⟨added, rfl, -⟩ := h
      rfl
  | _ => exact h.elim

/-- Whether the loop is working on the connection. -/
def holds (conn : Conn) (p : Pending) : Nat := if p.conn = some conn then 1 else 0

/-- A loop gets a connection, and hands it over or closes it. -/
theorem conn_balance (conn : Conn) (h : p.Allows g e.1) :
    (accepts conn e).toNat + p.holds conn =
      (handsOver conn e).toNat + (closes conn e).toNat + (p.next e).holds conn := by
  obtain ⟨o, r⟩ := e
  cases o with
  | accept ln =>
      obtain rfl := h
      cases r <;> simp [accepts, handsOver, closes, holds, next, idle, Bool.toNat, Bool.cond_decide]
  | trySendToken | sendTokenOrDone => cases r <;> rfl
  | checkDone | receiveToken | add _ => rfl
  | go conn =>
      obtain rfl := h
      simp [accepts, handsOver, closes, holds, next, idle, Bool.toNat, Bool.cond_decide]
  | close conn =>
      obtain ⟨added, rfl, -⟩ := h
      simp [accepts, handsOver, closes, holds, next, idle, Bool.toNat, Bool.cond_decide]
  | _ => exact h.elim

end Pending

namespace Server

variable {server : Server}

/-! ## Conservation of connections -/

/-- The pending connections of the accept loops. -/
def pendings (log : List (server.ι × Event)) (ln : Fin server.listeners) : Pending :=
  pending (Threads.own log (.acceptLoop ln))

/-- An entry of a loop moves that loop. -/
theorem pendings_concat_loop (log : List (server.ι × Event)) (ln : Fin server.listeners)
    (e : Event) : pendings (log ++ [(.acceptLoop ln, e)]) =
      Function.update (pendings log) ln ((pendings log ln).next e) := by
  funext ln'
  rw [pendings, Threads.own_concat]
  by_cases hln : ln' = ln
  · subst hln
    rw [Function.update_self, Function.update_self, pending_concat, pendings]
  · rw [Function.update_of_ne hln, Function.update_of_ne (by simpa using hln), pendings]

theorem pendings_concat_of_ne (log : List (server.ι × Event)) {i : server.ι}
    (hi : ∀ ln, i ≠ .acceptLoop ln) (e : Event) : pendings (log ++ [(i, e)]) = pendings log := by
  funext ln
  rw [pendings, Threads.own_concat, Function.update_of_ne (hi ln).symm, pendings]

/-- How often the connection was accepted. -/
def acceptCount (log : List (server.ι × Event)) (conn : Conn) : Nat :=
  log.countP fun x => accepts conn x.2

/-- The entry is an accept loop's and closes the connection. -/
def loopCloses (conn : Conn) : server.ι × Event → Bool
  | (.acceptLoop _, e) => closes conn e
  | _ => false

/-- How often an accept loop closed the connection. -/
def closeCount (log : List (server.ι × Event)) (conn : Conn) : Nat := log.countP (loopCloses conn)

/-- A connection is counted when it is accepted. -/
theorem acceptCount_concat (log : List (server.ι × Event)) (i : server.ι) (e : Event)
    (conn : Conn) :
    acceptCount (log ++ [(i, e)]) conn = acceptCount log conn + (accepts conn e).toNat :=
  countP_concat _ _ _

/-- And when its loop closes it. -/
theorem closeCount_concat (log : List (server.ι × Event)) (i : server.ι) (e : Event)
    (conn : Conn) : closeCount (log ++ [(i, e)]) conn =
      closeCount log conn + (loopCloses conn (i, e)).toNat :=
  countP_concat _ _ _

/-- And when it is handed over. -/
theorem count_started_concat (log : List (server.ι × Event)) (i : server.ι) (e : Event)
    (conn : Conn) :
    (started (log ++ [(i, e)])).count conn = (started log).count conn +
      (handsOver conn e).toNat := by
  obtain ⟨o, r⟩ := e
  rw [started, List.filterMap_append, List.count_append]
  cases o with
  | go conn' => simp [started, handsOver, List.count_singleton, Bool.toNat, Bool.cond_decide]
  | _ => rfl

/-- Where the connections are, and how far the handlers are. -/
structure Kept (s : server.State) : Prop where
  acceptCount_le : ∀ conn, acceptCount s.log conn ≤ 1
  conn_eq : ∀ conn, acceptCount s.log conn = (started s.log).count conn +
    closeCount s.log conn + ∑ ln, (pendings s.log ln).holds conn
  handler_ops : ∀ conn,
    (Threads.own s.log (.handler conn)).map Sigma.fst <+: handlerOps server.gate conn
  handler_started : ∀ conn, Threads.own s.log (.handler conn) ≠ [] → conn ∈ started s.log

theorem kept_init : Kept server.init where
  acceptCount_le _ := Nat.zero_le _
  conn_eq conn := by
    have hidle : ∑ ln, (pendings server.init.log ln).holds conn = 0 :=
      Finset.sum_eq_zero fun _ _ => rfl
    rw [hidle]
    rfl
  handler_ops _ := List.nil_prefix
  handler_started _ h := absurd rfl h

section Step

variable {i : server.ι} {s s' : server.State} {o : Op} {r : Res o}

/-- Only accept loops accept connections and hand them over. -/
theorem quiet_of_permits (hi : ∀ ln, i ≠ .acceptLoop ln) {es : List Event}
    (hp : server.permits i es o) (conn : Conn) :
    accepts conn ⟨o, r⟩ = false ∧ handsOver conn ⟨o, r⟩ = false ∧
      loopCloses conn (i, ⟨o, r⟩) = false := by
  cases i with
  | acceptLoop ln => exact absurd rfl (hi ln)
  | handler conn' =>
      obtain rfl | rfl | rfl := mem_handlerOps (List.mem_of_getElem? hp) <;> exact ⟨rfl, rfl, rfl⟩
  | closer =>
      cases o with
      | closeDone | closeShard _ | close _ | closeListener _ => exact ⟨rfl, rfl, rfl⟩
      | _ => exact hp.elim

/-- A connection that is accepted was not accepted before. -/
theorem acceptCount_eq_zero (ha : act i s o r s') {conn : Conn} (h : accepts conn ⟨o, r⟩) :
    acceptCount s.log conn = 0 := by
  obtain ⟨t, ht, -⟩ := ha
  cases o with
  | accept ln =>
      cases r with
      | error err => exact absurd h Bool.false_ne_true
      | ok accepted =>
          obtain rfl : accepted = conn := by simpa [accepts] using h
          obtain ⟨-, hfresh, -⟩ := ht
          refine List.countP_eq_zero.mpr fun ⟨j, e⟩ hmem hacc => ?_
          obtain ⟨o, r⟩ := e
          cases o with
          | accept l =>
              cases r with
              | error err => exact Bool.false_ne_true hacc
              | ok accepted' =>
                  obtain rfl : accepted' = accepted := by simpa [accepts] using hacc
                  exact hfresh j l hmem
          | _ => exact Bool.false_ne_true hacc
  | _ => exact absurd h Bool.false_ne_true

/-- What was accepted is handed over, closed, or in the hands of a loop. -/
theorem Kept.conn_eq_step (h : Kept s) (hp : server.permits i (Threads.own s.log i) o)
    (conn : Conn) :
    acceptCount (s.log ++ [(i, ⟨o, r⟩)]) conn = (started (s.log ++ [(i, ⟨o, r⟩)])).count conn +
      closeCount (s.log ++ [(i, ⟨o, r⟩)]) conn +
        ∑ ln, (pendings (s.log ++ [(i, ⟨o, r⟩)]) ln).holds conn := by
  have hbefore := h.conn_eq conn
  rw [acceptCount_concat, count_started_concat, closeCount_concat]
  by_cases hi : ∀ ln, i ≠ .acceptLoop ln
  · obtain ⟨haccept, hgo, hclose⟩ := quiet_of_permits (r := r) hi hp conn
    rw [haccept, hgo, hclose, pendings_concat_of_ne s.log hi]
    exact hbefore
  · obtain ⟨ln, rfl⟩ : ∃ ln, i = .acceptLoop ln := by simpa using hi
    have hmove := Pending.conn_balance (p := pendings s.log ln) (e := ⟨o, r⟩) conn hp
    have hsum := Threads.sum_update_add (Finset.mem_univ ln) (Pending.holds conn)
      (pendings s.log) ((pendings s.log ln).next ⟨o, r⟩)
    rw [pendings_concat_loop, loopCloses]
    omega

theorem started_subset_concat (log : List (server.ι × Event)) (x : server.ι × Event) :
    started log ⊆ started (log ++ [x]) := by
  rw [started, started, List.filterMap_append]
  exact List.subset_append_left _ _

/-- A list that goes on with the next element of a longer one. -/
theorem prefix_concat {α : Type} {l whole : List α} {a : α} (h : l <+: whole)
    (ha : whole[l.length]? = some a) : l ++ [a] <+: whole := by
  obtain ⟨rest, rfl⟩ := h
  rw [List.getElem?_append_right le_rfl, Nat.sub_self] at ha
  obtain ⟨rest', rfl⟩ := List.head?_eq_some_iff.mp (List.head?_eq_getElem?.trans ha)
  exact ⟨rest', by simp⟩

theorem Kept.step (h : Kept s) (hp : server.permits i (Threads.own s.log i) o)
    (ha : act i s o r s') : Kept s' := by
  have hlog := log_of_act ha
  refine ⟨fun conn => ?_, fun conn => ?_, fun conn => ?_, fun conn hne => ?_⟩ <;> rw [hlog] at *
  · rw [acceptCount_concat]
    have := h.acceptCount_le conn
    cases hacc : accepts conn ⟨o, r⟩ with
    | false => exact this
    | true => rw [acceptCount_eq_zero ha hacc]; rfl
  · exact h.conn_eq_step hp conn
  · rw [Threads.own_concat]
    by_cases hi : i = .handler conn
    · subst hi
      rw [Function.update_self, List.map_append]
      refine prefix_concat (h.handler_ops conn) ?_
      rw [List.length_map]
      exact hp
    · rw [Function.update_of_ne (Ne.symm hi)]
      exact h.handler_ops conn
  · rw [Threads.own_concat] at hne
    apply started_subset_concat
    by_cases hi : i = .handler conn
    · subst hi
      cases hown : Threads.own s.log (.handler conn) with
      | cons _ _ => exact h.handler_started conn (by rw [hown]; exact List.cons_ne_nil _ _)
      | nil =>
          -- the first operation of a handler waits for its start
          have ho : some (Op.serve conn) = some o := by
            rw [hown] at hp
            exact hp
          obtain rfl := Option.some.inj ho
          obtain ⟨t, ht, -⟩ := ha
          exact ht.1
    · rw [Function.update_of_ne (Ne.symm hi)] at hne
      exact h.handler_started conn hne

end Step

/-! ## Conservation of tokens -/

/-- The operations of the handler of a connection. -/
def handlerLog (log : List (server.ι × Event)) (conn : Conn) : List Op :=
  (Threads.own log (.handler conn)).map Sigma.fst

/-- The handlers that were started and have not released their token. -/
def running (log : List (server.ι × Event)) : Finset Conn :=
  (started log).toFinset.filter fun conn => .receiveToken ∉ handlerLog log conn

/-- A handler runs until it has given its slot back. -/
theorem mem_running {log : List (server.ι × Event)} {conn : Conn} :
    conn ∈ running log ↔ conn ∈ started log ∧ .receiveToken ∉ handlerLog log conn := by
  rw [running, Finset.mem_filter, List.mem_toFinset]

/-- The tokens of the handlers and of the accept loops. -/
structure Exact (s : server.State) : Prop where
  sent_eq : s.tokens + s.log.countP (fun x => receives x.2) = s.log.countP fun x => sends x.2
  tokens_le : s.tokens ≤ server.max.toNat
  tokens_eq : s.tokens = (running s.log).card + ∑ ln, (pendings s.log ln).token.toNat
  loop_eq : ∀ ln, (Threads.own s.log (.acceptLoop ln)).countP sends =
    (Threads.own s.log (.acceptLoop ln)).countP receives +
      (Threads.own s.log (.acceptLoop ln)).countP hands + (pendings s.log ln).token.toNat

/-- No slot is taken. -/
theorem exact_init : Exact server.init where
  sent_eq := rfl
  tokens_le := Nat.zero_le _
  tokens_eq := by
    have hidle : ∑ ln, (pendings server.init.log ln).token.toNat = 0 :=
      Finset.sum_eq_zero fun _ _ => rfl
    rw [hidle]
    rfl
  loop_eq _ := rfl

section Step

variable {i : server.ι} {s s' : server.State} {o : Op} {r : Res o}

/-- The gate counts the tokens that were sent and not received. -/
theorem tokens_of_act (ha : act i s o r s') :
    s'.tokens + (receives ⟨o, r⟩).toNat = s.tokens + (sends ⟨o, r⟩).toNat ∧
      (s.tokens ≤ server.max.toNat → s'.tokens ≤ server.max.toNat) := by
  obtain ⟨t, ht, rfl⟩ := ha
  cases o with
  | accept ln =>
      cases r with
      | error err => obtain ⟨-, rfl⟩ := ht; exact ⟨rfl, id⟩
      | ok conn => obtain ⟨-, -, rfl⟩ := ht; exact ⟨rfl, id⟩
  | trySendToken =>
      simp only [effect] at ht
      split_ifs at ht with hroom <;> obtain ⟨rfl, rfl⟩ := ht
      · exact ⟨rfl, fun _ => hroom⟩
      · exact ⟨rfl, id⟩
  | sendTokenOrDone =>
      cases r with
      | true => obtain ⟨hroom, rfl⟩ := ht; exact ⟨rfl, fun _ => hroom⟩
      | false => obtain ⟨-, rfl⟩ := ht; exact ⟨rfl, id⟩
  | receiveToken =>
      obtain ⟨hpos, rfl⟩ := ht
      exact ⟨Nat.sub_add_cancel hpos, (Nat.sub_le _ _).trans⟩
  | closeShard k => obtain ⟨-, -, rfl⟩ := ht; exact ⟨rfl, id⟩
  | checkDone | add _ | serve _ | closeDone => obtain ⟨-, rfl⟩ := ht; exact ⟨rfl, id⟩
  | _ => obtain rfl := ht; exact ⟨rfl, id⟩

theorem mem_started_concat {log : List (server.ι × Event)} {e : Event} {conn : Conn} :
    conn ∈ started (log ++ [(i, e)]) ↔ conn ∈ started log ∨ e.1 = .go conn := by
  have hcount := count_started_concat log i e conn
  rw [← List.count_pos_iff, ← List.count_pos_iff, hcount, handsOver]
  by_cases hgo : e.1 = .go conn <;> simp [hgo]

theorem handlerLog_concat_self (log : List (server.ι × Event)) (conn : Conn) (e : Event) :
    handlerLog (log ++ [(.handler conn, e)]) conn = handlerLog log conn ++ [e.1] := by
  rw [handlerLog, Threads.own_concat, Function.update_self, List.map_append, handlerLog]
  rfl

theorem handlerLog_concat_of_ne (log : List (server.ι × Event)) {conn : Conn}
    (hi : i ≠ .handler conn) (e : Event) :
    handlerLog (log ++ [(i, e)]) conn = handlerLog log conn := by
  rw [handlerLog, Threads.own_concat, Function.update_of_ne hi.symm, handlerLog]

/-- Entries that hand nothing over and release no handler's token leave the running
handlers. -/
theorem running_concat_of_quiet (log : List (server.ι × Event)) {e : Event}
    (hgo : ∀ conn, e.1 ≠ .go conn) (hreceive : ∀ conn, i = .handler conn → e.1 ≠ .receiveToken) :
    running (log ++ [(i, e)]) = running log := by
  ext conn
  rw [mem_running, mem_running, mem_started_concat, or_iff_left (hgo conn)]
  by_cases hi : i = .handler conn
  · have hne := hreceive conn hi
    subst hi
    rw [handlerLog_concat_self, List.mem_append, List.mem_singleton,
      or_iff_left (Ne.symm hne)]
  · rw [handlerLog_concat_of_ne log hi]

/-- The loop that hands a connection over was the only place the connection was. -/
theorem Kept.notMem_started (h : Kept s) {ln : Fin server.listeners} {conn : Conn}
    (hln : (pendings s.log ln).conn = some conn) : conn ∉ started s.log := by
  have hholds : (pendings s.log ln).holds conn = 1 := if_pos hln
  have hle := Finset.single_le_sum (f := fun ln => (pendings s.log ln).holds conn)
    (fun _ _ => Nat.zero_le _) (Finset.mem_univ ln)
  have hone := h.acceptCount_le conn
  have heq := h.conn_eq conn
  rw [← List.count_eq_zero]
  omega

/-- A loop starts a handler with its `go`. -/
theorem card_running_loop (h : Kept s) {ln : Fin server.listeners}
    (hp : (pendings s.log ln).Allows server.gate o) :
    (running (s.log ++ [(.acceptLoop ln, ⟨o, r⟩)])).card =
      (running s.log).card + (hands ⟨o, r⟩).toNat := by
  cases o with
  | go conn =>
      have hfresh : conn ∉ started s.log := h.notMem_started (congrArg Pending.conn hp)
      have hnone : handlerLog s.log conn = [] := by
        rw [handlerLog, List.map_eq_nil_iff]
        exact not_imp_comm.mp (h.handler_started conn) hfresh
      have hinsert : running (s.log ++ [(.acceptLoop ln, ⟨.go conn, r⟩)]) =
          insert conn (running s.log) := by
        ext conn'
        rw [Finset.mem_insert, mem_running, mem_running, mem_started_concat,
          handlerLog_concat_of_ne _ (by simp)]
        by_cases hconn : conn' = conn
        · subst hconn
          simp [hnone]
        · simp [hconn, Ne.symm hconn]
      rw [hinsert, Finset.card_insert_of_notMem fun hmem => hfresh (mem_running.mp hmem).1]
      rfl
  | _ => exact congrArg Finset.card (running_concat_of_quiet _ (by simp) (by simp))

/-- A limit that is not zero makes a gate with slots. -/
theorem isSome_gate (hmax : server.max ≠ 0) : server.gate.tokens.isSome := by
  rw [gate, newConnectionGate, if_neg hmax]
  rfl

/-- A handler behind such a gate gives its slot back at the end. -/
theorem handlerOps_gate (hmax : server.max ≠ 0) (conn : Conn) :
    handlerOps server.gate conn = [.serve conn, .remove conn, .receiveToken] := by
  rw [handlerOps, if_pos (isSome_gate hmax)]
  rfl

/-- A handler that is about to release its token has served and removed its connection. -/
theorem Kept.handlerLog_eq (h : Kept s) {conn : Conn}
    (hp : handlerPermits server.gate conn (Threads.own s.log (.handler conn)) .receiveToken) :
    handlerLog s.log conn = [.serve conn, .remove conn] := by
  have hops : handlerLog s.log conn <+: handlerOps server.gate conn := h.handler_ops conn
  have hnext : (handlerOps server.gate conn)[(handlerLog s.log conn).length]? =
      some .receiveToken := by
    rw [handlerLog, List.length_map]
    exact hp
  exact eq_of_concat_receiveToken (prefix_concat hops hnext)

/-- Who gives a slot back is running. -/
theorem Kept.mem_running_of_permits (h : Kept s) {conn : Conn}
    (hp : handlerPermits server.gate conn (Threads.own s.log (.handler conn)) .receiveToken) :
    conn ∈ running s.log := by
  have hlog := h.handlerLog_eq hp
  refine mem_running.mpr ⟨h.handler_started conn fun hnil => ?_, by rw [hlog]; simp⟩
  rw [handlerLog, hnil] at hlog
  exact List.cons_ne_nil _ _ hlog.symm

/-- A handler ends with its slot. -/
theorem card_running_handler (h : Kept s) {conn : Conn}
    (hp : handlerPermits server.gate conn (Threads.own s.log (.handler conn)) o) :
    (running (s.log ++ [(.handler conn, ⟨o, r⟩)])).card + (receives ⟨o, r⟩).toNat =
      (running s.log).card := by
  obtain rfl | rfl | rfl := mem_handlerOps (List.mem_of_getElem? hp)
  · exact congrArg Finset.card (running_concat_of_quiet _ (by simp) (by simp))
  · exact congrArg Finset.card (running_concat_of_quiet _ (by simp) (by simp))
  · have hmem := h.mem_running_of_permits hp
    have herase : running (s.log ++ [(.handler conn, ⟨.receiveToken, r⟩)]) =
        (running s.log).erase conn := by
      ext conn'
      rw [Finset.mem_erase, mem_running, mem_running, mem_started_concat]
      by_cases hconn : conn' = conn
      · subst hconn
        simp [handlerLog_concat_self]
      · rw [handlerLog_concat_of_ne _ (by simpa using Ne.symm hconn)]
        simp [hconn]
    rw [herase]
    exact Finset.card_erase_add_one hmem

/-- The slots taken are those of the handlers and those in the hands of loops. -/
theorem Exact.tokens_eq_step (hmax : server.max ≠ 0) (hk : Kept s) (h : Exact s)
    (hp : server.permits i (Threads.own s.log i) o) (ha : act i s o r s') :
    s'.tokens = (running (s.log ++ [(i, ⟨o, r⟩)])).card +
      ∑ ln, (pendings (s.log ++ [(i, ⟨o, r⟩)]) ln).token.toNat := by
  have hbefore := h.tokens_eq
  have hmove := (tokens_of_act ha).1
  cases i with
  | acceptLoop ln =>
      have hrunning := card_running_loop (r := r) hk hp
      have hbalance := Pending.token_balance (p := pendings s.log ln) (e := ⟨o, r⟩)
        (isSome_gate hmax) hp
      have hsum := Threads.sum_update_add (Finset.mem_univ ln) (fun p => p.token.toNat)
        (pendings s.log) ((pendings s.log ln).next ⟨o, r⟩)
      rw [pendings_concat_loop]
      omega
  | handler conn =>
      have hrunning := card_running_handler (r := r) hk hp
      have hsends : sends ⟨o, r⟩ = false := by
        obtain rfl | rfl | rfl := mem_handlerOps (List.mem_of_getElem? hp) <;> rfl
      rw [pendings_concat_of_ne _ (by simp)]
      rw [hsends, Bool.toNat_false] at hmove
      omega
  | closer =>
      have hquiet : (∀ conn, o ≠ .go conn) ∧ receives ⟨o, r⟩ = false ∧ sends ⟨o, r⟩ = false := by
        cases o with
        | closeDone | closeShard _ | close _ | closeListener _ => exact ⟨by simp, rfl, rfl⟩
        | _ => exact hp.elim
      obtain ⟨hgo, hreceives, hsends⟩ := hquiet
      rw [pendings_concat_of_ne _ (by simp), running_concat_of_quiet _ hgo (by simp)]
      rw [hreceives, hsends] at hmove
      exact hmove.trans hbefore

/-- Every slot that a loop takes it gives back, or hands over, or still has. -/
theorem Exact.loop_eq_step (hmax : server.max ≠ 0) (h : Exact s)
    (hp : server.permits i (Threads.own s.log i) o) (ln : Fin server.listeners) :
    (Threads.own (s.log ++ [(i, ⟨o, r⟩)]) (.acceptLoop ln)).countP sends =
      (Threads.own (s.log ++ [(i, ⟨o, r⟩)]) (.acceptLoop ln)).countP receives +
        (Threads.own (s.log ++ [(i, ⟨o, r⟩)]) (.acceptLoop ln)).countP hands +
          (pendings (s.log ++ [(i, ⟨o, r⟩)]) ln).token.toNat := by
  have hbefore := h.loop_eq ln
  rw [pendings, Threads.own_concat]
  by_cases hi : i = .acceptLoop ln
  · subst hi
    have hbalance := Pending.token_balance (e := ⟨o, r⟩) (isSome_gate hmax) hp
    rw [pendings] at hbefore
    rw [Function.update_self, countP_concat, countP_concat, countP_concat, pending_concat]
    omega
  · rw [Function.update_of_ne (Ne.symm hi)]
    exact hbefore

theorem Exact.step (hmax : server.max ≠ 0) (hk : Kept s) (h : Exact s)
    (hp : server.permits i (Threads.own s.log i) o) (ha : act i s o r s') : Exact s' := by
  obtain ⟨hmove, hle⟩ := tokens_of_act ha
  refine ⟨?_, hle h.tokens_le, ?_, fun ln => ?_⟩ <;> rw [log_of_act ha]
  · have hbefore := h.sent_eq
    rw [countP_concat, countP_concat]
    dsimp only
    omega
  · exact h.tokens_eq_step hmax hk hp ha
  · exact h.loop_eq_step hmax hp ln

end Step

/-- In every run of a server with a limit, the accounts of the gate are exact, and each
thread goes on as permitted. -/
theorem exact_of_reaches (hmax : server.max ≠ 0) {now : (server.ι → Proc Unit) × server.State}
    (h : server.Reaches now) : (Kept now.2 ∧ Exact now.2) ∧ ∀ i, (now.1 i).wp
      (Contract.logging (server.permits i)) (Threads.own now.2.log i) fun _ es =>
        server.post i es :=
  Threads.logged State.log log_of_act server.permits server.post (fun s => Kept s ∧ Exact s)
    (fun h hp ha => ⟨h.1.step hp ha, h.2.step hmax h.1 hp ha⟩) rfl ⟨kept_init, exact_init⟩
    server.wp_program h

/-! ## The gate -/

/-- The accept loops that have a token they have neither returned nor handed over. -/
def holding (log : List (server.ι × Event)) : Finset (Fin server.listeners) :=
  Finset.univ.filter fun ln => (pendings log ln).token

/-- The loops that have a slot in hand. -/
theorem card_holding (log : List (server.ι × Event)) :
    (holding log).card = ∑ ln, (pendings log ln).token.toNat := by
  rw [holding, Finset.card_filter]
  refine Finset.sum_congr rfl fun ln _ => ?_
  cases (pendings log ln).token <;> rfl

/-- The accept loops and the handlers they have started have ended. -/
def Ended (now : (server.ι → Proc Unit) × server.State) : Prop :=
  (∀ ln, now.1 (.acceptLoop ln) = .ret ()) ∧
    ∀ conn ∈ started now.2.log, now.1 (.handler conn) = .ret ()

/-- An ended accept loop has no token. -/
theorem pendings_eq_idle {now : (server.ι → Proc Unit) × server.State} {ln : Fin server.listeners}
    (hwp : (now.1 (.acceptLoop ln)).wp (Contract.logging (server.permits (.acceptLoop ln)))
      (Threads.own now.2.log (.acceptLoop ln)) fun _ es => server.post (.acceptLoop ln) es)
    (hend : now.1 (.acceptLoop ln) = .ret ()) : pendings now.2.log ln = .idle := by
  rw [hend] at hwp
  exact hwp

/-- An ended handler has performed all its operations. -/
theorem Kept.handlerLog_eq_ops {now : (server.ι → Proc Unit) × server.State} {conn : Conn}
    (h : Kept now.2)
    (hwp : (now.1 (.handler conn)).wp (Contract.logging (server.permits (.handler conn)))
      (Threads.own now.2.log (.handler conn)) fun _ es => server.post (.handler conn) es)
    (hend : now.1 (.handler conn) = .ret ()) :
    handlerLog now.2.log conn = handlerOps server.gate conn := by
  rw [hend] at hwp
  exact (h.handler_ops conn).eq_of_length (by rw [List.length_map]; exact hwp)

theorem countP_receives (es : List Event) :
    es.countP receives = (es.map Sigma.fst).count .receiveToken := by
  rw [List.count, List.countP_map]
  rfl

/-- When all threads have ended, no slot is taken. -/
theorem tokens_eq_zero (hmax : server.max ≠ 0) {now : (server.ι → Proc Unit) × server.State}
    (h : server.Reaches now) (hend : Ended now) : now.2.tokens = 0 := by
  obtain ⟨⟨hkept, hexact⟩, hwp⟩ := exact_of_reaches hmax h
  have hloops : ∑ ln, (pendings now.2.log ln).token.toNat = 0 :=
    Finset.sum_eq_zero fun ln _ => by rw [pendings_eq_idle (hwp _) (hend.1 ln)]; rfl
  have hhandlers : running now.2.log = ∅ := by
    refine Finset.eq_empty_of_forall_notMem fun conn hmem => ?_
    obtain ⟨hstarted, hnot⟩ := mem_running.mp hmem
    rw [hkept.handlerLog_eq_ops (hwp _) (hend.2 conn hstarted), handlerOps_gate hmax] at hnot
    simp at hnot
  rw [hexact.tokens_eq, hloops, hhandlers]
  rfl

/-- A thread that is about to take a token finds its own. -/
theorem tokens_pos (hmax : server.max ≠ 0) {now : (server.ι → Proc Unit) × server.State}
    (h : server.Reaches now) {i : server.ι} {k : Unit → Proc Unit}
    (hi : now.1 i = .step .receiveToken k) : 0 < now.2.tokens := by
  obtain ⟨⟨hkept, hexact⟩, hwp⟩ := exact_of_reaches hmax h
  have hp := hwp i
  rw [hi] at hp
  have hp := hp.1
  rw [hexact.tokens_eq]
  cases i with
  | acceptLoop ln =>
      obtain ⟨-, conn, added, hpending, -⟩ := hp
      have htoken : (pendings now.2.log ln).token.toNat = 1 := by
        rw [pendings, hpending]; rfl
      have hle := Finset.single_le_sum (f := fun ln => (pendings now.2.log ln).token.toNat)
        (fun _ _ => Nat.zero_le _) (Finset.mem_univ ln)
      omega
  | handler conn =>
      have hmem := hkept.mem_running_of_permits hp
      have := Finset.card_pos.mpr ⟨conn, hmem⟩
      omega
  | closer => exact hp.elim

end Server

/-- `AcquireUntil` sends a token, and takes it back unless it returns true. -/
theorem wp_acquireUntil_balance {g : ConnectionGate} (hg : g.tokens.isSome) :
    g.acquireUntil.wp (Contract.logging fun _ _ => True) []
      fun ok es => es.countP sends = es.countP receives + ok.toNat := by
  obtain ⟨n, hn⟩ := Option.isSome_iff_exists.mp hg
  have hkeep {es : List Event} (hes : es.countP sends = es.countP receives + 1) :
      ConnectionGate.keepUnlessDone.wp (Contract.logging fun _ _ => True) es
        fun ok es => es.countP sends = es.countP receives + ok.toNat := by
    refine wp_bind.mpr (wp_op trivial fun done => ?_)
    cases done with
    | false =>
        show List.countP _ _ = _
        rw [countP_concat, countP_concat, hes]
        rfl
    | true =>
        refine wp_bind.mpr (wp_op trivial fun _ => ?_)
        show List.countP _ _ = _
        rw [countP_concat, countP_concat, countP_concat, countP_concat, hes]
        rfl
  rw [ConnectionGate.acquireUntil, hn]
  refine wp_bind.mpr (wp_op trivial fun sent => ?_)
  cases sent with
  | true => exact hkeep rfl
  | false =>
      refine wp_bind.mpr (wp_op trivial fun sent => ?_)
      cases sent with
      | true => exact hkeep rfl
      | false => rfl

namespace Server

variable {server : Server}

/-- The gate is exact. -/
theorem gate_exact (hmax : server.max ≠ 0) {now : (server.ι → Proc Unit) × server.State}
    (h : server.Reaches now) :
    now.2.tokens = (running now.2.log).card + (holding now.2.log).card ∧
    now.2.tokens ≤ server.max.toNat ∧
    -- what a call of `AcquireUntil` does, and that nothing else moves tokens
    (∀ es ok, server.gate.acquireUntil.Performs es ok →
      es.countP sends = es.countP receives + ok.toNat) ∧
    now.2.tokens + now.2.log.countP (fun x => receives x.2) =
      now.2.log.countP (fun x => sends x.2) ∧
    -- every token of a loop is released by the loop or handed to a handler
    (∀ ln, (Threads.own now.2.log (.acceptLoop ln)).countP sends =
      (Threads.own now.2.log (.acceptLoop ln)).countP receives +
        (Threads.own now.2.log (.acceptLoop ln)).countP hands +
          if ln ∈ holding now.2.log then 1 else 0) ∧
    -- and a handler, started once, releases it once
    (∀ conn, (started now.2.log).count conn ≤ 1 ∧
      (Threads.own now.2.log (.handler conn)).countP receives ≤ 1 ∧
      (now.1 (.handler conn) = .ret () →
        (Threads.own now.2.log (.handler conn)).countP receives = 1)) ∧
    (Ended now → now.2.tokens = 0) ∧
    ∀ i k, now.1 i = .step .receiveToken k → 0 < now.2.tokens := by
  obtain ⟨⟨hkept, hexact⟩, hwp⟩ := exact_of_reaches hmax h
  refine ⟨?_, hexact.tokens_le, fun es ok hperforms => ?_, hexact.sent_eq, fun ln => ?_,
    fun conn => ⟨?_, ?_, fun hend => ?_⟩, tokens_eq_zero hmax h, fun i k => tokens_pos hmax h⟩
  · rw [card_holding]
    exact hexact.tokens_eq
  · exact hperforms.of_wp (wp_acquireUntil_balance (isSome_gate hmax))
  · rw [hexact.loop_eq ln]
    cases htoken : (pendings now.2.log ln).token <;> simp [holding, htoken]
  · have := hkept.acceptCount_le conn
    have := hkept.conn_eq conn
    omega
  · rw [countP_receives]
    refine ((hkept.handler_ops conn).sublist.count_le _).trans ?_
    rw [handlerOps_gate hmax]
    rfl
  · have hall := hkept.handlerLog_eq_ops (hwp _) hend
    rw [handlerLog, handlerOps_gate hmax] at hall
    rw [countP_receives, hall]
    rfl

/-- The handler that has ended has released its token, and the loop whose `Add` was refused has
the only one. -/
theorem gate_exact_solo : ∃ now, solo.Reaches now ∧
    (.acceptLoop 0, ⟨.add ⟨1, 0⟩, false⟩) ∈ now.2.log ∧ now.2.tokens = 1 ∧
    (running now.2.log).card + (holding now.2.log).card = 1 ∧
    (Threads.own now.2.log (.handler ⟨0, 0⟩)).countP receives = 1 := by
  obtain ⟨now, hreach, hended, hrefused, htokens⟩ := reaches_solo
  obtain ⟨htokens_eq, -, -, -, -, hhandler, -⟩ := gate_exact (by decide) hreach
  exact ⟨now, hreach, hrefused, htokens, htokens_eq.symm.trans htokens, (hhandler _).2.2 hended⟩

end Server

end Outway.Serverbase
