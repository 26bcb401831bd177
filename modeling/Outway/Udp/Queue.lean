import Outway.Udp.Packets

/-!
# Outway.Udp.Queue

Reading a queue of datagrams, in batches and one by one.

`ReadPacket.view` is what the relay reads off a packet.  A reader `ReadsFront` if each of its
calls takes some elements at the front of the queue, one at least, and returns what belongs to
them; two readers that do so make the same sequence of a queue.  `readBatch` does, whatever
the batch read finds and the budget allows, and so does the reader of the other platforms:
`readBatch_refines_generic`.
-/

namespace Outway.Udp

open Prog

variable {size : Nat}

/-! ## The queue of a socket -/

/-- A datagram on a socket. -/
structure Datagram where
  data : List UInt8
  src : AddrPort

/-- The answer to a read of one datagram. -/
def Datagram.readMsg (d : Datagram) (len oobLen : Nat) : ReadMsg len oobLen where
  data := d.data.take len
  oobn := 0
  control := .ok []
  msgTrunc := len < d.data.length
  addr := d.src
  length_data := List.length_take_le _ _
  oobn_le := Nat.zero_le _

/-- A datagram as a message of a batch read. -/
def Datagram.recvMsg (d : Datagram) (into : Window) : RecvMsg :=
  ⟨d.data.take into.len, into.len < d.data.length, d.src⟩

/-- A socket with `UDP_GRO` off.  A batch read fails, or takes some number of datagrams. -/
def Datagram.act (q : List Datagram) : (o : Op size) → Res o → List Datagram → Prop
  | .readMsgUDP _ into oobLen, r, q' => ∃ d, q = d :: q' ∧ r = .ok (d.readMsg into.len oobLen)
  | .readBatch _ into, r, q' =>
      (∃ err, r = .error err) ∧ q' = q ∨
        ∃ k drained, r = .ok drained ∧ k ≤ q.length ∧ k ≤ into.length ∧
          drained.messages = List.zipWith Datagram.recvMsg (q.take k) into ∧ q' = q.drop k
  | _, _, q' => q' = q

/-- What the relay reads off a packet. -/
structure PacketView where
  payload : List UInt8
  addr : AddrPort
  truncated : Bool

def ReadPacket.view (offset : Nat) (p : ReadPacket size) : PacketView :=
  ⟨p.payload offset, p.addr, p.truncated⟩

/-- The packet of a datagram: the byte behind the limit shows that it is too long. -/
def Datagram.view (limit : Nat) (d : Datagram) : PacketView :=
  ⟨d.data.take (limit + 1), d.src, limit < d.data.length⟩

/-- A packet and the datagram it was made of. -/
structure ReadPacket.IsOf (offset limit : Nat) (p : ReadPacket size) (d : Datagram) : Prop where
  addr : p.addr = d.src
  truncated : p.truncated = true ↔ limit < d.data.length
  payload : d.data.length ≤ limit → p.payload offset = d.data

/-- A packet that looks like a datagram carries it. -/
theorem ReadPacket.isOf_of_view {offset limit : Nat} {p : ReadPacket size} {d : Datagram}
    (h : p.view offset = d.view limit) : p.IsOf offset limit d := by
  obtain ⟨hpayload, haddr, htruncated⟩ := PacketView.mk.inj h
  refine ⟨haddr, ?_, fun hle => ?_⟩
  · rw [htruncated, decide_eq_true_iff]
  · rw [hpayload, List.take_of_length_le (by omega)]

theorem forall₂_isOf {offset limit : Nat} {packets : List (ReadPacket size)} {ds : List Datagram}
    (h : packets.map (ReadPacket.view offset) = ds.map (Datagram.view limit)) :
    List.Forall₂ (ReadPacket.IsOf offset limit) packets ds := by
  have hviews : List.Forall₂ Eq (packets.map (ReadPacket.view offset))
      (ds.map (Datagram.view limit)) := h ▸ List.forall₂_refl _
  rw [List.forall₂_map_left_iff, List.forall₂_map_right_iff] at hviews
  exact hviews.imp fun _ _ => ReadPacket.isOf_of_view

/-! ## One datagram -/

/-- The packet made of a datagram that was read to one byte more than the limit.  A flag of the
kernel adds nothing to the comparison of the lengths. -/
theorem view_datagram {d : Datagram} {r : BatchReader} (hroom : r.Fits size) {len : Nat}
    (hlen : len = r.limit + 1) (b : Buffer size) {flag : Bool}
    (hflag : flag = true → r.limit < d.data.length) (slot : Bool) :
    ReadPacket.view r.offset ⟨b.overwrite r.offset (d.data.take len), (d.data.take len).length,
      d.src, flag || decide (r.limit < (d.data.take len).length), slot⟩ = d.view r.limit := by
  subst hlen
  unfold BatchReader.Fits at hroom
  have hlen : (d.data.take (r.limit + 1)).length ≤ r.limit + 1 := List.length_take_le _ _
  have hover : r.limit < (d.data.take (r.limit + 1)).length ↔ r.limit < d.data.length := by
    rw [List.length_take]
    omega
  simp only [ReadPacket.view, Datagram.view, payload_overwrite (by omega :
    r.offset + (d.data.take (r.limit + 1)).length ≤ size), hover, PacketView.mk.injEq, true_and]
  cases flag <;> simp_all

/-! ## A batch -/

section Batch

variable {rt : Runtime} {r : BatchReader}

/-- The drained packets are the datagrams behind the first. -/
theorem map_view_drained (hroom : r.Fits size) {ds : List Datagram} {msgs : List Window}
    {bufs : List (Buffer size)} (hmsgs : ds.length ≤ msgs.length) (hbufs : ds.length ≤ bufs.length)
    (hlen : ∀ w ∈ msgs, w.len = r.limit + 1) :
    ((List.zipWith Datagram.recvMsg ds msgs).zip bufs).map
        (fun p => (drainedPacket r p.1 p.2).view r.offset) = ds.map (Datagram.view r.limit) := by
  induction ds generalizing msgs bufs with
  | nil => rfl
  | cons d ds ih =>
      obtain ⟨w, msgs, rfl⟩ :=
        List.exists_cons_of_length_pos (by simp at hmsgs; omega : 0 < msgs.length)
      obtain ⟨b, bufs, rfl⟩ :=
        List.exists_cons_of_length_pos (by simp at hbufs; omega : 0 < bufs.length)
      have hrest := ih (by simpa using hmsgs) (by simpa using hbufs)
        fun w' hw' => hlen w' (List.mem_cons_of_mem w hw')
      have hfirst : (drainedPacket r (d.recvMsg w) b).view r.offset = d.view r.limit := by
        have hw := hlen w List.mem_cons_self
        refine view_datagram hroom hw b (fun hflag => ?_) true
        have := of_decide_eq_true hflag
        omega
      rw [List.zipWith_cons_cons, List.zip_cons_cons, List.map_cons, List.map_cons, hfirst, hrest]

/-- Only reads take from the queue. -/
theorem Datagram.keepsLocal (q : List Datagram) :
    @KeepsLocal size _ (Contract.live Datagram.act) (· = q) := by
  intro q' o hq ho
  cases o <;>
    first | exact ⟨⟨(nonempty_res _).some, q', rfl⟩, fun _ _ h => Eq.trans h hq⟩ | cases ho

/-- A read takes the first datagram of the queue. -/
theorem Datagram.wp_readMsgUDP (sock : Sock) (into : Window) (oobLen : Nat) {d : Datagram}
    {q : List Datagram} {Q : Except NetError (ReadMsg into.len oobLen) → List Datagram → Prop}
    (h : Q (.ok (d.readMsg into.len oobLen)) q) :
    (perform (.readMsgUDP sock into oobLen) : Relay size _).wp (Contract.live Datagram.act)
      (d :: q) Q := by
  refine ⟨⟨_, q, d, rfl, rfl⟩, ?_⟩
  rintro _ q' ⟨d', hq, rfl⟩
  obtain ⟨rfl, rfl⟩ : d = d' ∧ q = q' := by simpa using hq
  exact h

/-- The batch read adds the packets of some datagrams that follow. -/
theorem wp_drainBatch (hroom : r.Fits size) {packets : List (ReadPacket size)}
    {bufs : List (Buffer size)} {msgs : List Window} {q : List Datagram} (hone : packets.length = 1)
    (hbufs : bufs.length ≤ rt.batchSize) (hmsgs : bufs.length = msgs.length + 1)
    (hlen : ∀ w ∈ msgs, w.len = r.limit + 1) :
    (drainBatch rt r packets bufs msgs).wp (Contract.live Datagram.act) q fun res q' =>
      ∃ k ≤ q.length, q' = q.drop k ∧ res.1.map (ReadPacket.view r.offset) =
        packets.map (ReadPacket.view r.offset) ++ (q.take k).map (Datagram.view r.limit) := by
  simp only [drainBatch, perform_eq, step_bind, ret_bind, wp_step]
  refine ⟨⟨.error .wouldBlock, q, .inl ⟨⟨_, rfl⟩, rfl⟩⟩, ?_⟩
  rintro _ q' (⟨⟨err, rfl⟩, rfl⟩ | ⟨k, drained, rfl, hk, hk', hmessages, rfl⟩)
  · refine wp_seq ((Datagram.keepsLocal q').wp_releaseAll id (fun _ => true) rfl _) ?_
    rintro _ _ rfl
    split_ifs
    · exact ⟨0, by simp⟩
    · refine wp_seq ((Datagram.keepsLocal _).wp_perform rfl trivial) ?_
      rintro _ _ rfl
      exact ⟨0, by simp⟩
  · have htail : bufs.tail.length = msgs.length := by
      rw [List.length_tail, hmsgs, Nat.add_sub_cancel]
    have hdrained : drained.messages.length = k := by
      rw [hmessages, List.length_zipWith, List.length_take, min_eq_left hk, min_eq_left hk']
    simp only [foldlM_push (show packets.length + (drained.messages.zip bufs.tail).length ≤
      rt.batchSize by rw [List.length_zip]; omega), ret_bind]
    refine wp_seq ((Datagram.keepsLocal _).wp_releaseAll id (fun _ => true) rfl _) ?_
    rintro _ _ rfl
    refine ⟨k, hk, rfl, ?_⟩
    rw [List.map_append, List.map_map, hmessages]
    exact congrArg _ (map_view_drained hroom (by simp; omega) (by simp; omega) hlen)

/-- A batch is the datagram that was read and some of those behind it. -/
theorem wp_batchPackets (hroom : r.Fits size) (batchDisabled : Bool) (first : Buffer size)
    {len : Nat} (hlen : len = r.limit + 1) (d : Datagram) (q : List Datagram) :
    (batchPackets rt r batchDisabled (first.overwrite r.offset (d.readMsg len 0).data)
        (d.readMsg len 0)).wp (Contract.live Datagram.act) q fun res q' =>
      ∃ k ≤ q.length, q' = q.drop k ∧
        res.1.map (ReadPacket.view r.offset) = (d :: q.take k).map (Datagram.view r.limit) := by
  have hpos := rt.batchSize_pos
  have hflag (h : decide (len < d.data.length) = true) : r.limit < d.data.length := by
    have := of_decide_eq_true h
    omega
  have hfirst := view_datagram hroom hlen first hflag false
  have hnone : ∃ k ≤ q.length, q = q.drop k ∧ _ = (d :: q.take k).map (Datagram.view r.limit) :=
    ⟨0, Nat.zero_le _, rfl, congrArg (· :: []) hfirst⟩
  simp only [batchPackets]
  refine wp_bind.mpr (wp_push_of_lt hpos (wp_bind.mpr (wp_push_of_lt hpos ?_)))
  split_ifs
  · exact hnone
  · exact hnone
  · refine wp_seq (wp_takeExtraBuffers (Datagram.keepsLocal q) hroom rfl) ?_
    rintro ⟨bufs, msgs⟩ _ ⟨rfl, hbufs, hmsgs, hlens⟩
    simp only []
    split_ifs
    · exact hnone
    · refine wp_mono (wp_drainBatch hroom rfl hbufs hmsgs hlens) ?_
      rintro res q' ⟨k, hk, hq', hres⟩
      exact ⟨k, hk, hq', hres.trans (congrArg (· :: _) hfirst)⟩

end Batch

/-! ## Sequences of reads -/

/-- A reader with the state it keeps between calls. -/
abbrev QueueReader (size : Nat) (σ : Type) : Type :=
  σ → Relay size (Except NetError (List (ReadPacket size)) × σ)

/-- Reading a queue to its end, call after call: `out` is what is looked at of the packets.
A read of an empty queue would block. -/
inductive Reads {β σ ω : Type} (act : List β → (o : Op size) → Res o → List β → Prop)
    (out : List (ReadPacket size) → List ω) (read : QueueReader size σ) :
    List β → σ → List ω → Prop where
  | nil (s : σ) : Reads act out read [] s []
  | read {b : β} {q q' : List β} {s s' : σ} {packets : List (ReadPacket size)} {rest : List ω}
      (h : Exec act (b :: q) (read s) q' (.ok packets, s'))
        (hrest : Reads act out read q' s' rest) :
      Reads act out read (b :: q) s (out packets ++ rest)

/-- From a queue that is not empty, each call takes some elements at its front, one at least,
and `out` shows of its packets what `view` shows of them. -/
def ReadsFront {β σ ω : Type} (act : List β → (o : Op size) → Res o → List β → Prop)
    (out : List (ReadPacket size) → List ω) (view : β → List ω)
    (read : QueueReader size σ) : Prop :=
  ∀ s b q, (read s).wp (Contract.live act) (b :: q) fun res q' =>
    ∃ packets, ∃ k ≤ q.length, res.1 = .ok packets ∧ q' = q.drop k ∧
      out packets = (b :: q.take k).flatMap view

section Sequences

variable {β σ ω : Type} {act : List β → (o : Op size) → Res o → List β → Prop}
  {out : List (ReadPacket size) → List ω} {view : β → List ω} {read : QueueReader size σ}

/-- Two such readers show the same of a queue. -/
theorem Reads.eq_flatMap (hread : ReadsFront act out view read) {q : List β} {s : σ} {ws : List ω}
    (h : Reads act out read q s ws) : ws = q.flatMap view := by
  induction h with
  | nil s => rfl
  | @read b q q' s s' packets rest hexec _ ih =>
      obtain ⟨packets', k, -, hpackets, rfl, hviews⟩ := wp_exec (hread s b q) hexec
      obtain rfl : packets = packets' := by simpa using hpackets
      rw [hviews, ih, ← List.flatMap_append, List.cons_append, List.take_append_drop]

/-- A queue can be read to its end. -/
theorem exists_reads (hread : ReadsFront act out view read) (q : List β) (s : σ) :
    ∃ ws, Reads act out read q s ws := by
  induction hn : q.length using Nat.strong_induction_on generalizing q s with
  | _ n ih =>
      cases q with
      | nil => exact ⟨[], .nil s⟩
      | cons b q =>
          obtain ⟨_, ⟨_, s'⟩, hexec, packets, k, -, rfl, rfl, -⟩ := exists_exec (hread s b q)
          obtain ⟨ws, hws⟩ := ih (q.drop k).length (by simp at hn ⊢; omega) (q.drop k) s' rfl
          exact ⟨_, .read hexec hws⟩

/-- What is looked at may be looked at further. -/
theorem ReadsFront.flatMap (hread : ReadsFront act out view read) {ω' : Type} (f : ω → List ω') :
    ReadsFront act (fun packets => (out packets).flatMap f) (fun b => (view b).flatMap f) read := by
  intro s b q
  refine wp_mono (hread s b q) ?_
  rintro res q' ⟨packets, k, hk, hres, hq', hout⟩
  exact ⟨packets, k, hk, hres, hq', (congrArg (·.flatMap f) hout).trans List.flatMap_assoc⟩

end Sequences

/-- Reading a queue of datagrams to its end yields these packets. -/
abbrev Yields {σ : Type} (offset : Nat) (read : QueueReader size σ) :
    List Datagram → σ → List PacketView → Prop :=
  Reads Datagram.act (List.map (ReadPacket.view offset)) read

/-- Each call returns the packets of some datagrams at the front of the queue. -/
abbrev ReadsDatagrams {σ : Type} (offset limit : Nat) (read : QueueReader size σ) : Prop :=
  ReadsFront Datagram.act (List.map (ReadPacket.view offset)) (fun d => [d.view limit]) read

/-! ## The two readers -/

/-- A batch read takes the front of the queue. -/
theorem readsFront_readBatch (rt : Runtime) {r : BatchReader} (hroom : r.Fits size) :
    ReadsDatagrams r.offset r.limit (readBatch rt r : QueueReader size Bool) := by
  intro batchDisabled d q
  have hfit : r.offset + r.limit < size := hroom
  simp only [readBatch]
  refine wp_seq ((Datagram.keepsLocal (d :: q)).wp_perform rfl (o := .getBuffer) trivial) ?_
  rintro first _ rfl
  refine wp_bind.mpr (wp_window_of_le (by omega) (by omega) ?_)
  refine wp_bind.mpr (Datagram.wp_readMsgUDP _ _ _ ?_)
  have hlen : r.offset + r.limit + 1 - r.offset = r.limit + 1 := by omega
  refine wp_seq (wp_batchPackets hroom batchDisabled first hlen d q) ?_
  rintro res q' ⟨k, hk, hq', hres⟩
  exact ⟨res.1, k, hk, rfl, hq', hres.trans (List.map_eq_flatMap ..)⟩

/-- The platforms of `genericUDPBatchReader` on which a read of an oversized datagram is no
error. -/
inductive Platform where
  | unix
  | nonunix

/-- `udpMessageTruncated` on the `MSG_TRUNC` flag. -/
def Platform.udpMessageTruncated : Platform → Bool → Bool
  | .unix, msgTrunc => msgTrunc
  | .nonunix, _ => false

/-- `genericUDPBatchReader.Read` -/
def genericRead (platform : Platform) (r : BatchReader) :
    Relay size (Except NetError (List (ReadPacket size))) := do
  let buf ← getBuffer
  let into ← buf.window r.offset (r.offset + r.limit + 1)
  match ← perform (.readMsgUDP r.sock into 0) with
  | .error err =>
      putBuffer buf
      return .error err
  | .ok msg =>
      let n := msg.data.length
      return .ok [⟨buf.overwrite r.offset msg.data, n, msg.addr,
        platform.udpMessageTruncated msg.msgTrunc || r.limit < n, false⟩]

/-- The generic reader keeps nothing between calls. -/
def genericReader (platform : Platform) (r : BatchReader) : QueueReader size Unit :=
  fun _ => do return (← genericRead platform r, ())

theorem readsFront_genericReader (platform : Platform) {r : BatchReader} (hroom : r.Fits size) :
    ReadsDatagrams r.offset r.limit (genericReader platform r : QueueReader size Unit) := by
  intro _ d q
  have hfit : r.offset + r.limit < size := hroom
  simp only [genericReader, genericRead, bind_assoc]
  refine wp_seq ((Datagram.keepsLocal (d :: q)).wp_perform rfl (o := .getBuffer) trivial) ?_
  rintro buf _ rfl
  refine wp_bind.mpr (wp_window_of_le (by omega) (by omega) ?_)
  refine wp_bind.mpr (Datagram.wp_readMsgUDP _ _ _ ?_)
  have hlen : r.offset + r.limit + 1 - r.offset = r.limit + 1 := by omega
  have hflag (h : platform.udpMessageTruncated (decide (r.offset + r.limit + 1 - r.offset <
      d.data.length)) = true) : r.limit < d.data.length := by
    cases platform with
    | unix =>
        have := of_decide_eq_true h
        omega
    | nonunix => cases h
  have hview := view_datagram hroom hlen buf hflag false
  exact ⟨_, 0, Nat.zero_le _, rfl, rfl, congrArg (· :: []) hview⟩

/-- **The batch reader refines the scalar reader.**  From any queue that is not empty,
`readBatch` returns the packets of a front of the queue, in order, each with the source of its
datagram, marked truncated exactly if the datagram is over the limit and with all of its
bytes otherwise; and call after call it yields the packets of the generic reader. -/
theorem readBatch_refines_generic (rt : Runtime) (platform : Platform) (r : BatchReader)
    (hroom : r.Fits size) (q : List Datagram) (batchDisabled : Bool) :
    (q ≠ [] →
      (∃ q' res, Exec Datagram.act q (readBatch rt r batchDisabled : Relay size _) q' res) ∧
      ∀ q' res, Exec Datagram.act q (readBatch rt r batchDisabled : Relay size _) q' res →
        ∃ packets k, 0 < k ∧ k ≤ q.length ∧ res.1 = .ok packets ∧ q' = q.drop k ∧
          List.Forall₂ (ReadPacket.IsOf r.offset r.limit) packets (q.take k)) ∧
    (∃ out, Yields r.offset (readBatch rt r : QueueReader size Bool) q batchDisabled out) ∧
    (∃ out, Yields r.offset (genericReader platform r : QueueReader size Unit) q () out) ∧
    ∀ batched scalar,
      Yields r.offset (readBatch rt r : QueueReader size Bool) q batchDisabled batched →
      Yields r.offset (genericReader platform r : QueueReader size Unit) q () scalar →
        batched = scalar := by
  have hbatch := readsFront_readBatch rt hroom
  have hgeneric := readsFront_genericReader platform hroom
  refine ⟨?_, exists_reads hbatch q batchDisabled, exists_reads hgeneric q (), ?_⟩
  · intro hne
    obtain ⟨d, q, rfl⟩ := List.exists_cons_of_ne_nil hne
    constructor
    · obtain ⟨q', res, hexec, -⟩ := exists_exec (hbatch batchDisabled d q)
      exact ⟨q', res, hexec⟩
    · intro q' res hexec
      obtain ⟨packets, k, hk, hres, rfl, hviews⟩ := wp_exec (hbatch batchDisabled d q) hexec
      refine ⟨packets, k + 1, Nat.succ_pos k, Nat.succ_le_succ hk, hres, rfl, ?_⟩
      rw [List.take_succ_cons]
      exact forall₂_isOf (hviews.trans (List.map_eq_flatMap ..).symm)
  · intro batched scalar hb hs
    rw [hb.eq_flatMap hbatch, hs.eq_flatMap hgeneric]

/-- A datagram within the limit and one over it. -/
theorem readBatch_refines_generic_pair :
    let r : BatchReader := ⟨.inbound, 0, 1, false⟩
    let q : List Datagram := [⟨[7], ⟨.v4 0x7f000001, 9⟩⟩, ⟨[7, 7, 7], ⟨.v4 0x7f000001, 9⟩⟩]
    ∃ out, Yields 0 (readBatch batchRuntime r : QueueReader 4 Bool) q false out ∧
      Yields 0 (genericReader .unix r : QueueReader 4 Unit) q () out := by
  intro r q
  have hroom : 0 + 1 < 4 := by decide
  obtain ⟨-, ⟨batched, hb⟩, ⟨scalar, hs⟩, hsame⟩ :=
    readBatch_refines_generic batchRuntime .unix r hroom q false
  obtain rfl := hsame batched scalar hb hs
  exact ⟨batched, hb, hs⟩

end Outway.Udp
