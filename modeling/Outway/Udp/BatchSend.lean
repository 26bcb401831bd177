import Outway.Udp.Bounds

/-!
# Outway.Udp.BatchSend

What a flushed request batch puts on the wire.

`sendmmsg` sends messages in order up to the first one the kernel rejects, and
fails when that is the first.  `writeMessages` gives up at an error, so the
datagrams behind a rejected one are never offered to the kernel:
`flushBatch_transmits_iff` says for which batches this loses nothing.
-/

namespace Outway.Udp

open Prog

variable {size : Nat}

/-! ## The kernel -/

/-- The sending side of a socket: which of the messages still to come the kernel
accepts, and what it has sent. -/
structure SendSide where
  accepts : List Bool
  sent : List Message

/-- The number of messages in front that the kernel accepts. -/
def SendSide.accepted (s : SendSide) : Nat := (s.accepts.takeWhile id).length

/-- A batch write sends the accepted messages in front and returns their number; when there
are none it returns -1 and an error. -/
def SendSide.act (s : SendSide) : (o : Op size) → Res o → SendSide → Prop
  | .writeBatch _ messages, w, s' =>
      let n := min s.accepted messages.length
      w.n = (if n = 0 then -1 else (n : Int)) ∧ (w.err = none ↔ n ≠ 0) ∧
        s' = ⟨s.accepts.drop n, s.sent ++ messages.take n⟩
  | _, _, s' => s' = s

/-- The datagrams the kernel accepts, each taken on its own. -/
def acceptedMessages (messages : List Message) (accepts : List Bool) : List Message :=
  ((messages.zip accepts).filter Prod.snd).map Prod.fst

/-- Flushing the batch runs to its end, and what is sent is what the kernel accepts. -/
def Transmits (rt : Runtime) (writer : BatchWriter) (batch : List (WritePacket size))
    (accepts : List Bool) : Prop :=
  (∃ s, Exec SendSide.act ⟨accepts, []⟩ (flushBatch rt writer batch) s ()) ∧
    ∀ s, Exec SendSide.act ⟨accepts, []⟩ (flushBatch rt writer batch) s () →
      s.sent = acceptedMessages (batch.map WritePacket.message) accepts

/-- The kernel answers every call. -/
theorem SendSide.act_total (s : SendSide) (o : Op size) : ∃ r s', s.act o r s' := by
  cases o with
  | writeBatch sock messages =>
      let n := min s.accepted messages.length
      have herr : (if n = 0 then some (NetError.other 0) else none) = none ↔ n ≠ 0 := by
        split_ifs with h <;> simp [h]
      refine ⟨⟨if n = 0 then -1 else n, if n = 0 then some (.other 0) else none, ?_, ?_,
        ?_⟩, _, rfl, herr, rfl⟩
      all_goals grind
  | _ => exact ⟨(nonempty_res _).some, s, rfl⟩

/-! ## What is sent -/

/-- The accepted front of a batch ends at its first rejection. -/
theorem takeWhile_drop_length_takeWhile (l : List Bool) :
    (l.drop (l.takeWhile id).length).takeWhile id = [] := by
  induction l with
  | nil => rfl
  | cons b l ih =>
      cases b with
      | false => rfl
      | true => simpa using ih

/-- What the writers count of `messages`: those sent, less one when the kernel rejects one. -/
def SendSide.counted (s : SendSide) (messages : List Message) : Int :=
  if s.accepted < messages.length then s.accepted - 1 else s.accepted

theorem SendSide.counted_nil (s : SendSide) (hlen : s.accepts.length = 0) :
    s.counted [] = 0 := by
  simp [SendSide.counted, SendSide.accepted, List.length_eq_zero_iff.mp hlen]

/-- The loop sends the messages in front of the first rejected one, and counts one less than
that when there is one. -/
theorem wp_writeMessages {sock : Sock} {rounds : Nat} {total : Int} {messages : List Message}
    {s : SendSide} (hrounds : messages.length ≤ rounds)
    (hlen : s.accepts.length = messages.length) :
    (writeMessages sock rounds messages total : Relay size _).wp (Contract.live SendSide.act) s
      fun res s' => s'.sent = s.sent ++ messages.take s.accepted ∧
        res.1 = total + s.counted messages := by
  induction rounds generalizing messages total s with
  | zero =>
      obtain rfl : messages = [] := List.length_eq_zero_iff.mp (by omega)
      simp [writeMessages, s.counted_nil hlen]
  | succ rounds ih =>
      cases messages with
      | nil => simp [writeMessages, s.counted_nil hlen]
      | cons m rest =>
          have hle : s.accepted ≤ (m :: rest).length :=
            (List.takeWhile_sublist id).length_le.trans_eq hlen
          simp only [writeMessages, perform_eq, step_bind, ret_bind, wp_step]
          refine ⟨s.act_total _, fun w s' hact => ?_⟩
          obtain ⟨hn, herr, rfl⟩ := hact
          rw [min_eq_left hle] at hn herr ⊢
          cases hw : w.err with
          | some err =>
              have hzero : s.accepted = 0 := by simpa [hw] using herr
              simp [hzero, hn, SendSide.counted]
          | none =>
              have hpos : s.accepted ≠ 0 := herr.mp hw
              rw [hn]
              simp only [if_neg hpos, Int.natCast_eq_zero, Int.toNat_natCast]
              have hdone (sent : List Message) :
                  SendSide.accepted ⟨s.accepts.drop s.accepted, sent⟩ = 0 :=
                congrArg List.length (takeWhile_drop_length_takeWhile s.accepts)
              refine wp_mono (ih ?_ ?_) fun res s' hs' => ?_
              · simp only [List.length_drop]
                omega
              · simp [hlen]
              · refine ⟨by rw [hs'.1, hdone, List.take_zero, List.append_nil], ?_⟩
                rw [hs'.2, SendSide.counted, hdone, SendSide.counted, List.length_drop]
                split_ifs <;> omega

/-- Local operations leave the sending side alone. -/
theorem SendSide.keepsLocal (s : SendSide) :
    @KeepsLocal size _ (Contract.live SendSide.act) (· = s) := by
  intro g o hg ho
  cases o <;> first | exact ⟨g.act_total _, fun _ _ h => Eq.trans h hg⟩ | cases ho

/-- `Write` sends the datagrams in front of the first rejected one, and its count is one short
when there is one. -/
theorem wp_write {w : BatchWriter} {batch : List (WritePacket size)} {s : SendSide}
    (hfits : batch.length ≤ w.batchSize) (hlen : s.accepts.length = batch.length) :
    (w.write batch).wp (Contract.live SendSide.act) s fun res s' =>
      s'.sent = s.sent ++ (batch.map WritePacket.message).take s.accepted ∧
        res.1 = s.counted (batch.map WritePacket.message) := by
  have hmessages : (writeMessages w.sock (batch.map WritePacket.message).length
      (batch.map WritePacket.message) 0 : Relay size _).wp (Contract.live SendSide.act) s
        fun res s' => s'.sent = s.sent ++ (batch.map WritePacket.message).take s.accepted ∧
          res.1 = s.counted (batch.map WritePacket.message) := by
    refine wp_mono (wp_writeMessages le_rfl (by simpa using hlen)) fun res s' h => ⟨h.1, ?_⟩
    rw [h.2, zero_add]
  simp only [BatchWriter.write, checkLen, if_pos hfits, ret_bind]
  split_ifs with hempty
  · obtain rfl := List.length_eq_zero_iff.mp hempty
    simp [s.counted_nil hlen]
  · exact hmessages
  · exact hmessages

/-- A flush by `sendmmsg` sends the datagrams in front of the first rejected one. -/
theorem wp_flushBatch {rt : Runtime} {writer : BatchWriter} {batch : List (WritePacket size)}
    (hsend : gsoEligible (rt.gso && rt.gsoSupported) batch = none)
    (hfits : batch.length ≤ writer.batchSize) {s : SendSide}
    (hlen : s.accepts.length = batch.length) :
    (flushBatch rt writer batch).wp (Contract.live SendSide.act) s fun _ s' =>
      s'.sent = s.sent ++ (batch.map WritePacket.message).take s.accepted := by
  simp only [flushBatch, sendBatch, hsend]
  split_ifs with hempty
  · obtain rfl := List.length_eq_zero_iff.mp hempty
    simp
  · refine wp_seq (wp_write hfits hlen) fun res s₁ hs₁ => ?_
    refine wp_seq (s₁.keepsLocal.wp_releaseAll WritePacket.owner WritePacket.batchSlot rfl batch) ?_
    rintro _ _ rfl
    refine wp_mono (SendSide.keepsLocal _ |>.wp_reportWrite rfl _ _ _) ?_
    rintro _ _ rfl
    exact hs₁.1

/-- A flush that runs to its end had a batch that fits the writer. -/
theorem fits_of_exec_flushBatch {rt : Runtime} {writer : BatchWriter}
    {batch : List (WritePacket size)}
    (hsend : gsoEligible (rt.gso && rt.gsoSupported) batch = none) {s s' : SendSide}
    (hexec : Exec SendSide.act s (flushBatch rt writer batch) s' ()) :
    batch.length ≤ writer.batchSize := by
  by_contra hbig
  have hpos : batch.length ≠ 0 := by omega
  have hfault : flushBatch rt writer batch = .fault := by
    simp [flushBatch, sendBatch, hsend, BatchWriter.write, checkLen, hpos, hbig]
  rw [hfault] at hexec
  cases hexec

/-! ## When nothing is lost -/

/-- Nothing is accepted when every message is rejected. -/
theorem acceptedMessages_eq_nil_iff {messages : List Message} {accepts : List Bool}
    (hlen : accepts.length = messages.length) :
    acceptedMessages messages accepts = [] ↔ ∀ b ∈ accepts, b = false := by
  have hsnd : (messages.zip accepts).map Prod.snd = accepts := List.map_snd_zip hlen.le
  rw [acceptedMessages, List.map_eq_nil_iff, List.filter_eq_nil_iff]
  conv_rhs => rw [← hsnd]
  simp only [List.forall_mem_map, Bool.not_eq_true]

/-- The messages in front of the first rejected one are all the accepted ones exactly
when no accepted message follows a rejected one. -/
theorem take_eq_acceptedMessages_iff {messages : List Message} {accepts : List Bool}
    (hlen : accepts.length = messages.length) :
    messages.take (accepts.takeWhile id).length = acceptedMessages messages accepts ↔
      accepts.Pairwise fun a b => b = true → a = true := by
  induction accepts generalizing messages with
  | nil =>
      obtain rfl := List.length_eq_zero_iff.mp hlen.symm
      simp [acceptedMessages]
  | cons a accepts ih =>
      obtain ⟨m, rest, rfl⟩ := List.exists_cons_of_length_eq_add_one hlen.symm
      have hrest : accepts.length = rest.length := by simpa using hlen
      cases a with
      | true =>
          have := ih hrest
          simpa [acceptedMessages] using this
      | false =>
          have hnil := acceptedMessages_eq_nil_iff hrest
          have hskip : acceptedMessages (m :: rest) (false :: accepts) =
              acceptedMessages rest accepts := rfl
          have hzero : ((false :: accepts).takeWhile id).length = 0 := rfl
          rw [hskip, hzero, List.take_zero, eq_comm, hnil, List.pairwise_cons]
          constructor
          · intro hall
            refine ⟨fun b hb => by simp [hall b hb], ?_⟩
            exact List.pairwise_of_forall_mem_list fun a _ b hb => by simp [hall b hb]
          · intro hpair b hb
            simpa using hpair.1 b hb

/-- **Independence of a batch.**  Flushing a batch by `sendmmsg` runs to its end and
sends exactly the accepted datagrams, as sending each on its own would, if and only
if the batch fits the writer and no accepted datagram follows a rejected one. -/
theorem flushBatch_transmits_iff {rt : Runtime} {writer : BatchWriter}
    {batch : List (WritePacket size)} {accepts : List Bool}
    (hsend : gsoEligible (rt.gso && rt.gsoSupported) batch = none)
    (hlen : accepts.length = batch.length) :
    Transmits rt writer batch accepts ↔
      batch.length ≤ writer.batchSize ∧ accepts.Pairwise fun a b => b = true → a = true := by
  have hlen' : accepts.length = (batch.map WritePacket.message).length := by simpa using hlen
  have hwp (hfits : batch.length ≤ writer.batchSize) :
      (flushBatch rt writer batch).wp (Contract.live SendSide.act) ⟨accepts, []⟩ fun _ s =>
        s.sent = (batch.map WritePacket.message).take (accepts.takeWhile id).length := by
    simpa [SendSide.accepted] using
      wp_flushBatch hsend hfits (s := (⟨accepts, []⟩ : SendSide)) hlen
  constructor
  · intro ⟨⟨s, hexec⟩, hall⟩
    have hfits := fits_of_exec_flushBatch hsend hexec
    have hsent := wp_exec (hwp hfits) hexec
    exact ⟨hfits, (take_eq_acceptedMessages_iff hlen').mp (hsent.symm.trans (hall s hexec))⟩
  · intro ⟨hfits, hpair⟩
    obtain ⟨s, _, hexec, -⟩ := exists_exec (hwp hfits)
    refine ⟨⟨s, hexec⟩, fun s' hexec' => ?_⟩
    exact (wp_exec (hwp hfits) hexec').trans ((take_eq_acceptedMessages_iff hlen').mpr hpair)

/-- A datagram of one byte to 1.1.1.1. -/
def oneByteTo (port : UInt16) : WritePacket 600 :=
  ⟨⟨some 0, [1]⟩, zeroBuffer 600, ⟨.v4 0x01010101, port⟩, false⟩

/-- A rejected message at the end of a batch keeps nothing back. -/
theorem flushBatch_transmits_iff_pair :
    gsoEligible (groRuntime.gso && groRuntime.gsoSupported)
        [oneByteTo 53, oneByteTo 0] = none ∧
      (Transmits groRuntime ⟨.preferred, true, 32⟩ [oneByteTo 53, oneByteTo 0] [true, false] ↔
        2 ≤ 32 ∧ [true, false].Pairwise fun a b => b = true → a = true) :=
  ⟨rfl, flushBatch_transmits_iff rfl rfl⟩

/-- The first of two datagrams is rejected, as its port is zero, and the second is lost with
it. -/
theorem not_transmits_behind_rejected :
    ¬ Transmits groRuntime ⟨.preferred, true, 32⟩
      [oneByteTo 0, oneByteTo 53] [false, true] := by
  rintro ⟨⟨s, hexec⟩, hall⟩
  have hsent := wp_exec (C := Contract.live SendSide.act)
    (wp_flushBatch rfl (by decide) rfl) hexec
  have hlost := (hall s hexec).symm.trans hsent
  simp [acceptedMessages, SendSide.accepted] at hlost

end Outway.Udp
