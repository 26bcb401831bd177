import Outway.Udp.Packets

/-!
# Outway.Udp.Holdings

What a thread holds of the pool and of the batch budget, and that its program
uses and gives back only what it holds.

`Holdings.next` reads a thread's holdings off its operations, and the contract
`ledger` permits an operation on a buffer only to the thread that holds it.  Each
function of the relay has one specification: the entries it is handed and the
entries it leaves, with whatever else the thread holds as a frame.
-/

namespace Outway.Udp

open Prog

variable {size shards : Nat}

/-! ## Holdings -/

/-- A buffer, and whether it was taken against the batch budget. -/
abbrev Entry : Type := Nat × Bool

def ReadPacket.entry (p : ReadPacket size) : Entry := (p.buffer.id, p.batchSlot)

def WritePacket.entry (w : WritePacket size) : Entry := (w.owner.id, w.batchSlot)

def InboundPacket.entry (p : InboundPacket size) : Entry := (p.buffer.id, p.batchSlot)

def SendJob.entry (job : SendJob size) : Entry := job.packet.entry

/-- The slice is part of the buffer, or of none. -/
def Slice.IsPartOf (s : Slice) (b : Buffer size) : Prop := ∀ id ∈ s.backing, id = b.id

/-- What a thread holds. -/
structure Holdings where
  held : Multiset Entry
  /-- a token was taken, and its buffer comes next -/
  reserved : Bool
  /-- the buffers it has returned since its pump was called, or since it received a job -/
  returned : Multiset Nat

namespace Holdings

/-- Nothing is held. -/
def empty : Holdings := ⟨0, false, 0⟩

/-- The holdings after an operation. -/
def next (g : Holdings) : (o : Op size) → Res o → Holdings
  | .pump _, _ => { g with returned := 0 }
  | .getBuffer, b => { g with held := (b.id, g.reserved) ::ₘ g.held, reserved := false }
  | .putBuffer b, _ =>
      { g with held := g.held.erase (b.id, false), returned := b.id ::ₘ g.returned }
  | .sendBatchSlot, taken => { g with reserved := taken }
  | .recvBatchSlot b, _ => { g with held := (b.id, false) ::ₘ g.held.erase (b.id, true) }
  | .trySend _ job, true => { g with held := g.held.erase job.entry }
  | .selectJob _, some job => { g with held := job.entry ::ₘ g.held, returned := 0 }
  | .tryReceive _, some job => { g with held := job.entry ::ₘ g.held, returned := 0 }
  | _, _ => g

/-- Nothing is held between the calls of a pump and between jobs. -/
def AtRest (g : Holdings) : Prop := g.held = 0 ∧ g.reserved = false

/-- The pooled buffer a slice is part of is held, and was not given away since. -/
def Covers (g : Holdings) (s : Slice) : Prop :=
  ∀ id ∈ s.backing, id ∈ g.held.map Prod.fst ∧ id ∉ g.returned

/-- What the holdings allow.  A buffer is put back by its holder and without a token, a
token is given back by the holder of a buffer that has one, and whatever is read to,
sent or queued belongs to the thread. -/
def Allows (shards : Nat) (g : Holdings) : Op size → Prop
  | .pump _ => g.AtRest
  | .selectJob shard => g.AtRest ∧ shard < shards
  | .tryReceive shard => g.AtRest ∧ shard < shards
  | .putBuffer b => (b.id, false) ∈ g.held
  | .recvBatchSlot b => (b.id, true) ∈ g.held
  | .readMsgUDP _ into _ => g.Covers ⟨some into.backing, []⟩
  | .readBatch _ into => ∀ w ∈ into, g.Covers ⟨some w.backing, []⟩
  | .writeBatch _ messages => ∀ m ∈ messages, g.Covers m.payload
  | .sendmsgN _ payloads _ _ => ∀ p ∈ payloads, g.Covers p
  | .sendPacket job => g.Covers job.packet.payload
  | .trySend shard job =>
      shard < shards ∧ job.entry ∈ g.held ∧ job.packet.payload.IsPartOf job.packet.buffer
  | _ => True

/-- What a thread may do next: after taking a token it takes the buffer. -/
def Permits (shards : Nat) (g : Holdings) (o : Op size) : Prop :=
  (g.reserved = true → o = .getBuffer) ∧ g.Allows shards o

/-- Exactly `H` is held, and no buffer twice or after it was returned. -/
structure Has (g : Holdings) (H : Multiset Entry) : Prop where
  held : g.held = H
  reserved : g.reserved = false
  nodup : (g.held.map Prod.fst + g.returned).Nodup

/-- Exactly `H` is held, and nothing was returned yet. -/
def HasFresh (g : Holdings) (H : Multiset Entry) : Prop := g.Has H ∧ g.returned = 0

end Holdings

/-- A job that was received refers to its own buffer. -/
def Delivered : (o : Op size) → Res o → Prop
  | .selectJob _, some job => job.packet.payload.IsPartOf job.packet.buffer
  | .tryReceive _, some job => job.packet.payload.IsPartOf job.packet.buffer
  | _, _ => True

/-- The contract of a thread that accounts for its holdings.  A panic ends the run. -/
def ledger (size shards : Nat) : Contract (Op size) Res Holdings where
  ok := Holdings.Permits shards
  trans g o r g' := g' = g.next o r ∧ Delivered o r ∧ (g'.held.map Prod.fst).Nodup
  fault := True

/-! ## Single operations -/

/-- The operations that move no buffer and no token. -/
def Op.IsPlain : Op size → Prop
  | .count _ _ | .reportUDPError _ | .touch | .storePort _ | .loadPort | .lookupCachedHost _
  | .lifetimeErr | .ctxErr | .readMsgUDP _ _ _ | .readBatch _ _ | .writeBatch _ _
  | .sendmsgN _ _ _ _ | .sendPacket _ => True
  | _ => False

/-- An operation on no buffer changes nothing. -/
theorem Holdings.next_of_isPlain {o : Op size} (ho : o.IsPlain) (g : Holdings) (r : Res o) :
    g.next o r = g := by
  cases o <;> first | rfl | exact ho.elim

section Ops

variable {g : Holdings} {H F : Multiset Entry}

theorem Holdings.Has.atRest (h : g.Has 0) : g.AtRest := ⟨h.held, h.reserved⟩

theorem Holdings.Has.congr (h : g.Has H) (hF : H = F) : g.Has F := hF ▸ h

/-- A part of a buffer that is held may be used. -/
theorem Holdings.Has.covers {s : Slice} {b : Buffer size} {slot : Bool} (h : g.Has H)
    (hs : s.IsPartOf b) (hmem : (b.id, slot) ∈ H) : g.Covers s := by
  intro id hid
  have hheld : b.id ∈ g.held.map Prod.fst :=
    Multiset.mem_map.mpr ⟨(b.id, slot), h.held ▸ hmem, rfl⟩
  rw [hs id hid]
  exact ⟨hheld, Multiset.disjoint_left.mp (Multiset.nodup_add.mp h.nodup).2.2 hheld⟩

/-- An operation that moves nothing. -/
theorem Holdings.wp_plain {o : Op size} (ho : o.IsPlain) (h : g.Has H)
    (hallows : g.Allows shards o) :
    (perform o).wp (ledger size shards) g fun _ g' => g' = g := by
  refine ⟨⟨fun hr => ?_, hallows⟩, fun r g' hg' => ?_⟩
  · rw [h.reserved] at hr
    contradiction
  · rw [hg'.1, Holdings.next_of_isPlain ho]
    rfl

/-- A buffer that is held may be given back. -/
theorem Holdings.wp_putBuffer {b : Buffer size} (h : g.Has ((b.id, false) ::ₘ F)) :
    (putBuffer b).wp (ledger size shards) g fun _ g' => g'.Has F := by
  have hmem : (b.id, false) ∈ g.held := h.held ▸ Multiset.mem_cons_self _ _
  refine ⟨⟨by simp [h.reserved], hmem⟩, ?_⟩
  rintro _ g' ⟨rfl, -⟩
  have hheld : g.held.erase (b.id, false) = F := by rw [h.held, Multiset.erase_cons_head]
  refine ⟨hheld, h.reserved, ?_⟩
  -- the buffer moves from one part to the other
  have hnodup := h.nodup
  rw [← Multiset.cons_erase hmem, Multiset.map_cons, Multiset.cons_add,
    ← Multiset.add_cons] at hnodup
  exact hnodup

theorem Holdings.wp_recvBatchSlot {b : Buffer size} (h : g.Has ((b.id, true) ::ₘ F)) :
    (perform (.recvBatchSlot b)).wp (ledger size shards) g fun _ g' =>
      g'.Has ((b.id, false) ::ₘ F) := by
  have hmem : (b.id, true) ∈ g.held := h.held ▸ Multiset.mem_cons_self _ _
  refine ⟨⟨by simp [h.reserved], hmem⟩, ?_⟩
  rintro _ g' ⟨rfl, -⟩
  have hheld : g.held.erase (b.id, true) = F := by rw [h.held, Multiset.erase_cons_head]
  refine ⟨by rw [Holdings.next, hheld], h.reserved, ?_⟩
  have hnodup := h.nodup
  rw [← Multiset.cons_erase hmem, Multiset.map_cons] at hnodup
  simpa only [Holdings.next, Multiset.map_cons] using hnodup

/-- With its slot, if it has one. -/
theorem Holdings.wp_releaseBuffer {b : Buffer size} {slot : Bool} (h : g.Has ((b.id, slot) ::ₘ F)) :
    (releaseBuffer b slot).wp (ledger size shards) g fun _ g' => g'.Has F := by
  cases slot with
  | false => exact wp_putBuffer h
  | true => exact wp_seq (wp_recvBatchSlot h) fun _ _ h' => wp_putBuffer h'

/-- Releasing every buffer of a list leaves the frame. -/
theorem Holdings.wp_releaseAll {β : Type} (buf : β → Buffer size) (slot : β → Bool) {l : List β}
    (h : g.Has (↑(l.map fun b => ((buf b).id, slot b)) + F)) :
    (l.forM fun b => releaseBuffer (buf b) (slot b)).wp (ledger size shards) g fun _ g' =>
      g'.Has F := by
  refine wp_mono (wp_forM (fun rest g => g.Has (↑(rest.map fun b => ((buf b).id, slot b)) + F))
    ?_ h) fun _ g' h' => h'.congr (zero_add F)
  intro b rest g hg
  rw [List.map_cons, ← Multiset.cons_coe, Multiset.cons_add] at hg
  exact wp_releaseBuffer hg

/-- A buffer from the pool, before anything was returned. -/
theorem Holdings.wp_getBuffer {slot : Bool} (hheld : g.held = H) (hslot : g.reserved = slot)
    (hreturned : g.returned = 0) :
    (getBuffer).wp (ledger size shards) g fun b g' => g'.HasFresh ((b.id, slot) ::ₘ H) := by
  refine ⟨⟨fun _ => rfl, trivial⟩, ?_⟩
  rintro b g' ⟨rfl, -, hnodup⟩
  refine ⟨⟨by rw [← hheld, ← hslot]; rfl, rfl, ?_⟩, hreturned⟩
  rw [show (g.next .getBuffer b).returned = 0 from hreturned, add_zero]
  exact hnodup

end Ops

/-- A slice of a buffer, if it is in range. -/
theorem Holdings.wp_slice {g : Holdings} {b : Buffer size} {lo hi : Nat}
    {Q : Slice → Holdings → Prop} (h : ∀ s : Slice, s.IsPartOf b → Q s g) :
    (b.slice lo hi).wp (ledger size shards) g Q :=
  wp_slice_of_fault trivial (h _ fun _ hid => (Option.mem_some.mp hid).symm)

/-! ## Reading -/

/-- The buffers of a list of packets. -/
def readEntries (packets : List (ReadPacket size)) : Multiset Entry :=
  ↑(packets.map ReadPacket.entry)

@[simp] theorem readEntries_nil : readEntries ([] : List (ReadPacket size)) = 0 := rfl

@[simp] theorem readEntries_cons (p : ReadPacket size) (packets : List (ReadPacket size)) :
    readEntries (p :: packets) = p.entry ::ₘ readEntries packets := rfl

/-- The buffers of two lists of packets. -/
@[simp] theorem readEntries_append (ps qs : List (ReadPacket size)) :
    readEntries (ps ++ qs) = readEntries ps + readEntries qs := by
  simp [readEntries]

theorem readEntries_concat (packets : List (ReadPacket size)) (p : ReadPacket size) :
    readEntries (packets ++ [p]) = p.entry ::ₘ readEntries packets := by
  rw [readEntries_append, add_comm, readEntries_cons, readEntries_nil, Multiset.cons_add, zero_add]

section Read

variable {g : Holdings} {r : BatchReader} {rt : Runtime}

/-- Counting on the way. -/
theorem Holdings.wp_count {H : Multiset Entry} (h : g.Has H) (c : Counter) (delta : Int) :
    (count c delta).wp (ledger size shards) g fun _ g' => g' = g :=
  wp_plain (o := .count c delta) trivial h trivial

/-- A step that holds the books is one if it is left out, too. -/
theorem Holdings.wp_onlyIf {c : Prop} [Decidable c] {p : Relay size Unit}
    (h : p.wp (ledger size shards) g fun _ g' => g' = g) :
    (onlyIf c p).wp (ledger size shards) g fun _ g' => g' = g := by
  unfold onlyIf
  split_ifs
  · exact h
  · rfl

/-- A segment has a buffer of its own. -/
theorem Holdings.wp_copySegment {buffer : Buffer size} {src : AddrPort} {n segmentSize i : Nat}
    {packets : List (ReadPacket size)} (h : g.HasFresh (readEntries packets)) :
    (copySegment r buffer src n segmentSize packets i).wp (ledger size shards) g
      fun packets' g' => g'.HasFresh (readEntries packets') := by
  refine wp_seq (wp_getBuffer h.1.held h.1.reserved h.2) fun copied g₁ h₁ => ?_
  refine wp_bind.mpr (wp_slice fun _ _ =>
    wp_bind.mpr (wp_slice fun _ _ => wp_push_of_fault trivial ?_))
  rwa [readEntries_concat]

/-- The buffer of a coalesced read is given back, or becomes that of the only packet. -/
theorem Holdings.wp_splitSegments {buffer : Buffer size} {src : AddrPort} {n segmentSize : Nat}
    (h : g.HasFresh {(buffer.id, false)}) :
    (splitSegments r buffer src n segmentSize).wp (ledger size shards) g
      fun packets g' => g'.HasFresh (readEntries packets) := by
  simp only [splitSegments]
  refine wp_seq (wp_onlyIf (wp_count h.1 _ _)) fun _ g₁ h₁ => ?_
  subst h₁
  refine wp_seq (wp_count h.1 _ _) fun _ g₂ h₂ => ?_
  subst h₂
  refine wp_bind.mpr (wp_push_of_fault trivial ?_)
  exact wp_foldlM (fun _ packets (g : Holdings) => g.HasFresh (readEntries packets))
    (fun i _ packets g hg => wp_copySegment hg) h

/-- The packets of a coalesced read have their buffers. -/
theorem Holdings.wp_groPackets {buffer : Buffer size} {len : Nat} {msg : ReadMsg len groOOBLen}
    (h : g.HasFresh {(buffer.id, false)}) :
    (groPackets r buffer msg).wp (ledger size shards) g
      fun packets g' => g'.HasFresh (readEntries packets) := by
  simp only [groPackets]
  split_ifs
  · exact wp_push_of_fault trivial h
  · exact wp_bind.mpr (wp_checkLen_of_fault trivial (wp_push_of_fault trivial h))
  · exact wp_bind.mpr (wp_checkLen_of_fault trivial (wp_splitSegments h))

/-- What a read leaves: the buffers of its packets, and nothing after an error. -/
def ReadHas (res : Except NetError (List (ReadPacket size))) (g : Holdings) : Prop :=
  match res with
  | .error _ => g.Has 0
  | .ok packets => g.Has (readEntries packets)

/-- A coalesced read keeps only the buffers of its packets. -/
theorem Holdings.wp_readGRO (h : g.HasFresh 0) :
    (readGRO r).wp (ledger size shards) g fun res g' => ReadHas res g' := by
  refine wp_seq (wp_getBuffer h.1.held h.1.reserved h.2) fun buffer g₁ h₁ => ?_
  refine wp_bind.mpr (wp_window_of_fault trivial ?_)
  refine wp_seq (wp_plain (o := .readMsgUDP r.sock _ groOOBLen) trivial h₁.1 ?_)
    fun res g₂ h₂ => ?_
  · exact h₁.1.covers (b := buffer) (by simp [Slice.IsPartOf]) (Multiset.mem_cons_self _ _)
  subst h₂
  cases res with
  | error err => exact wp_seq (wp_putBuffer h₁.1) fun _ _ h₃ => h₃
  | ok msg => exact wp_seq (wp_groPackets h₁) fun _ _ h₃ => h₃.1

/-- The entries of buffers taken against the budget. -/
def budgeted (bufs : List (Buffer size)) : Multiset Entry := ↑(bufs.map fun b => (b.id, true))

@[simp] theorem budgeted_nil : budgeted ([] : List (Buffer size)) = 0 := rfl

theorem budgeted_append (ps qs : List (Buffer size)) :
    budgeted (ps ++ qs) = budgeted ps + budgeted qs := by
  simp [budgeted]

/-- The slot for an additional buffer. -/
theorem Holdings.wp_tryAcquireBatchBuffer {H : Multiset Entry} (h : g.HasFresh H) :
    (tryAcquireBatchBuffer rt).wp (ledger size shards) g fun acquired g' =>
      g' = { g with reserved := acquired } := by
  unfold tryAcquireBatchBuffer
  split_ifs
  · simp [← h.1.reserved]
  · refine ⟨⟨by simp [h.1.reserved], trivial⟩, ?_⟩
    rintro taken g' ⟨rfl, -⟩
    rfl

/-- Every buffer of the batch read is taken against the budget. -/
theorem Holdings.wp_takeExtraBuffers {first : Buffer size} {todo : Nat} {extra : List (Buffer size)}
    {msgs : List Window} (h : g.HasFresh (budgeted extra + {(first.id, false)}))
    (hmsgs : msgs.map Window.backing = extra.map Buffer.id) :
    (takeExtraBuffers rt r todo (first :: extra) msgs).wp (ledger size shards) g fun p g' =>
      ∃ extra, p.1 = first :: extra ∧ p.2.map Window.backing = extra.map Buffer.id ∧
        g'.HasFresh (budgeted extra + {(first.id, false)}) := by
  induction todo generalizing extra msgs g with
  | zero => exact ⟨extra, rfl, hmsgs, h⟩
  | succ todo ih =>
      rw [takeExtraBuffers]
      refine wp_seq (wp_tryAcquireBatchBuffer h) fun acquired g₁ h₁ => ?_
      cases acquired with
      | false =>
          have hg : g₁ = g := by rw [h₁, ← h.1.reserved]
          exact ⟨extra, rfl, hmsgs, hg ▸ h⟩
      | true =>
          subst h₁
          refine wp_seq (wp_getBuffer h.1.held rfl h.2) fun buf g₂ h₂ => ?_
          refine wp_bind.mpr (wp_push_of_fault trivial
            (wp_bind.mpr (wp_window_of_fault trivial ?_)))
          have hentries : (buf.id, true) ::ₘ (budgeted extra + {(first.id, false)}) =
              budgeted (extra ++ [buf]) + {(first.id, false)} := by
            rw [budgeted_append, add_comm (budgeted extra) (budgeted [buf]), add_assoc]
            rfl
          have h₃ : g₂.HasFresh (budgeted (extra ++ [buf]) + {(first.id, false)}) := hentries ▸ h₂
          exact wp_bind.mpr (wp_push_of_fault trivial (ih h₃ (by simp [hmsgs])))

/-- The batch read keeps the buffers it filled and releases the others. -/
theorem Holdings.wp_drainBatch {first : Buffer size} {extra : List (Buffer size)}
    {packets : List (ReadPacket size)} {msgs : List Window}
    (hpackets : readEntries packets = {(first.id, false)})
    (hmsgs : msgs.map Window.backing = extra.map Buffer.id)
    (h : g.Has (budgeted extra + {(first.id, false)})) :
    (drainBatch rt r packets (first :: extra) msgs).wp (ledger size shards) g fun p g' =>
      g'.Has (readEntries p.1) := by
  refine wp_seq (wp_plain (o := .readBatch r.sock msgs) trivial h ?_) fun res g₁ h₁ => ?_
  · intro w hw
    obtain ⟨b, hb, hid⟩ : ∃ b ∈ extra, b.id = w.backing := by
      rw [← List.mem_map, ← hmsgs]
      exact List.mem_map_of_mem hw
    have hmem : (b.id, true) ∈ budgeted extra + {(first.id, false)} :=
      Multiset.mem_add.mpr (.inl (Multiset.mem_coe.mpr (List.mem_map_of_mem hb)))
    exact h.covers (by simp [Slice.IsPartOf, hid]) hmem
  subst h₁
  cases res with
  | error err =>
      refine wp_seq (wp_releaseAll id (fun _ => true) h) fun _ g₂ h₂ => ?_
      rw [← hpackets] at h₂
      simp only [pure_eq]
      split_ifs
      · exact h₂
      · refine wp_seq (wp_count h₂ _ _) fun _ g₃ h₃ => ?_
        rwa [h₃]
  | ok drained =>
      refine wp_bind.mpr (wp_foldlM_push_of_fault trivial ?_)
      set n := drained.messages.length with hn
      have hsplit : budgeted extra = budgeted (extra.drop n) + budgeted (extra.take n) := by
        rw [add_comm, ← budgeted_append, List.take_append_drop]
      have hread : readEntries ((drained.messages.zip extra).map fun p => drainedPacket r p.1 p.2) =
          budgeted (extra.take n) := by
        have hle : n ≤ extra.length := by
          have hlen := congrArg List.length hmsgs
          rw [List.length_map, List.length_map] at hlen
          exact hlen ▸ drained.length_messages
        have hzip : (drained.messages.zip extra).map Prod.snd = extra.take n := by
          rw [List.zip_eq_zip_take_min, min_eq_left hle, List.take_length, List.map_snd_zip]
          simp [hle, ← hn]
        rw [budgeted, ← hzip, List.map_map, readEntries, List.map_map]
        rfl
      rw [hsplit, add_assoc] at h
      refine wp_seq (wp_releaseAll id (fun _ => true) h) fun _ g₂ h₂ => ?_
      refine h₂.congr ?_
      rw [List.tail_cons, readEntries_append, hread, hpackets, add_comm]

/-- The packets of a batch have their buffers, the others are given back. -/
theorem Holdings.wp_batchPackets {batchDisabled : Bool} {first : Buffer size} {len : Nat}
    {msg : ReadMsg len 0} (h : g.HasFresh {(first.id, false)}) :
    (batchPackets rt r batchDisabled first msg).wp (ledger size shards) g fun p g' =>
      g'.Has (readEntries p.1) := by
  simp only [batchPackets]
  refine wp_bind.mpr (wp_push_of_fault trivial (wp_bind.mpr (wp_push_of_fault trivial ?_)))
  simp only [pure_eq, List.nil_append]
  split_ifs
  · exact h.1
  · exact h.1
  · refine wp_seq (wp_takeExtraBuffers ?_ List.map_nil) ?_
    · rwa [budgeted_nil, zero_add]
    rintro ⟨_, msgs⟩ g₁ ⟨extra, rfl, hmsgs, h₁⟩
    simp only
    split_ifs with hnone
    · have hextra : extra = [] := by
        rw [List.length_eq_zero_iff.mp hnone, List.map_nil] at hmsgs
        exact List.map_eq_nil_iff.mp hmsgs.symm
      rw [hextra, budgeted_nil, zero_add] at h₁
      exact h₁.1
    · exact wp_drainBatch rfl hmsgs h₁.1

/-- A batch read keeps only the buffers of its packets. -/
theorem Holdings.wp_readBatch {batchDisabled : Bool} (h : g.HasFresh 0) :
    (readBatch rt r batchDisabled).wp (ledger size shards) g fun p g' => ReadHas p.1 g' := by
  refine wp_seq (wp_getBuffer h.1.held h.1.reserved h.2) fun first g₁ h₁ => ?_
  refine wp_bind.mpr (wp_window_of_fault trivial ?_)
  refine wp_seq (wp_plain (o := .readMsgUDP r.sock _ 0) trivial h₁.1 ?_) fun res g₂ h₂ => ?_
  · exact h₁.1.covers (b := first) (by simp [Slice.IsPartOf]) (Multiset.mem_cons_self _ _)
  subst h₂
  cases res with
  | error err => exact wp_seq (wp_putBuffer h₁.1) fun _ _ h₃ => h₃
  | ok msg => exact wp_seq (wp_batchPackets h₁) fun _ _ h₃ => h₃

/-- A read leaves the buffers of the packets it returns, each with the token its
`batchSlot` says. -/
theorem Holdings.wp_read {batchDisabled : Bool} (h : g.HasFresh 0) :
    (r.read rt batchDisabled).wp (ledger size shards) g fun p g' => ReadHas p.1 g' := by
  unfold BatchReader.read
  split_ifs
  · exact wp_seq (wp_readGRO h) fun _ _ h₁ => h₁
  · exact wp_readBatch h

end Read

/-! ## Writing -/

/-- The buffers of a batch. -/
def writeEntries (batch : List (WritePacket size)) : Multiset Entry :=
  ↑(batch.map WritePacket.entry)

@[simp] theorem writeEntries_nil : writeEntries ([] : List (WritePacket size)) = 0 := rfl

theorem writeEntries_concat (batch : List (WritePacket size)) (w : WritePacket size) :
    writeEntries (batch ++ [w]) = w.entry ::ₘ writeEntries batch := by
  rw [writeEntries, List.map_append, ← Multiset.coe_add, add_comm]
  rfl

/-- Every write sends part of the buffer it owns. -/
def OwnsPayloads (batch : List (WritePacket size)) : Prop :=
  ∀ w ∈ batch, w.buffer.IsPartOf w.owner

/-- One packet more. -/
theorem OwnsPayloads.concat {batch : List (WritePacket size)} {w : WritePacket size}
    (h : OwnsPayloads batch) (hw : w.buffer.IsPartOf w.owner) : OwnsPayloads (batch ++ [w]) := by
  intro w' hw'
  obtain hw' | rfl : w' ∈ batch ∨ w' = w := by simpa using hw'
  · exact h w' hw'
  · exact hw

section Write

variable {g : Holdings} {H F : Multiset Entry} {batch : List (WritePacket size)}

/-- The payloads of a batch are in buffers that are held. -/
theorem Holdings.Has.covers_batch (h : g.Has (writeEntries batch + F)) (hown : OwnsPayloads batch) :
    ∀ w ∈ batch, g.Covers w.buffer := by
  intro w hw
  have hmem : w.entry ∈ writeEntries batch + F :=
    Multiset.mem_add.mpr (.inl (Multiset.mem_coe.mpr (List.mem_map_of_mem hw)))
  exact h.covers (hown w hw) hmem

/-- Sending uses the buffers and keeps them. -/
theorem Holdings.wp_writeMessages {sock : Sock} {rounds : Nat} {total : Int}
    {messages : List Message} (h : g.Has H) (hcovers : ∀ m ∈ messages, g.Covers m.payload) :
    (writeMessages sock rounds messages total).wp (ledger size shards) g fun _ g' => g' = g := by
  induction rounds generalizing messages total with
  | zero => rfl
  | succ rounds ih =>
      cases messages with
      | nil => rfl
      | cons m rest =>
          rw [writeMessages]
          refine wp_seq (wp_plain (o := .writeBatch sock (m :: rest)) trivial h hcovers)
            fun written g₁ h₁ => ?_
          subst h₁
          cases written.err with
          | some err => rfl
          | none =>
              simp only
              split_ifs
              · rfl
              · exact ih fun m' hm' => hcovers m' (List.mem_of_mem_drop hm')

theorem Holdings.wp_write {writer : BatchWriter} (h : g.Has H)
    (hcovers : ∀ w ∈ batch, g.Covers w.buffer) :
    (writer.write batch).wp (ledger size shards) g fun _ g' => g' = g := by
  unfold BatchWriter.write
  split_ifs
  · rfl
  all_goals
    refine wp_bind.mpr (wp_checkLen_of_fault trivial (wp_writeMessages h fun m hm => ?_))
    obtain ⟨w, hw, rfl⟩ := List.mem_map.mp hm
    exact hcovers w hw

theorem Holdings.wp_sendSegments {sock : Sock} {sa : Sockaddr} {segment : UInt16}
    {rounds sent : Nat} (h : g.Has H) (hcovers : ∀ w ∈ batch, g.Covers w.buffer) :
    (sendSegments sock sa segment rounds batch sent).wp (ledger size shards) g fun _ g' =>
      g' = g := by
  induction rounds generalizing batch sent with
  | zero => rfl
  | succ rounds ih =>
      cases batch with
      | nil => rfl
      | cons p rest =>
          simp only [sendSegments]
          split_ifs
          · rfl
          refine wp_seq (wp_plain trivial h ?_) fun res g₁ h₁ => ?_
          · intro s hs
            obtain ⟨w, hw, rfl⟩ := List.mem_map.mp hs
            exact hcovers w (List.mem_of_mem_take hw)
          subst h₁
          cases res with
          | some err => rfl
          | none => exact ih fun w hw => hcovers w (List.mem_of_mem_drop hw)

theorem Holdings.wp_sendBatch {rt : Runtime} {writer : BatchWriter} (h : g.Has H)
    (hcovers : ∀ w ∈ batch, g.Covers w.buffer) :
    (sendBatch rt writer batch).wp (ledger size shards) g fun _ g' => g' = g := by
  unfold sendBatch
  split
  · refine wp_seq (R := fun _ g' => g' = g) ?_ fun _ _ h₁ => h₁
    unfold sendUDPGSO
    split
    · rfl
    · split
      · rfl
      · exact wp_sendSegments h hcovers
  · exact wp_write h hcovers

/-- Counting touches no buffer. -/
theorem Holdings.wp_reportWrite {written : Int} {expected : Nat} {writeErr : Option NetError}
    (h : g.Has H) :
    (reportWrite written writeErr expected).wp (ledger size shards) g fun _ g' => g' = g := by
  refine wp_onlyIf (wp_seq (wp_count h _ _) fun _ g₁ h₁ => ?_)
  subst h₁
  exact wp_plain trivial h trivial

/-- A flush sends from the buffers of the batch and then releases them. -/
theorem Holdings.wp_flushBatch {rt : Runtime} {writer : BatchWriter}
    (h : g.Has (writeEntries batch + F)) (hown : OwnsPayloads batch) :
    (flushBatch rt writer batch).wp (ledger size shards) g fun _ g' => g'.Has F := by
  unfold flushBatch
  split_ifs with hempty
  · rw [List.length_eq_zero_iff.mp hempty, writeEntries_nil, zero_add] at h
    exact h
  refine wp_seq (wp_sendBatch h (h.covers_batch hown)) fun res g₁ h₁ => ?_
  subst h₁
  refine wp_seq (wp_releaseAll WritePacket.owner WritePacket.batchSlot h) fun _ g₂ h₂ => ?_
  refine wp_mono (wp_reportWrite h₂) fun _ g₃ h₃ => ?_
  rwa [h₃]

end Write

/-! ## Requests -/

/-- The buffers of both batches. -/
def Batches.entries (b : Batches size) : Multiset Entry :=
  writeEntries b.preferredBatch + writeEntries b.fallbackBatch

/-- What the pump keeps true of its batches: every write sends part of the buffer it
owns, and without a fallback socket nothing is queued for it. -/
structure Batches.Owned (a : Association) (b : Batches size) : Prop where
  preferred : OwnsPayloads b.preferredBatch
  fallback : OwnsPayloads b.fallbackBatch
  empty : a.fallbackV4 = none → b.fallbackBatch = []

section Inbound

variable {g : Holdings} {F : Multiset Entry} {rt : Runtime} {a : Association} {b : Batches size}

/-- A packet in a batch takes its buffer along. -/
theorem Batches.entries_enqueue (pkt : InboundPacket size) (target : AddrPort) :
    (b.enqueue a pkt target).entries = pkt.entry ::ₘ b.entries := by
  unfold Batches.enqueue
  split_ifs
  · simp only [Batches.entries, writeEntries_concat, Multiset.add_cons]
    rfl
  · simp only [Batches.entries, writeEntries_concat, Multiset.cons_add]
    rfl

/-- And its payload stays in it. -/
theorem Batches.Owned.enqueue (h : b.Owned a) {pkt : InboundPacket size}
    (hpkt : pkt.payload.IsPartOf pkt.buffer) (target : AddrPort) :
    (b.enqueue a pkt target).Owned a := by
  unfold Batches.enqueue
  split_ifs with hfallback
  · exact ⟨h.preferred, h.fallback.concat hpkt, by simp [hfallback.2]⟩
  · exact ⟨h.preferred.concat hpkt, h.fallback, h.empty⟩

/-- A job that the queue takes takes its buffer along. -/
theorem Holdings.wp_trySend {shard : Nat} {job : SendJob size} (h : g.Has (job.entry ::ₘ F))
    (hshard : shard < shards) (hpart : job.packet.payload.IsPartOf job.packet.buffer) :
    (perform (.trySend shard job)).wp (ledger size shards) g fun sent g' =>
      g'.Has (if sent then F else job.entry ::ₘ F) := by
  have hmem : job.entry ∈ g.held := h.held ▸ Multiset.mem_cons_self _ _
  refine ⟨⟨by simp [h.reserved], hshard, hmem, hpart⟩, ?_⟩
  rintro sent g' ⟨rfl, -⟩
  cases sent with
  | false => exact h
  | true =>
      refine ⟨?_, h.reserved, ?_⟩
      · simp [Holdings.next, h.held]
      · have hnodup := h.nodup
        rw [← Multiset.cons_erase hmem, Multiset.map_cons, Multiset.cons_add] at hnodup
        exact (Multiset.nodup_cons.mp hnodup).2

/-- A job that was queued is no longer the dispatcher's. -/
theorem Holdings.wp_dispatch {job : SendJob size} (h : g.Has (job.entry ::ₘ F))
    (hpart : job.packet.payload.IsPartOf job.packet.buffer) :
    (dispatch rt job).wp (ledger size rt.shardCount) g fun sent g' =>
      g'.Has (if sent then F else job.entry ::ₘ F) := by
  refine wp_seq (wp_plain (o := .lifetimeErr) trivial h trivial) fun ended g₁ h₁ => ?_
  subst h₁
  cases ended with
  | true => exact h
  | false =>
      refine wp_seq (wp_trySend h (Nat.mod_lt _ rt.shardCount_pos) hpart) fun sent g₂ h₂ => ?_
      cases sent with
      | true => exact wp_seq (wp_count h₂ _ _) fun _ _ h₃ => h₃ ▸ h₂
      | false => exact wp_seq (wp_count h₂ _ _) fun _ _ h₃ => h₃ ▸ h₂

theorem Holdings.wp_cachedTargetForFamily {H : Multiset Entry} (h : g.Has H) (domain : List UInt8)
    (port : UInt16) (preferredV4 : Bool) (fallbackV4 : Option Bool) :
    (cachedTargetForFamily domain port preferredV4 fallbackV4).wp (ledger size shards) g
      fun _ g' => g' = g := by
  refine wp_seq (wp_plain (o := .lookupCachedHost domain) trivial h trivial) fun res g₁ h₁ => ?_
  cases res with
  | none => exact h₁
  | some addrs => exact h₁

/-- A packet is released, kept in a batch, or handed to the queue. -/
theorem Holdings.wp_processInbound {pkt : InboundPacket size}
    (h : g.Has (pkt.entry ::ₘ (b.entries + F)))
    (hpart : pkt.payload.IsPartOf pkt.buffer) (hb : b.Owned a) :
    (processInbound rt a b pkt).wp (ledger size rt.shardCount) g fun p g' =>
      g'.Has (p.1.entries + F) ∧ p.1.Owned a := by
  have hqueued (target : AddrPort) {g : Holdings} (h : g.Has (pkt.entry ::ₘ (b.entries + F))) :
      g.Has ((((b.accept pkt).enqueue a pkt target).entries) + F) := by
    refine h.congr ?_
    rw [Batches.entries_enqueue, Multiset.cons_add]
    rfl
  have haccept : (b.accept pkt).Owned a := ⟨hb.preferred, hb.fallback, hb.empty⟩
  simp only [processInbound, pure_eq]
  split_ifs
  · refine wp_seq (wp_count h _ _) fun _ g₁ h₁ => ?_
    subst h₁
    exact wp_seq (wp_releaseBuffer h) fun _ _ h₂ => ⟨h₂, hb⟩
  · refine wp_seq (wp_count h _ _) fun _ g₁ h₁ => ?_
    subst h₁
    exact wp_seq (wp_releaseBuffer h) fun _ _ h₂ => ⟨h₂, hb⟩
  · refine wp_seq (wp_plain (o := .storePort pkt.src.port.toUInt32) trivial h trivial)
      fun _ g₁ h₁ => ?_
    subst h₁
    cases pkt.dst with
    | socket ap => exact ⟨hqueued _ h, haccept.enqueue hpart _⟩
    | domain name port =>
        refine wp_seq (wp_cachedTargetForFamily h _ _ _ _) fun target g₂ h₂ => ?_
        subst h₂
        cases target with
        | some target => exact ⟨hqueued _ h, haccept.enqueue hpart _⟩
        | none =>
            refine wp_seq (wp_dispatch h hpart) fun sent g₃ h₃ => ?_
            cases sent with
            | true => exact ⟨h₃, haccept⟩
            | false => exact wp_seq (wp_releaseBuffer h₃) fun _ _ h₄ => ⟨h₄, haccept⟩

/-- A packet is given back or is in a batch afterwards. -/
theorem Holdings.wp_relayPacket {packet : ReadPacket size}
    (h : g.Has (packet.entry ::ₘ (b.entries + F))) (hb : b.Owned a) :
    (relayPacket rt a b packet).wp (ledger size rt.shardCount) g fun b' g' =>
      g'.Has (b'.entries + F) ∧ b'.Owned a := by
  simp only [relayPacket, pure_eq]
  split_ifs
  · refine wp_seq (wp_count h _ _) fun _ g₁ h₁ => ?_
    subst h₁
    exact wp_seq (wp_releaseBuffer h) fun _ _ h₂ => ⟨h₂, hb⟩
  · refine wp_bind.mpr (wp_slice fun datagram _ => ?_)
    cases Socks.parseUdpHeader datagram.bytes with
    | error err =>
        refine wp_seq (wp_count h _ _) fun _ g₁ h₁ => ?_
        subst h₁
        exact wp_seq (wp_releaseBuffer h) fun _ _ h₂ => ⟨h₂, hb⟩
    | ok parsed =>
        refine wp_bind.mpr (wp_slice fun payload hpart => ?_)
        refine wp_seq (wp_processInbound h hpart hb) fun p g₁ h₁ => ?_
        exact ⟨h₁.1, h₁.2.preferred, h₁.2.fallback, h₁.2.empty⟩

/-- The loop of `inboundPump` leaves the batches. -/
theorem Holdings.wp_relayPackets {packets : List (ReadPacket size)}
    (h : g.Has (readEntries packets + b.entries)) (hb : b.Owned a) :
    (packets.foldlM (relayPacket rt a) b).wp (ledger size rt.shardCount) g fun b' g' =>
      g'.Has b'.entries ∧ b'.Owned a := by
  refine wp_mono (wp_foldlM (fun rest b (g : Holdings) =>
    g.Has (readEntries rest + b.entries) ∧ b.Owned a) ?_ ⟨h, hb⟩) fun b' g' h' => ?_
  · intro packet rest b g ⟨hg, hb⟩
    rw [readEntries_cons, Multiset.cons_add, add_comm] at hg
    refine wp_mono (wp_relayPacket hg hb) fun b' g' h' => ?_
    rwa [add_comm]
  · rwa [readEntries_nil, zero_add] at h'

/-- A flush gives back what the batches have. -/
theorem Holdings.wp_flushBatches {b : Batches size} (h : g.Has b.entries) (hb : b.Owned a) :
    (a.flushBatches rt b).wp (ledger size shards) g fun rest g' => g'.Has 0 ∧ rest = [] := by
  simp only [Association.flushBatches, pure_eq]
  refine wp_seq (wp_onlyIf (wp_seq (wp_count h _ _) ?_)) fun _ g₁ h₁ => ?_
  · rintro _ _ rfl
    exact wp_count h _ _
  subst h₁
  refine wp_seq (wp_flushBatch h hb.preferred) fun _ g₂ h₂ => ?_
  cases hfallback : a.fallbackV4 with
  | none =>
      have hempty := hb.empty hfallback
      rw [hempty] at h₂
      simpa only [Association.fallbackWriter, hfallback] using ⟨h₂, hempty⟩
  | some v4 =>
      simp only [Association.fallbackWriter, hfallback, Option.map_some]
      exact wp_seq (wp_flushBatch (h₂.congr (add_zero _).symm) hb.fallback)
        fun _ _ h₃ => ⟨h₃, rfl⟩

theorem Holdings.wp_reportRead {H : Multiset Entry} {err : NetError} (h : g.Has H) :
    (reportRead err).wp (ledger size shards) g fun _ g' => g' = g := by
  refine wp_seq (wp_plain (o := .ctxErr) trivial h trivial) fun ended g₁ h₁ => ?_
  subst h₁
  cases ended with
  | true => rfl
  | false =>
      simp only [Bool.false_eq_true, if_false]
      split_ifs
      · rfl
      · refine wp_seq (wp_count h _ _) fun _ g₂ h₂ => ?_
        subst h₂
        exact wp_plain (o := .reportUDPError err) trivial h trivial

/-- A call of `inboundPump` holds nothing at its end. -/
theorem Holdings.wp_inboundPump {st : InboundPump size} (hpreferred : st.preferredBatch = [])
    (hfallback : st.fallbackBatch = []) (h : g.HasFresh 0) :
    (inboundPump rt a st).wp (ledger size rt.shardCount) g fun st' g' => g'.Has 0 ∧
      ∀ st₁, st' = some st₁ → st₁.preferredBatch = [] ∧ st₁.fallbackBatch = [] := by
  refine wp_seq (wp_read h) fun ⟨res, batchDisabled⟩ g₁ h₁ => ?_
  cases res with
  | error err => exact wp_seq (wp_reportRead h₁) fun _ _ h₂ => ⟨h₂ ▸ h₁, by simp⟩
  | ok packets =>
      rw [hpreferred, hfallback]
      refine wp_seq (wp_relayPackets (h₁.congr (add_zero _).symm) ⟨by simp [OwnsPayloads],
        by simp [OwnsPayloads], fun _ => rfl⟩) fun b g₂ h₂ => ?_
      refine wp_seq (wp_flushBatches h₂.1 h₂.2) fun rest g₃ h₃ => ?_
      refine wp_seq (wp_onlyIf (wp_plain (o := .touch) trivial h₃.1 trivial)) fun _ g₄ h₄ => ?_
      subst h₄
      refine ⟨h₃.1, fun st₁ hst₁ => ?_⟩
      obtain rfl := Option.some.inj hst₁
      exact ⟨rfl, h₃.2⟩

end Inbound

/-! ## Responses -/

section Respond

variable {g : Holdings} {F : Multiset Entry} {rt : Runtime}

/-- The writes of a list of responses. -/
def responses (writes : List (WritePacket size × Nat)) : List (WritePacket size) :=
  writes.map Prod.fst

/-- A reply is written into the buffer of its packet. -/
theorem Holdings.wp_prepareUDPResponse {payload : Slice} {buffer : Buffer size}
    {remote : AddrPort} :
    (prepareUDPResponse payload buffer remote).wp (ledger size shards) g fun p g' =>
      g' = g ∧ p.2.id = buffer.id ∧ p.1.IsPartOf p.2 := by
  simp only [prepareUDPResponse, pure_eq]
  split_ifs
  · exact wp_bind.mpr (wp_slice fun _ _ => wp_bind.mpr (wp_slice fun _ hpart => ⟨rfl, rfl, hpart⟩))
  · exact wp_bind.mpr (wp_slice fun _ _ => wp_bind.mpr (wp_slice fun _ hpart => ⟨rfl, rfl, hpart⟩))
  · exact ⟨rfl, rfl, fun id hid => by simp at hid⟩

/-- A packet is given back or has its reply afterwards. -/
theorem Holdings.wp_respondPacket {clientAddr : AddrPort} {writes : List (WritePacket size × Nat)}
    {packet : ReadPacket size} (h : g.Has (packet.entry ::ₘ (writeEntries (responses writes) + F)))
    (hown : OwnsPayloads (responses writes)) :
    (respondPacket clientAddr writes packet).wp (ledger size shards) g fun writes' g' =>
      g'.Has (writeEntries (responses writes') + F) ∧ OwnsPayloads (responses writes') := by
  simp only [respondPacket, pure_eq]
  split_ifs
  · refine wp_seq (wp_count h _ _) fun _ g₁ h₁ => ?_
    subst h₁
    exact wp_seq (wp_releaseBuffer h) fun _ _ h₂ => ⟨h₂, hown⟩
  · exact wp_seq (wp_releaseBuffer h) fun _ _ h₂ => ⟨h₂, hown⟩
  · refine wp_bind.mpr (wp_slice fun payload _ => ?_)
    refine wp_seq wp_prepareUDPResponse ?_
    rintro ⟨response, buffer⟩ g₁ ⟨rfl, hid, hpart⟩
    have hentry : WritePacket.entry ⟨response, buffer, clientAddr, packet.batchSlot⟩ =
        packet.entry := by
      rw [WritePacket.entry, ReadPacket.entry, hid]
    simp only [wp_ret, responses, List.map_append, List.map_cons, List.map_nil]
    refine ⟨?_, hown.concat hpart⟩
    rwa [writeEntries_concat, hentry, Multiset.cons_add]

/-- And so are all packets of a read. -/
theorem Holdings.wp_respondPackets {clientAddr : AddrPort} {packets : List (ReadPacket size)}
    (h : g.Has (readEntries packets)) :
    (packets.foldlM (respondPacket clientAddr) []).wp (ledger size shards) g fun writes g' =>
      g'.Has (writeEntries (responses writes)) ∧ OwnsPayloads (responses writes) := by
  refine wp_mono (wp_foldlM (fun rest writes (g : Holdings) =>
    g.Has (readEntries rest + writeEntries (responses writes)) ∧ OwnsPayloads (responses writes))
    ?_ ⟨h.congr (add_zero _).symm, by simp [OwnsPayloads, responses]⟩) fun writes g' h' => ?_
  · intro packet rest writes g ⟨hg, hown⟩
    rw [readEntries_cons, Multiset.cons_add, add_comm] at hg
    refine wp_mono (wp_respondPacket hg hown) fun writes' g' h' => ?_
    rwa [add_comm]
  · rwa [readEntries_nil, zero_add] at h'

/-- The buffers of the replies are given back. -/
theorem Holdings.wp_respond {p : Responder} {writes : List (WritePacket size × Nat)}
    (h : g.Has (writeEntries (responses writes))) (hown : OwnsPayloads (responses writes)) :
    (p.respond writes).wp (ledger size shards) g fun _ g' => g'.Has 0 := by
  rw [← add_zero (writeEntries (responses writes))] at h
  refine wp_seq (wp_write h (h.covers_batch hown)) fun res g₁ h₁ => ?_
  subst h₁
  rw [writeEntries, responses, List.map_map] at h
  refine wp_seq (wp_releaseAll (fun w : WritePacket size × Nat => w.1.owner)
    (fun w => w.1.batchSlot) h) fun _ g₂ h₂ => ?_
  refine wp_seq (wp_onlyIf (wp_seq (wp_count h₂ _ _) ?_)) fun _ g₃ h₃ => ?_
  · rintro _ _ rfl
    exact wp_count h₂ _ _
  subst h₃
  refine wp_seq (wp_reportWrite h₂) fun _ g₄ h₄ => ?_
  subst h₄
  exact wp_mono (wp_onlyIf (wp_plain (o := .touch) trivial h₂ trivial)) fun _ _ h₅ => h₅ ▸ h₂

/-- A call of `pumpOnce` holds nothing at its end. -/
theorem Holdings.wp_pumpOnce {p : Responder} {batchDisabled : Bool} (h : g.HasFresh 0) :
    (p.pumpOnce rt batchDisabled).wp (ledger size shards) g fun _ g' => g'.Has 0 := by
  refine wp_seq (wp_read h) fun ⟨res, batchDisabled⟩ g₁ h₁ => ?_
  cases res with
  | error err => exact wp_seq (wp_reportRead h₁) fun _ _ h₂ => h₂ ▸ h₁
  | ok packets =>
      refine wp_seq (wp_plain (o := .loadPort) trivial h₁ trivial) fun port g₂ h₂ => ?_
      subst h₂
      refine wp_seq (wp_respondPackets h₁) fun writes g₃ h₃ => ?_
      exact wp_seq (wp_respond h₃.1 h₃.2) fun _ _ h₄ => h₄

end Respond

/-! ## Workers and threads -/

section Threads

variable {g : Holdings} {rt : Runtime} {a : Association}

/-- A job gives its buffer back when it has run. -/
theorem Holdings.wp_runSendJob {job : SendJob size} (h : g.Has {job.entry})
    (hpart : job.packet.payload.IsPartOf job.packet.buffer) :
    (runSendJob job).wp (ledger size shards) g fun _ g' => g'.Has 0 := by
  refine wp_seq (wp_count h _ _) fun _ g₁ h₁ => ?_
  subst h₁
  refine wp_seq (wp_plain (o := .ctxErr) trivial h trivial) fun ended g₂ h₂ => ?_
  subst h₂
  have hcovers : g₂.Covers job.packet.payload := h.covers hpart (Multiset.mem_singleton_self _)
  refine wp_seq (wp_onlyIf ?_) fun _ g₃ h₃ => ?_
  · refine wp_seq (wp_plain (o := .sendPacket job) trivial h hcovers) fun err g₃ h₃ => ?_
    subst h₃
    cases err with
    | none => rfl
    | some err =>
        refine wp_seq (wp_count h _ _) fun _ g₄ h₄ => ?_
        subst h₄
        exact wp_plain (o := .reportUDPError err) trivial h trivial
  · subst h₃
    exact wp_releaseBuffer h

/-- What a receive leaves: the buffer of the job, if there is one. -/
def JobHas (res : Option (SendJob size)) (g : Holdings) : Prop :=
  match res with
  | none => g.AtRest
  | some job => g.Has {job.entry} ∧ job.packet.payload.IsPartOf job.packet.buffer

theorem has_of_received {e : Entry} (h : g.AtRest) :
    ({ g with held := e ::ₘ g.held, returned := 0 } : Holdings).Has {e} :=
  ⟨by rw [h.1]; rfl, h.2, by simp [h.1]⟩

/-- A job comes with its buffer. -/
theorem Holdings.wp_selectJob {shard : Nat} (hshard : shard < shards) (h : g.AtRest) :
    (perform (.selectJob shard)).wp (ledger size shards) g fun res g' => JobHas res g' := by
  refine ⟨⟨by simp [h.2], h, hshard⟩, ?_⟩
  rintro res g' ⟨rfl, hpart, -⟩
  cases res with
  | none => exact h
  | some job => exact ⟨has_of_received h, hpart⟩

/-- So it does behind the end. -/
theorem Holdings.wp_tryReceive {shard : Nat} (hshard : shard < shards) (h : g.AtRest) :
    (perform (.tryReceive shard)).wp (ledger size shards) g fun res g' => JobHas res g' := by
  refine ⟨⟨by simp [h.2], h, hshard⟩, ?_⟩
  rintro res g' ⟨rfl, hpart, -⟩
  cases res with
  | none => exact h
  | some job => exact ⟨has_of_received h, hpart⟩

/-- A worker gives back what is left in its queue. -/
theorem Holdings.wp_drainShard {shard fuel : Nat} (hshard : shard < shards) (h : g.AtRest) :
    (drainShard shard fuel).wp (ledger size shards) g fun _ g' => g'.AtRest := by
  induction fuel generalizing g with
  | zero => exact h
  | succ fuel ih =>
      rw [drainShard]
      refine wp_seq (wp_tryReceive hshard h) fun res g₁ h₁ => ?_
      cases res with
      | none => exact h₁
      | some job =>
          refine wp_seq (wp_count h₁.1 _ _) fun _ g₂ h₂ => ?_
          subst h₂
          exact wp_seq (wp_releaseBuffer h₁.1) fun _ _ h₃ => ih h₃.atRest

/-- A round of a worker keeps nothing. -/
theorem Holdings.wp_workerRound {shard fuel : Nat} (hshard : shard < shards) (h : g.AtRest) :
    (workerRound shard fuel).wp (ledger size shards) g fun _ g' => g'.AtRest := by
  refine wp_seq (wp_selectJob hshard h) fun res g₁ h₁ => ?_
  cases res with
  | none => exact wp_seq (wp_drainShard hshard h₁) fun _ _ h₂ => h₂
  | some job => exact wp_seq (wp_runSendJob h₁.1 h₁.2) fun _ _ h₂ => h₂.atRest

/-- A pump is called with empty hands. -/
theorem Holdings.wp_pump {sock : Sock} (h : g.AtRest) :
    (perform (.pump sock)).wp (ledger size shards) g fun _ g' => g'.HasFresh 0 := by
  refine ⟨⟨by simp [h.2], h⟩, ?_⟩
  rintro _ g' ⟨rfl, -⟩
  refine ⟨⟨h.1, h.2, ?_⟩, rfl⟩
  simp [Holdings.next, h.1]

/-- Neither does the inbound thread. -/
theorem Holdings.wp_inboundThread {rounds : Nat} (h : g.AtRest) :
    (inboundThread rt a rounds).wp (ledger rt.bufferSize rt.shardCount) g fun _ g' =>
      g'.AtRest := by
  refine wp_iterate (fun st (g : Holdings) => st.preferredBatch = [] ∧ st.fallbackBatch = [] ∧
    g.AtRest) (fun _ _ h => h.2.2) ?_ ⟨rfl, rfl, h⟩
  intro st g ⟨hpreferred, hfallback, hg⟩
  refine wp_seq (wp_pump hg) fun _ g₁ h₁ => ?_
  refine wp_mono (wp_inboundPump hpreferred hfallback h₁) fun st' g₂ h₂ => ?_
  cases st' with
  | none => exact h₂.1.atRest
  | some st₁ =>
      obtain ⟨hpreferred₁, hfallback₁⟩ := h₂.2 st₁ rfl
      exact ⟨hpreferred₁, hfallback₁, h₂.1.atRest⟩

/-- Nor the responder. -/
theorem Holdings.wp_responderThread {outbound : Sock} {rounds : Nat} (h : g.AtRest) :
    (responderThread rt a outbound rounds).wp (ledger rt.bufferSize shards) g fun _ g' =>
      g'.AtRest := by
  refine wp_iterate (fun _ (g : Holdings) => g.AtRest) (fun _ _ h => h) ?_ h
  intro batchDisabled g hg
  refine wp_seq (wp_pump hg) fun _ g₁ h₁ => ?_
  refine wp_mono (wp_pumpOnce h₁) fun disabled' g₂ h₂ => ?_
  cases disabled' with
  | none => exact h₂.atRest
  | some _ => exact h₂.atRest

/-- Nor the worker. -/
theorem Holdings.wp_workerThread {shard rounds fuel : Nat} (hshard : shard < shards)
    (h : g.AtRest) :
    (workerThread rt shard rounds fuel).wp (ledger rt.bufferSize shards) g fun _ g' =>
      g'.AtRest := by
  refine wp_iterate (fun _ (g : Holdings) => g.AtRest) (fun _ _ h => h) ?_ h
  intro _ g hg
  refine wp_mono (wp_workerRound hshard hg) fun r g₁ h₁ => ?_
  cases r with
  | none => exact h₁
  | some _ => exact h₁

end Threads

end Outway.Udp
