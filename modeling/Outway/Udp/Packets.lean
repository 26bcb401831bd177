import Outway.Udp.Association

/-!
# Outway.Udp.Packets

What the packets of a read contain.

`groPayloads` says which payloads `readGRO` makes of one read, and
`wp_groPackets` that the code does.  This and the other parts of a read that
touch no socket are specified once, for every contract under which the local
operations of the runtime keep an invariant (`KeepsLocal`).
-/

namespace Outway.Udp

open Prog

variable {size : Nat}

/-! ## Payloads -/

/-- The bytes of a packet that was read to offset `offset` of its buffer. -/
def ReadPacket.payload (offset : Nat) (p : ReadPacket size) : List UInt8 :=
  (p.buffer.bytes.drop offset).take p.n

/-- The payloads and sources of the packets that are not marked truncated. -/
def relayed (offset : Nat) (packets : List (ReadPacket size)) : List (List UInt8 × AddrPort) :=
  packets.flatMap fun p => if p.truncated then [] else [(p.payload offset, p.addr)]

/-- `p` is a whole datagram `data` from `src`. -/
structure ReadPacket.Carries (offset : Nat) (data : List UInt8) (src : AddrPort)
    (p : ReadPacket size) : Prop where
  truncated : p.truncated = false
  addr : p.addr = src
  payload : p.payload offset = data
  n : p.n = data.length

/-- Packets that carry certain bytes relay them. -/
theorem relayed_of_carries {offset : Nat} {src : AddrPort} {β : Type} {f : β → List UInt8}
    {packets : List (ReadPacket size)} {l : List β}
    (h : List.Forall₂ (fun p b => p.Carries offset (f b) src) packets l) :
    relayed offset packets = l.map fun b => (f b, src) := by
  induction h with
  | nil => rfl
  | cons hp _ ih =>
      rw [List.map_cons, ← ih, ← hp.payload, ← hp.addr]
      simp [relayed, hp.truncated]

/-- The payload is what was read into the buffer. -/
theorem payload_overwrite {b : Buffer size} {offset : Nat} {data : List UInt8} {src : AddrPort}
    {truncated slot : Bool} (h : offset + data.length ≤ size) :
    ReadPacket.payload offset ⟨b.overwrite offset data, data.length, src, truncated, slot⟩ = data :=
  take_drop_overwrite (b.length_bytes.symm ▸ h)

/-- Filling an array that has the room. -/
theorem foldlM_push {α β : Type} {cap : Nat} {f : β → α} {l : List β} {xs : List α}
    (h : xs.length + l.length ≤ cap) :
    (l.foldlM (fun xs b => push cap xs (f b)) xs : Relay size (List α)) = .ret (xs ++ l.map f) := by
  induction l generalizing xs with
  | nil => simp
  | cons b l ih =>
      rw [List.length_cons] at h
      have hpush : (push cap xs (f b) : Relay size (List α)) = .ret (xs ++ [f b]) := by
        rw [push, if_pos (by omega)]
      rw [List.foldlM_cons, hpush, ret_bind, ih (by simp; omega), List.map_cons,
        List.append_assoc, List.singleton_append]

/-! ## Segments -/

theorem groMaxSegments_pos : 0 < groMaxSegments := by decide

/-- Segment `i` of a coalesced read. -/
def segmentAt (data : List UInt8) (segmentSize i : Nat) : List UInt8 :=
  (data.drop (i * segmentSize)).take segmentSize

/-- The payloads of one read of `readGRO`. -/
def groPayloads (limit : Nat) (msgTrunc : Bool) (data : List UInt8) (segmentSize : Nat) :
    List (List UInt8) :=
  if msgTrunc then []
  else if segmentSize = 0 ∨ limit < segmentSize ∨ data.length ≤ segmentSize then
    if limit < data.length then [] else [data]
  else (List.range (min (segmentCount data.length segmentSize) groMaxSegments)).map
    (segmentAt data segmentSize)

/-- The segments suffice for the read, and fewer do not. -/
theorem segmentCount_le_iff {n segmentSize k : Nat} (hpos : 0 < segmentSize) :
    segmentCount n segmentSize ≤ k ↔ n ≤ k * segmentSize := by
  have hn := Nat.div_add_mod' n segmentSize
  have hmod := Nat.mod_lt n hpos
  unfold segmentCount
  split_ifs with hrest
  · rw [Nat.succ_le_iff, Nat.div_lt_iff_lt_mul hpos, Nat.lt_iff_le_and_ne, and_iff_left_iff_imp]
    rintro - rfl
    exact hrest.ne' (Nat.mul_mod_left k segmentSize)
  · rw [← Nat.mul_le_mul_right_iff hpos]
    omega

/-- No segment is empty. -/
theorem mul_lt_of_lt_segmentCount {n segmentSize i : Nat} (hpos : 0 < segmentSize)
    (hi : i < segmentCount n segmentSize) : i * segmentSize < n :=
  Nat.lt_of_not_le fun h => Nat.not_lt.mpr ((segmentCount_le_iff hpos).mpr h) hi

/-- The length the code computes for a segment is what is left of the read, up to the
segment size. -/
theorem segmentLen_eq {n segmentSize i : Nat} (hpos : 0 < segmentSize)
    (hi : i < segmentCount n segmentSize) :
    segmentLen n segmentSize i = min segmentSize (n - i * segmentSize) := by
  have hn := Nat.div_add_mod' n segmentSize
  have hmod := Nat.mod_lt n hpos
  unfold segmentLen
  unfold segmentCount at hi
  by_cases hlast : i = n / segmentSize
  · rw [if_pos hlast, hlast]
    omega
  · have hfull : i < n / segmentSize := by
      split_ifs at hi <;> omega
    have hle := Nat.mul_le_mul_right segmentSize (Nat.succ_le_of_lt hfull)
    rw [Nat.succ_mul] at hle
    rw [if_neg hlast]
    omega

/-- The length of a segment. -/
theorem length_segmentAt {data : List UInt8} {segmentSize i : Nat} (hpos : 0 < segmentSize)
    (hi : i < segmentCount data.length segmentSize) :
    (segmentAt data segmentSize i).length = segmentLen data.length segmentSize i := by
  rw [segmentLen_eq hpos hi, segmentAt, List.length_take, List.length_drop]

/-- A segment of the read, found in the buffer that was read to. -/
theorem take_drop_eq_segmentAt {bytes data : List UInt8} {offset segmentSize i : Nat}
    (hdata : (bytes.drop offset).take data.length = data) (hpos : 0 < segmentSize)
    (hi : i < segmentCount data.length segmentSize) :
    (bytes.drop (offset + i * segmentSize)).take (segmentLen data.length segmentSize i) =
      segmentAt data segmentSize i := by
  have hle := mul_lt_of_lt_segmentCount hpos hi
  have hdrop : data.drop (i * segmentSize) =
      (bytes.drop (offset + i * segmentSize)).take (data.length - i * segmentSize) := by
    conv_lhs => rw [← hdata]
    rw [List.drop_take, List.drop_drop]
  rw [segmentAt, hdrop, List.take_take, segmentLen_eq hpos hi]

/-! ## The split -/

/-- The operations that touch no socket, no port and no queue of jobs. -/
def Op.IsLocal : Op size → Prop
  | .getBuffer | .putBuffer _ | .sendBatchSlot | .recvBatchSlot _ | .count _ _
  | .reportUDPError _ => True
  | _ => False

/-- Under the contract `C`, local operations keep `I`. -/
def KeepsLocal {G : Type} (C : Contract (Op size) Res G) (I : G → Prop) : Prop :=
  ∀ g o, I g → o.IsLocal → C.ok g o ∧ ∀ r g', C.trans g o r g' → I g'

section Local

variable {G : Type} {C : Contract (Op size) Res G} {I : G → Prop} {g : G}

/-- A single local operation. -/
theorem KeepsLocal.wp_perform (hC : KeepsLocal C I) (hg : I g) {o : Op size} (ho : o.IsLocal) :
    (perform o).wp C g fun _ g' => I g' := hC g o hg ho

/-- Giving a buffer back keeps what such operations keep. -/
theorem KeepsLocal.wp_releaseBuffer (hC : KeepsLocal C I) (hg : I g) (buf : Buffer size)
    (slot : Bool) : (releaseBuffer buf slot).wp C g fun _ g' => I g' := by
  cases slot with
  | false => exact hC.wp_perform hg trivial
  | true => exact wp_seq (hC.wp_perform hg trivial) fun _ _ hg' => hC.wp_perform hg' trivial

theorem KeepsLocal.wp_onlyIf (hg : I g) {c : Prop} [Decidable c] {p : Relay size Unit}
    (h : p.wp C g fun _ g' => I g') : (onlyIf c p).wp C g fun _ g' => I g' := by
  unfold onlyIf
  split_ifs
  · exact h
  · exact hg

/-- So does counting what was sent. -/
theorem KeepsLocal.wp_reportWrite (hC : KeepsLocal C I) (hg : I g) (written : Int) (expected : Nat)
    (writeErr : Option NetError) :
    (reportWrite written writeErr expected).wp C g fun _ g' => I g' :=
  KeepsLocal.wp_onlyIf hg <|
    wp_seq (hC.wp_perform hg trivial) fun _ _ hg' => hC.wp_perform hg' trivial

/-- So does giving back all buffers of a list. -/
theorem KeepsLocal.wp_releaseAll (hC : KeepsLocal C I) {β : Type} (buf : β → Buffer size)
    (slot : β → Bool) (hg : I g) (l : List β) :
    (l.forM fun b => releaseBuffer (buf b) (slot b)).wp C g fun _ g' => I g' :=
  wp_forM (fun _ g => I g) (fun b _ _ hg => hC.wp_releaseBuffer hg (buf b) (slot b)) hg

/-- A slice that lies in its buffer. -/
theorem wp_slice_of_le {b : Buffer size} {lo hi : Nat} {Q : Slice → G → Prop}
    (hlo : lo ≤ hi) (hhi : hi ≤ size) (h : Q ⟨some b.id, (b.bytes.drop lo).take (hi - lo)⟩ g) :
    (b.slice lo hi).wp C g Q := by
  rw [Buffer.slice, if_pos ⟨hlo, hhi⟩]
  exact h

/-- An append that has room. -/
theorem wp_push_of_lt {α : Type} {cap : Nat} {xs : List α} {x : α} {Q : List α → G → Prop}
    (hcap : xs.length < cap) (h : Q (xs ++ [x]) g) : (push cap xs x : Relay size _).wp C g Q := by
  rw [push, if_pos hcap]
  exact h

theorem wp_checkLen_of_le {n cap : Nat} {Q : Unit → G → Prop} (hcap : n ≤ cap)
    (h : Q () g) : (checkLen n cap : Relay size Unit).wp C g Q := by
  rw [checkLen, if_pos hcap]
  exact h

/-! Where a panic may end the run, what is out of range needs no proof. -/

/-- Where a fault does not count, a slice is what lies in the buffer. -/
theorem wp_slice_of_fault (hfault : C.fault) {b : Buffer size} {lo hi : Nat}
    {Q : Slice → G → Prop} (h : Q ⟨some b.id, (b.bytes.drop lo).take (hi - lo)⟩ g) :
    (b.slice lo hi).wp C g Q := by
  unfold Buffer.slice
  split_ifs
  · exact h
  · exact hfault

theorem wp_window_of_fault (hfault : C.fault) {b : Buffer size} {lo hi : Nat}
    {Q : Window → G → Prop} (h : Q ⟨b.id, hi - lo⟩ g) : (b.window lo hi).wp C g Q := by
  unfold Buffer.window
  split_ifs
  · exact h
  · exact hfault

/-- And an append goes through. -/
theorem wp_push_of_fault (hfault : C.fault) {α : Type} {cap : Nat} {xs : List α} {x : α}
    {Q : List α → G → Prop} (h : Q (xs ++ [x]) g) : (push cap xs x : Relay size _).wp C g Q := by
  unfold push
  split_ifs
  · exact h
  · exact hfault

theorem wp_checkLen_of_fault (hfault : C.fault) {n cap : Nat} {Q : Unit → G → Prop} (h : Q () g) :
    (checkLen n cap : Relay size Unit).wp C g Q := by
  unfold checkLen
  split_ifs
  · exact h
  · exact hfault

/-- And so do several. -/
theorem wp_foldlM_push_of_fault (hfault : C.fault) {α β : Type} {cap : Nat} {f : β → α}
    {l : List β} {xs : List α} {Q : List α → G → Prop} (h : Q (xs ++ l.map f) g) :
    (l.foldlM (fun xs b => push cap xs (f b)) xs : Relay size _).wp C g Q := by
  induction l generalizing xs with
  | nil => simpa using h
  | cons b l ih =>
      rw [List.foldlM_cons]
      exact wp_bind.mpr (wp_push_of_fault hfault (ih (by simpa using h)))

/-- Segment `i` is copied into a buffer of its own. -/
theorem wp_copySegment (hC : KeepsLocal C I) {r : BatchReader} {buffer : Buffer size}
    {src : AddrPort}
    {data : List UInt8} {segmentSize i : Nat} {packets : List (ReadPacket size)} (hg : I g)
    (hroom : r.offset + data.length ≤ size)
    (hdata : (buffer.bytes.drop r.offset).take data.length = data) (hpos : 0 < segmentSize)
    (hi : i < segmentCount data.length segmentSize) (hcap : packets.length < groMaxSegments) :
    (copySegment r buffer src data.length segmentSize packets i).wp C g fun packets' g' =>
      I g' ∧ ∃ p, p.Carries r.offset (segmentAt data segmentSize i) src ∧
        packets' = packets ++ [p] := by
  have hlen := length_segmentAt hpos hi
  have hle := mul_lt_of_lt_segmentCount hpos hi
  have hend : i * segmentSize + segmentLen data.length segmentSize i ≤ data.length := by
    rw [segmentLen_eq hpos hi]
    omega
  have hfits : r.offset + (segmentAt data segmentSize i).length ≤ size := by
    rw [hlen]
    omega
  refine wp_seq (hC.wp_perform hg (o := .getBuffer) trivial) fun copied g₁ hg₁ => ?_
  refine wp_bind.mpr (wp_slice_of_le (Nat.le_add_right _ _) ?_ ?_)
  · omega
  refine wp_bind.mpr (wp_slice_of_le (Nat.le_add_right _ _) ?_ ?_)
  · omega
  rw [Nat.add_sub_cancel_left, take_drop_eq_segmentAt hdata hpos hi, ← hlen]
  exact wp_push_of_lt hcap ⟨hg₁, _, ⟨rfl, rfl, payload_overwrite hfits, rfl⟩, rfl⟩

/-- The split returns the segments in order. -/
theorem wp_splitSegments (hC : KeepsLocal C I) {r : BatchReader} {buffer : Buffer size}
    {src : AddrPort} {data : List UInt8} {segmentSize : Nat} (hg : I g)
    (hroom : r.offset + data.length ≤ size)
    (hdata : (buffer.bytes.drop r.offset).take data.length = data) (hpos : 0 < segmentSize)
    (hlong : segmentSize < data.length) :
    (splitSegments r buffer src data.length segmentSize).wp C g fun packets g' => I g' ∧
      List.Forall₂ (fun p i => p.Carries r.offset (segmentAt data segmentSize i) src) packets
        (List.range (min (segmentCount data.length segmentSize) groMaxSegments)) := by
  set segments := min (segmentCount data.length segmentSize) groMaxSegments with hsegments
  have hcount : 1 ≤ segmentCount data.length segmentSize := by
    have := Nat.div_pos hlong.le hpos
    unfold segmentCount
    split_ifs <;> omega
  have hone : 1 ≤ segments := le_min hcount (by decide)
  have hfirst : (buffer.bytes.drop r.offset).take segmentSize = segmentAt data segmentSize 0 := by
    conv_rhs => rw [segmentAt, Nat.zero_mul, List.drop_zero, ← hdata, List.take_take,
      min_eq_left hlong.le]
  have hfirstLen : (segmentAt data segmentSize 0).length = segmentSize := by
    rw [segmentAt, Nat.zero_mul, List.drop_zero, List.length_take, min_eq_left hlong.le]
  simp only [splitSegments]
  refine wp_seq (KeepsLocal.wp_onlyIf hg (hC.wp_perform hg trivial)) fun _ g₁ hg₁ => ?_
  refine wp_seq (hC.wp_perform hg₁ trivial) fun _ g₂ hg₂ => ?_
  refine wp_bind.mpr (wp_push_of_lt groMaxSegments_pos ?_)
  -- the packets made so far are the segments before the next index
  refine wp_mono (wp_foldlM_range' (fun i packets g => I g ∧ List.Forall₂ (fun p i =>
    p.Carries r.offset (segmentAt data segmentSize i) src) packets (List.range i)) ?_ ?_) ?_
  · intro i packets g h₁ h₂ ⟨hg, hpackets⟩
    have hlen : packets.length = i := by simpa using hpackets.length_eq
    refine wp_mono (wp_copySegment hC hg hroom hdata hpos (by omega) (by omega)) ?_
    rintro _ g' ⟨hg', p, hp, rfl⟩
    rw [List.range_succ]
    exact ⟨hg', List.rel_append hpackets (.cons hp .nil)⟩
  · exact ⟨hg₂, .cons ⟨rfl, rfl, hfirst, hfirstLen.symm⟩ .nil⟩
  · intro packets g' h
    rwa [Nat.add_sub_cancel' hone] at h

/-- What a successful read of `readGRO` returns. -/
theorem wp_groPackets (hC : KeepsLocal C I) {r : BatchReader} {buffer : Buffer size} {len : Nat}
    {msg : ReadMsg len groOOBLen} (hg : I g) (hlen : r.offset + len ≤ size) :
    (groPackets r (buffer.overwrite r.offset msg.data) msg).wp C g fun packets g' => I g' ∧
      packets.length ≤ groMaxSegments ∧ (∀ p ∈ packets, p.truncated = false → p.n ≤ r.limit) ∧
      relayed r.offset packets = (groPayloads r.limit msg.msgTrunc msg.data
        (parseGROSize msg)).map fun data => (data, msg.addr) := by
  have hroom : r.offset + msg.data.length ≤ size := by
    have := msg.length_data
    omega
  have hdata : ((buffer.overwrite r.offset msg.data).bytes.drop r.offset).take msg.data.length =
      msg.data := take_drop_overwrite (buffer.length_bytes.symm ▸ hroom)
  simp only [groPackets, groPayloads]
  split_ifs with htrunc hsingle hover
  · refine wp_push_of_lt groMaxSegments_pos ⟨hg, ?_⟩
    simp [relayed, groMaxSegments]
  · refine wp_bind.mpr (wp_checkLen_of_le msg.oobn_le (wp_push_of_lt groMaxSegments_pos ⟨hg, ?_⟩))
    simp [relayed, groMaxSegments, hover]
  · refine wp_bind.mpr (wp_checkLen_of_le msg.oobn_le (wp_push_of_lt groMaxSegments_pos ⟨hg, ?_⟩))
    have hle : msg.data.length ≤ r.limit := Nat.le_of_not_lt hover
    simp [relayed, groMaxSegments, hover, hle, payload_overwrite hroom]
  · refine wp_bind.mpr (wp_checkLen_of_le msg.oobn_le ?_)
    refine wp_mono (wp_splitSegments hC hg hroom hdata (by omega) (by omega)) ?_
    intro packets g' ⟨hg', hpackets⟩
    refine ⟨hg', ?_, ?_, ?_⟩
    · rw [hpackets.length_eq, List.length_range]
      exact min_le_right _ _
    · have hwithin := hpackets.imp (S := fun p i => p.n ≤ r.limit ∧ p.Carries r.offset
          (segmentAt msg.data (parseGROSize msg) i) msg.addr) fun p i hp => by
        have hle : (segmentAt msg.data (parseGROSize msg) i).length ≤ parseGROSize msg :=
          List.length_take_le _ _
        exact ⟨by rw [hp.n]; omega, hp⟩
      exact fun p hp _ => ((List.forall₂_and_left _ _).mp hwithin).1 p hp
    · rw [relayed_of_carries hpackets, List.map_map]
      rfl

/-- The room a reader needs in a pooled buffer. -/
def BatchReader.Fits (r : BatchReader) (size : Nat) : Prop := r.offset + r.limit < size

theorem wp_window_of_le {b : Buffer size} {lo hi : Nat} {Q : Window → G → Prop}
    (hlo : lo ≤ hi) (hhi : hi ≤ size) (h : Q ⟨b.id, hi - lo⟩ g) : (b.window lo hi).wp C g Q := by
  rw [Buffer.window, if_pos ⟨hlo, hhi⟩]
  exact h

/-- The loop of `readBatch` takes as many buffers as there are messages to read to, each
with room for one byte more than the limit. -/
theorem wp_takeExtraBuffers_loop (hC : KeepsLocal C I) {rt : Runtime} {r : BatchReader}
    (hfit : r.Fits size) {todo : Nat} {bufs : List (Buffer size)} {msgs : List Window} (hg : I g)
    (hbufs : bufs.length + todo ≤ rt.batchSize) (hmsgs : bufs.length = msgs.length + 1)
    (hlen : ∀ w ∈ msgs, w.len = r.limit + 1) :
    (takeExtraBuffers rt r todo bufs msgs).wp C g fun p g' => I g' ∧ p.1.length ≤ rt.batchSize ∧
      p.1.length = p.2.length + 1 ∧ ∀ w ∈ p.2, w.len = r.limit + 1 := by
  induction todo generalizing bufs msgs g with
  | zero => exact ⟨hg, hbufs, hmsgs, hlen⟩
  | succ todo ih =>
      rw [takeExtraBuffers]
      refine wp_seq (R := fun _ g' => I g') ?_ fun acquired g₁ hg₁ => ?_
      · unfold tryAcquireBatchBuffer
        split_ifs
        · exact hg
        · exact hC.wp_perform hg (o := .sendBatchSlot) trivial
      · cases acquired with
        | false => exact ⟨hg₁, (Nat.le_add_right _ _).trans hbufs, hmsgs, hlen⟩
        | true =>
            unfold BatchReader.Fits at hfit
            refine wp_seq (hC.wp_perform hg₁ (o := .getBuffer) trivial) fun buf g₂ hg₂ => ?_
            refine wp_bind.mpr (wp_push_of_lt (by omega) ?_)
            refine wp_bind.mpr (wp_window_of_le (by omega) (by omega) ?_)
            refine wp_bind.mpr (wp_push_of_lt (by omega) ?_)
            refine ih hg₂ (by simp; omega) (by simp [hmsgs]) fun w hw => ?_
            obtain hw | rfl : w ∈ msgs ∨ w = _ := by simpa using hw
            · exact hlen w hw
            · simp only []
              omega

/-- The additional buffers of a batch, all with the same window. -/
theorem wp_takeExtraBuffers (hC : KeepsLocal C I) {rt : Runtime} {r : BatchReader}
    (hfit : r.Fits size) {first : Buffer size} (hg : I g) :
    (takeExtraBuffers rt r (rt.batchSize - 1) [first] []).wp C g fun p g' => I g' ∧
      p.1.length ≤ rt.batchSize ∧ p.1.length = p.2.length + 1 ∧
      ∀ w ∈ p.2, w.len = r.limit + 1 := by
  have hpos := rt.batchSize_pos
  exact wp_takeExtraBuffers_loop hC hfit hg (by simp; omega) rfl (by simp)

end Local

end Outway.Udp
