import Outway.Lib.Reader

/-!
# Outway.Lib.ReadSource

Sources of symbols, after Go's `io.Reader`, and the loops over them.

A `ReadSource` delivers what is `pending` in it, a part at a call, in the order of
the stream; how much a call delivers is up to the source.  `Arrivals` is a
connection whose stream the network has cut up, `Bufio` a buffered reader over
any source and a source itself, so that readers can be stacked.  The loops
`readFull`, `copyN` and `copy` are specified by the pending symbols alone: the
cuts and the buffers in between do not show.
-/

/-- A source of symbols.  `read n s` is one call with room for `n` symbols, which delivers
nothing only at the end of the stream; `pending` is what is still to be delivered. -/
class ReadSource (S : Type) (σ : outParam Type) where
  read : Nat → S → List σ × S
  pending : S → List σ
  length_read_le (n : Nat) (s : S) : (read n s).1.length ≤ n
  read_append (n : Nat) (s : S) : (read n s).1 ++ pending (read n s).2 = pending s
  pending_eq_nil (n : Nat) (s : S) : 0 < n → (read n s).1 = [] → pending s = []

namespace ReadSource

variable {S σ ε : Type} [ReadSource S σ]

/-- At the end of the stream nothing is pending, before and after the call. -/
theorem pending_read_eq_nil {n : Nat} {s : S} (hn : 0 < n) (h : (read n s).1 = []) :
    pending s = [] ∧ pending (read n s).2 = [] := by
  have hpending := pending_eq_nil n s hn h
  have happend := read_append n s
  rw [h, List.nil_append] at happend
  exact ⟨hpending, happend.trans hpending⟩

/-- Read `n` symbols, fewer at the end of the stream, in calls with room for at most
`room`: the loop of `io.ReadFull`, and of `io.CopyN`.  A call that is not the last
delivers a symbol, so `fuel = n` calls are enough. -/
def pull (room : Nat) : (fuel n : Nat) → S → List σ × S
  | 0, _, s => ([], s)
  | fuel + 1, n, s =>
      if n = 0 then ([], s)
      else
        match read (min room n) s with
        | ([], s') => ([], s')
        | (b :: bs, s') =>
            let (more, s'') := pull room fuel (n - (b :: bs).length) s'
            (b :: bs ++ more, s'')

/-- Reading until there is enough gives the front of the stream. -/
theorem pull_spec {room fuel n : Nat} (hroom : 0 < n → 0 < room) (hfuel : n ≤ fuel) (s : S) :
    (pull room fuel n s).1 = (pending s).take n ∧
      pending (pull room fuel n s).2 = (pending s).drop n := by
  induction fuel generalizing n s with
  | zero =>
      obtain rfl : n = 0 := by omega
      exact ⟨List.take_zero.symm, List.drop_zero.symm⟩
  | succ fuel ih =>
      by_cases hn : n = 0
      · rw [pull, if_pos hn, hn]
        exact ⟨List.take_zero.symm, List.drop_zero.symm⟩
      · have hpos : 0 < min room n := by
          have := hroom (Nat.pos_of_ne_zero hn)
          omega
        have hlen := length_read_le (min room n) s
        have happend := read_append (min room n) s
        rw [pull, if_neg hn]
        cases hread : read (min room n) s with
        | mk bs s' =>
            rw [hread] at hlen happend
            cases bs with
            | nil =>
                obtain ⟨hs, hs'⟩ := pending_read_eq_nil hpos (by rw [hread])
                rw [hread] at hs'
                simp only [hs, hs', List.take_nil, List.drop_nil]
                exact ⟨trivial, trivial⟩
            | cons b bs =>
                have hle : (b :: bs).length ≤ n := by
                  simp only at hlen
                  omega
                obtain ⟨hmore, hrest⟩ := ih (n := n - (b :: bs).length)
                  (fun _ => hroom (Nat.pos_of_ne_zero hn))
                  (by rw [List.length_cons] at hle ⊢; omega) s'
                rw [← happend, List.take_append, List.drop_append, List.take_of_length_le hle,
                  List.drop_of_length_le hle, List.nil_append]
                exact ⟨congrArg (b :: bs ++ ·) hmore, hrest⟩

/-- `io.ReadFull`: exactly `n` symbols, or one of the two errors. -/
def readFull (eof unexpectedEOF : ε) (n : Nat) : Reader S ε (Vector σ n) := fun s =>
  if h : (pull n n n s).1.length = n then
    .ok (⟨(pull n n n s).1.toArray, h⟩, (pull n n n s).2)
  else if (pull n n n s).1 = [] then .error eof
  else .error unexpectedEOF

/-- A full read from a source is a full read of what is pending. -/
theorem follows_readFull (eof unexpectedEOF : ε) (n : Nat) :
    Reader.Follows pending (readFull eof unexpectedEOF n : Reader S ε (Vector σ n))
      (Reader.readFull eof unexpectedEOF n) := by
  intro s
  obtain ⟨hfst, hsnd⟩ := pull_spec (id : 0 < n → 0 < n) (Nat.le_refl n) s
  unfold readFull Reader.readFull
  by_cases hlen : n ≤ (pending s).length
  · have hfull : (pull n n n s).1.length = n := by
      rw [hfst, List.length_take, Nat.min_eq_left hlen]
    rw [dif_pos hfull, dif_pos hlen]
    simp only [Except.map, hfst, hsnd]
  · have hshort : ¬ (pull n n n s).1.length = n := by
      rw [hfst, List.length_take]
      omega
    have hall : (pending s).take n = pending s := List.take_of_length_le (by omega)
    rw [dif_neg hshort, dif_neg hlen, hfst, hall]
    split_ifs <;> rfl

/-- `io.CopyN`: what is written, from a source read in calls of at most `room`. -/
def copyN (room n : Nat) (s : S) : List σ × S := pull room n n s

/-- `io.Copy`, followed for `fuel` calls: what is written. -/
def copy (room : Nat) : (fuel : Nat) → S → List σ × S
  | 0, s => ([], s)
  | fuel + 1, s =>
      match read room s with
      | ([], s') => ([], s')
      | (b :: bs, s') =>
          let (more, s'') := copy room fuel s'
          (b :: bs ++ more, s'')

/-- What was written and what is pending are the stream. -/
theorem copy_append (room fuel : Nat) (s : S) :
    (copy room fuel s).1 ++ pending (copy room fuel s).2 = pending s := by
  induction fuel generalizing s with
  | zero => rfl
  | succ fuel ih =>
      have happend := read_append room s
      rw [copy]
      cases hread : read room s with
      | mk bs s' =>
          rw [hread] at happend
          cases bs with
          | nil => exact happend
          | cons b bs =>
              rw [← happend, ← ih s', ← List.append_assoc]

/-- With a call for every symbol the whole stream is written. -/
theorem copy_eq {room fuel : Nat} (hroom : 0 < room) {s : S} (hfuel : (pending s).length ≤ fuel) :
    (copy room fuel s).1 = pending s := by
  induction fuel generalizing s with
  | zero => exact (List.eq_nil_of_length_eq_zero (by omega)).symm
  | succ fuel ih =>
      have happend := read_append room s
      rw [copy]
      cases hread : read room s with
      | mk bs s' =>
          rw [hread] at happend
          cases bs with
          | nil => exact (pending_read_eq_nil hroom (by rw [hread])).1.symm
          | cons b bs =>
              have hshort : (pending s').length ≤ fuel := by
                rw [← happend, List.length_append, List.length_cons] at hfuel
                simp only at hfuel
                omega
              rw [← happend, ← ih hshort]

/-- Copy until nothing is pending. -/
def drain (room : Nat) (s : S) : List σ × S := copy room (pending s).length s

/-- Reading to the end gives all that is left. -/
theorem drain_fst {room : Nat} (hroom : 0 < room) (s : S) : (drain room s).1 = pending s :=
  copy_eq hroom (Nat.le_refl _)

/-- And leaves nothing. -/
theorem pending_drain {room : Nat} (hroom : 0 < room) (s : S) : pending (drain room s).2 = [] := by
  have happend := copy_append room (pending s).length s
  rw [copy_eq hroom (Nat.le_refl _)] at happend
  exact List.append_right_eq_self.mp happend

end ReadSource

/-- A source to which more can arrive. -/
class LiveSource (S : Type) (σ : outParam Type) extends ReadSource S σ where
  feed : List σ → S → S
  pending_feed (bs : List σ) (s : S) : pending (feed bs s) = pending s ++ bs

/-! ## Connections -/

/-- What a connection delivers: its stream, as the network has cut it up. -/
structure Arrivals (σ : Type) where
  chunks : List (List σ)
  nonempty : ∀ c ∈ chunks, c ≠ []

namespace Arrivals

variable {σ : Type}

/-- What a call leaves of the chunks. -/
def rest (n : Nat) : List (List σ) → List (List σ)
  | [] => []
  | c :: cs => if n < c.length then c.drop n :: cs else cs

theorem nonempty_rest {n : Nat} {cs : List (List σ)} (h : ∀ c ∈ cs, c ≠ []) :
    ∀ c ∈ rest n cs, c ≠ [] := by
  intro c hc
  cases cs with
  | nil => exact absurd hc List.not_mem_nil
  | cons d ds =>
      rw [rest] at hc
      split_ifs at hc with hlen
      · obtain rfl | hc := List.mem_cons.mp hc
        · intro hnil
          have := List.length_drop (i := n) (l := d)
          rw [hnil, List.length_nil] at this
          omega
        · exact h c (List.mem_cons_of_mem _ hc)
      · exact h c (List.mem_cons_of_mem _ hc)

/-- A read takes the front of the first chunk. -/
theorem take_append_rest (n : Nat) (cs : List (List σ)) :
    (cs.headD []).take n ++ (rest n cs).flatten = cs.flatten := by
  cases cs with
  | nil => simp [rest]
  | cons c cs =>
      rw [rest, List.headD_cons]
      split_ifs with hlen
      · rw [List.flatten_cons, ← List.append_assoc, List.take_append_drop, List.flatten_cons]
      · rw [List.take_of_length_le (by omega), List.flatten_cons]

instance : ReadSource (Arrivals σ) σ where
  read n s := ((s.chunks.headD []).take n, ⟨rest n s.chunks, nonempty_rest s.nonempty⟩)
  pending s := s.chunks.flatten
  length_read_le n s := by
    rw [List.length_take]
    exact Nat.min_le_left _ _
  read_append n s := take_append_rest n s.chunks
  pending_eq_nil n s hn h := by
    cases hs : s.chunks with
    | nil => rfl
    | cons c cs =>
        have hc : c ≠ [] := s.nonempty c (hs ▸ List.mem_cons_self)
        have h : (s.chunks.headD []).take n = [] := h
        rw [hs, List.headD_cons, List.take_eq_nil_iff] at h
        exact absurd (h.resolve_left (by omega)) hc

theorem nonempty_feed {cs : List (List σ)} (h : ∀ c ∈ cs, c ≠ []) {bs : List σ} (hbs : bs ≠ []) :
    ∀ c ∈ cs ++ [bs], c ≠ [] := by
  intro c hc
  obtain hc | hc := List.mem_append.mp hc
  · exact h c hc
  · rwa [List.mem_singleton.mp hc]

instance : LiveSource (Arrivals σ) σ where
  feed bs s := if h : bs = [] then s else ⟨s.chunks ++ [bs], nonempty_feed s.nonempty h⟩
  pending_feed bs s := by
    split_ifs with h
    · rw [h, List.append_nil]
    · exact (List.flatten_append).trans (congrArg (s.chunks.flatten ++ ·) (List.append_nil bs))

end Arrivals

/-! ## Buffered readers -/

/-- A `bufio.Reader` with room for `size` symbols: what is buffered, and its source. -/
structure Bufio (size : Nat) (S σ : Type) where
  buffer : List σ
  source : S

namespace Bufio

open ReadSource

variable {size : Nat} {S σ : Type} [ReadSource S σ]

/-- `Read`: the buffer first; when it is empty, one call of the source, past the buffer
where the room is no smaller than it. -/
def read (n : Nat) (b : Bufio size S σ) : List σ × Bufio size S σ :=
  if n = 0 then ([], b)
  else if b.buffer ≠ [] then (b.buffer.take n, ⟨b.buffer.drop n, b.source⟩)
  else if size ≤ n then ((ReadSource.read n b.source).1, ⟨[], (ReadSource.read n b.source).2⟩)
  else
    ((ReadSource.read size b.source).1.take n,
      ⟨(ReadSource.read size b.source).1.drop n, (ReadSource.read size b.source).2⟩)

/-- A read of a buffered stream takes bytes from its front. -/
theorem read_append' (n : Nat) (b : Bufio size S σ) :
    (read n b).1 ++ ((read n b).2.buffer ++ pending (read n b).2.source) =
      b.buffer ++ pending b.source := by
  unfold read
  split_ifs with hn hbuf hsize
  · rfl
  · rw [← List.append_assoc, List.take_append_drop]
  · rw [not_not.mp hbuf, List.nil_append, List.nil_append, ReadSource.read_append]
  · rw [not_not.mp hbuf, ← List.append_assoc, List.take_append_drop, List.nil_append,
      ReadSource.read_append]

instance [NeZero size] : ReadSource (Bufio size S σ) σ where
  read := read
  pending b := b.buffer ++ pending b.source
  length_read_le n b := by
    unfold read
    split_ifs with hn hbuf hsize
    · exact Nat.zero_le n
    · exact List.length_take_le n _
    · exact length_read_le n b.source
    · exact List.length_take_le n _
  read_append := read_append'
  pending_eq_nil n b hn h := by
    unfold read at h
    split_ifs at h with hn' hbuf hsize
    · omega
    · exact absurd ((List.take_eq_nil_iff.mp h).resolve_left hn') hbuf
    · rw [not_not.mp hbuf, List.nil_append]
      exact pending_eq_nil n b.source hn h
    · rw [not_not.mp hbuf, List.nil_append]
      exact pending_eq_nil size b.source (NeZero.pos size)
        ((List.take_eq_nil_iff.mp h).resolve_left hn')

/-- `Peek(1)`: an empty buffer is filled by one call of the source. -/
def peek (b : Bufio size S σ) : Option σ × Bufio size S σ :=
  match b.buffer with
  | x :: _ => (some x, b)
  | [] => ((ReadSource.read size b.source).1.head?,
      ⟨(ReadSource.read size b.source).1, (ReadSource.read size b.source).2⟩)

/-- `Buffered`. -/
def buffered (b : Bufio size S σ) : Nat := b.buffer.length

variable [NeZero size]

theorem pending_def (b : Bufio size S σ) : pending b = b.buffer ++ pending b.source := rfl

instance {S σ : Type} [LiveSource S σ] : LiveSource (Bufio size S σ) σ where
  feed bs b := ⟨b.buffer, LiveSource.feed bs b.source⟩
  pending_feed bs b := by
    rw [pending_def, pending_def, LiveSource.pending_feed, List.append_assoc]

/-- A peek shows the next symbol, and consumes nothing. -/
theorem peek_spec (b : Bufio size S σ) :
    (peek b).1 = (pending b).head? ∧ pending (peek b).2 = pending b := by
  rw [pending_def, pending_def, peek]
  cases hb : b.buffer with
  | cons x xs => exact ⟨rfl, by rw [hb]⟩
  | nil =>
      have happend := ReadSource.read_append size b.source
      refine ⟨?_, happend⟩
      rw [List.nil_append, ← happend]
      cases hread : (ReadSource.read size b.source).1 with
      | nil =>
          obtain ⟨-, hnil⟩ := pending_read_eq_nil (NeZero.pos size) hread
          rw [hnil]
          rfl
      | cons y ys => rfl

/-- What is in the buffer is read without the source. -/
theorem pull_buffered {room fuel : Nat} (hroom : 0 < room) {l : List σ} (hfuel : l.length ≤ fuel)
    (s : S) : pull room fuel l.length (⟨l, s⟩ : Bufio size S σ) = (l, ⟨[], s⟩) := by
  induction fuel generalizing l with
  | zero =>
      obtain rfl : l = [] := List.eq_nil_of_length_eq_zero (by omega)
      rfl
  | succ fuel ih =>
      cases l with
      | nil => rfl
      | cons x xs =>
          -- a call takes the next `m + 1` of the buffered symbols
          obtain ⟨m, hm⟩ : ∃ m, min room (x :: xs).length = m + 1 := by
            rw [List.length_cons]
            exact ⟨min room (xs.length + 1) - 1, by omega⟩
          have hread : ReadSource.read (m + 1) (⟨x :: xs, s⟩ : Bufio size S σ) =
              (x :: xs.take m, ⟨xs.drop m, s⟩) := rfl
          have hlen : (x :: xs).length - (x :: xs.take m).length = (xs.drop m).length := by
            rw [List.length_cons] at hm
            simp only [List.length_cons, List.length_take, List.length_drop]
            omega
          have hshort : (xs.drop m).length ≤ fuel := by
            rw [List.length_cons] at hfuel
            rw [List.length_drop]
            omega
          rw [pull, if_neg (by simp), hm, hread]
          simp only [hlen, ih hshort, List.cons_append, List.take_append_drop]

/-- Copying what is buffered empties the buffer and does not touch the source. -/
theorem copyN_buffered {room : Nat} (hroom : 0 < room) (b : Bufio size S σ) :
    copyN room b.buffered b = (b.buffer, ⟨[], b.source⟩) :=
  pull_buffered hroom (Nat.le_refl _) b.source

end Bufio
