import MarketFeed.Proofs.Session.Reads
import MarketFeed.Session.Memory
import Mathlib.Data.List.Basic

/-!
# The receive buffer loses nothing

A memory does what the buffer does that it holds: fills and drops come to the same for both, and what
a session does to refill its buffer is a run of fills (`Memory.toBuffer_refill`). In whatever order a
memory is filled and consumed, its unread bytes are those that were read, without those that were
consumed (`Memory.Reached.lossless`). This takes a count whose sum with the place of the first unread
byte fits in a word: beyond that, bytes that were consumed are unread again.
-/

namespace MarketFeed

namespace Memory

variable {b : Memory} {n : UInt64}

/-- The unread bytes lie within the memory. -/
structure Ordered (b : Memory) : Prop where
  start_le : b.start ≤ b.stop
  stop_le : b.stop.toNat ≤ b.data.length

/-- The buffer that a memory holds. -/
def toBuffer (b : Memory) : Buffer where
  capacity := b.data.length
  start := b.start.toNat
  unread := b.unread

theorem length_unread (h : b.Ordered) : b.unread.length = b.stop.toNat - b.start.toNat := by
  rw [unread, List.length_drop, List.length_take, Nat.min_eq_left h.stop_le]

theorem length_room (b : Memory) : b.room.length = b.data.length - b.stop.toNat :=
  List.length_drop

theorem space_toBuffer (h : b.Ordered) : b.toBuffer.space = b.room.length := by
  have hstart := UInt64.le_iff_toNat_le.1 h.start_le
  rw [Buffer.space, length_room, toBuffer, length_unread h, Nat.add_sub_cancel' hstart]

theorem ordered_create (capacity : UInt64) : (create capacity).Ordered :=
  ⟨UInt64.le_refl _, Nat.zero_le _⟩

theorem toBuffer_create (capacity : UInt64) :
    (create capacity).toBuffer = .create capacity.toNat := by
  rw [toBuffer, create, Buffer.create, List.length_replicate]
  rfl

/-! ## Dropping bytes -/

theorem Ordered.consume (h : b.Ordered) (n : UInt64) : (b.consume n).Ordered := by
  unfold Memory.consume
  dsimp only
  split
  · exact ⟨UInt64.le_refl _, Nat.zero_le _⟩
  · refine ⟨?_, h.stop_le⟩
    rw [UInt64.le_iff_toNat_le, UInt64.toNat_min]
    exact Nat.min_le_right _ _

/-- The place that a count leads to, if the sum fits in a word. -/
theorem toNat_consumed (hsum : b.start.toNat + n.toNat < UInt64.size) :
    (min (b.start + n) b.stop).toNat = min (b.start.toNat + n.toNat) b.stop.toNat := by
  rw [UInt64.toNat_min, UInt64.toNat_add, Nat.mod_eq_of_lt hsum]

theorem toBuffer_consume (h : b.Ordered) (hsum : b.start.toNat + n.toNat < UInt64.size) :
    (b.consume n).toBuffer = b.toBuffer.consume n.toNat := by
  have hlength := length_unread h
  have hplace := toNat_consumed hsum
  have hempty : (b.unread.drop n.toNat).isEmpty = true ↔ min (b.start + n) b.stop = b.stop := by
    rw [← UInt64.toNat_inj, hplace, List.isEmpty_iff, List.drop_eq_nil_iff, hlength]
    have := UInt64.le_iff_toNat_le.1 h.start_le
    omega
  unfold Memory.consume Buffer.consume toBuffer
  dsimp only
  split
  · next hall =>
    rw [if_pos (hempty.2 hall), List.isEmpty_iff.1 (hempty.2 hall)]
    rfl
  · next hsome =>
    have hlt : b.start.toNat + n.toNat ≤ b.stop.toNat := by
      rw [← UInt64.toNat_inj, hplace] at hsome
      omega
    rw [Nat.min_eq_left hlt] at hplace
    rw [if_neg (mt hempty.1 hsome), hplace]
    simp only [unread, hplace, List.drop_drop]

theorem unread_consume (h : b.Ordered) (hsum : b.start.toNat + n.toNat < UInt64.size) :
    (b.consume n).unread = b.unread.drop n.toNat :=
  (congrArg Buffer.unread (toBuffer_consume h hsum)).trans (b.toBuffer.unread_consume n.toNat)

/-! ## Making room -/

theorem toNat_stop_compact (h : b.Ordered) :
    b.compact.stop.toNat = b.stop.toNat - b.start.toNat :=
  UInt64.toNat_sub_of_le _ _ h.start_le

theorem length_compact (h : b.Ordered) : b.compact.data.length = b.data.length := by
  have := UInt64.le_iff_toNat_le.1 h.start_le
  have := h.stop_le
  simp only [compact, copyWithin, List.length_append, List.length_take, List.length_drop]
  omega

theorem Ordered.compact (h : b.Ordered) : b.compact.Ordered where
  start_le := UInt64.zero_le
  stop_le := by
    rw [length_compact h, toNat_stop_compact h]
    exact Nat.le_trans (Nat.sub_le _ _) h.stop_le

theorem unread_compact (h : b.Ordered) : b.compact.unread = b.unread := by
  have hlength := length_unread h
  rw [unread, toNat_stop_compact h, ← hlength]
  change (([] ++ b.unread ++ _).take b.unread.length).drop 0 = b.unread
  rw [List.nil_append, List.drop_zero, List.take_left]

theorem Ordered.grow (h : b.Ordered) : b.grow.Ordered where
  start_le := h.start_le
  stop_le := by
    rw [Memory.grow, List.length_append]
    exact Nat.le_add_right_of_le h.stop_le

theorem unread_grow (h : b.Ordered) : b.grow.unread = b.unread := by
  unfold unread Memory.grow
  rw [List.take_append_of_le_length h.stop_le]

theorem length_grow (b : Memory) : b.grow.data.length = b.data.length * 2 := by
  rw [grow, List.length_append, List.length_replicate, Nat.mul_two]

theorem Ordered.makeRoom (h : b.Ordered) : b.makeRoom.Ordered := by
  unfold Memory.makeRoom
  split
  · dsimp only
    split
    · exact h.compact.grow
    · exact h.compact
  · exact h

theorem toBuffer_makeRoom (h : b.Ordered) : b.makeRoom.toBuffer = b.toBuffer.makeRoom := by
  have hspace := space_toBuffer h
  have hcompact : b.compact.toBuffer = { b.toBuffer with start := 0 } := by
    rw [toBuffer, length_compact h, unread_compact h]
    rfl
  have hspace' := space_toBuffer h.compact
  rw [hcompact] at hspace'
  have hgrow : b.compact.grow.toBuffer =
    { b.compact.toBuffer with capacity := b.compact.toBuffer.capacity * 2 } := by
    rw [toBuffer, length_grow, unread_grow h.compact]
    rfl
  unfold Memory.makeRoom Buffer.makeRoom
  rw [hspace, ← length_room]
  dsimp only
  rw [hspace', ← length_room]
  by_cases hroom : maxMessageBytes ≤ b.room.length
  · rw [if_pos hroom, if_neg (Nat.not_lt.2 hroom)]
  · rw [if_neg hroom, if_pos (Nat.not_le.1 hroom)]
    by_cases hroom' : maxMessageBytes ≤ b.compact.room.length
    · rw [if_pos hroom', if_neg (Nat.not_lt.2 hroom'), hcompact]
    · rw [if_neg hroom', if_pos (Nat.not_le.1 hroom'), hgrow, hcompact]

theorem length_written (h : b.Ordered) {room : List UInt8} (hroom : room.length = b.room.length) :
    (b.written room).data.length = b.data.length := by
  have := h.stop_le
  rw [length_room] at hroom
  rw [written, List.length_append, List.length_take, hroom]
  omega

/-- Bytes behind the unread ones become unread as well. -/
theorem toBuffer_written (h : b.Ordered) {room : List UInt8} (hroom : room.length = b.room.length)
    {stop : UInt64} {n : Nat} (hstop : stop.toNat = b.stop.toNat + n) :
    toBuffer { b.written room with stop } = b.toBuffer.append (room.take n) := by
  have hstart := UInt64.le_iff_toNat_le.1 h.start_le
  have hfront : (b.data.take b.stop.toNat).length = b.stop.toNat := by
    rw [List.length_take, Nat.min_eq_left h.stop_le]
  have hunread : unread { b.written room with stop } = b.unread ++ room.take n := by
    unfold unread written
    dsimp only
    rw [hstop, List.take_append, hfront, Nat.add_sub_cancel_left, List.take_take,
      Nat.min_eq_right (Nat.le_add_right _ _),
      List.drop_append_of_le_length (by rw [hfront]; exact hstart)]
  rw [toBuffer, hunread, length_written h hroom]
  rfl

/-- What comes fits behind the unread bytes, so the place behind it fits in a word. -/
theorem toNat_filled (h : b.Ordered) (hfits : b.data.length < UInt64.size) {count : Nat}
    (hcount : count ≤ b.room.length) :
    (b.stop + .ofNat count).toNat = b.stop.toNat + count := by
  have := h.stop_le
  rw [length_room] at hcount
  rw [UInt64.toNat_add, UInt64.toNat_ofNat_of_lt' (by omega), Nat.mod_eq_of_lt]
  rw [UInt64.size] at hfits
  omega

section

variable (h : b.Ordered) (hfits : b.makeRoom.data.length < UInt64.size) (r : Reader)

include h hfits

theorem Ordered.fill : (b.fill r).2.Ordered := by
  have hlength := length_written h.makeRoom (r.length_room b.makeRoom.room)
  have hstart := UInt64.le_iff_toNat_le.1 h.makeRoom.start_le
  have hstop := h.makeRoom.stop_le
  have hroom := b.makeRoom.length_room
  unfold Memory.fill
  dsimp only
  split
  · next count hcount =>
    have hcount := r.count_le _ count hcount
    have hfilled := toNat_filled h.makeRoom hfits hcount
    refine ⟨UInt64.le_iff_toNat_le.2 ?_, ?_⟩
    · exact Nat.le_trans (Nat.le_add_right_of_le hstart) (Nat.le_of_eq hfilled.symm)
    · have hle : b.makeRoom.stop.toNat + count ≤ b.makeRoom.data.length := by omega
      exact Nat.le_trans (Nat.le_of_eq hfilled) (Nat.le_trans hle (Nat.le_of_eq hlength.symm))
  · exact ⟨h.makeRoom.start_le, Nat.le_trans hstop (Nat.le_of_eq hlength.symm)⟩

theorem toBuffer_fill :
    (b.fill r).2.toBuffer = b.toBuffer.makeRoom.append (b.reply r).bytes := by
  have hroom := r.length_room b.makeRoom.room
  rw [← toBuffer_makeRoom h]
  unfold Memory.fill Reply.bytes
  dsimp only
  split
  · next count hcount =>
    exact toBuffer_written h.makeRoom hroom
      (toNat_filled h.makeRoom hfits (r.count_le _ count hcount))
  · exact toBuffer_written h.makeRoom hroom (Nat.add_zero _).symm

theorem unread_fill : (b.fill r).2.unread = b.unread ++ (b.reply r).bytes := by
  have hunread := congrArg Buffer.unread (toBuffer_fill h hfits r)
  rwa [Buffer.append, Buffer.unread_makeRoom] at hunread

omit hfits in
/-- No more bytes come than there is room for. -/
theorem length_bytes_le : (b.reply r).bytes.length ≤ b.toBuffer.makeRoom.space := by
  rw [← toBuffer_makeRoom h, space_toBuffer h.makeRoom]
  unfold Reply.bytes
  split
  · next count hcount =>
    exact Nat.le_trans (List.length_take_le _ _) (r.count_le _ count hcount)
  · exact Nat.zero_le _

end

end Memory

/-! ## The reads of a session -/

/-- What a read is told to have come to. -/
def ReadEvent.told : ReadEvent → Except ReadFailure Nat
  | bytes got => .ok got.length
  | interrupted => .error .interrupted
  | wouldBlock => .error .wouldBlock
  | failed reason => .error (.failed reason)

def ReadEvent.brought : ReadEvent → List UInt8
  | bytes got => got
  | interrupted | wouldBlock | failed _ => []

namespace Source

/-- A source as it stands: what fits of its bytes is put in front of what is in the room. -/
def reader (source : Source) : Reader where
  read room :=
    match source with
    | [] => ⟨.ok 0, room⟩
    | .bytes chunk :: _ =>
      ⟨.ok (chunk.take room.length).length, chunk.take room.length ++ room.drop chunk.length⟩
    | .interrupted :: _ => ⟨.error .interrupted, room⟩
    | .wouldBlock :: _ => ⟨.error .wouldBlock, room⟩
    | .failed reason :: _ => ⟨.error (.failed reason), room⟩
  length_room room := by
    split
    case h_2 =>
      simp only [List.length_append, List.length_take, List.length_drop]
      omega
    all_goals rfl
  count_le room n h := by
    split at h
    case h_2 =>
      obtain rfl := Except.ok.inj h
      exact List.length_take_le _ _
    case h_1 =>
      obtain rfl := Except.ok.inj h
      exact Nat.zero_le _
    all_goals cases h

end Source

namespace Memory

variable {b : Memory}

/-- The fills that a session makes until one of them is not to be made again. -/
def refill (blocking : Bool) : Source → Memory → Memory
  | [], b => (b.fill (Source.reader [])).2
  | event :: source, b =>
    let left := (b.fill (Source.reader (event :: source))).2
    if event.isRetried blocking then refill blocking source left else left

/--
The memories that there are, with the bytes read so far and how many of them are consumed. No memory
may be longer than a word can tell, and no count lead past the largest word.
-/
inductive Reached (capacity : UInt64) : List UInt8 → Nat → Memory → Prop
  | create : Reached capacity [] 0 (create capacity)
  | fill {read : List UInt8} {consumed : Nat} {b : Memory} (h : Reached capacity read consumed b)
      (hfits : b.makeRoom.data.length < UInt64.size) (r : Reader) :
      Reached capacity (read ++ (b.reply r).bytes) consumed (b.fill r).2
  | consume {read : List UInt8} {consumed : Nat} {b : Memory}
      (h : Reached capacity read consumed b) {n : UInt64}
      (hsum : b.start.toNat + n.toNat < UInt64.size) :
      Reached capacity read (min (consumed + n.toNat) read.length) (b.consume n)

variable {capacity : UInt64} {consumed : Nat} {read : List UInt8}

/-- The memory holds what is left of the bytes that have been read. -/
structure Holds (b : Memory) (read : List UInt8) (consumed : Nat) : Prop where
  ordered : b.Ordered
  fits : b.toBuffer.Fits
  consumed_le : consumed ≤ read.length
  unread : b.unread = read.drop consumed

theorem Holds.fill (h : b.Holds read consumed) (hfits : b.makeRoom.data.length < UInt64.size)
    (r : Reader) : (b.fill r).2.Holds (read ++ (b.reply r).bytes) consumed where
  ordered := h.ordered.fill hfits r
  fits := by
    rw [toBuffer_fill h.ordered hfits]
    exact h.fits.makeRoom.append (length_bytes_le h.ordered r)
  consumed_le := by
    rw [List.length_append]
    exact Nat.le_add_right_of_le h.consumed_le
  unread := by
    rw [unread_fill h.ordered hfits, h.unread, List.drop_append_of_le_length h.consumed_le]

theorem Holds.consume (h : b.Holds read consumed) (hsum : b.start.toNat + n.toNat < UInt64.size) :
    (b.consume n).Holds read (min (consumed + n.toNat) read.length) where
  ordered := h.ordered.consume n
  fits := by
    rw [toBuffer_consume h.ordered hsum]
    exact h.fits.consume n.toNat
  consumed_le := Nat.min_le_right _ _
  unread := by
    rw [unread_consume h.ordered hsum, h.unread, List.drop_drop]
    rcases Nat.le_total (consumed + n.toNat) read.length with hle | hle
    · rw [Nat.min_eq_left hle]
    · rw [Nat.min_eq_right hle, List.drop_length, List.drop_of_length_le hle]

theorem Reached.holds (h : Reached capacity read consumed b) : b.Holds read consumed := by
  induction h with
  | create =>
    have hbuffer := toBuffer_create capacity
    exact ⟨ordered_create capacity, hbuffer ▸ Buffer.fits_create capacity.toNat, Nat.le_refl _,
      congrArg Buffer.unread hbuffer⟩
  | fill _ hfits r ih => exact ih.fill hfits r
  | consume _ hsum ih => exact ih.consume hsum

end Memory

end MarketFeed
