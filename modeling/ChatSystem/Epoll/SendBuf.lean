import ChatSystem.Core.Bytes

/-!
# The send buffer of an epoll client

A fixed array with a head and a tail, compacted only when a push would not fit.
The pending bytes are the queue it stands for: a push appends to them or leaves
them alone, and it is refused exactly when they would exceed the capacity.
-/

namespace ChatSystem.Epoll

open Bytes

/-- `SBUF_SIZE`. -/
def sbufSize : Nat := 64 * 1024

/-- `SendBuf`. -/
structure SendBuf where
  buf : List UInt8
  head : Nat
  tail : Nat

/-- A zeroed buffer. -/
def SendBuf.zero : SendBuf := ⟨List.replicate sbufSize 0, 0, 0⟩

/-- The bytes `buf[head..tail)`. -/
def SendBuf.pending (sb : SendBuf) : List UInt8 := (sb.buf.take sb.tail).drop sb.head

/-- `sb_empty`. -/
def sbEmpty (sb : SendBuf) : Bool := sb.head == sb.tail

/-- The compaction of `sb_push`: `memmove` to the front of the array. -/
def SendBuf.compact (sb : SendBuf) : SendBuf :=
  ⟨writeAt sb.buf 0 ((sb.buf.drop sb.head).take (sb.tail - sb.head)), 0, sb.tail - sb.head⟩

/-- `sb_push`; `false` is the result `-1`. -/
def sbPush (sb : SendBuf) (d : List UInt8) : Bool × SendBuf :=
  let sb := if sbufSize < sb.tail + d.length then sb.compact else sb
  if sbufSize < sb.tail + d.length then (false, sb)
  else (true, ⟨writeAt sb.buf sb.tail d, sb.head, sb.tail + d.length⟩)

/-- The array has its size and the indices are in order and inside it. -/
structure SendBuf.Ok (sb : SendBuf) : Prop where
  size : sb.buf.length = sbufSize
  head_le : sb.head ≤ sb.tail
  tail_le : sb.tail ≤ sbufSize

theorem SendBuf.ok_zero : SendBuf.zero.Ok :=
  ⟨List.length_replicate, Nat.le_refl _, Nat.zero_le _⟩

@[simp] theorem SendBuf.pending_zero : SendBuf.zero.pending = [] := by
  simp [pending, zero]

variable {sb : SendBuf}

theorem SendBuf.Ok.length_pending (h : sb.Ok) : sb.pending.length = sb.tail - sb.head := by
  have := h.size
  have := h.tail_le
  simp only [pending, List.length_drop, List.length_take]
  omega

theorem SendBuf.Ok.sbEmpty_iff (h : sb.Ok) : sbEmpty sb = true ↔ sb.pending = [] := by
  have := h.head_le
  rw [sbEmpty, beq_iff_eq, ← List.length_eq_zero_iff, h.length_pending]
  omega

/-- Compaction keeps the pending bytes and the shape of the buffer. -/
theorem SendBuf.Ok.compact (h : sb.Ok) : sb.compact.Ok ∧ sb.compact.pending = sb.pending := by
  have h1 := h.size
  have h2 := h.head_le
  have h3 := h.tail_le
  have hd : (sb.buf.drop sb.head).take (sb.tail - sb.head) = sb.pending := by
    rw [pending, List.drop_take]
  have hl := h.length_pending
  refine ⟨⟨?_, Nat.zero_le _, ?_⟩, ?_⟩
  · change (writeAt _ _ _).length = _
    rw [hd, length_writeAt (by omega), h1]
  · change sb.tail - sb.head ≤ _
    omega
  · change ((writeAt sb.buf 0 _).take (sb.tail - sb.head)).drop 0 = _
    rw [hd, List.drop_zero, ← hl]
    simp [writeAt]

/-- Copying behind the tail appends to the pending bytes. -/
theorem SendBuf.Ok.append (h : sb.Ok) {d : List UInt8} (hfit : sb.tail + d.length ≤ sbufSize) :
    (⟨writeAt sb.buf sb.tail d, sb.head, sb.tail + d.length⟩ : SendBuf).Ok ∧
      (⟨writeAt sb.buf sb.tail d, sb.head, sb.tail + d.length⟩ : SendBuf).pending =
        sb.pending ++ d := by
  have h1 := h.size
  have h2 := h.head_le
  refine ⟨⟨?_, Nat.le_trans h2 (Nat.le_add_right _ _), hfit⟩, ?_⟩
  · change (writeAt _ _ _).length = _
    rw [length_writeAt (by omega), h1]
  · change ((writeAt sb.buf sb.tail d).take (sb.tail + d.length)).drop sb.head = _
    rw [take_add_writeAt (by omega), List.drop_append_of_le_length]
    · rfl
    · simp only [List.length_take]
      omega

/-- A push succeeds exactly when the pending bytes leave room, and then appends;
otherwise it leaves the pending bytes unchanged. -/
theorem SendBuf.Ok.push (h : sb.Ok) (d : List UInt8) :
    (sbPush sb d).2.Ok ∧
      ((sbPush sb d).1 = true ↔ sb.pending.length + d.length ≤ sbufSize) ∧
      (sbPush sb d).2.pending = if (sbPush sb d).1 then sb.pending ++ d else sb.pending := by
  have hl := h.length_pending
  have hle := h.head_le
  by_cases hfull : sbufSize < sb.tail + d.length
  · obtain ⟨hok, hp⟩ := h.compact
    have ht : sb.compact.tail = sb.tail - sb.head := rfl
    by_cases hfull' : sbufSize < sb.compact.tail + d.length
    · simp only [sbPush, if_pos hfull, if_pos hfull', hp, hok, Bool.false_eq_true, if_false,
        false_iff, and_true, true_and]
      omega
    · obtain ⟨hok', hp'⟩ := hok.append (Nat.not_lt.mp hfull')
      simp only [sbPush, if_pos hfull, if_neg hfull', hp', hok', hp, if_true, true_iff, and_true,
        true_and]
      omega
  · obtain ⟨hok', hp'⟩ := h.append (Nat.not_lt.mp hfull)
    simp only [sbPush, if_neg hfull, hp', hok', if_true, true_iff, and_true, true_and]
    omega

/-- Dropping written bytes from the front. -/
theorem SendBuf.Ok.advance (h : sb.Ok) {n : Nat} (hn : n ≤ sb.pending.length) :
    ({ sb with head := sb.head + n } : SendBuf).Ok ∧
      ({ sb with head := sb.head + n } : SendBuf).pending = sb.pending.drop n := by
  have hl := h.length_pending
  have h2 := h.head_le
  refine ⟨⟨h.size, ?_, h.tail_le⟩, ?_⟩
  · change sb.head + n ≤ sb.tail
    omega
  · rw [pending, pending, List.drop_drop]

end ChatSystem.Epoll
