import ChatSystem.Core.Fifo
import ChatSystem.Core.Reactive
import ChatSystem.Epoll.Output

/-!
# The send buffer as a queue

Calls of `sb_push` and `sb_flush` on one buffer, with any results of `write`, are operations of
a bounded queue of bytes. Every send buffer of the server lives by such calls.
-/

namespace ChatSystem.Epoll

open Bytes Reactive Transition

/-- `sb_flush`, with the results of its `write` calls: how it ends and what was written. The
socket has no room where no result is left, and a `write` of nothing counts as failed. -/
def sbFlush (sb : SendBuf) (as : List WriteAnswer) : Stop × List UInt8 × SendBuf :=
  if sb.head < sb.tail then
    match as with
    | [] => (.again, [], sb)
    | .again :: _ => (.again, [], sb)
    | .failed :: _ => (.failed, [], sb)
    | .took k :: as =>
      let n := min (k + 1) (sb.tail - sb.head)
      let (stop, sent, after) := sbFlush { sb with head := sb.head + n } as
      (stop, (sb.buf.drop sb.head).take n ++ sent, after)
  else (.done, [], { sb with head := 0, tail := 0 })

/-- A call on a send buffer. -/
inductive SbCall
  | push (d : List UInt8)
  | flush (as : List WriteAnswer)

/-- What a call moves. -/
inductive Moved
  | pushed (d : List UInt8)
  | written (d : List UInt8)

/-- One call, and the bytes it moves. -/
def sbCall (sb : SendBuf) : SbCall → SendBuf × List Moved
  | .push d => ((sbPush sb d).2, if (sbPush sb d).1 then [.pushed d] else [])
  | .flush as => ((sbFlush sb as).2.2, [.written (sbFlush sb as).2.1])

/-- The bytes successfully pushed. -/
def pushedBytes (ms : List Moved) : List UInt8 :=
  (ms.map fun | .pushed d => d | .written _ => []).flatten

/-- The bytes written. -/
def writtenBytes (ms : List Moved) : List UInt8 :=
  (ms.map fun | .pushed _ => [] | .written d => d).flatten

/-- The buffer holds the items of the queue. -/
structure Represents (sb : SendBuf) (q : Fifo UInt8 sbufSize) : Prop where
  ok : sb.Ok
  pending : sb.pending = q.items

variable {sb : SendBuf} {q : Fifo UInt8 sbufSize}

/-! ## The flush loop -/

theorem SendBuf.Ok.pending_eq_nil_iff (h : sb.Ok) : sb.pending = [] ↔ ¬ sb.head < sb.tail := by
  have hlen := h.length_pending
  rw [← List.length_eq_zero_iff, hlen]
  omega

theorem sbFlush_of_not_lt (h : ¬ sb.head < sb.tail) (as : List WriteAnswer) :
    sbFlush sb as = (.done, [], { sb with head := 0, tail := 0 }) := by
  rw [sbFlush.eq_def, if_neg h]

/-- A `write` that accepts some of the pending bytes. -/
theorem sbFlush_took (h : sb.head < sb.tail) {n k : Nat} (hn : n = min (k + 1) (sb.tail - sb.head))
    (as : List WriteAnswer) : sbFlush sb (.took k :: as) =
      ((sbFlush { sb with head := sb.head + n } as).1,
        (sb.buf.drop sb.head).take n ++ (sbFlush { sb with head := sb.head + n } as).2.1,
        (sbFlush { sb with head := sb.head + n } as).2.2) := by
  rw [sbFlush, if_pos h, hn]

/-- The same `write` in the loop on the bytes themselves. -/
theorem writeLoop_took {b : UInt8} {d : List UInt8} {n k : Nat}
    (hn : n = min (k + 1) (b :: d).length) (as : List WriteAnswer) :
    (writeLoop (.took k :: as) (b :: d)).1 = (writeLoop as ((b :: d).drop n)).1 ∧
      (writeLoop (.took k :: as) (b :: d)).2.1 = n + (writeLoop as ((b :: d).drop n)).2.1 := by
  have hdrop : (b :: d).drop n = d.drop k := by
    rw [hn, List.length_cons, Nat.add_min_add_right, List.drop_succ_cons, ← List.drop_eq_drop_min]
  rw [hdrop, hn]
  exact ⟨rfl, rfl⟩

/-- The loop hands the pending bytes to `write`, and an empty buffer starts over. -/
theorem sbFlush_eq (h : sb.Ok) (as : List WriteAnswer) : sbFlush sb as =
    ((writeLoop as sb.pending).1, sb.pending.take (writeLoop as sb.pending).2.1,
      if (writeLoop as sb.pending).1 = .done then { sb with head := 0, tail := 0 }
      else { sb with head := sb.head + (writeLoop as sb.pending).2.1 }) := by
  induction as generalizing sb with
  | nil =>
    by_cases hlt : sb.head < sb.tail
    · rw [sbFlush, if_pos hlt]
      cases hp : sb.pending with
      | nil => exact absurd hlt (h.pending_eq_nil_iff.mp hp)
      | cons b d => rfl
    · rw [sbFlush_of_not_lt hlt, h.pending_eq_nil_iff.mpr hlt]
      rfl
  | cons a as ih =>
    by_cases hlt : sb.head < sb.tail
    · cases hp : sb.pending with
      | nil => exact absurd hlt (h.pending_eq_nil_iff.mp hp)
      | cons b d =>
        cases a with
        | again =>
          rw [sbFlush, if_pos hlt]
          rfl
        | failed =>
          rw [sbFlush, if_pos hlt]
          rfl
        | took k =>
          obtain ⟨n, hn⟩ : ∃ n, n = min (k + 1) (sb.tail - sb.head) := ⟨_, rfl⟩
          have hlen := h.length_pending
          rw [← hlen, hp] at hn
          obtain ⟨hstop, hsent⟩ := writeLoop_took hn as
          rw [← hp] at hn hstop hsent ⊢
          obtain ⟨hok, hpending⟩ := h.advance (n := n) (by omega)
          have hfront : (sb.buf.drop sb.head).take n = sb.pending.take n := by
            rw [SendBuf.pending, List.drop_take, List.take_take, Nat.min_eq_left (by omega)]
          rw [sbFlush_took hlt (hlen ▸ hn), ih hok, hpending, hfront, hstop, hsent, List.take_add,
            Nat.add_assoc]
    · rw [sbFlush_of_not_lt hlt, h.pending_eq_nil_iff.mpr hlt]
      cases a <;> rfl

/-- A flush takes a front of the pending bytes out, and is done exactly if it is all of them. -/
theorem SendBuf.Ok.flush (h : sb.Ok) (as : List WriteAnswer) :
    (sbFlush sb as).2.2.Ok ∧ (sbFlush sb as).2.1 <+: sb.pending ∧
      (sbFlush sb as).2.2.pending = sb.pending.drop (sbFlush sb as).2.1.length ∧
      ((sbFlush sb as).1 = .done ↔ (sbFlush sb as).2.2.pending = []) := by
  obtain ⟨hle, hdone⟩ := writeLoop_spec as sb.pending
  obtain ⟨hok, hpending⟩ := h.advance hle
  rw [sbFlush_eq h]
  have hlen : (sb.pending.take (writeLoop as sb.pending).2.1).length =
      (writeLoop as sb.pending).2.1 := by
    rw [List.length_take, Nat.min_eq_left hle]
  rw [hlen]
  refine ⟨?_, List.take_prefix _ _, ?_, ?_⟩
  · split
    · exact ⟨h.size, Nat.le_refl _, Nat.zero_le _⟩
    · exact hok
  · split
    · next hstop =>
      rw [hdone.mp hstop, List.drop_length]
      rfl
    · exact hpending
  · split
    · next hstop => exact iff_of_true hstop rfl
    · next hstop =>
      rw [hpending, List.drop_eq_nil_iff, hdone]
      omega

/-! ## The queue -/

theorem pushedBytes_append (ms ns : List Moved) :
    pushedBytes (ms ++ ns) = pushedBytes ms ++ pushedBytes ns := by
  simp only [pushedBytes, List.map_append, List.flatten_append]

theorem writtenBytes_append (ms ns : List Moved) :
    writtenBytes (ms ++ ns) = writtenBytes ms ++ writtenBytes ns := by
  simp only [writtenBytes, List.map_append, List.flatten_append]

/-- An empty buffer is the empty queue. -/
theorem represents_empty (h : sb.Ok) (he : sbEmpty sb = true) : Represents sb Fifo.empty :=
  ⟨h, by rw [h.sbEmpty_iff.mp he, Fifo.items_empty]⟩

/-- A push that succeeds is one of the queue; where the queue has no room, none does. -/
theorem Represents.push (h : Represents sb q) (d : List UInt8) :
    (∃ q', q.push d = some q' ∧ (sbPush sb d).1 = true ∧ Represents (sbPush sb d).2 q') ∨
      q.push d = none ∧ (sbPush sb d).1 = false ∧ Represents (sbPush sb d).2 q := by
  obtain ⟨hok, hfits, hpending⟩ := h.ok.push d
  rw [h.pending] at hfits hpending
  cases hpush : q.push d with
  | none =>
    right
    have hfull := Fifo.push_eq_none_iff.mp hpush
    have hfalse : (sbPush sb d).1 = false := by
      rw [Bool.eq_false_iff, ne_eq, hfits]
      omega
    rw [if_neg (by simp [hfalse])] at hpending
    exact ⟨rfl, hfalse, hok, hpending⟩
  | some q' =>
    left
    obtain ⟨-, -, hitems⟩ := Fifo.push_eq_some hpush
    have htrue : (sbPush sb d).1 = true := by
      have hroom : ¬ sbufSize < q.items.length + d.length := by
        rw [← Fifo.push_eq_none_iff, hpush]
        exact nofun
      exact hfits.mpr (Nat.not_lt.mp hroom)
    rw [if_pos htrue, ← hitems] at hpending
    exact ⟨q', rfl, htrue, hok, hpending⟩

/-- A flush takes what is written out of the queue. -/
theorem Represents.flush (h : Represents sb q) (as : List WriteAnswer) :
    Represents (sbFlush sb as).2.2 (q.pop (sbFlush sb as).2.1.length) ∧
      q.items.take (sbFlush sb as).2.1.length = (sbFlush sb as).2.1 := by
  obtain ⟨hok, hfront, hpending, -⟩ := h.ok.flush as
  rw [h.pending] at hfront hpending
  constructor
  · apply Represents.mk hok
    rw [hpending, Fifo.items_pop]
  · exact (List.prefix_iff_eq_take.mp hfront).symm

/-- Every call is an operation of the queue on the bytes it moves. -/
theorem Represents.call (h : Represents sb q) (c : SbCall) : ∃ q',
    Represents (sbCall sb c).1 q' ∧ q'.put = q.put ++ pushedBytes (sbCall sb c).2 ∧
      q'.taken = q.taken ++ writtenBytes (sbCall sb c).2 := by
  cases c with
  | push d =>
    rcases h.push d with ⟨q', hpush, hdone, hq⟩ | ⟨-, hdone, hq⟩
    · obtain ⟨hput, htaken, -⟩ := Fifo.push_eq_some hpush
      refine ⟨q', hq, ?_, ?_⟩
      · simp [sbCall, hdone, pushedBytes, hput]
      · simp [sbCall, hdone, writtenBytes, htaken]
    · refine ⟨q, hq, ?_, ?_⟩
      · simp [sbCall, hdone, pushedBytes]
      · simp [sbCall, hdone, writtenBytes]
  | flush as =>
    obtain ⟨hq, htake⟩ := h.flush as
    refine ⟨_, hq, ?_, ?_⟩
    · simp [sbCall, pushedBytes, Fifo.put_pop]
    · simp [sbCall, writtenBytes, Fifo.taken_pop, htake]

/-- So is a list of calls. -/
theorem Represents.calls (h : Represents sb q) (cs : List SbCall) : ∃ q',
    Represents (after sbCall sb cs) q' ∧
      q'.put = q.put ++ pushedBytes (outputs sbCall sb cs) ∧
      q'.taken = q.taken ++ writtenBytes (outputs sbCall sb cs) := by
  induction cs generalizing sb q with
  | nil => exact ⟨q, h, (List.append_nil _).symm, (List.append_nil _).symm⟩
  | cons c cs ih =>
    obtain ⟨q₁, h₁, hput₁, htaken₁⟩ := h.call c
    obtain ⟨q₂, h₂, hput₂, htaken₂⟩ := ih h₁
    refine ⟨q₂, h₂, ?_, ?_⟩
    · rw [hput₂, hput₁, outputs_cons, pushedBytes_append, List.append_assoc]
    · rw [htaken₂, htaken₁, outputs_cons, writtenBytes_append, List.append_assoc]

/-- Whatever calls are made on an empty buffer and however their writes end, its indices stay in
order, the pending bytes are those pushed without the front that is written, a push succeeds
exactly if there is room and otherwise leaves the pending bytes alone, and a flush is done
exactly if it empties the buffer. Pushes of at most a frame keep the sums inside an `int`. -/
theorem send_buffer_fifo (h : sb.Ok) (he : sbEmpty sb = true) (cs : List SbCall) :
    let now := after sbCall sb cs
    let moved := outputs sbCall sb cs
    (now.head ≤ now.tail ∧ now.tail ≤ sbufSize) ∧
      (writtenBytes moved <+: pushedBytes moved ∧
        now.pending = (pushedBytes moved).drop (writtenBytes moved).length) ∧
      (∀ d, ((sbPush now d).1 = true ↔ now.pending.length + d.length ≤ sbufSize) ∧
        ((sbPush now d).1 = false → (sbPush now d).2.pending = now.pending) ∧
        (d.length ≤ headerSize + maxPayloadLen → now.tail + d.length < 2 ^ 31)) ∧
      ∀ as, (sbFlush now as).1 = .done ↔ sbEmpty (sbFlush now as).2.2 = true := by
  obtain ⟨q, hq, hput, htaken⟩ := (represents_empty h he).calls cs
  have hok := hq.ok
  have hput' : q.put = pushedBytes (outputs sbCall sb cs) := hput
  have htaken' : q.taken = writtenBytes (outputs sbCall sb cs) := htaken
  refine ⟨⟨hok.head_le, hok.tail_le⟩, ⟨?_, ?_⟩, fun d => ⟨(hok.push d).2.1, ?_, ?_⟩, fun as => ?_⟩
  · rw [← hput', ← htaken']
    exact q.isPrefix
  · rw [← hput', ← htaken']
    exact hq.pending
  · intro hfalse
    rw [(hok.push d).2.2, if_neg (by simp [hfalse])]
  · intro hd
    have hbound : sbufSize + (headerSize + maxPayloadLen) < 2 ^ 31 := by decide
    have htail := hok.tail_le
    omega
  · obtain ⟨hok', -, -, hdone⟩ := hok.flush as
    rw [hdone, hok'.sbEmpty_iff]

/-- Two pushes with a flush between them that is stopped after two bytes. -/
def twoPushes : List SbCall :=
  [.push (ascii "hello"), .flush [.took 1, .again], .push (ascii "!")]

/-- Of six bytes four are left, there is room for more, and a flush that is not stopped is
done. -/
theorem send_buffer_fifo_twoPushes :
    (after sbCall .zero twoPushes).pending = ascii "llo!" ∧
      (sbPush (after sbCall .zero twoPushes) (ascii "bye")).1 = true ∧
      (sbFlush (after sbCall .zero twoPushes) [.took 9]).1 = .done := by
  obtain ⟨-, ⟨-, hpending⟩, hpush, hflush⟩ :=
    send_buffer_fifo SendBuf.ok_zero rfl twoPushes
  refine ⟨hpending, (hpush (ascii "bye")).1.mpr ?_, (hflush [.took 9]).mpr rfl⟩
  rw [hpending]
  decide

/-! ## The buffers of the server -/

/-- The results the kernel gives to the `write` calls on a descriptor. -/
def Kernel.answers (k : Kernel) (fd : Nat) : List WriteAnswer :=
  match k.conn fd with
  | none => [.failed]
  | some c => if k.broken c then [.failed] else k.script

variable {srv : Server} {s : Slot}

/-- With something to write, a descriptor without a connection or with an error fails. -/
theorem Kernel.writeAll_eq (k : Kernel) (fd : Nat) (d : List UInt8) :
    (k.writeAll fd d).1 = (writeLoop (k.answers fd) d).1 ∧
      (k.writeAll fd d).2.1 = (writeLoop (k.answers fd) d).2.1 := by
  unfold writeAll answers
  cases d with
  | nil => simp [writeLoop]
  | cons b d =>
    cases k.conn fd with
    | none => exact ⟨rfl, rfl⟩
    | some c => cases hb : k.broken c <;> simp [hb, writeLoop]

/-- The flush of a slot is the loop on its buffer. -/
theorem Server.sbFlush_eq (h : (srv.clients s).sbuf.Ok) (fd : Nat) :
    (srv.sbFlush s fd).1 = (Epoll.sbFlush (srv.clients s).sbuf (srv.kernel.answers fd)).1 ∧
      ((srv.sbFlush s fd).2.clients s).sbuf =
        (Epoll.sbFlush (srv.clients s).sbuf (srv.kernel.answers fd)).2.2 := by
  have hwrite := Kernel.writeAll_eq srv.kernel fd (srv.clients s).sbuf.pending
  obtain ⟨⟨stop, sent, k⟩, hw⟩ :
      ∃ x, srv.kernel.writeAll fd (srv.clients s).sbuf.pending = x := ⟨_, rfl⟩
  rw [hw] at hwrite
  obtain ⟨hstop, hsent⟩ := hwrite
  rw [Epoll.sbFlush_eq h, ← hstop, ← hsent]
  simp only [Server.sbFlush, hw, Server.setClient, Function.update_self, true_and]
  cases stop <;> rfl

/-- A buffer that got where it is by calls, none of them with more than a frame. -/
def Lived (sb : SendBuf) : Prop :=
  ∃ cs, sb = after sbCall .zero cs ∧ ∀ d, .push d ∈ cs → d.length ≤ headerSize + maxPayloadLen

theorem lived_zero : Lived .zero := ⟨[], rfl, nofun⟩

theorem Lived.ok (h : Lived sb) : sb.Ok := by
  obtain ⟨cs, rfl, -⟩ := h
  obtain ⟨q, hq, -⟩ := (represents_empty SendBuf.ok_zero rfl).calls cs
  exact hq.ok

theorem Lived.call (h : Lived sb) {c : SbCall}
    (hc : ∀ d, c = .push d → d.length ≤ headerSize + maxPayloadLen) : Lived (sbCall sb c).1 := by
  obtain ⟨cs, rfl, hcs⟩ := h
  refine ⟨cs ++ [c], ?_, ?_⟩
  · rw [after, after, List.foldl_append]
    rfl
  · intro d hd
    rcases List.mem_append.mp hd with hd | hd
    · exact hcs d hd
    · exact hc d (List.mem_singleton.mp hd).symm

/-- Every message fits a frame. -/
theorem length_packMessage_le_frame (m : Message) :
    (packMessage m).length ≤ headerSize + maxPayloadLen := by
  rw [length_packMessage]
  exact Nat.add_le_add_left (packedLen_le m) headerSize

/-- Queueing a message leaves the buffer alone or pushes an end of its frame. -/
theorem sbuf_slotSend (srv : Server) (s : Slot) (m : Message) :
    ((srv.slotSend s m).clients s).sbuf = (srv.clients s).sbuf ∨
      ∃ d, d.length ≤ headerSize + maxPayloadLen ∧
        ((srv.slotSend s m).clients s).sbuf = (sbPush (srv.clients s).sbuf d).2 := by
  have hle := length_packMessage_le_frame m
  cases he : sbEmpty (srv.clients s).sbuf with
  | true =>
    have hslot := slotSend_of_empty m he
    simp only at hslot
    rw [hslot]
    split
    · right
      refine ⟨(packMessage m).drop _, ?_, Server.sbuf_pushAndArm ..⟩
      rw [List.length_drop]
      omega
    · exact Or.inl rfl
  | false =>
    rw [slotSend_of_nonempty m he]
    exact Or.inr ⟨packMessage m, hle, Server.sbuf_pushAndArm ..⟩

/-- The send buffers of a server all live by calls. -/
def BuffersLive (srv : Server) : Prop := ∀ i, Lived (srv.clients i).sbuf

theorem buffersLive_closed : OutputClosed BuffersLive where
  same := by
    intro a b hs h i
    rw [hs.sbuf i]
    exact h i
  send := by
    intro a s m h i
    by_cases his : i = s
    · subst his
      rcases sbuf_slotSend a i m with hsame | ⟨d, hd, hpush⟩
      · rw [hsame]
        exact h i
      · rw [hpush]
        exact (h i).call (c := .push d) fun d' hd' => SbCall.push.inj hd' ▸ hd
    · rw [sbuf_slotSend_of_ne a his]
      exact h i
  flush := by
    intro a s h i
    by_cases his : i = s
    · subst his
      rw [(Server.sbFlush_eq (h i).ok _).2]
      exact (h i).call (c := .flush _) nofun
    · rw [(sbFlush_spec (h s).ok _).2.2.1 i his]
      exact h i
  release := by
    intro a s h i
    rw [Server.clients_release]
    by_cases his : i = s
    · subst his
      rw [Function.update_self]
      exact lived_zero
    · rw [Function.update_of_ne his]
      exact h i

theorem BuffersLive.prescribe (h : BuffersLive srv) (writes : List WriteAnswer) :
    BuffersLive (srv.prescribe writes) := h

/-- An accepted connection starts with an empty buffer. -/
theorem BuffersLive.acceptOne (h : BuffersLive srv) (env : Env) (fd sent : Nat) :
    BuffersLive (srv.acceptOne env fd sent) := by
  unfold Server.acceptOne
  split
  · exact h
  · next s _ =>
    intro i
    change Lived (Function.update srv.clients s
      { Client.zero with fd := fd, inUse := true } i).sbuf
    by_cases his : i = s
    · rw [his, Function.update_self]
      exact lived_zero
    · rw [Function.update_of_ne his]
      exact h i

/-- Every send buffer of every state the server can reach is a queue of bytes: it got where it
is by calls on an empty buffer. -/
theorem buffersLive_of_reachable {history : History}
    (h : Reachable opStep (Server.init history) srv) : BuffersLive srv := by
  apply h.invariant (I := BuffersLive)
  · exact fun _ => lived_zero
  · intro a op b hi hs
    cases op with
    | event l =>
      exact buffersLive_closed.handled.step (hi.prescribe l.writes)
        (fun fd sent _ _ => (hi.prescribe l.writes).acceptOne l.env fd sent) hs
    | send i m writes =>
      obtain rfl := Option.some.inj hs
      exact buffersLive_closed.send i m (hi.prescribe writes)

end ChatSystem.Epoll
