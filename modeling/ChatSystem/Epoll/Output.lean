import ChatSystem.Epoll.Calls

/-!
# Output of the epoll server

What the kernel accepted for a connection and what is pending in its send buffer
are together the packed messages that were queued for it, without those that
found no room. Everything the server does to its outgoing data is made of three
operations: queueing, flushing, and releasing a slot.
-/

namespace ChatSystem.Epoll

open Transition

/-- The `slot_send` calls for a connection, with the number of bytes pending then. -/
def callsOf (c : Nat) (log : List Event) : List (Message × Nat) :=
  log.filterMap fun
    | .queued (some c') m n => if c' = c then some (m, n) else none
    | _ => none

/-- A message is dropped if bytes are pending and it would exceed the buffer behind them. -/
def dropped (call : Message × Nat) : Bool :=
  call.2 ≠ 0 ∧ sbufSize < call.2 + (packMessage call.1).length

/-- The messages queued for a connection that were not dropped. -/
def keptFor (c : Nat) (log : List Event) : List Message :=
  ((callsOf c log).filter fun call => !dropped call).map Prod.fst

/-- The packed frames of messages, one after the other. -/
def packed (ms : List Message) : List UInt8 := (ms.map packMessage).flatten

/-- Accepted and pending bytes are the packed messages kept for a connection; behind a
permanent error the accepted bytes are the front of them. -/
structure OutputOk (srv : Server) : Prop where
  buf : ∀ i, (srv.clients i).sbuf.Ok
  zero : srv.kernel.conn 0 = none
  inj : ∀ i j c, srv.connOf i = some c → srv.connOf j = some c → i = j
  conn_lt : ∀ i c, srv.connOf i = some c → c < srv.kernel.accepted
  fresh : ∀ c, srv.kernel.accepted ≤ c → srv.kernel.wire c = [] ∧
    srv.kernel.broken c = false ∧ keptFor c srv.log = []
  isPrefix : ∀ c, srv.kernel.wire c <+: packed (keptFor c srv.log)
  exact : ∀ i c, srv.connOf i = some c → srv.kernel.broken c = false →
    srv.kernel.wire c ++ (srv.clients i).sbuf.pending = packed (keptFor c srv.log)

/-- The descriptors and the outgoing data are the same. -/
structure SameOutput (a b : Server) : Prop where
  fd : ∀ i, (b.clients i).fd = (a.clients i).fd
  sbuf : ∀ i, (b.clients i).sbuf = (a.clients i).sbuf
  conn : b.kernel.conn = a.kernel.conn
  wire : b.kernel.wire = a.kernel.wire
  broken : b.kernel.broken = a.kernel.broken
  accepted : b.kernel.accepted = a.kernel.accepted
  calls : ∀ c, callsOf c b.log = callsOf c a.log

variable {a b srv : Server}

theorem packed_append (ms ns : List Message) : packed (ms ++ ns) = packed ms ++ packed ns := by
  simp [packed]

theorem callsOf_append (c : Nat) (l k : List Event) :
    callsOf c (l ++ k) = callsOf c l ++ callsOf c k := List.filterMap_append ..

theorem keptFor_append (c : Nat) (l k : List Event) :
    keptFor c (l ++ k) = keptFor c l ++ keptFor c k := by
  simp [keptFor, callsOf_append]

theorem keptFor_of_calls {c : Nat} {l k : List Event} (h : callsOf c l = callsOf c k) :
    keptFor c l = keptFor c k := by
  rw [keptFor, keptFor, h]

/-- The messages kept of one call. -/
theorem keptFor_queued (c : Nat) (m : Message) (n : Nat) :
    keptFor c [.queued (some c) m n] = if dropped (m, n) then [] else [m] := by
  simp only [keptFor, callsOf, List.filterMap_cons, if_true, List.filterMap_nil]
  by_cases h : dropped (m, n) = true <;> simp [h]

theorem keptFor_queued_ne {c : Nat} {x : Option Nat} (h : x ≠ some c) (m : Message) (n : Nat) :
    keptFor c [.queued x m n] = [] := by
  cases x with
  | none => rfl
  | some c' =>
    have hne : c' ≠ c := fun he => h (congrArg some he)
    simp [keptFor, callsOf, hne]

theorem SameOutput.connOf (h : SameOutput a b) (i : Slot) : b.connOf i = a.connOf i := by
  rw [Server.connOf, h.fd, h.conn, Server.connOf]

theorem OutputOk.same (h : OutputOk a) (hs : SameOutput a b) : OutputOk b := by
  have hkept : ∀ c, keptFor c b.log = keptFor c a.log := fun c => keptFor_of_calls (hs.calls c)
  refine ⟨fun i => ?_, ?_, fun i j c hi hj => ?_, fun i c hi => ?_, fun c hc => ?_,
    fun c => ?_, fun i c hi hb => ?_⟩
  · rw [hs.sbuf]
    exact h.buf i
  · rw [hs.conn]
    exact h.zero
  · rw [hs.connOf] at hi hj
    exact h.inj i j c hi hj
  · rw [hs.accepted]
    exact h.conn_lt i c (hs.connOf i ▸ hi)
  · rw [hs.wire, hs.broken, hkept]
    exact h.fresh c (hs.accepted ▸ hc)
  · rw [hs.wire, hkept]
    exact h.isPrefix c
  · rw [hs.connOf] at hi
    rw [hs.broken] at hb
    rw [hs.wire, hs.sbuf, hkept]
    exact h.exact i c hi hb

/-- A change of the outgoing data of one slot and its connection. -/
theorem OutputOk.change (h : OutputOk a) {s : Slot} (hfd : ∀ i, (b.clients i).fd = (a.clients i).fd)
    (hconn : b.kernel.conn = a.kernel.conn) (hacc : b.kernel.accepted = a.kernel.accepted)
    (hbuf : (b.clients s).sbuf.Ok)
    (hsbuf : ∀ i, i ≠ s → (b.clients i).sbuf = (a.clients i).sbuf)
    (hother : ∀ c, a.connOf s ≠ some c → b.kernel.wire c = a.kernel.wire c ∧
      b.kernel.broken c = a.kernel.broken c ∧ keptFor c b.log = keptFor c a.log)
    (hself : ∀ c, a.connOf s = some c → b.kernel.wire c <+: packed (keptFor c b.log) ∧
      (b.kernel.broken c = false →
        b.kernel.wire c ++ (b.clients s).sbuf.pending = packed (keptFor c b.log))) :
    OutputOk b := by
  have hconnOf : ∀ i, b.connOf i = a.connOf i := fun i => by
    rw [Server.connOf, hfd, hconn, Server.connOf]
  refine ⟨fun i => ?_, ?_, fun i j c hi hj => ?_, fun i c hi => ?_, fun c hc => ?_,
    fun c => ?_, fun i c hi hb => ?_⟩
  · by_cases hi : i = s
    · exact hi ▸ hbuf
    · rw [hsbuf i hi]
      exact h.buf i
  · rw [hconn]
    exact h.zero
  · exact h.inj i j c (hconnOf i ▸ hi) (hconnOf j ▸ hj)
  · rw [hacc]
    exact h.conn_lt i c (hconnOf i ▸ hi)
  · rw [hacc] at hc
    have hne : a.connOf s ≠ some c := fun he => absurd (h.conn_lt s c he) (Nat.not_lt.mpr hc)
    rw [(hother c hne).1, (hother c hne).2.1, (hother c hne).2.2]
    exact h.fresh c hc
  · by_cases hc : a.connOf s = some c
    · exact (hself c hc).1
    · rw [(hother c hc).1, (hother c hc).2.2]
      exact h.isPrefix c
  · rw [hconnOf] at hi
    by_cases hc : a.connOf s = some c
    · obtain rfl := h.inj i s c hi hc
      exact (hself c hc).2 hb
    · obtain ⟨h1, h2, h3⟩ := hother c hc
      have his : i ≠ s := fun he => hc (he ▸ hi)
      rw [h2] at hb
      rw [h1, h3, hsbuf i his]
      exact h.exact i c hi hb

/-! ## Queueing -/

theorem Server.sbuf_pushAndArm (srv : Server) (s : Slot) (d : List UInt8) :
    ((srv.pushAndArm s d).clients s).sbuf = (sbPush (srv.clients s).sbuf d).2 := by
  simp only [pushAndArm, setClient, Function.update_self]

theorem Server.sbuf_pushAndArm_of_ne (srv : Server) {s i : Slot} (h : i ≠ s) (d : List UInt8) :
    ((srv.pushAndArm s d).clients i).sbuf = (srv.clients i).sbuf := by
  simp only [pushAndArm, setClient, Function.update_of_ne h]

theorem Server.wire_pushAndArm (srv : Server) (s : Slot) (d : List UInt8) :
    (srv.pushAndArm s d).kernel.wire = srv.kernel.wire :=
  Kernel.epmod_wire ..

theorem Server.broken_pushAndArm (srv : Server) (s : Slot) (d : List UInt8) :
    (srv.pushAndArm s d).kernel.broken = srv.kernel.broken :=
  Kernel.epmod_broken ..

theorem length_packMessage_le (m : Message) : (packMessage m).length ≤ sbufSize := by
  have := packedLen_le m
  rw [length_packMessage]
  unfold headerSize sbufSize
  unfold maxPayloadLen at this
  omega

theorem length_packMessage_pos (m : Message) : 0 < (packMessage m).length := by
  rw [length_packMessage]
  unfold headerSize
  omega

/-- The direct-write path of `slot_send`, in terms of the write loop. -/
theorem slotSend_of_empty {s : Slot} (m : Message) (he : sbEmpty (srv.clients s).sbuf = true) :
    let wrote := srv.kernel.writeAll (srv.clients s).fd (packMessage m)
    let noted := srv.note (.queued (srv.connOf s) m (srv.clients s).sbuf.pending.length)
    srv.slotSend s m = match wrote.1 with
      | .again => { noted with kernel := wrote.2.2 }.pushAndArm s
          ((packMessage m).drop wrote.2.1)
      | _ => { noted with kernel := wrote.2.2 } := by
  have hpos := length_packMessage_pos m
  obtain ⟨⟨stop, sent, k⟩, hw⟩ : ∃ x, srv.kernel.writeAll (srv.clients s).fd (packMessage m) = x :=
    ⟨_, rfl⟩
  have hw' : (srv.note (.queued (srv.connOf s) m
      (srv.clients s).sbuf.pending.length)).kernel.writeAll (srv.clients s).fd (packMessage m) =
        (stop, sent, k) := hw
  simp only [Server.slotSend, hw, hw']
  rw [if_neg (by omega), he, if_pos rfl]
  cases stop <;> rfl

/-- What the direct-write path leaves behind. -/
theorem slotSend_direct {s : Slot} (m : Message) (hbuf : (srv.clients s).sbuf.Ok)
    (he : sbEmpty (srv.clients s).sbuf = true) :
    let wrote := srv.kernel.writeAll (srv.clients s).fd (packMessage m)
    (srv.slotSend s m).kernel.wire = wrote.2.2.wire ∧
      (srv.slotSend s m).kernel.broken = wrote.2.2.broken ∧
      (srv.slotSend s m).log = srv.log ++ [.queued (srv.connOf s) m 0] ∧
      (∀ i, i ≠ s → ((srv.slotSend s m).clients i).sbuf = (srv.clients i).sbuf) ∧
      ((srv.slotSend s m).clients s).sbuf.Ok ∧
      ((srv.slotSend s m).clients s).sbuf.pending =
        if wrote.1 = .again then (packMessage m).drop wrote.2.1 else [] := by
  have hempty := hbuf.sbEmpty_iff.mp he
  have hslot := slotSend_of_empty m he
  obtain ⟨⟨stop, sent, k⟩, hw⟩ : ∃ x, srv.kernel.writeAll (srv.clients s).fd (packMessage m) = x :=
    ⟨_, rfl⟩
  simp only [hw, hempty, List.length_nil] at hslot ⊢
  cases stop with
  | done => exact hslot ▸ ⟨rfl, rfl, rfl, fun _ _ => rfl, hbuf, hempty⟩
  | failed => exact hslot ▸ ⟨rfl, rfl, rfl, fun _ _ => rfl, hbuf, hempty⟩
  | again =>
    obtain ⟨p1, p2, p3⟩ := hbuf.push ((packMessage m).drop sent)
    have hle := length_packMessage_le m
    have hfit : (sbPush (srv.clients s).sbuf ((packMessage m).drop sent)).1 = true := by
      rw [p2, hempty, List.length_drop, List.length_nil]
      omega
    rw [if_pos hfit, hempty, List.nil_append] at p3
    rw [hslot]
    refine ⟨Server.wire_pushAndArm .., Server.broken_pushAndArm .., rfl,
      fun i hi => Server.sbuf_pushAndArm_of_ne _ hi _, ?_, ?_⟩
    · rw [Server.sbuf_pushAndArm]
      exact p1
    · rw [Server.sbuf_pushAndArm, if_pos rfl]
      exact p3

/-- The queued path of `slot_send`. -/
theorem slotSend_of_nonempty {s : Slot} (m : Message)
    (he : sbEmpty (srv.clients s).sbuf = false) : srv.slotSend s m =
      (srv.note (.queued (srv.connOf s) m (srv.clients s).sbuf.pending.length)).pushAndArm s
        (packMessage m) := by
  have hpos := length_packMessage_pos m
  simp only [Server.slotSend]
  rw [if_neg (by omega), he]
  simp only [Bool.false_eq_true, if_false]

theorem sbuf_slotSend_of_ne (srv : Server) {s i : Slot} (h : i ≠ s) (m : Message) :
    ((srv.slotSend s m).clients i).sbuf = (srv.clients i).sbuf := by
  cases he : sbEmpty (srv.clients s).sbuf with
  | true =>
    have hslot := slotSend_of_empty m he
    simp only at hslot
    rw [hslot]
    split
    · exact Server.sbuf_pushAndArm_of_ne _ h _
    · rfl
  | false =>
    rw [slotSend_of_nonempty m he, Server.sbuf_pushAndArm_of_ne _ h]
    rfl

theorem sbufOk_slotSend {s : Slot} (h : (srv.clients s).sbuf.Ok) (m : Message) :
    ((srv.slotSend s m).clients s).sbuf.Ok := by
  cases he : sbEmpty (srv.clients s).sbuf with
  | true => exact (slotSend_direct m h he).2.2.2.2.1
  | false =>
    rw [slotSend_of_nonempty m he, Server.sbuf_pushAndArm]
    exact (h.push (packMessage m)).1

theorem OutputOk.slotSend_direct (h : OutputOk srv) {s : Slot} (m : Message)
    (he : sbEmpty (srv.clients s).sbuf = true) : OutputOk (srv.slotSend s m) := by
  have hempty := (h.buf s).sbEmpty_iff.mp he
  have hfr := OutputOnly.slotSend srv s m
  obtain ⟨h1, h2, h3, h4, h5, h6⟩ := Epoll.slotSend_direct m (h.buf s) he
  refine h.change (s := s) hfr.fd hfr.conn hfr.accepted h5 h4 (fun c hc => ?_) fun c hc => ?_
  · obtain ⟨hw, hb⟩ := Kernel.writeAll_other hc (packMessage m)
    rw [h1, h2, h3, hw, hb, keptFor_append, keptFor_queued_ne hc, List.append_nil]
    exact ⟨rfl, rfl, rfl⟩
  · obtain ⟨w3, w4, w5⟩ := Kernel.writeAll_spec hc (packMessage m)
    have w2 := (Kernel.writeAll_le srv.kernel (srv.clients s).fd (packMessage m)).2
    have hkept : packed (keptFor c (srv.slotSend s m).log) =
        packed (keptFor c srv.log) ++ packMessage m := by
      rw [h3, hc, keptFor_append, keptFor_queued, packed_append]
      simp [dropped, packed]
    rw [h1, h2, h6, hkept, w3]
    refine ⟨?_, fun hb => ?_⟩
    · cases hbroken : srv.kernel.broken c with
      | true =>
        rw [w4 hbroken, List.take_zero, List.append_nil]
        exact (h.isPrefix c).trans (List.prefix_append _ _)
      | false =>
        have hexact := h.exact s c hc hbroken
        rw [hempty, List.append_nil] at hexact
        rw [hexact]
        exact List.prefix_append_right_inj _ |>.mpr (List.take_prefix _ _)
    · obtain ⟨hbroken, hstop⟩ := w5 hb
      have hexact := h.exact s c hc hbroken
      rw [hempty, List.append_nil] at hexact
      rw [hexact, List.append_assoc]
      congr 1
      split
      · exact List.take_append_drop _ _
      · next hagain =>
        have hdone : (srv.kernel.writeAll (srv.clients s).fd (packMessage m)).1 = .done := by
          cases hs : (srv.kernel.writeAll (srv.clients s).fd (packMessage m)).1 with
          | done => rfl
          | again => exact absurd hs hagain
          | failed => exact absurd hs hstop
        rw [w2.mp hdone, List.take_length, List.append_nil]

theorem OutputOk.slotSend_queued (h : OutputOk srv) {s : Slot} (m : Message)
    (he : sbEmpty (srv.clients s).sbuf = false) :
    OutputOk (srv.slotSend s m) := by
  have hbuf := h.buf s
  have hne : (srv.clients s).sbuf.pending ≠ [] := fun hn => by
    rw [hbuf.sbEmpty_iff.mpr hn] at he
    cases he
  have hlen : (srv.clients s).sbuf.pending.length ≠ 0 := fun h0 => hne (List.length_eq_zero_iff.mp h0)
  have hslot := slotSend_of_nonempty m he
  have hfr := OutputOnly.slotSend srv s m
  obtain ⟨p1, p2, p3⟩ := hbuf.push (packMessage m)
  have hlog : (srv.slotSend s m).log =
      srv.log ++ [.queued (srv.connOf s) m (srv.clients s).sbuf.pending.length] := by
    rw [hslot]
    rfl
  have hwire : (srv.slotSend s m).kernel.wire = srv.kernel.wire := by
    rw [hslot, Server.wire_pushAndArm]
    rfl
  have hbroken : (srv.slotSend s m).kernel.broken = srv.kernel.broken := by
    rw [hslot, Server.broken_pushAndArm]
    rfl
  have hsbuf : ((srv.slotSend s m).clients s).sbuf = (sbPush (srv.clients s).sbuf (packMessage m)).2 := by
    rw [hslot, Server.sbuf_pushAndArm]
    rfl
  refine h.change (s := s) hfr.fd hfr.conn hfr.accepted (by rw [hsbuf]; exact p1) (fun i hi => ?_)
    (fun c hc => ?_) fun c hc => ?_
  · rw [hslot, Server.sbuf_pushAndArm_of_ne _ hi]
    rfl
  · rw [hwire, hbroken, hlog, keptFor_append, keptFor_queued_ne hc, List.append_nil]
    exact ⟨rfl, rfl, rfl⟩
  · rw [hwire, hbroken, hlog, hc, keptFor_append, keptFor_queued, hsbuf, p3]
    by_cases hfit : (srv.clients s).sbuf.pending.length + (packMessage m).length ≤ sbufSize
    · have hdrop : dropped (m, (srv.clients s).sbuf.pending.length) = false := by
        simpa [dropped] using fun _ => hfit
      rw [hdrop, if_pos (p2.mpr hfit), if_neg Bool.false_ne_true, packed_append]
      refine ⟨(h.isPrefix c).trans (List.prefix_append _ _), fun hb => ?_⟩
      rw [← List.append_assoc, h.exact s c hc hb]
      simp [packed]
    · have hdrop : dropped (m, (srv.clients s).sbuf.pending.length) = true := by
        simpa [dropped, hlen] using Nat.not_le.mp hfit
      rw [hdrop, if_neg (fun hp => hfit (p2.mp hp)), if_pos rfl, List.append_nil]
      exact ⟨h.isPrefix c, h.exact s c hc⟩

theorem OutputOk.slotSend (h : OutputOk srv) (s : Slot) (m : Message) :
    OutputOk (srv.slotSend s m) := by
  cases he : sbEmpty (srv.clients s).sbuf with
  | true => exact h.slotSend_direct m he
  | false => exact h.slotSend_queued m he

/-! ## Flushing and releasing -/

/-- What a flush leaves behind. -/
theorem sbFlush_spec {s : Slot} (hbuf : (srv.clients s).sbuf.Ok) (fd : Nat) :
    let wrote := srv.kernel.writeAll fd (srv.clients s).sbuf.pending
    (srv.sbFlush s fd).2.kernel = wrote.2.2 ∧ (srv.sbFlush s fd).2.log = srv.log ∧
      (∀ i, i ≠ s → ((srv.sbFlush s fd).2.clients i).sbuf = (srv.clients i).sbuf) ∧
      ((srv.sbFlush s fd).2.clients s).sbuf.Ok ∧
      ((srv.sbFlush s fd).2.clients s).sbuf.pending =
        (srv.clients s).sbuf.pending.drop wrote.2.1 := by
  obtain ⟨hle, hdone⟩ := Kernel.writeAll_le srv.kernel fd (srv.clients s).sbuf.pending
  obtain ⟨⟨stop, sent, k⟩, hw⟩ :
      ∃ x, srv.kernel.writeAll fd (srv.clients s).sbuf.pending = x := ⟨_, rfl⟩
  obtain ⟨hok, hpending⟩ := hbuf.advance (hw ▸ hle)
  simp only [hw] at hle hdone hok hpending ⊢
  simp only [Server.sbFlush, hw, Server.setClient, Function.update_self]
  refine ⟨trivial, trivial, fun i hi => by rw [Function.update_of_ne hi], ?_⟩
  cases stop with
  | done =>
    refine ⟨⟨hbuf.size, Nat.le_refl _, Nat.zero_le _⟩, ?_⟩
    rw [hdone.mp rfl, List.drop_length]
    simp [SendBuf.pending]
  | again => exact ⟨hok, hpending⟩
  | failed => exact ⟨hok, hpending⟩

theorem OutputOk.sbFlush (h : OutputOk srv) (s : Slot) :
    OutputOk (srv.sbFlush s (srv.clients s).fd).2 := by
  have hfr := outputOnly_sbFlush srv s (srv.clients s).fd
  obtain ⟨h1, h2, h3, h4, h5⟩ := sbFlush_spec (h.buf s) (srv.clients s).fd
  refine h.change (s := s) hfr.fd hfr.conn hfr.accepted h4 h3 (fun c hc => ?_) fun c hc => ?_
  · obtain ⟨hw, hb⟩ := Kernel.writeAll_other hc (srv.clients s).sbuf.pending
    rw [h1, h2]
    exact ⟨hw, hb, rfl⟩
  · obtain ⟨w1, w2, w3⟩ := Kernel.writeAll_spec hc (srv.clients s).sbuf.pending
    rw [h1, h2, h5, w1, List.append_assoc, List.take_append_drop]
    refine ⟨?_, fun hb => h.exact s c hc (w3 hb).1⟩
    cases hbroken : srv.kernel.broken c with
    | true =>
      rw [w2 hbroken, List.take_zero, List.append_nil]
      exact h.isPrefix c
    | false =>
      rw [← h.exact s c hc hbroken]
      exact List.prefix_append_right_inj _ |>.mpr (List.take_prefix _ _)

theorem OutputOk.release (h : OutputOk srv) (s : Slot) : OutputOk (srv.release s) := by
  have hconn : (srv.release s).kernel.conn =
      Function.update srv.kernel.conn (srv.clients s).fd none := rfl
  have hzero : (srv.release s).kernel.conn 0 = none := by
    rw [hconn]
    by_cases h0 : 0 = (srv.clients s).fd
    · rw [← h0, Function.update_self]
    · rw [Function.update_of_ne h0]
      exact h.zero
  have hconnOf : ∀ i c, (srv.release s).connOf i = some c → i ≠ s ∧ srv.connOf i = some c := by
    intro i c hi
    by_cases his : i = s
    · subst his
      rw [Server.connOf, Server.clients_release, Function.update_self] at hi
      exact absurd (hi.symm.trans hzero) (Option.some_ne_none c)
    · refine ⟨his, ?_⟩
      rw [Server.connOf, Server.clients_release, Function.update_of_ne his, hconn] at hi
      by_cases hd : (srv.clients i).fd = (srv.clients s).fd
      · rw [hd, Function.update_self] at hi
        cases hi
      · rwa [Function.update_of_ne hd] at hi
  refine ⟨fun i => ?_, hzero, fun i j c hi hj => h.inj i j c (hconnOf i c hi).2 (hconnOf j c hj).2,
    fun i c hi => h.conn_lt i c (hconnOf i c hi).2, h.fresh, h.isPrefix, fun i c hi hb => ?_⟩
  · rw [Server.clients_release]
    by_cases his : i = s
    · subst his
      rw [Function.update_self]
      exact SendBuf.ok_zero
    · rw [Function.update_of_ne his]
      exact h.buf i
  · obtain ⟨his, hi⟩ := hconnOf i c hi
    rw [Server.clients_release, Function.update_of_ne his]
    exact h.exact i c hi hb

/-! ## The operations of the server -/

/-- A property of the outgoing data: kept by queueing, flushing, releasing a slot, and by
everything that does not touch them. -/
structure OutputClosed (P : Server → Prop) : Prop where
  same : ∀ {a b}, SameOutput a b → P a → P b
  send : ∀ {a} s m, P a → P (a.slotSend s m)
  flush : ∀ {a} s, P a → P (a.sbFlush s (a.clients s).fd).2
  release : ∀ {a} s, P a → P (a.release s)

theorem outputOk_closed : OutputClosed OutputOk :=
  ⟨fun hs h => h.same hs, fun s m h => h.slotSend s m, fun s h => h.sbFlush s,
    fun s h => h.release s⟩

theorem sameOutput_setClient {s : Slot} {c : Client} (hfd : c.fd = (a.clients s).fd)
    (hsbuf : c.sbuf = (a.clients s).sbuf) : SameOutput a (a.setClient s c) := by
  refine ⟨fun i => ?_, fun i => ?_, rfl, rfl, rfl, rfl, fun _ => rfl⟩ <;>
  · by_cases hi : i = s
    · subst hi
      simp only [Server.setClient, Function.update_self, hfd, hsbuf]
    · simp only [Server.setClient, Function.update_of_ne hi]

theorem sameOutput_setEntry (a : Server) (s : Slot) (e : Entry) : SameOutput a (a.setEntry s e) :=
  sameOutput_setClient rfl rfl

theorem sameOutput_note {e : Event} (he : e.isInput = true) : SameOutput a (a.note e) := by
  refine ⟨fun _ => rfl, fun _ => rfl, rfl, rfl, rfl, rfl, fun c => ?_⟩
  rw [Server.note, callsOf_append]
  cases e <;> first | exact List.append_nil _ | cases he

theorem sameOutput_history (h : History) : SameOutput a { a with history := h } :=
  ⟨fun _ => rfl, fun _ => rfl, rfl, rfl, rfl, rfl, fun _ => rfl⟩

theorem sameOutput_epmod (fd : Nat) (out : Bool) :
    SameOutput a { a with kernel := a.kernel.epmod fd out } :=
  ⟨fun _ => rfl, fun _ => rfl, Kernel.epmod_conn .., Kernel.epmod_wire .., Kernel.epmod_broken ..,
    Kernel.epmod_accepted .., fun _ => rfl⟩

/-- Every operation of the handlers is one of these. -/
theorem OutputClosed.handled {P : Server → Prop} (hP : OutputClosed P) : Handled P where
  note he h := hP.same (sameOutput_note he) h
  input hc h := hP.same (sameOutput_setClient hc.fd hc.sbuf) h
  save h ha := hP.same (sameOutput_history h) ha
  send s m h := hP.send s m h
  login _ _ _ h := hP.same (sameOutput_setEntry _ _ _) h
  clear _ h := hP.same (sameOutput_setEntry _ _ _) h
  status _ _ h := hP.same (sameOutput_setEntry _ _ _) h
  release s _ h := hP.release s h
  flush := by
    intro a b s fd stop hfind hflush h
    have hb := hP.flush s h
    rw [(findByFd_eq_some hfind).2, hflush] at hb
    split
    · exact hP.same (sameOutput_epmod fd false) hb
    · exact hb

/-! ## Runs -/

theorem outputOk_init (history : History) : OutputOk (Server.init history) :=
  ⟨fun _ => SendBuf.ok_zero, rfl, fun _ _ _ h => (Option.some_ne_none _ h.symm).elim,
    fun _ _ h => (Option.some_ne_none _ h.symm).elim, fun _ _ => ⟨rfl, rfl, rfl⟩,
    fun _ => List.nil_prefix, fun _ _ h => (Option.some_ne_none _ h.symm).elim⟩

theorem sameOutput_prescribe (srv : Server) (writes : List WriteAnswer) :
    SameOutput srv (srv.prescribe writes) :=
  ⟨fun _ => rfl, fun _ => rfl, rfl, rfl, rfl, rfl, fun _ => rfl⟩

/-- A rejected connection gets the front of one frame. -/
theorem OutputOk.reject (h : OutputOk srv) (env : Env) {fd : Nat} (sent : Nat)
    (hfresh : srv.kernel.conn fd = none) : OutputOk (srv.reject env fd sent) := by
  obtain ⟨f1, f2, f3⟩ := h.fresh srv.kernel.accepted (Nat.le_refl _)
  have hconn : (srv.reject env fd sent).kernel.conn = srv.kernel.conn := by
    change Function.update (Function.update srv.kernel.conn fd _) fd none = _
    rw [Function.update_idem, ← hfresh, Function.update_eq_self]
  have hconnOf : ∀ i, (srv.reject env fd sent).connOf i = srv.connOf i := fun i => by
    rw [Server.connOf, hconn]
    rfl
  have hkept : ∀ c, c ≠ srv.kernel.accepted →
      keptFor c (srv.reject env fd sent).log = keptFor c srv.log := fun c hc => by
    change keptFor c (srv.log ++ _) = _
    rw [keptFor_append, keptFor_queued_ne (fun he => hc (Option.some.inj he).symm), List.append_nil]
  have hwire : ∀ c, c ≠ srv.kernel.accepted →
      (srv.reject env fd sent).kernel.wire c = srv.kernel.wire c :=
    fun c hc => Function.update_of_ne hc _ _
  have hbroken : ∀ c, c ≠ srv.kernel.accepted →
      (srv.reject env fd sent).kernel.broken c = srv.kernel.broken c :=
    fun c hc => Function.update_of_ne hc _ _
  refine ⟨h.buf, by rw [hconn]; exact h.zero, fun i j c hi hj => ?_, fun i c hi => ?_,
    fun c hc => ?_, fun c => ?_, fun i c hi hb => ?_⟩
  · exact h.inj i j c (hconnOf i ▸ hi) (hconnOf j ▸ hj)
  · exact Nat.lt_succ_of_lt (h.conn_lt i c (hconnOf i ▸ hi))
  · have hc : srv.kernel.accepted < c := hc
    rw [hwire c (Nat.ne_of_gt hc), hbroken c (Nat.ne_of_gt hc), hkept c (Nat.ne_of_gt hc)]
    exact h.fresh c hc.le
  · by_cases hc : c = srv.kernel.accepted
    · subst hc
      have hw : (srv.reject env fd sent).kernel.wire srv.kernel.accepted =
          (packMessage (serverFull env.now)).take sent := by
        refine (Function.update_self _ _ _).trans ?_
        change srv.kernel.wire srv.kernel.accepted ++ _ = _
        rw [f1, List.nil_append]
      have hk : packed (keptFor srv.kernel.accepted (srv.reject env fd sent).log) =
          packMessage (serverFull env.now) := by
        change packed (keptFor _ (srv.log ++ _)) = _
        rw [keptFor_append, f3, keptFor_queued]
        simp [dropped, packed]
      rw [hw, hk]
      exact List.take_prefix _ _
    · rw [hwire c hc, hkept c hc]
      exact h.isPrefix c
  · rw [hconnOf] at hi
    have hc := Nat.ne_of_lt (h.conn_lt i c hi)
    rw [hbroken c hc] at hb
    rw [hwire c hc, hkept c hc]
    exact h.exact i c hi hb

/-- A slot that is filled with the next connection starts with nothing accepted and nothing
pending. -/
theorem OutputOk.admit (h : OutputOk srv) {b : Server} {s : Slot} {fd : Nat} (h0 : 0 ≠ fd)
    (hne : ∀ i, (srv.clients i).fd ≠ fd)
    (hself : b.clients s = { Client.zero with fd := fd, inUse := true })
    (hothers : ∀ i, i ≠ s → b.clients i = srv.clients i)
    (hconn : b.kernel.conn = Function.update srv.kernel.conn fd (some srv.kernel.accepted))
    (hkept : ∀ c, keptFor c b.log = keptFor c srv.log) (hwire : b.kernel.wire = srv.kernel.wire)
    (hbroken : b.kernel.broken = srv.kernel.broken)
    (hacc : b.kernel.accepted = srv.kernel.accepted + 1) : OutputOk b := by
  obtain ⟨f1, f2, f3⟩ := h.fresh srv.kernel.accepted (Nat.le_refl _)
  have hconn_s : b.connOf s = some srv.kernel.accepted := by
    rw [Server.connOf, hself, hconn]
    exact Function.update_self _ _ _
  have hconnOf : ∀ i, i ≠ s → b.connOf i = srv.connOf i := fun i hi => by
    rw [Server.connOf, hothers i hi, hconn, Function.update_of_ne (hne i), Server.connOf]
  refine ⟨fun i => ?_, ?_, fun i j c hi hj => ?_, fun i c hi => ?_, fun c hc => ?_,
    fun c => ?_, fun i c hi hb => ?_⟩
  · by_cases his : i = s
    · rw [his, hself]
      exact SendBuf.ok_zero
    · rw [hothers i his]
      exact h.buf i
  · rw [hconn, Function.update_of_ne h0]
    exact h.zero
  · by_cases his : i = s <;> by_cases hjs : j = s
    · exact his.trans hjs.symm
    · rw [his, hconn_s] at hi
      rw [hconnOf j hjs] at hj
      exact absurd (h.conn_lt j c hj) (by rw [← Option.some.inj hi]; exact Nat.lt_irrefl _)
    · rw [hjs, hconn_s] at hj
      rw [hconnOf i his] at hi
      exact absurd (h.conn_lt i c hi) (by rw [← Option.some.inj hj]; exact Nat.lt_irrefl _)
    · exact h.inj i j c (hconnOf i his ▸ hi) (hconnOf j hjs ▸ hj)
  · rw [hacc]
    by_cases his : i = s
    · rw [his, hconn_s] at hi
      exact Nat.lt_succ_of_le (Option.some.inj hi).ge
    · exact Nat.lt_succ_of_lt (h.conn_lt i c (hconnOf i his ▸ hi))
  · rw [hwire, hbroken, hkept]
    exact h.fresh c (by omega)
  · rw [hwire, hkept]
    exact h.isPrefix c
  · rw [hwire, hkept]
    by_cases his : i = s
    · rw [his, hconn_s] at hi
      obtain rfl := Option.some.inj hi
      rw [his, hself, f1, f3]
      exact SendBuf.pending_zero
    · rw [hothers i his]
      rw [hbroken] at hb
      exact h.exact i c (hconnOf i his ▸ hi) hb

theorem OutputOk.acceptOne (h : OutputOk srv) (hinv : Inv srv) (env : Env) {fd : Nat} (sent : Nat)
    (hfresh : srv.kernel.conn fd = none) (hfd : reservedFds ≤ fd) :
    OutputOk (srv.acceptOne env fd sent) := by
  unfold Server.acceptOne
  split
  · exact h.reject env sent hfresh
  · next s hfree =>
    have h0 : 0 ≠ fd := by
      rintro rfl
      exact absurd hfd (by decide)
    apply h.admit h0 (hinv.fd_ne_of_fresh hfresh hfd) (s := s)
    · exact Function.update_self _ _ _
    · exact fun i hi => Function.update_of_ne hi _ _
    · rfl
    · exact fun c => (keptFor_append c srv.log _).trans (List.append_nil _)
    · rfl
    · rfl
    · rfl

theorem OutputOk.step (h : OutputOk srv) (hinv : Inv srv) {l : Label}
    (hs : step srv l = some a) : OutputOk a := by
  have hp := h.same (sameOutput_prescribe srv l.writes)
  refine outputOk_closed.handled.step hp (fun fd sent hfresh hfd => ?_) hs
  exact hp.acceptOne (hinv.prescribe l.writes) l.env sent hfresh hfd

/-- The events of the loop, with further `slot_send` calls in between. -/
inductive Op
  | event (l : Label)
  | send (s : Slot) (m : Message) (writes : List WriteAnswer)

/-- One event or one call. -/
def opStep (srv : Server) : Op → Option Server
  | .event l => step srv l
  | .send s m writes => some ((srv.prescribe writes).slotSend s m)

theorem outputOk_of_reachable {history : History}
    (h : Reachable opStep (Server.init history) srv) : OutputOk srv := by
  refine (h.invariant (I := fun srv => Inv srv ∧ OutputOk srv)
    ⟨inv_init history, outputOk_init history⟩ fun s op t hi hs => ?_).2
  cases op with
  | event l => exact ⟨hi.1.step hs, hi.2.step hi.1 hs⟩
  | send i m writes =>
    obtain rfl := Option.some.inj hs
    exact ⟨(hi.1.prescribe writes).quiet (OutputOnly.slotSend _ i m).toQuiet,
      (hi.2.same (sameOutput_prescribe s writes)).slotSend i m⟩

/-- The output of a connection is intact: whatever `slot_send` and `handle_write` calls
are made and however their writes end, the accepted and the pending bytes are the
packed messages queued for the connection, in order, without those dropped for want
of room; after a permanent error the accepted bytes are the front of them. -/
theorem output_stream_integrity {history : History}
    (h : Reachable opStep (Server.init history) srv) (c : Nat) :
    (keptFor c srv.log).Sublist ((callsOf c srv.log).map Prod.fst) ∧
    (∀ s, srv.connOf s = some c → srv.kernel.broken c = false →
      srv.kernel.wire c ++ (srv.clients s).sbuf.pending = packed (keptFor c srv.log)) ∧
    srv.kernel.wire c <+: packed (keptFor c srv.log) := by
  have hok := outputOk_of_reachable h
  exact ⟨List.filter_sublist.map _, fun s hs hb => hok.exact s c hs hb, hok.isPrefix c⟩

/-- A connection to which one message is sent, the socket taking nine bytes. -/
def sendOnce : List Op :=
  [.event ⟨⟨0, none, ⟨fun _ => [], fun _ => true⟩⟩, [], .accept 5 0⟩,
    .send 0 (serverFull 0) [.took 8, .again]]

/-- The nine bytes and those left in the send buffer are that message. -/
theorem output_stream_integrity_sendOnce :
    ∃ srv, run opStep (Server.init fun _ => none) sendOnce = some srv ∧
      srv.kernel.wire 0 ++ (srv.clients 0).sbuf.pending = packed (keptFor 0 srv.log) :=
  ⟨_, rfl, (output_stream_integrity ⟨sendOnce, rfl⟩ 0).2.1 0 rfl rfl⟩

end ChatSystem.Epoll
