import ChatSystem.Core.Channel
import ChatSystem.Core.Framing
import ChatSystem.Protocol.Codec

/-!
# Messages on a byte stream

The protocol is a length-prefixed framing. Blocking reception reads a header and
then the announced payload, so it returns exactly the frame at the front of the
stream, however the transfers are split; a stream that ends inside a frame or
announces too much gives no message.
-/

namespace ChatSystem

open Bytes Channel

/-- The framing of the protocol: 76 header bytes, at most 1024 announced ones. -/
def frameFormat : Framing UInt8 where
  header := headerSize
  header_pos := by decide
  bodyLen h := if (announcedLen h).toNat ≤ maxPayloadLen then some (announcedLen h).toNat else none

/-- `send_message(fd, msg)`; the result is `true` for 0. -/
def sendMessage (snk : Sink UInt8) (m : Message) : Bool × Sink UInt8 :=
  writeFull snk (packMessage m)

/-- `recv_message(fd, msg)`; `none` is the result `-1`. -/
def recvMessage (src : Source UInt8) : Option Message × Source UInt8 :=
  match readFull src headerSize [] with
  | (none, src) => (none, src)
  | (some header, src) =>
    if maxPayloadLen < (announcedLen header).toNat then (none, src)
    else match readFull src (announcedLen header).toNat [] with
      | (none, src) => (none, src)
      | (some body, src) => (unpackMessage (header ++ body), src)

/-- Successive `send_message` calls on one descriptor, with their results. -/
def sendCalls (snk : Sink UInt8) : List Message → List Bool × Sink UInt8
  | [] => ([], snk)
  | m :: ms =>
    let (ok, snk) := sendMessage snk m
    let (oks, snk) := sendCalls snk ms
    (ok :: oks, snk)

/-- Successive `recv_message` calls on one descriptor, each with what it leaves. -/
def recvCalls : Nat → Source UInt8 → List (Option Message × Source UInt8)
  | 0, _ => []
  | n + 1, src => recvMessage src :: recvCalls n (recvMessage src).2

/-! ## Frames and messages -/

/-- The announced length only depends on the header. -/
theorem announcedLen_take {s : List UInt8} {n : Nat} (h : headerSize ≤ n) :
    announcedLen (s.take n) = announcedLen s := by
  unfold headerSize at h
  simp only [announcedLen, byteAt, List.getElem?_take, show 74 < n by omega, show 75 < n by omega,
    if_true]

/-- The front of a stream, in the words of the protocol. -/
theorem front_eq (s : List UInt8) : frameFormat.front s =
    if s.length < headerSize then .short
    else if maxPayloadLen < (announcedLen s).toNat then .refused
    else if s.length < headerSize + (announcedLen s).toNat then .short
    else .frame (s.take (headerSize + (announcedLen s).toNat))
      (s.drop (headerSize + (announcedLen s).toNat)) := by
  have h : frameFormat.bodyLen (s.take frameFormat.header) =
      if maxPayloadLen < (announcedLen s).toNat then none else some (announcedLen s).toNat := by
    change (if (announcedLen (s.take headerSize)).toNat ≤ maxPayloadLen then some
      (announcedLen (s.take headerSize)).toNat else none) = _
    rw [announcedLen_take (Nat.le_refl _)]
    by_cases hp : maxPayloadLen < (announcedLen s).toNat
    · rw [if_pos hp, if_neg (Nat.not_le.mpr hp)]
    · rw [if_neg hp, if_pos (Nat.not_lt.mp hp)]
  rw [Framing.front, h]
  change (if s.length < headerSize then _ else _) = _
  by_cases hp : maxPayloadLen < (announcedLen s).toNat
  · simp only [if_pos hp]
  · simp only [if_neg hp]
    rfl

/-- What a legal frame is, in the words of the protocol. -/
theorem isFrame_iff {f : List UInt8} : frameFormat.IsFrame f ↔
    (announcedLen f).toNat ≤ maxPayloadLen ∧ f.length = headerSize + (announcedLen f).toNat := by
  simp only [Framing.IsFrame, frameFormat, announcedLen_take (Nat.le_refl _)]
  constructor
  · rintro ⟨-, n, hn, hl⟩
    split at hn
    · next h =>
      obtain rfl := Option.some.inj hn
      exact ⟨h, hl⟩
    · cases hn
  · rintro ⟨h, hl⟩
    exact ⟨by omega, _, if_pos h, hl⟩

theorem isFrame_packMessage (m : Message) : frameFormat.IsFrame (packMessage m) := by
  have hann : announcedLen (packMessage m) = packedLen m := announcedLen_packHeader _ _
  rw [isFrame_iff, hann]
  exact ⟨packedLen_le m, length_packMessage m⟩

/-- Unpacking accepts every legal frame. -/
theorem exists_unpack_of_isFrame {f : List UInt8} (h : frameFormat.IsFrame f) :
    ∃ m, unpackMessage f = some m := by
  obtain ⟨hle, hl⟩ := isFrame_iff.mp h
  rw [unpackMessage, if_neg (by omega), if_neg (by omega), if_neg (by omega)]
  exact ⟨_, rfl⟩

/-! ## One reception -/

/-- Reception returns the frame at the front of the stream and stops behind it;
without a complete legal frame there it returns no message. -/
theorem recvMessage_front (src : Source UInt8) (hs : Steady src.answers) :
    match frameFormat.front src.inbound with
    | .frame f rest => (recvMessage src).1 = unpackMessage f ∧
        (recvMessage src).2.inbound = rest ∧ Steady (recvMessage src).2.answers
    | _ => (recvMessage src).1 = none := by
  obtain ⟨h1, h2, h3⟩ := readFull_spec src headerSize [] hs (Nat.zero_le _)
  obtain ⟨⟨o, src'⟩, hread⟩ : ∃ x, readFull src headerSize [] = x := ⟨_, rfl⟩
  simp only [hread, List.length_nil, Nat.sub_zero, List.nil_append] at h1 h2 h3
  rw [front_eq]
  by_cases hh : headerSize ≤ src.inbound.length
  · rw [if_pos hh] at h1
    subst h1
    have hann : announcedLen (src.inbound.take headerSize) = announcedLen src.inbound :=
      announcedLen_take (Nat.le_refl _)
    rw [if_neg (Nat.not_lt.mpr hh)]
    by_cases hp : maxPayloadLen < (announcedLen src.inbound).toNat
    · simp only [if_pos hp, recvMessage, hread, hann]
    · obtain ⟨g1, g2, g3⟩ := readFull_spec src' (announcedLen src.inbound).toNat [] h3
        (Nat.zero_le _)
      obtain ⟨⟨o', src''⟩, hread'⟩ :
          ∃ x, readFull src' (announcedLen src.inbound).toNat [] = x := ⟨_, rfl⟩
      simp only [hread', List.length_nil, Nat.sub_zero, List.nil_append, h2, List.length_drop]
        at g1 g2 g3
      rw [if_neg hp]
      by_cases hb : src.inbound.length < headerSize + (announcedLen src.inbound).toNat
      · rw [if_neg (by omega)] at g1
        subst g1
        simp only [if_pos hb, recvMessage, hread, hann, if_neg hp, hread']
      · rw [if_pos (by omega)] at g1
        subst g1
        simp only [if_neg hb, recvMessage, hread, hann, if_neg hp, hread', g2, g3,
          List.drop_drop, ← List.take_add, and_self]
  · rw [if_neg hh] at h1
    subst h1
    simp only [if_pos (Nat.not_le.mp hh), recvMessage, hread]

/-- Whatever the kernel does, reception only succeeds with the legal frame at the front of the
stream. -/
theorem recvMessage_eq_some {src : Source UInt8} {m : Message} (h : (recvMessage src).1 = some m) :
    ∃ f, frameFormat.IsFrame f ∧ f <+: src.inbound ∧ unpackMessage f = some m := by
  obtain ⟨⟨o, src₁⟩, hread⟩ : ∃ x, readFull src headerSize [] = x := ⟨_, rfl⟩
  rw [recvMessage, hread] at h
  cases o with
  | none => cases h
  | some header =>
    obtain ⟨_, rfl, hlen, hin⟩ := readFull_eq_some (Nat.zero_le _) hread
    by_cases hp : maxPayloadLen < (announcedLen header).toNat
    · simp only [if_pos hp] at h
      cases h
    · obtain ⟨⟨o', src₂⟩, hread'⟩ :
          ∃ x, readFull src₁ (announcedLen header).toNat [] = x := ⟨_, rfl⟩
      simp only [if_neg hp, hread'] at h
      cases o' with
      | none => cases h
      | some body =>
        obtain ⟨_, rfl, hlen', hin'⟩ := readFull_eq_some (Nat.zero_le _) hread'
        have hann : announcedLen (header ++ body) = announcedLen header := by
          rw [← announcedLen_take (s := header ++ body) (Nat.le_refl _), List.take_left' hlen]
        refine ⟨header ++ body, isFrame_iff.mpr ⟨?_, ?_⟩, ⟨src₂.inbound, ?_⟩, h⟩
        · rw [hann]
          exact Nat.not_lt.mp hp
        · rw [List.length_append, hlen, hlen', hann]
        · rw [List.append_assoc, hin, hin']

/-- Reception of a packed message. -/
theorem recvMessage_packMessage {m : Message} (hm : WellFormed m) (t : List UInt8)
    {as : List Answer} (hs : Steady as) :
    (recvMessage ⟨packMessage m ++ t, as⟩).1 = some m ∧
      (recvMessage ⟨packMessage m ++ t, as⟩).2.inbound = t ∧
      Steady (recvMessage ⟨packMessage m ++ t, as⟩).2.answers := by
  have h := recvMessage_front ⟨packMessage m ++ t, as⟩ hs
  rw [Framing.front_append (isFrame_packMessage m)] at h
  exact hm.unpack_pack ▸ h

/-- The stream ends inside a frame: in its header, or in a legal payload. -/
def EndsInFrame (s : List UInt8) : Prop :=
  s.length < headerSize ∨
    (announcedLen s).toNat ≤ maxPayloadLen ∧ s.length < headerSize + (announcedLen s).toNat

/-- The stream goes on with a complete header that announces too much. -/
def AnnouncesTooMuch (s : List UInt8) : Prop :=
  headerSize ≤ s.length ∧ maxPayloadLen < (announcedLen s).toNat

theorem front_of_endsInFrame {s : List UInt8} (h : EndsInFrame s) :
    frameFormat.front s = .short := by
  rw [front_eq]
  rcases h with h | ⟨hp, hl⟩
  · rw [if_pos h]
  · rw [if_neg (Nat.not_lt.mpr hp), if_pos hl, ite_self]

theorem front_of_announcesTooMuch {s : List UInt8} (h : AnnouncesTooMuch s) :
    frameFormat.front s = .refused := by
  rw [front_eq, if_neg (Nat.not_lt.mpr h.1), if_pos h.2]

/-! ## Whole streams -/

/-- Successive sends put the packed messages on the wire, one after the other. -/
theorem sendCalls_spec (snk : Sink UInt8) (msgs : List Message) (hs : Steady snk.answers) :
    (sendCalls snk msgs).1 = List.replicate msgs.length true ∧
      (sendCalls snk msgs).2.wire = snk.wire ++ (msgs.map packMessage).flatten := by
  induction msgs generalizing snk with
  | nil => simp [sendCalls]
  | cons m ms ih =>
    obtain ⟨h1, h2, h3⟩ := writeFull_spec snk (packMessage m) hs
    obtain ⟨i1, i2⟩ := ih _ h3
    refine ⟨?_, ?_⟩
    · change (writeFull snk (packMessage m)).1 :: (sendCalls _ ms).1 = _
      rw [h1, i1]
      rfl
    · change (sendCalls (writeFull snk (packMessage m)).2 ms).2.wire = _
      rw [i2, h2, List.map_cons, List.flatten_cons, List.append_assoc]

/-- Successive receptions return the messages of the stream in order, each call
consuming its own frame; the next call returns nothing if what follows is cut or
announces too much. -/
theorem recvCalls_spec {msgs : List Message} (hwf : ∀ m ∈ msgs, WellFormed m)
    (tail : List UInt8) {as : List Answer} (hs : Steady as) :
    (∀ i (hi : i < msgs.length), ∃ src,
      (recvCalls (msgs.length + 1) ⟨(msgs.map packMessage).flatten ++ tail, as⟩)[i]? =
        some (some msgs[i], src) ∧
      src.inbound = ((msgs.drop (i + 1)).map packMessage).flatten ++ tail) ∧
    (EndsInFrame tail ∨ AnnouncesTooMuch tail → ∃ src,
      (recvCalls (msgs.length + 1) ⟨(msgs.map packMessage).flatten ++ tail, as⟩)[msgs.length]? =
        some (none, src)) := by
  induction msgs generalizing as with
  | nil =>
    refine ⟨fun i hi => absurd hi (Nat.not_lt_zero i), fun h => ⟨(recvMessage ⟨tail, as⟩).2, ?_⟩⟩
    have hr := recvMessage_front ⟨tail, as⟩ hs
    have hnone : (recvMessage ⟨tail, as⟩).1 = none := by
      rcases h with h | h
      · rwa [front_of_endsInFrame h] at hr
      · rwa [front_of_announcesTooMuch h] at hr
    exact congrArg some (Prod.ext hnone rfl)
  | cons m ms ih =>
    obtain ⟨h1, h2, h3⟩ := recvMessage_packMessage (hwf m List.mem_cons_self)
      ((ms.map packMessage).flatten ++ tail) hs
    obtain ⟨⟨o, ⟨inbound, as'⟩⟩, hrecv⟩ : ∃ x, recvMessage
      ⟨packMessage m ++ ((ms.map packMessage).flatten ++ tail), as⟩ = x := ⟨_, rfl⟩
    simp only [hrecv] at h1 h2 h3
    subst h1 h2
    obtain ⟨j1, j2⟩ := ih (fun m' hm' => hwf m' (List.mem_cons_of_mem _ hm')) h3
    simp only [List.map_cons, List.flatten_cons, List.append_assoc, List.length_cons, recvCalls,
      hrecv]
    refine ⟨fun i hi => ?_, fun h => ?_⟩
    · cases i with
      | zero => exact ⟨_, rfl, rfl⟩
      | succ i => exact j1 i (Nat.lt_of_succ_lt_succ hi)
    · exact j2 h

/-- The messages successive `recv_message` calls return before the first `-1`. -/
def received (n : Nat) (src : Source UInt8) : List Message :=
  (((recvCalls n src).map Prod.fst).takeWhile Option.isSome).filterMap id

/-- Enough calls return the messages of the frames at the front of the stream. -/
theorem received_eq {s : List UInt8} {n : Nat} (hn : s.length < n) {as : List Answer}
    (hs : Steady as) : received n ⟨s, as⟩ = (frameFormat.cut s).1.filterMap unpackMessage := by
  induction s using frameFormat.stream_induction generalizing n as with
  | frame f t hf ih =>
    obtain ⟨m, hm⟩ := exists_unpack_of_isFrame hf
    have hpos := hf.length_pos
    obtain ⟨n, rfl⟩ : ∃ k, n = k + 1 := ⟨n - 1, by omega⟩
    have hr := recvMessage_front ⟨f ++ t, as⟩ hs
    rw [Framing.front_append hf] at hr
    obtain ⟨h1, h2, h3⟩ := hr
    obtain ⟨⟨o, ⟨inbound, as'⟩⟩, hrecv⟩ : ∃ x, recvMessage ⟨f ++ t, as⟩ = x := ⟨_, rfl⟩
    simp only [hrecv] at h1 h2 h3
    subst h1 h2
    rw [List.length_append] at hn
    have hrest := ih (n := n) (by omega) h3
    rw [received] at hrest
    rw [Framing.cut_append hf, List.filterMap_cons_some hm, ← hrest, received, recvCalls, hrecv,
      List.map_cons, List.takeWhile_cons, hm]
    simp
  | rest s hr =>
    obtain ⟨n, rfl⟩ : ∃ k, n = k + 1 := ⟨n - 1, by omega⟩
    have hnone : (recvMessage ⟨s, as⟩).1 = none := by
      have h := recvMessage_front ⟨s, as⟩ hs
      cases hfront : frameFormat.front s with
      | frame f t => exact absurd hfront (hr f t)
      | short => rwa [hfront] at h
      | refused => rwa [hfront] at h
    rw [Framing.cut_of_not_frame hr, received, recvCalls, List.map_cons, List.takeWhile_cons, hnone]
    rfl

/-- Stream framing is exact: whatever is sent by successive `send_message` calls is
received by successive `recv_message` calls, message by message and byte by byte,
for every split of the writes and reads and every placement of `EINTR`. A stream
that ends inside a frame, or goes on with an over-long announcement, gives no
message there. -/
theorem framing_exact {msgs : List Message} (hwf : ∀ m ∈ msgs, WellFormed m)
    {writes reads : List Answer} (hw : Steady writes) (hr : Steady reads) (tail : List UInt8) :
    let sent := sendCalls ⟨[], writes⟩ msgs
    let received := recvCalls (msgs.length + 1) ⟨sent.2.wire ++ tail, reads⟩
    sent.1 = List.replicate msgs.length true ∧
    sent.2.wire = (msgs.map packMessage).flatten ∧
    (∀ i (hi : i < msgs.length), ∃ src, received[i]? = some (some msgs[i], src) ∧
      src.inbound = ((msgs.drop (i + 1)).map packMessage).flatten ++ tail) ∧
    (EndsInFrame tail ∨ AnnouncesTooMuch tail →
      ∃ src, received[msgs.length]? = some (none, src)) := by
  intro sent received
  obtain ⟨h1, h2⟩ := sendCalls_spec ⟨[], writes⟩ msgs hw
  have hwire : sent.2.wire = (msgs.map packMessage).flatten := h2
  obtain ⟨h3, h4⟩ := recvCalls_spec hwf tail hr
  refine ⟨h1, hwire, ?_, ?_⟩
  · simpa only [received, hwire] using h3
  · simpa only [received, hwire] using h4

/-- One broadcast, split inside the header on both sides, with a cut frame behind it. -/
theorem framing_exact_broadcast :
    let m := makeMessage 7 .broadcast (ascii "alice") [] (ascii "hi")
    let sent := sendCalls ⟨[], [.chunk 9, .eintr, .chunk 70]⟩ [m]
    let received := recvCalls 2 ⟨sent.2.wire ++ [32, 0], [.eintr, .chunk 30, .eintr, .chunk 45]⟩
    sent.1 = [true] ∧ (∃ src, received[0]? = some (some m, src) ∧ src.inbound = [32, 0]) ∧
      ∃ src, received[1]? = some (none, src) := by
  intro m sent received
  have hwf : ∀ m' ∈ [m], WellFormed m' := by
    simpa using wellFormed_makeMessage 7 .broadcast (ascii "alice") [] (ascii "hi")
  have hw : Steady [.chunk 9, .eintr, .chunk 70] := by simp [Steady]
  have hr : Steady [.eintr, .chunk 30, .eintr, .chunk 45] := by simp [Steady]
  obtain ⟨h1, -, h2, h3⟩ := framing_exact hwf hw hr [32, 0]
  exact ⟨h1, h2 0 (by decide), h3 (Or.inl (Or.inl (by decide)))⟩

end ChatSystem
