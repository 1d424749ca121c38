import ChatSystem.Protocol.Reencode
import ChatSystem.Protocol.Stream

/-!
# The decoder of the benchmark script

The load generator reads its frames with a reception of its own, which knows no bound on a
payload. The frames of the protocol are frames for it too, so both receptions go the same way
through a stream until the first header that announces too much; on what a server has packed
there is none.
-/

namespace ChatSystem.Benchmark

open Bytes Channel

/-- What `recv` returns of a frame: its type and its payload, before `decode`. -/
structure Reception where
  type : UInt8
  payload : List UInt8
  deriving DecidableEq, Repr

/-- `recv(sock)`; a failed call is its timeout, and `none` is `None`. -/
def recv (src : Source UInt8) : Option Reception × Source UInt8 :=
  match readFull src headerSize [] with
  | (none, src) => (none, src)
  | (some h, src) =>
    match readFull src (announcedLen h).toNat [] with
    | (none, src) => (none, src)
    | (some p, src) => (some ⟨byteAt h 0, p⟩, src)

/-- What at most `n` turns of `_reader` receive before the first `None`. -/
def reader : Nat → Source UInt8 → List Reception
  | 0, _ => []
  | n + 1, src =>
    match recv src with
    | (none, _) => []
    | (some r, src) => r :: reader n src

/-- What the script sees of a frame. -/
def view (f : List UInt8) : Reception := ⟨byteAt f 0, f.drop headerSize⟩

/-- What the script would see of a message. -/
def seen (m : Message) : Reception :=
  ⟨m.type.toUInt8, m.payload.toList.take m.payloadLen.toNat⟩

/-- The framing of the script takes any announced length. -/
def laxFormat : Framing UInt8 where
  header := headerSize
  header_pos := frameFormat.header_pos
  bodyLen h := some (announcedLen h).toNat

/-- A whole frame is there, but it announces more than the protocol allows. -/
def HoldsTooMuch (s : List UInt8) : Prop :=
  maxPayloadLen < (announcedLen s).toNat ∧ headerSize + (announcedLen s).toNat ≤ s.length

theorem extends_laxFormat : frameFormat.Extends laxFormat where
  header := rfl
  bodyLen h n hn := by
    simp only [frameFormat, Option.ite_none_right_eq_some] at hn
    exact hn.2

/-! ## Frames of the script -/

variable {s f : List UInt8}

/-- The front of a stream, as the script takes it. -/
theorem laxFormat_front (s : List UInt8) : laxFormat.front s =
    if s.length < headerSize + (announcedLen s).toNat then .short
    else .frame (s.take (headerSize + (announcedLen s).toNat))
      (s.drop (headerSize + (announcedLen s).toNat)) := by
  have h : laxFormat.bodyLen (s.take laxFormat.header) = some (announcedLen s).toNat := by
    change some (announcedLen (s.take headerSize)).toNat = _
    rw [announcedLen_take (Nat.le_refl _)]
  rw [Framing.front, h]
  change (if s.length < headerSize then _ else if s.length < headerSize + _ then _ else _) = _
  by_cases hs : s.length < headerSize
  · rw [if_pos hs, if_pos (by omega)]
  · rw [if_neg hs]
    rfl

/-- Behind the frames of the protocol the script goes on at an over-long frame only. -/
theorem laxFormat_front_rest : (∀ f t, laxFormat.front (frameFormat.cut s).2 ≠ .frame f t) ↔
    ¬ HoldsTooMuch (frameFormat.cut s).2 := by
  have hrest := Framing.front_cut (F := frameFormat) s
  generalize (frameFormat.cut s).2 = r at hrest
  simp only [front_eq] at hrest
  rw [laxFormat_front, HoldsTooMuch]
  constructor
  · rintro h ⟨-, hl⟩
    rw [if_neg (Nat.not_lt.mpr hl)] at h
    exact h _ _ rfl
  · intro h f t hft
    split at hft
    · cases hft
    · next hl =>
      refine h ⟨?_, Nat.not_lt.mp hl⟩
      by_contra hle
      refine hrest f t ?_
      rw [if_neg (by omega), if_neg hle, if_neg hl, hft]

/-- A message unpacked from a frame looks like the frame. -/
theorem seen_of_unpack (hf : frameFormat.IsFrame f) {m : Message} (hm : unpackMessage f = some m) :
    seen m = view f := by
  obtain ⟨hle, hlen⟩ := isFrame_iff.mp hf
  obtain ⟨-, hann, -, htype, -, -, -, -, hpayload⟩ := unpackMessage_eq_some hm
  have hbody : (f.drop headerSize).length = (announcedLen f).toNat := by
    rw [List.length_drop]
    omega
  rw [seen, view, htype, UInt8.toUInt8_toUInt32, hpayload, hann, ← hbody, List.take_length,
    take_payloadAt (by omega)]

/-! ## Receptions -/

/-- A reception takes the frame at the front of the stream; without one there it is `None`. -/
theorem recv_front (src : Source UInt8) (hs : Steady src.answers) :
    match laxFormat.front src.inbound with
    | .frame f rest => (recv src).1 = some (view f) ∧ (recv src).2.inbound = rest ∧
        Steady (recv src).2.answers
    | _ => (recv src).1 = none := by
  obtain ⟨h1, h2, h3⟩ := readFull_spec src headerSize [] hs (Nat.zero_le _)
  obtain ⟨⟨o, src'⟩, hread⟩ : ∃ x, readFull src headerSize [] = x := ⟨_, rfl⟩
  simp only [hread, List.length_nil, Nat.sub_zero, List.nil_append] at h1 h2 h3
  rw [laxFormat_front]
  by_cases hh : headerSize ≤ src.inbound.length
  · rw [if_pos hh] at h1
    subst h1
    have hann : announcedLen (src.inbound.take headerSize) = announcedLen src.inbound :=
      announcedLen_take (Nat.le_refl _)
    obtain ⟨g1, g2, g3⟩ := readFull_spec src' (announcedLen src.inbound).toNat [] h3
      (Nat.zero_le _)
    obtain ⟨⟨o', src''⟩, hread'⟩ :
        ∃ x, readFull src' (announcedLen src.inbound).toNat [] = x := ⟨_, rfl⟩
    simp only [hread', List.length_nil, Nat.sub_zero, List.nil_append, h2, List.length_drop]
      at g1 g2 g3
    by_cases hb : src.inbound.length < headerSize + (announcedLen src.inbound).toNat
    · rw [if_neg (by omega)] at g1
      subst g1
      simp only [if_pos hb, recv, hread, hann, hread']
    · rw [if_pos (by omega)] at g1
      subst g1
      have hbyte : byteAt (src.inbound.take headerSize) 0 =
          byteAt (src.inbound.take (headerSize + (announcedLen src.inbound).toNat)) 0 := by
        simp only [byteAt, List.getElem?_take]
        rw [if_pos (by decide), if_pos (by unfold headerSize; omega)]
      simp only [if_neg hb, recv, hread, hann, hread', g2, g3, List.drop_drop, view, hbyte,
        List.drop_take, Nat.add_sub_cancel_left, and_self]
  · rw [if_neg hh] at h1
    subst h1
    rw [if_pos (by omega)]
    simp only [recv, hread]

/-- Whatever the kernel does, a reception only succeeds with the frame at the front. -/
theorem recv_eq_some {src src' : Source UInt8} {r : Reception} (h : recv src = (some r, src')) :
    ∃ f, laxFormat.IsFrame f ∧ src.inbound = f ++ src'.inbound ∧ r = view f := by
  obtain ⟨⟨o, src₁⟩, hread⟩ : ∃ x, readFull src headerSize [] = x := ⟨_, rfl⟩
  rw [recv, hread] at h
  cases o with
  | none => cases (Prod.mk.inj h).1
  | some header =>
    obtain ⟨_, rfl, hlen, hin⟩ := readFull_eq_some (Nat.zero_le _) hread
    obtain ⟨⟨o', src₂⟩, hread'⟩ :
        ∃ x, readFull src₁ (announcedLen header).toNat [] = x := ⟨_, rfl⟩
    simp only [hread'] at h
    cases o' with
    | none => cases (Prod.mk.inj h).1
    | some body =>
      obtain ⟨_, rfl, hlen', hin'⟩ := readFull_eq_some (Nat.zero_le _) hread'
      obtain ⟨hr, rfl⟩ := Prod.mk.inj h
      obtain rfl := Option.some.inj hr
      have hann : announcedLen (header ++ body) = announcedLen header := by
        rw [← announcedLen_take (s := header ++ body) (Nat.le_refl _), List.take_left' hlen]
      refine ⟨header ++ body, ⟨?_, _, rfl, ?_⟩, ?_, ?_⟩
      · rw [List.length_append, hlen]
        exact Nat.le_add_right _ _
      · change (header ++ body).length = headerSize + (announcedLen (List.take headerSize _)).toNat
        rw [announcedLen_take (Nat.le_refl _), hann, List.length_append, hlen, hlen']
      · rw [List.append_assoc, ← hin', ← hin]
      · rw [view, List.drop_left' hlen, byteAt, byteAt,
          List.getElem?_append_left (by rw [hlen]; decide)]

/-- A reader with enough turns gets every frame it takes. -/
theorem reader_eq {n : Nat} (hn : s.length < n) {as : List Answer} (hs : Steady as) :
    reader n ⟨s, as⟩ = (laxFormat.cut s).1.map view := by
  induction s using laxFormat.stream_induction generalizing n as with
  | frame f t hf ih =>
    have hpos := hf.length_pos
    obtain ⟨n, rfl⟩ : ∃ k, n = k + 1 := ⟨n - 1, by omega⟩
    have hr := recv_front ⟨f ++ t, as⟩ hs
    rw [Framing.front_append hf] at hr
    obtain ⟨h1, h2, h3⟩ := hr
    obtain ⟨⟨o, ⟨inbound, as'⟩⟩, hrecv⟩ : ∃ x, recv ⟨f ++ t, as⟩ = x := ⟨_, rfl⟩
    simp only [hrecv] at h1 h2 h3
    subst h1 h2
    rw [List.length_append] at hn
    rw [Framing.cut_append hf, List.map_cons, reader, hrecv, ← ih (n := n) (by omega) h3]
  | rest s hr =>
    obtain ⟨n, rfl⟩ : ∃ k, n = k + 1 := ⟨n - 1, by omega⟩
    have hnone : (recv ⟨s, as⟩).1 = none := by
      have h := recv_front ⟨s, as⟩ hs
      cases hfront : laxFormat.front s with
      | frame f t => exact absurd hfront (hr f t)
      | short => rwa [hfront] at h
      | refused => rwa [hfront] at h
    obtain ⟨⟨o, src⟩, hrecv⟩ : ∃ x, recv ⟨s, as⟩ = x := ⟨_, rfl⟩
    rw [hrecv] at hnone
    subst hnone
    rw [Framing.cut_of_not_frame hr, reader, hrecv]
    rfl

/-- A reader never gets anything but the frames of its stream, in order. -/
theorem reader_isPrefix (n : Nat) (src : Source UInt8) :
    reader n src <+: (laxFormat.cut src.inbound).1.map view := by
  induction n generalizing src with
  | zero => exact List.nil_prefix
  | succ n ih =>
    obtain ⟨⟨o, src'⟩, hrecv⟩ : ∃ x, recv src = x := ⟨_, rfl⟩
    rw [reader, hrecv]
    cases o with
    | none => exact List.nil_prefix
    | some r =>
      obtain ⟨f, hf, hin, rfl⟩ := recv_eq_some hrecv
      rw [hin, Framing.cut_append hf]
      exact (List.prefix_cons_inj _).mpr (ih src')

/-- The messages of frames look like the frames. -/
theorem map_seen_unpack {fs : List (List UInt8)} (hfs : ∀ f ∈ fs, frameFormat.IsFrame f) :
    (fs.filterMap unpackMessage).map seen = fs.map view := by
  induction fs with
  | nil => rfl
  | cons f fs ih =>
    have hf := hfs f List.mem_cons_self
    obtain ⟨m, hm⟩ := exists_unpack_of_isFrame hf
    rw [List.filterMap_cons_some hm, List.map_cons, List.map_cons, seen_of_unpack hf hm,
      ih fun g hg => hfs g (List.mem_cons_of_mem _ hg)]

/-- On every stream, however both sides of it are split, the script receives what `recv_message`
returns, and more exactly if what follows is an over-long frame; never more on a stream that a
server has packed. Whatever its timeouts, it never receives anything else. -/
theorem recv_agrees {s : List UInt8} {k n : Nat} (hk : s.length < k) (hn : s.length < n)
    {as bs : List Answer} (ha : Steady as) (hb : Steady bs) :
    (received k ⟨s, as⟩).map seen <+: reader n ⟨s, bs⟩ ∧
    ((received k ⟨s, as⟩).map seen = reader n ⟨s, bs⟩ ↔ ¬ HoldsTooMuch (frameFormat.cut s).2) ∧
    (∀ msgs : List Message, s <+: (msgs.map packMessage).flatten →
      (received k ⟨s, as⟩).map seen = reader n ⟨s, bs⟩) ∧
    ∀ j cs, reader j ⟨s, cs⟩ <+: reader n ⟨s, bs⟩ := by
  rw [received_eq hk ha, map_seen_unpack fun f hf => Framing.isFrame_of_mem_cut hf, reader_eq hn hb]
  have hcut := extends_laxFormat.cut_eq s
  refine ⟨?_, ?_, fun msgs hs => ?_, fun j cs => reader_isPrefix j ⟨s, cs⟩⟩
  · rw [hcut, List.map_append]
    exact List.prefix_append _ _
  · rw [← laxFormat_front_rest, ← extends_laxFormat.cut_eq_iff s]
    constructor
    · intro h
      have hlen := congrArg List.length h
      rw [hcut, List.map_append, List.length_append, List.length_map] at hlen
      rw [hcut, List.eq_nil_of_length_eq_zero (l := (laxFormat.cut (frameFormat.cut s).2).1)
        (by rw [List.length_map] at hlen; omega), List.append_nil]
    · exact congrArg (List.map view)
  · rw [extends_laxFormat.cut_eq_of_prefix ?_ hs]
    intro f hf
    obtain ⟨m, -, rfl⟩ := List.mem_map.mp hf
    exact isFrame_packMessage m

/-- A frame with 1,025 announced bytes behind a broadcast: the servers' reception ends there, the
script takes both. -/
theorem recv_agrees_overlong :
    let m := makeMessage 7 .broadcast (ascii "alice") [] (ascii "hi")
    let long := List.replicate 74 (64 : UInt8) ++ [4, 1] ++ List.replicate 1025 65
    (received 3000 ⟨packMessage m ++ long, []⟩).map seen <+:
      reader 3000 ⟨packMessage m ++ long, [.chunk 9, .eintr]⟩ := by
  intro m long
  have hlen : (packMessage m ++ long).length < 3000 := by
    have hm : (packedLen m).toNat ≤ 1024 := packedLen_le m
    simp only [long, headerSize, List.length_append, length_packMessage, List.length_replicate,
      List.length_cons, List.length_nil]
    omega
  exact (recv_agrees hlen hlen (by simp [Steady]) (by simp [Steady])).1

end ChatSystem.Benchmark
