import ChatSystem.Protocol.Reencode

/-!
# The encoder of the benchmark script

The load generator is written in another language and packs its own frames. Both encoders
are compared on the same arguments: the frames agree while the names leave room for their
terminator, and the decoder of the servers gets the message of `make_message` from either.
-/

namespace ChatSystem.Benchmark

open Bytes Words

/-- `bytes.ljust(n, b'\x00')`. -/
def ljust (n : Nat) (s : List UInt8) : List UInt8 := s ++ List.replicate (n - s.length) 0

/-- `pack(t, s, r, p)` on encoded strings; `now` is `int(time.time())`. -/
def pack (now : UInt64) (t : UInt8) (s r p : List UInt8) : List UInt8 :=
  let b := p.take maxPayloadLen
  [t, 0] ++ (ljust maxUsernameLen s).take maxUsernameLen ++
    (ljust maxUsernameLen r).take maxUsernameLen ++ bytes64 now ++
    bytes16 (UInt16.ofNat b.length) ++ b

/-- `make_message` for any value of its type argument. -/
def makeTyped (now : UInt64) (type : UInt32) (s r p : List UInt8) : Message :=
  { makeMessage now .ack s r p with type := type }

/-! ## Frames by their fields -/

section Fields

variable {t st : UInt8} {a b : List UInt8} {ts : UInt64} {n : UInt16} {q : List UInt8}

/-- A frame put together from its fields. -/
def frameOf (t st : UInt8) (a b : List UInt8) (ts : UInt64) (n : UInt16) (q : List UInt8) :
    List UInt8 :=
  t :: st :: (a ++ (b ++ (bytes64 ts ++ (bytes16 n ++ q))))

theorem drop_frameOf_two : (frameOf t st a b ts n q).drop 2 =
    a ++ (b ++ (bytes64 ts ++ (bytes16 n ++ q))) := rfl

theorem drop_frameOf_sender (ha : a.length = 32) : (frameOf t st a b ts n q).drop 34 =
    b ++ (bytes64 ts ++ (bytes16 n ++ q)) := by
  rw [show 34 = 2 + 32 from rfl, ← List.drop_drop, drop_frameOf_two]
  exact List.drop_left' ha

theorem drop_frameOf_receiver (ha : a.length = 32) (hb : b.length = 32) :
    (frameOf t st a b ts n q).drop 66 = bytes64 ts ++ (bytes16 n ++ q) := by
  rw [show 66 = 34 + 32 from rfl, ← List.drop_drop, drop_frameOf_sender ha]
  exact List.drop_left' hb

theorem drop_frameOf_header (ha : a.length = 32) (hb : b.length = 32) :
    (frameOf t st a b ts n q).drop headerSize = q := by
  rw [show headerSize = 66 + 10 from rfl, ← List.drop_drop, drop_frameOf_receiver ha hb]
  rfl

theorem announcedLen_frameOf (ha : a.length = 32) (hb : b.length = 32) :
    announcedLen (frameOf t st a b ts n q) = n := by
  have h : ∀ i, byteAt (frameOf t st a b ts n q) (66 + i) =
      byteAt (bytes64 ts ++ (bytes16 n ++ q)) i := by
    intro i
    rw [← drop_frameOf_receiver ha hb, byteAt, byteAt, List.getElem?_drop]
  rw [announcedLen, h 8, h 9]
  exact word16_bytes n

/-- A copied name only depends on the first 31 bytes. -/
theorem nameAt_append (h : a.length = 32) (q : List UInt8) : nameAt (a ++ q) = nameAt a := by
  apply List.Vector.eq
  change (fit 31 (a ++ q)).toList ++ [0] = (fit 31 a).toList ++ [0]
  rw [toList_fit, toList_fit, List.take_append_of_le_length (by omega), List.length_append,
    show 31 - (a.length + q.length) = 31 - a.length by omega]

/-- The decoder reads the fields back. -/
theorem unpackMessage_frameOf (ha : a.length = 32) (hb : b.length = 32)
    (hn : n.toNat ≤ maxPayloadLen) (hq : q.length = n.toNat) :
    unpackMessage (frameOf t st a b ts n q) = some
      { type := t.toUInt32, status := st, sender := nameAt a, receiver := nameAt b,
        timestamp := ts, payloadLen := n, payload := payloadAt q } := by
  have hlen : (frameOf t st a b ts n q).length = headerSize + n.toNat := by
    simp only [frameOf, List.length_cons, List.length_append, length_bytes64, length_bytes16,
      headerSize]
    omega
  have htime : readU64be (bytes64 ts ++ (bytes16 n ++ q)) = ts := word64_bytes ts
  rw [unpackMessage, announcedLen_frameOf ha hb, if_neg (by omega), if_neg (by omega),
    if_neg (by omega), drop_frameOf_two, drop_frameOf_sender ha, drop_frameOf_receiver ha hb,
    drop_frameOf_header ha hb, nameAt_append ha, nameAt_append hb, htime, ← hq, List.take_length]
  rfl

end Fields

/-! ## Names -/

variable {s r p : List UInt8}

theorem length_take_ljust (n : Nat) (s : List UInt8) : ((ljust n s).take n).length = n := by
  simp only [ljust, List.length_take, List.length_append, List.length_replicate]
  omega

/-- The decoder cuts a name of the script where `make_message` does. -/
theorem nameAt_ljust (hs : ∀ c ∈ s, c ≠ 0) :
    nameAt ((ljust maxUsernameLen s).take maxUsernameLen) = nameField s := by
  apply List.Vector.eq
  rw [toList_nameField, padded, cstr_of_forall_ne hs]
  change (fit 31 _).toList ++ [0] = _
  rw [toList_fit, length_take_ljust, List.take_take, ljust, List.take_append, List.take_replicate]
  simp only [maxUsernameLen, Nat.reduceLeDiff, Nat.reduceSub, List.replicate_zero, List.append_nil,
    inf_of_le_left]
  congr 3
  omega

/-- The field of the script is that of `make_message` while there is room for a terminator. -/
theorem take_ljust_eq_iff (hs : ∀ c ∈ s, c ≠ 0) :
    (ljust maxUsernameLen s).take maxUsernameLen = (nameField s).toList ↔ s.length ≤ 31 := by
  rw [toList_nameField, padded, cstr_of_forall_ne hs]
  constructor
  · intro h
    by_contra hlong
    have hcut : (ljust maxUsernameLen s).take maxUsernameLen = s.take maxUsernameLen :=
      List.take_append_of_le_length (by unfold maxUsernameLen; omega)
    have hzero : (0 : UInt8) ∈ s.take maxUsernameLen := by
      rw [← hcut, h]
      simp
    exact hs 0 (List.mem_of_mem_take hzero) rfl
  · intro h
    have hlen : (ljust maxUsernameLen s).length = maxUsernameLen := by
      simp only [ljust, List.length_append, List.length_replicate, maxUsernameLen]
      omega
    rw [List.take_of_length_le hlen.le, List.take_of_length_le h, ljust, List.append_assoc,
      ← List.replicate_one, ← List.replicate_add]
    congr 2
    unfold maxUsernameLen
    omega

/-! ## Frames -/

theorem pack_eq_frameOf (now : UInt64) (t : UInt8) (s r p : List UInt8) : pack now t s r p =
    frameOf t 0 ((ljust maxUsernameLen s).take maxUsernameLen)
      ((ljust maxUsernameLen r).take maxUsernameLen) now
      (UInt16.ofNat (p.take maxPayloadLen).length) (p.take maxPayloadLen) := by
  simp only [pack, frameOf, List.append_assoc, List.cons_append, List.nil_append]

theorem toNat_length_take (p : List UInt8) :
    (UInt16.ofNat (p.take maxPayloadLen).length).toNat = (p.take maxPayloadLen).length := by
  apply Nat.mod_eq_of_lt
  exact Nat.lt_of_le_of_lt (List.length_take_le _ _) (by decide)

theorem payloadAt_take_eq (hp : ∀ c ∈ p, c ≠ 0) (now : UInt64) (t : UInt32) (s r : List UInt8) :
    payloadAt (p.take maxPayloadLen) = (makeTyped now t s r p).payload := by
  apply List.Vector.eq
  change _ = padded maxPayloadLen p
  rw [payloadAt, toList_fit, List.take_take, Nat.min_self, padded, cstr_of_forall_ne hp,
    List.length_take]
  congr 2
  omega

theorem payloadLen_makeTyped (hp : ∀ c ∈ p, c ≠ 0) (now : UInt64) (t : UInt32) (s r : List UInt8) :
    (makeTyped now t s r p).payloadLen = UInt16.ofNat (p.take maxPayloadLen).length := by
  change UInt16.ofNat (min (cstr p).length maxPayloadLen) = _
  rw [cstr_of_forall_ne hp, List.length_take, Nat.min_comm]

/-- The decoder of the servers gets the message that `make_message` builds. -/
theorem unpackMessage_pack (hs : ∀ c ∈ s, c ≠ 0) (hr : ∀ c ∈ r, c ≠ 0) (hp : ∀ c ∈ p, c ≠ 0)
    (now : UInt64) (t : UInt8) :
    unpackMessage (pack now t s r p) = some (makeTyped now t.toUInt32 s r p) := by
  have hn := toNat_length_take p
  rw [pack_eq_frameOf, unpackMessage_frameOf (length_take_ljust maxUsernameLen s)
    (length_take_ljust maxUsernameLen r) (by rw [hn]; exact List.length_take_le _ _) hn.symm, nameAt_ljust hs, nameAt_ljust hr,
    ← payloadLen_makeTyped hp now t.toUInt32 s r, payloadAt_take_eq hp now t.toUInt32 s r]
  rfl

theorem packMessage_makeTyped (hp : ∀ c ∈ p, c ≠ 0) (now : UInt64) (t : UInt8)
    (s r : List UInt8) : packMessage (makeTyped now t.toUInt32 s r p) =
      frameOf t 0 (nameField s).toList (nameField r).toList now
        (UInt16.ofNat (p.take maxPayloadLen).length) (p.take maxPayloadLen) := by
  have hlen := payloadLen_makeTyped hp now t.toUInt32 s r
  have hpacked : packedLen (makeTyped now t.toUInt32 s r p) =
      UInt16.ofNat (p.take maxPayloadLen).length := by
    rw [packedLen, hlen, if_pos]
    rw [toNat_length_take]
    exact List.length_take_le _ _
  have hbody : (makeTyped now t.toUInt32 s r p).payload.toList.take (p.take maxPayloadLen).length =
      p.take maxPayloadLen := by
    have hcopy := take_payloadAt (List.length_take_le maxPayloadLen p)
    rwa [payloadAt_take_eq hp now t.toUInt32 s r] at hcopy
  have hsender : nameField (makeTyped now t.toUInt32 s r p).sender.toList = nameField s :=
    (isNameField_nameField s).nameField_eq
  have hreceiver : nameField (makeTyped now t.toUInt32 s r p).receiver.toList = nameField r :=
    (isNameField_nameField r).nameField_eq
  rw [packMessage, packHeader_eq, hpacked, toNat_length_take, hbody, hsender, hreceiver]
  simp only [makeTyped, UInt8.toUInt8_toUInt32]
  rfl

/-- The two encoders write the same frame exactly if both names leave room for their
terminator. -/
theorem pack_eq_packMessage_iff (hs : ∀ c ∈ s, c ≠ 0) (hr : ∀ c ∈ r, c ≠ 0)
    (hp : ∀ c ∈ p, c ≠ 0) (now : UInt64) (t : UInt8) :
    pack now t s r p = packMessage (makeTyped now t.toUInt32 s r p) ↔
      s.length ≤ 31 ∧ r.length ≤ 31 := by
  rw [pack_eq_frameOf, packMessage_makeTyped hp, ← take_ljust_eq_iff hs, ← take_ljust_eq_iff hr]
  have hlen : ∀ x : List UInt8, ((ljust maxUsernameLen x).take maxUsernameLen).length =
      (nameField x).toList.length := fun x => by
    rw [length_take_ljust, List.Vector.toList_length]
  constructor
  · intro h
    obtain ⟨hsender, hrest⟩ := List.append_inj (List.cons.inj (List.cons.inj h).2).2 (hlen s)
    exact ⟨hsender, (List.append_inj hrest (hlen r)).1⟩
  · rintro ⟨hsender, hreceiver⟩
    rw [hsender, hreceiver]

theorem senderStr_makeTyped (hs : ∀ c ∈ s, c ≠ 0) (now : UInt64) (t : UInt32) (r p : List UInt8) :
    (makeTyped now t s r p).senderStr = s.take 31 := by
  change cstr (nameField s).toList = _
  rw [cstr_nameField, cstr_of_forall_ne hs]

theorem receiverStr_makeTyped (hr : ∀ c ∈ r, c ≠ 0) (now : UInt64) (t : UInt32)
    (s p : List UInt8) : (makeTyped now t s r p).receiverStr = r.take 31 := by
  change cstr (nameField r).toList = _
  rw [cstr_nameField, cstr_of_forall_ne hr]

theorem payloadStr_makeTyped (hp : ∀ c ∈ p, c ≠ 0) (now : UInt64) (t : UInt32)
    (s r : List UInt8) : (makeTyped now t s r p).payloadStr = p.take maxPayloadLen := by
  change cstr (padded maxPayloadLen p) = _
  rw [cstr_padded, cstr_of_forall_ne hp]

/-- On strings without a zero byte the two encoders write the same frame if both names leave
room for their terminator, and the decoder accepts every frame of the script: it gets the
message of `make_message`, with both names cut at 31 bytes and the payload at 1024. -/
theorem pack_agrees (hs : ∀ c ∈ s, c ≠ 0) (hr : ∀ c ∈ r, c ≠ 0) (hp : ∀ c ∈ p, c ≠ 0)
    (now : UInt64) (t : UInt8) :
    (s.length ≤ 31 → r.length ≤ 31 →
        pack now t s r p = packMessage (makeTyped now t.toUInt32 s r p)) ∧
      ∃ m, unpackMessage (pack now t s r p) = some m ∧ m = makeTyped now t.toUInt32 s r p ∧
        m.senderStr = s.take 31 ∧ m.receiverStr = r.take 31 ∧
        m.payloadStr = p.take maxPayloadLen := by
  constructor
  · intro h1 h2
    exact (pack_eq_packMessage_iff hs hr hp now t).mpr ⟨h1, h2⟩
  · exact ⟨_, unpackMessage_pack hs hr hp now t, rfl, senderStr_makeTyped hs .., receiverStr_makeTyped
      hr .., payloadStr_makeTyped hp ..⟩

/-- A broadcast of the load generator. -/
theorem pack_agrees_broadcast :
    pack 0 0x20 (ascii "u0") [] (ascii "m0") =
        packMessage (makeTyped 0 0x20 (ascii "u0") [] (ascii "m0")) ∧
      ∃ m, unpackMessage (pack 0 0x20 (ascii "u0") [] (ascii "m0")) = some m ∧
        m.payloadStr = ascii "m0" := by
  obtain ⟨hframe, m, hm, -, -, -, hp⟩ := pack_agrees (s := ascii "u0") (r := []) (p := ascii "m0")
    (by simp [ascii]) (by simp) (by simp [ascii]) 0 0x20
  exact ⟨hframe (by simp [ascii]) (by simp), m, hm, hp⟩

/-- What the script relies on: one frame from both encoders, and the arguments back from the
decoder. -/
def Agrees (now : UInt64) (t : UInt8) (s r p : List UInt8) : Prop :=
  pack now t s r p = packMessage (makeTyped now t.toUInt32 s r p) ∧
    ∃ m, unpackMessage (pack now t s r p) = some m ∧ m.senderStr = s ∧ m.receiverStr = r ∧
      m.payloadStr = p

/-- It holds exactly if the strings fit the protocol. -/
theorem agrees_iff (hs : ∀ c ∈ s, c ≠ 0) (hr : ∀ c ∈ r, c ≠ 0) (hp : ∀ c ∈ p, c ≠ 0)
    (now : UInt64) (t : UInt8) :
    Agrees now t s r p ↔ s.length ≤ 31 ∧ r.length ≤ 31 ∧ p.length ≤ maxPayloadLen := by
  have hm := unpackMessage_pack hs hr hp now t
  have hframe := pack_eq_packMessage_iff hs hr hp now t
  constructor
  · rintro ⟨h, m, hm', -, -, hpayload⟩
    obtain rfl := Option.some.inj (hm.symm.trans hm')
    rw [payloadStr_makeTyped hp] at hpayload
    obtain ⟨h1, h2⟩ := hframe.mp h
    exact ⟨h1, h2, List.take_eq_self_iff p |>.mp hpayload⟩
  · rintro ⟨h1, h2, h3⟩
    refine ⟨hframe.mpr ⟨h1, h2⟩, _, hm, ?_, ?_, ?_⟩
    · rw [senderStr_makeTyped hs, List.take_of_length_le h1]
    · rw [receiverStr_makeTyped hr, List.take_of_length_le h2]
    · rw [payloadStr_makeTyped hp, List.take_of_length_le h3]

theorem replicate_ne_zero (n : Nat) : ∀ c ∈ List.replicate n (97 : UInt8), c ≠ 0 := by
  intro c hc
  rw [List.eq_of_mem_replicate hc]
  decide

/-- A payload of 1025 bytes comes back cut, and so does a name of 32 bytes. -/
theorem not_agrees_long : ¬ Agrees 0 0x20 (ascii "u0") [] (List.replicate 1025 97) ∧
    ¬ Agrees 0 0x20 (List.replicate 32 97) [] (ascii "m0") := by
  constructor
  · intro h
    have hfit := ((agrees_iff (by simp [ascii]) (by simp) (replicate_ne_zero _) 0 0x20).mp h).2.2
    rw [List.length_replicate] at hfit
    exact absurd hfit (by decide)
  · intro h
    have hfit := ((agrees_iff (replicate_ne_zero _) (by simp) (by simp [ascii]) 0 0x20).mp h).1
    rw [List.length_replicate] at hfit
    exact absurd hfit (by decide)

end ChatSystem.Benchmark
