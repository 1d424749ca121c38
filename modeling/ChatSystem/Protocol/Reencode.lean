import ChatSystem.Protocol.Codec

/-!
# Packing a message that was unpacked

Packing is not the inverse of unpacking: a name field is copied whole by the decoder and as
a string by the encoder. One round makes a frame canonical, and further rounds keep it, so
that the number of processes a frame passes through does not show.
-/

namespace ChatSystem

open Bytes Words

/-- One process that receives a frame and sends it on. -/
def hop (f : List UInt8) : Option (List UInt8) := (unpackMessage f).map packMessage

/-- A frame packed again: the name fields are cut at their end and padded, the rest stays. -/
structure Recoded (f g : List UInt8) : Prop where
  length : g.length = f.length
  typeAndStatus : g.take 2 = f.take 2
  sender : (g.drop 2).take 32 = padded 32 ((f.drop 2).take 31)
  receiver : (g.drop 34).take 32 = padded 32 ((f.drop 34).take 31)
  rest : g.drop 66 = f.drop 66

/-- What is left of a message behind the wire. -/
structure Cut (m m' : Message) : Prop where
  type : m'.type = m.type
  status : m'.status = m.status
  sender : m'.sender.toList = padded 32 (m.sender.toList.take 31)
  receiver : m'.receiver.toList = padded 32 (m.receiver.toList.take 31)
  timestamp : m'.timestamp = m.timestamp
  payloadLen : m'.payloadLen.toNat = min m.payloadLen.toNat maxPayloadLen
  payload : m'.payload.toList = m.payload.toList.take (min m.payloadLen.toNat maxPayloadLen) ++
    List.replicate (maxPayloadLen - min m.payloadLen.toNat maxPayloadLen) 0

variable {f : List UInt8} {m : Message}

/-! ## Names -/

/-- A name field is its string, cut at 31 bytes and padded. -/
theorem toList_nameField_eq (s : List UInt8) :
    (nameField s).toList = padded 32 (s.take 31) := by
  have hlen : ((cstr s).take 31).length = min 31 (cstr s).length := List.length_take
  have hfit : ((cstr s).take 31).take 32 = (cstr s).take 31 :=
    List.take_of_length_le (by omega)
  rw [toList_nameField, padded, padded, cstr_take, hfit, hlen, List.append_assoc,
    show ([0] : List UInt8) = List.replicate 1 0 from rfl, ← List.replicate_add]
  congr 2
  omega

/-- Packing a name that was copied from a buffer. -/
theorem nameField_nameAt (buf : List UInt8) :
    (nameField (nameAt buf).toList).toList = padded 32 (buf.take 31) := by
  have htake : (nameAt buf).toList.take 31 = (fit 31 buf).toList :=
    List.take_left' (List.Vector.toList_length _)
  rw [toList_nameField_eq, htake]
  exact padded_congr 32 (cstr_append_zeros _ _)

/-! ## The other fields -/

theorem take_packMessage (m : Message) :
    (packMessage m).take 2 = [m.type.toUInt8, m.status] := rfl

theorem sender_packMessage (m : Message) :
    ((packMessage m).drop 2).take 32 = (nameField m.sender.toList).toList := by
  rw [packMessage, packHeader_eq, List.drop_succ_cons, List.drop_succ_cons, List.drop_zero]
  exact List.take_left' (List.Vector.toList_length _)

theorem drop_sender_packMessage (m : Message) : (packMessage m).drop 34 =
    (nameField m.receiver.toList).toList ++ (bytes64 m.timestamp ++ (bytes16 (packedLen m) ++
      m.payload.toList.take (packedLen m).toNat)) := by
  rw [packMessage, packHeader_eq, List.drop_succ_cons, List.drop_succ_cons]
  exact List.drop_left' (List.Vector.toList_length _)

theorem receiver_packMessage (m : Message) :
    ((packMessage m).drop 34).take 32 = (nameField m.receiver.toList).toList := by
  rw [drop_sender_packMessage]
  exact List.take_left' (List.Vector.toList_length _)

theorem rest_packMessage (m : Message) : (packMessage m).drop 66 =
    bytes64 m.timestamp ++ (bytes16 (packedLen m) ++ m.payload.toList.take (packedLen m).toNat) := by
  rw [show 66 = 34 + 32 from rfl, ← List.drop_drop, drop_sender_packMessage]
  exact List.drop_left' (List.Vector.toList_length _)

/-- The fields of an accepted buffer. -/
theorem unpackMessage_eq_some (h : unpackMessage f = some m) :
    headerSize ≤ f.length ∧ m.payloadLen = announcedLen f ∧ m.payloadLen.toNat ≤ maxPayloadLen ∧
      m.type = (byteAt f 0).toUInt32 ∧ m.status = byteAt f 1 ∧
      m.sender = nameAt (f.drop 2) ∧ m.receiver = nameAt (f.drop 34) ∧
      m.timestamp = readU64be (f.drop 66) ∧
      m.payload = payloadAt ((f.drop headerSize).take (announcedLen f).toNat) := by
  unfold unpackMessage at h
  split at h
  · cases h
  · next hlen =>
    split at h
    · cases h
    · next hmax =>
      split at h
      · cases h
      · obtain rfl := Option.some.inj h
        exact ⟨Nat.not_lt.mp hlen, rfl, Nat.not_lt.mp hmax, rfl, rfl, rfl, rfl, rfl, rfl⟩

/-- A buffer is its bytes. -/
theorem drop_eq_byteAt_cons {i : Nat} (h : i < f.length) : f.drop i = byteAt f i :: f.drop (i + 1) := by
  rw [List.drop_eq_getElem_cons h, byteAt, List.getElem?_eq_getElem h, Option.getD_some]

/-- The timestamp and the length of a buffer are read and written back. -/
theorem drop_header_eq (h : headerSize ≤ f.length) : f.drop 66 =
    bytes64 (readU64be (f.drop 66)) ++ (bytes16 (announcedLen f) ++ f.drop headerSize) := by
  have hlen : 76 ≤ f.length := h
  have hbyte : ∀ i, byteAt (f.drop 66) i = byteAt f (66 + i) := by
    intro i
    rw [byteAt, byteAt, List.getElem?_drop]
  rw [readU64be, bytes64_word64, announcedLen, bytes16_word16]
  simp only [hbyte, List.cons_append, List.nil_append]
  rw [drop_eq_byteAt_cons (i := 66) (by omega), drop_eq_byteAt_cons (i := 67) (by omega),
    drop_eq_byteAt_cons (i := 68) (by omega), drop_eq_byteAt_cons (i := 69) (by omega),
    drop_eq_byteAt_cons (i := 70) (by omega), drop_eq_byteAt_cons (i := 71) (by omega),
    drop_eq_byteAt_cons (i := 72) (by omega), drop_eq_byteAt_cons (i := 73) (by omega),
    drop_eq_byteAt_cons (i := 74) (by omega), drop_eq_byteAt_cons (i := 75) (by omega)]
  rfl

/-! ## Packing again -/

/-- The copied part of a payload. -/
theorem take_payloadAt {d : List UInt8} (h : d.length ≤ maxPayloadLen) :
    (payloadAt d).toList.take d.length = d := by
  rw [payloadAt, toList_fit, List.take_of_length_le h, List.take_left]

theorem recoded_packMessage (h : unpackMessage f = some m)
    (hlen : f.length = headerSize + m.payloadLen.toNat) : Recoded f (packMessage m) := by
  obtain ⟨hhead, hann, hmax, htype, hstatus, hsender, hreceiver, htime, hpayload⟩ :=
    unpackMessage_eq_some h
  have hpacked : packedLen m = m.payloadLen := if_pos hmax
  have hbody : (f.drop headerSize).length = m.payloadLen.toNat := by
    rw [List.length_drop]
    omega
  refine ⟨?_, ?_, ?_, ?_, ?_⟩
  · rw [length_packMessage, hpacked, hlen]
  · have hpos : 76 ≤ f.length := hhead
    have hzero : f = f.drop 0 := rfl
    rw [take_packMessage, htype, hstatus, UInt8.toUInt8_toUInt32, hzero,
      drop_eq_byteAt_cons (i := 0) (by omega), drop_eq_byteAt_cons (i := 1) (by omega)]
    rfl
  · rw [sender_packMessage, hsender, nameField_nameAt]
  · rw [receiver_packMessage, hreceiver, nameField_nameAt]
  · have htake : m.payload.toList.take m.payloadLen.toNat = f.drop headerSize := by
      rw [hpayload, ← hann, ← hbody, List.take_length]
      exact take_payloadAt (by rw [hbody]; exact hmax)
    rw [rest_packMessage, hpacked, htake, htime, hann, ← drop_header_eq hhead]

/-- Packing only depends on the canonical form. -/
theorem packMessage_canonical (m : Message) : packMessage (canonical m) = packMessage m := by
  have hlen : packedLen (canonical m) = packedLen m := if_pos (packedLen_le m)
  have htype : (canonical m).type.toUInt8 = m.type.toUInt8 := UInt8.toUInt8_toUInt32 _
  have hsender : nameField (canonical m).sender.toList = nameField m.sender.toList :=
    (isNameField_nameField _).nameField_eq
  have hreceiver : nameField (canonical m).receiver.toList = nameField m.receiver.toList :=
    (isNameField_nameField _).nameField_eq
  have hpayload : (canonical m).payload.toList.take (packedLen m).toNat =
      m.payload.toList.take (packedLen m).toNat := by
    have hle := packedLen_le m
    have htake : (m.payload.toList.take (packedLen m).toNat).length = (packedLen m).toNat := by
      rw [List.length_take, List.Vector.toList_length, Nat.min_eq_left hle]
    have hcopy := take_payloadAt (d := m.payload.toList.take (packedLen m).toNat)
      (by rw [htake]; exact hle)
    rwa [htake] at hcopy
  rw [packMessage, packMessage, packHeader, packHeader, hlen, htype, hsender, hreceiver, hpayload]
  rfl

/-- A packed frame passes every further process unchanged. -/
theorem hop_packMessage (m : Message) : hop (packMessage m) = some (packMessage m) := by
  rw [hop, unpack_pack, Option.map_some, packMessage_canonical]

/-- Three processes do what one does. -/
theorem hop_hop (f : List UInt8) : (hop f).bind hop = hop f := by
  unfold hop
  cases unpackMessage f with
  | none => rfl
  | some m => exact hop_packMessage m

theorem cut_canonical (h : m.type < 256) : Cut m (canonical m) := by
  have hmin : (packedLen m).toNat = min m.payloadLen.toNat maxPayloadLen := by
    unfold packedLen
    split
    · next hle => exact (Nat.min_eq_left hle).symm
    · next hgt => exact (Nat.min_eq_right (Nat.le_of_not_le hgt)).symm
  have htake : (m.payload.toList.take (packedLen m).toNat).length = (packedLen m).toNat := by
    rw [List.length_take, List.Vector.toList_length, Nat.min_eq_left (packedLen_le m)]
  refine ⟨?_, rfl, toList_nameField_eq _, toList_nameField_eq _, rfl, hmin, ?_⟩
  · apply UInt32.toNat_inj.mp
    have hlt : m.type.toNat < 256 := h
    simp only [canonical, UInt8.toNat_toUInt32, UInt32.toNat_toUInt8]
    exact Nat.mod_eq_of_lt hlt
  · change (payloadAt _).toList = _
    rw [payloadAt, toList_fit, htake, List.take_of_length_le (by rw [htake]; exact packedLen_le m),
      hmin]

/-- Packing what a buffer was unpacked to gives the buffer back but for its name fields, which
become canonical; from then on nothing changes, in however many processes. Conversely every
message is unpacked from its packed form, cut to its fields. -/
theorem reencoding_canonical :
    (∀ f m, unpackMessage f = some m → f.length = headerSize + m.payloadLen.toNat →
      Recoded f (packMessage m) ∧ hop (packMessage m) = some (packMessage m) ∧
        ((hop f).bind hop).bind hop = hop f) ∧
    ∀ m : Message, m.type < 256 → ∃ m', unpackMessage (packMessage m) = some m' ∧ Cut m m' := by
  constructor
  · intro f m h hlen
    refine ⟨recoded_packMessage h hlen, hop_packMessage m, ?_⟩
    rw [hop_hop, hop_hop]
  · exact fun m h => ⟨canonical m, unpack_pack m, cut_canonical h⟩

end ChatSystem
