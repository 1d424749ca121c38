import ChatSystem.Core.Words
import ChatSystem.Protocol.Message

/-!
# The wire codec

Packing writes the 76 header bytes and the announced payload; unpacking rejects
a short buffer and an over-long announcement. Unpacking a packed message gives
the message back in canonical form: names cut at their terminator or 31 bytes,
length clamped, payload cleared behind it. Well-formed messages are canonical.
-/

namespace ChatSystem

open Bytes Words

/-- The payload length `pack_message` announces. -/
def packedLen (m : Message) : UInt16 :=
  if m.payloadLen.toNat ≤ maxPayloadLen then m.payloadLen else UInt16.ofNat maxPayloadLen

/-- The 76 header bytes of a message. -/
def packHeader (m : Message) : List UInt8 :=
  [m.type.toUInt8, m.status] ++ (nameField m.sender.toList).toList ++
    (nameField m.receiver.toList).toList ++ bytes64 m.timestamp ++ bytes16 (packedLen m)

/-- `pack_message`: the bytes written into `buf`, their number being the result. -/
def packMessage (m : Message) : List UInt8 :=
  packHeader m ++ m.payload.toList.take (packedLen m).toNat

/-- Byte `i` of a buffer. -/
def byteAt (buf : List UInt8) (i : Nat) : UInt8 := buf[i]?.getD 0

/-- The big-endian length in bytes 74 and 75. -/
def announcedLen (buf : List UInt8) : UInt16 := word16 (byteAt buf 74) (byteAt buf 75)

/-- `read_u64_be(buf)`. -/
def readU64be (buf : List UInt8) : UInt64 :=
  word64 (byteAt buf 0) (byteAt buf 1) (byteAt buf 2) (byteAt buf 3)
    (byteAt buf 4) (byteAt buf 5) (byteAt buf 6) (byteAt buf 7)

/-- A name copied by `memcpy(name, buf, 32)` with `name[31] = 0` behind it. -/
def nameAt (buf : List UInt8) : Arr maxUsernameLen :=
  ⟨(fit 31 buf).toList ++ [0], by
    rw [List.length_append, List.Vector.toList_length]
    rfl⟩

/-- A zeroed payload with `buf` copied over its front. -/
def payloadAt (buf : List UInt8) : Arr maxPayloadLen := fit maxPayloadLen buf

/-- `unpack_message(buf, |buf|, msg)`; `none` is the result `-1`. -/
def unpackMessage (buf : List UInt8) : Option Message :=
  if buf.length < headerSize then none
  else if maxPayloadLen < (announcedLen buf).toNat then none
  else if 0 < (announcedLen buf).toNat ∧ buf.length < headerSize + (announcedLen buf).toNat then
    none
  else some
    { type := (byteAt buf 0).toUInt32
      status := byteAt buf 1
      sender := nameAt (buf.drop 2)
      receiver := nameAt (buf.drop 34)
      timestamp := readU64be (buf.drop 66)
      payloadLen := announcedLen buf
      payload := payloadAt ((buf.drop headerSize).take (announcedLen buf).toNat) }

/-! ## Lengths -/

theorem packedLen_le (m : Message) : (packedLen m).toNat ≤ maxPayloadLen := by
  unfold packedLen
  split
  · assumption
  · decide

@[simp] theorem length_packHeader (m : Message) : (packHeader m).length = headerSize := by
  simp only [packHeader, List.length_append, List.Vector.toList_length, length_bytes16,
    length_bytes64]
  rfl

@[simp] theorem length_packMessage (m : Message) :
    (packMessage m).length = headerSize + (packedLen m).toNat := by
  have h := packedLen_le m
  simp only [packMessage, List.length_append, length_packHeader, List.length_take,
    List.Vector.toList_length]
  omega

/-! ## Reading the header fields back -/

section Fields

variable (m : Message) (rest : List UInt8)

theorem packHeader_eq : packHeader m ++ rest = m.type.toUInt8 :: m.status ::
    ((nameField m.sender.toList).toList ++ ((nameField m.receiver.toList).toList ++
      (bytes64 m.timestamp ++ (bytes16 (packedLen m) ++ rest)))) := by
  simp only [packHeader, List.append_assoc, List.cons_append, List.nil_append]

/-- The bytes behind the sender field. -/
private theorem drop_sender : (packHeader m ++ rest).drop 34 =
    (nameField m.receiver.toList).toList ++
      (bytes64 m.timestamp ++ (bytes16 (packedLen m) ++ rest)) := by
  rw [packHeader_eq, List.drop_succ_cons, List.drop_succ_cons]
  exact List.drop_left' (List.Vector.toList_length _)

/-- The bytes behind the receiver field. -/
private theorem drop_receiver : (packHeader m ++ rest).drop 66 =
    bytes64 m.timestamp ++ (bytes16 (packedLen m) ++ rest) := by
  rw [show 66 = 34 + 32 from rfl, ← List.drop_drop, drop_sender]
  exact List.drop_left' (List.Vector.toList_length _)

theorem announcedLen_packHeader : announcedLen (packHeader m ++ rest) = packedLen m := by
  have h : ∀ i, byteAt (packHeader m ++ rest) (66 + i) =
      byteAt (bytes64 m.timestamp ++ (bytes16 (packedLen m) ++ rest)) i := by
    intro i
    rw [← drop_receiver, byteAt, byteAt, List.getElem?_drop]
  rw [announcedLen, h 8, h 9]
  exact word16_bytes _

theorem readU64be_packHeader : readU64be ((packHeader m ++ rest).drop 66) = m.timestamp := by
  rw [drop_receiver]
  exact word64_bytes _

theorem nameAt_nameField (s : List UInt8) (t : List UInt8) :
    nameAt ((nameField s).toList ++ t) = nameField s := by
  apply List.Vector.eq
  rw [toList_nameField, List.append_assoc]
  change (fit 31 (padded 31 s ++ ([0] ++ t))).toList ++ [0] = _
  rw [toList_fit_append (length_padded 31 s)]

theorem nameAt_packHeader_sender :
    nameAt ((packHeader m ++ rest).drop 2) = nameField m.sender.toList := by
  rw [packHeader_eq, List.drop_succ_cons, List.drop_succ_cons, List.drop_zero]
  exact nameAt_nameField _ _

theorem nameAt_packHeader_receiver :
    nameAt ((packHeader m ++ rest).drop 34) = nameField m.receiver.toList := by
  rw [drop_sender]
  exact nameAt_nameField _ _

end Fields

/-! ## Round trip -/

/-- The message a receiver reconstructs from the packed form of `m`. -/
def canonical (m : Message) : Message :=
  { type := m.type.toUInt8.toUInt32
    status := m.status
    sender := nameField m.sender.toList
    receiver := nameField m.receiver.toList
    timestamp := m.timestamp
    payloadLen := packedLen m
    payload := payloadAt (m.payload.toList.take (packedLen m).toNat) }

/-- Every message survives the wire in canonical form. -/
theorem unpack_pack (m : Message) : unpackMessage (packMessage m) = some (canonical m) := by
  have hlen := packedLen_le m
  have hann : announcedLen (packMessage m) = packedLen m := announcedLen_packHeader _ _
  have hbody : ((packMessage m).drop headerSize).take (packedLen m).toNat =
      m.payload.toList.take (packedLen m).toNat := by
    rw [packMessage, List.drop_left' (length_packHeader m), List.take_take, Nat.min_self]
  rw [unpackMessage, hann, if_neg (by simp), if_neg (by omega), if_neg (by simp), hbody]
  simp only [packMessage, nameAt_packHeader_sender, nameAt_packHeader_receiver,
    readU64be_packHeader]
  rfl

/-- A name of at most 31 bytes, padded with zeros to its field. -/
def IsNameField (a : Arr maxUsernameLen) : Prop :=
  ∃ name : List UInt8, name.length ≤ 31 ∧ (∀ b ∈ name, b ≠ 0) ∧
    a.toList = name ++ List.replicate (32 - name.length) 0

/-- A message as the programs build it: a byte-sized type, padded names, a length
within the payload and nothing but zeros behind it. -/
structure WellFormed (m : Message) : Prop where
  type_lt : m.type < 256
  sender : IsNameField m.sender
  receiver : IsNameField m.receiver
  payloadLen_le : m.payloadLen.toNat ≤ maxPayloadLen
  payload_zero : m.payload.toList.drop m.payloadLen.toNat =
    List.replicate (maxPayloadLen - m.payloadLen.toNat) 0

/-- A padded name is what `strncpy` makes of it. -/
theorem IsNameField.nameField_eq {a : Arr maxUsernameLen} (h : IsNameField a) :
    nameField a.toList = a := by
  obtain ⟨name, hlen, hne, ha⟩ := h
  apply List.Vector.eq
  have hc : cstr (name ++ List.replicate (32 - name.length) 0) = name :=
    cstr_append_replicate hne _
  rw [toList_nameField, ha, padded, hc, List.take_of_length_le hlen, List.append_assoc,
    show 32 - name.length = (31 - name.length) + 1 by omega, List.replicate_succ']

/-- Every name field the programs fill is padded. -/
theorem isNameField_nameField (s : List UInt8) : IsNameField (nameField s) := by
  refine ⟨(cstr s).take 31, by simp [List.length_take], fun _ => cstr_take_ne, ?_⟩
  have hl : 32 - ((cstr s).take 31).length = (31 - (cstr s).length) + 1 := by
    simp only [List.length_take]
    omega
  rw [toList_nameField, padded, hl, List.replicate_succ', List.append_assoc]

/-- The messages the programs make are well formed. -/
theorem wellFormed_makeMessage (now : UInt64) (t : MsgType) (s r p : List UInt8) :
    WellFormed (makeMessage now t s r p) := by
  have hlen := payloadLen_makeMessage now t s r p
  refine ⟨t.code_lt, isNameField_nameField s, isNameField_nameField r, ?_, ?_⟩
  · rw [hlen]
    exact Nat.min_le_right _ _
  · have hcut : ((cstr p).take maxPayloadLen).length = min (cstr p).length maxPayloadLen := by
      rw [List.length_take, Nat.min_comm]
    rw [hlen]
    change (padded maxPayloadLen p).drop _ = _
    rw [padded, List.drop_left' hcut]
    congr 1
    omega

/-- Copying the announced part of a payload that ends there gives it back. -/
theorem payloadAt_take {p : Arr maxPayloadLen} {n : Nat} (hn : n ≤ maxPayloadLen)
    (hz : p.toList.drop n = List.replicate (maxPayloadLen - n) 0) :
    payloadAt (p.toList.take n) = p := by
  apply List.Vector.eq
  have hl : (p.toList.take n).length = n := by
    rw [List.length_take, List.Vector.toList_length, Nat.min_eq_left hn]
  rw [payloadAt, toList_fit, hl, List.take_take, Nat.min_eq_right hn, ← hz, List.take_append_drop]

/-- A well-formed message is its own canonical form. -/
theorem WellFormed.canonical_eq {m : Message} (h : WellFormed m) : canonical m = m := by
  have hp : packedLen m = m.payloadLen := if_pos h.payloadLen_le
  have ht : m.type.toUInt8.toUInt32 = m.type := by
    have := h.type_lt
    apply UInt32.toNat_inj.mp
    simp only [UInt8.toNat_toUInt32, UInt32.toNat_toUInt8]
    exact Nat.mod_eq_of_lt this
  simp only [canonical, hp, ht, h.sender.nameField_eq, h.receiver.nameField_eq,
    payloadAt_take h.payloadLen_le h.payload_zero]

/-- A well-formed message survives the wire unchanged. -/
theorem WellFormed.unpack_pack {m : Message} (h : WellFormed m) :
    unpackMessage (packMessage m) = some m := by
  rw [ChatSystem.unpack_pack, h.canonical_eq]

/-- The bytes of the longest message. -/
def frameMax : Nat := headerSize + maxPayloadLen

theorem length_packMessage_le_frameMax (m : Message) : (packMessage m).length ≤ frameMax := by
  have h := packedLen_le m
  rw [length_packMessage, frameMax]
  omega

end ChatSystem
