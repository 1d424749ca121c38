import ChatSystem.Core.Bytes

/-!
# Messages of the chat protocol

One fixed record serves every request and every reply. The type is an
unsigned enumeration that may hold any value; the switches of the programs read
it through `MsgType.ofCode?`, whose `none` is their `default` branch.
-/

namespace ChatSystem

open Bytes

/-- `MAX_USERNAME_LEN`, the size of a name field with its terminator. -/
def maxUsernameLen : Nat := 32

/-- `MAX_PASSWORD_LEN`. -/
def maxPasswordLen : Nat := 64

/-- `MAX_PAYLOAD_LEN`. -/
def maxPayloadLen : Nat := 1024

/-- `HEADER_SIZE`: type, status, sender, receiver, timestamp, length. -/
def headerSize : Nat := 76

/-- `MAX_CLIENTS`, the size of every client table. -/
def maxClients : Nat := 10

/-- The enumerators of `msg_type_t`. -/
inductive MsgType
  | register | discover | discoverResp | validate
  | login | logout
  | broadcast | priv
  | listUsers | userList
  | ack | error
  | historyReq | historyResp | statusChange
  deriving DecidableEq, Repr

/-- The value of an enumerator. -/
def MsgType.code : MsgType → UInt32
  | .register => 0x01
  | .discover => 0x02
  | .discoverResp => 0x03
  | .validate => 0x04
  | .login => 0x10
  | .logout => 0x11
  | .broadcast => 0x20
  | .priv => 0x21
  | .listUsers => 0x30
  | .userList => 0x31
  | .ack => 0x40
  | .error => 0x41
  | .historyReq => 0x50
  | .historyResp => 0x51
  | .statusChange => 0x52

/-- The enumerator with a given value; `none` is the `default` label of a switch. -/
def MsgType.ofCode? (c : UInt32) : Option MsgType :=
  [MsgType.register, .discover, .discoverResp, .validate, .login, .logout, .broadcast, .priv,
    .listUsers, .userList, .ack, .error, .historyReq, .historyResp, .statusChange].find?
    fun t => t.code = c

@[simp] theorem MsgType.ofCode?_code (t : MsgType) : MsgType.ofCode? t.code = some t := by
  cases t <;> rfl

/-- An enumerator is read off its own value only. -/
theorem MsgType.code_of_ofCode? {c : UInt32} {t : MsgType} (h : MsgType.ofCode? c = some t) :
    c = t.code := by
  have hc := List.find?_some h
  exact (of_decide_eq_true hc).symm

/-- Every enumerator fits the type byte of a header. -/
theorem MsgType.code_lt (t : MsgType) : t.code < 256 := by
  cases t <;> decide

/-- `STATUS_AVAILABLE`; the tables store a `user_status_t` as an integer. -/
def statusAvailable : Nat := 0

/-- `STATUS_BUSY`. -/
def statusBusy : Nat := 1

/-- `STATUS_AWAY`. -/
def statusAway : Nat := 2

/-- The protocol record. -/
structure Message where
  type : UInt32
  status : UInt8
  sender : Arr maxUsernameLen
  receiver : Arr maxUsernameLen
  timestamp : UInt64
  payloadLen : UInt16
  payload : Arr maxPayloadLen
  deriving DecidableEq

/-- The enumerator of a message, if its type has one. -/
def Message.kind (m : Message) : Option MsgType := MsgType.ofCode? m.type

/-- The sender as the string functions see it. -/
def Message.senderStr (m : Message) : List UInt8 := cstr m.sender.toList

/-- The receiver as the string functions see it. -/
def Message.receiverStr (m : Message) : List UInt8 := cstr m.receiver.toList

/-- The payload as the string functions see it. -/
def Message.payloadStr (m : Message) : List UInt8 := cstr m.payload.toList

/-- A name field filled by `memset` and `strncpy(_, s, MAX_USERNAME_LEN - 1)`. -/
def nameField (s : List UInt8) : Arr maxUsernameLen :=
  strncpy (zeros maxUsernameLen) s (maxUsernameLen - 1)

/-- `make_message` with every string present; `now` is what `time(NULL)` returns. -/
def makeMessage (now : UInt64) (type : MsgType) (sender receiver payload : List UInt8) :
    Message where
  type := type.code
  status := 0
  sender := nameField sender
  receiver := nameField receiver
  timestamp := now
  payloadLen := UInt16.ofNat (min (cstr payload).length maxPayloadLen)
  payload := ⟨padded maxPayloadLen payload, length_padded _ _⟩

/-- `make_message` followed by `resp.status = 1`. -/
def makeError (now : UInt64) (sender receiver payload : List UInt8) : Message :=
  { makeMessage now .error sender receiver payload with status := 1 }

theorem toList_nameField (s : List UInt8) : (nameField s).toList = padded 31 s ++ [0] := by
  rw [nameField, toList_strncpy _ _ (by decide)]
  rfl

/-- A name field holds its string, cut at 31 bytes. -/
@[simp] theorem cstr_nameField (s : List UInt8) : cstr (nameField s).toList = (cstr s).take 31 := by
  rw [toList_nameField, cstr_padded_append_zero]

@[simp] theorem kind_makeMessage (now : UInt64) (t : MsgType) (s r p : List UInt8) :
    (makeMessage now t s r p).kind = some t := MsgType.ofCode?_code t

@[simp] theorem kind_makeError (now : UInt64) (s r p : List UInt8) :
    (makeError now s r p).kind = some .error := kind_makeMessage now .error s r p

@[simp] theorem payloadStr_makeMessage (now : UInt64) (t : MsgType) (s r p : List UInt8) :
    (makeMessage now t s r p).payloadStr = (cstr p).take maxPayloadLen :=
  cstr_padded _ _

/-- The announced length is that of the string, cut at the payload size. -/
@[simp] theorem payloadLen_makeMessage (now : UInt64) (t : MsgType) (s r p : List UInt8) :
    (makeMessage now t s r p).payloadLen.toNat = min (cstr p).length maxPayloadLen := by
  have hle : min (cstr p).length maxPayloadLen ≤ maxPayloadLen := Nat.min_le_right _ _
  exact Nat.mod_eq_of_lt (Nat.lt_of_le_of_lt hle (by decide))

end ChatSystem
