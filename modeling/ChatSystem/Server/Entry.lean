import Mathlib.Algebra.Order.Ring.Nat
import Mathlib.Data.Fintype.Basic
import Mathlib.Logic.Function.Basic
import ChatSystem.Core.Scan
import ChatSystem.Protocol.Message

/-!
# Client table entries

The three chat servers keep the same login data for each slot and share the text
of the functions that read it: the search by name, the login grammar, the user
list and the status names. Each server instantiates them with its own table.
-/

namespace ChatSystem

open Bytes

/-- A slot index. -/
abbrev Slot := Fin maxClients

instance : NeZero maxClients := ⟨by decide⟩

/-- The login data of a slot. -/
structure Entry where
  username : Arr maxUsernameLen
  active : Bool
  status : Nat
  deriving DecidableEq

/-- A zeroed entry. -/
def Entry.zero : Entry := ⟨zeros maxUsernameLen, false, statusAvailable⟩

/-- The name of an entry as the string functions see it. -/
def Entry.name (e : Entry) : List UInt8 := cstr e.username.toList

/-- `strncpy(username, u, MAX_USERNAME_LEN - 1)`. -/
def Entry.setName (e : Entry) (u : List UInt8) : Entry :=
  { e with username := strncpy e.username u (maxUsernameLen - 1) }

/-- `active = 0; memset(username, 0, MAX_USERNAME_LEN)`. -/
def Entry.clear (e : Entry) : Entry :=
  { e with active := false, username := zeros maxUsernameLen }

/-- The test of the name searches: active, and `strncmp(username, u, MAX_USERNAME_LEN) == 0`. -/
def Entry.holds (e : Entry) (u : List UInt8) : Bool :=
  e.active && strncmpEq maxUsernameLen e.username.toList u

/-- The first slot of a table that passes a test; `none` is the result `-1`. -/
def firstSlot (p : Slot → Bool) : Option Slot := (List.finRange maxClients).find? p

/-- The search for the active slot with a given name. -/
def findName (table : Slot → Entry) (u : List UInt8) : Option Slot :=
  firstSlot fun i => (table i).holds u

/-- `sscanf(payload, "%31[^:]:%63s", u, p)`, if it converts both fields. -/
def scanLogin (payload : List UInt8) : Option (List UInt8 × List UInt8) := do
  let (u, rest) ← Scan.untilByte 58 31 (cstr payload)
  let rest ← Scan.literal 58 rest
  let (p, _) ← Scan.word 63 rest
  return (u, p)

/-- The status chosen by a status payload. -/
def scanStatus (payload : List UInt8) : Nat :=
  if strncmpEq 4 payload (ascii "busy") then statusBusy
  else if strncmpEq 4 payload (ascii "away") then statusAway
  else statusAvailable

/-- `sn[status]`. -/
def statusName (status : Nat) : List UInt8 :=
  [ascii "available", ascii "busy", ascii "away"].getD status []

/-- `snprintf(buf, size, ..)` of an already formatted string. -/
def snprintf (size : Nat) (s : List UInt8) : List UInt8 := s.take (size - 1)

/-- `strncat(list, s, n)` on terminated strings. -/
def strncat (list s : List UInt8) (n : Nat) : List UInt8 := list ++ (cstr s).take n

/-- One turn of the user-list loop, with its `first` flag. -/
def listStep (acc : List UInt8 × Bool) (e : Entry) : List UInt8 × Bool :=
  if !e.active || e.name.isEmpty then acc
  else
    let list := if acc.2 then acc.1
      else strncat acc.1 (ascii ", ") (maxPayloadLen - acc.1.length - 1)
    let item := snprintf 64 (e.name ++ ascii "(" ++ statusName e.status ++ ascii ")")
    (strncat list item (maxPayloadLen - list.length - 1), false)

/-- The payload of a user list. -/
def listUsers (table : Slot → Entry) : List UInt8 :=
  (((List.finRange maxClients).map table).foldl listStep ([], true)).1

/-- `snprintf(note, 64, "%s left", name)`. -/
def leftNote (name : List UInt8) : List UInt8 := snprintf 64 (name ++ ascii " left")

/-- `snprintf(note, 64, "%s disconnected", name)`. -/
def disconnectedNote (name : List UInt8) : List UInt8 :=
  snprintf 64 (name ++ ascii " disconnected")

/-! ## Credentials -/

/-- The discovery server as a chat server sees it: not configured, or a reply to
each request, absent if the exchange fails. -/
abbrev Discovery := Option (Message → Option Message)

/-- The request `validate` sends. -/
def validateRequest (now : UInt64) (u p : List UInt8) : Message :=
  makeMessage now .validate u (ascii "discovery")
    (snprintf maxPayloadLen (u ++ ascii ":" ++ p))

/-- `validate(u, p) == 0`. -/
def validate (disc : Discovery) (now : UInt64) (u p : List UInt8) : Bool :=
  match disc with
  | none => true
  | some ask => match ask (validateRequest now u p) with
    | some resp => resp.status == 0
    | none => false

/-! ## Searching -/

theorem firstSlot_eq_some {p : Slot → Bool} {i : Slot} (h : firstSlot p = some i) : p i = true :=
  List.find?_some h

theorem firstSlot_eq_none {p : Slot → Bool} (h : firstSlot p = none) (i : Slot) :
    p i = false := by
  simpa using List.find?_eq_none.mp h i (List.mem_finRange i)

/-- A search without result means that no active slot holds the name. -/
theorem findName_eq_none {table : Slot → Entry} {u : List UInt8} (h : findName table u = none)
    (i : Slot) : (table i).holds u = false :=
  firstSlot_eq_none h i

theorem findName_eq_some {table : Slot → Entry} {u : List UInt8} {i : Slot}
    (h : findName table u = some i) : (table i).holds u = true :=
  firstSlot_eq_some h

/-! ## Names -/

/-- A name the login grammar admits: 1 to 31 bytes, none of them zero or a colon. -/
structure ValidName (u : List UInt8) : Prop where
  ne_nil : u ≠ []
  length_le : u.length ≤ 31
  no_zero : ∀ b ∈ u, b ≠ 0
  no_colon : (58 : UInt8) ∉ u

/-- The login grammar only yields valid names. -/
theorem validName_of_scanLogin {payload u p : List UInt8} (h : scanLogin payload = some (u, p)) :
    ValidName u := by
  simp only [scanLogin, Option.bind_eq_bind, Option.bind_eq_some_iff, Option.pure_def] at h
  obtain ⟨⟨u', rest⟩, hu, rest', -, ⟨p', rest''⟩, -, he⟩ := h
  obtain ⟨rfl, -⟩ := Prod.mk.inj (Option.some.inj he)
  obtain ⟨h1, h2, h3, h4⟩ := Scan.untilByte_eq_some hu
  refine ⟨h1, h2, fun b hb => ?_, h3⟩
  exact mem_cstr (s := payload) (by rw [h4]; exact List.mem_append_left _ hb)

theorem ValidName.cstr_eq {u : List UInt8} (h : ValidName u) : cstr u = u :=
  cstr_of_forall_ne h.no_zero

/-- The terminator of a name field is in place. -/
def Entry.Terminated (e : Entry) : Prop := e.username.toList.drop 31 = [0]

theorem Entry.terminated_zero_name (e : Entry) : e.clear.Terminated := rfl

theorem Entry.terminated_setName {e : Entry} (h : e.Terminated) (u : List UInt8) :
    (e.setName u).Terminated := by
  have hl : (padded 31 u).length = 31 := length_padded _ _
  change (strncpy e.username u 31).toList.drop 31 = [0]
  rw [toList_strncpy _ _ (by decide), List.drop_left' hl]
  exact h

/-- A stored valid name reads back unchanged. -/
theorem Entry.name_setName {e : Entry} (h : e.Terminated) {u : List UInt8} (hu : ValidName u) :
    (e.setName u).name = u := by
  change cstr (strncpy e.username u 31).toList = u
  rw [toList_strncpy _ _ (by decide), show e.username.toList.drop 31 = [0] from h,
    cstr_padded_append_zero, hu.cstr_eq, List.take_of_length_le hu.length_le]

@[simp] theorem Entry.name_clear (e : Entry) : e.clear.name = [] := cstr_zeros _

@[simp] theorem Entry.name_zero : Entry.zero.name = [] := cstr_zeros _

/-- The search test compares strings, as long as they fit a name. -/
theorem Entry.holds_iff_cstr {e : Entry} {u : List UInt8} (hu : u.length ≤ maxUsernameLen) :
    e.holds u = true ↔ e.active = true ∧ e.name = cstr u := by
  have hl : e.username.toList.length ≤ maxUsernameLen := (List.Vector.toList_length _).le
  simp only [Entry.holds, strncmpEq, List.take_of_length_le hl, List.take_of_length_le hu,
    Bool.and_eq_true, beq_iff_eq, Entry.name]

/-- For a valid name the search test is equality of names. -/
theorem Entry.holds_iff {e : Entry} {u : List UInt8} (hu : ValidName u) :
    e.holds u = true ↔ e.active = true ∧ e.name = u := by
  rw [Entry.holds_iff_cstr (hu.length_le.trans (by decide)), hu.cstr_eq]

end ChatSystem
