import ChatSystem.Protocol.Stream
import ChatSystem.Server.LocalTime

/-!
# What the client shows

`receiver_thread` prints the messages of its connection one after the other. `print_message`
hands the result of `localtime` to `strftime` without looking at it, and a payload to `printf`
that may have no end in its array. Nothing else ends the session meanwhile.
-/

namespace ChatSystem.Client

open Bytes Calendar Channel

/-- `GRN`. -/
def grn : List UInt8 := 27 :: ascii "[92m"

/-- `CYN`. -/
def cyn : List UInt8 := 27 :: ascii "[96m"

/-- `YLW`. -/
def ylw : List UInt8 := 27 :: ascii "[93m"

/-- `RED`. -/
def red : List UInt8 := 27 :: ascii "[91m"

/-- `BLD`. -/
def bld : List UInt8 := 27 :: ascii "[1m"

/-- `RST`. -/
def rst : List UInt8 := 27 :: ascii "[0m"

/-- `%H:%M:%S`; its eight bytes fit `tb`. -/
def clockText (tm : Moment) : List UInt8 :=
  twoDigits tm.hour ++ 58 :: twoDigits tm.minute ++ 58 :: twoDigits tm.second

/-- One digit of `%X`. -/
def hexDigit (n : Nat) : UInt8 := if n < 10 then UInt8.ofNat (48 + n) else UInt8.ofNat (55 + n)

/-- `%02X` of the type of a received message, which is a byte. -/
def typeText (type : UInt32) : List UInt8 :=
  [hexDigit (type.toNat / 16), hexDigit (type.toNat % 16)]

/-- The argument of a `%s` that is an array; `none` where no end is found in it. -/
def text? {n : Nat} (a : Arr n) : Option (List UInt8) :=
  if 0 ∈ a.toList then some (cstr a.toList) else none

/-- A message of another user, in a colour and with the kind of the message. -/
def said (colour kind tb sender text : List UInt8) : List UInt8 :=
  10 :: colour ++ ascii "[" ++ tb ++ ascii "] " ++ bld ++ sender ++ rst ++ colour ++ ascii " (" ++
    kind ++ ascii "): " ++ rst ++ text ++ ascii "\n> "

/-- A list of the users online. -/
def online (text : List UInt8) : List UInt8 :=
  10 :: grn ++ ascii "Online: " ++ bld ++ text ++ rst ++ ascii "\n> "

/-- A history. -/
def chronicle (text : List UInt8) : List UInt8 :=
  10 :: cyn ++ ascii "--- history ---\n" ++ text ++ ascii "--- end ---\n" ++ rst ++ ascii "> "

/-- An acknowledgement with a text. -/
def granted (text : List UInt8) : List UInt8 :=
  10 :: grn ++ ascii "[server]: " ++ text ++ ascii "\n" ++ rst ++ ascii "> "

/-- An error. -/
def failed (text : List UInt8) : List UInt8 :=
  10 :: red ++ ascii "[error]: " ++ text ++ ascii "\n" ++ rst ++ ascii "> "

/-- A message of another type. -/
def strange (type : UInt32) (sender text : List UInt8) : List UInt8 :=
  10 :: ascii "[?] type=0x" ++ typeText type ++ ascii " " ++ sender ++ ascii ": " ++ text ++
    ascii "\n> "

/-- `print_message`; `none` where it uses a result or a string end that is absent. -/
def printMessage (zone : Zone) (m : Message) : Option (List UInt8) := do
  let tm ← localtime zone m.timestamp
  match m.kind with
  | some .broadcast =>
    return said cyn (ascii "broadcast") (clockText tm) m.senderStr (← text? m.payload)
  | some .priv => return said ylw (ascii "private") (clockText tm) m.senderStr (← text? m.payload)
  | some .userList => return online (← text? m.payload)
  | some .historyResp => return chronicle (← text? m.payload)
  | some .ack =>
    if byteAt m.payload.toList 0 = 0 then return [] else return granted (← text? m.payload)
  | some .error => return failed (← text? m.payload)
  | _ => return strange m.type m.senderStr (← text? m.payload)

/-- `RED "\n[!] Disconnected.\n" RST`. -/
def disconnected : List UInt8 := red ++ ascii "\n[!] Disconnected.\n" ++ rst

/-- `receiver_thread`, for a number of turns. -/
def receiverThread (zone : Zone) : Nat → Source UInt8 → Option (List UInt8)
  | 0, _ => some []
  | n + 1, src =>
    match recvMessage src with
    | (none, _) => some disconnected
    | (some m, src) => do
      let first ← printMessage zone m
      let rest ← receiverThread zone n src
      return first ++ rest

/-- Messages printed one after the other. -/
def shown (zone : Zone) : List Message → Option (List UInt8)
  | [] => some []
  | m :: ms => do
    let first ← printMessage zone m
    let rest ← shown zone ms
    return first ++ rest

variable {zone : Zone} {m : Message} {ms ms' : List Message} {n : Nat} {src : Source UInt8}

/-! ## The receiver -/

theorem shown_append (zone : Zone) (ms ms' : List Message) : shown zone (ms ++ ms') = do
    let before ← shown zone ms
    let behind ← shown zone ms'
    return before ++ behind := by
  induction ms with
  | nil => simp [shown]
  | cons m ms ih =>
    rw [List.cons_append, shown, shown, ih]
    simp only [Option.bind_eq_bind, Option.pure_def, Option.bind_assoc, Option.bind_some,
      List.append_assoc]

theorem received_succ (n : Nat) (src : Source UInt8) : received (n + 1) src =
    match recvMessage src with
    | (none, _) => []
    | (some m, src) => m :: received n src := by
  rw [received, recvCalls, List.map_cons]
  split
  · next h => simp [h]
  · next h => simp [h, received]

/-- The receiver shows the messages of its connection and then that it has ended. -/
theorem receiverThread_eq (zone : Zone) (h : (received n src).length < n) :
    receiverThread zone n src = (shown zone (received n src)).map (· ++ disconnected) := by
  induction n generalizing src with
  | zero => exact absurd h (Nat.not_lt_zero _)
  | succ n ih =>
    rw [received_succ] at h ⊢
    rw [receiverThread]
    obtain ⟨⟨o, src'⟩, hrecv⟩ : ∃ x, recvMessage src = x := ⟨_, rfl⟩
    rw [hrecv] at h ⊢
    cases o with
    | none => simp [shown]
    | some m =>
      have hrest : receiverThread zone n src' = _ := ih (Nat.lt_of_succ_lt_succ h)
      simp only [hrest, shown]
      cases printMessage zone m with
      | none => rfl
      | some first =>
        cases shown zone (received n src') with
        | none => rfl
        | some rest => simp

/-! ## The messages of a server -/

theorem text?_eq {n : Nat} {a : Arr n} (h : (cstr a.toList).length < n) :
    text? a = some (cstr a.toList) := by
  refine if_pos ?_
  by_contra hzero
  have hne : ∀ b ∈ a.toList, b ≠ 0 := by
    rintro b hb rfl
    exact hzero hb
  rw [cstr_of_forall_ne hne, List.Vector.toList_length] at h
  exact Nat.lt_irrefl _ h

end ChatSystem.Client
