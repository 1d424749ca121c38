import Mathlib.Data.List.DropRight
import ChatSystem.Server.History

/-!
# The input loop of the client

`input_loop` reads its input with `fgets` into an array of 1088 bytes and takes what is in the
array for a command. Nothing else ends the session meanwhile.
-/

namespace ChatSystem.Client

open Bytes

/-- What the loop does. -/
inductive Effect
  /-- `printf("> ")`. -/
  | prompt
  /-- `print_help`. -/
  | help
  /-- A message to the user, between `RED` and `RST`. -/
  | complain (text : List UInt8)
  /-- `send_message(server_fd, &m)`. -/
  | send (m : Message)
  deriving DecidableEq

/-- `sizeof(line)`. -/
def lineSize : Nat := maxPayloadLen + 64

/-- `while (len > 0 && (line[len-1] == '\n' || line[len-1] == '\r')) line[--len] = '\0'`. -/
def chomp (line : List UInt8) : List UInt8 := line.rdropWhile fun b => b == 10 || b == 13

/-- `send_cmd`, under `my_username`. -/
def sendCmd (name : List UInt8) (now : UInt64) (type : MsgType) (receiver payload : List UInt8) :
    Effect :=
  .send (makeMessage now type name receiver payload)

/-- The branches of the loop for a string, and `running` behind them. -/
def obey (name : List UInt8) (now : UInt64) (line : List UInt8) : Effect × Bool :=
  if strncmpEq 11 line (ascii "/broadcast ") then
    (sendCmd name now .broadcast [] (line.drop 11), true)
  else if strncmpEq 5 line (ascii "/msg ") then
    let rest := line.drop 5
    if 32 ∈ rest then
      (sendCmd name now .priv (rest.takeWhile (· ≠ 32)) ((rest.dropWhile (· ≠ 32)).drop 1), true)
    else (.complain (ascii "Usage: /msg <user> <msg>\n"), true)
  else if line = ascii "/list" then (sendCmd name now .listUsers [] [], true)
  else if line = ascii "/history" then (sendCmd name now .historyReq [] [], true)
  else if strncmpEq 8 line (ascii "/status ") then
    let s := line.drop 8
    if s ≠ ascii "available" ∧ s ≠ ascii "busy" ∧ s ≠ ascii "away" then
      (.complain (ascii "Usage: /status <available|busy|away>\n"), true)
    else (sendCmd name now .statusChange [] s, true)
  else if line = ascii "/quit" then (sendCmd name now .logout [] (ascii "Bye"), false)
  else if line = ascii "/help" then (.help, true)
  else (.complain (ascii "Unknown command. /help for usage.\n"), true)

/-- One turn of the loop: the string in `line` without its line end, and what is done. -/
structure Turn where
  text : List UInt8
  effects : List Effect

/-- `input_loop` behind its first prompt; `clock` gives `time(NULL)` at each turn. -/
def inputLoop (name : List UInt8) (clock : Nat → UInt64) (k : Nat) (input : List UInt8) :
    List Turn :=
  if _h : input = [] then []
  else
    let line := fgetsLine lineSize input
    let rest := input.drop line.length
    let text := chomp (cstr line)
    if text = [] then ⟨[], [.prompt]⟩ :: inputLoop name clock (k + 1) rest
    else if (obey name (clock k) text).2 then
      ⟨text, [(obey name (clock k) text).1, .prompt]⟩ :: inputLoop name clock (k + 1) rest
    else [⟨text, [(obey name (clock k) text).1]⟩]
termination_by input.length
decreasing_by
  all_goals
    have := fgetsLine_pos (show 1 < lineSize by decide) _h
    have := List.length_pos_iff.mpr _h
    simp only [List.length_drop]
    omega

/-! ## What the user typed -/

/-- The lines of a text, without their line ends and without the empty ones. -/
def lines (input : List UInt8) : List (List UInt8) :=
  ((input.splitOn 10).map chomp).filter (· ≠ [])

/-- The lines up to the first `/quit`. -/
def untilQuit : List (List UInt8) → List (List UInt8)
  | [] => []
  | line :: rest => if line = ascii "/quit" then [line] else line :: untilQuit rest

/-- The turns that take something for a command. -/
def commands (turns : List Turn) : List Turn := turns.filter (·.text ≠ [])

/-- The payload a message carries. -/
def body (m : Message) : List UInt8 := m.payload.toList.take m.payloadLen.toNat

/-- A text is sent whole, in one frame of a type, or refused with a message to the user. -/
def Delivered (type : MsgType) (text : List UInt8) (e : Effect) : Prop :=
  (∃ m, e = .send m ∧ m.kind = some type ∧ body m = text) ∨ ∃ complaint, e = .complain complaint

/-- A turn takes exactly one line for exactly one command. -/
structure Obeyed (line : List UInt8) (turn : Turn) : Prop where
  text : turn.text = line
  once : ∃ e, (turn.effects = [e] ∨ turn.effects = [e, .prompt]) ∧ e ≠ .prompt ∧
    (∀ text, line = ascii "/broadcast " ++ text → Delivered .broadcast text e) ∧
    ∀ receiver text, (32 : UInt8) ∉ receiver → line = ascii "/msg " ++ receiver ++ 32 :: text →
      Delivered .priv text e

/-- The loop takes the lines of a text for its commands, one by one. -/
def LineByLine (name : List UInt8) (clock : Nat → UInt64) (input : List UInt8) : Prop :=
  List.Forall₂ Obeyed (untilQuit (lines input)) (commands (inputLoop name clock 0 input))

/-- A line the loop can hold whole, with a text that fits a payload. -/
structure Holds (line : List UInt8) : Prop where
  no_zero : ∀ b ∈ line, b ≠ 0
  length_lt : line.length < lineSize
  broadcast : ∀ text, line = ascii "/broadcast " ++ text → text.length ≤ maxPayloadLen
  msg : ∀ receiver text, (32 : UInt8) ∉ receiver → line = ascii "/msg " ++ receiver ++ 32 :: text →
    text.length ≤ maxPayloadLen

end ChatSystem.Client
