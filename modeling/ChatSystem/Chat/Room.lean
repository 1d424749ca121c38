import ChatSystem.Core.Reactive
import ChatSystem.Protocol.Stream
import ChatSystem.Thread.Program

/-!
# One event after the other

What the three chat servers do with an event that is processed to completion before the
next one. They share the routing of a request and differ in the test for a name in use, in
what becomes of a slot at a logout, and in how they announce a departure.
-/

namespace ChatSystem.Chat

open Bytes

/-- The three chat servers. -/
inductive Flavour
  | fork
  | thread
  | epoll
  deriving DecidableEq, Repr

/-- Why a message is sent. -/
inductive Via
  /-- An answer to the connection a request came from. -/
  | reply
  /-- A client's message passed on. -/
  | relay
  /-- A departure notice. -/
  | notice
  deriving DecidableEq, Repr

/-- A message sent to a connection, as its receiver reads it. -/
structure Sent where
  conn : Nat
  via : Via
  frame : Message
  deriving DecidableEq

/-- A message as a server receives it. -/
def Request : Type := { m : Message // ∃ f, frameFormat.IsFrame f ∧ unpackMessage f = some m }

theorem received_of_wellFormed {m : Message} (h : WellFormed m) :
    ∃ f, frameFormat.IsFrame f ∧ unpackMessage f = some m :=
  ⟨packMessage m, isFrame_packMessage m, h.unpack_pack⟩

/-- A request as the clients make it. -/
def Request.make (now : UInt64) (type : MsgType) (sender receiver payload : List UInt8) :
    Request :=
  ⟨makeMessage now type sender receiver payload,
    received_of_wellFormed (wellFormed_makeMessage now type sender receiver payload)⟩

/-- Surroundings without a discovery server. -/
def plainEnv : Env := ⟨0, none, ⟨fun _ => [], fun _ => true⟩⟩

/-- How a connection ends. -/
structure Leaving where
  env : Env
  /-- The stack behind the name a thread saves. -/
  junk : List UInt8
  /-- The handler of the fork server releases the slot before the parent reads the child's
  last message. -/
  reaped : Bool

/-- What happens to a chat server. -/
inductive Event
  | connect (env : Env)
  | request (c : Nat) (m : Request) (env : Env)
  | close (c : Nat) (how : Leaving)

/-- A chat server between two events. -/
structure Room where
  table : Slot → Entry
  /-- The connection a slot is in use for. -/
  conn : Slot → Option Nat
  /-- The number of connections accepted so far. -/
  accepted : Nat
  history : History

/-- The server in front of its first event. -/
def Room.init (history : History) : Room := ⟨fun _ => .zero, fun _ => none, 0, history⟩

/-- The login data of a released slot: the epoll server zeroes the whole client. -/
def Flavour.released : Flavour → Entry → Entry
  | .epoll, _ => .zero
  | _, e => e.clear

/-- The login data of a slot that is filled. -/
def Flavour.filled : Flavour → Entry → Entry
  | .fork, e => e
  | .thread, e => e.clear.setStatus statusAvailable
  | .epoll, _ => .zero

/-- The name in the notice of a departure that is not a logout. -/
def Flavour.lastName (fl : Flavour) (e : Entry) (junk : List UInt8) : List UInt8 :=
  match fl with
  | .thread => Thread.savedName e junk
  | _ => e.name

namespace Room

variable (room : Room)

/-- The slot of a connection. -/
def slotOf (c : Nat) : Option Slot := firstSlot fun i => room.conn i == some c

/-- The other active slots. -/
def others (s : Slot) : List Slot :=
  (List.finRange maxClients).filter fun i => i ≠ s && (room.table i).active

/-- A message for the connections of some slots. -/
def copies (slots : List Slot) (via : Via) (m : Message) : List Sent :=
  slots.filterMap fun i => (room.conn i).map (⟨·, via, canonical m⟩)

/-- A message for the connection of a slot. -/
def reply (s : Slot) (m : Message) : List Sent := room.copies [s] .reply m

/-- Overwrite the login data of a slot. -/
def setEntry (s : Slot) (e : Entry) : Room :=
  { room with table := Function.update room.table s e }

/-- `save_history`. -/
def save (env : Env) (m : Message) (receiver : List UInt8) : Room :=
  { room with history := room.history.save env.host m receiver }

/-- Release a slot. -/
def release (fl : Flavour) (s : Slot) : Room :=
  { room.setEntry s (fl.released (room.table s)) with
    conn := Function.update room.conn s none }

/-- Fill a slot with the next connection. -/
def fill (fl : Flavour) (s : Slot) : Room :=
  { room.setEntry s (fl.filled (room.table s)) with
    conn := Function.update room.conn s (some room.accepted)
    accepted := room.accepted + 1 }

/-- The test for a name in use; the fork server lets a client log in again under its own. -/
def taken (fl : Flavour) (s : Slot) (u : List UInt8) : Bool :=
  match fl with
  | .fork => (findName room.table u).any (· ≠ s)
  | _ => (findName room.table u).isSome

/-- The `MSG_LOGIN` branch. -/
def login (fl : Flavour) (env : Env) (s : Slot) (m : Message) : Room × List Sent :=
  match scanLogin m.payload.toList with
  | none => (room, room.reply s (badLogin env.now))
  | some (u, p) =>
    if room.taken fl s u then (room, room.reply s (alreadyLoggedIn env.now u))
    else if !validate env.disc env.now u p then (room, room.reply s (invalidCredentials env.now u))
    else (room.setEntry s ((room.table s).login u), room.reply s (loginSuccessful env.now u))

/-- The notices of the `MSG_LOGOUT` branch. -/
def farewell (env : Env) (s : Slot) : List Sent :=
  room.copies (room.others s) .notice (notice env.now (leftNote (room.table s).name))

/-- The `MSG_LOGOUT` branch; the fork server keeps the slot until the connection ends. -/
def logout (fl : Flavour) (env : Env) (s : Slot) : Room × List Sent :=
  match fl with
  | .fork => (room.setEntry s (room.table s).clear, room.farewell env s)
  | _ => (room.release fl s, room.farewell env s)

/-- The `MSG_BROADCAST` branch. -/
def broadcast (env : Env) (s : Slot) (m : Message) : Room × List Sent :=
  if !(room.table s).active then (room, room.reply s (notAuthenticated env.now))
  else (room.save env m [],
    room.copies (room.others s) .relay m ++ room.reply s (relayed env.now m))

/-- The `MSG_PRIVATE` branch. -/
def priv (env : Env) (s : Slot) (m : Message) : Room × List Sent :=
  if !(room.table s).active then (room, room.reply s (notAuthenticated env.now))
  else match findName room.table m.receiver.toList with
    | none => (room, room.reply s (userNotOnline env.now m))
    | some t => (room.save env m m.receiverStr,
        room.copies [t] .relay m ++ room.reply s (relayed env.now m))

/-- The routers. -/
def route (fl : Flavour) (env : Env) (s : Slot) (m : Message) : Room × List Sent :=
  match m.kind with
  | some .login => room.login fl env s m
  | some .logout => room.logout fl env s
  | some .broadcast => room.broadcast env s m
  | some .priv => room.priv env s m
  | some .listUsers => (room, room.reply s (userList env.now m room.table))
  | some .historyReq => (room, room.reply s (historyResponse env.now m room.history))
  | some .statusChange =>
    (room.setEntry s ((room.table s).setStatus (scanStatus m.payload.toList)),
      room.reply s (statusUpdated env.now m))
  | _ => (room, room.reply s (unknownType env.now m))

/-- A connection arrives. -/
def connect (fl : Flavour) (env : Env) : Room × List Sent :=
  match firstSlot fun i => (room.conn i).isNone with
  | none =>
    ({ room with accepted := room.accepted + 1 },
      [⟨room.accepted, .reply, canonical (serverFull env.now)⟩])
  | some s => (room.fill fl s, [])

/-- The notices for a connection that ends. -/
def partings (fl : Flavour) (how : Leaving) (s : Slot) : List Sent :=
  match fl with
  -- the child makes up a `MSG_LOGOUT`, whether or not its client is logged in
  | .fork => if how.reaped then [] else room.farewell how.env s
  | _ =>
    if (room.table s).active then
      room.copies (room.others s) .notice
        (notice how.env.now (disconnectedNote (fl.lastName (room.table s) how.junk)))
    else []

/-- The end of a connection; one without a slot has been closed by the server before. -/
def close (fl : Flavour) (c : Nat) (how : Leaving) : Room × List Sent :=
  match room.slotOf c with
  | none => (room, [])
  | some s => (room.release fl s, room.partings fl how s)

/-- A request of a connection. -/
def request (fl : Flavour) (c : Nat) (m : Message) (env : Env) : Room × List Sent :=
  match room.slotOf c with
  | none => (room, [])
  | some s => room.route fl env s m

end Room

/-- One event. -/
def serve (fl : Flavour) (room : Room) : Event → Room × List Sent
  | .connect env => room.connect fl env
  | .request c m env => room.request fl c m.val env
  | .close c how => room.close fl c how

/-- The server behind a list of events. -/
def roomAfter (fl : Flavour) (history : History) (es : List Event) : Room :=
  Reactive.after (serve fl) (.init history) es

/-- The messages sent at a list of events. -/
def sentAt (fl : Flavour) (history : History) (es : List Event) : List Sent :=
  Reactive.outputs (serve fl) (.init history) es

end ChatSystem.Chat
