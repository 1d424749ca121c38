import ChatSystem.Chat.Room
import ChatSystem.Server.LocalTime

/-!
# Timestamps of relayed messages

The timestamp of a relayed message comes from its sender and goes into the history as local
time. Routing is stated once more with the results of the library visible, so that it stops
where one is used that is absent.
-/

namespace ChatSystem.Chat

open Bytes

namespace Room

variable (room : Room) (fl : Flavour) (zone : Zone) (env : Env) (s : Slot) (m : Message)

/-- `save_history(msg->sender, to, msg->payload, (time_t)msg->timestamp)`. -/
def save? (receiver : List UInt8) : Option Room :=
  (saveHistory? zone env.host.canAppend room.history m.senderStr receiver m.payloadStr
    m.timestamp).map fun h => { room with history := h }

/-- The `MSG_BROADCAST` branch. -/
def broadcast? : Option (Room × List Sent) :=
  if !(room.table s).active then some (room, room.reply s (notAuthenticated env.now))
  else do
    let saved ← room.save? zone env m []
    return (saved, room.copies (room.others s) .relay m ++ room.reply s (relayed env.now m))

/-- The `MSG_PRIVATE` branch. -/
def priv? : Option (Room × List Sent) :=
  if !(room.table s).active then some (room, room.reply s (notAuthenticated env.now))
  else match findName room.table m.receiver.toList with
    | none => some (room, room.reply s (userNotOnline env.now m))
    | some t => do
      let saved ← room.save? zone env m m.receiverStr
      return (saved, room.copies [t] .relay m ++ room.reply s (relayed env.now m))

/-- The routers; `none` where an absent result is used. -/
def route? : Option (Room × List Sent) :=
  match m.kind with
  | some .broadcast => room.broadcast? zone env s m
  | some .priv => room.priv? zone env s m
  | _ => some (room.route fl env s m)

/-- Routing the message writes a log: the sender is logged in, the receiver of a private
message is online, and the log of the sender can be opened. -/
def Logs : Prop :=
  (room.table s).active = true ∧
    (m.kind = some .broadcast ∨
      m.kind = some .priv ∧ (findName room.table m.receiver.toList).isSome = true) ∧
    env.host.canAppend (historyPath m.senderStr) = true

instance : Decidable (room.Logs env s m) := inferInstanceAs (Decidable (_ ∧ _ ∧ _))

end Room

/-- Surroundings whose clock shows the time of a zone. -/
def inZone (zone : Zone) (env : Env) : Env :=
  { env with host := zone.host env.host.canAppend }

variable {room : Room} {fl : Flavour} {zone : Zone} {env : Env} {s : Slot} {m : Message}

theorem save?_eq (receiver : List UInt8) : room.save? zone env m receiver =
    if env.host.canAppend (historyPath m.senderStr) = true → zone.InRange m.timestamp then
      some (room.save (inZone zone env) m receiver)
    else none := by
  rw [Room.save?, saveHistory?_eq]
  split <;> rfl

/-- A branch that saves the message first. -/
theorem save?_bind (receiver : List UInt8) (sent : List Sent) :
    (do
      let saved ← room.save? zone env m receiver
      return (saved, sent)) =
    if env.host.canAppend (historyPath m.senderStr) = true → zone.InRange m.timestamp then
      some (room.save (inZone zone env) m receiver, sent)
    else none := by
  rw [save?_eq]
  split <;> rfl

theorem broadcast?_eq : room.broadcast? zone env s m =
    if (room.table s).active = true → env.host.canAppend (historyPath m.senderStr) = true →
      zone.InRange m.timestamp then some (room.broadcast (inZone zone env) s m)
    else none := by
  unfold Room.broadcast? Room.broadcast
  cases (room.table s).active with
  | false => simp only [Bool.not_false, if_true, Bool.false_eq_true, false_implies]; rfl
  | true =>
    simp only [Bool.not_true, Bool.false_eq_true, if_false, true_implies]
    exact save?_bind [] _

theorem priv?_eq : room.priv? zone env s m =
    if (room.table s).active = true → (findName room.table m.receiver.toList).isSome = true →
      env.host.canAppend (historyPath m.senderStr) = true → zone.InRange m.timestamp then
      some (room.priv (inZone zone env) s m)
    else none := by
  unfold Room.priv? Room.priv
  cases (room.table s).active with
  | false => simp only [Bool.not_false, if_true, Bool.false_eq_true, false_implies]; rfl
  | true =>
    simp only [Bool.not_true, Bool.false_eq_true, if_false, true_implies]
    cases findName room.table m.receiver.toList with
    | none => simp only [Option.isSome_none, Bool.false_eq_true, false_implies, if_true]; rfl
    | some t =>
      simp only [Option.isSome_some, true_implies]
      exact save?_bind m.receiverStr _

/-- The other requests do not look at the clock of the host. -/
theorem route_inZone (h1 : m.kind ≠ some .broadcast) (h2 : m.kind ≠ some .priv) :
    room.route fl (inZone zone env) s m = room.route fl env s m := by
  unfold Room.route
  split
  · rfl
  · rfl
  · next hk => exact absurd hk h1
  · next hk => exact absurd hk h2
  all_goals rfl

/-- Routing completes unless it writes a log and there is no local time; what it does then is
what the routers do in surroundings that show the local time. -/
theorem route?_eq (room : Room) (fl : Flavour) (zone : Zone) (env : Env) (s : Slot)
    (m : Message) : room.route? fl zone env s m =
      if room.Logs env s m → zone.InRange m.timestamp then
        some (room.route fl (inZone zone env) s m)
      else none := by
  have hother : m.kind ≠ some .broadcast → m.kind ≠ some .priv →
      (room.Logs env s m → zone.InRange m.timestamp) := by
    rintro h1 h2 ⟨-, hk | ⟨hk, -⟩, -⟩
    · exact absurd hk h1
    · exact absurd hk h2
  unfold Room.route?
  split
  · next hk =>
    have hlogs : (room.Logs env s m → zone.InRange m.timestamp) ↔
        ((room.table s).active = true → env.host.canAppend (historyPath m.senderStr) = true →
          zone.InRange m.timestamp) := by
      simp only [Room.Logs, hk, true_or, true_and, and_imp]
    rw [broadcast?_eq]
    simp only [hlogs, Room.route, hk]
  · next hk =>
    have hlogs : (room.Logs env s m → zone.InRange m.timestamp) ↔
        ((room.table s).active = true → (findName room.table m.receiver.toList).isSome = true →
          env.host.canAppend (historyPath m.senderStr) = true → zone.InRange m.timestamp) := by
      simp [Room.Logs, hk]
    rw [priv?_eq]
    simp only [hlogs, Room.route, hk]
  · next h1 h2 =>
    rw [if_pos (hother h1 h2), route_inZone h1 h2]

/-- For every timestamp of every message the routers complete exactly if there is a local time
for it or no log is written: in a zone's local seconds, the year of `tm_year` is the only
limit, and the text always fits its buffer. -/
theorem route_completes_iff (room : Room) (fl : Flavour) (zone : Zone) (env : Env) (s : Slot)
    (m : Message) : (room.route? fl zone env s m).isSome = true ↔
      (room.Logs env s m → -67768040609740800 ≤ zone.local m.timestamp ∧
        zone.local m.timestamp ≤ 67768036191676799) := by
  rw [route?_eq]
  split
  · next h => exact iff_of_true rfl h
  · next h => exact iff_of_false Bool.false_ne_true h

/-- A client that connects and logs in. -/
def aliceIn : List Event :=
  [.connect plainEnv, .request 0 (.make 0 .login (ascii "alice") [] (ascii "alice:pw")) plainEnv]

/-- A broadcast with the largest signed timestamp. -/
def lastSecond : Message :=
  makeMessage 0x7FFFFFFFFFFFFFFF .broadcast (ascii "alice") [] (ascii "hi")

/-- Its second has no local time, and `strftime` is handed a null pointer. -/
theorem not_completes_lastSecond : localtime (fun _ => 0) lastSecond.timestamp = none ∧
    ¬ ((roomAfter .epoll (fun _ => none) aliceIn).route? .epoll (fun _ => 0) plainEnv 0
      lastSecond).isSome = true := by
  have hrange : ¬ Zone.InRange (fun _ => 0) lastSecond.timestamp := by decide
  have hlogs : (roomAfter .epoll (fun _ => none) aliceIn).Logs plainEnv 0 lastSecond := by
    exact ⟨rfl, Or.inl (kind_makeMessage ..), rfl⟩
  constructor
  · rw [localtime_eq, if_neg hrange]
  · rw [route?_eq, if_neg fun h => hrange (h hlogs)]
    exact Bool.false_ne_true

end ChatSystem.Chat
