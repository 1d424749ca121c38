import ChatSystem.Server.History

/-!
# Replies

The messages a chat server makes itself. The three routers send the same ones;
each applies them to its own table and its own way of sending.
-/

namespace ChatSystem

open Bytes

/-- The name the servers send under. -/
def serverName : List UInt8 := ascii "server"

/-- The reply to a login payload without two fields. -/
def badLogin (now : UInt64) : Message := makeError now serverName [] (ascii "Bad login format")

/-- The reply to a login under a name in use. -/
def alreadyLoggedIn (now : UInt64) (u : List UInt8) : Message :=
  makeError now serverName u (ascii "Already logged in")

/-- The reply to refused credentials. -/
def invalidCredentials (now : UInt64) (u : List UInt8) : Message :=
  makeError now serverName u (ascii "Invalid credentials")

/-- The reply to a login. -/
def loginSuccessful (now : UInt64) (u : List UInt8) : Message :=
  makeMessage now .ack serverName u (ascii "Login successful")

/-- The reply to a relay request before login. -/
def notAuthenticated (now : UInt64) : Message :=
  makeError now serverName [] (ascii "Not authenticated")

/-- The reply to a private message for an unknown name. -/
def userNotOnline (now : UInt64) (m : Message) : Message :=
  makeError now serverName m.senderStr (ascii "User not online")

/-- The reply to a relayed message. -/
def relayed (now : UInt64) (m : Message) : Message :=
  makeMessage now .ack serverName m.senderStr []

/-- The reply to a user-list request. -/
def userList (now : UInt64) (m : Message) (table : Slot → Entry) : Message :=
  makeMessage now .userList serverName m.senderStr (listUsers table)

/-- The reply to a history request. -/
def historyResponse (now : UInt64) (m : Message) (h : History) : Message :=
  makeMessage now .historyResp serverName m.senderStr (historyPayload h m.senderStr)

/-- The reply to a status change. -/
def statusUpdated (now : UInt64) (m : Message) : Message :=
  makeMessage now .ack serverName m.senderStr (ascii "Status updated")

/-- The reply of the `default` branch. -/
def unknownType (now : UInt64) (m : Message) : Message :=
  makeError now serverName m.senderStr (ascii "Unknown type")

/-- The message `bcast_note` sends. -/
def notice (now : UInt64) (note : List UInt8) : Message :=
  makeMessage now .broadcast serverName [] note

/-- The reply to a connection that finds no free slot. -/
def serverFull (now : UInt64) : Message := makeError now serverName [] (ascii "Server full")

/-- The history after relaying a message, under its own sender and time. -/
def History.save (h : History) (host : Host) (m : Message) (receiver : List UInt8) : History :=
  saveHistory host h m.senderStr receiver m.payloadStr m.timestamp

/-- `clients[s].active = 1; clients[s].status = STATUS_AVAILABLE` after the name is stored. -/
def Entry.activate (e : Entry) : Entry := { e with active := true, status := statusAvailable }

/-- The entry of a successful login. -/
def Entry.login (e : Entry) (u : List UInt8) : Entry := (e.setName u).activate

/-- The entry after a status change. -/
def Entry.setStatus (e : Entry) (status : Nat) : Entry := { e with status := status }

end ChatSystem
