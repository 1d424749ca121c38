import ChatSystem.Core.Transition
import ChatSystem.Thread.State

/-!
# The threads of the thread server

The accept loop of `main`, and `client_thread` with `route`. Lock operations,
system calls and reads without `table_lock` are steps of their own; so are the
plain loads and stores of a `table_lock` section, between which a blocking
credential check may stand.
-/

namespace ChatSystem.Thread

open Bytes Channel Tasks

/-- The acts of the threads. -/
inductive Act
  /-- `select` and `accept`. -/
  | accept
  /-- `find_free` and the stores into the slot found. -/
  | allot (fd c : Nat)
  /-- `send_message(cfd, &err)` for a full server. -/
  | refuse (fd : Nat)
  /-- `pthread_create`. -/
  | create (s : Slot) (fd c : Nat)
  /-- `clients[slot].in_use = 0` after a failed `pthread_create`. -/
  | abandon (s : Slot)
  /-- `close(cfd)`. -/
  | closeFd (fd : Nat)
  /-- The write loop of `send_message`, with the bytes still to be written. -/
  | write (fd : Nat) (m : Message) (rest : List UInt8)
  /-- The loop of `client_thread`: `recv_message`. -/
  | recv (s : Slot)
  /-- `route`. -/
  | route (s : Slot) (m : Message)
  /-- `find_user(u) != -1` of a login. -/
  | checkName (s : Slot) (u p : List UInt8)
  /-- `validate(u, p) != 0` of a login. -/
  | validate (s : Slot) (u p : List UInt8)
  /-- The stores of a login. -/
  | storeLogin (s : Slot) (u : List UInt8)
  /-- The stores of a logout. -/
  | clear (s : Slot)
  /-- `bcast_note`. -/
  | bcastNote (skip : Slot) (note : List UInt8)
  /-- The loop `for (i ..) if (i != skip && clients[i].active) slot_send(i, m)` from a slot on. -/
  | sendActive (skip : Slot) (m : Message) (slots : List Slot)
  /-- `save_history`. -/
  | saveHistory (m : Message) (receiver : List UInt8)
  /-- `find_user(msg->receiver)` of a private message. -/
  | findTarget (s : Slot) (m : Message)
  /-- The loop of `MSG_LIST_USERS`. -/
  | listUsers (s : Slot) (m : Message)
  /-- The reading of a log file. -/
  | readHistory (s : Slot) (m : Message)
  /-- The store of a status change. -/
  | setStatus (s : Slot) (m : Message)
  /-- `make_message(&resp, ..); slot_send(s, &resp)`. -/
  | reply (s : Slot) (make : UInt64 → Message)
  /-- `send_message(clients[s].sockfd, m)` of `slot_send`. -/
  | sendMessage (s : Slot) (m : Message)
  /-- The loads and stores of a thread's cleanup. -/
  | cleanup (s : Slot)
  /-- `close(clients[s].sockfd)`. -/
  | closeSocket (s : Slot)

/-- A list of statements of the threads. -/
abbrev Code := List (Stmt Lock Act)

/-- `slot_send`. -/
def slotSend (s : Slot) (m : Message) : Code :=
  [.lock (.send s), .act (.sendMessage s m), .unlock (.send s)]

/-- `client_thread` for a slot. -/
def clientThread (s : Slot) : Code :=
  [.act (.recv s), .lock .table, .act (.cleanup s), .act (.closeSocket s)]

/-- `uname` after `strncpy(uname, clients[s].username, MAX_USERNAME_LEN - 1)`. -/
def savedName (e : Entry) (junk : List UInt8) : List UInt8 :=
  cstr (padded (maxUsernameLen - 1) e.username.toList ++ junk)

namespace Shared

variable (sh : Shared)

/-- The `MSG_LOGIN` branch of `route`. -/
def login (s : Slot) (m : Message) : Code :=
  match scanLogin m.payload.toList with
  | none => [.act (.reply s badLogin)]
  | some (u, p) => [.lock .table, .act (.checkName s u p)]

/-- The `MSG_LOGOUT` branch of `route`. -/
def logout (s : Slot) : Code :=
  [.lock .table, .act (.clear s), .unlock .table, .act (.bcastNote s (leftNote (sh.clients s).name))]

/-- The `MSG_BROADCAST` branch of `route`. -/
def broadcast (s : Slot) (m : Message) : Code :=
  if !(sh.clients s).active then [.act (.reply s notAuthenticated)]
  else [.act (.saveHistory m []), .act (.sendActive s m (List.finRange maxClients)),
    .act (.reply s (relayed · m))]

/-- The `MSG_PRIVATE` branch of `route`. -/
def priv (s : Slot) (m : Message) : Code :=
  if !(sh.clients s).active then [.act (.reply s notAuthenticated)]
  else [.lock .table, .act (.findTarget s m)]

/-- `route`. -/
def route (s : Slot) (m : Message) : Code :=
  match m.kind with
  | some .login => login s m
  | some .logout => sh.logout s
  | some .broadcast => sh.broadcast s m
  | some .priv => sh.priv s m
  | some .listUsers => [.lock .table, .act (.listUsers s m)]
  | some .historyReq => [.act (.readHistory s m)]
  | some .statusChange => [.lock .table, .act (.setStatus s m), .unlock .table,
      .act (.reply s (statusUpdated · m))]
  | _ => [.act (.reply s (unknownType · m))]

/-- An act that ends with the shared state `sh` and goes on with `next`. -/
def goOn (next : Code) : Option (Outcome Lock Tid Act Shared) :=
  some { shared := sh, next := next, spawn := none }

end Shared

/-- One act of a thread. -/
def exec (t : Tid) (a : Act) (i : Input) (sh : Shared) : Option (Outcome Lock Tid Act Shared) :=
  match a with
  | .accept =>
    match i.fd with
    | none => sh.goOn [.act .accept]
    | some fd =>
      if (sh.conn fd).isNone then
        (sh.accept fd).goOn [.lock .table, .act (.allot fd sh.accepted), .act .accept]
      else none
  | .allot fd c =>
    match sh.findFree with
    | none => sh.goOn [.unlock .table, .act (.refuse fd), .act (.closeFd fd)]
    | some s => (sh.fill s fd).goOn [.unlock .table, .act (.create s fd c)]
  | .refuse fd =>
    sh.goOn [.act (.write fd (serverFull i.env.now) (packMessage (serverFull i.env.now)))]
  | .create s fd c =>
    if i.created then
      some
        { shared := sh.note (.started s c), next := []
          spawn := some (.client s c, clientThread s) }
    else sh.goOn [.act (.abandon s), .act (.closeFd fd)]
  | .abandon s => (sh.abandon s).goOn []
  | .closeFd fd => (sh.close t fd).goOn []
  | .write fd m rest =>
    match rest, sh.conn fd, i.write with
    | [], _, _ => sh.goOn []
    | _ :: _, some c, .took n =>
      (sh.note (.wrote c m (rest.take (n + 1)))).goOn [.act (.write fd m (rest.drop (n + 1)))]
    | _ :: _, some _, .interrupted => sh.goOn [.act (.write fd m rest)]
    | _ :: _, _, _ => sh.goOn []
  | .recv s =>
    match sh.conn (sh.clients s).sockfd, (recvMessage i.source).1 with
    | some _, some m =>
      if m.kind = some .logout then sh.goOn [.act (.route s m)]
      else sh.goOn [.act (.route s m), .act (.recv s)]
    | _, _ => sh.goOn []
  | .route s m => sh.goOn (sh.route s m)
  | .checkName s u p =>
    if (sh.findUser u).isSome then
      sh.goOn [.unlock .table, .act (.reply s (alreadyLoggedIn · u))]
    else sh.goOn [.act (.validate s u p)]
  | .validate s u p =>
    if !ChatSystem.validate i.env.disc i.env.now u p then
      sh.goOn [.unlock .table, .act (.reply s (invalidCredentials · u))]
    else sh.goOn [.act (.storeLogin s u)]
  | .storeLogin s u =>
    ((sh.setEntry s ((sh.clients s).login u)).note (.loggedIn t u)).goOn
      [.unlock .table, .act (.reply s (loginSuccessful · u))]
  | .clear s => (sh.setEntry s (sh.clients s).clear).goOn []
  | .bcastNote skip note =>
    sh.goOn [.act (.sendActive skip (notice i.env.now note) (List.finRange maxClients))]
  | .sendActive skip m slots =>
    match slots with
    | [] => sh.goOn []
    | j :: slots =>
      if j ≠ skip ∧ (sh.clients j).active then
        sh.goOn (slotSend j m ++ [.act (.sendActive skip m slots)])
      else sh.goOn [.act (.sendActive skip m slots)]
  | .saveHistory m receiver =>
    { sh with history := sh.history.save i.env.host m receiver }.goOn []
  | .findTarget s m =>
    match sh.findUser m.receiver.toList with
    | none => sh.goOn [.unlock .table, .act (.reply s (userNotOnline · m))]
    | some k => sh.goOn ([.unlock .table, .act (.saveHistory m m.receiverStr)] ++ slotSend k m ++
        [.act (.reply s (relayed · m))])
  | .listUsers s m =>
    sh.goOn [.unlock .table, .act (.reply s (userList · m sh.table))]
  | .readHistory s m => sh.goOn [.act (.reply s (historyResponse · m sh.history))]
  | .setStatus s m =>
    (sh.setEntry s ((sh.clients s).setStatus (scanStatus m.payload.toList))).goOn []
  | .reply s make => sh.goOn (slotSend s (make i.env.now))
  | .sendMessage s m => sh.goOn [.act (.write (sh.clients s).sockfd m (packMessage m))]
  | .cleanup s =>
    (sh.release s).goOn ([.unlock .table] ++
      if (sh.clients s).active then
        [.act (.bcastNote s (disconnectedNote (savedName (sh.clients s).toEntry i.junk)))]
      else [])
  | .closeSocket s => (sh.close t (sh.clients s).sockfd).goOn []

/-- The threads of the server. -/
abbrev State := Tasks.State Lock Tid Act Shared

/-- The accepting thread in front of its loop. -/
def init (history : History) : State where
  shared := .init history
  owner := fun _ => none
  todo t := if t = .main then [.act .accept] else []

/-- One step of one thread. -/
def step (st : State) (l : Tid × Input) : Option State := Tasks.step exec st l

/-- The lock an act needs and what its expansion does with it. -/
def effect : Act → Option Lock → Option (Option Lock)
  | .allot _ _ | .checkName _ _ _ | .validate _ _ _ | .storeLogin _ _ | .findTarget _ _
  | .listUsers _ _ | .cleanup _ => releases .table
  | .clear _ | .setStatus _ _ => within .table
  | .sendMessage s _ => within (.send s)
  | .write _ _ _ => some
  | _ => outside

end ChatSystem.Thread
