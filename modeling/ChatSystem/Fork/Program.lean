import ChatSystem.Core.Transition
import ChatSystem.Fork.State

/-!
# The processes of the fork server

The select loop of `main` with `route_message`, `child_main`, and the loop of
`sigchld_handler`. A statement of the parent that the handler could be seen to interrupt is
a step of its own: each check of a slot, each store into it, the credential check, each
call on a pipe. A child's statements between two calls touch nothing shared.
-/

namespace ChatSystem.Fork

open Bytes Channel Tasks

/-- The acts of the processes. -/
inductive Act
  /-- The loop `if (clients[i].pid > 0) FD_SET(clients[i].from_child[0], &rfds)`. -/
  | watch (slots : List Slot) (rfds : List Nat)
  /-- `select`. -/
  | select (rfds : List Nat)
  /-- `accept`. -/
  | accept
  /-- `find_free_slot`. -/
  | findFreeSlot (fd c : Nat) (slots : List Slot)
  /-- `send_message(cfd, &err)` for a full server. -/
  | refuse (fd c : Nat)
  /-- `pipe(clients[slot].to_child) < 0 || pipe(clients[slot].from_child) < 0`. -/
  | pipes (s : Slot) (fd c : Nat)
  /-- `fork`. -/
  | fork (s : Slot) (fd c : Nat)
  /-- `clients[slot].pid = pid`. -/
  | storePid (k : Child) (fd : Nat)
  /-- `close(clients[slot].to_child[0]); close(clients[slot].from_child[1])`. -/
  | closeEnds (k : Child) (fd : Nat)
  /-- `close(cfd)`. -/
  | closeFd (fd : Nat)
  /-- The loop at `check_children`: the pid and `FD_ISSET` of a slot. -/
  | check (slots : List Slot) (rfds : List Nat)
  /-- `pipe_recv(fd, &msg)`. -/
  | recv (s : Slot) (fd : Nat)
  /-- `active = 0; pid = 0; memset(username, ..)` of a slot whose pipe is at its end. -/
  | drop (s : Slot)
  /-- `route_message`, with a message read from a connection's pipe. -/
  | route (s : Slot) (c : Nat) (m : Message)
  /-- `find_slot_by_username(u)` of a login. -/
  | checkName (s : Slot) (u p : List UInt8)
  /-- `validate(u, p) != 0` of a login. -/
  | validate (s : Slot) (u p : List UInt8)
  /-- `strncpy(clients[from].username, u, ..)`. -/
  | storeName (s : Slot) (u : List UInt8)
  /-- `clients[from].active = 1; clients[from].status = STATUS_AVAILABLE`. -/
  | activate (s : Slot) (u : List UInt8)
  /-- `active = 0; memset(username, ..)` of a logout. -/
  | clear (s : Slot)
  /-- The loop of a logout: `if (i != from && clients[i].active) pipe_send(i, &resp)`. -/
  | notify (skip : Slot) (note : List UInt8) (slots : List Slot)
  /-- `save_history`. -/
  | saveHistory (m : Message) (receiver : List UInt8)
  /-- The loop of a broadcast: `if (i != from && clients[i].active) pipe_send(i, msg)`. -/
  | relay (skip : Slot) (m : Message) (slots : List Slot)
  /-- `find_slot_by_username(msg->receiver)`. -/
  | findTarget (s : Slot) (m : Message)
  /-- `pipe_send(t, msg)` of a private message. -/
  | pipeSend (s : Slot) (m : Message)
  /-- The loop of `MSG_LIST_USERS`. -/
  | listUsers (s : Slot) (m : Message)
  /-- The reading of a log file. -/
  | readHistory (s : Slot) (m : Message)
  /-- The store of a status change. -/
  | setStatus (s : Slot) (m : Message)
  /-- `make_message(&resp, ..); pipe_send(from, &resp)`. -/
  | reply (s : Slot) (make : UInt64 → Message)
  /-- The `select` of a child. -/
  | bridge (k : Child)
  /-- `recv_message` of a child. -/
  | fromClient (k : Child)
  /-- `make_message(&msg, MSG_LOGOUT, clients[slot].username, "", "")`. -/
  | farewell (k : Child)
  /-- `write(wr, wire, len)`. -/
  | forward (k : Child) (m : Message)
  /-- `pipe_recv` and `send_message` of a child. -/
  | fromParent (k : Child)
  /-- The closes of a child and `exit(0)`. -/
  | exit (k : Child)
  /-- `waitpid` and the search for the slot. -/
  | reap

/-- A list of statements of a process; there are no locks. -/
abbrev Code := List (Stmt Empty Act)

/-- A list of acts as statements. -/
def code (acts : List Act) : Code := acts.map .act

/-- The head of the select loop. -/
def mainLoop : List Act := [.watch (List.finRange maxClients) []]

namespace Shared

variable (sh : Shared)

/-- The `MSG_LOGIN` branch of `route_message`. -/
def login (s : Slot) (m : Message) : List Act :=
  match scanLogin m.payload.toList with
  | none => [.reply s badLogin]
  | some (u, p) => [.checkName s u p]

/-- The `MSG_LOGOUT` branch of `route_message`. -/
def logout (s : Slot) : List Act :=
  [.clear s, .notify s (leftNote (sh.clients s).name) (List.finRange maxClients)]

/-- The `MSG_BROADCAST` branch of `route_message`. -/
def broadcast (s : Slot) (m : Message) : List Act :=
  if !(sh.clients s).active then [.reply s notAuthenticated]
  else [.saveHistory m [], .relay s m (List.finRange maxClients), .reply s (relayed · m)]

/-- The `MSG_PRIVATE` branch of `route_message`. -/
def priv (s : Slot) (m : Message) : List Act :=
  if !(sh.clients s).active then [.reply s notAuthenticated] else [.findTarget s m]

/-- `route_message`. -/
def route (s : Slot) (m : Message) : List Act :=
  match m.kind with
  | some .login => login s m
  | some .logout => sh.logout s
  | some .broadcast => sh.broadcast s m
  | some .priv => sh.priv s m
  | some .listUsers => [.listUsers s m]
  | some .historyReq => [.readHistory s m]
  | some .statusChange => [.setStatus s m, .reply s (statusUpdated · m)]
  | _ => [.reply s (unknownType · m)]

/-- An act that ends with the shared state `sh` and goes on with `next`. -/
def goOn (next : List Act) : Option (Outcome Empty Tid Act Shared) :=
  some { shared := sh, next := code next, spawn := none }

/-- `accept` returns `fd` for the next connection. -/
def accept (fd : Nat) : Shared :=
  { sh.openFd fd (.socket sh.accepted) with accepted := sh.accepted + 1 }

/-- `clients[s].pid = pid`. -/
def storePid (s : Slot) (pid : Nat) : Shared := sh.setClient s { sh.clients s with pid := pid }

/-- The parent's closes behind `fork`. -/
def closeEnds (s : Slot) : Shared :=
  (sh.close (sh.clients s).toChild.1).close (sh.clients s).fromChild.2

/-- The bytes behind a read from the `from_child` pipe of a connection. -/
def readFrom (c : Nat) (rest : List UInt8) : Shared :=
  { sh with fromPipe := Function.update sh.fromPipe c rest }

/-- The bytes behind a read from the `to_child` pipe of a connection. -/
def readTo (c : Nat) (rest : List UInt8) : Shared :=
  { sh with toPipe := Function.update sh.toPipe c rest }

/-- The kernel creates a process. -/
def start (k : Child) : Shared :=
  { sh with proc := Function.update sh.proc k.pid (some (.running k.conn)) }.note (.forked k)

/-- A child writes a message for the parent. -/
def forward (c : Nat) (m : Message) : Shared :=
  { sh with fromPipe := Function.update sh.fromPipe c (sh.fromPipe c ++ packMessage m) }.note
    (.forwarded c m)

/-- A child closes its ends and ends. -/
def exit (k : Child) : Shared :=
  { sh with closed := Function.update sh.closed k.conn true
            proc := Function.update sh.proc k.pid (some (.zombie k.conn)) }

end Shared

/-- One act of a process. -/
def exec (_t : Tid) (a : Act) (i : Input) (sh : Shared) :
    Option (Outcome Empty Tid Act Shared) :=
  match a with
  | .watch slots rfds =>
    match slots with
    | [] => sh.goOn [.select rfds]
    | s :: slots =>
      if 0 < (sh.clients s).pid then sh.goOn [.watch slots (rfds ++ [(sh.clients s).fromChild.1])]
      else sh.goOn [.watch slots rfds]
  | .select rfds =>
    if i.interrupted then sh.goOn mainLoop
    else sh.goOn ((if i.waiting then [.accept] else []) ++
      [.check (List.finRange maxClients) (rfds.filter sh.readable)])
  | .accept =>
    match i.fd with
    | none => sh.goOn []
    | some fd =>
      if sh.fd fd = none then
        (sh.accept fd).goOn [.findFreeSlot fd sh.accepted (List.finRange maxClients)]
      else none
  | .findFreeSlot fd c slots =>
    match slots with
    | [] => sh.goOn [.refuse fd c]
    | s :: slots =>
      if !(sh.clients s).active && (sh.clients s).pid == 0 then sh.goOn [.pipes s fd c]
      else sh.goOn [.findFreeSlot fd c slots]
  | .refuse fd c => (sh.note (.sent c (serverFull i.env.now))).goOn [.closeFd fd]
  | .pipes s fd c =>
    match i.toChild with
    | none => sh.goOn [.closeFd fd]
    | some p =>
      if sh.Fresh p then
        match i.fromChild with
        | none => (sh.openTo s c p).goOn [.closeFd fd]
        | some q =>
          if (sh.openTo s c p).Fresh q then
            ((sh.openTo s c p).openFrom s c q).goOn [.fork s fd c]
          else none
      else none
  | .fork s fd c =>
    match i.pid with
    | none => sh.goOn [.closeFd fd]
    | some pid =>
      if pid ≠ 0 ∧ sh.proc pid = none then
        some
          { shared := sh.start ⟨s, c, pid⟩, next := code [.storePid ⟨s, c, pid⟩ fd]
            spawn := some (.child ⟨s, c, pid⟩, code [.bridge ⟨s, c, pid⟩]) }
      else none
  | .storePid k fd => (sh.storePid k.slot k.pid).goOn [.closeEnds k fd]
  | .closeEnds k fd => (sh.closeEnds k.slot).goOn [.closeFd fd]
  | .closeFd fd => (sh.close fd).goOn []
  | .check slots rfds =>
    match slots with
    | [] => sh.goOn mainLoop
    | s :: slots =>
      if 0 < (sh.clients s).pid ∧ (sh.clients s).fromChild.1 ∈ rfds then
        sh.goOn [.recv s (sh.clients s).fromChild.1, .check slots rfds]
      else sh.goOn [.check slots rfds]
  | .recv s fd =>
    match sh.readEnd fd with
    | none => none
    | some c =>
      match pipeRecv (sh.closed c) ⟨sh.fromPipe c, i.reads.map .chunk⟩ with
      | none => none
      | some (some m, src) => (sh.readFrom c src.inbound).goOn [.route s c m]
      | some (none, src) => (sh.readFrom c src.inbound).goOn [.drop s]
  | .drop s => (sh.release s).goOn []
  | .route s c m => (sh.note (.routed s c m)).goOn (sh.route s m)
  | .checkName s u p =>
    if (sh.findSlotByUsername u).any (· ≠ s) then sh.goOn [.reply s (alreadyLoggedIn · u)]
    else sh.goOn [.validate s u p]
  | .validate s u p =>
    if !ChatSystem.validate i.env.disc i.env.now u p then
      sh.goOn [.reply s (invalidCredentials · u)]
    else sh.goOn [.storeName s u]
  | .storeName s u => (sh.setEntry s ((sh.clients s).setName u)).goOn [.activate s u]
  | .activate s u => (sh.setEntry s (sh.clients s).activate).goOn [.reply s (loginSuccessful · u)]
  | .clear s => (sh.setEntry s (sh.clients s).clear).goOn []
  | .notify skip note slots =>
    match slots with
    | [] => sh.goOn []
    | j :: slots =>
      if j ≠ skip ∧ (sh.clients j).active then
        (sh.pipeSend j (notice i.env.now note)).goOn [.notify skip note slots]
      else sh.goOn [.notify skip note slots]
  | .saveHistory m receiver =>
    { sh with history := sh.history.save i.env.host m receiver }.goOn []
  | .relay skip m slots =>
    match slots with
    | [] => sh.goOn []
    | j :: slots =>
      if j ≠ skip ∧ (sh.clients j).active then (sh.pipeSend j m).goOn [.relay skip m slots]
      else sh.goOn [.relay skip m slots]
  | .findTarget s m =>
    match sh.findSlotByUsername m.receiver.toList with
    | none => sh.goOn [.reply s (userNotOnline · m)]
    | some t => sh.goOn [.saveHistory m m.receiverStr, .pipeSend t m, .reply s (relayed · m)]
  | .pipeSend s m => (sh.pipeSend s m).goOn []
  | .listUsers s m => sh.goOn [.reply s (userList · m sh.table)]
  | .readHistory s m => sh.goOn [.reply s (historyResponse · m sh.history)]
  | .setStatus s m =>
    (sh.setEntry s ((sh.clients s).setStatus (scanStatus m.payload.toList))).goOn []
  | .reply s make => (sh.pipeSend s (make i.env.now)).goOn []
  | .bridge k => sh.goOn [if i.fromClient then .fromClient k else .fromParent k]
  | .fromClient k =>
    match (recvMessage i.source).1 with
    | none => sh.goOn [.farewell k]
    | some m => sh.goOn [.forward k m, .bridge k]
  | .farewell k =>
    sh.goOn [.forward k (makeMessage i.env.now .logout (sh.clients k.slot).name [] []), .exit k]
  | .forward k m => if sh.closed k.conn then sh.goOn [] else (sh.forward k.conn m).goOn []
  | .fromParent k =>
    match pipeRecv false ⟨sh.toPipe k.conn, i.reads.map .chunk⟩ with
    | none => none
    | some (none, src) => (sh.readTo k.conn src.inbound).goOn [.exit k]
    | some (some m, src) =>
      ((sh.readTo k.conn src.inbound).note (.delivered k.conn m)).goOn [.bridge k]
  | .exit k => if sh.proc k.pid = some (.running k.conn) then (sh.exit k).goOn [] else none
  | .reap =>
    match i.pid with
    | none => none
    | some pid =>
      match sh.proc pid with
      | some (.zombie _) => (sh.reap pid).goOn [.reap]
      | _ => none

/-- The processes of the server. -/
abbrev State := Tasks.State Empty Tid Act Shared

/-- The parent in front of its loop, with the handler installed. -/
def init (history : History) : State where
  shared := .init history
  owner := fun _ => none
  todo
    | .parent => code mainLoop
    | .sigchld => code [.reap]
    | .child _ => []

/-- One step of one process. -/
def step (st : State) (l : Tid × Input) : Option State := Tasks.step exec st l

end ChatSystem.Fork
