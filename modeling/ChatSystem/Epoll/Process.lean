import ChatSystem.Epoll.State
import ChatSystem.Server.Names

/-!
# The message processor of the epoll server

`disconnect_client` and `process_message`. Apart from a logout, processing a
message leaves the connections and the input of every slot alone, and changes
login data in one slot at most.
-/

namespace ChatSystem.Epoll

open Bytes

namespace Server

variable (srv : Server) (env : Env) (s : Slot)

/-- Overwrite the login data of a slot. -/
def setEntry (e : Entry) : Server :=
  srv.setClient s { srv.clients s with toEntry := e }

/-- `epoll_ctl(epfd, EPOLL_CTL_DEL, fd, NULL); close(fd); memset(c, 0, sizeof(Client))`. -/
def release : Server :=
  { srv with kernel := srv.kernel.close (srv.clients s).fd }.setClient s .zero

/-- `disconnect_client`. -/
def disconnectClient : Server :=
  if !(srv.clients s).inUse then srv
  else
    let noted := srv.note (.closed (srv.connOf s))
    let noted := if (srv.clients s).active
      then noted.bcastNote env s (disconnectedNote (srv.clients s).name) else noted
    noted.release s

/-- The `MSG_LOGIN` branch. -/
def login (m : Message) : Server :=
  match scanLogin m.payload.toList with
  | none => srv.slotSend s (badLogin env.now)
  | some (u, p) =>
    if (srv.findByUser u).isSome then srv.slotSend s (alreadyLoggedIn env.now u)
    else if !validate env.disc env.now u p then srv.slotSend s (invalidCredentials env.now u)
    else (srv.setEntry s ((srv.clients s).login u)).slotSend s (loginSuccessful env.now u)

/-- The `MSG_LOGOUT` branch. -/
def logout : Server :=
  ((srv.setEntry s (srv.clients s).clear).bcastNote env s
    (leftNote (srv.clients s).name)).disconnectClient env s

/-- The `MSG_BROADCAST` branch. -/
def broadcast (m : Message) : Server :=
  if !(srv.clients s).active then srv.slotSend s (notAuthenticated env.now)
  else
    ({ srv with history := srv.history.save env.host m [] }.sendOthers s m).slotSend s
      (relayed env.now m)

/-- The `MSG_PRIVATE` branch. -/
def priv (m : Message) : Server :=
  if !(srv.clients s).active then srv.slotSend s (notAuthenticated env.now)
  else match srv.findByUser m.receiver.toList with
    | none => srv.slotSend s (userNotOnline env.now m)
    | some t =>
      ({ srv with history := srv.history.save env.host m m.receiverStr }.slotSend t m).slotSend s
        (relayed env.now m)

/-- `process_message`, recorded in the trace. -/
def processMessage (m : Message) : Server :=
  let srv := srv.note (.processed (srv.connOf s) m)
  match m.kind with
  | some .login => srv.login env s m
  | some .logout => srv.logout env s
  | some .broadcast => srv.broadcast env s m
  | some .priv => srv.priv env s m
  | some .listUsers => srv.slotSend s (userList env.now m srv.table)
  | some .historyReq => srv.slotSend s (historyResponse env.now m srv.history)
  | some .statusChange =>
    (srv.setEntry s ((srv.clients s).setStatus (scanStatus m.payload.toList))).slotSend s
      (statusUpdated env.now m)
  | _ => srv.slotSend s (unknownType env.now m)

end Server

variable {srv : Server} {env : Env} {s : Slot}

/-! ## Login data -/

@[simp] theorem Server.table_note (srv : Server) (e : Event) : (srv.note e).table = srv.table := rfl

theorem Server.table_setEntry (srv : Server) (s : Slot) (e : Entry) :
    (srv.setEntry s e).table = Function.update srv.table s e := by
  funext i
  by_cases hi : i = s
  · subst hi
    simp only [table, setEntry, setClient, Function.update_self]
  · simp only [table, setEntry, setClient, Function.update_of_ne hi]

theorem Server.table_release (srv : Server) (s : Slot) :
    (srv.release s).table = Function.update srv.table s Entry.zero := by
  funext i
  by_cases hi : i = s
  · subst hi
    simp only [table, release, setClient, Function.update_self]
    rfl
  · simp only [table, release, setClient, Function.update_of_ne hi]

theorem Server.table_slotSend (srv : Server) (s : Slot) (m : Message) :
    (srv.slotSend s m).table = srv.table :=
  (OutputOnly.slotSend srv s m).table

/-! ## Connections and input -/

theorem quiet_login (srv : Server) (env : Env) (s : Slot) (m : Message) :
    Quiet srv (srv.login env s m) := by
  unfold Server.login
  split
  · exact (OutputOnly.slotSend _ _ _).toQuiet
  · split
    · exact (OutputOnly.slotSend _ _ _).toQuiet
    · split
      · exact (OutputOnly.slotSend _ _ _).toQuiet
      · exact (Quiet.setEntry srv s _).trans (OutputOnly.slotSend _ _ _).toQuiet

theorem quiet_broadcast (srv : Server) (env : Env) (s : Slot) (m : Message) :
    Quiet srv (srv.broadcast env s m) := by
  unfold Server.broadcast
  split
  · exact (OutputOnly.slotSend _ _ _).toQuiet
  · exact (Quiet.setHistory srv _).trans
      ((OutputOnly.sendOthers _ s m).trans (OutputOnly.slotSend _ _ _)).toQuiet

theorem quiet_priv (srv : Server) (env : Env) (s : Slot) (m : Message) :
    Quiet srv (srv.priv env s m) := by
  unfold Server.priv
  split
  · exact (OutputOnly.slotSend _ _ _).toQuiet
  · split
    · exact (OutputOnly.slotSend _ _ _).toQuiet
    · next t _ =>
      exact (Quiet.setHistory srv _).trans
        ((OutputOnly.slotSend _ t m).trans (OutputOnly.slotSend _ _ _)).toQuiet

/-- Apart from a logout, processing a message records it and is quiet. -/
theorem quiet_processMessage (srv : Server) (env : Env) (s : Slot) {m : Message}
    (hm : m.kind ≠ some .logout) :
    Quiet (srv.note (.processed (srv.connOf s) m)) (srv.processMessage env s m) := by
  unfold Server.processMessage
  simp only
  split
  · exact quiet_login _ env s m
  · next h => exact absurd h hm
  · exact quiet_broadcast _ env s m
  · exact quiet_priv _ env s m
  · exact (OutputOnly.slotSend _ _ _).toQuiet
  · exact (OutputOnly.slotSend _ _ _).toQuiet
  · exact (Quiet.setEntry _ s _).trans (OutputOnly.slotSend _ _ _).toQuiet
  · exact (OutputOnly.slotSend _ _ _).toQuiet

end ChatSystem.Epoll
