import ChatSystem.Epoll.Kernel
import ChatSystem.Epoll.SendBuf
import ChatSystem.Protocol.Codec
import ChatSystem.Server.Replies

/-!
# State and output of the epoll server

The client table, the kernel, the history store and the trace of what the server
did to each connection. Queueing a message touches one send buffer and the
kernel's outgoing side, nothing else of the table.
-/

namespace ChatSystem.Epoll

open Bytes

/-- `RBUF_SIZE`. -/
def rbufSize : Nat := headerSize + maxPayloadLen + 16

/-- `Client`, without the printed address. -/
structure Client extends Entry where
  fd : Nat
  inUse : Bool
  rbuf : List UInt8
  rbufLen : Int
  sbuf : SendBuf

/-- `memset(c, 0, sizeof(Client))`. -/
def Client.zero : Client :=
  { Entry.zero with
    fd := 0, inUse := false, rbuf := List.replicate rbufSize 0, rbufLen := 0, sbuf := .zero }

/-- What `read` reports behind the available bytes. -/
inductive ReadEnd
  /-- `EAGAIN`. -/
  | again
  /-- The end of the stream. -/
  | eof
  /-- Another error. -/
  | failed
  deriving DecidableEq, Repr

/-- How an event of a connection ends. -/
inductive Ending
  /-- A wake-up for reading. -/
  | read (e : ReadEnd)
  /-- `EPOLLERR` or `EPOLLHUP`. -/
  | hangup
  /-- A permanent error of a flush. -/
  | writeError
  deriving DecidableEq, Repr

/-- The server is done with the connection after such an event. -/
def Ending.isOver : Ending → Bool
  | .read .again => false
  | _ => true

/-- What the server did, by connection. -/
inductive Event
  /-- A slot was filled by `accept`. -/
  | accepted (c : Nat) (s : Slot)
  /-- Input was available at an event, and how the event ended. -/
  | arrived (c : Option Nat) (data : List UInt8) (ending : Ending)
  /-- `process_message` was called for a message. -/
  | processed (c : Option Nat) (m : Message)
  /-- `slot_send` or `send_message` was called, with so many bytes pending. -/
  | queued (c : Option Nat) (m : Message) (pending : Nat)
  /-- `disconnect_client` released a slot in use. -/
  | closed (c : Option Nat)
  deriving DecidableEq

/-- The events that are about input: all but the queued messages. -/
def Event.isInput : Event → Bool
  | .queued _ _ _ => false
  | _ => true

/-- The state of the server process. -/
structure Server where
  clients : Slot → Client
  kernel : Kernel
  history : History
  log : List Event

/-- The state at the top of the event loop for the first time. -/
def Server.init (history : History) : Server := ⟨fun _ => .zero, .init, history, []⟩

namespace Server

variable (srv : Server)

/-- The login data of the table. -/
def table : Slot → Entry := fun i => (srv.clients i).toEntry

/-- Overwrite a slot. -/
def setClient (s : Slot) (c : Client) : Server :=
  { srv with clients := Function.update srv.clients s c }

/-- Record an event. -/
def note (e : Event) : Server := { srv with log := srv.log ++ [e] }

/-- The trace without the queued messages. -/
def inputLog : List Event := srv.log.filter Event.isInput

/-- The connection behind the descriptor of a slot. -/
def connOf (s : Slot) : Option Nat := srv.kernel.conn (srv.clients s).fd

/-- `find_by_fd`. -/
def findByFd (fd : Nat) : Option Slot :=
  firstSlot fun i => (srv.clients i).inUse && (srv.clients i).fd == fd

/-- `find_by_user`. -/
def findByUser (u : List UInt8) : Option Slot := findName srv.table u

/-- `find_free`. -/
def findFree : Option Slot := firstSlot fun i => !(srv.clients i).inUse

/-- `sb_push(&c->sbuf, d, n); epmod(c->fd, EPOLLIN | EPOLLOUT | EPOLLET)`. -/
def pushAndArm (s : Slot) (d : List UInt8) : Server :=
  let c := srv.clients s
  let srv := srv.setClient s { c with sbuf := (sbPush c.sbuf d).2 }
  { srv with kernel := srv.kernel.epmod c.fd true }

/-- `slot_send`. -/
def slotSend (s : Slot) (m : Message) : Server :=
  let c := srv.clients s
  let srv := srv.note (.queued (srv.connOf s) m c.sbuf.pending.length)
  let wire := packMessage m
  if wire.length ≤ 0 then srv
  else if sbEmpty c.sbuf then
    let (stop, sent, kernel) := srv.kernel.writeAll c.fd wire
    let srv := { srv with kernel := kernel }
    match stop with
    | .failed => srv
    | .done => srv
    | .again => srv.pushAndArm s (wire.drop sent)
  else srv.pushAndArm s wire

/-- The loop `for (i ..) if (i != skip && clients[i].active) slot_send(i, m)`. -/
def sendOthers (skip : Slot) (m : Message) : Server :=
  (List.finRange maxClients).foldl
    (fun srv i => if i ≠ skip ∧ (srv.clients i).active then srv.slotSend i m else srv) srv

/-- `bcast_note`. -/
def bcastNote (env : Env) (skip : Slot) (note : List UInt8) : Server :=
  srv.sendOthers skip (notice env.now note)

/-- What every single `slot_send` keeps, the loop over the other slots keeps. -/
theorem sendOthers_invariant {P : Server → Prop} {m : Message}
    (hsend : ∀ b i, P b → P (b.slotSend i m)) {srv : Server} (h : P srv) {skip : Slot} :
    P (srv.sendOthers skip m) := by
  have hall : ∀ (is : List Slot) (b : Server), P b → P (is.foldl
      (fun srv i => if i ≠ skip ∧ (srv.clients i).active then srv.slotSend i m else srv) b) := by
    intro is
    induction is with
    | nil => exact fun _ hb => hb
    | cons i is ih =>
      intro b hb
      apply ih
      beta_reduce
      split
      · exact hsend b i hb
      · exact hb
  exact hall _ srv h

end Server

/-! ## Frame -/

/-- The slots keep their connections and their input. Login data, history and
outgoing data may differ. -/
structure Quiet (a b : Server) : Prop where
  fd : ∀ i, (b.clients i).fd = (a.clients i).fd
  inUse : ∀ i, (b.clients i).inUse = (a.clients i).inUse
  rbuf : ∀ i, (b.clients i).rbuf = (a.clients i).rbuf
  rbufLen : ∀ i, (b.clients i).rbufLen = (a.clients i).rbufLen
  conn : b.kernel.conn = a.kernel.conn
  accepted : b.kernel.accepted = a.kernel.accepted
  inputLog : b.inputLog = a.inputLog

namespace Quiet

variable {a b c : Server}

theorem refl (a : Server) : Quiet a a :=
  ⟨fun _ => rfl, fun _ => rfl, fun _ => rfl, fun _ => rfl, rfl, rfl, rfl⟩

theorem trans (h : Quiet a b) (k : Quiet b c) : Quiet a c :=
  ⟨fun i => (k.fd i).trans (h.fd i), fun i => (k.inUse i).trans (h.inUse i),
    fun i => (k.rbuf i).trans (h.rbuf i), fun i => (k.rbufLen i).trans (h.rbufLen i),
    k.conn.trans h.conn, k.accepted.trans h.accepted, k.inputLog.trans h.inputLog⟩

theorem symm (h : Quiet a b) : Quiet b a :=
  ⟨fun i => (h.fd i).symm, fun i => (h.inUse i).symm, fun i => (h.rbuf i).symm,
    fun i => (h.rbufLen i).symm, h.conn.symm, h.accepted.symm, h.inputLog.symm⟩

theorem note (h : Quiet a b) (e : Event) : Quiet (a.note e) (b.note e) := by
  refine ⟨h.fd, h.inUse, h.rbuf, h.rbufLen, h.conn, h.accepted, ?_⟩
  simp only [Server.inputLog, Server.note, List.filter_append]
  exact congrArg (· ++ _) h.inputLog

theorem connOf (h : Quiet a b) (s : Slot) : b.connOf s = a.connOf s := by
  simp only [Server.connOf, h.conn, h.fd]

theorem findByFd (h : Quiet a b) (fd : Nat) : b.findByFd fd = a.findByFd fd := by
  simp only [Server.findByFd, h.inUse, h.fd]

/-- Overwriting the login data of a slot. -/
theorem setEntry (a : Server) (s : Slot) (e : Entry) :
    Quiet a (a.setClient s { a.clients s with toEntry := e }) := by
  have h : ∀ i, Function.update a.clients s { a.clients s with toEntry := e } i = a.clients i ∨
      i = s := fun i => (em (i = s)).symm.imp_left fun hi => Function.update_of_ne hi _ _
  refine ⟨fun i => ?_, fun i => ?_, fun i => ?_, fun i => ?_, rfl, rfl, rfl⟩ <;>
  · rcases h i with hi | rfl
    · simp only [Server.setClient, hi]
    · simp only [Server.setClient, Function.update_self]

/-- Writing the history. -/
theorem setHistory (a : Server) (h : History) : Quiet a { a with history := h } :=
  ⟨fun _ => rfl, fun _ => rfl, fun _ => rfl, fun _ => rfl, rfl, rfl, rfl⟩

end Quiet

/-- Only outgoing data changed, and the trace by queued messages. -/
structure OutputOnly (a b : Server) : Prop extends Quiet a b where
  entry : ∀ i, (b.clients i).toEntry = (a.clients i).toEntry
  history : b.history = a.history

namespace OutputOnly

variable {a b c : Server}

theorem refl (a : Server) : OutputOnly a a := ⟨Quiet.refl a, fun _ => rfl, rfl⟩

theorem trans (h : OutputOnly a b) (k : OutputOnly b c) : OutputOnly a c :=
  ⟨h.toQuiet.trans k.toQuiet, fun i => (k.entry i).trans (h.entry i), k.history.trans h.history⟩

theorem table (h : OutputOnly a b) : b.table = a.table := funext h.entry

theorem setSbuf (a : Server) (s : Slot) (sb : SendBuf) :
    OutputOnly a (a.setClient s { a.clients s with sbuf := sb }) := by
  have h : ∀ i, Function.update a.clients s { a.clients s with sbuf := sb } i = a.clients i ∨
      i = s := fun i => (em (i = s)).symm.imp_left fun hi => Function.update_of_ne hi _ _
  refine ⟨⟨fun i => ?_, fun i => ?_, fun i => ?_, fun i => ?_, rfl, rfl, rfl⟩,
    fun i => ?_, rfl⟩ <;>
  · rcases h i with hi | rfl
    · simp only [Server.setClient, hi]
    · simp only [Server.setClient, Function.update_self]

theorem setKernel (a : Server) {k : Kernel} (h1 : k.conn = a.kernel.conn)
    (h2 : k.accepted = a.kernel.accepted) : OutputOnly a { a with kernel := k } :=
  ⟨⟨fun _ => rfl, fun _ => rfl, fun _ => rfl, fun _ => rfl, h1, h2, rfl⟩, fun _ => rfl, rfl⟩

theorem noteQueued (a : Server) (c : Option Nat) (m : Message) (n : Nat) :
    OutputOnly a (a.note (.queued c m n)) :=
  ⟨⟨fun _ => rfl, fun _ => rfl, fun _ => rfl, fun _ => rfl, rfl, rfl, by
    simp [Server.inputLog, Server.note, Event.isInput]⟩, fun _ => rfl, rfl⟩

theorem pushAndArm (a : Server) (s : Slot) (d : List UInt8) : OutputOnly a (a.pushAndArm s d) :=
  (setSbuf a s _).trans (setKernel _ (Kernel.epmod_conn ..) (Kernel.epmod_accepted ..))

theorem slotSend (a : Server) (s : Slot) (m : Message) : OutputOnly a (a.slotSend s m) := by
  refine (noteQueued a (a.connOf s) m (a.clients s).sbuf.pending.length).trans ?_
  simp only [Server.slotSend]
  split
  · exact refl _
  · split
    · have hk := Kernel.writeAll_frame a.kernel (a.clients s).fd (packMessage m)
      have hset := setKernel (a.note (.queued (a.connOf s) m (a.clients s).sbuf.pending.length))
        hk.1 hk.2.2
      refine hset.trans ?_
      change OutputOnly _ (match (a.kernel.writeAll (a.clients s).fd (packMessage m)).1 with
        | .failed => _
        | .done => _
        | .again => _)
      split
      · exact refl _
      · exact refl _
      · exact pushAndArm _ _ _
    · exact pushAndArm _ _ _

theorem sendOthers (a : Server) (skip : Slot) (m : Message) :
    OutputOnly a (a.sendOthers skip m) :=
  Server.sendOthers_invariant (P := OutputOnly a) (fun _ i h => h.trans (slotSend _ i m)) (refl a)

theorem bcastNote (a : Server) (env : Env) (skip : Slot) (note : List UInt8) :
    OutputOnly a (a.bcastNote env skip note) :=
  sendOthers _ _ _

end OutputOnly

end ChatSystem.Epoll
