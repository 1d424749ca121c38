import ChatSystem.Core.Tasks
import ChatSystem.Protocol.Stream
import ChatSystem.Server.Names

/-!
# State of the thread server

The client table, the descriptors of the accepted connections, the history store
and the trace of what the threads did. The kernel may give a closed descriptor
number to any later connection.
-/

namespace ChatSystem.Thread

open Bytes Channel

/-- `Client`, without its thread handle; its `send_lock` is a lock of the program. -/
structure Client extends Entry where
  sockfd : Nat
  inUse : Bool

/-- `memset(&clients[i], 0, sizeof(Client))`. -/
def Client.zero : Client := { Entry.zero with sockfd := 0, inUse := false }

/-- `table_lock` and the `send_lock` of each slot. -/
inductive Lock
  | table
  | send (s : Slot)
  deriving DecidableEq, Repr

/-- The accepting thread, and the thread created for a connection in a slot. -/
inductive Tid
  | main
  | client (s : Slot) (c : Nat)
  deriving DecidableEq, Repr

/-- The result of one blocking `write`. -/
inductive WriteAnswer
  /-- At most `n + 1` bytes are accepted. -/
  | took (n : Nat)
  /-- `EINTR`. -/
  | interrupted
  /-- Another error. -/
  | failed
  deriving DecidableEq, Repr

/-- What the threads did, by connection. -/
inductive Event
  /-- A thread was created for a connection. -/
  | started (s : Slot) (c : Nat)
  /-- A login of a thread stored a name. -/
  | loggedIn (t : Tid) (u : List UInt8)
  /-- Bytes of a message were accepted for a connection. -/
  | wrote (c : Nat) (m : Message) (bytes : List UInt8)
  /-- A thread closed the open descriptor of a connection. -/
  | closed (t : Tid) (fd c : Nat)
  deriving DecidableEq

/-- What the threads share. -/
structure Shared where
  clients : Slot → Client
  /-- The connection an open descriptor stands for. -/
  conn : Nat → Option Nat
  /-- The number of connections accepted so far. -/
  accepted : Nat
  history : History
  log : List Event

/-- The state in front of the accept loop. -/
def Shared.init (history : History) : Shared where
  clients := fun _ => .zero
  conn := fun _ => none
  accepted := 0
  history := history
  log := []

/-- What one step sees of its surroundings; each step looks at the parts it needs. -/
structure Input where
  env : Env
  /-- What `accept` returns, if a connection is there. -/
  fd : Option Nat
  /-- Whether `pthread_create` succeeds. -/
  created : Bool
  /-- What the `read` calls of `recv_message` get. -/
  source : Source UInt8
  /-- The result of a `write`. -/
  write : WriteAnswer
  /-- The stack behind the 31 bytes of `uname` that are written. -/
  junk : List UInt8

namespace Shared

variable (sh : Shared)

/-- The login data of the table. -/
def table : Slot → Entry := fun i => (sh.clients i).toEntry

/-- Record an event. -/
def note (e : Event) : Shared := { sh with log := sh.log ++ [e] }

/-- Overwrite a slot. -/
def setClient (s : Slot) (c : Client) : Shared :=
  { sh with clients := Function.update sh.clients s c }

/-- Overwrite the login data of a slot. -/
def setEntry (s : Slot) (e : Entry) : Shared :=
  sh.setClient s { sh.clients s with toEntry := e }

/-- `find_user`. -/
def findUser (u : List UInt8) : Option Slot := findName sh.table u

/-- `find_free`. -/
def findFree : Option Slot := firstSlot fun i => !(sh.clients i).inUse

/-- `accept` returns `fd` for the next connection. -/
def accept (fd : Nat) : Shared :=
  { sh with conn := Function.update sh.conn fd (some sh.accepted), accepted := sh.accepted + 1 }

/-- The stores of the accept loop under `table_lock`. -/
def fill (s : Slot) (fd : Nat) : Shared :=
  sh.setClient s { (sh.clients s).clear.setStatus statusAvailable with sockfd := fd, inUse := true }

/-- The stores of a thread's cleanup under `table_lock`. -/
def release (s : Slot) : Shared :=
  sh.setClient s { sh.clients s with toEntry := (sh.clients s).clear, inUse := false }

/-- `clients[slot].in_use = 0`. -/
def abandon (s : Slot) : Shared := sh.setClient s { sh.clients s with inUse := false }

/-- `close(fd)` by a thread; on a number that is not open it fails. -/
def close (t : Tid) (fd : Nat) : Shared :=
  match sh.conn fd with
  | none => sh
  | some c => { sh with conn := Function.update sh.conn fd none }.note (.closed t fd c)

end Shared

variable (sh : Shared) (s j : Slot) (e : Entry)

@[simp] theorem clients_note (e : Event) : (sh.note e).clients = sh.clients := rfl

theorem clients_setClient_of_ne {s j : Slot} (h : j ≠ s) (c : Client) :
    (sh.setClient s c).clients j = sh.clients j :=
  Function.update_of_ne h ..

@[simp] theorem clients_setClient_self (c : Client) : (sh.setClient s c).clients s = c :=
  Function.update_self ..

@[simp] theorem sockfd_setEntry :
    ((sh.setEntry s e).clients j).sockfd = (sh.clients j).sockfd := by
  by_cases h : j = s
  · rw [h, Shared.setEntry, clients_setClient_self]
  · rw [Shared.setEntry, clients_setClient_of_ne sh h]

@[simp] theorem inUse_setEntry : ((sh.setEntry s e).clients j).inUse = (sh.clients j).inUse := by
  by_cases h : j = s
  · rw [h, Shared.setEntry, clients_setClient_self]
  · rw [Shared.setEntry, clients_setClient_of_ne sh h]

@[simp] theorem toEntry_setEntry_self : ((sh.setEntry s e).clients s).toEntry = e := by
  rw [Shared.setEntry, clients_setClient_self]

end ChatSystem.Thread
