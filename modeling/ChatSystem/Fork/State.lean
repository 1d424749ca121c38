import ChatSystem.Core.Tasks
import ChatSystem.Protocol.Stream
import ChatSystem.Server.Names

/-!
# State of the fork server

The parent and its children share the client table. A connection has two pipes, one each
way between the parent and its child; the parent knows them by descriptors, a child reads
its two ends off its slot once, before the slot can change. The kernel keeps the children
in a process table until they are waited for.
-/

namespace ChatSystem.Fork

open Bytes Channel

/-- `ClientSlot`, without the printed address; the descriptors as `pipe` stores them. -/
structure Client extends Entry where
  pid : Nat
  toChild : Nat × Nat
  fromChild : Nat × Nat

/-- `memset(clients, 0, ..)` for one slot. -/
def Client.zero : Client := { Entry.zero with pid := 0, toChild := (0, 0), fromChild := (0, 0) }

/-- A child with its slot and its connection. -/
structure Child where
  slot : Slot
  conn : Nat
  pid : Nat
  deriving DecidableEq, Repr

/-- Who takes a step: the parent, a child, or the handler of `SIGCHLD`, which runs in the
parent between any two of its statements. -/
inductive Tid
  | parent
  | child (k : Child)
  | sigchld
  deriving DecidableEq, Repr

/-- What an open descriptor of the parent stands for. -/
inductive Handle
  /-- A standard stream or the listening socket. -/
  | own
  | socket (c : Nat)
  | toRead (c : Nat)
  | toWrite (c : Nat)
  | fromRead (c : Nat)
  | fromWrite (c : Nat)
  deriving DecidableEq, Repr

/-- The process table entry of the child of a connection. -/
inductive Proc
  | running (c : Nat)
  | zombie (c : Nat)
  deriving DecidableEq, Repr

/-- What the processes did, by connection. -/
inductive Event
  /-- A child was created for a connection. -/
  | forked (k : Child)
  /-- A child wrote a message to its `from_child` pipe. -/
  | forwarded (c : Nat) (m : Message)
  /-- `route_message` was called for a slot, with a message read from a connection's pipe. -/
  | routed (s : Slot) (c : Nat) (m : Message)
  /-- `pipe_send`, or `send_message` by the parent. -/
  | sent (c : Nat) (m : Message)
  /-- A child passed a message on to its client. -/
  | delivered (c : Nat) (m : Message)
  /-- A slot was cleared. -/
  | released (s : Slot) (c : Option Nat)
  deriving DecidableEq

/-- The shared memory, the parent's descriptors, the kernel's side and the history store. -/
structure Shared where
  clients : Slot → Client
  fd : Nat → Option Handle
  /-- The number of connections accepted so far. -/
  accepted : Nat
  proc : Nat → Option Proc
  /-- The bytes in the `to_child` pipe of a connection. -/
  toPipe : Nat → List UInt8
  /-- The bytes in its `from_child` pipe. -/
  fromPipe : Nat → List UInt8
  /-- Its child has closed its ends of both. -/
  closed : Nat → Bool
  history : History
  log : List Event

/-- The state in front of the select loop. -/
def Shared.init (history : History) : Shared where
  clients := fun _ => .zero
  fd n := if n ≤ 3 then some .own else none
  accepted := 0
  proc := fun _ => none
  toPipe := fun _ => []
  fromPipe := fun _ => []
  closed := fun _ => false
  history := history
  log := []

/-- What one step sees of its surroundings; each step looks at the parts it needs. -/
structure Input where
  env : Env
  /-- `select` fails with `EINTR`. -/
  interrupted : Bool
  /-- The listening socket is ready. -/
  waiting : Bool
  /-- What `accept` returns. -/
  fd : Option Nat
  /-- What `pipe(to_child)` stores, unless it fails. -/
  toChild : Option (Nat × Nat)
  /-- What `pipe(from_child)` stores, unless it fails. -/
  fromChild : Option (Nat × Nat)
  /-- What `fork` or `waitpid` returns. -/
  pid : Option Nat
  /-- The sizes of the parts in which a pipe is read. -/
  reads : List Nat
  /-- The `select` of a child reports its socket, not its pipe. -/
  fromClient : Bool
  /-- What the `read` calls of `recv_message` get. -/
  source : Source UInt8

namespace Shared

variable (sh : Shared)

/-- The login data of the table. -/
def table : Slot → Entry := fun i => (sh.clients i).toEntry

/-- Record an event. -/
def note (e : Event) : Shared := { sh with log := sh.log ++ [e] }

/-- Overwrite a slot. -/
def setClient (s : Slot) (c : Client) : Shared :=
  { sh with clients := Function.update sh.clients s c }

/-- Overwrite the login data of a slot. -/
def setEntry (s : Slot) (e : Entry) : Shared :=
  sh.setClient s { sh.clients s with toEntry := e }

/-- `find_slot_by_username`. Between its reads the handler can only deactivate slots, so that
the result is the one of a single look at the end. -/
def findSlotByUsername (u : List UInt8) : Option Slot := findName sh.table u

/-- The connection whose pipe a descriptor reads. -/
def readEnd (fd : Nat) : Option Nat :=
  match sh.fd fd with
  | some (.fromRead c) => some c
  | _ => none

/-- The connection a slot was filled for last. -/
def connOf (s : Slot) : Option Nat := sh.readEnd (sh.clients s).fromChild.1

/-- `select` reports a read end whose pipe holds data or has no writer left. -/
def readable (fd : Nat) : Bool :=
  match sh.readEnd fd with
  | some c => !(sh.fromPipe c).isEmpty || sh.closed c
  | none => false

/-- The kernel hands out a descriptor number. -/
def openFd (fd : Nat) (h : Handle) : Shared := { sh with fd := Function.update sh.fd fd (some h) }

/-- `close(fd)` in the parent. -/
def close (fd : Nat) : Shared := { sh with fd := Function.update sh.fd fd none }

/-- The numbers of a new pipe. -/
def Fresh (p : Nat × Nat) : Prop := sh.fd p.1 = none ∧ sh.fd p.2 = none ∧ p.1 ≠ p.2

instance (p : Nat × Nat) : Decidable (sh.Fresh p) := inferInstanceAs (Decidable (_ ∧ _))

/-- `pipe(clients[s].to_child)`. -/
def openTo (s : Slot) (c : Nat) (p : Nat × Nat) : Shared :=
  ((sh.openFd p.1 (.toRead c)).openFd p.2 (.toWrite c)).setClient s
    { sh.clients s with toChild := p }

/-- `pipe(clients[s].from_child)`. -/
def openFrom (s : Slot) (c : Nat) (p : Nat × Nat) : Shared :=
  ((sh.openFd p.1 (.fromRead c)).openFd p.2 (.fromWrite c)).setClient s
    { sh.clients s with fromChild := p }

/-- `pid = 0; active = 0; memset(username, 0, MAX_USERNAME_LEN)`, in either order. -/
def release (s : Slot) : Shared :=
  (sh.setClient s { sh.clients s with toEntry := (sh.clients s).clear, pid := 0 }).note
    (.released s (sh.connOf s))

/-- `write` to the `to_child` pipe of a connection; it fails once the child is gone. -/
def feed (c : Nat) (d : List UInt8) : Shared :=
  if sh.closed c then sh
  else { sh with toPipe := Function.update sh.toPipe c (sh.toPipe c ++ d) }

/-- `pipe_send`. -/
def pipeSend (s : Slot) (m : Message) : Shared :=
  match sh.fd (sh.clients s).toChild.2 with
  | some (.toWrite c) => (sh.note (.sent c m)).feed c (packMessage m)
  | _ => sh

/-- The slot the handler looks for. -/
def findPid (pid : Nat) : Option Slot := firstSlot fun i => (sh.clients i).pid == pid

/-- One turn of the loop of `sigchld_handler`, with what `waitpid` returned. -/
def reap (pid : Nat) : Shared :=
  let sh := { sh with proc := Function.update sh.proc pid none }
  match sh.findPid pid with
  | none => sh
  | some s => sh.release s

end Shared

/-- `pipe_recv` on a pipe: `none` while it would block, then the message or `-1`. A read that
a signal interrupts is restarted. -/
def pipeRecv (closed : Bool) (src : Source UInt8) : Option (Option Message × Source UInt8) :=
  match readFull src headerSize [] with
  | (none, src) => if closed then some (none, src) else none
  | (some hdr, src) =>
    match readFull src (announcedLen hdr).toNat [] with
    | (none, src) => if closed then some (none, src) else none
    | (some payload, src) => some (unpackMessage (hdr ++ payload), src)

/-! ## Pipes -/

theorem steady_chunks (reads : List Nat) : Steady (reads.map .chunk) := by
  simp [Steady]

/-- The message at the front of a pipe is read in canonical form, in whatever parts. -/
theorem pipeRecv_packMessage (closed : Bool) (m : Message) (rest : List UInt8)
    (reads : List Nat) : ∃ src, src.inbound = rest ∧
      pipeRecv closed ⟨packMessage m ++ rest, reads.map .chunk⟩ =
        some (some (canonical m), src) := by
  obtain ⟨h1, h2, h3⟩ := readFull_spec ⟨packMessage m ++ rest, reads.map .chunk⟩ headerSize []
    (steady_chunks reads) (Nat.zero_le _)
  obtain ⟨⟨o, src⟩, hread⟩ : ∃ x, readFull ⟨packMessage m ++ rest, reads.map .chunk⟩
    headerSize [] = x := ⟨_, rfl⟩
  have hlen : headerSize ≤ (packMessage m ++ rest).length := by
    rw [List.length_append, length_packMessage]
    omega
  simp only [hread, List.length_nil, Nat.sub_zero, List.nil_append, if_pos hlen] at h1 h2 h3
  have hann : announcedLen ((packMessage m ++ rest).take headerSize) = packedLen m := by
    rw [announcedLen_take (Nat.le_refl _), packMessage, List.append_assoc]
    exact announcedLen_packHeader _ _
  obtain ⟨g1, g2, -⟩ := readFull_spec src (packedLen m).toNat [] h3 (Nat.zero_le _)
  obtain ⟨⟨o', src'⟩, hread'⟩ : ∃ x, readFull src (packedLen m).toNat [] = x := ⟨_, rfl⟩
  have hbody : (packedLen m).toNat ≤ src.inbound.length := by
    rw [h2, List.length_drop, List.length_append, length_packMessage]
    omega
  simp only [hread', List.length_nil, Nat.sub_zero, List.nil_append, if_pos hbody] at g1 g2
  have hwhole : (packMessage m ++ rest).take headerSize ++ src.inbound.take (packedLen m).toNat =
      packMessage m := by
    rw [h2, ← List.take_add, ← length_packMessage, List.take_left]
  refine ⟨src', ?_, ?_⟩
  · rw [g2, h2, List.drop_drop, ← length_packMessage, List.drop_left]
  · simp only [pipeRecv, hread, h1, hann, hread', g1, hwhole, unpack_pack]

/-- An empty pipe blocks, or is at its end. -/
theorem pipeRecv_nil {closed : Bool} {reads : List Nat} {r : Option Message × Source UInt8}
    (h : pipeRecv closed ⟨[], reads.map .chunk⟩ = some r) :
    closed = true ∧ r.1 = none ∧ r.2.inbound = [] := by
  obtain ⟨h1, h2, -⟩ := readFull_spec ⟨([] : List UInt8), reads.map .chunk⟩ headerSize []
    (steady_chunks reads) (Nat.zero_le _)
  obtain ⟨⟨o, src⟩, hread⟩ : ∃ x, readFull ⟨([] : List UInt8), reads.map .chunk⟩
    headerSize [] = x := ⟨_, rfl⟩
  have hlen : ¬ headerSize ≤ 0 := by decide
  simp only [hread, List.length_nil, Nat.sub_zero, if_neg hlen, List.drop_nil] at h1 h2
  simp only [pipeRecv, hread, h1] at h
  split at h
  · next hc =>
    obtain rfl := Option.some.inj h
    exact ⟨hc, rfl, h2⟩
  · cases h

/-! ## Slots -/

variable (sh : Shared) (s j : Slot) (e : Entry)

@[simp] theorem clients_note (e : Event) : (sh.note e).clients = sh.clients := rfl

theorem clients_setClient_of_ne {s j : Slot} (h : j ≠ s) (c : Client) :
    (sh.setClient s c).clients j = sh.clients j :=
  Function.update_of_ne h ..

@[simp] theorem clients_setClient_self (c : Client) : (sh.setClient s c).clients s = c :=
  Function.update_self ..

end ChatSystem.Fork
