import ChatSystem.Epoll.Process
import ChatSystem.Protocol.Stream

/-!
# The I/O handlers of the epoll server

`handle_read` reads until `EAGAIN` into a fixed buffer and only then processes
the complete frames in it; `handle_write` flushes a send buffer. The bytes
available at an event and the results of the single reads are prescribed.
-/

namespace ChatSystem.Epoll

open Bytes

/-- What `read` finds on a descriptor in one wake-up: the bytes available, the
largest number of bytes of each call, and what follows the bytes. -/
structure Burst where
  data : List UInt8
  sizes : List Nat
  ending : ReadEnd

/-- The reading loop: whether it stopped because the buffer was full. -/
def readLoop (c : Client) (data : List UInt8) (sizes : List Nat) : Bool × Client :=
  let room : Int := rbufSize - c.rbufLen
  if room ≤ 0 then (true, c)
  else if data = [] then (false, c)
  else
    let n := min (min (sizes.headD rbufSize + 1) data.length) room.toNat
    readLoop
      { c with
        rbuf := writeAt c.rbuf c.rbufLen.toNat (data.take n)
        rbufLen := c.rbufLen + n }
      (data.drop n) sizes.tail
termination_by data.length
decreasing_by
  have hdata : 0 < data.length := List.length_pos_iff.mpr ‹_›
  simp only [List.length_drop]
  omega

/-- Only the accumulation buffer of a client differs. -/
structure SameButInput (c d : Client) : Prop where
  entry : d.toEntry = c.toEntry
  fd : d.fd = c.fd
  inUse : d.inUse = c.inUse
  sbuf : d.sbuf = c.sbuf

theorem readLoop_same (c : Client) (data : List UInt8) (sizes : List Nat) :
    SameButInput c (readLoop c data sizes).2 := by
  fun_induction readLoop c data sizes with
  | case1 => exact ⟨rfl, rfl, rfl, rfl⟩
  | case2 => exact ⟨rfl, rfl, rfl, rfl⟩
  | case3 c data sizes room hroom hdata n ih => exact ⟨ih.entry, ih.fd, ih.inUse, ih.sbuf⟩

namespace Server

variable (srv : Server) (env : Env) (s : Slot)

/-- `if (unpack_message(c->rbuf, total, &msg) == 0) process_message(s, &msg)`. -/
def dispatch (f : List UInt8) : Server :=
  match unpackMessage f with
  | some m => srv.processMessage env s m
  | none => srv

/-- `rbuf_len -= total; if (rbuf_len > 0) memmove(rbuf, rbuf + total, rbuf_len)`. -/
def consume (total : Nat) : Server :=
  let c := srv.clients s
  let len := c.rbufLen - total
  srv.setClient s
    { c with
      rbuf := if 0 < len then writeAt c.rbuf 0 ((c.rbuf.drop total).take len.toNat) else c.rbuf
      rbufLen := len }

end Server

/-! ## What one message does to the input of its slot -/

variable {srv : Server} {env : Env} {s : Slot}

theorem Server.clients_release (srv : Server) (s : Slot) :
    (srv.release s).clients = Function.update srv.clients s .zero := rfl

/-- Disconnecting a slot in use is a quiet change followed by its release. -/
theorem disconnectClient_eq (h : (srv.clients s).inUse = true) (env : Env) :
    ∃ b, OutputOnly (srv.note (.closed (srv.connOf s))) b ∧
      srv.disconnectClient env s = b.release s := by
  unfold Server.disconnectClient
  rw [if_neg (by simpa using h)]
  refine ⟨_, ?_, rfl⟩
  split
  · exact OutputOnly.bcastNote _ _ _ _
  · exact OutputOnly.refl _

theorem disconnectClient_of_not_inUse (h : (srv.clients s).inUse = false) (env : Env) :
    srv.disconnectClient env s = srv := by
  unfold Server.disconnectClient
  rw [if_pos (by simpa using h)]

theorem quiet_leave (srv : Server) (env : Env) (s : Slot) :
    Quiet srv ((srv.setEntry s (srv.clients s).clear).bcastNote env s
      (leftNote (srv.clients s).name)) :=
  (Quiet.setEntry srv s _).trans (OutputOnly.bcastNote _ _ _ _).toQuiet

/-- A logout on a slot in use is quiet up to the release. -/
theorem logout_eq (h : (srv.clients s).inUse = true) (env : Env) :
    ∃ b, Quiet (srv.note (.closed (srv.connOf s))) b ∧ srv.logout env s = b.release s := by
  have hq := quiet_leave srv env s
  obtain ⟨b, hb, he⟩ := disconnectClient_eq (by rw [hq.inUse]; exact h) env
  rw [hq.connOf] at hb
  exact ⟨b, (hq.note _).trans hb.toQuiet, he⟩

theorem quiet_logout (h : (srv.clients s).inUse = false) (env : Env) :
    Quiet srv (srv.logout env s) := by
  have hq := quiet_leave srv env s
  rw [Server.logout, disconnectClient_of_not_inUse (by rw [hq.inUse]; exact h)]
  exact hq

theorem processMessage_logout {m : Message} (hm : m.kind = some .logout) (srv : Server)
    (env : Env) (s : Slot) : srv.processMessage env s m =
      (srv.note (.processed (srv.connOf s) m)).logout env s := by
  rw [Server.processMessage]
  simp only [hm]

/-- Processing never lengthens the input of its slot. -/
theorem rbufLen_processMessage_le (h : 0 ≤ (srv.clients s).rbufLen) (env : Env) (m : Message) :
    ((srv.processMessage env s m).clients s).rbufLen ≤ (srv.clients s).rbufLen := by
  by_cases hm : m.kind = some .logout
  · rw [processMessage_logout hm]
    cases hu : (srv.clients s).inUse with
    | true =>
      obtain ⟨b, -, hb⟩ := logout_eq (show ((srv.note (.processed (srv.connOf s) m)).clients
        s).inUse = true from hu) env
      rw [hb, Server.clients_release, Function.update_self]
      exact h
    | false =>
      exact ((quiet_logout (show ((srv.note (.processed (srv.connOf s) m)).clients
        s).inUse = false from hu) env).rbufLen s).le
  · exact ((quiet_processMessage srv env s hm).rbufLen s).le

theorem rbufLen_dispatch_le (h : 0 ≤ (srv.clients s).rbufLen) (env : Env) (f : List UInt8) :
    ((srv.dispatch env s f).clients s).rbufLen ≤ (srv.clients s).rbufLen := by
  unfold Server.dispatch
  split
  · exact rbufLen_processMessage_le h env _
  · exact Int.le_refl _

theorem Server.rbufLen_consume (srv : Server) (s : Slot) (total : Nat) :
    ((srv.consume s total).clients s).rbufLen = (srv.clients s).rbufLen - total := by
  simp only [consume, setClient, Function.update_self]

theorem Server.inUse_consume (srv : Server) (s : Slot) (total : Nat) :
    ((srv.consume s total).clients s).inUse = (srv.clients s).inUse := by
  simp only [consume, setClient, Function.update_self]

theorem Server.fd_consume (srv : Server) (s : Slot) (total : Nat) :
    ((srv.consume s total).clients s).fd = (srv.clients s).fd := by
  simp only [consume, setClient, Function.update_self]

/-! ## The handlers -/

/-- The processing loop of `handle_read`. -/
def parseLoop (env : Env) (s : Slot) (srv : Server) : Server :=
  let c := srv.clients s
  if _hlen : c.rbufLen < headerSize then srv
  else
    let plen := (announcedLen c.rbuf).toNat
    if maxPayloadLen < plen then srv.disconnectClient env s
    else
      let total := headerSize + plen
      if c.rbufLen < total then srv
      else parseLoop env s ((srv.dispatch env s (c.rbuf.take total)).consume s total)
termination_by (srv.clients s).rbufLen.toNat
decreasing_by
  have hlen : headerSize ≤ (srv.clients s).rbufLen := Int.not_lt.mp _hlen
  have hpos : 0 < headerSize := by decide
  have hnonneg : 0 ≤ (srv.clients s).rbufLen := by omega
  have hle := rbufLen_dispatch_le hnonneg env
    ((srv.clients s).rbuf.take (headerSize + (announcedLen (srv.clients s).rbuf).toNat))
  rw [Server.rbufLen_consume]
  omega

namespace Server

variable (srv : Server) (env : Env)

/-- What `handle_read` does behind its reading loop. -/
def endRead (s : Slot) : ReadEnd → Server
  | .again => parseLoop env s srv
  | _ => srv.disconnectClient env s

/-- `handle_read`. -/
def handleRead (fd : Nat) (b : Burst) : Server :=
  match srv.findByFd fd with
  | none => srv
  | some s =>
    let srv := srv.note (.arrived (srv.connOf s) b.data (.read b.ending))
    let (full, c) := readLoop (srv.clients s) b.data b.sizes
    let srv := srv.setClient s c
    if full then srv.disconnectClient env s else srv.endRead env s b.ending

/-- `sb_flush` on the send buffer of a slot, with its result. -/
def sbFlush (s : Slot) (fd : Nat) : Stop × Server :=
  let c := srv.clients s
  let (stop, sent, kernel) := srv.kernel.writeAll fd c.sbuf.pending
  let sbuf := match stop with
    | .done => { c.sbuf with head := 0, tail := 0 }
    | _ => { c.sbuf with head := c.sbuf.head + sent }
  (stop, { srv with kernel := kernel }.setClient s { c with sbuf := sbuf })

/-- `handle_write`; `unread` are the bytes still to be read on the descriptor. -/
def handleWrite (fd : Nat) (unread : List UInt8) : Server :=
  match srv.findByFd fd with
  | none => srv
  | some s =>
    match srv.sbFlush s fd with
    | (.failed, srv) =>
      (srv.note (.arrived (srv.connOf s) unread .writeError)).disconnectClient env s
    | (.again, srv) => srv
    | (.done, srv) => { srv with kernel := srv.kernel.epmod fd false }

/-- The `EPOLLERR | EPOLLHUP` branch of the event loop. -/
def hangup (fd : Nat) (unread : List UInt8) : Server :=
  match srv.findByFd fd with
  | none => srv
  | some s => (srv.note (.arrived (srv.connOf s) unread .hangup)).disconnectClient env s

end Server

end ChatSystem.Epoll
