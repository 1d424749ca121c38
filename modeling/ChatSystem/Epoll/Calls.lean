import ChatSystem.Epoll.Loop

/-!
# The calls of the message processor

The processing loop of `handle_read` cuts complete frames off the accumulation buffer.
Each state in which it looks at the front of the buffer is a turn, and `process_message` is
only called at a turn with a complete frame. What the single operations of the handlers
keep, every event keeps, and it holds at every turn.
-/

namespace ChatSystem.Epoll

open Transition

namespace Server

variable (srv : Server) (s : Slot)

/-- `HEADER_SIZE + plen` for the header at the front of the accumulated bytes. -/
def total : Nat := headerSize + (announcedLen (srv.clients s).rbuf).toNat

/-- The loop finds a complete frame at the front of the accumulated bytes. -/
def Complete : Prop :=
  headerSize ≤ (srv.clients s).rbufLen ∧ srv.total s ≤ headerSize + maxPayloadLen ∧
    srv.total s ≤ (srv.clients s).rbufLen

instance : Decidable (srv.Complete s) := inferInstanceAs (Decidable (_ ∧ _ ∧ _))

/-- The bytes passed to `unpack_message`. -/
def front : List UInt8 := (srv.clients s).rbuf.take (srv.total s)

/-- The state behind the reading loop of `handle_read`. -/
def filled (b : Burst) : Server :=
  (srv.note (.arrived (srv.connOf s) b.data (.read b.ending))).setClient s
    (readLoop (srv.clients s) b.data b.sizes).2

end Server

/-- The states in which the processing loop of `handle_read` looks at the front of the buffer. -/
inductive Turn (env : Env) (s : Slot) (srv : Server) : Server → Prop
  | first : Turn env s srv srv
  | next {a : Server} : Turn env s srv a → a.Complete s →
      Turn env s srv ((a.dispatch env s (a.front s)).consume s (a.total s))

/-- Handling the event `l` in `srv` calls `process_message(s, &m)` in the state `a`. -/
structure Called (srv : Server) (l : Label) (a : Server) (s : Slot) (m : Message) : Prop where
  wake : ∃ fd b, l.action = .readable fd b ∧ (srv.prescribe l.writes).findByFd fd = some s ∧
    (readLoop ((srv.prescribe l.writes).clients s) b.data b.sizes).1 = false ∧
    b.ending = .again ∧ Turn l.env s ((srv.prescribe l.writes).filled s b) a
  complete : a.Complete s
  unpack : unpackMessage (a.front s) = some m

variable {srv t a : Server} {env : Env} {s : Slot}

/-- The loop ends at a turn without a complete frame: it returns there or disconnects. -/
theorem parseLoop_cases (env : Env) (s : Slot) (srv : Server) :
    ∃ a, Turn env s srv a ∧ ¬ a.Complete s ∧
      (parseLoop env s srv = a ∨ parseLoop env s srv = a.disconnectClient env s) := by
  fun_induction parseLoop env s srv with
  | case1 srv c hlen => exact ⟨srv, .first, fun h => absurd h.1 (Int.not_le.mpr hlen), Or.inl rfl⟩
  | case2 srv c hlen plen hplen =>
    exact ⟨srv, .first, fun h => absurd (Nat.le_of_add_le_add_left h.2.1) (Nat.not_le.mpr hplen),
      Or.inr rfl⟩
  | case3 srv c hlen plen hplen total htotal =>
    exact ⟨srv, .first, fun h => absurd h.2.2 (Int.not_le.mpr htotal), Or.inl rfl⟩
  | case4 srv c hlen plen hplen total htotal ih =>
    obtain ⟨a, hturn, hstop, hend⟩ := ih
    have hcomplete : srv.Complete s :=
      ⟨Int.not_lt.mp hlen, Nat.add_le_add_left (Nat.not_lt.mp hplen) _, Int.not_lt.mp htotal⟩
    refine ⟨a, ?_, hstop, hend⟩
    clear hend hstop
    induction hturn with
    | first => exact .next .first hcomplete
    | next _ hc ih => exact .next ih hc

/-- With a frame at the front of its buffer, a slot is at a turn with a complete frame. -/
theorem Holds.complete_append {fd c : Nat} {f t : List UInt8} (h : Holds a s fd c (f ++ t))
    (hf : frameFormat.IsFrame f) : a.Complete s ∧ a.total s = f.length ∧ a.front s = f := by
  obtain ⟨hle, hlen⟩ := isFrame_iff.mp hf
  have hrbuf := h.rbufLen_eq
  rw [List.length_append] at hrbuf
  have htotal : a.total s = f.length := by
    rw [Server.total, h.announcedLen_rbuf (by simp only [List.length_append]; omega),
      ← announcedLen_take (show headerSize ≤ f.length by omega), List.take_left, hlen]
  refine ⟨⟨by omega, by omega, by omega⟩, htotal, ?_⟩
  have hrec := congrArg (List.take f.length) h.received
  rwa [Client.received, List.take_take, List.take_left, Nat.min_eq_left (by omega), ← htotal] at hrec

/-- The reading loop that stops before the buffer is full stores everything that arrived. -/
theorem Holds.filled {fd c : Nat} {r : List UInt8} (h : Holds srv s fd c r) (b : Burst)
    (hroom : (readLoop (srv.clients s) b.data b.sizes).1 = false) :
    Holds (srv.filled s b) s fd c (r ++ b.data) := by
  obtain ⟨k1, -, k3⟩ := readLoop_spec h.bufOk b.data b.sizes
  rw [h.received] at k3
  rw [← k3 hroom]
  exact (h.note _).setClient (readLoop_same (srv.clients s) b.data b.sizes) k1

/-! ## Slots in use -/

/-- A message either leaves its slot in use or ends the loop, whose buffer is then empty. -/
theorem inUse_processMessage (h : (srv.clients s).inUse = true) (env : Env) (m : Message) :
    ((srv.processMessage env s m).clients s).inUse = true ∨
      ((srv.processMessage env s m).clients s).rbufLen = 0 := by
  by_cases hm : m.kind = some .logout
  · obtain ⟨b, -, hb⟩ := logout_eq (show ((srv.note (.processed (srv.connOf s) m)).clients
      s).inUse = true from h) env
    right
    rw [processMessage_logout hm, hb, Server.clients_release, Function.update_self]
    rfl
  · left
    rw [(quiet_processMessage srv env s hm).inUse]
    exact h

/-- At every turn the slot is in use, unless a logout left nothing to process. -/
theorem Turn.inUse (h : Turn env s srv a) (hu : (srv.clients s).inUse = true) :
    (a.clients s).inUse = true ∨ (a.clients s).rbufLen < headerSize := by
  induction h with
  | first => exact Or.inl hu
  | @next a _ hc ih =>
    have hu : (a.clients s).inUse = true := ih.resolve_right (Int.not_lt.mpr hc.1)
    rw [Server.inUse_consume, Server.rbufLen_consume, Server.dispatch]
    split
    · rcases inUse_processMessage hu env _ with hi | hz
      · exact Or.inl hi
      · right
        rw [hz]
        have : 0 < headerSize := by decide
        omega
    · exact Or.inl hu

/-- At a turn with a complete frame the slot is in use. -/
theorem Turn.inUse_of_complete (h : Turn env s srv a) (hu : (srv.clients s).inUse = true)
    (hc : a.Complete s) : (a.clients s).inUse = true :=
  (h.inUse hu).resolve_right (Int.not_lt.mpr hc.1)

theorem Server.inUse_filled (srv : Server) (s : Slot) (b : Burst) :
    ((srv.filled s b).clients s).inUse = (srv.clients s).inUse := by
  rw [filled, setClient]
  simp only [Function.update_self]
  exact (readLoop_same _ _ _).inUse

/-- `process_message` is only called on slots in use. -/
theorem Called.inUse {l : Label} {m : Message} (h : Called srv l a s m) :
    (a.clients s).inUse = true := by
  obtain ⟨fd, b, -, hfind, -, -, hturn⟩ := h.wake
  refine hturn.inUse_of_complete ?_ h.complete
  rw [Server.inUse_filled]
  exact (findByFd_eq_some hfind).1

/-! ## The operations of the handlers -/

/-- A property kept by every operation the handlers are made of. -/
structure Handled (P : Server → Prop) : Prop where
  note : ∀ {a : Server} {e : Event}, e.isInput = true → P a → P (a.note e)
  input : ∀ {a : Server} {s : Slot} {c : Client}, SameButInput (a.clients s) c → P a →
    P (a.setClient s c)
  save : ∀ {a : Server} (h : History), P a → P { a with history := h }
  send : ∀ {a : Server} (s : Slot) (m : Message), P a → P (a.slotSend s m)
  login : ∀ {a : Server} {s : Slot} {payload u p : List UInt8}, (a.clients s).inUse = true →
    scanLogin payload = some (u, p) → a.findByUser u = none → P a →
    P (a.setEntry s ((a.clients s).login u))
  clear : ∀ {a : Server} (s : Slot), P a → P (a.setEntry s (a.clients s).clear)
  status : ∀ {a : Server} (s : Slot) (payload : List UInt8), P a →
    P (a.setEntry s ((a.clients s).setStatus (scanStatus payload)))
  release : ∀ {a : Server} (s : Slot), (a.clients s).inUse = true → P a → P (a.release s)
  flush : ∀ {a b : Server} {s : Slot} {fd : Nat} {stop : Stop}, a.findByFd fd = some s →
    a.sbFlush s fd = (stop, b) → P a →
    P (if stop = .done then { b with kernel := b.kernel.epmod fd false } else b)

namespace Handled

variable {P : Server → Prop} (hP : Handled P)

include hP

theorem sendOthers (s : Slot) (m : Message) (h : P a) : P (a.sendOthers s m) :=
  Server.sendOthers_invariant (fun _ i hb => hP.send i m hb) h

theorem disconnectClient (env : Env) (s : Slot) (h : P a) : P (a.disconnectClient env s) := by
  cases hu : (a.clients s).inUse with
  | false =>
    rw [disconnectClient_of_not_inUse hu]
    exact h
  | true =>
    unfold Server.disconnectClient
    rw [if_neg (by simpa using hu)]
    have hn := hP.note (e := .closed (a.connOf s)) rfl h
    simp only
    split
    · apply hP.release s
      · rw [(OutputOnly.bcastNote _ env s _).inUse]
        exact hu
      · exact hP.sendOthers s _ hn
    · exact hP.release s hu hn

theorem processMessage (hu : (a.clients s).inUse = true) (env : Env) (m : Message) (h : P a) :
    P (a.processMessage env s m) := by
  have hn := hP.note (e := .processed (a.connOf s) m) rfl h
  unfold Server.processMessage
  simp only
  split
  · unfold Server.login
    split
    · exact hP.send s _ hn
    · next hscan =>
      split
      · exact hP.send s _ hn
      · next hfree =>
        split
        · exact hP.send s _ hn
        · exact hP.send s _ (hP.login hu hscan (by simpa using hfree) hn)
  · exact hP.disconnectClient env s (hP.sendOthers s _ (hP.clear s hn))
  · unfold Server.broadcast
    split
    · exact hP.send s _ hn
    · exact hP.send s _ (hP.sendOthers s m (hP.save _ hn))
  · unfold Server.priv
    split
    · exact hP.send s _ hn
    · split
      · exact hP.send s _ hn
      · exact hP.send s _ (hP.send _ m (hP.save _ hn))
  · exact hP.send s _ hn
  · exact hP.send s _ hn
  · exact hP.send s _ (hP.status s _ hn)
  · exact hP.send s _ hn

/-- The property holds at every turn of the processing loop. -/
theorem turn (hu : (srv.clients s).inUse = true) (h : P srv) (ht : Turn env s srv a) : P a := by
  induction ht with
  | first => exact h
  | @next a ht hc ih =>
    refine hP.input ⟨rfl, rfl, rfl, rfl⟩ ?_
    unfold Server.dispatch
    split
    · exact hP.processMessage (ht.inUse_of_complete hu hc) env _ ih
    · exact ih

theorem filled (s : Slot) (b : Burst) (h : P a) : P (a.filled s b) :=
  hP.input (readLoop_same (a.clients s) b.data b.sizes) (hP.note rfl h)

theorem handleRead (env : Env) (fd : Nat) (b : Burst) (h : P a) : P (a.handleRead env fd b) := by
  unfold Server.handleRead
  split
  · exact h
  · next s hs =>
    have hfill := hP.filled s b h
    have hu : ((a.filled s b).clients s).inUse = true := by
      rw [Server.inUse_filled]
      exact (findByFd_eq_some hs).1
    change P (if (readLoop (a.clients s) b.data b.sizes).1 then
      (a.filled s b).disconnectClient env s else (a.filled s b).endRead env s b.ending)
    split
    · exact hP.disconnectClient env s hfill
    · unfold Server.endRead
      split
      · obtain ⟨c, hturn, -, he⟩ := parseLoop_cases env s (a.filled s b)
        have hc := hP.turn hu hfill hturn
        rcases he with he | he
        · rw [he]
          exact hc
        · rw [he]
          exact hP.disconnectClient env s hc
      · exact hP.disconnectClient env s hfill

theorem hangup (env : Env) (fd : Nat) (unread : List UInt8) (h : P a) :
    P (a.hangup env fd unread) := by
  unfold Server.hangup
  split
  · exact h
  · exact hP.disconnectClient env _ (hP.note rfl h)

theorem handleWrite (env : Env) (fd : Nat) (unread : List UInt8) (h : P a) :
    P (a.handleWrite env fd unread) := by
  unfold Server.handleWrite
  split
  · exact h
  · next s hs =>
    split
    · next b hb =>
      have hflush := hP.flush hs hb h
      rw [if_neg (by decide)] at hflush
      exact hP.disconnectClient env s (hP.note rfl hflush)
    · next b hb =>
      have hflush := hP.flush hs hb h
      rwa [if_neg (by decide)] at hflush
    · next b hb =>
      have hflush := hP.flush hs hb h
      rwa [if_pos rfl] at hflush

/-- One event keeps the property if prescribing its writes and accepting do. -/
theorem step {l : Label} (hpre : P (srv.prescribe l.writes))
    (haccept : ∀ fd sent, (srv.prescribe l.writes).kernel.conn fd = none → reservedFds ≤ fd →
      P ((srv.prescribe l.writes).acceptOne l.env fd sent))
    (hs : Epoll.step srv l = some t) : P t := by
  rw [Epoll.step] at hs
  cases hact : l.action with
  | accept fd sent =>
    simp only [hact] at hs
    split at hs
    · next hfresh =>
      obtain rfl := Option.some.inj hs
      exact haccept fd sent hfresh.1 hfresh.2
    · cases hs
  | hangup fd unread =>
    simp only [hact] at hs
    obtain rfl := Option.some.inj hs
    exact hP.hangup l.env fd unread hpre
  | readable fd b =>
    simp only [hact] at hs
    obtain rfl := Option.some.inj hs
    exact hP.handleRead l.env fd b hpre
  | writable fd unread =>
    simp only [hact] at hs
    obtain rfl := Option.some.inj hs
    exact hP.handleWrite l.env fd unread hpre

/-- The property holds in the states in which `process_message` is called. -/
theorem called {l : Label} {m : Message} (hpre : P (srv.prescribe l.writes))
    (h : Called srv l a s m) : P a := by
  obtain ⟨fd, b, -, hfind, -, -, hturn⟩ := h.wake
  refine hP.turn ?_ (hP.filled s b hpre) hturn
  rw [Server.inUse_filled]
  exact (findByFd_eq_some hfind).1

end Handled

end ChatSystem.Epoll
