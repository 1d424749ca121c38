import ChatSystem.Core.Reassembly
import ChatSystem.Epoll.Handlers

/-!
# Input of the epoll server

The accumulation buffer of a slot is a bounded reassembly of the protocol's
framing: what the handlers pass to `process_message`, what they leave in the
buffer and when they release the slot is what the abstract receiver does with
the same arrivals. Other slots are not touched.
-/

namespace ChatSystem.Epoll

open Bytes Reassembly

/-- A frame that carries a logout. -/
def isLogout (f : List UInt8) : Bool :=
  (unpackMessage f).any fun m => m.kind = some .logout

/-- The receiver `handle_read` implements. -/
def receiver : Reassembly UInt8 := ⟨frameFormat, rbufSize, isLogout⟩

/-- The bytes accumulated in a slot. -/
def Client.received (c : Client) : List UInt8 := c.rbuf.take c.rbufLen.toNat

/-- The accumulation buffer has its size and its fill level is inside it. -/
structure Client.BufOk (c : Client) : Prop where
  size : c.rbuf.length = rbufSize
  nonneg : 0 ≤ c.rbufLen
  le : c.rbufLen ≤ rbufSize

theorem Client.BufOk.length_received {c : Client} (h : c.BufOk) :
    c.received.length = c.rbufLen.toNat := by
  have := h.size
  have := h.le
  simp only [received, List.length_take]
  omega

/-! ## Filling the buffer -/

/-- The reading loop stops because of a full buffer exactly if the bytes available
fill it; otherwise it accumulates all of them. -/
theorem readLoop_spec {c : Client} (hc : c.BufOk) (data : List UInt8) (sizes : List Nat) :
    (readLoop c data sizes).2.BufOk ∧
      ((readLoop c data sizes).1 = true ↔ rbufSize ≤ (c.received ++ data).length) ∧
      ((readLoop c data sizes).1 = false →
        (readLoop c data sizes).2.received = c.received ++ data) := by
  fun_induction readLoop c data sizes with
  | case1 c data sizes room hroom =>
    refine ⟨hc, ?_, fun h => by cases h⟩
    have := hc.length_received
    simp only [true_iff, List.length_append]
    omega
  | case2 c sizes room hroom =>
    refine ⟨hc, ?_, fun _ => by simp⟩
    have := hc.length_received
    have := hc.nonneg
    simp only [Bool.false_eq_true, false_iff, List.append_nil]
    omega
  | case3 c data sizes room hroom hdata n ih =>
    have hlen := hc.length_received
    have hnn := hc.nonneg
    have hsize := hc.size
    have hn : (data.take n).length = n := by
      simp only [List.length_take]
      omega
    have htoNat : (c.rbufLen + n).toNat = c.rbufLen.toNat + n := by omega
    have hok : ({ c with
        rbuf := writeAt c.rbuf c.rbufLen.toNat (data.take n)
        rbufLen := c.rbufLen + n } : Client).BufOk := by
      refine ⟨?_, ?_, ?_⟩
      · change (writeAt _ _ _).length = _
        rw [length_writeAt (by omega), hsize]
      · change 0 ≤ c.rbufLen + n
        omega
      · change c.rbufLen + n ≤ _
        omega
    have hrec : ({ c with
        rbuf := writeAt c.rbuf c.rbufLen.toNat (data.take n)
        rbufLen := c.rbufLen + n } : Client).received = c.received ++ data.take n := by
      change (writeAt _ _ _).take (c.rbufLen + n).toNat = _
      rw [htoNat]
      have := @take_add_writeAt c.rbuf (data.take n) c.rbufLen.toNat (by omega)
      rwa [hn] at this
    obtain ⟨h1, h2, h3⟩ := ih hok
    rw [hrec, List.append_assoc, List.take_append_drop] at h2 h3
    exact ⟨h1, h2, h3⟩

/-! ## One slot at a time -/

/-- Apart from a slot and its descriptor, input and connections are the same. -/
structure Elsewhere (s : Slot) (fd : Nat) (a b : Server) : Prop where
  fd_eq : ∀ i, i ≠ s → (b.clients i).fd = (a.clients i).fd
  inUse : ∀ i, i ≠ s → (b.clients i).inUse = (a.clients i).inUse
  rbuf : ∀ i, i ≠ s → (b.clients i).rbuf = (a.clients i).rbuf
  rbufLen : ∀ i, i ≠ s → (b.clients i).rbufLen = (a.clients i).rbufLen
  conn : ∀ d, d ≠ fd → b.kernel.conn d = a.kernel.conn d
  accepted : b.kernel.accepted = a.kernel.accepted

theorem Quiet.elsewhere {a b : Server} (h : Quiet a b) (s : Slot) (fd : Nat) :
    Elsewhere s fd a b :=
  ⟨fun i _ => h.fd i, fun i _ => h.inUse i, fun i _ => h.rbuf i, fun i _ => h.rbufLen i,
    fun _ _ => congrFun h.conn _, h.accepted⟩

theorem Elsewhere.trans {s : Slot} {fd : Nat} {a b c : Server} (h : Elsewhere s fd a b)
    (k : Elsewhere s fd b c) : Elsewhere s fd a c :=
  ⟨fun i hi => (k.fd_eq i hi).trans (h.fd_eq i hi), fun i hi => (k.inUse i hi).trans (h.inUse i hi),
    fun i hi => (k.rbuf i hi).trans (h.rbuf i hi),
    fun i hi => (k.rbufLen i hi).trans (h.rbufLen i hi),
    fun d hd => (k.conn d hd).trans (h.conn d hd), k.accepted.trans h.accepted⟩

theorem elsewhere_setClient (a : Server) (s : Slot) (fd : Nat) (c : Client) :
    Elsewhere s fd a (a.setClient s c) := by
  refine ⟨fun i hi => ?_, fun i hi => ?_, fun i hi => ?_, fun i hi => ?_, fun _ _ => rfl, rfl⟩ <;>
  · simp only [Server.setClient, Function.update_of_ne hi]

/-- A slot in use for a connection, with a leftover in its buffer. -/
structure Holds (srv : Server) (s : Slot) (fd c : Nat) (r : List UInt8) : Prop where
  inUse : (srv.clients s).inUse = true
  fd_eq : (srv.clients s).fd = fd
  conn : srv.kernel.conn fd = some c
  bufOk : (srv.clients s).BufOk
  received : (srv.clients s).received = r

/-- A released slot with its descriptor. -/
structure Freed (srv : Server) (s : Slot) (fd : Nat) : Prop where
  inUse : (srv.clients s).inUse = false
  fd_eq : (srv.clients s).fd = 0
  conn : srv.kernel.conn fd = none

/-- What became of a slot: still in use with a leftover, or released. -/
def Outcome (srv : Server) (s : Slot) (fd c : Nat) : Option (List UInt8) → Prop
  | some r => Holds srv s fd c r
  | none => Freed srv s fd

variable {srv : Server} {s : Slot} {fd c : Nat} {r : List UInt8}

theorem Holds.connOf (h : Holds srv s fd c r) : srv.connOf s = some c := by
  rw [Server.connOf, h.fd_eq, h.conn]

theorem Holds.quiet {b : Server} (h : Holds srv s fd c r) (hq : Quiet srv b) :
    Holds b s fd c r := by
  refine ⟨(hq.inUse s).trans h.inUse, (hq.fd s).trans h.fd_eq, by rw [hq.conn, h.conn], ?_, ?_⟩
  · have := h.bufOk
    exact ⟨by rw [hq.rbuf]; exact this.size, by rw [hq.rbufLen]; exact this.nonneg,
      by rw [hq.rbufLen]; exact this.le⟩
  · rw [Client.received, hq.rbuf, hq.rbufLen]
    exact h.received

theorem Holds.note (h : Holds srv s fd c r) (e : Event) : Holds (srv.note e) s fd c r :=
  ⟨h.inUse, h.fd_eq, h.conn, h.bufOk, h.received⟩

theorem inputLog_note {e : Event} (he : e.isInput = true) :
    (srv.note e).inputLog = srv.inputLog ++ [e] := by
  simp only [Server.inputLog, Server.note, List.filter_append, List.filter_cons, he, if_true,
    List.filter_nil]

theorem elsewhere_note (srv : Server) (s : Slot) (fd : Nat) (e : Event) :
    Elsewhere s fd srv (srv.note e) :=
  ⟨fun _ _ => rfl, fun _ _ => rfl, fun _ _ => rfl, fun _ _ => rfl, fun _ _ => rfl, rfl⟩

/-- Releasing a slot after a quiet change. -/
theorem Holds.release {b : Server} (h : Holds srv s fd c r) (hq : Quiet srv b) :
    Elsewhere s fd srv (b.release s) ∧ Freed (b.release s) s fd ∧
      (b.release s).inputLog = srv.inputLog := by
  have hfd : (b.clients s).fd = fd := (hq.fd s).trans h.fd_eq
  have hconn : (b.release s).kernel.conn = Function.update b.kernel.conn fd none := by
    rw [← hfd]
    rfl
  refine ⟨⟨fun i hi => ?_, fun i hi => ?_, fun i hi => ?_, fun i hi => ?_, fun d hd => ?_, ?_⟩,
    ⟨?_, ?_, ?_⟩, hq.inputLog⟩
  · rw [Server.clients_release, Function.update_of_ne hi, hq.fd]
  · rw [Server.clients_release, Function.update_of_ne hi, hq.inUse]
  · rw [Server.clients_release, Function.update_of_ne hi, hq.rbuf]
  · rw [Server.clients_release, Function.update_of_ne hi, hq.rbufLen]
  · rw [hconn, Function.update_of_ne hd, hq.conn]
  · exact hq.accepted
  · rw [Server.clients_release, Function.update_self]
    rfl
  · rw [Server.clients_release, Function.update_self]
    rfl
  · rw [hconn, Function.update_self]

/-- `disconnect_client` on a slot in use. -/
theorem Holds.disconnectClient (h : Holds srv s fd c r) (env : Env) :
    Elsewhere s fd srv (srv.disconnectClient env s) ∧
      Freed (srv.disconnectClient env s) s fd ∧
      (srv.disconnectClient env s).inputLog = srv.inputLog ++ [.closed (some c)] := by
  obtain ⟨b, hb, he⟩ := disconnectClient_eq h.inUse env
  rw [h.connOf] at hb
  obtain ⟨h1, h2, h3⟩ := (h.note (.closed (some c))).release hb.toQuiet
  rw [he, h3, inputLog_note rfl]
  exact ⟨(elsewhere_note _ _ _ _).trans h1, h2, rfl⟩

/-- A logout releases the slot. -/
theorem Holds.logout (h : Holds srv s fd c r) (env : Env) {m : Message}
    (hm : m.kind = some .logout) :
    Elsewhere s fd srv (srv.processMessage env s m) ∧
      Freed (srv.processMessage env s m) s fd ∧
      (srv.processMessage env s m).inputLog =
        srv.inputLog ++ [.processed (some c) m, .closed (some c)] ∧
      (srv.processMessage env s m).clients s = .zero := by
  have hn := h.note (.processed (some c) m)
  obtain ⟨b, hb, he⟩ := logout_eq hn.inUse env
  rw [hn.connOf] at hb
  obtain ⟨h1, h2, h3⟩ := (hn.note (.closed (some c))).release hb
  rw [processMessage_logout hm, h.connOf, he, h3, inputLog_note rfl, inputLog_note rfl,
    List.append_assoc]
  exact ⟨(elsewhere_note _ _ _ _).trans ((elsewhere_note _ _ _ _).trans h1), h2, rfl,
    Function.update_self _ _ _⟩

/-- Consuming a frame leaves the rest of the accumulated bytes. -/
theorem Holds.consume {f t : List UInt8} (h : Holds srv s fd c (f ++ t)) :
    Holds (srv.consume s f.length) s fd c t := by
  have hok := h.bufOk
  have hlen := hok.length_received
  have hrec := h.received
  have hnn := hok.nonneg
  have hle := hok.le
  have hsize := hok.size
  rw [hrec, List.length_append] at hlen
  have hclient : (srv.consume s f.length).clients s = _ := Function.update_self ..
  have ht : ((srv.clients s).rbuf.drop f.length).take t.length = t := by
    have hsplit : (srv.clients s).rbuf.take (f.length + t.length) = f ++ t := by
      rw [hlen]
      exact hrec
    have hdrop : ((srv.clients s).rbuf.take (f.length + t.length)).drop f.length = t := by
      rw [hsplit, List.drop_left]
    rwa [List.drop_take, Nat.add_sub_cancel_left] at hdrop
  have htoNat : ((srv.clients s).rbufLen - (f.length : Int)).toNat = t.length := by omega
  refine ⟨by rw [hclient]; exact h.inUse, by rw [hclient]; exact h.fd_eq, h.conn, ⟨?_, ?_, ?_⟩, ?_⟩
  · rw [hclient]
    change (if _ then _ else _ : List UInt8).length = _
    split
    · rw [htoNat, ht, length_writeAt (by omega), hsize]
    · exact hsize
  · rw [hclient]
    change 0 ≤ (srv.clients s).rbufLen - (f.length : Int)
    omega
  · rw [hclient]
    change (srv.clients s).rbufLen - (f.length : Int) ≤ _
    omega
  · rw [hclient, Client.received]
    change (if _ then _ else _ : List UInt8).take ((srv.clients s).rbufLen - (f.length : Int)).toNat
      = t
    rw [htoNat, ht]
    split
    · have := @take_add_writeAt (srv.clients s).rbuf t 0 (Nat.zero_le _)
      simpa using this
    · have : t.length = 0 := by omega
      rw [this, List.take_zero, List.length_eq_zero_iff.mp this]

/-! ## The processing loop -/

/-- The announced length can be read off the accumulated bytes. -/
theorem Holds.announcedLen_rbuf (h : Holds srv s fd c r) (hr : headerSize ≤ r.length) :
    announcedLen (srv.clients s).rbuf = announcedLen r := by
  have hlen := h.bufOk.length_received
  have hrec := h.received
  rw [hrec] at hlen
  rw [← hrec, Client.received, announcedLen_take (by omega)]

theorem Holds.rbufLen_eq (h : Holds srv s fd c r) : (srv.clients s).rbufLen = r.length := by
  have hlen := h.bufOk.length_received
  have hnn := h.bufOk.nonneg
  rw [h.received] at hlen
  omega

/-- One turn of the loop at a complete frame. -/
theorem Holds.parseLoop_frame {f t : List UInt8} (h : Holds srv s fd c (f ++ t))
    (hf : frameFormat.IsFrame f) (env : Env) :
    parseLoop env s srv = parseLoop env s ((srv.dispatch env s f).consume s f.length) := by
  obtain ⟨hle, hl⟩ := isFrame_iff.mp hf
  have hlen := h.rbufLen_eq
  have hann : announcedLen (srv.clients s).rbuf = announcedLen f := by
    rw [h.announcedLen_rbuf (by simp only [List.length_append]; omega),
      ← announcedLen_take (show headerSize ≤ f.length by omega), List.take_left]
  have htake : (srv.clients s).rbuf.take f.length = f := by
    have := congrArg (List.take f.length) h.received
    rw [Client.received, List.take_take, List.take_left, hlen, List.length_append] at this
    rwa [Nat.min_eq_left (by omega)] at this
  rw [List.length_append] at hlen
  rw [parseLoop]
  simp only [hann, ← hl, htake]
  rw [dif_neg (by omega), if_neg (by omega), if_neg (by omega)]

/-- The loop returns at an incomplete frame. -/
theorem Holds.parseLoop_short (h : Holds srv s fd c r) (hr : frameFormat.front r = .short)
    (env : Env) : parseLoop env s srv = srv := by
  have hlen := h.rbufLen_eq
  rw [parseLoop]
  by_cases hh : r.length < headerSize
  · rw [dif_pos (by omega)]
  · rw [front_eq, if_neg hh] at hr
    rw [dif_neg (by omega), h.announcedLen_rbuf (Nat.not_lt.mp hh)]
    split at hr
    · cases hr
    · next hp =>
      split at hr
      · simp only [if_neg hp]
        rw [if_pos (by omega)]
      · cases hr

/-- The loop releases the slot at a refused header. -/
theorem Holds.parseLoop_refused (h : Holds srv s fd c r) (hr : frameFormat.front r = .refused)
    (env : Env) : parseLoop env s srv = srv.disconnectClient env s := by
  have hlen := h.rbufLen_eq
  rw [front_eq] at hr
  split at hr
  · cases hr
  · next hh =>
    split at hr
    · next hp =>
      rw [parseLoop]
      simp only [h.announcedLen_rbuf (Nat.not_lt.mp hh), if_pos hp]
      rw [dif_neg (by omega)]
    · split at hr <;> cases hr

/-- A released slot has nothing to process, whatever its fill level became. -/
theorem parseLoop_of_lt {env : Env} (h : (srv.clients s).rbufLen < headerSize) :
    parseLoop env s srv = srv := by
  rw [parseLoop]
  exact dif_pos h

/-- The messages carried by frames, as the trace records them. -/
def processedEvents (c : Nat) (fs : List (List UInt8)) : List Event :=
  (fs.filterMap unpackMessage).map (.processed (some c))

/-- What the loop does to a slot in use: it passes on the frames through the first
logout, and releases the slot after a logout or at a refused header. -/
theorem Holds.parseLoop (h : Holds srv s fd c r) (env : Env) :
    let through := receiver.through (frameFormat.cut r).1
    let left := if through.2 || (frameFormat.front (frameFormat.cut r).2).isRefused then none
      else some (frameFormat.cut r).2
    Elsewhere s fd srv (parseLoop env s srv) ∧ Outcome (parseLoop env s srv) s fd c left ∧
      (parseLoop env s srv).inputLog = srv.inputLog ++ processedEvents c through.1 ++
        if left.isNone then [.closed (some c)] else [] := by
  induction r using frameFormat.stream_induction generalizing srv with
  | frame f t hf ih =>
    obtain ⟨m, hm⟩ := exists_unpack_of_isFrame hf
    have hdis : srv.dispatch env s f = srv.processMessage env s m := by
      rw [Server.dispatch, hm]
    rw [h.parseLoop_frame hf, hdis, Framing.cut_append hf]
    by_cases hout : m.kind = some .logout
    · have hlast : receiver.last f = true := by
        simp [receiver, isLogout, hm, hout]
      obtain ⟨h1, h2, h3, h4⟩ := h.logout env hout
      have hstop : Epoll.parseLoop env s ((srv.processMessage env s m).consume s f.length) =
          (srv.processMessage env s m).consume s f.length := by
        refine parseLoop_of_lt ?_
        rw [Server.rbufLen_consume, h4]
        change (0 : Int) - _ < _
        have : 0 < headerSize := by decide
        omega
      simp only [hstop, through, hlast, if_true, Bool.true_or]
      refine ⟨h1.trans (elsewhere_setClient _ _ _ _), ⟨?_, ?_, h2.conn⟩, ?_⟩
      · rw [Server.inUse_consume]
        exact h2.inUse
      · rw [Server.fd_consume]
        exact h2.fd_eq
      · change (srv.processMessage env s m).inputLog = _
        rw [h3]
        simp [processedEvents, hm]
    · have hlast : receiver.last f = false := by
        simp [receiver, isLogout, hm, hout]
      have hq := quiet_processMessage srv env s hout
      rw [h.connOf] at hq
      have hb := (((h.note (.processed (some c) m)).quiet hq)).consume
      obtain ⟨h1, h2, h3⟩ := ih hb
      have hlog : ((srv.processMessage env s m).consume s f.length).inputLog =
          srv.inputLog ++ [.processed (some c) m] := by
        change (srv.processMessage env s m).inputLog = _
        rw [hq.inputLog, inputLog_note rfl]
      simp only [through, hlast, Bool.false_eq_true, if_false]
      refine ⟨?_, h2, ?_⟩
      · exact (((elsewhere_note _ _ _ _).trans (hq.elsewhere s fd)).trans
          (elsewhere_setClient _ _ _ _)).trans h1
      · rw [h3, hlog]
        simp [processedEvents, hm]
  | rest r hr =>
    rw [Framing.cut_of_not_frame hr]
    have hth : receiver.through ([] : List (List UInt8)) = ([], false) := rfl
    simp only [hth, Bool.false_or]
    cases hfront : frameFormat.front r with
    | frame f t => exact absurd hfront (hr f t)
    | short =>
      rw [h.parseLoop_short hfront]
      refine ⟨(Quiet.refl srv).elsewhere s fd, h, ?_⟩
      simp [processedEvents, Framing.Front.isRefused]
    | refused =>
      rw [h.parseLoop_refused hfront]
      obtain ⟨h1, h2, h3⟩ := h.disconnectClient env
      refine ⟨h1, h2, ?_⟩
      simpa [processedEvents, Framing.Front.isRefused] using h3

/-! ## The handlers -/

/-- An event of a connection did to its slot what the receiver does with the arrival. -/
structure Fed (a b : Server) (s : Slot) (fd c : Nat) (r data : List UInt8) (ending : Ending) :
    Prop where
  elsewhere : Elsewhere s fd a b
  outcome : Outcome b s fd c (receiver.feed r ⟨data, ending.isOver⟩).2
  log : b.inputLog = a.inputLog ++ .arrived (some c) data ending ::
    (processedEvents c (receiver.feed r ⟨data, ending.isOver⟩).1 ++
      if (receiver.feed r ⟨data, ending.isOver⟩).2.isNone then [.closed (some c)] else [])

theorem Holds.setClient (h : Holds srv s fd c r) {d : Client}
    (hd : SameButInput (srv.clients s) d) (hok : d.BufOk) :
    Holds (srv.setClient s d) s fd c d.received := by
  have hself : (srv.setClient s d).clients s = d := Function.update_self ..
  exact ⟨by rw [hself, hd.inUse, h.inUse], by rw [hself, hd.fd, h.fd_eq], h.conn,
    by rwa [hself], by rw [hself]⟩

/-- Giving up: the arrival is recorded and the slot released. -/
theorem fed_of_full {b : Server} {data : List UInt8} {ending : Ending}
    (hfull : ending.isOver = true ∨ rbufSize ≤ (r ++ data).length) (h1 : Elsewhere s fd srv b)
    (h2 : Freed b s fd)
    (h3 : b.inputLog = srv.inputLog ++ [.arrived (some c) data ending] ++ [.closed (some c)]) :
    Fed srv b s fd c r data ending := by
  have hfeed : receiver.feed r ⟨data, ending.isOver⟩ = ([], none) := feed_of_full hfull
  refine ⟨h1, by rw [hfeed]; exact h2, ?_⟩
  rw [hfeed, h3, List.append_assoc]
  rfl

/-- Recording an arrival and disconnecting. -/
theorem Holds.disconnect_arrived (h : Holds srv s fd c r) (env : Env) (data : List UInt8)
    {ending : Ending} (hover : ending.isOver = true) :
    Fed srv ((srv.note (.arrived (some c) data ending)).disconnectClient env s) s fd c r data
      ending := by
  obtain ⟨h1, h2, h3⟩ := (h.note (.arrived (some c) data ending)).disconnectClient env
  rw [inputLog_note rfl] at h3
  exact fed_of_full (Or.inl hover) ((elsewhere_note _ _ _ _).trans h1) h2 h3

/-- `handle_read` feeds the receiver of the slot. -/
theorem Holds.handleRead (h : Holds srv s fd c r) (hfind : srv.findByFd fd = some s) (env : Env)
    (b : Burst) : Fed srv (srv.handleRead env fd b) s fd c r b.data (.read b.ending) := by
  have k1 := readLoop_same (srv.clients s) b.data b.sizes
  obtain ⟨k2, k3, k4⟩ := readLoop_spec h.bufOk b.data b.sizes
  rw [h.received] at k3 k4
  obtain ⟨a, ha⟩ : ∃ a, a = (srv.note (.arrived (some c) b.data (.read b.ending))).setClient s
    (readLoop (srv.clients s) b.data b.sizes).2 := ⟨_, rfl⟩
  have hread : srv.handleRead env fd b =
      if (readLoop (srv.clients s) b.data b.sizes).1 then a.disconnectClient env s
      else a.endRead env s b.ending := by
    rw [Server.handleRead, ha]
    simp only [hfind, h.connOf]
    rfl
  have hold : Holds a s fd c (readLoop (srv.clients s) b.data b.sizes).2.received :=
    ha ▸ (h.note _).setClient k1 k2
  have helse : Elsewhere s fd srv a :=
    ha ▸ (elsewhere_note _ _ _ _).trans (elsewhere_setClient _ _ _ _)
  have hlog : a.inputLog = srv.inputLog ++ [.arrived (some c) b.data (.read b.ending)] :=
    ha ▸ inputLog_note rfl
  obtain ⟨d1, d2, d3⟩ := hold.disconnectClient env
  rw [hlog] at d3
  rw [hread]
  split
  · next hfull => exact fed_of_full (Or.inr (k3.mp hfull)) (helse.trans d1) d2 d3
  · next hfull =>
    rw [Bool.not_eq_true] at hfull
    cases hend : b.ending with
    | eof =>
      rw [hend] at d3
      exact fed_of_full (Or.inl rfl) (helse.trans d1) d2 d3
    | failed =>
      rw [hend] at d3
      exact fed_of_full (Or.inl rfl) (helse.trans d1) d2 d3
    | again =>
      rw [k4 hfull] at hold
      rw [hend] at hlog
      have hroom : ¬ ((Ending.read .again).isOver = true ∨
          receiver.capacity ≤ (r ++ b.data).length) := by
        rw [← show rbufSize = receiver.capacity from rfl, ← k3, hfull]
        decide
      obtain ⟨e1, e2, e3⟩ := hold.parseLoop env
      refine ⟨helse.trans e1, ?_, ?_⟩
      · rw [feed, if_neg hroom]
        exact e2
      · rw [feed, if_neg hroom]
        change (Epoll.parseLoop env s a).inputLog = _
        rw [e3, hlog]
        simp only [List.append_assoc, List.cons_append, List.nil_append]
        rfl

/-- A hang-up ends the input of the slot. -/
theorem Holds.hangup (h : Holds srv s fd c r) (hfind : srv.findByFd fd = some s) (env : Env)
    (unread : List UInt8) : Fed srv (srv.hangup env fd unread) s fd c r unread .hangup := by
  have he : srv.hangup env fd unread =
      (srv.note (.arrived (some c) unread .hangup)).disconnectClient env s := by
    rw [Server.hangup]
    simp only [hfind, h.connOf]
  rw [he]
  exact h.disconnect_arrived env unread rfl

/-- A flush only touches outgoing data. -/
theorem outputOnly_sbFlush (srv : Server) (s : Slot) (fd : Nat) :
    OutputOnly srv (srv.sbFlush s fd).2 := by
  obtain ⟨h1, -, h2⟩ := Kernel.writeAll_frame srv.kernel fd (srv.clients s).sbuf.pending
  exact (OutputOnly.setKernel srv h1 h2).trans (OutputOnly.setSbuf _ s _)

/-- `handle_write` leaves all input alone, unless the flush fails. -/
theorem Holds.handleWrite (h : Holds srv s fd c r) (hfind : srv.findByFd fd = some s) (env : Env)
    (unread : List UInt8) : Quiet srv (srv.handleWrite env fd unread) ∨
      Fed srv (srv.handleWrite env fd unread) s fd c r unread .writeError := by
  have hq := (outputOnly_sbFlush srv s fd).toQuiet
  have hflush := h.quiet hq
  obtain ⟨⟨stop, a⟩, ha⟩ : ∃ x, srv.sbFlush s fd = x := ⟨_, rfl⟩
  rw [ha] at hq hflush
  rw [Server.handleWrite]
  simp only [hfind, ha]
  cases stop with
  | done =>
    exact Or.inl (hq.trans (OutputOnly.setKernel a (Kernel.epmod_conn ..)
      (Kernel.epmod_accepted ..)).toQuiet)
  | again => exact Or.inl hq
  | failed =>
    refine Or.inr ?_
    obtain ⟨h1, h2, h3⟩ := hflush.disconnect_arrived env unread (show Ending.writeError.isOver = true
      from rfl)
    simp only [hflush.connOf]
    exact ⟨(hq.elsewhere s fd).trans h1, h2, by rw [h3, hq.inputLog]⟩

end ChatSystem.Epoll
