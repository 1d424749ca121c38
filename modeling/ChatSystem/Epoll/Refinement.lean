import ChatSystem.Chat.Reading
import ChatSystem.Epoll.Relays

/-!
# The epoll server is a room

Every wake-up of the event loop, with its descriptors, buffers and partial transfers, does what
a room does at some events: an accepted connection, the requests completed by the bytes that
arrived, the end of a connection.
-/

namespace ChatSystem.Epoll

open Chat Transition Simulation

/-- A message handed over to a connection, as its receiver reads it. -/
def Event.parcel : Event → Option (Nat × Message)
  | .queued (some c) m _ => some (c, canonical m)
  | _ => none

/-- A message routed for a connection. -/
def Event.asked : Event → Option (Nat × Message)
  | .processed (some c) m => some (c, m)
  | _ => none

namespace Server

variable (srv : Server)

/-- The server between two events, without buffers and descriptors. -/
def room : Room := ⟨srv.table, srv.connOf, srv.kernel.accepted, srv.history⟩

/-- The requests routed so far. -/
def asked : List (Nat × Message) := srv.log.filterMap Event.asked

/-- The messages handed over so far. -/
def sent : List (Nat × Message) := srv.log.filterMap Event.parcel

end Server

/-- The epoll server read as a room. -/
def asRoom : Reading Server Room Chat.Event Sent (Nat × Message) (Nat × Message) :=
  reading .epoll Server.room Server.asked Server.sent

/-- The server became a given room and handed over given messages. -/
structure Serves (a b : Server) (room : Room) (out : List Sent) : Prop where
  room : b.room = room
  asked : b.asked = a.asked
  sent : b.sent = a.sent ++ out.map Sent.parcel

variable {a b c' srv t : Server} {env : Env} {s : Slot} {m : Message} {c fd : Nat}
  {r r' : Room} {out out' : List Sent}

/-! ## Handing over -/

theorem Serves.trans (h : Serves a b r out) (k : Serves b c' r' out') :
    Serves a c' r' (out ++ out') :=
  ⟨k.room, k.asked.trans h.asked, by rw [k.sent, h.sent, List.map_append, List.append_assoc]⟩

/-- A change that only shows in the room. -/
theorem serves_of_log (hroom : b.room = r) (hlog : b.log = a.log) : Serves a b r [] :=
  ⟨hroom, by rw [Server.asked, hlog, Server.asked], by rw [Server.sent, hlog]; simp [Server.sent]⟩

theorem OutputOnly.room (h : OutputOnly a b) : b.room = a.room := by
  have hconn : b.connOf = a.connOf := funext h.connOf
  rw [Server.room, Server.room, h.table, hconn, h.accepted, h.history]

/-- Calls of `slot_send` for some slots hand over copies to their connections. -/
theorem parcels_of_calls {js : List Slot} {evs : List Event} (via : Via)
    (h : List.Forall₂ (fun j e => ∃ n, e = .queued (a.connOf j) m n) js evs) :
    evs.filterMap Event.parcel = (a.room.copies js via m).map Sent.parcel ∧
      evs.filterMap Event.asked = [] := by
  induction h with
  | nil => exact ⟨rfl, rfl⟩
  | @cons j e js evs he hevs ih =>
    obtain ⟨n, rfl⟩ := he
    obtain ⟨hsent, hasked⟩ := ih
    refine ⟨?_, hasked⟩
    have hconn : a.room.conn j = a.connOf j := rfl
    rw [Room.copies] at hsent ⊢
    cases hc : a.connOf j with
    | none =>
      rw [List.filterMap_cons_none (by rfl), List.filterMap_cons_none (by rw [hconn, hc]; rfl)]
      exact hsent
    | some d =>
      rw [List.filterMap_cons_some (by rfl), List.filterMap_cons_some (by rw [hconn, hc]; rfl),
        hsent]
      rfl

theorem serves_of_calls {js : List Slot} {evs : List Event} (via : Via) (hroom : b.room = a.room)
    (hlog : b.log = a.log ++ evs)
    (h : List.Forall₂ (fun j e => ∃ n, e = .queued (a.connOf j) m n) js evs) :
    Serves a b a.room (a.room.copies js via m) := by
  obtain ⟨hsent, hasked⟩ := parcels_of_calls via h
  refine ⟨hroom, ?_, ?_⟩
  · rw [Server.asked, hlog, List.filterMap_append, hasked, List.append_nil]
    rfl
  · rw [Server.sent, hlog, List.filterMap_append, hsent]
    rfl

theorem serves_slotSend (a : Server) (s : Slot) (m : Message) (via : Via) :
    Serves a (a.slotSend s m) a.room (a.room.copies [s] via m) :=
  serves_of_calls via (OutputOnly.slotSend a s m).room (log_slotSend a s m)
    (.cons ⟨_, rfl⟩ .nil)

theorem serves_sendOthers (a : Server) (s : Slot) (m : Message) (via : Via) :
    Serves a (a.sendOthers s m) a.room (a.room.copies (a.room.others s) via m) := by
  obtain ⟨evs, hlog, hevs⟩ := log_sendOthers a s m
  have hothers : a.others s = a.room.others s := by
    rw [Server.others, Room.others]
    apply List.filter_congr
    intro i _
    simp only [Bool.decide_and, Bool.decide_eq_true]
    rfl
  rw [hothers] at hevs
  exact serves_of_calls via (OutputOnly.sendOthers a s m).room hlog hevs

/-! ## Login data and slots -/

theorem room_setClient {d : Client} (h : SameButInput (a.clients s) d) :
    (a.setClient s d).room = a.room := by
  have hsame := sameButRead_setClient h
  have hconn : (a.setClient s d).connOf = a.connOf := funext hsame.connOf
  rw [Server.room, Server.room, hsame.table, hconn, hsame.kernel, hsame.history]

theorem room_setEntry (a : Server) (s : Slot) (e : Entry) :
    (a.setEntry s e).room = a.room.setEntry s e := by
  have hconn : (a.setEntry s e).connOf = a.connOf := funext (Quiet.setEntry a s e).connOf
  rw [Server.room, Server.table_setEntry, hconn]
  rfl

theorem serves_setEntry (a : Server) (s : Slot) (e : Entry) :
    Serves a (a.setEntry s e) (a.room.setEntry s e) [] :=
  serves_of_log (room_setEntry a s e) rfl

/-- Overwriting the login data of a slot and answering. -/
theorem serves_setEntry_reply (a : Server) (s : Slot) (e : Entry) (m : Message) :
    Serves a ((a.setEntry s e).slotSend s m) (a.room.setEntry s e) (a.room.reply s m) := by
  have hsend := serves_slotSend (a.setEntry s e) s m .reply
  rw [room_setEntry] at hsend
  exact (serves_setEntry a s e).trans hsend

/-- Releasing a slot in use for a connection. -/
theorem OutputOk.room_release (h : OutputOk a) (hs : a.connOf s = some c) :
    (a.release s).room = a.room.release .epoll s := by
  have hconn : (a.release s).connOf = Function.update a.connOf s none := by
    ext i : 1
    by_cases hi : i = s
    · subst hi
      rw [Function.update_self, Server.connOf, Server.clients_release, Function.update_self]
      exact (outputOk_closed.release i h).zero
    · have hd : (a.clients i).fd ≠ (a.clients s).fd := by
        intro hd
        apply hi
        apply h.inj i s c _ hs
        rw [← hs, Server.connOf, hd, Server.connOf]
      rw [Function.update_of_ne hi, Server.connOf, Server.clients_release,
        Function.update_of_ne hi]
      exact Function.update_of_ne hd ..
  rw [Server.room, Server.table_release, hconn]
  rfl

theorem OutputOk.serves_release (h : OutputOk a) (hs : a.connOf s = some c) :
    Serves a (a.release s) (a.room.release .epoll s) [] :=
  serves_of_log (h.room_release hs) rfl

theorem OutputOk.slotOf (h : OutputOk a) (hs : a.connOf s = some c) :
    a.room.slotOf c = some s := by
  cases hfind : a.room.slotOf c with
  | none => exact absurd hs (conn_ne_of_slotOf hfind s)
  | some i => rw [h.inj i s c (conn_of_slotOf hfind) hs]

/-! ## One message -/

theorem serves_note {e : Event} (hsaid : e.parcel = none) (hasked : e.asked = none) :
    Serves a (a.note e) a.room [] := by
  refine ⟨rfl, ?_, ?_⟩
  · rw [Server.asked, Server.note, List.filterMap_append, List.filterMap_cons_none hasked]
    exact List.append_nil _
  · rw [Server.sent, Server.note, List.filterMap_append, List.filterMap_cons_none hsaid]
    rfl

theorem serves_login (a : Server) (env : Env) (s : Slot) (m : Message) :
    Serves a (a.login env s m) (a.room.login .epoll env s m).1 (a.room.login .epoll env s m).2 := by
  unfold Server.login Room.login
  cases scanLogin m.payload.toList with
  | none => exact serves_slotSend a s _ .reply
  | some up =>
    obtain ⟨u, p⟩ := up
    simp only
    have htaken : a.room.taken .epoll s u = (a.findByUser u).isSome := rfl
    rw [htaken]
    split
    · exact serves_slotSend a s _ .reply
    · split
      · exact serves_slotSend a s _ .reply
      · exact serves_setEntry_reply a s _ _

/-- Notices to the other slots, in the words of the room. -/
theorem serves_bcastNote (a : Server) (env : Env) (s : Slot) (note : List UInt8) :
    Serves a (a.bcastNote env s note) a.room
      (a.room.copies (a.room.others s) .notice (notice env.now note)) :=
  serves_sendOthers a s _ .notice

theorem release_setEntry (room : Room) (s : Slot) (e : Entry) :
    (room.setEntry s e).release .epoll s = room.release .epoll s := by
  unfold Room.release Room.setEntry Flavour.released
  simp only [Function.update_idem]

theorem OutputOk.serves_logout (h : OutputOk a) (hu : (a.clients s).inUse = true)
    (hs : a.connOf s = some c) (env : Env) :
    Serves a (a.logout env s) (a.room.logout .epoll env s).1 (a.room.logout .epoll env s).2 := by
  have hclear := outputOk_closed.handled.clear s h
  obtain ⟨d, hd⟩ : ∃ d, d = a.setEntry s (a.clients s).clear := ⟨_, rfl⟩
  rw [← hd] at hclear
  have hroom : d.room = a.room.setEntry s (a.clients s).clear := hd ▸ room_setEntry a s _
  obtain ⟨n, hn⟩ : ∃ n, n = d.bcastNote env s (leftNote (a.clients s).name) := ⟨_, rfl⟩
  have hquiet : OutputOnly d n := hn ▸ OutputOnly.bcastNote d env s _
  have hfirst : Serves a d _ [] := hd ▸ serves_setEntry a s _
  have hsecond : Serves d n _ _ := hn ▸ serves_bcastNote d env s _
  have hout : OutputOk n := hn ▸ outputOk_closed.handled.sendOthers s _ hclear
  have hconn : n.connOf s = some c := by
    rw [hquiet.connOf, hd, ← hs]
    exact (Quiet.setEntry a s _).connOf s
  have huse : (n.clients s).inUse = true := by
    rw [hquiet.inUse, hd, ← hu]
    exact (Quiet.setEntry a s _).inUse s
  have hactive : (n.clients s).active = false := by
    have hentry := hquiet.entry s
    rw [show (n.clients s).active = (n.clients s).toEntry.active from rfl, hentry, hd]
    simp only [Server.setEntry, Server.setClient, Function.update_self]
    rfl
  have hthird : Serves n (n.disconnectClient env s) (n.room.release .epoll s) [] := by
    rw [Server.disconnectClient, if_neg (by simp [huse])]
    simp only [hactive, Bool.false_eq_true, if_false]
    have hnote := serves_note (a := n) (e := .closed (n.connOf s)) rfl rfl
    exact hnote.trans (OutputOk.serves_release (outputOk_closed.handled.note rfl hout) hconn)
  have hall := (hfirst.trans hsecond).trans hthird
  rw [hquiet.room, hroom, release_setEntry, others_setEntry_self, List.nil_append,
    List.append_nil] at hall
  rw [Server.logout, ← hd, ← hn]
  exact hall

theorem serves_broadcast (a : Server) (env : Env) (s : Slot) (m : Message) :
    Serves a (a.broadcast env s m) (a.room.broadcast env s m).1 (a.room.broadcast env s m).2 := by
  unfold Server.broadcast Room.broadcast
  have hactive : (a.room.table s).active = (a.clients s).active := rfl
  rw [hactive]
  split
  · exact serves_slotSend a s _ .reply
  · obtain ⟨d, hd⟩ : ∃ d : Server, d = { a with history := a.history.save env.host m [] } :=
      ⟨_, rfl⟩
    have hsave : Serves a d (a.room.save env m []) [] :=
      serves_of_log (by rw [hd]; rfl) (by rw [hd])
    have hrelay := serves_sendOthers d s m .relay
    have hreply := serves_slotSend (d.sendOthers s m) s (relayed env.now m) .reply
    rw [(OutputOnly.sendOthers d s m).room] at hreply
    rw [hsave.room] at hrelay hreply
    rw [← hd]
    exact (hsave.trans hrelay).trans hreply

theorem serves_priv (a : Server) (env : Env) (s : Slot) (m : Message) :
    Serves a (a.priv env s m) (a.room.priv env s m).1 (a.room.priv env s m).2 := by
  unfold Server.priv Room.priv
  have hactive : (a.room.table s).active = (a.clients s).active := rfl
  rw [hactive]
  split
  · exact serves_slotSend a s _ .reply
  · have hfind : findName a.room.table m.receiver.toList = a.findByUser m.receiver.toList := rfl
    rw [hfind]
    cases a.findByUser m.receiver.toList with
    | none => exact serves_slotSend a s _ .reply
    | some k =>
      simp only
      obtain ⟨d, hd⟩ : ∃ d : Server,
          d = { a with history := a.history.save env.host m m.receiverStr } := ⟨_, rfl⟩
      have hsave : Serves a d (a.room.save env m m.receiverStr) [] :=
        serves_of_log (by rw [hd]; rfl) (by rw [hd])
      have hrelay := serves_slotSend d k m .relay
      have hreply := serves_slotSend (d.slotSend k m) s (relayed env.now m) .reply
      rw [(OutputOnly.slotSend d k m).room] at hreply
      rw [hsave.room] at hrelay hreply
      rw [← hd]
      exact (hsave.trans hrelay).trans hreply

/-- The message processor routes as the room does. -/
theorem OutputOk.serves_processMessage (h : OutputOk a) (hu : (a.clients s).inUse = true)
    (hs : a.connOf s = some c) (env : Env) (m : Message) :
    Serves (a.note (.processed (some c) m)) (a.processMessage env s m)
      (a.room.route .epoll env s m).1 (a.room.route .epoll env s m).2 := by
  obtain ⟨n, hn⟩ : ∃ n, n = a.note (.processed (some c) m) := ⟨_, rfl⟩
  have hout : OutputOk n := hn ▸ outputOk_closed.handled.note rfl h
  have hroom : a.room = n.room := by
    rw [hn]
    rfl
  unfold Server.processMessage Room.route
  simp only [hs, ← hn]
  rw [hroom]
  cases m.kind with
  | none => exact serves_slotSend n s _ .reply
  | some k =>
    cases k with
    | login => exact serves_login n env s m
    | logout => exact hout.serves_logout (by rw [hn]; exact hu) (by rw [hn]; exact hs) env
    | broadcast => exact serves_broadcast n env s m
    | priv => exact serves_priv n env s m
    | statusChange => exact serves_setEntry_reply n s _ _
    | _ => exact serves_slotSend n s _ .reply
/-! ## One wake-up -/

/-- `disconnect_client` is the end of the connection. -/
theorem OutputOk.matches_disconnect (h : OutputOk a) (hu : (a.clients s).inUse = true)
    (hs : a.connOf s = some c) (env : Env) :
    asRoom.Matches a (a.disconnectClient env s) [.close c ⟨env, [], false⟩] := by
  have hslot := h.slotOf hs
  obtain ⟨n, hn⟩ : ∃ n, n = a.note (.closed (a.connOf s)) := ⟨_, rfl⟩
  have hnote : Serves a n a.room [] := hn ▸ serves_note rfl rfl
  have hout : OutputOk n := hn ▸ outputOk_closed.handled.note rfl h
  have hserve : Serves a (a.disconnectClient env s) (a.room.close .epoll c ⟨env, [], false⟩).1
      (a.room.close .epoll c ⟨env, [], false⟩).2 := by
    rw [Server.disconnectClient, if_neg (by simp [hu]), Room.close, hslot]
    simp only [Room.partings, ← hn]
    have hactive : (a.room.table s).active = (a.clients s).active := rfl
    have hconn : n.connOf s = some c := by
      rw [← hs, hn]
      rfl
    rw [hactive]
    split
    · obtain ⟨d, hd⟩ : ∃ d, d = n.bcastNote env s (disconnectedNote (a.clients s).name) := ⟨_, rfl⟩
      have hquiet : OutputOnly n d := hd ▸ OutputOnly.bcastNote n env s _
      have hsend : Serves n d _ _ := hd ▸ serves_bcastNote n env s _
      have hlast := OutputOk.serves_release
        (hd ▸ outputOk_closed.handled.sendOthers s _ hout : OutputOk d)
        ((hquiet.connOf s).trans hconn)
      rw [← hd]
      rw [hquiet.room] at hlast
      rw [hnote.room] at hsend hlast
      have hall := (hnote.trans hsend).trans hlast
      rw [List.nil_append, List.append_nil] at hall
      exact hall
    · have hlast := hout.serves_release hconn
      rw [hnote.room] at hlast
      exact hnote.trans hlast
  exact matches_event hserve.room (hserve.asked.trans (List.append_nil _).symm) hserve.sent

/-- One call of `process_message` is a request. -/
theorem OutputOk.matches_processMessage (h : OutputOk a) (hu : (a.clients s).inUse = true)
    (hs : a.connOf s = some c) (env : Env) (q : Request) :
    asRoom.Matches a (a.processMessage env s q.val) [.request c q env] := by
  have hserve := h.serves_processMessage hu hs env q.val
  have hslot := h.slotOf hs
  have hrequest : serve .epoll a.room (.request c q env) = a.room.route .epoll env s q.val := by
    rw [serve, Room.request, hslot]
  apply matches_event
  · rw [hrequest]
    exact hserve.room
  · refine hserve.asked.trans ?_
    rw [Server.asked, Server.note, List.filterMap_append]
    rfl
  · rw [hrequest]
    refine hserve.sent.trans ?_
    rw [Server.sent, Server.note, List.filterMap_append]
    simp [Event.parcel, Server.sent]

theorem matches_of_same (hroom : b.room = a.room) (hlog : b.log = a.log) :
    asRoom.Matches a b [] :=
  .of_same hroom (congrArg (List.filterMap Event.asked) hlog)
    (congrArg (List.filterMap Event.parcel) hlog)

/-- What the processing loop does is a list of requests, and the end of the connection at a
refused header. -/
theorem Holds.matches_parseLoop {r : List UInt8} (h : Holds a s fd c r) (hout : OutputOk a)
    (env : Env) : ∃ es, (∀ e ∈ es, e.env = env) ∧ asRoom.Matches a (Epoll.parseLoop env s a) es := by
  induction r using frameFormat.stream_induction generalizing a with
  | frame f t hf ih =>
    obtain ⟨m, hm⟩ := exists_unpack_of_isFrame hf
    have hdis : a.dispatch env s f = a.processMessage env s m := by
      rw [Server.dispatch, hm]
    rw [h.parseLoop_frame hf, hdis]
    have hfirst := hout.matches_processMessage h.inUse h.connOf env ⟨m, f, hf, hm⟩
    have hconsume : asRoom.Matches (a.processMessage env s m)
        ((a.processMessage env s m).consume s f.length) [] :=
      matches_of_same (room_setClient ⟨rfl, rfl, rfl, rfl⟩) rfl
    have hturn := hfirst.trans hconsume
    by_cases hlogout : m.kind = some .logout
    · obtain ⟨-, -, -, hzero⟩ := h.logout env hlogout
      have hstop : Epoll.parseLoop env s ((a.processMessage env s m).consume s f.length) =
          (a.processMessage env s m).consume s f.length := by
        apply parseLoop_of_lt
        rw [Server.rbufLen_consume, hzero]
        change (0 : Int) - _ < _
        have : 0 < headerSize := by decide
        omega
      rw [hstop]
      exact ⟨_, by simp [Chat.Event.env], hturn⟩
    · have hquiet := quiet_processMessage a env s hlogout
      have hnext := ((h.note (.processed (a.connOf s) m)).quiet hquiet).consume
      have hok := outputOk_closed.handled.processMessage h.inUse env m hout
      obtain ⟨es, henv, hes⟩ := ih hnext (outputOk_closed.handled.input ⟨rfl, rfl, rfl, rfl⟩ hok)
      refine ⟨_, ?_, hturn.trans hes⟩
      intro e he
      rcases List.mem_append.mp he with he | he
      · rw [List.append_nil, List.mem_singleton] at he
        rw [he]
        rfl
      · exact henv e he
  | rest r hr =>
    cases hfront : frameFormat.front r with
    | frame f t => exact absurd hfront (hr f t)
    | short =>
      rw [h.parseLoop_short hfront]
      exact ⟨[], by simp, .refl a⟩
    | refused =>
      rw [h.parseLoop_refused hfront]
      exact ⟨_, by simp [Chat.Event.env], hout.matches_disconnect h.inUse h.connOf env⟩
/-- Filling the buffer of a slot does not show. -/
theorem matches_filled (a : Server) (s : Slot) (b : Burst) :
    asRoom.Matches a (a.filled s b) [] := by
  have hnote := serves_note (a := a) (e := .arrived (a.connOf s) b.data (.read b.ending)) rfl rfl
  have hroom : (a.filled s b).room = a.room :=
    room_setClient (a := a.note (.arrived (a.connOf s) b.data (.read b.ending)))
      (readLoop_same (a.clients s) b.data b.sizes)
  exact .of_same hroom hnote.asked (hnote.sent.trans (List.append_nil _))

theorem matches_handleRead (hinv : Inv a) (hout : OutputOk a) (env : Env) (fd : Nat) (b : Burst) :
    ∃ es, (∀ e ∈ es, e.env = env) ∧ asRoom.Matches a (a.handleRead env fd b) es := by
  cases hfind : a.findByFd fd with
  | none =>
    rw [Server.handleRead, hfind]
    exact ⟨[], by simp, .refl a⟩
  | some s =>
    obtain ⟨c, r, hold⟩ := hinv.holds_of_findByFd hfind
    have hfill := matches_filled a s b
    have hok := outputOk_closed.handled.filled s b hout
    have hend := hok.matches_disconnect ((a.inUse_filled s b).trans hold.inUse)
      (((sameButRead_filled a s b).connOf s).trans hold.connOf) env
    have hread : a.handleRead env fd b =
        if (readLoop (a.clients s) b.data b.sizes).1 then (a.filled s b).disconnectClient env s
        else (a.filled s b).endRead env s b.ending := by
      rw [Server.handleRead, hfind]
      rfl
    rw [hread]
    split
    · exact ⟨_, by simp [Chat.Event.env], hfill.trans hend⟩
    · next hroom =>
      unfold Server.endRead
      split
      · obtain ⟨es, henv, hes⟩ :=
          (hold.filled b (by simpa using hroom)).matches_parseLoop hok env
        exact ⟨_, henv, hfill.trans hes⟩
      · exact ⟨_, by simp [Chat.Event.env], hfill.trans hend⟩

/-- Recording what was left unread and disconnecting is the end of the connection. -/
theorem matches_arrived_disconnect (hout : OutputOk a) (hu : (a.clients s).inUse = true)
    (hs : a.connOf s = some c) (env : Env) (unread : List UInt8) (ending : Ending) :
    asRoom.Matches a ((a.note (.arrived (a.connOf s) unread ending)).disconnectClient env s)
      [.close c ⟨env, [], false⟩] := by
  have hnote := serves_note (a := a) (e := .arrived (a.connOf s) unread ending) rfl rfl
  have hfirst : asRoom.Matches a (a.note (.arrived (a.connOf s) unread ending)) [] :=
    .of_same hnote.room hnote.asked (hnote.sent.trans (List.append_nil _))
  exact hfirst.trans (OutputOk.matches_disconnect
    (outputOk_closed.handled.note rfl hout) hu hs env)

theorem matches_hangup (hinv : Inv a) (hout : OutputOk a) (env : Env) (fd : Nat)
    (unread : List UInt8) :
    ∃ es, (∀ e ∈ es, e.env = env) ∧ asRoom.Matches a (a.hangup env fd unread) es := by
  unfold Server.hangup
  cases hfind : a.findByFd fd with
  | none => exact ⟨[], by simp, .refl a⟩
  | some s =>
    obtain ⟨c, r, hold⟩ := hinv.holds_of_findByFd hfind
    exact ⟨_, by simp [Chat.Event.env],
      matches_arrived_disconnect hout hold.inUse hold.connOf env unread .hangup⟩

theorem matches_handleWrite (hinv : Inv a) (hout : OutputOk a) (env : Env) (fd : Nat)
    (unread : List UInt8) :
    ∃ es, (∀ e ∈ es, e.env = env) ∧ asRoom.Matches a (a.handleWrite env fd unread) es := by
  unfold Server.handleWrite
  cases hfind : a.findByFd fd with
  | none => exact ⟨[], by simp, .refl a⟩
  | some s =>
    obtain ⟨c, r, hold⟩ := hinv.holds_of_findByFd hfind
    have hquiet := outputOnly_sbFlush a s fd
    have hflush : asRoom.Matches a (a.sbFlush s fd).2 [] :=
      matches_of_same hquiet.room (log_sbFlush a s fd)
    have hok : OutputOk (a.sbFlush s fd).2 := by
      have h := hout.sbFlush s
      rwa [hold.fd_eq] at h
    obtain ⟨⟨stop, b⟩, hb⟩ : ∃ x, a.sbFlush s fd = x := ⟨_, rfl⟩
    rw [hb] at hquiet hflush hok
    simp only [hb]
    cases stop with
    | done =>
      have harm : asRoom.Matches b { b with kernel := b.kernel.epmod fd false } [] :=
        matches_of_same (OutputOnly.setKernel b (Kernel.epmod_conn ..)
          (Kernel.epmod_accepted ..)).room rfl
      exact ⟨_, by simp, hflush.trans harm⟩
    | again => exact ⟨_, by simp, hflush⟩
    | failed =>
      have hend := matches_arrived_disconnect hok ((hquiet.inUse s).trans hold.inUse)
        ((hquiet.connOf s).trans hold.connOf) env unread .writeError
      exact ⟨_, by simp [Chat.Event.env], hflush.trans hend⟩

/-- The search for a free slot, in the words of the room. -/
theorem Inv.findFree_eq (h : Inv a) :
    a.findFree = firstSlot fun i => (a.room.conn i).isNone := by
  rw [Server.findFree]
  congr 1
  ext i : 1
  have hconn : a.room.conn i = a.connOf i := rfl
  cases hu : (a.clients i).inUse with
  | true =>
    obtain ⟨fd, c, r, hold⟩ := h.holds i hu
    rw [hconn, hold.connOf]
    rfl
  | false =>
    rw [hconn, Server.connOf, h.idle i hu, h.reserved 0 (by decide)]
    rfl

/-- One turn of the accepting loop is the arrival of a connection. -/
theorem matches_acceptOne (hinv : Inv a) (env : Env) (sent : Nat)
    (hfresh : a.kernel.conn fd = none) (hfd : reservedFds ≤ fd) :
    asRoom.Matches a (a.acceptOne env fd sent) [.connect env] := by
  have hfind := hinv.findFree_eq
  cases hfree : a.findFree with
  | none =>
    rw [hfree] at hfind
    have hserve : serve .epoll a.room (.connect env) =
        ({ a.room with accepted := a.room.accepted + 1 },
          [⟨a.room.accepted, .reply, canonical (serverFull env.now)⟩]) := by
      rw [serve, Room.connect, ← hfind]
    have hconn : (a.reject env fd sent).connOf = a.connOf := by
      ext i : 1
      change Function.update (Function.update a.kernel.conn fd _) fd none _ = _
      rw [Function.update_idem, ← hfresh, Function.update_eq_self]
      rfl
    rw [Server.acceptOne, hfree]
    apply matches_event
    · rw [hserve, Server.room, hconn]
      rfl
    · change (a.log ++ _).filterMap _ = _
      rw [List.filterMap_append]
      rfl
    · rw [hserve]
      change (a.log ++ _).filterMap _ = _
      rw [List.filterMap_append]
      rfl
  | some s =>
    rw [hfree] at hfind
    have hserve : serve .epoll a.room (.connect env) = (a.room.fill .epoll s, []) := by
      rw [serve, Room.connect, ← hfind]
    obtain ⟨b, hb⟩ : ∃ b, b = a.acceptOne env fd sent := ⟨_, rfl⟩
    have hclients : b.clients =
        Function.update a.clients s { Client.zero with fd := fd, inUse := true } := by
      rw [hb, Server.acceptOne, hfree]
      rfl
    have hkernel : b.kernel.conn = Function.update a.kernel.conn fd (some a.kernel.accepted) := by
      rw [hb, Server.acceptOne, hfree]
      rfl
    have hlog : b.log = a.log ++ [.accepted a.kernel.accepted s] := by
      rw [hb, Server.acceptOne, hfree]
      rfl
    have hconn : b.connOf = Function.update a.connOf s (some a.kernel.accepted) := by
      ext i : 1
      rw [Server.connOf, hclients, hkernel]
      by_cases hi : i = s
      · subst hi
        rw [Function.update_self, Function.update_self, Function.update_self]
      · rw [Function.update_of_ne hi, Function.update_of_ne hi,
          Function.update_of_ne (hinv.fd_ne_of_fresh hfresh hfd i)]
        rfl
    have htable : b.table = Function.update a.table s Entry.zero := by
      ext i : 1
      rw [Server.table, hclients]
      by_cases hi : i = s
      · subst hi
        rw [Function.update_self, Function.update_self]
        rfl
      · rw [Function.update_of_ne hi, Function.update_of_ne hi]
        rfl
    rw [← hb]
    apply matches_event
    · rw [hserve, Server.room, htable, hconn, hb, Server.acceptOne, hfree]
      rfl
    · rw [Server.asked, hlog, List.filterMap_append]
      rfl
    · rw [hserve, Server.sent, hlog, List.filterMap_append]
      rfl

/-- Each wake-up does what the room does at events in the same surroundings. -/
theorem matches_step (hinv : Inv srv) (hout : OutputOk srv) {l : Label}
    (hs : step srv l = some t) : ∃ es, (∀ e ∈ es, e.env = l.env) ∧ asRoom.Matches srv t es := by
  have hpre : asRoom.Matches srv (srv.prescribe l.writes) [] := matches_of_same rfl rfl
  have hinv' := hinv.prescribe l.writes
  have hout' := hout.same (sameOutput_prescribe srv l.writes)
  have hfound : ∀ {b}, (∃ es, (∀ e ∈ es, e.env = l.env) ∧
      asRoom.Matches (srv.prescribe l.writes) b es) →
      ∃ es, (∀ e ∈ es, e.env = l.env) ∧ asRoom.Matches srv b es :=
    fun ⟨es, henv, hes⟩ => ⟨es, henv, hpre.trans hes⟩
  rw [step] at hs
  cases hact : l.action with
  | accept fd sent =>
    simp only [hact] at hs
    split at hs
    · next hfresh =>
      obtain rfl := Option.some.inj hs
      exact hfound ⟨_, by simp [Chat.Event.env],
        matches_acceptOne hinv' l.env sent hfresh.1 hfresh.2⟩
    · cases hs
  | hangup fd unread =>
    simp only [hact] at hs
    obtain rfl := Option.some.inj hs
    exact hfound (matches_hangup hinv' hout' l.env fd unread)
  | readable fd b =>
    simp only [hact] at hs
    obtain rfl := Option.some.inj hs
    exact hfound (matches_handleRead hinv' hout' l.env fd b)
  | writable fd unread =>
    simp only [hact] at hs
    obtain rfl := Option.some.inj hs
    exact hfound (matches_handleWrite hinv' hout' l.env fd unread)

/-! ## Runs -/

/-- A run does what the room does at some events, each wake-up at events of its own. -/
theorem matches_of_run {history : History} {ls : List Label}
    (h : run step (.init history) ls = some srv) :
    ∃ ess, List.Forall₂ (fun l es => ∀ e ∈ es, e.env = l.env) ls ess ∧
      asRoom.Matches (.init history) srv ess.flatten :=
  Reading.matches_run (V := asRoom) (I := fun srv => Inv srv ∧ OutputOk srv)
    (Q := fun l e => e.env = l.env)
    (fun _ _ _ hi hs => ⟨hi.1.step hs, hi.2.step hi.1 hs⟩)
    (fun _ _ _ hi hs => matches_step hi.1 hi.2 hs)
    ⟨inv_init history, outputOk_init history⟩ h

/-- The epoll server is a room: however the bytes arrive, the buffers fill and the writes end,
a run does what the room does at some events, those of a wake-up in the surroundings of that
wake-up. The requests are the messages routed, in order, and what the room sends is handed over
to the same connections in the same order. -/
theorem loop_refines_room {history : History} {ls : List Label}
    (h : run step (.init history) ls = some srv) :
    ∃ ess, List.Forall₂ (fun l es => ∀ e ∈ es, e.env = l.env) ls ess ∧
      Implements .epoll history ess.flatten srv.room srv.asked srv.sent := by
  obtain ⟨ess, hall, hess⟩ := matches_of_run h
  exact ⟨ess, hall, implements_of_matches hess rfl rfl rfl⟩

/-- A client that asks for the list of users in two reads. -/
theorem loop_refines_room_oneBurst :
    ∃ (srv : Server) (ess : List (List Chat.Event)),
      run step (Server.init fun _ => none) (oneBurst plainEnv
        ⟨packMessage (makeMessage 7 .listUsers [] [] []), [9], .again⟩) = some srv ∧
      Implements .epoll (fun _ => none) ess.flatten srv.room srv.asked srv.sent := by
  obtain ⟨a, srv, s, hrun, -, -⟩ := run_oneBurst (fun _ => none) plainEnv
    ⟨packMessage (makeMessage 7 .listUsers [] [] []), [9], .again⟩
  obtain ⟨ess, -, h⟩ := loop_refines_room hrun
  exact ⟨srv, ess, hrun, h⟩

end ChatSystem.Epoll
