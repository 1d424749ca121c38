import ChatSystem.Chat.Reading
import ChatSystem.Chat.Receivers
import ChatSystem.Thread.Alone

/-!
# The threads are a room, one message at a time

A schedule that lets a thread finish what it does for a connection or a message before another
thread goes on makes the threads a room: the table, the connections and the history are those of
the room behind the events of the schedule, and the bytes on the sockets are its messages.
-/

namespace ChatSystem.Thread

open Chat Tasks Transition

/-- The server between two events, without descriptors and threads. -/
def Shared.room (sh : Shared) : Room where
  table := sh.table
  conn s := if (sh.clients s).inUse then sh.conn (sh.clients s).sockfd else none
  accepted := sh.accepted
  history := sh.history

/-- What is seen became a given room and given bytes went out. -/
structure Serves (v w : View) (room : Room) (out : List Sent) : Prop where
  room : w.shared.room = room
  wire : w.wire = v.wire ++ out.flatMap bytesOf

/-- Active slots are in use. -/
def Manned (v : View) : Prop :=
  ∀ j, (v.shared.clients j).active = true → (v.shared.clients j).inUse = true

variable {v w x : View} {r r' : Room} {out out' : List Sent} {s : Slot} {m : Message} {env : Env}
  {junk : List UInt8} {c fd : Nat}

/-! ## Sending -/

theorem Serves.trans (h : Serves v w r out) (k : Serves w x r' out') :
    Serves v x r' (out ++ out') :=
  ⟨k.room, by rw [k.wire, h.wire, List.flatMap_append, List.append_assoc]⟩

/-- A change without output. -/
theorem serves_of_wire (hroom : w.shared.room = r) (hwire : w.wire = v.wire) :
    Serves v w r [] :=
  ⟨hroom, by rw [hwire]; simp⟩

@[simp] theorem shared_put (v : View) (fd : Nat) (d : List UInt8) :
    (v.put fd d).shared = v.shared := by
  unfold View.put
  split <;> rfl

@[simp] theorem shared_send (v : View) (s : Slot) (m : Message) :
    (v.send s m).shared = v.shared := shared_put ..

@[simp] theorem shared_sendActive (v : View) (skip : Slot) (m : Message) (slots : List Slot) :
    (v.sendActive skip m slots).shared = v.shared := by
  unfold View.sendActive
  induction slots generalizing v with
  | nil => rfl
  | cons j slots ih =>
    rw [List.foldl_cons, ih]
    split
    · exact shared_send v j m
    · rfl

/-- Sending to a slot in use is a copy for its connection. -/
theorem serves_send (hs : (v.shared.clients s).inUse = true) (m : Message) (via : Via) :
    Serves v (v.send s m) v.shared.room (v.shared.room.copies [s] via m) := by
  refine ⟨congrArg Shared.room (shared_send v s m), ?_⟩
  have hconn : v.shared.room.conn s = v.shared.conn (v.shared.clients s).sockfd := if_pos hs
  rw [Room.copies, View.send, View.put]
  cases hc : v.shared.conn (v.shared.clients s).sockfd with
  | none =>
    rw [hc] at hconn
    simp [hconn]
  | some d =>
    rw [hc] at hconn
    simp [hconn, bytesOf, packMessage_canonical]

theorem serves_sendActive (hman : Manned v) (skip : Slot) (m : Message) (via : Via) :
    Serves v (v.sendActive skip m (List.finRange maxClients)) v.shared.room
      (v.shared.room.copies (v.shared.room.others skip) via m) := by
  have hall : ∀ (slots : List Slot) (w : View), w.shared = v.shared →
      Serves w (w.sendActive skip m slots) v.shared.room (v.shared.room.copies
        (slots.filter fun i => i ≠ skip && (v.shared.room.table i).active) via m) := by
    intro slots
    induction slots with
    | nil => exact fun w hw => serves_of_wire (congrArg Shared.room hw) rfl
    | cons j slots ih =>
      intro w hw
      have hactive : (w.shared.clients j).active = (v.shared.room.table j).active := by
        rw [hw]
        rfl
      by_cases hj : j ≠ skip ∧ (w.shared.clients j).active = true
      · have hstep : w.sendActive skip m (j :: slots) = (w.send j m).sendActive skip m slots := by
          rw [View.sendActive, List.foldl_cons, if_pos hj]
          rfl
        have hfirst := serves_send (hw ▸ hman j (by rw [← hw]; exact hj.2)) m via (v := w)
        rw [hw] at hfirst
        have hrest := ih (w.send j m) ((shared_send w j m).trans hw)
        rw [hactive] at hj
        rw [hstep, List.filter_cons_of_pos (by simpa using hj), copies_cons]
        exact hfirst.trans hrest
      · have hstep : w.sendActive skip m (j :: slots) = w.sendActive skip m slots := by
          rw [View.sendActive, List.foldl_cons, if_neg hj]
          rfl
        rw [hactive] at hj
        rw [hstep, List.filter_cons_of_neg (by simpa using hj)]
        exact ih w hw
  exact hall _ v rfl

/-! ## Login data -/

/-- Overwriting the login data of a slot in use. -/
theorem Manned.setEntry (h : Manned v) (hs : (v.shared.clients s).inUse = true) (e : Entry) :
    Manned (v.setEntry s e) := by
  intro j hj
  have hclients : (v.setEntry s e).shared.clients = (v.shared.setEntry s e).clients := rfl
  rw [hclients] at hj ⊢
  rw [inUse_setEntry]
  by_cases hjs : j = s
  · rw [hjs]
    exact hs
  · rw [Shared.setEntry, clients_setClient_of_ne _ hjs] at hj
    exact h j hj

theorem inUse_setEntry_view (v : View) (s j : Slot) (e : Entry) :
    ((v.setEntry s e).shared.clients j).inUse = (v.shared.clients j).inUse :=
  inUse_setEntry v.shared s j e

theorem serves_setEntry (v : View) (s : Slot) (e : Entry) :
    Serves v (v.setEntry s e) (v.shared.room.setEntry s e) [] := by
  refine serves_of_wire ?_ rfl
  have hclients : (v.setEntry s e).shared.clients = (v.shared.setEntry s e).clients := rfl
  have htable : (v.setEntry s e).shared.table = Function.update v.shared.table s e := by
    ext j : 1
    rw [Shared.table, hclients]
    by_cases hj : j = s
    · subst hj
      rw [toEntry_setEntry_self, Function.update_self]
    · rw [Shared.setEntry, clients_setClient_of_ne _ hj, Function.update_of_ne hj]
      rfl
  have hconn : (v.setEntry s e).shared.room.conn = v.shared.room.conn := by
    ext j : 1
    unfold Shared.room
    simp only [hclients, inUse_setEntry, sockfd_setEntry]
    rfl
  have hroom : v.shared.room.setEntry s e = ⟨Function.update v.shared.table s e,
      v.shared.room.conn, v.shared.accepted, v.shared.history⟩ := rfl
  rw [hroom, ← htable, ← hconn]
  rfl

/-- Overwriting the login data of a slot and answering. -/
theorem serves_setEntry_send (hs : (v.shared.clients s).inUse = true) (e : Entry) (m : Message) :
    Serves v ((v.setEntry s e).send s m) (v.shared.room.setEntry s e)
      (v.shared.room.reply s m) := by
  have hset := serves_setEntry v s e
  have hsend := serves_send (v := v.setEntry s e) (s := s)
    ((inUse_setEntry_view v s s e).trans hs) m .reply
  rw [hset.room] at hsend
  exact hset.trans hsend

theorem serves_save (v : View) (env : Env) (m : Message) (receiver : List UInt8) :
    Serves v (v.save env m receiver) (v.shared.room.save env m receiver) [] :=
  serves_of_wire rfl rfl

/-! ## Routing -/

theorem serves_login (hs : (v.shared.clients s).inUse = true) (env : Env) (m : Message) :
    Serves v (v.login env s m) (v.shared.room.login .thread env s m).1
      (v.shared.room.login .thread env s m).2 := by
  unfold View.login Room.login
  cases scanLogin m.payload.toList with
  | none => exact serves_send hs _ .reply
  | some up =>
    obtain ⟨u, p⟩ := up
    have htaken : v.shared.room.taken .thread s u = (v.shared.findUser u).isSome := rfl
    simp only
    rw [htaken]
    unfold View.checkName
    split
    · exact serves_send hs _ .reply
    · unfold View.validate
      split
      · exact serves_send hs _ .reply
      · exact serves_setEntry_send hs _ _

theorem serves_broadcast (hman : Manned v) (hs : (v.shared.clients s).inUse = true) (env : Env)
    (m : Message) : Serves v (v.broadcast env s m) (v.shared.room.broadcast env s m).1
      (v.shared.room.broadcast env s m).2 := by
  unfold View.broadcast Room.broadcast
  have hactive : (v.shared.room.table s).active = (v.shared.clients s).active := rfl
  rw [hactive]
  split
  · exact serves_send hs _ .reply
  · have hsave := serves_save v env m []
    have hrelay := serves_sendActive (v := v.save env m []) (fun j hj => hman j hj) s m .relay
    have hreply := serves_send (v := (v.save env m []).sendActive s m (List.finRange maxClients))
      (s := s) (by rw [shared_sendActive]; exact hs) (relayed env.now m) .reply
    rw [shared_sendActive] at hreply
    exact (hsave.trans hrelay).trans hreply

theorem serves_priv (hman : Manned v) (hs : (v.shared.clients s).inUse = true) (env : Env)
    (m : Message) : Serves v (v.priv env s m) (v.shared.room.priv env s m).1
      (v.shared.room.priv env s m).2 := by
  unfold View.priv Room.priv View.findTarget
  have hactive : (v.shared.room.table s).active = (v.shared.clients s).active := rfl
  rw [hactive]
  split
  · exact serves_send hs _ .reply
  · have hfind : findName v.shared.room.table m.receiver.toList =
        v.shared.findUser m.receiver.toList := rfl
    rw [hfind]
    cases htarget : v.shared.findUser m.receiver.toList with
    | none => exact serves_send hs _ .reply
    | some k =>
      have hholds : (v.shared.table k).holds m.receiver.toList = true := findName_eq_some htarget
      simp only [Entry.holds, Bool.and_eq_true] at hholds
      have hsave := serves_save v env m m.receiverStr
      have hrelay := serves_send (v := v.save env m m.receiverStr) (s := k)
        (hman k hholds.1) m .relay
      have hreply := serves_send (v := (v.save env m m.receiverStr).send k m) (s := s)
        (by rw [shared_send]; exact hs) (relayed env.now m) .reply
      rw [shared_send] at hreply
      exact (hsave.trans hrelay).trans hreply

/-- The router does what the room does, but for a logout. -/
theorem serves_route (hman : Manned v) (hs : (v.shared.clients s).inUse = true) (env : Env)
    {m : Message} (hm : m.kind ≠ some .logout) :
    Serves v (v.route env s m) (v.shared.room.route .thread env s m).1
      (v.shared.room.route .thread env s m).2 := by
  unfold View.route Room.route
  cases hkind : m.kind with
  | none => exact serves_send hs _ .reply
  | some k =>
    cases k with
    | login => exact serves_login hs env m
    | logout => exact absurd hkind hm
    | broadcast => exact serves_broadcast hman hs env m
    | priv => exact serves_priv hman hs env m
    | statusChange => exact serves_setEntry_send hs _ _
    | _ => exact serves_send hs _ .reply

/-! ## Arrivals and departures -/

/-- The sockets of slots in use stand for different open connections. -/
structure Connected (sh : Shared) : Prop where
  conn : ∀ j, (sh.clients j).inUse = true → ∃ c, sh.conn (sh.clients j).sockfd = some c
  apart : ∀ i j, (sh.clients i).inUse = true → (sh.clients j).inUse = true →
    (sh.clients i).sockfd = (sh.clients j).sockfd → i = j

/-- The end of a client thread. -/
def View.leave (v : View) (env : Env) (junk : List UInt8) (s : Slot) : View :=
  (v.cleanup env junk s).close ((v.cleanup env junk s).shared.clients s).sockfd

theorem shared_cleanup (v : View) (env : Env) (junk : List UInt8) (s : Slot) :
    (v.cleanup env junk s).shared = (v.shared.release s).untraced := by
  unfold View.cleanup View.bcastNote
  split
  · exact shared_sendActive ..
  · rfl

/-- Closing a descriptor ends its connection and changes nothing else. -/
theorem untraced_close (sh : Shared) (t : Tid) (fd : Nat) :
    (sh.close t fd).untraced = { sh.untraced with conn := Function.update sh.conn fd none } := by
  unfold Shared.close
  split
  · next hc =>
    rw [← hc, Function.update_eq_self]
    rfl
  · rfl

theorem table_release (sh : Shared) (s : Slot) :
    (sh.release s).table = Function.update sh.table s (sh.clients s).clear := by
  ext j : 1
  unfold Shared.table Shared.release
  by_cases hj : j = s
  · subst hj
    rw [clients_setClient_self, Function.update_self]
  · rw [clients_setClient_of_ne _ hj, Function.update_of_ne hj]

/-- The end of a client thread releases its slot. -/
theorem Connected.room_leave (h : Connected v.shared) (hs : (v.shared.clients s).inUse = true) :
    (v.leave env junk s).shared.room = v.shared.room.release .thread s := by
  have hself : ((v.shared.release s).clients s).sockfd = (v.shared.clients s).sockfd := by
    rw [Shared.release, clients_setClient_self]
  have hshared : (v.leave env junk s).shared = { (v.shared.release s).untraced with
      conn := Function.update v.shared.conn (v.shared.clients s).sockfd none } := by
    unfold View.leave View.close View.change
    rw [untraced_close, shared_cleanup, ← hself]
    rfl
  have hconn : (v.leave env junk s).shared.room.conn =
      Function.update v.shared.room.conn s none := by
    ext j : 1
    rw [hshared]
    change (if ((v.shared.release s).clients j).inUse then Function.update v.shared.conn
      (v.shared.clients s).sockfd none ((v.shared.release s).clients j).sockfd else none) = _
    by_cases hj : j = s
    · subst hj
      rw [Function.update_self, Shared.release, clients_setClient_self]
      rfl
    · rw [Function.update_of_ne hj, Shared.release, clients_setClient_of_ne _ hj]
      unfold Shared.room
      simp only
      split
      · next hu =>
        have hne : (v.shared.clients j).sockfd ≠ (v.shared.clients s).sockfd :=
          fun he => hj (h.apart j s hu hs he)
        rw [Function.update_of_ne hne]
      · rfl
  have hroom : (v.leave env junk s).shared.room = ⟨(v.shared.release s).table,
      (v.leave env junk s).shared.room.conn, v.shared.accepted, v.shared.history⟩ := by
    rw [hshared]
    rfl
  rw [hroom, hconn, table_release]
  rfl

/-- A thread that finds the end of its stream ends its connection. -/
theorem serves_leave (hman : Manned v) (h : Connected v.shared)
    (hs : (v.shared.clients s).inUse = true) (hslot : v.shared.room.slotOf c = some s) :
    Serves v (v.leave env junk s) (v.shared.room.close .thread c ⟨env, junk, false⟩).1
      (v.shared.room.close .thread c ⟨env, junk, false⟩).2 := by
  have hclose : v.shared.room.close .thread c ⟨env, junk, false⟩ =
      (v.shared.room.release .thread s, v.shared.room.partings .thread ⟨env, junk, false⟩ s) := by
    rw [Room.close, hslot]
  have hactive : (v.shared.room.table s).active = (v.shared.clients s).active := rfl
  rw [hclose]
  refine ⟨h.room_leave hs, ?_⟩
  change (v.cleanup env junk s).wire = _
  unfold View.cleanup Room.partings
  simp only [hactive]
  split
  · -- the notices go to the other slots, which the release leaves alone
    have hreleased : (v.change (v.shared.release s)).shared = (v.shared.release s).untraced := rfl
    have hother : ∀ j, j ≠ s → (v.shared.release s).clients j = v.shared.clients j :=
      fun j hj => clients_setClient_of_ne _ hj _
    have hself : (v.shared.release s).clients s =
        { v.shared.clients s with toEntry := (v.shared.clients s).clear, inUse := false } :=
      clients_setClient_self ..
    have hman' : Manned (v.change (v.shared.release s)) := by
      intro j hj
      have hcl : (v.change (v.shared.release s)).shared.clients = (v.shared.release s).clients := rfl
      rw [hcl] at hj ⊢
      by_cases hjs : j = s
      · rw [hjs, hself] at hj
        cases hj
      · rw [hother j hjs] at hj ⊢
        exact hman j hj
    have hsend := (serves_sendActive hman' s (notice env.now
      (disconnectedNote (savedName (v.shared.clients s).toEntry junk))) .notice).wire
    have hothers : (v.change (v.shared.release s)).shared.room.others s =
        v.shared.room.others s := by
      unfold Room.others
      apply List.filter_congr
      intro j _
      by_cases hjs : j = s
      · simp [hjs]
      · have htable : (v.change (v.shared.release s)).shared.room.table j =
            v.shared.room.table j := congrArg Client.toEntry (hother j hjs)
        rw [htable]
    have hcopies : ∀ (msg : Message), (v.change (v.shared.release s)).shared.room.copies
        (v.shared.room.others s) .notice msg = v.shared.room.copies (v.shared.room.others s)
          .notice msg := by
      intro msg
      unfold Room.copies
      apply List.filterMap_congr
      intro j hj
      have hjs := (mem_others.mp hj).1
      have hconn : (v.change (v.shared.release s)).shared.room.conn j = v.shared.room.conn j := by
        change (if ((v.shared.release s).clients j).inUse then
          v.shared.conn ((v.shared.release s).clients j).sockfd else none) = _
        rw [hother j hjs]
        rfl
      rw [hconn]
    rw [hothers, hcopies] at hsend
    exact hsend
  · exact (List.append_nil _).symm

theorem Connected.of_clients (h : Connected v.shared)
    (huse : ∀ j, (w.shared.clients j).inUse = (v.shared.clients j).inUse)
    (hsock : ∀ j, (w.shared.clients j).sockfd = (v.shared.clients j).sockfd)
    (hconn : w.shared.conn = v.shared.conn) : Connected w.shared := by
  constructor
  · intro j hj
    rw [hsock, hconn]
    exact h.conn j (huse j ▸ hj)
  · intro i j hi hj he
    rw [hsock, hsock] at he
    exact h.apart i j (huse i ▸ hi) (huse j ▸ hj) he

/-- A logout ends the connection as well. -/
theorem serves_logout (hman : Manned v) (h : Connected v.shared)
    (hs : (v.shared.clients s).inUse = true) (env : Env) :
    Serves v ((v.logout env s).leave env junk s) (v.shared.room.logout .thread env s).1
      (v.shared.room.logout .thread env s).2 := by
  obtain ⟨d, hd⟩ : ∃ d, d = v.setEntry s (v.shared.clients s).clear := ⟨_, rfl⟩
  have hset : Serves v d _ [] := hd ▸ serves_setEntry v s (v.shared.clients s).clear
  have hlogout : v.logout env s = d.sendActive s (notice env.now
      (leftNote (v.shared.clients s).name)) (List.finRange maxClients) := by
    rw [hd]
    rfl
  have hshared : (v.logout env s).shared = d.shared := by rw [hlogout, shared_sendActive]
  have hsend := serves_sendActive (v := d) (hd ▸ hman.setEntry hs _) s
    (notice env.now (leftNote (v.shared.clients s).name)) .notice
  rw [hset.room, others_setEntry_self, ← hlogout] at hsend
  have huse : ((v.logout env s).shared.clients s).inUse = true := by
    rw [hshared, hd, inUse_setEntry_view]
    exact hs
  have hconnected : Connected (v.logout env s).shared := by
    refine h.of_clients (fun j => ?_) (fun j => ?_) ?_
    · rw [hshared, hd, inUse_setEntry_view]
    · rw [hshared, hd]
      exact sockfd_setEntry v.shared s j _
    · rw [hshared, hd]
      rfl
  have hinactive : ((v.logout env s).shared.clients s).active = false := by
    rw [hshared, hd]
    exact congrArg Entry.active (toEntry_setEntry_self v.shared s (v.shared.clients s).clear)
  have hquiet : ((v.logout env s).leave env junk s).wire = (v.logout env s).wire := by
    change ((v.logout env s).cleanup env junk s).wire = _
    unfold View.cleanup
    simp only [hinactive, Bool.false_eq_true, if_false]
    rfl
  have hroom : ((v.logout env s).leave env junk s).shared.room =
      v.shared.room.release .thread s := by
    rw [hconnected.room_leave huse, hsend.room, Room.release, Room.release, Room.setEntry,
      Room.setEntry, Room.setEntry]
    simp only [Function.update_idem, Function.update_self]
    rfl
  refine ⟨hroom, ?_⟩
  rw [hquiet, hsend.wire, hset.wire, List.flatMap_nil, List.append_nil]
  rfl

/-- The search for a free slot, in the words of the room. -/
theorem Connected.findFree_eq {sh : Shared} (h : Connected sh) :
    sh.findFree = firstSlot fun j => (sh.room.conn j).isNone := by
  rw [Shared.findFree]
  congr 1
  ext j : 1
  unfold Shared.room
  simp only
  cases hu : (sh.clients j).inUse with
  | true =>
    obtain ⟨c, hc⟩ := h.conn j hu
    simp [hc]
  | false => simp

/-- The accept loop takes a connection in. -/
theorem serves_allot {sh : Shared} (h : Connected sh) (hfresh : sh.conn fd = none) (env : Env) :
    Serves (see sh) ((see (sh.accept fd)).allot env fd) (sh.room.connect .thread env).1
      (sh.room.connect .thread env).2 := by
  have hfind : (see (sh.accept fd)).shared.findFree = sh.findFree := rfl
  have hopen : (see (sh.accept fd)).shared.conn fd = some sh.accepted := Function.update_self ..
  have hne : ∀ j, (sh.clients j).inUse = true → (sh.clients j).sockfd ≠ fd := by
    intro j hj he
    obtain ⟨c, hc⟩ := h.conn j hj
    rw [he, hfresh] at hc
    cases hc
  unfold View.allot Room.connect
  rw [hfind, ← h.findFree_eq]
  cases hfree : sh.findFree with
  | none =>
    have hput : (see (sh.accept fd)).put fd (packMessage (serverFull env.now)) =
        { see (sh.accept fd) with wire := wireOf sh.log ++
            (packMessage (serverFull env.now)).map (sh.accepted, ·) } := by
      rw [View.put, hopen]
      rfl
    have hclosed : ((see (sh.accept fd)).put fd (packMessage (serverFull env.now))).close fd =
        ⟨{ sh.untraced with accepted := sh.accepted + 1 }, wireOf sh.log ++
          (packMessage (serverFull env.now)).map (sh.accepted, ·)⟩ := by
      have hconn : Function.update (Function.update sh.conn fd (some sh.accepted)) fd none =
          sh.conn := by
        rw [Function.update_idem, ← hfresh, Function.update_eq_self]
      rw [hput, View.close, View.change, untraced_close]
      change View.mk { sh.untraced with
        conn := Function.update (Function.update sh.conn fd (some sh.accepted)) fd none
        accepted := sh.accepted + 1 } _ = _
      rw [hconn]
      rfl
    rw [hclosed]
    refine ⟨rfl, ?_⟩
    simp only [List.flatMap_cons, List.flatMap_nil, List.append_nil, bytesOf, packMessage_canonical]
    rfl
  | some s =>
    have hclients : ∀ j, j ≠ s → ((sh.accept fd).fill s fd).clients j = sh.clients j :=
      fun j hj => clients_setClient_of_ne _ hj _
    have hself : ((sh.accept fd).fill s fd).clients s =
        { (sh.clients s).clear.setStatus statusAvailable with sockfd := fd, inUse := true } :=
      clients_setClient_self ..
    have htable : ((sh.accept fd).fill s fd).table =
        Function.update sh.table s ((sh.clients s).clear.setStatus statusAvailable) := by
      ext j : 1
      unfold Shared.table
      by_cases hj : j = s
      · subst hj
        rw [hself, Function.update_self]
      · rw [hclients j hj, Function.update_of_ne hj]
    have hconn : ((sh.accept fd).fill s fd).room.conn =
        Function.update sh.room.conn s (some sh.accepted) := by
      ext j : 1
      unfold Shared.room
      simp only
      by_cases hj : j = s
      · subst hj
        rw [hself, Function.update_self]
        exact Function.update_self ..
      · rw [hclients j hj, Function.update_of_ne hj]
        split
        · next hu => exact Function.update_of_ne (hne j hu) ..
        · rfl
    refine serves_of_wire ?_ rfl
    change ((sh.accept fd).fill s fd).room = _
    have hroom : ((sh.accept fd).fill s fd).room = ⟨((sh.accept fd).fill s fd).table,
        ((sh.accept fd).fill s fd).room.conn, sh.accepted + 1, sh.history⟩ := rfl
    rw [hroom, htable, hconn]
    rfl

end ChatSystem.Thread
