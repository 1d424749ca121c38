import ChatSystem.Chat.Reading
import ChatSystem.Core.Serial
import ChatSystem.Fork.Ends

/-!
# The parent between two events

The parent works on one event with many statements, between which its children go on. While the
clock stands still and the handler does not get in between, what the parent does to the table,
the connections, the history and the pipes to the children is the meaning of the acts in front
of its next `accept` or `pipe_recv`.
-/

namespace ChatSystem.Fork

open Chat Tasks

/-- What is seen of the shared state: a room, the requests routed and the messages sent. -/
structure View where
  room : Room
  asked : List (Nat × Message)
  sent : List (Nat × Message)

/-- The request an event of the trace routes. -/
def Event.asked : Event → Option (Nat × Message)
  | .routed _ c m => some (c, m)
  | _ => none

/-- The message an event of the trace sends, as its receiver reads it. -/
def Event.parcel : Event → Option (Nat × Message)
  | .sent c m => some (c, canonical m)
  | _ => none

/-- The server between two events: a slot is in use while it has a pid. -/
def Shared.room (sh : Shared) : Room where
  table := sh.table
  conn s := if (sh.clients s).pid = 0 then none else sh.connOf s
  accepted := sh.accepted
  history := sh.history

/-- What is seen. -/
def see (sh : Shared) : View where
  room := sh.room
  asked := sh.log.filterMap Event.asked
  sent := sh.log.filterMap Event.parcel

namespace View

variable (v : View)

/-- Messages go out. -/
def put (out : List Chat.Sent) : View := { v with sent := v.sent ++ out.map Chat.Sent.parcel }

/-- The room changes and messages go out. -/
def serve (x : Room × List Chat.Sent) : View :=
  { v with room := x.1, sent := v.sent ++ x.2.map Chat.Sent.parcel }

/-- `pipe_send`. -/
def send (s : Slot) (m : Message) : View := v.put (v.room.copies [s] .reply m)

/-- The loops of a logout and of a broadcast. -/
def sendActive (skip : Slot) (m : Message) (slots : List Slot) : View :=
  slots.foldl (fun v j => if j ≠ skip ∧ (v.room.table j).active then v.send j m else v) v

/-- Overwrite the login data of a slot. -/
def setEntry (s : Slot) (e : Entry) : View := { v with room := v.room.setEntry s e }

/-- `save_history`. -/
def save (env : Env) (m : Message) (receiver : List UInt8) : View :=
  { v with room := v.room.save env m receiver }

/-- A slot is in use for a connection. -/
def fill (s : Slot) (c : Nat) : View :=
  { v with room := { v.room with conn := Function.update v.room.conn s (some c) } }

/-- The search for a free slot and what follows. -/
def findFreeSlot (env : Env) (c : Nat) (slots : List Slot) : View :=
  match slots.find? fun s => !(v.room.table s).active && (v.room.conn s).isNone with
  | none => v.put [⟨c, .reply, canonical (serverFull env.now)⟩]
  | some s => v.fill s c

/-- The end of a login. -/
def activate (env : Env) (s : Slot) (u : List UInt8) : View :=
  (v.setEntry s (v.room.table s).activate).send s (loginSuccessful env.now u)

/-- The credential check of a login and what follows. -/
def validate (env : Env) (s : Slot) (u p : List UInt8) : View :=
  if !ChatSystem.validate env.disc env.now u p then v.send s (invalidCredentials env.now u)
  else (v.setEntry s ((v.room.table s).setName u)).activate env s u

/-- The test for a name in use and what follows. -/
def checkName (env : Env) (s : Slot) (u p : List UInt8) : View :=
  if v.room.taken .fork s u then v.send s (alreadyLoggedIn env.now u) else v.validate env s u p

/-- The search for a receiver and what follows. -/
def findTarget (env : Env) (s : Slot) (m : Message) : View :=
  match findName v.room.table m.receiver.toList with
  | none => v.send s (userNotOnline env.now m)
  | some t => ((v.save env m m.receiverStr).send t m).send s (relayed env.now m)

end View

/-- What the acts of the parent mean in given surroundings. -/
def meaning (env : Env) : Meaning Act View where
  stop
    | .watch _ _ | .select _ | .check _ _ | .accept | .recv _ _ => true
    | _ => false
  act a v :=
    match a with
    | .findFreeSlot _ c slots => v.findFreeSlot env c slots
    | .refuse _ c => v.put [⟨c, .reply, canonical (serverFull env.now)⟩]
    | .pipes s _ c | .fork s _ c => v.fill s c
    | .storePid k _ => v.fill k.slot k.conn
    | .drop s => { v with room := v.room.release .fork s }
    | .route s c m =>
      ({ v with asked := v.asked ++ [(c, m)] } : View).serve (v.room.route .fork env s m)
    | .checkName s u p => v.checkName env s u p
    | .validate s u p => v.validate env s u p
    | .storeName s u => (v.setEntry s ((v.room.table s).setName u)).activate env s u
    | .activate s u => v.activate env s u
    | .clear s => v.setEntry s (v.room.table s).clear
    | .notify skip note slots => v.sendActive skip (notice env.now note) slots
    | .saveHistory m receiver => v.save env m receiver
    | .relay skip m slots => v.sendActive skip m slots
    | .findTarget s m => v.findTarget env s m
    | .pipeSend s m => v.send s m
    | .listUsers s m => v.send s (userList env.now m v.room.table)
    | .readHistory s m => v.send s (historyResponse env.now m v.room.history)
    | .setStatus s m =>
      v.setEntry s ((v.room.table s).setStatus (scanStatus m.payload.toList))
    | .reply s make => v.send s (make env.now)
    | _ => v

/-- The slot an act answers to, or sends to. -/
def Act.served : Act → Option Slot
  | .route s _ _ | .checkName s _ _ | .validate s _ _ | .storeName s _ | .activate s _
  | .findTarget s _ | .pipeSend s _ | .listUsers s _ | .readHistory s _ | .reply s _ => some s
  | _ => none

/-- `pipe` or `fork` fails. -/
def Act.fails (a : Act) (i : Input) : Bool :=
  match a with
  | .pipes _ _ _ => i.toChild.isNone || i.fromChild.isNone
  | .fork _ _ _ => i.pid.isNone
  | _ => false

/-- What the parent relies on at an act: the clock stands still, and the slot is in use. -/
structure Ready (env : Env) (a : Act) (i : Input) (sh : Shared) : Prop where
  env : i.env = env
  linked : Linked sh
  distinct : Distinct sh
  setup : Setup a sh
  running : ∀ s, (sh.clients s).active = true → (sh.clients s).pid ≠ 0
  served : ∀ s, a.served = some s → (sh.clients s).pid ≠ 0

variable {env : Env} {t : Tid} {a : Act} {i : Input} {sh sh' : Shared}
  {out : Outcome Empty Tid Act Shared} {s : Slot} {c : Nat} {m : Message}

/-! ## What is seen of a change -/

theorem see_congr (htable : sh'.table = sh.table) (hconn : sh'.room.conn = sh.room.conn)
    (hacc : sh'.accepted = sh.accepted) (hhist : sh'.history = sh.history)
    (hlog : sh'.log.filterMap Event.asked = sh.log.filterMap Event.asked ∧
      sh'.log.filterMap Event.parcel = sh.log.filterMap Event.parcel) : see sh' = see sh := by
  have hroom : sh'.room = ⟨sh.table, sh.room.conn, sh.accepted, sh.history⟩ := by
    rw [← htable, ← hconn, ← hacc, ← hhist]
    rfl
  rw [see, hroom, hlog.1, hlog.2]
  rfl

/-- Slots keep their connections while they keep their pids. -/
theorem conn_stays (hL : Linked sh) (hc : Change sh a sh') (hpre : Setup a sh)
    (hpid : ∀ j, (sh'.clients j).pid = (sh.clients j).pid) : sh'.room.conn = sh.room.conn := by
  ext j : 1
  unfold Shared.room
  simp only [hpid]
  split
  · rfl
  · next hj =>
    have hj' : (sh'.clients j).pid ≠ 0 := by rwa [hpid]
    exact connOf_stays hL hc hpre hj (used_of_change hc hpre hj').2.1

/-- An entry of the trace that is neither a request nor a message does not show. -/
theorem see_note {e : Event} (ha : e.asked = none) (hp : e.parcel = none) (sh : Shared) :
    see (sh.note e) = see sh := by
  refine see_congr rfl rfl rfl rfl ⟨?_, ?_⟩
  · simp [Shared.note, List.filterMap_append, ha]
  · simp [Shared.note, List.filterMap_append, hp]

theorem see_setEntry (sh : Shared) (s : Slot) (e : Entry) :
    see (sh.setEntry s e) = (see sh).setEntry s e := by
  have htable : (sh.setEntry s e).table = Function.update sh.table s e := by
    ext j : 1
    unfold Shared.table
    by_cases hj : j = s
    · subst hj
      rw [Shared.setEntry, clients_setClient_self, Function.update_self]
    · rw [Shared.setEntry, clients_setClient_of_ne _ hj, Function.update_of_ne hj]
  have hconn : (sh.setEntry s e).room.conn = sh.room.conn := by
    ext j : 1
    unfold Shared.room Shared.connOf
    by_cases hj : j = s
    · subst hj
      simp only [Shared.setEntry, clients_setClient_self]
      rfl
    · simp only [Shared.setEntry, clients_setClient_of_ne _ hj]
      rfl
  have hroom : (sh.setEntry s e).room = ⟨(sh.setEntry s e).table, (sh.setEntry s e).room.conn,
      sh.accepted, sh.history⟩ := rfl
  rw [see, hroom, htable, hconn]
  rfl

/-- A slot with a pid gets its messages through the pipe of its connection. -/
theorem Distinct.writeEnd_eq (h : Distinct sh) (hs : (sh.clients s).pid ≠ 0) :
    sh.writeEnd s = sh.room.conn s := by
  rw [h.same s hs]
  exact (if_neg hs).symm

theorem see_pipeSend (h : Distinct sh) (hs : (sh.clients s).pid ≠ 0) (m : Message) :
    see (sh.pipeSend s m) = (see sh).send s m := by
  have hfeed : ∀ (a : Shared) (c : Nat) (d : List UInt8), see (a.feed c d) = see a := by
    intro a c d
    unfold Shared.feed
    split <;> rfl
  have hend := h.writeEnd_eq hs
  have hroom : (see sh).room = sh.room := rfl
  unfold Shared.pipeSend View.send View.put Room.copies
  rw [hroom]
  unfold Shared.writeEnd at hend
  split
  · next c hc =>
    rw [hc] at hend
    simp only [hfeed, List.filterMap_cons, List.filterMap_nil, ← hend, Option.map_some,
      List.map_cons, List.map_nil]
    simp [see, Shared.note, List.filterMap_append, Event.asked, Event.parcel, Chat.Sent.parcel]
    rfl
  · next hne =>
    split at hend
    · next c hc => exact absurd hc (hne c)
    · simp only [List.filterMap_cons, List.filterMap_nil, ← hend, Option.map_none, List.map_nil,
        List.append_nil]
      rfl

/-! ## The meaning of routing -/

/-- Why a message is sent does not show. -/
theorem put_copies (v : View) (slots : List Slot) (via via' : Via) (m : Message) :
    v.put (v.room.copies slots via m) = v.put (v.room.copies slots via' m) := by
  have hparcel : ∀ via, (v.room.copies slots via m).map Chat.Sent.parcel =
      slots.filterMap fun i => (v.room.conn i).map (·, canonical m) := by
    intro via
    rw [Room.copies, List.map_filterMap]
    apply List.filterMap_congr
    intro i _
    cases v.room.conn i <;> rfl
  rw [View.put, View.put, hparcel, hparcel]

theorem put_append (v : View) (out out' : List Chat.Sent) :
    (v.put out).put out' = v.put (out ++ out') := by
  simp only [View.put, List.map_append, List.append_assoc]

/-- The loop over the active slots sends to the others. -/
theorem sendActive_eq (v : View) (skip : Slot) (m : Message) (via : Via) :
    v.sendActive skip m (List.finRange maxClients) =
      v.put (v.room.copies (v.room.others skip) via m) := by
  have hall : ∀ (slots : List Slot) (w : View), w.room = v.room → w.sendActive skip m slots =
      w.put (v.room.copies (slots.filter fun i => i ≠ skip && (v.room.table i).active) via m) := by
    intro slots
    induction slots with
    | nil =>
      intro w _
      simp [View.sendActive, View.put, Room.copies]
    | cons j slots ih =>
      intro w hw
      by_cases hj : j ≠ skip ∧ (w.room.table j).active = true
      · have hstep : w.sendActive skip m (j :: slots) = (w.send j m).sendActive skip m slots := by
          rw [View.sendActive, List.foldl_cons, if_pos hj]
          rfl
        have hfirst : w.send j m = w.put (v.room.copies [j] via m) := by
          rw [← hw]
          exact put_copies w [j] .reply via m
        rw [hw] at hj
        rw [hstep, ih (w.send j m) hw, hfirst, put_append,
          List.filter_cons_of_pos (by simpa using hj), ← copies_cons]
      · have hstep : w.sendActive skip m (j :: slots) = w.sendActive skip m slots := by
          rw [View.sendActive, List.foldl_cons, if_neg hj]
          rfl
        rw [hw] at hj
        rw [hstep, ih w hw, List.filter_cons_of_neg (by simpa using hj)]
  exact hall _ v rfl

theorem login_eq (v : View) (env : Env) (s : Slot) (u p : List UInt8) :
    v.checkName env s u p = v.serve
      (if v.room.taken .fork s u then (v.room, v.room.reply s (alreadyLoggedIn env.now u))
      else if !ChatSystem.validate env.disc env.now u p then
        (v.room, v.room.reply s (invalidCredentials env.now u))
      else (v.room.setEntry s ((v.room.table s).login u),
        v.room.reply s (loginSuccessful env.now u))) := by
  unfold View.checkName
  split
  · rfl
  · unfold View.validate
    split
    · rfl
    · have hself : (v.setEntry s ((v.room.table s).setName u)).setEntry s
          ((v.setEntry s ((v.room.table s).setName u)).room.table s).activate =
          v.setEntry s ((v.room.table s).login u) := by
        simp only [View.setEntry, Room.setEntry, Function.update_idem, Function.update_self,
          Entry.login]
      rw [View.activate, hself]
      rfl

/-- What a router expands to means what the router means. -/
theorem meaning_route {v : View} (hv : v.room = sh.room) (s : Slot) (m : Message) :
    (meaning env).code (code (sh.route s m)) v = v.serve (v.room.route .fork env s m) := by
  have htable : ∀ j, v.room.table j = (sh.clients j).toEntry := by
    intro j
    rw [hv]
    rfl
  have hactive : (sh.clients s).active = (v.room.table s).active := by rw [htable]
  have hname : (sh.clients s).name = (v.room.table s).name := by rw [htable]
  unfold Shared.route Room.route
  cases m.kind with
  | none => rfl
  | some k =>
    cases k with
    | login =>
      change (meaning env).code (code (Shared.login s m)) v = v.serve (v.room.login .fork env s m)
      unfold Shared.login Room.login
      cases scanLogin m.payload.toList with
      | none => rfl
      | some up => exact login_eq v env s up.1 up.2
    | logout =>
      have hcode : (meaning env).code (code (sh.logout s)) v =
          (v.setEntry s (v.room.table s).clear).sendActive s
            (notice env.now (leftNote (sh.clients s).name)) (List.finRange maxClients) := rfl
      change (meaning env).code (code (sh.logout s)) v = _
      rw [hcode, sendActive_eq _ _ _ .notice, hname]
      change (v.setEntry s (v.room.table s).clear).put ((v.room.setEntry s
        (v.room.table s).clear).copies ((v.room.setEntry s (v.room.table s).clear).others s)
          .notice _) = _
      rw [others_setEntry_self]
      rfl
    | broadcast =>
      change (meaning env).code (code (sh.broadcast s m)) v = v.serve (v.room.broadcast env s m)
      unfold Shared.broadcast Room.broadcast
      rw [hactive]
      split
      · rfl
      · have hcode : (meaning env).code (code [.saveHistory m [],
            .relay s m (List.finRange maxClients), .reply s (relayed · m)]) v =
            ((v.save env m []).sendActive s m (List.finRange maxClients)).send s
              (relayed env.now m) := rfl
        rw [hcode, sendActive_eq _ _ _ .relay]
        exact put_append ..
    | priv =>
      change (meaning env).code (code (sh.priv s m)) v = v.serve (v.room.priv env s m)
      unfold Shared.priv Room.priv
      rw [hactive]
      split
      · rfl
      · change v.findTarget env s m = _
        unfold View.findTarget
        cases findName v.room.table m.receiver.toList with
        | none => rfl
        | some t =>
          have hrelay : (v.save env m m.receiverStr).send t m =
              (v.save env m m.receiverStr).put (v.room.copies [t] .relay m) :=
            put_copies (v.save env m m.receiverStr) [t] .reply .relay m
          simp only [hrelay]
          exact put_append ..
    | _ => rfl

/-! ## The meaning of an act -/

theorem free_route (sh : Shared) (s : Slot) (m : Message) :
    ∀ b ∈ sh.route s m, (meaning env).stop b = false := by
  unfold Shared.route
  split
  · unfold Shared.login
    split <;> simp [meaning]
  · simp [Shared.logout, meaning]
  · unfold Shared.broadcast
    split <;> simp [meaning]
  · unfold Shared.priv
    split <;> simp [meaning]
  all_goals simp [meaning]

/-- The parent only comes to a stop at the end of its work. -/
theorem free_next (h : exec t a i sh = some out) (hstop : (meaning env).stop a = false) :
    (meaning env).Free out.next := by
  intro b hb
  cases a
  case watch | select | check | accept | recv => cases hstop
  case route s c m =>
    obtain rfl := goOn_inj h
    exact free_route sh s m b (mem_code.mp hb)
  all_goals simp only [exec] at h
  all_goals
    repeat' split at h
    all_goals cases h
    all_goals rw [mem_code] at hb
    all_goals simp at hb
    all_goals
      first
        | (subst hb; rfl)
        | (rcases hb with rfl | rfl <;> rfl)
        | (rcases hb with rfl | rfl | rfl <;> rfl)

/-- A slot without a pid is free for the room if it is for the parent. -/
theorem isNone_conn (h : Linked sh) (s : Slot) :
    (sh.room.conn s).isNone = ((sh.clients s).pid == 0) := by
  have hconn : sh.room.conn s = if (sh.clients s).pid = 0 then none else sh.connOf s := rfl
  rw [hconn]
  by_cases hs : (sh.clients s).pid = 0
  · rw [if_pos hs, hs]
    rfl
  · obtain ⟨c, hc, -⟩ := h.holder s hs
    rw [if_neg hs, hc]
    simp [hs]

/-- A step of the search for a free slot. -/
theorem meaning_findFreeSlot {fd : Nat} {slots : List Slot} (hL : Linked sh)
    (h : exec t (.findFreeSlot fd c slots) i sh = some out) :
    (meaning env).code out.next (see out.shared) = (see sh).findFreeSlot env c slots := by
  have htest : ∀ s, (!((see sh).room.table s).active && ((see sh).room.conn s).isNone) =
      (!(sh.clients s).active && (sh.clients s).pid == 0) := by
    intro s
    change (!(sh.clients s).active && (sh.room.conn s).isNone) = _
    rw [isNone_conn hL]
  simp only [exec] at h
  unfold View.findFreeSlot
  simp only [htest]
  split at h
  · obtain rfl := goOn_inj h
    rfl
  · next s slots =>
    split at h
    · next hs =>
      obtain rfl := goOn_inj h
      simp only [List.find?_cons, hs]
      rfl
    · next hs =>
      obtain rfl := goOn_inj h
      simp only [List.find?_cons, Bool.eq_false_iff.mpr hs]
      change (see sh).findFreeSlot env c slots = _
      unfold View.findFreeSlot
      simp only [htest]

/-- The loops over the active slots. -/
theorem meaning_loop {skip : Slot} {slots : List Slot} (hD : Distinct sh)
    (hrun : ∀ s, (sh.clients s).active = true → (sh.clients s).pid ≠ 0) (j : Slot) (m : Message) :
    (see (if j ≠ skip ∧ (sh.clients j).active = true then sh.pipeSend j m else sh)).sendActive
      skip m slots = (see sh).sendActive skip m (j :: slots) := by
  have hactive : ((see sh).room.table j).active = (sh.clients j).active := rfl
  unfold View.sendActive
  rw [List.foldl_cons, hactive]
  split
  · next hj => rw [see_pipeSend hD (hrun j hj.2)]
  · rfl

/-- The slot of a child that was created is in use from now on. -/
theorem see_storePid {k : Child} (hends : sh.Ends k.slot k.conn) (hk : k.pid ≠ 0) :
    see (sh.storePid k.slot k.pid) = (see sh).fill k.slot k.conn := by
  have htable : (sh.storePid k.slot k.pid).table = sh.table := by
    ext j : 1
    unfold Shared.table Shared.storePid
    by_cases hj : j = k.slot
    · subst hj
      rw [clients_setClient_self]
    · rw [clients_setClient_of_ne _ hj]
  have hconn : (sh.storePid k.slot k.pid).room.conn =
      Function.update sh.room.conn k.slot (some k.conn) := by
    ext j : 1
    unfold Shared.room Shared.storePid Shared.connOf
    by_cases hj : j = k.slot
    · subst hj
      simp only [clients_setClient_self, if_neg hk, Function.update_self]
      exact connOf_eq_some.mpr hends.fromRead
    · simp only [clients_setClient_of_ne _ hj, Function.update_of_ne hj]
      rfl
  have hroom : (sh.storePid k.slot k.pid).room = ⟨(sh.storePid k.slot k.pid).table,
      (sh.storePid k.slot k.pid).room.conn, sh.accepted, sh.history⟩ := rfl
  rw [see, hroom, htable, hconn]
  rfl

/-- Releasing a slot. -/
theorem see_release (sh : Shared) (s : Slot) :
    see (sh.release s) = { see sh with room := (see sh).room.release .fork s } := by
  have htable : (sh.release s).table = Function.update sh.table s (sh.clients s).clear := by
    ext j : 1
    unfold Shared.table Shared.release
    rw [clients_note]
    by_cases hj : j = s
    · subst hj
      rw [clients_setClient_self, Function.update_self]
    · rw [clients_setClient_of_ne _ hj, Function.update_of_ne hj]
  have hconn : (sh.release s).room.conn = Function.update sh.room.conn s none := by
    ext j : 1
    unfold Shared.room Shared.release Shared.connOf
    by_cases hj : j = s
    · subst hj
      simp only [clients_note, clients_setClient_self, Function.update_self, if_true]
    · simp only [clients_note, clients_setClient_of_ne _ hj, Function.update_of_ne hj]
      rfl
  have hroom : (sh.release s).room = ⟨(sh.release s).table, (sh.release s).room.conn,
      sh.accepted, sh.history⟩ := rfl
  have hnote : see (sh.release s) = { see sh with room := (sh.release s).room } := by
    simp [see, Shared.release, Shared.note, Shared.setClient, List.filterMap_append, Event.asked,
      Event.parcel]
  rw [hnote, hroom, htable, hconn]
  rfl

/-- A message of the parent. -/
theorem see_sent (sh : Shared) (c : Nat) (m : Message) :
    see (sh.note (.sent c m)) = (see sh).put [⟨c, .reply, canonical m⟩] := by
  simp [see, Shared.note, View.put, List.filterMap_append, Event.asked, Event.parcel, Chat.Sent.parcel]
  rfl

/-- A request of a connection. -/
theorem see_routed (sh : Shared) (s : Slot) (c : Nat) (m : Message) :
    see (sh.note (.routed s c m)) = { see sh with asked := (see sh).asked ++ [(c, m)] } := by
  simp [see, Shared.note, List.filterMap_append, Event.asked, Event.parcel]
  rfl

/-- Pipes and descriptors do not show. -/
theorem see_plumbing (hL : Linked sh) (hc : Change sh a sh') (hpre : Setup a sh)
    (hclient : ∀ j, (sh'.clients j).toEntry = (sh.clients j).toEntry ∧
      (sh'.clients j).pid = (sh.clients j).pid) (hacc : sh'.accepted = sh.accepted)
    (hhist : sh'.history = sh.history) (hlog : sh'.log = sh.log) : see sh' = see sh := by
  refine see_congr ?_ (conn_stays hL hc hpre fun j => (hclient j).2) hacc hhist (by rw [hlog]; simp)
  ext j : 1
  exact (hclient j).1

/-- A new pipe is stored in its slot. -/
theorem client_openTo (sh : Shared) (s j : Slot) (c : Nat) (p : Nat × Nat) :
    ((sh.openTo s c p).clients j).toEntry = (sh.clients j).toEntry ∧
      ((sh.openTo s c p).clients j).pid = (sh.clients j).pid := by
  unfold Shared.openTo
  by_cases hj : j = s
  · subst hj
    rw [clients_setClient_self]
    exact ⟨rfl, rfl⟩
  · rw [clients_setClient_of_ne _ hj]
    exact ⟨rfl, rfl⟩

theorem client_openFrom (sh : Shared) (s j : Slot) (c : Nat) (p : Nat × Nat) :
    ((sh.openFrom s c p).clients j).toEntry = (sh.clients j).toEntry ∧
      ((sh.openFrom s c p).clients j).pid = (sh.clients j).pid := by
  unfold Shared.openFrom
  by_cases hj : j = s
  · subst hj
    rw [clients_setClient_self]
    exact ⟨rfl, rfl⟩
  · rw [clients_setClient_of_ne _ hj]
    exact ⟨rfl, rfl⟩

/-- The pipes of a connection do not show, whether or not they are created. -/
theorem see_pipes {fd : Nat} (hL : Linked sh) (hpre : Setup (.pipes s fd c) sh)
    (h : exec t (.pipes s fd c) i sh = some out) : see out.shared = see sh := by
  have hc := change_of_exec h
  simp only [exec] at h
  split at h
  · obtain rfl := goOn_inj h
    rfl
  · split at h
    · split at h
      · obtain rfl := goOn_inj h
        exact see_plumbing hL hc hpre (fun j => client_openTo sh s j c _) rfl rfl rfl
      · split at h
        · obtain rfl := goOn_inj h
          refine see_plumbing hL hc hpre (fun j => ?_) rfl rfl rfl
          exact ⟨(client_openFrom _ s j c _).1.trans (client_openTo sh s j c _).1,
            (client_openFrom _ s j c _).2.trans (client_openTo sh s j c _).2⟩
        · cases h
    · cases h

/-- Every act of the parent that goes on, and does not fail, leaves its meaning to its
expansion. -/
theorem meaning_sound : (meaning env).Sound see
    (fun _ a i sh => a.owner = .parent ∧ Ready env a i sh ∧ a.fails i = false) exec := by
  constructor
  · rintro t a i sh out h ⟨howner, hr, hfails⟩ hstop
    have hc := change_of_exec h
    cases a with
    | watch | select | check | accept | recv => cases hstop
    | bridge | fromClient | farewell | forward | fromParent | exit => cases howner
    | reap => cases howner
    | findFreeSlot fd c slots => exact meaning_findFreeSlot hr.linked h
    | refuse fd c =>
      obtain rfl := goOn_inj h
      rw [hr.env]
      exact see_sent sh c (serverFull env.now)
    | pipes s fd c =>
      have hsee := see_pipes hr.linked hr.setup h
      simp only [Act.fails, Bool.or_eq_false_iff, Option.isNone_eq_false_iff] at hfails
      obtain ⟨p, hp⟩ := Option.isSome_iff_exists.mp hfails.1
      obtain ⟨q, hq⟩ := Option.isSome_iff_exists.mp hfails.2
      simp only [exec, hp, hq] at h
      split at h
      · split at h
        · obtain rfl := goOn_inj h
          exact congrArg (View.fill · s c) hsee
        · cases h
      · cases h
    | fork s fd c =>
      simp only [Act.fails, Option.isNone_eq_false_iff] at hfails
      obtain ⟨pid, hpid⟩ := Option.isSome_iff_exists.mp hfails
      simp only [exec, hpid] at h
      split at h
      · obtain rfl := Option.some.inj h
        exact congrArg (View.fill · s c) (see_note rfl rfl _)
      · cases h
    | storePid k fd =>
      obtain ⟨-, -, hends, hk⟩ := hr.setup
      obtain rfl := goOn_inj h
      exact see_storePid hends hk.pid
    | closeEnds k fd =>
      obtain rfl := goOn_inj h
      exact see_plumbing hr.linked hc hr.setup (fun _ => ⟨rfl, rfl⟩) rfl rfl rfl
    | closeFd fd =>
      obtain rfl := goOn_inj h
      exact see_plumbing hr.linked hc hr.setup (fun _ => ⟨rfl, rfl⟩) rfl rfl rfl
    | drop s =>
      obtain rfl := goOn_inj h
      exact see_release sh s
    | route s c m =>
      obtain rfl := goOn_inj h
      have hroom : (see (sh.note (.routed s c m))).room = sh.room := rfl
      refine (meaning_route hroom s m).trans ?_
      rw [see_routed]
      rfl
    | checkName s u p =>
      have htaken : (see sh).room.taken .fork s u = (sh.findSlotByUsername u).any (· ≠ s) := rfl
      simp only [exec] at h
      change _ = (see sh).checkName env s u p
      unfold View.checkName
      rw [htaken]
      split at h
      · next hu =>
        obtain rfl := goOn_inj h
        rw [if_pos hu]
        rfl
      · next hu =>
        obtain rfl := goOn_inj h
        rw [if_neg hu]
        rfl
    | validate s u p =>
      simp only [exec, hr.env] at h
      change _ = (see sh).validate env s u p
      unfold View.validate
      split at h
      · next hu =>
        obtain rfl := goOn_inj h
        rw [if_pos hu]
        rfl
      · next hu =>
        obtain rfl := goOn_inj h
        rw [if_neg hu]
        rfl
    | storeName s u =>
      obtain rfl := goOn_inj h
      exact congrArg (View.activate · env s u) (see_setEntry sh s _)
    | activate s u =>
      obtain rfl := goOn_inj h
      exact congrArg (View.send · s (loginSuccessful env.now u)) (see_setEntry sh s _)
    | clear s =>
      obtain rfl := goOn_inj h
      exact see_setEntry sh s _
    | setStatus s m =>
      obtain rfl := goOn_inj h
      exact see_setEntry sh s _
    | notify skip note slots =>
      simp only [exec, hr.env] at h
      split at h
      · obtain rfl := goOn_inj h
        rfl
      · next j slots =>
        refine Eq.trans ?_ (meaning_loop hr.distinct hr.running j (notice env.now note))
        split at h
        · next hj =>
          obtain rfl := goOn_inj h
          rw [if_pos hj]
          rfl
        · next hj =>
          obtain rfl := goOn_inj h
          rw [if_neg hj]
          rfl
    | relay skip m slots =>
      simp only [exec] at h
      split at h
      · obtain rfl := goOn_inj h
        rfl
      · next j slots =>
        refine Eq.trans ?_ (meaning_loop hr.distinct hr.running j m)
        split at h
        · next hj =>
          obtain rfl := goOn_inj h
          rw [if_pos hj]
          rfl
        · next hj =>
          obtain rfl := goOn_inj h
          rw [if_neg hj]
          rfl
    | saveHistory m receiver =>
      obtain rfl := goOn_inj h
      rw [hr.env]
      rfl
    | findTarget s m =>
      have hfind : findName (see sh).room.table m.receiver.toList =
          sh.findSlotByUsername m.receiver.toList := rfl
      simp only [exec] at h
      change _ = (see sh).findTarget env s m
      unfold View.findTarget
      rw [hfind]
      cases hk : sh.findSlotByUsername m.receiver.toList with
      | none =>
        simp only [hk] at h
        obtain rfl := goOn_inj h
        rfl
      | some k =>
        simp only [hk] at h
        obtain rfl := goOn_inj h
        rfl
    | pipeSend s m =>
      obtain rfl := goOn_inj h
      exact see_pipeSend hr.distinct (hr.served s rfl) m
    | listUsers s m =>
      obtain rfl := goOn_inj h
      rfl
    | readHistory s m =>
      obtain rfl := goOn_inj h
      rfl
    | reply s make =>
      obtain rfl := goOn_inj h
      rw [hr.env]
      exact see_pipeSend hr.distinct (hr.served s rfl) (make env.now)
  · exact fun h hstop => free_next h hstop

end ChatSystem.Fork
