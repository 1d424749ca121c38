import ChatSystem.Chat.Departures
import ChatSystem.Chat.Secrecy

/-!
# Connections that never log in

Before a login only two kinds of request are refused, but the others only touch the status
of the slot, which nobody sees, and answer their sender. The exception is a logout.
-/

namespace ChatSystem.Chat

open Bytes Reactive

/-- Entries that look the same to every client: the status counts while the slot is active. -/
structure Alike (e e' : Entry) : Prop where
  username : e'.username = e.username
  active : e'.active = e.active
  status : e.active = true → e'.status = e.status

/-- Rooms that look the same to every client. -/
structure Twin (room room' : Room) : Prop where
  table : ∀ s, Alike (room.table s) (room'.table s)
  conn : room'.conn = room.conn
  accepted : room'.accepted = room.accepted
  history : room'.history = room.history

variable {fl : Flavour} {room room' : Room} {s : Slot} {c : Nat} {env : Env} {m : Message}
  {e e' : Entry} {table table' : Slot → Entry}

namespace Alike

theorem refl (e : Entry) : Alike e e := ⟨rfl, rfl, fun _ => rfl⟩

theorem name (h : Alike e e') : e'.name = e.name := by
  rw [Entry.name, Entry.name, h.username]

theorem holds (h : Alike e e') (u : List UInt8) : e'.holds u = e.holds u := by
  rw [Entry.holds, Entry.holds, h.username, h.active]

theorem login (h : Alike e e') (u : List UInt8) : e'.login u = e.login u := by
  simp only [Entry.login, Entry.setName, Entry.activate, h.username]

theorem clear (e e' : Entry) : Alike e.clear e'.clear :=
  ⟨rfl, rfl, fun hf => absurd hf Bool.false_ne_true⟩

theorem setStatus (h : Alike e e') (n : Nat) : Alike (e.setStatus n) (e'.setStatus n) :=
  ⟨h.username, h.active, fun _ => rfl⟩

/-- The status of an inactive slot is not seen. -/
theorem setStatus_left (h : Alike e e') (hs : e.active = false) (n : Nat) :
    Alike (e.setStatus n) e' := by
  refine ⟨h.username, h.active, fun hf => ?_⟩
  rw [show (e.setStatus n).active = e.active from rfl, hs] at hf
  cases hf

theorem released (fl : Flavour) (e e' : Entry) : Alike (fl.released e) (fl.released e') := by
  cases fl with
  | epoll => exact refl _
  | fork => exact clear e e'
  | thread => exact clear e e'

theorem filled (h : Alike e e') (fl : Flavour) : Alike (fl.filled e) (fl.filled e') := by
  cases fl with
  | fork => exact h
  | thread => exact (clear e e').setStatus statusAvailable
  | epoll => exact refl _

theorem listStep (h : Alike e e') (acc : List UInt8 × Bool) :
    listStep acc e' = listStep acc e := by
  cases ha : e.active with
  | false => simp only [ChatSystem.listStep, h.active, ha, Bool.not_false, Bool.true_or, if_true]
  | true => simp only [ChatSystem.listStep, h.active, h.name, h.status ha]

end Alike

/-! ## Tables that look the same -/

theorem findName_alike (h : ∀ s, Alike (table s) (table' s)) (u : List UInt8) :
    findName table' u = findName table u := by
  rw [findName, findName, funext fun i => (h i).holds u]

theorem listUsers_alike (h : ∀ s, Alike (table s) (table' s)) :
    listUsers table' = listUsers table := by
  have hfold : ∀ (is : List Slot) (acc : List UInt8 × Bool),
      (is.map table').foldl listStep acc = (is.map table).foldl listStep acc := by
    intro is
    induction is with
    | nil => exact fun _ => rfl
    | cons i is ih =>
      intro acc
      rw [List.map_cons, List.map_cons, List.foldl_cons, List.foldl_cons, (h i).listStep, ih]
  rw [listUsers, listUsers, hfold]

theorem alike_update (h : ∀ s, Alike (table s) (table' s)) (he : Alike e e') (s i : Slot) :
    Alike (Function.update table s e i) (Function.update table' s e' i) := by
  by_cases hi : i = s
  · rw [hi, Function.update_self, Function.update_self]
    exact he
  · rw [Function.update_of_ne hi, Function.update_of_ne hi]
    exact h i

namespace Twin

theorem others (h : Twin room room') (s : Slot) : room'.others s = room.others s := by
  simp only [Room.others, (h.table _).active]

theorem copies (h : Twin room room') (slots : List Slot) (via : Via) (m : Message) :
    room'.copies slots via m = room.copies slots via m := by
  simp only [Room.copies, h.conn]

theorem reply (h : Twin room room') (s : Slot) (m : Message) :
    room'.reply s m = room.reply s m := h.copies [s] .reply m

theorem slotOf (h : Twin room room') (c : Nat) : room'.slotOf c = room.slotOf c := by
  simp only [Room.slotOf, h.conn]

theorem taken (h : Twin room room') (fl : Flavour) (s : Slot) (u : List UInt8) :
    room'.taken fl s u = room.taken fl s u := by
  simp only [Room.taken, findName_alike h.table]

theorem setEntry (h : Twin room room') (he : Alike e e') (s : Slot) :
    Twin (room.setEntry s e) (room'.setEntry s e') :=
  ⟨alike_update h.table he s, h.conn, h.accepted, h.history⟩

theorem save (h : Twin room room') (env : Env) (m : Message) (receiver : List UInt8) :
    Twin (room.save env m receiver) (room'.save env m receiver) := by
  refine ⟨h.table, h.conn, h.accepted, ?_⟩
  simp only [Room.save, h.history]

theorem release (h : Twin room room') (fl : Flavour) (s : Slot) :
    Twin (room.release fl s) (room'.release fl s) := by
  refine ⟨alike_update h.table (.released fl _ _) s, ?_, h.accepted, h.history⟩
  rw [conn_release, conn_release, h.conn]

theorem fill (h : Twin room room') (fl : Flavour) (s : Slot) :
    Twin (room.fill fl s) (room'.fill fl s) := by
  refine ⟨alike_update h.table ((h.table s).filled fl) s, ?_, ?_, h.history⟩
  · rw [conn_fill, conn_fill, h.conn, h.accepted]
  · exact congrArg (· + 1) h.accepted

theorem farewell (h : Twin room room') (env : Env) (s : Slot) :
    room'.farewell env s = room.farewell env s := by
  simp only [Room.farewell, h.copies, h.others, (h.table s).name]

/-- The routers do the same in rooms that look the same. -/
theorem route (h : Twin room room') (fl : Flavour) (env : Env) (s : Slot) (m : Message) :
    Twin (room.route fl env s m).1 (room'.route fl env s m).1 ∧
      (room'.route fl env s m).2 = (room.route fl env s m).2 := by
  simp only [Room.route]
  split
  · simp only [Room.login, h.taken, h.reply]
    split
    · exact ⟨h, rfl⟩
    · next u p _ =>
      split
      · exact ⟨h, rfl⟩
      · split
        · exact ⟨h, rfl⟩
        · refine ⟨?_, rfl⟩
          rw [(h.table s).login]
          exact h.setEntry (.refl _) s
  · cases fl with
    | fork => exact ⟨h.setEntry (.clear _ _) s, h.farewell env s⟩
    | thread => exact ⟨h.release .thread s, h.farewell env s⟩
    | epoll => exact ⟨h.release .epoll s, h.farewell env s⟩
  · simp only [Room.broadcast, (h.table s).active, h.reply, h.copies, h.others]
    split
    · exact ⟨h, rfl⟩
    · exact ⟨h.save env m [], rfl⟩
  · simp only [Room.priv, (h.table s).active, h.reply, h.copies, findName_alike h.table]
    split
    · exact ⟨h, rfl⟩
    · split
      · exact ⟨h, rfl⟩
      · exact ⟨h.save env m m.receiverStr, rfl⟩
  · exact ⟨h, by simp only [h.reply, userList, listUsers_alike h.table]⟩
  · exact ⟨h, by simp only [h.reply, h.history]⟩
  · exact ⟨h.setEntry ((h.table s).setStatus _) s, h.reply s _⟩
  · exact ⟨h, h.reply s _⟩

/-- So does every event. -/
theorem serve (h : Twin room room') (fl : Flavour) (e : Event) :
    Twin (serve fl room e).1 (serve fl room' e).1 ∧
      (Chat.serve fl room' e).2 = (Chat.serve fl room e).2 := by
  cases e with
  | connect env =>
    simp only [Chat.serve, Room.connect, h.conn]
    split
    · refine ⟨⟨h.table, rfl, congrArg (· + 1) h.accepted, h.history⟩, ?_⟩
      rw [h.accepted]
    · exact ⟨h.fill fl _, rfl⟩
  | request c m env =>
    simp only [Chat.serve, Room.request, h.slotOf]
    split
    · exact ⟨h, rfl⟩
    · exact h.route fl env _ m.val
  | close c how =>
    simp only [Chat.serve, Room.close, h.slotOf]
    split
    · exact ⟨h, rfl⟩
    · next s _ =>
      refine ⟨h.release fl s, ?_⟩
      simp only [Room.partings, h.farewell, h.copies, h.others, (h.table s).active]
      cases fl with
      | fork => rfl
      | thread => simp only [Flavour.lastName, Thread.savedName, (h.table s).username]
      | epoll => simp only [Flavour.lastName, (h.table s).name]

end Twin

/-! ## Requests that leave no trace -/

/-- Every event but the requests of a connection. -/
def notFrom (c : Nat) : Event → Bool
  | .request d _ _ => d ≠ c
  | _ => true

/-- A connection with a slot does not log out. -/
def NoLogout (c : Nat) (room : Room) (e : Event) : Prop :=
  ∀ m env, e = .request c m env → room.slotOf c ≠ none → m.val.kind ≠ some .logout

/-- A connection is not logged in. -/
def Stranger (c : Nat) (room : Room) : Prop := ∀ name, ¬ LoggedInAs room c name

theorem Stranger.inactive (h : Stranger c room) (hs : room.conn s = some c) :
    (room.table s).active = false := by
  cases ha : (room.table s).active with
  | false => rfl
  | true => exact absurd ⟨s, hs, ha, rfl⟩ (h _)

/-- A message for another connection. -/
def awayFrom (c : Nat) (x : Sent) : Option Sent := if x.conn = c then none else some x

theorem filterMap_reply (hs : room.conn s = some c) (m : Message) :
    (room.reply s m).filterMap (awayFrom c) = [] := by
  simp [Room.reply, Room.copies, hs, awayFrom]

/-- A request other than a logout that does not log in is not seen by the others. -/
theorem unseen_route (h : Twin room room') (hs : room.conn s = some c)
    (hkind : m.kind ≠ some .logout) (hbefore : (room.table s).active = false)
    (hafter : ((room.route fl env s m).1.table s).active = false) :
    Twin (room.route fl env s m).1 room' ∧ (room.route fl env s m).2.filterMap
      (awayFrom c) = [] := by
  simp only [Room.route] at hafter ⊢
  split
  · next hlogin =>
    simp only [hlogin, Room.login] at hafter ⊢
    split
    · exact ⟨h, filterMap_reply hs _⟩
    · split
      · exact ⟨h, filterMap_reply hs _⟩
      · split
        · exact ⟨h, filterMap_reply hs _⟩
        · next hscan htaken hvalid =>
          simp only [hscan, htaken, hvalid, Bool.false_eq_true, if_false, table_setEntry,
            Function.update_self] at hafter
          cases hafter
  · next hlogout => exact absurd hlogout hkind
  · simp only [Room.broadcast, hbefore, Bool.not_false, if_true]
    exact ⟨h, filterMap_reply hs _⟩
  · simp only [Room.priv, hbefore, Bool.not_false, if_true]
    exact ⟨h, filterMap_reply hs _⟩
  · exact ⟨h, filterMap_reply hs _⟩
  · exact ⟨h, filterMap_reply hs _⟩
  · refine ⟨⟨fun i => ?_, h.conn, h.accepted, h.history⟩, filterMap_reply hs _⟩
    by_cases hi : i = s
    · rw [table_setEntry, hi, Function.update_self]
      exact (h.table s).setStatus_left hbefore _
    · rw [table_setEntry, Function.update_of_ne hi]
      exact h.table i
  · exact ⟨h, filterMap_reply hs _⟩

theorem unseen_request (h : Twin room room') {m : Request} (hbefore : Stranger c room)
    (hafter : Stranger c (serve fl room (.request c m env)).1)
    (hok : NoLogout c room (.request c m env)) :
    Twin (serve fl room (.request c m env)).1 room' ∧
      (serve fl room (.request c m env)).2.filterMap (awayFrom c) = [] := by
  cases hs : room.slotOf c with
  | none => simp [serve, Room.request, hs, h]
  | some s =>
    have hkind := hok m env rfl (by rw [hs]; exact Option.some_ne_none s)
    have hconn := conn_of_slotOf hs
    simp only [serve, Room.request, hs] at hafter ⊢
    have hstill : (room.route fl env s m.val).1.conn s = some c := by
      rw [conn_route hkind, hconn]
    exact unseen_route h hconn hkind (hbefore.inactive hconn) (hafter.inactive hstill)

/-- Every other connection can tell its frames from the messages away from `c`. -/
theorem framesTo_awayFrom {d : Nat} (hd : d ≠ c) (out : List Sent) :
    framesTo d (out.filterMap (awayFrom c)) = framesTo d out := by
  rw [framesTo, framesTo, List.filterMap_filterMap]
  congr 1
  funext x
  by_cases hx : x.conn = c
  · simp [hx, hd.symm, awayFrom]
  · simp [hx, awayFrom]

theorem stranger_of_inactive {room : Room} (h : (room.table 0).active = false)
    (hconn : ∀ s, room.conn s = some 0 → s = 0) : Stranger 0 room := by
  rintro name ⟨s, hs, hactive, -⟩
  rw [hconn s hs, h] at hactive
  cases hactive

/-- A broadcast before any login, beside a client that is logged in. -/
def earlyBroadcast : List Event :=
  oneLogin ++ [.request 0 (Request.make 0 .broadcast [] [] (ascii "hi")) plainEnv]

end ChatSystem.Chat
