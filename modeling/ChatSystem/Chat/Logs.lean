import ChatSystem.Chat.Senders
import ChatSystem.Chat.Timestamps
import ChatSystem.Server.Log

/-!
# The logs of a chat server

Whatever happens to a server, its history is the work of one call of `save_history` after the
other, each for a message from a slot that is logged in. Only logged in clients are named as
receivers.
-/

namespace ChatSystem.Chat

open Bytes Transition

/-- One event, as long as no absent result is used. -/
def serve? (fl : Flavour) (zone : Zone) (room : Room) : Event → Option Room
  | .request c m env =>
    match room.slotOf c with
    | none => some room
    | some s => (room.route? fl zone env s m.val).map Prod.fst
  | e => some (serve fl room e).1

/-- The call for a message. -/
def callFor (m : Request) (receiver : List UInt8) (opens : Bool)
    (h : receiver = [] ∨ ValidName receiver) : Call where
  sender := m.val.senderStr
  receiver := receiver
  text := m.val.payloadStr
  ts := m.val.timestamp
  opens := opens
  sender_le := length_senderStr_le m
  receiver_ok := h

/-- An event makes a call: for a message to everybody, or to the client that is named. -/
inductive Calling (room : Room) (e : Event) : Call → Prop
  | broadcast {s : Slot} {m : Request} (h : Relays room e s m.val)
      (hkind : m.val.kind = some .broadcast) (opens : Bool) :
      Calling room e (callFor m [] opens (Or.inl rfl))
  | priv {s t : Slot} {m : Request} (h : Relays room e s m.val) (hkind : m.val.kind = some .priv)
      (hactive : (room.table t).active = true) (hname : (room.table t).name = m.val.receiverStr)
      (opens : Bool) (hvalid : ValidName m.val.receiverStr) :
      Calling room e (callFor m m.val.receiverStr opens (Or.inr hvalid))

/-- The history behind an event is the one before it, or the work of one call. -/
def Logged (zone : Zone) (room : Room) (e : Event) (h : History) : Prop :=
  h = room.history ∨ ∃ c, Calling room e c ∧ callStep zone room.history c = some h

variable {fl : Flavour} {zone : Zone} {room t : Room} {e : Event} {s : Slot} {env : Env}

/-- Saving a message is a call. -/
theorem save?_call (m : Request) {receiver : List UInt8} (h : receiver = [] ∨ ValidName receiver) :
    (room.save? zone env m.val receiver).map Room.history =
      callStep zone room.history
        (callFor m receiver (env.host.canAppend (historyPath m.val.senderStr)) h) := by
  rw [Room.save?, Option.map_map]
  exact Option.map_id_apply

/-- What a branch makes of the history that saves the message first. -/
theorem callStep_of_saved (m : Request) {receiver : List UInt8}
    (hok : receiver = [] ∨ ValidName receiver) {sent sent' : List Sent}
    (h : (room.save? zone env m.val receiver >>= fun saved => some (saved, sent')) =
      some (t, sent)) :
    callStep zone room.history
      (callFor m receiver (env.host.canAppend (historyPath m.val.senderStr)) hok) =
      some t.history := by
  obtain ⟨saved, hsave, he⟩ := Option.bind_eq_some_iff.mp h
  obtain ⟨rfl, -⟩ := Prod.mk.inj (Option.some.inj he)
  rw [← save?_call, hsave]
  rfl

section Branches

variable {m : Request} {sent : List Sent}

theorem history_of_broadcast? (hkind : m.val.kind = some .broadcast)
    (hrelays : (room.table s).active = true → Relays room e s m.val)
    (hr : room.broadcast? zone env s m.val = some (t, sent)) : Logged zone room e t.history := by
  unfold Room.broadcast? at hr
  split at hr
  · obtain ⟨rfl, -⟩ := Prod.mk.inj (Option.some.inj hr)
    exact Or.inl rfl
  · next hactive =>
    have hrel := hrelays (by simpa using hactive)
    exact Or.inr ⟨_, .broadcast hrel hkind _, callStep_of_saved m (Or.inl rfl) hr⟩

/-- The receiver of a private message that is logged has a valid name, since it is online. -/
theorem history_of_priv? (h : Tidy room) (hkind : m.val.kind = some .priv)
    (hrelays : (room.table s).active = true → Relays room e s m.val)
    (hr : room.priv? zone env s m.val = some (t, sent)) : Logged zone room e t.history := by
  unfold Room.priv? at hr
  split at hr
  · obtain ⟨rfl, -⟩ := Prod.mk.inj (Option.some.inj hr)
    exact Or.inl rfl
  · next hactive =>
    have hrel := hrelays (by simpa using hactive)
    split at hr
    · obtain ⟨rfl, -⟩ := Prod.mk.inj (Option.some.inj hr)
      exact Or.inl rfl
    · next i hfind =>
      obtain ⟨hact, hname⟩ := (Entry.holds_iff_cstr (List.Vector.toList_length _).le).mp
        (findName_eq_some hfind)
      have hvalid : ValidName m.val.receiverStr := by
        rw [Message.receiverStr, ← hname]
        exact h.names.valid i hact
      exact Or.inr ⟨_, .priv hrel hkind hact hname _ hvalid,
        callStep_of_saved m (Or.inr hvalid) hr⟩

/-- A router leaves the history alone or makes one call. -/
theorem history_of_route? (h : Tidy room)
    (hrelays : m.val.kind = some .broadcast ∨ m.val.kind = some .priv →
      (room.table s).active = true → Relays room e s m.val)
    (hr : room.route? fl zone env s m.val = some (t, sent)) : Logged zone room e t.history := by
  unfold Room.route? at hr
  split at hr
  · next hkind => exact history_of_broadcast? hkind (hrelays (Or.inl hkind)) hr
  · next hkind => exact history_of_priv? h hkind (hrelays (Or.inr hkind)) hr
  · next h1 h2 =>
    have ht : (room.route fl env s m.val).1 = t := congrArg Prod.fst (Option.some.inj hr)
    left
    ext p : 1
    by_contra hne
    rw [← ht] at hne
    obtain ⟨-, hkind | hkind, -⟩ := logged_of_route hne
    · exact h1 hkind
    · exact h2 hkind

end Branches

theorem serve?_of_slotOf {c : Nat} (h : room.slotOf c = some s) (m : Request) :
    serve? fl zone room (.request c m env) = (room.route? fl zone env s m.val).map Prod.fst := by
  simp only [serve?, h]

theorem serve?_of_stranger {c : Nat} (h : room.slotOf c = none) (m : Request) :
    serve? fl zone room (.request c m env) = some room := by
  simp only [serve?, h]

/-- An event that completes leaves the server in order. -/
theorem Tidy.serve? (h : Tidy room) (hs : serve? fl zone room e = some t) : Tidy t := by
  cases e with
  | connect env =>
    obtain rfl := Option.some.inj hs
    exact h.serve fl (.connect env)
  | close c how =>
    obtain rfl := Option.some.inj hs
    exact h.serve fl (.close c how)
  | request c m env =>
    cases hslot : room.slotOf c with
    | none =>
      rw [serve?_of_stranger hslot] at hs
      obtain rfl := Option.some.inj hs
      exact h
    | some s =>
      rw [serve?_of_slotOf hslot, route?_eq] at hs
      split at hs
      · obtain rfl := Option.some.inj hs
        exact h.route (conn_of_slotOf hslot) fl _ m.val
      · cases hs

/-- An event leaves the history alone or makes one call. -/
theorem history_of_serve? (h : Tidy room) (hs : serve? fl zone room e = some t) : Logged zone room e t.history := by
  cases e with
  | connect env =>
    obtain rfl := Option.some.inj hs
    exact Or.inl (history_connect fl room env)
  | close c how =>
    obtain rfl := Option.some.inj hs
    exact Or.inl (history_close fl room c how)
  | request c m env =>
    cases hslot : room.slotOf c with
    | none =>
      rw [serve?_of_stranger hslot] at hs
      obtain rfl := Option.some.inj hs
      exact Or.inl rfl
    | some s =>
      rw [serve?_of_slotOf hslot] at hs
      obtain ⟨⟨t', sent⟩, hroute, rfl⟩ := Option.map_eq_some_iff.mp hs
      exact history_of_route? h
        (fun hkind hactive => ⟨⟨c, m, env, rfl, hslot, rfl⟩, hactive, hkind⟩) hroute

/-- The history behind a list of events is the work of the calls the events make. -/
theorem calls_of_run {es : List Event} (h : Tidy room)
    (hrun : run (serve? fl zone) room es = some t) :
    ∃ cs, run (callStep zone) room.history cs = some t.history ∧
      ∀ c ∈ cs, ∃ r, Tidy r ∧ ∃ e ∈ es, Calling r e c := by
  induction es generalizing room with
  | nil =>
    obtain rfl := Option.some.inj hrun
    exact ⟨[], rfl, fun c hc => by cases hc⟩
  | cons e es ih =>
    obtain ⟨mid, hstep, hrest⟩ := run_cons_iff.mp hrun
    obtain ⟨cs, hcs, hfrom⟩ := ih (h.serve? hstep) hrest
    have hlater : ∀ c ∈ cs, ∃ r, Tidy r ∧ ∃ e' ∈ e :: es, Calling r e' c := by
      intro c hc
      obtain ⟨r, hr, e', he', hcall⟩ := hfrom c hc
      exact ⟨r, hr, e', List.mem_cons_of_mem _ he', hcall⟩
    rcases history_of_serve? h hstep with hsame | ⟨c, hcall, hc⟩
    · rw [hsame] at hcs
      exact ⟨cs, hcs, hlater⟩
    · refine ⟨c :: cs, run_cons_iff.mpr ⟨_, hc, hcs⟩, ?_⟩
      rintro d (_ | ⟨_, hd⟩)
      · exact ⟨room, h, e, List.mem_cons_self, hcall⟩
      · exact hlater d hd

end ChatSystem.Chat
