import ChatSystem.Chat.Agreement
import ChatSystem.Protocol.Reencode

/-!
# Names on relayed messages

No server compares the sender field of a request with the login of its connection. What is
relayed and logged carries that field as it came; the login only decides whether there is
something to relay.
-/

namespace ChatSystem.Chat

open Bytes Reactive

/-- A request of a slot that is logged in, to relay a message. -/
structure Relays (room : Room) (e : Event) (s : Slot) (m : Message) : Prop where
  event : ∃ c req env, e = .request c req env ∧ room.slotOf c = some s ∧ req.val = m
  active : (room.table s).active = true
  kind : m.kind = some .broadcast ∨ m.kind = some .priv

/-- What an event relays and logs comes from the request of a slot that is logged in, under
the name in the request's sender field. -/
structure AsRequested (fl : Flavour) (room : Room) (e : Event) : Prop where
  relayed : ∀ x ∈ (serve fl room e).2, x.via = .relay → ∃ s m, Relays room e s m ∧
    x.frame = canonical m ∧ x.frame.senderStr = m.senderStr
  logged : ∀ p, (serve fl room e).1.history p ≠ room.history p → ∃ s m, Relays room e s m ∧
    p = historyPath m.senderStr

/-- What an event relays to other clients and logs carries the name its slot is logged in
under. -/
structure Authentic (fl : Flavour) (room : Room) (e : Event) : Prop where
  relayed : ∀ x ∈ (serve fl room e).2, x.via = .relay → ∀ s m, Relays room e s m →
    room.conn s ≠ some x.conn → x.frame.senderStr = (room.table s).name
  logged : ∀ p, (serve fl room e).1.history p ≠ room.history p → ∀ s m, Relays room e s m →
    p = historyPath (room.table s).name

variable {fl : Flavour} {room : Room} {s : Slot} {c : Nat} {env : Env} {m : Message} {e : Event}

/-- The sender of a received message ends inside its field. -/
theorem length_senderStr_le (m : Request) : m.val.senderStr.length ≤ 31 := by
  obtain ⟨m, f, -, h⟩ := m
  obtain ⟨-, -, -, -, -, hsender, -⟩ := unpackMessage_eq_some h
  have hname : cstr m.sender.toList = cstr (fit 31 (f.drop 2)).toList := by
    rw [hsender]
    exact cstr_append_zeros (fit 31 (f.drop 2)).toList 1
  change (cstr m.sender.toList).length ≤ 31
  rw [hname]
  exact (length_cstr_le _).trans (List.Vector.toList_length _).le

/-- The sender of a received message as its next receiver reads it. -/
theorem senderStr_canonical (m : Request) : (canonical m.val).senderStr = m.val.senderStr := by
  have hlen := length_senderStr_le m
  change cstr (nameField m.val.sender.toList).toList = m.val.senderStr
  rw [cstr_nameField]
  exact List.take_of_length_le hlen

theorem via_copies {slots : List Slot} {via : Via} {x : Sent} (h : x ∈ room.copies slots via m) :
    x.via = via ∧ x.frame = canonical m := by
  obtain ⟨i, -, hi⟩ := List.mem_filterMap.mp h
  obtain ⟨c, -, rfl⟩ := Option.map_eq_some_iff.mp hi
  exact ⟨rfl, rfl⟩

/-- A router relays only the messages of a slot that is logged in. -/
theorem relayed_of_route {x : Sent} (h : x ∈ (room.route fl env s m).2) (hx : x.via = .relay) :
    (room.table s).active = true ∧ (m.kind = some .broadcast ∨ m.kind = some .priv) ∧
      x.frame = canonical m := by
  have hreply : ∀ n, x ∉ room.reply s n := by
    intro n hn
    rw [(via_copies hn).1] at hx
    cases hx
  have hnotice : ∀ n, x ∉ room.copies (room.others s) .notice n := by
    intro n hn
    rw [(via_copies hn).1] at hx
    cases hx
  unfold Room.route at h
  split at h
  · unfold Room.login at h
    split at h
    · exact absurd h (hreply _)
    · split at h
      · exact absurd h (hreply _)
      · split at h
        · exact absurd h (hreply _)
        · exact absurd h (hreply _)
  · cases fl with
    | fork => exact absurd h (hnotice _)
    | thread => exact absurd h (hnotice _)
    | epoll => exact absurd h (hnotice _)
  · next hkind =>
    unfold Room.broadcast at h
    split at h
    · exact absurd h (hreply _)
    · next hactive =>
      rcases List.mem_append.mp h with h | h
      · exact ⟨by simpa using hactive, Or.inl hkind, (via_copies h).2⟩
      · exact absurd h (hreply _)
  · next hkind =>
    unfold Room.priv at h
    split at h
    · exact absurd h (hreply _)
    · next hactive =>
      split at h
      · exact absurd h (hreply _)
      · rcases List.mem_append.mp h with h | h
        · exact ⟨by simpa using hactive, Or.inr hkind, (via_copies h).2⟩
        · exact absurd h (hreply _)
  · exact absurd h (hreply _)
  · exact absurd h (hreply _)
  · exact absurd h (hreply _)
  · exact absurd h (hreply _)

/-- Saving a message touches the log its sender field names. -/
theorem path_of_save {receiver p : List UInt8}
    (h : (room.save env m receiver).history p ≠ room.history p) : p = historyPath m.senderStr := by
  by_contra hp
  apply h
  simp only [Room.save, History.save, saveHistory]
  split
  · exact Function.update_of_ne hp _ _
  · rfl

theorem logged_of_route {p : List UInt8}
    (h : (room.route fl env s m).1.history p ≠ room.history p) :
    (room.table s).active = true ∧ (m.kind = some .broadcast ∨ m.kind = some .priv) ∧
      p = historyPath m.senderStr := by
  unfold Room.route at h
  split at h
  · unfold Room.login at h
    split at h
    · exact absurd rfl h
    · split at h
      · exact absurd rfl h
      · split at h
        · exact absurd rfl h
        · exact absurd rfl h
  · cases fl with
    | fork => exact absurd rfl h
    | thread => exact absurd rfl h
    | epoll => exact absurd rfl h
  · next hkind =>
    unfold Room.broadcast at h
    split at h
    · exact absurd rfl h
    · next hactive => exact ⟨by simpa using hactive, Or.inl hkind, path_of_save h⟩
  · next hkind =>
    unfold Room.priv at h
    split at h
    · exact absurd rfl h
    · next hactive =>
      split at h
      · exact absurd rfl h
      · exact ⟨by simpa using hactive, Or.inr hkind, path_of_save h⟩
  · exact absurd rfl h
  · exact absurd rfl h
  · exact absurd rfl h
  · exact absurd rfl h

/-- A departure notice is not relayed. -/
theorem via_partings {how : Leaving} {x : Sent} (h : x ∈ room.partings fl how s) :
    x.via = .notice := by
  unfold Room.partings at h
  split at h
  · split at h
    · cases h
    · exact (via_copies h).1
  · split at h
    · exact (via_copies h).1
    · cases h

theorem history_connect (fl : Flavour) (room : Room) (env : Env) :
    (room.connect fl env).1.history = room.history := by
  unfold Room.connect
  split <;> rfl

theorem history_close (fl : Flavour) (room : Room) (c : Nat) (how : Leaving) :
    (room.close fl c how).1.history = room.history := by
  unfold Room.close
  split <;> rfl

/-- Every event relays and logs as requested. -/
theorem asRequested (fl : Flavour) (room : Room) (e : Event) : AsRequested fl room e := by
  cases e with
  | connect env =>
    constructor
    · intro x hx hvia
      change x ∈ (room.connect fl env).2 at hx
      unfold Room.connect at hx
      split at hx
      · obtain rfl := List.mem_singleton.mp hx
        cases hvia
      · cases hx
    · exact fun p hp => absurd (congrFun (history_connect fl room env) p) hp
  | request c m env =>
    cases hs : room.slotOf c with
    | none =>
      have hout : serve fl room (.request c m env) = (room, []) := by
        simp only [serve, Room.request, hs]
      constructor
      · intro x hx
        rw [hout] at hx
        cases hx
      · intro p hp
        rw [hout] at hp
        exact absurd rfl hp
    | some s =>
      have hout : serve fl room (.request c m env) = room.route fl env s m.val := by
        simp only [serve, Room.request, hs]
      have hevent : ∃ c' req env', Event.request c m env = .request c' req env' ∧
          room.slotOf c' = some s ∧ req.val = m.val := ⟨c, m, env, rfl, hs, rfl⟩
      constructor
      · intro x hx hvia
        rw [hout] at hx
        obtain ⟨hactive, hkind, hframe⟩ := relayed_of_route hx hvia
        refine ⟨s, m.val, ⟨hevent, hactive, hkind⟩, hframe, ?_⟩
        rw [hframe, senderStr_canonical]
      · intro p hp
        rw [hout] at hp
        obtain ⟨hactive, hkind, hpath⟩ := logged_of_route hp
        exact ⟨s, m.val, ⟨hevent, hactive, hkind⟩, hpath⟩
  | close c how =>
    constructor
    · intro x hx hvia
      change x ∈ (room.close fl c how).2 at hx
      unfold Room.close at hx
      split at hx
      · cases hx
      · rw [via_partings hx] at hvia
        cases hvia
    · exact fun p hp => absurd (congrFun (history_close fl room c how) p) hp

/-- The slot and the message of a request are those of the event. -/
theorem Relays.unique {s' : Slot} {m' : Message} (h : Relays room e s m)
    (h' : Relays room e s' m') : s' = s ∧ m' = m := by
  obtain ⟨c, req, env, rfl, hs, rfl⟩ := h.event
  obtain ⟨c', req', env', heq, hs', rfl⟩ := h'.event
  cases heq
  exact ⟨Option.some.inj (hs'.symm.trans hs), rfl⟩

/-- In every run of each server, what is relayed and logged carries the sender field of a
request of a slot that is logged in, and so the name of that slot wherever the request does. -/
theorem relayed_as_requested (fl : Flavour) (history : History) (es : List Event) :
    Along (serve fl) (fun room e => AsRequested fl room e ∧
      ((∀ s m, Relays room e s m → m.senderStr = (room.table s).name) → Authentic fl room e))
      (.init history) es := by
  apply along_iff.mpr
  intro past e future _
  have hall := asRequested fl (after (serve fl) (.init history) past) e
  refine ⟨hall, fun hown => ⟨?_, ?_⟩⟩
  · intro x hx hvia s m hrelays _
    obtain ⟨s', m', hrelays', -, hsender⟩ := hall.relayed x hx hvia
    obtain ⟨rfl, rfl⟩ := hrelays'.unique hrelays
    rw [hsender, hown _ _ hrelays]
  · intro p hp s m hrelays
    obtain ⟨s', m', hrelays', hpath⟩ := hall.logged p hp
    obtain ⟨rfl, rfl⟩ := hrelays'.unique hrelays
    rw [hpath, hown _ _ hrelays]

/-- A client that calls itself the server is relayed as the server. -/
theorem relayed_as_server : ∃ es, ∀ fl,
    ¬ Along (serve fl) (Authentic fl) (.init fun _ => none) es := by
  let past := oneLogin ++
    [.request 0 (Request.make 0 .login (ascii "al") [] (ascii "al:pw")) plainEnv]
  let m := Request.make 0 .broadcast (ascii "server") [] (ascii "hi")
  refine ⟨past ++ [.request 0 m plainEnv], fun fl hall => ?_⟩
  have hauth : Authentic fl (roomAfter fl (fun _ => none) past) (.request 0 m plainEnv) :=
    along_iff.mp hall past (.request 0 m plainEnv) [] rfl
  have hslot : (roomAfter fl (fun _ => none) past).slotOf 0 = some 0 := by
    cases fl <;> rfl
  have hname : ((roomAfter fl (fun _ => none) past).table 0).name = ascii "al" := by
    cases fl <;> rfl
  have hactive : ((roomAfter fl (fun _ => none) past).table 0).active = true := by
    cases fl <;> rfl
  have hbob : ((roomAfter fl (fun _ => none) past).table 1).active = true := by
    cases fl <;> rfl
  have hconn : (roomAfter fl (fun _ => none) past).conn 1 = some 1 := by
    cases fl <;> rfl
  have hconn' : (roomAfter fl (fun _ => none) past).conn 0 = some 0 := conn_of_slotOf hslot
  generalize roomAfter fl (fun _ => none) past = room at *
  have hkind : m.val.kind = some .broadcast := kind_makeMessage ..
  have hsent : (⟨1, .relay, canonical m.val⟩ : Sent) ∈
      (serve fl room (.request 0 m plainEnv)).2 := by
    simp only [serve, Room.request, hslot, Room.route, hkind, Room.broadcast, hactive,
      Bool.not_true, Bool.false_eq_true, if_false]
    apply List.mem_append_left
    exact List.mem_filterMap.mpr ⟨1, mem_others.mpr ⟨by decide, hbob⟩, by rw [hconn]; rfl⟩
  have hsender := hauth.relayed _ hsent rfl 0 m.val
    ⟨⟨0, m, plainEnv, rfl, hslot, rfl⟩, hactive, Or.inl hkind⟩ (by rw [hconn']; decide)
  rw [senderStr_canonical, hname] at hsender
  exact absurd hsender (by decide)

end ChatSystem.Chat
