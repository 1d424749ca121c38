import ChatSystem.Chat.Tidy

/-!
# Departure notices

A session ends with a logout or with its connection, and the others are told so from up to
three places of each server. They are told exactly once, under the right name, except where
a server announces a connection that is not logged in, skips the announcement, or reads
behind the name it has saved.
-/

namespace ChatSystem.Chat

open Bytes Reactive

/-- The departure notices among some messages. -/
def notices (out : List Sent) : List Sent := out.filter fun x => x.via = .notice

/-- The slot whose session ends with an event. -/
def ending (room : Room) : Event → Option Slot
  | .connect _ => none
  | .request c m _ =>
    if m.val.kind = some .logout then (room.slotOf c).filter fun s => (room.table s).active
    else none
  | .close c _ => (room.slotOf c).filter fun s => (room.table s).active

/-- A broadcast of the server that says a user is gone. -/
structure Announces (user : List UInt8) (m : Message) : Prop where
  kind : m.kind = some .broadcast
  sender : m.senderStr = serverName
  text : m.payloadStr = user ++ ascii " left" ∨ m.payloadStr = user ++ ascii " disconnected"

/-- If an event ends a session, every other active connection gets one notice, for that user;
otherwise there is no notice. -/
def NotedOnce (fl : Flavour) (room : Room) (e : Event) : Prop :=
  match ending room e with
  | none => notices (serve fl room e).2 = []
  | some s =>
    (notices (serve fl room e).2).map Sent.conn = (room.others s).filterMap room.conn ∧
      ∀ x ∈ notices (serve fl room e).2, Announces (room.table s).name x.frame

/-- What a departure needs for that, where somebody is there to be told: a logout comes from
a connection that is logged in; the fork server's child makes its logout up for such a
connection only, and the parent reads it; a name read behind its end ends there. -/
def Proper (fl : Flavour) (room : Room) : Event → Prop
  | .connect _ => True
  | .request c m _ => m.val.kind = some .logout → ∀ s, room.slotOf c = some s →
      room.others s ≠ [] → (room.table s).active = true
  | .close c how => ∀ s, room.slotOf c = some s → room.others s ≠ [] →
    match fl with
    | .fork => how.reaped = !(room.table s).active
    | .thread => (room.table s).name.length = 31 → cstr how.junk = []
    | .epoll => True

variable {fl : Flavour} {room : Room} {s : Slot} {c : Nat} {env : Env} {m : Message} {e : Event}

/-! ## Messages that are no notices -/

theorem notices_append (out out' : List Sent) :
    notices (out ++ out') = notices out ++ notices out' :=
  List.filter_append ..

theorem notices_copies_of_ne {via : Via} (h : via ≠ .notice) (slots : List Slot) (m : Message) :
    notices (room.copies slots via m) = [] := by
  rw [notices, List.filter_eq_nil_iff]
  intro x hx
  obtain ⟨i, -, hi⟩ := List.mem_filterMap.mp hx
  obtain ⟨c, -, rfl⟩ := Option.map_eq_some_iff.mp hi
  simpa using h

theorem notices_copies (slots : List Slot) (m : Message) :
    notices (room.copies slots .notice m) = room.copies slots .notice m := by
  rw [notices, List.filter_eq_self]
  intro x hx
  obtain ⟨i, -, hi⟩ := List.mem_filterMap.mp hx
  obtain ⟨c, -, rfl⟩ := Option.map_eq_some_iff.mp hi
  rfl

theorem notices_reply (s : Slot) (m : Message) : notices (room.reply s m) = [] :=
  notices_copies_of_ne (by decide) [s] m

theorem map_conn_copies (slots : List Slot) (via : Via) (m : Message) :
    (room.copies slots via m).map Sent.conn = slots.filterMap room.conn := by
  rw [Room.copies, List.map_filterMap]
  congr 1
  funext i
  cases room.conn i <;> rfl

/-- Only a logout is announced by a router. -/
theorem notices_route (h : m.kind ≠ some .logout) :
    notices (room.route fl env s m).2 = [] := by
  unfold Room.route
  split
  · unfold Room.login
    split
    · exact notices_reply _ _
    · split
      · exact notices_reply _ _
      · split <;> exact notices_reply _ _
  · next hm => exact absurd hm h
  · unfold Room.broadcast
    split
    · exact notices_reply _ _
    · rw [notices_append, notices_copies_of_ne (by decide), notices_reply, List.append_nil]
  · unfold Room.priv
    split
    · exact notices_reply _ _
    · split
      · exact notices_reply _ _
      · rw [notices_append, notices_copies_of_ne (by decide), notices_reply, List.append_nil]
  · exact notices_reply _ _
  · exact notices_reply _ _
  · exact notices_reply _ _
  · exact notices_reply _ _

/-! ## Texts -/

/-- A text without a zero byte arrives as it is, cut to the size of the buffer. -/
theorem payload_notice {text : List UInt8} (h : ∀ b ∈ text, b ≠ 0) (now : UInt64) :
    (canonical (notice now (snprintf 64 text))).payloadStr = text.take 63 := by
  have hlen : (text.take 63).length ≤ maxPayloadLen :=
    (List.length_take_le _ _).trans (by decide)
  rw [notice, (wellFormed_makeMessage ..).canonical_eq, payloadStr_makeMessage, snprintf,
    cstr_of_forall_ne fun b hb => h b (List.mem_of_mem_take hb), List.take_of_length_le hlen]

/-- A notice with a text that fits. -/
theorem announces_notice {user text : List UInt8} (h : ∀ b ∈ text, b ≠ 0) (hlen : text.length ≤ 63)
    (htext : text = user ++ ascii " left" ∨ text = user ++ ascii " disconnected") (now : UInt64) :
    Announces user (canonical (notice now (snprintf 64 text))) := by
  refine ⟨?_, ?_, ?_⟩
  · rw [notice, (wellFormed_makeMessage ..).canonical_eq, kind_makeMessage]
  · rw [notice, (wellFormed_makeMessage ..).canonical_eq]
    exact cstr_nameField serverName
  · rw [payload_notice h, List.take_of_length_le hlen]
    exact htext

theorem no_zero_append_ascii {user : List UInt8} (h : ∀ b ∈ user, b ≠ 0) {text : String}
    (ht : ∀ b ∈ ascii text, b ≠ 0) : ∀ b ∈ user ++ ascii text, b ≠ 0 := by
  intro b hb
  rcases List.mem_append.mp hb with hb | hb
  · exact h b hb
  · exact ht b hb

theorem announces_left {user : List UInt8} (h : ValidName user) (now : UInt64) :
    Announces user (canonical (notice now (leftNote user))) := by
  have hlen := h.length_le
  apply announces_notice (no_zero_append_ascii h.no_zero (by simp [ascii])) _ (Or.inl rfl)
  have : (ascii " left").length = 5 := by decide
  rw [List.length_append]
  omega

theorem announces_disconnected {user : List UInt8} (h : ValidName user) (now : UInt64) :
    Announces user (canonical (notice now (disconnectedNote user))) := by
  have hlen := h.length_le
  apply announces_notice (no_zero_append_ascii h.no_zero (by simp [ascii])) _ (Or.inr rfl)
  have : (ascii " disconnected").length = 13 := by decide
  rw [List.length_append]
  omega

/-- A name of 31 bytes that is read further is announced as another one. -/
theorem not_announces_disconnected {user more : List UInt8} (h : ValidName user)
    (hlen : user.length = 31) (hmore : cstr more ≠ []) (now : UInt64) :
    ¬ Announces user (canonical (notice now (disconnectedNote (user ++ cstr more)))) := by
  intro ha
  have hzero : ∀ b ∈ user ++ cstr more ++ ascii " disconnected", b ≠ 0 := by
    apply no_zero_append_ascii _ (by simp [ascii])
    intro b hb
    rcases List.mem_append.mp hb with hb | hb
    · exact h.no_zero b hb
    · exact mem_cstr hb
  have hpos := List.length_pos_iff.mpr hmore
  have hl : (ascii " left").length = 5 := by decide
  have hd : (ascii " disconnected").length = 13 := by decide
  have htext := ha.text
  rw [disconnectedNote, payload_notice hzero] at htext
  rcases htext with ht | ht <;>
  · have := congrArg List.length ht
    simp only [List.length_take, List.length_append] at this
    omega

theorem length_name_le {e : Entry} (h : e.Terminated) : e.name.length ≤ 31 := by
  by_contra hlong
  have hzero : (0 : UInt8) ∈ e.username.toList.drop 31 := by
    rw [h]
    exact List.mem_singleton_self 0
  have hlen : (cstr e.username.toList).length ≤ e.username.toList.length := length_cstr_le _
  have hall : e.name = e.username.toList := by
    apply (List.takeWhile_prefix _).eq_of_length_le
    have hname : 31 < e.name.length := Nat.lt_of_not_le hlong
    rw [List.Vector.toList_length]
    exact hname
  exact mem_cstr (hall ▸ List.mem_of_mem_drop hzero : (0 : UInt8) ∈ e.name) rfl

/-- What a thread announces. -/
theorem savedName_eq {e : Entry} (h : e.Terminated) (junk : List UInt8) :
    Thread.savedName e junk = if e.name.length = 31 then e.name ++ cstr junk else e.name := by
  have hlen := length_name_le h
  have hzero : ∀ b ∈ e.name, b ≠ 0 := fun b => mem_cstr
  change cstr ((e.name.take 31 ++ List.replicate (31 - e.name.length) 0) ++ junk) = _
  rw [List.take_of_length_le hlen]
  split
  · next heq =>
    rw [heq, Nat.sub_self, List.replicate_zero, List.append_nil, cstr,
      List.takeWhile_append_of_pos (by simpa using hzero)]
    rfl
  · next hne =>
    rw [show 31 - e.name.length = (30 - e.name.length) + 1 by omega, List.replicate_succ,
      List.append_assoc, List.cons_append, cstr_append_zero hzero]

/-! ## One event -/

theorem filterMap_conn_ne_nil (h : Tidy room) (hs : room.others s ≠ []) :
    (room.others s).filterMap room.conn ≠ [] := by
  obtain ⟨t, ht⟩ := List.exists_mem_of_ne_nil _ hs
  obtain ⟨c, hc⟩ := h.conn_of_active (mem_others.mp ht).2
  exact List.ne_nil_of_mem (List.mem_filterMap.mpr ⟨t, ht, hc⟩)

/-- Notices for the other active slots are what the end of a session asks for exactly if
there is nobody to read them or they name the user. -/
theorem noted_copies_iff (h : Tidy room) {user : List UInt8} :
    ((room.copies (room.others s) .notice m).map Sent.conn =
        (room.others s).filterMap room.conn ∧
      ∀ x ∈ room.copies (room.others s) .notice m, Announces user x.frame) ↔
      (room.others s ≠ [] → Announces user (canonical m)) := by
  rw [map_conn_copies]
  constructor
  · rintro ⟨-, hall⟩ hs
    obtain ⟨t, ht⟩ := List.exists_mem_of_ne_nil _ hs
    obtain ⟨c, hc⟩ := h.conn_of_active (mem_others.mp ht).2
    exact hall ⟨c, .notice, canonical m⟩ (List.mem_filterMap.mpr ⟨t, ht, by rw [hc]; rfl⟩)
  · intro ha
    refine ⟨rfl, fun x hx => ?_⟩
    obtain ⟨t, ht, hi⟩ := List.mem_filterMap.mp hx
    obtain ⟨c, -, rfl⟩ := Option.map_eq_some_iff.mp hi
    exact ha (List.ne_nil_of_mem ht)

/-- Notices where none is due. -/
theorem copies_eq_nil_iff (h : Tidy room) (via : Via) :
    room.copies (room.others s) via m = [] ↔ room.others s = [] := by
  constructor
  · intro hnil
    by_contra hs
    apply filterMap_conn_ne_nil h hs
    rw [← map_conn_copies _ via m, hnil]
    rfl
  · intro hs
    rw [hs]
    rfl

/-- No notice where one is due. -/
theorem noted_nil_iff (h : Tidy room) {P : Sent → Prop} :
    (([] : List Sent).map Sent.conn = (room.others s).filterMap room.conn ∧
      ∀ x ∈ ([] : List Sent), P x) ↔ room.others s = [] := by
  constructor
  · rintro ⟨hnil, -⟩
    by_contra hs
    exact filterMap_conn_ne_nil h hs hnil.symm
  · intro hs
    rw [hs]
    simp

/-- The notices for a logout. -/
theorem farewell_iff (h : Tidy room) (env : Env) (s : Slot) :
    (match if (room.table s).active = true then some s else none with
      | none => notices (room.farewell env s) = []
      | some t => (notices (room.farewell env s)).map Sent.conn =
          (room.others t).filterMap room.conn ∧
        ∀ x ∈ notices (room.farewell env s), Announces (room.table t).name x.frame) ↔
      (room.others s ≠ [] → (room.table s).active = true) := by
  rw [Room.farewell, notices_copies]
  cases hactive : (room.table s).active with
  | false =>
    simp only [Bool.false_eq_true, if_false]
    rw [copies_eq_nil_iff h]
    simp
  | true =>
    simp only [if_true]
    rw [noted_copies_iff h]
    exact iff_of_true (fun _ => announces_left (h.names.valid s hactive) env.now) fun _ => trivial

/-- The notices for the end of a connection. -/
theorem partings_iff (h : Tidy room) (fl : Flavour) (how : Leaving) (s : Slot) :
    (match if (room.table s).active = true then some s else none with
      | none => notices (room.partings fl how s) = []
      | some t => (notices (room.partings fl how s)).map Sent.conn =
          (room.others t).filterMap room.conn ∧
        ∀ x ∈ notices (room.partings fl how s), Announces (room.table t).name x.frame) ↔
      (room.others s ≠ [] → match fl with
        | .fork => how.reaped = !(room.table s).active
        | .thread => (room.table s).name.length = 31 → cstr how.junk = []
        | .epoll => True) := by
  cases fl with
  | fork =>
    cases hr : how.reaped with
    | false =>
      simp only [Room.partings, hr, Bool.false_eq_true, if_false]
      rw [farewell_iff h how.env s]
      simp
    | true =>
      simp only [Room.partings, hr, if_true]
      cases hactive : (room.table s).active with
      | false => simp [notices]
      | true =>
        simp only [if_true, notices, List.filter_nil]
        rw [noted_nil_iff h]
        simp
  | thread =>
    cases hactive : (room.table s).active with
    | false =>
      simp only [Room.partings, hactive, Bool.false_eq_true, if_false]
      refine iff_of_true rfl fun _ hlen => ?_
      rw [h.name_of_inactive hactive] at hlen
      cases hlen
    | true =>
      have hvalid := h.names.valid s hactive
      simp only [Room.partings, hactive, if_true, notices_copies]
      rw [noted_copies_iff h, Flavour.lastName, savedName_eq (h.names.terminated s)]
      apply imp_congr_right
      intro _
      by_cases hlen : (room.table s).name.length = 31
      · rw [if_pos hlen]
        by_cases hjunk : cstr how.junk = []
        · rw [hjunk, List.append_nil]
          exact iff_of_true (announces_disconnected hvalid how.env.now) fun _ => rfl
        · exact iff_of_false (not_announces_disconnected hvalid hlen hjunk how.env.now)
            fun himp => hjunk (himp hlen)
      · rw [if_neg hlen]
        exact iff_of_true (announces_disconnected hvalid how.env.now) fun himp => absurd himp hlen
  | epoll =>
    cases hactive : (room.table s).active with
    | false => simp [Room.partings, hactive, notices]
    | true =>
      simp only [Room.partings, hactive, if_true, notices_copies]
      rw [noted_copies_iff h]
      exact iff_of_true
        (fun _ => announces_disconnected (h.names.valid s hactive) how.env.now) fun _ => trivial

/-- An event is announced as it should be exactly if it is proper. -/
theorem notedOnce_iff (h : Tidy room) (fl : Flavour) (e : Event) :
    NotedOnce fl room e ↔ Proper fl room e := by
  cases e with
  | connect env =>
    refine iff_of_true ?_ trivial
    change notices (room.connect fl env).2 = []
    unfold Room.connect
    split <;> rfl
  | request c m env =>
    by_cases hkind : m.val.kind = some .logout
    · cases hs : room.slotOf c with
      | none => simp [NotedOnce, Proper, ending, hkind, hs, serve, Room.request, notices]
      | some s =>
        have hout : (serve fl room (.request c m env)).2 = room.farewell env s := by
          change (room.request fl c m.val env).2 = _
          simp only [Room.request, hs, Room.route, hkind]
          cases fl <;> rfl
        have hiff := farewell_iff h env s
        simp only [NotedOnce, Proper, ending, hkind, hs, hout, if_true, Option.filter_some,
          Option.some.injEq, forall_eq', true_implies]
        exact hiff
    · have hout : notices (serve fl room (.request c m env)).2 = [] := by
        change notices (room.request fl c m.val env).2 = []
        unfold Room.request
        split
        · rfl
        · exact notices_route hkind
      simp [NotedOnce, Proper, ending, hkind, hout]
  | close c how =>
    cases hs : room.slotOf c with
    | none => simp [NotedOnce, Proper, ending, hs, serve, Room.close, notices]
    | some s =>
      have hout : (serve fl room (.close c how)).2 = room.partings fl how s := by
        change (room.close fl c how).2 = _
        simp only [Room.close, hs]
      have hiff := partings_iff h fl how s
      simp only [NotedOnce, Proper, ending, hs, hout, Option.filter_some, Option.some.injEq,
        forall_eq']
      exact hiff

/-- Two connections of which the second has logged in. -/
def oneLogin : List Event :=
  [.connect plainEnv, .connect plainEnv,
    .request 1 (Request.make 0 .login (ascii "bob") [] (ascii "bob:pw")) plainEnv]

end ChatSystem.Chat
