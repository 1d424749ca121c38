import ChatSystem.Chat.Senders

/-!
# Requests and their answers

A client matches answers to its requests by order alone. Every router answers each request
but a logout exactly once, and nobody is answered for a request of somebody else.
-/

namespace ChatSystem.Chat

open Bytes Reactive

/-- The types of answers. -/
def isAnswer (m : Message) : Bool :=
  m.kind = some .ack || m.kind = some .error || m.kind = some .userList ||
    m.kind = some .historyResp

/-- The type of an answer goes with the type of its request. -/
def Fits (m r : Message) : Prop :=
  match m.kind with
  | some .listUsers => r.kind = some .userList
  | some .historyReq => r.kind = some .historyResp
  | some .statusChange => r.kind = some .ack
  | some .login | some .broadcast | some .priv => r.kind = some .ack ∨ r.kind = some .error
  | _ => r.kind = some .error

/-- The answers among the frames for a connection. -/
def answersFor (c : Nat) (out : List Sent) : List Message := (framesTo c out).filter isAnswer

/-- A request of a connection with a slot is answered once, unless it is a logout, and nobody
else is answered; the end of a connection gives no answers. -/
def Answered (fl : Flavour) (room : Room) (e : Event) : Prop :=
  match e with
  | .connect _ => True
  | .request c m _ =>
    (∀ d, d ≠ c → answersFor d (serve fl room e).2 = []) ∧
    (m.val.kind = some .logout → answersFor c (serve fl room e).2 = []) ∧
    (room.slotOf c ≠ none → m.val.kind ≠ some .logout →
      ∃ r, answersFor c (serve fl room e).2 = [r] ∧ Fits m.val r)
  | .close _ _ => ∀ d, answersFor d (serve fl room e).2 = []

/-- One event, with what the router sends at it. -/
def routing (fl : Flavour) (room : Room) (e : Event) : Room × List Sent :=
  match e with
  | .request _ _ _ => serve fl room e
  | _ => ((serve fl room e).1, [])

/-- The request of a connection at an event, if it asks for an answer. -/
def asks (c : Nat) (room : Room) : Event → List Request
  | .request d m _ =>
    if d = c ∧ room.slotOf c ≠ none ∧ m.val.kind ≠ some .logout then [m] else []
  | _ => []

/-- The requests of a connection that ask for an answer, in a run. -/
def asked (fl : Flavour) (c : Nat) : Room → List Event → List Request
  | _, [] => []
  | room, e :: es => asks c room e ++ asked fl c (serve fl room e).1 es

variable {fl : Flavour} {room : Room} {s : Slot} {c d : Nat} {env : Env} {m : Message}

theorem answersFor_append (c : Nat) (out out' : List Sent) :
    answersFor c (out ++ out') = answersFor c out ++ answersFor c out' := by
  rw [answersFor, framesTo_append, List.filter_append]
  rfl

/-- Messages of other types are no answers. -/
theorem answersFor_copies (slots : List Slot) (via : Via) (h : isAnswer (canonical m) = false) :
    answersFor c (room.copies slots via m) = [] := by
  rw [answersFor, List.filter_eq_nil_iff]
  intro r hr
  obtain ⟨x, hx, hxr⟩ := List.mem_filterMap.mp hr
  split at hxr
  · obtain rfl := Option.some.inj hxr
    rw [(via_copies hx).2, h]
    exact Bool.false_ne_true
  · cases hxr

theorem answersFor_reply_of_ne (hs : room.conn s = some c) (hd : d ≠ c) (m : Message) :
    answersFor d (room.reply s m) = [] := by
  rw [answersFor, framesTo_reply_of_ne]
  · rfl
  · rw [hs]
    intro hcd
    exact hd (Option.some.inj hcd).symm

theorem answersFor_reply (hs : room.conn s = some c) (h : isAnswer (canonical m) = true) :
    answersFor c (room.reply s m) = [canonical m] := by
  rw [answersFor, framesTo_reply hs, List.filter_cons_of_pos h, List.filter_nil]

/-- A received message is relayed under its own type. -/
theorem kind_canonical (m : Request) : (canonical m.val).kind = m.val.kind := by
  obtain ⟨m, f, -, h⟩ := m
  obtain ⟨-, -, -, htype, -⟩ := unpackMessage_eq_some h
  change MsgType.ofCode? m.type.toUInt8.toUInt32 = MsgType.ofCode? m.type
  rw [htype, UInt8.toUInt8_toUInt32]

/-- Answers of the servers keep their type on the wire. -/
theorem isAnswer_makeMessage {t : MsgType} (h : (t = .ack ∨ t = .error ∨ t = .userList ∨
    t = .historyResp)) (now : UInt64) (s r p : List UInt8) :
    isAnswer (canonical (makeMessage now t s r p)) = true := by
  rw [(wellFormed_makeMessage ..).canonical_eq]
  rcases h with rfl | rfl | rfl | rfl <;> simp [isAnswer]

theorem isAnswer_makeError (now : UInt64) (s r p : List UInt8) :
    isAnswer (canonical (makeError now s r p)) = true :=
  isAnswer_makeMessage (Or.inr (Or.inl rfl)) now s r p

theorem not_isAnswer_notice (now : UInt64) (text : List UInt8) :
    isAnswer (canonical (notice now text)) = false := by
  rw [notice, (wellFormed_makeMessage ..).canonical_eq]
  simp [isAnswer]

/-- Messages that are relayed are no answers. -/
theorem not_isAnswer_relayed {m : Request}
    (h : m.val.kind = some .broadcast ∨ m.val.kind = some .priv) :
    isAnswer (canonical m.val) = false := by
  rcases h with h | h <;> simp [isAnswer, kind_canonical, h]

/-- A router answers the slot a request came from once, and nobody else. -/
structure AnsweredOnce (m : Message) (c : Nat) (out : List Sent) : Prop where
  own : ∃ r, answersFor c out = [r] ∧ Fits m r
  others : ∀ d, d ≠ c → answersFor d out = []

/-- An answer made by the server. -/
theorem answeredOnce_reply (hs : room.conn s = some c) {t : MsgType} (now : UInt64)
    (u v p : List UInt8) (ht : t = .ack ∨ t = .error ∨ t = .userList ∨ t = .historyResp)
    (hfits : ∀ r : Message, r.kind = some t → Fits m r) :
    AnsweredOnce m c (room.reply s (makeMessage now t u v p)) := by
  refine ⟨⟨_, answersFor_reply hs (isAnswer_makeMessage ht ..), hfits _ ?_⟩, fun d hd => ?_⟩
  · rw [(wellFormed_makeMessage ..).canonical_eq, kind_makeMessage]
  · exact answersFor_reply_of_ne hs hd _

theorem answeredOnce_error (hs : room.conn s = some c) (now : UInt64) (u v p : List UInt8)
    (hfits : ∀ r : Message, r.kind = some .error → Fits m r) :
    AnsweredOnce m c (room.reply s (makeError now u v p)) := by
  refine ⟨⟨_, answersFor_reply hs (isAnswer_makeError ..), hfits _ ?_⟩, fun d hd => ?_⟩
  · change (canonical (makeMessage now .error u v p)).kind = _
    rw [(wellFormed_makeMessage ..).canonical_eq, kind_makeMessage]
  · exact answersFor_reply_of_ne hs hd _

/-- Relaying a message first makes no difference. -/
theorem AnsweredOnce.relay {n : Message} {out : List Sent} (h : AnsweredOnce n c out) {m : Request}
    (hm : m.val.kind = some .broadcast ∨ m.val.kind = some .priv) (room : Room)
    (slots : List Slot) : AnsweredOnce n c (room.copies slots .relay m.val ++ out) := by
  have hnone : ∀ d, answersFor d (room.copies slots .relay m.val) = [] := fun d =>
    answersFor_copies slots .relay (not_isAnswer_relayed hm)
  refine ⟨?_, fun d hd => ?_⟩
  · rw [answersFor_append, hnone, List.nil_append]
    exact h.own
  · rw [answersFor_append, hnone, List.nil_append]
    exact h.others d hd

/-- The verdict on a login or on a message to be relayed. -/
theorem fits_verdict (h : m.kind = some .login ∨ m.kind = some .broadcast ∨ m.kind = some .priv)
    (r : Message) (hr : r.kind = some .ack ∨ r.kind = some .error) : Fits m r := by
  rcases h with h | h | h <;> simp only [Fits, h, hr]

theorem answeredOnce_route (hs : room.conn s = some c) {m : Request}
    (hm : m.val.kind ≠ some .logout) (fl : Flavour) (env : Env) :
    AnsweredOnce m.val c (room.route fl env s m.val).2 := by
  unfold Room.route
  split
  · next hkind =>
    have hverdict := fits_verdict (m := m.val) (Or.inl hkind)
    unfold Room.login
    split
    · exact answeredOnce_error hs _ _ _ _ fun r hr => hverdict r (Or.inr hr)
    · split
      · exact answeredOnce_error hs _ _ _ _ fun r hr => hverdict r (Or.inr hr)
      · split
        · exact answeredOnce_error hs _ _ _ _ fun r hr => hverdict r (Or.inr hr)
        · exact answeredOnce_reply hs _ _ _ _ (Or.inl rfl) fun r hr => hverdict r (Or.inl hr)
  · next hlogout => exact absurd hlogout hm
  · next hkind =>
    have hverdict := fits_verdict (m := m.val) (Or.inr (Or.inl hkind))
    unfold Room.broadcast
    split
    · exact answeredOnce_error hs _ _ _ _ fun r hr => hverdict r (Or.inr hr)
    · exact (answeredOnce_reply hs _ _ _ _ (Or.inl rfl) fun r hr => hverdict r (Or.inl hr)).relay
        (Or.inl hkind) _ _
  · next hkind =>
    have hverdict := fits_verdict (m := m.val) (Or.inr (Or.inr hkind))
    unfold Room.priv
    split
    · exact answeredOnce_error hs _ _ _ _ fun r hr => hverdict r (Or.inr hr)
    · split
      · exact answeredOnce_error hs _ _ _ _ fun r hr => hverdict r (Or.inr hr)
      · exact (answeredOnce_reply hs _ _ _ _ (Or.inl rfl) fun r hr => hverdict r (Or.inl hr)).relay
          (Or.inr hkind) _ _
  · next hkind =>
    apply answeredOnce_reply hs _ _ _ _ (Or.inr (Or.inr (Or.inl rfl)))
    intro r hr
    simp only [Fits, hkind, hr]
  · next hkind =>
    apply answeredOnce_reply hs _ _ _ _ (Or.inr (Or.inr (Or.inr rfl)))
    intro r hr
    simp only [Fits, hkind, hr]
  · next hkind =>
    apply answeredOnce_reply hs _ _ _ _ (Or.inl rfl)
    intro r hr
    simp only [Fits, hkind, hr]
  · apply answeredOnce_error hs
    intro r hr
    unfold Fits
    split <;> simp_all

/-- A departure gives no answers. -/
theorem answersFor_farewell (d : Nat) (env : Env) (s : Slot) :
    answersFor d (room.farewell env s) = [] :=
  answersFor_copies _ _ (not_isAnswer_notice ..)

theorem answersFor_partings (d : Nat) (fl : Flavour) (how : Leaving) (s : Slot) :
    answersFor d (room.partings fl how s) = [] := by
  unfold Room.partings
  split
  · split
    · rfl
    · exact answersFor_farewell ..
  · split
    · exact answersFor_copies _ _ (not_isAnswer_notice ..)
    · rfl

theorem answered (fl : Flavour) (room : Room) (e : Event) : Answered fl room e := by
  cases e with
  | connect env => trivial
  | request c m env =>
    cases hs : room.slotOf c with
    | none =>
      have hout : (serve fl room (.request c m env)).2 = [] := by
        simp only [serve, Room.request, hs]
      refine ⟨fun d _ => ?_, fun _ => ?_, fun hne => absurd hs hne⟩
      · rw [hout]
        rfl
      · rw [hout]
        rfl
    | some s =>
      have hout : (serve fl room (.request c m env)).2 = (room.route fl env s m.val).2 := by
        simp only [serve, Room.request, hs]
      simp only [Answered, hout]
      by_cases hm : m.val.kind = some .logout
      · have hfarewell : (room.route fl env s m.val).2 = room.farewell env s := by
          simp only [Room.route, hm]
          cases fl <;> rfl
        rw [hfarewell]
        exact ⟨fun d _ => answersFor_farewell d env s, fun _ => answersFor_farewell c env s,
          fun _ hne => absurd hm hne⟩
      · have honce := answeredOnce_route (conn_of_slotOf hs) hm fl env
        exact ⟨honce.others, fun hlogout => absurd hlogout hm, fun _ _ => honce.own⟩
  | close c how =>
    intro d
    change answersFor d (room.close fl c how).2 = []
    unfold Room.close
    split
    · rfl
    · exact answersFor_partings ..

/-- In every run of each router, the answers to a connection are one for each of its requests
but the logouts, in their order, and nobody is answered for a request of somebody else. -/
theorem answers_paired (fl : Flavour) (history : History) (es : List Event) :
    Along (serve fl) (Answered fl) (.init history) es ∧
      ∀ c, List.Forall₂ (fun m r => Fits m.val r) (asked fl c (.init history) es)
        (answersFor c (outputs (routing fl) (.init history) es)) := by
  refine ⟨along_iff.mpr fun _ _ _ _ => answered fl _ _, fun c => ?_⟩
  generalize Room.init history = room
  induction es generalizing room with
  | nil => exact .nil
  | cons e es ih =>
    rw [asked, outputs_cons, answersFor_append]
    have hstep : (routing fl room e).1 = (serve fl room e).1 := by
      cases e <;> rfl
    rw [hstep]
    apply List.rel_append _ (ih _)
    cases e with
    | connect env => exact .nil
    | close d how => exact .nil
    | request d m env =>
      have hans := answered fl room (.request d m env)
      simp only [routing, asks]
      split
      · next hall =>
        obtain ⟨rfl, hs, hm⟩ := hall
        obtain ⟨r, hr, hfits⟩ := hans.2.2 hs hm
        rw [hr]
        exact .cons hfits .nil
      · next hall =>
        have hnone : answersFor c (serve fl room (.request d m env)).2 = [] := by
          by_cases hd : d = c
          · subst hd
            by_cases hs : room.slotOf d = none
            · simp only [serve, Room.request, hs]
              rfl
            · apply hans.2.1
              by_contra hm
              exact hall ⟨rfl, hs, hm⟩
          · exact hans.1 c fun heq => hd heq.symm
        rw [hnone]
        exact .nil

end ChatSystem.Chat
