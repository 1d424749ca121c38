import ChatSystem.Chat.Tidy

/-!
# Confidentiality of the history

A history request names the log it wants in its sender field, and no server compares that
field with the login of the connection. A run keeps a user's log to that user exactly if
nobody else asks for it.
-/

namespace ChatSystem.Chat

open Bytes Reactive

/-- A history request for a log under one of some paths. -/
def Reads (paths : List UInt8 → Prop) (m : Message) : Prop :=
  m.kind = some .historyReq ∧ paths (historyPath m.senderStr)

/-- A connection is logged in under a name. -/
def LoggedInAs (room : Room) (c : Nat) (name : List UInt8) : Prop :=
  ∃ s, room.conn s = some c ∧ (room.table s).active = true ∧ (room.table s).name = name

/-- A request for a user's log comes from that user, or from a connection that is over. -/
def OwnReads (name : List UInt8) (paths : List UInt8 → Prop) (room : Room) (e : Event) : Prop :=
  ∀ c m env, e = .request c m env → Reads paths m.val → room.slotOf c ≠ none →
    LoggedInAs room c name

/-- The two stores differ in the logs under some paths only. -/
def DifferIn (paths : List UInt8 → Prop) (h h' : History) : Prop := ∀ p, ¬ paths p → h p = h' p

/-- The frames for one connection. -/
def framesTo (c : Nat) (out : List Sent) : List Message :=
  out.filterMap fun x => if x.conn = c then some x.frame else none

/-- At every event of a run, two stores give the same frames to every connection that is not
asking for something while logged in under a name. -/
def Confidential (fl : Flavour) (name : List UInt8) (h h' : History) (es : List Event) : Prop :=
  ∀ past e future, es = past ++ e :: future → ∀ c,
    ¬ ((∃ m env, e = .request c m env) ∧ LoggedInAs (roomAfter fl h past) c name) →
    framesTo c (serve fl (roomAfter fl h past) e).2 =
      framesTo c (serve fl (roomAfter fl h' past) e).2

/-- Rooms that agree but for their stores, which are related. -/
structure Agree (Q : History → History → Prop) (room room' : Room) : Prop where
  table : room'.table = room.table
  conn : room'.conn = room.conn
  accepted : room'.accepted = room.accepted
  history : Q room.history room'.history

/-- Saving a message on both sides keeps a relation of stores. -/
def Saves (Q : History → History → Prop) : Prop :=
  ∀ h h' host m receiver, Q h h' → Q (h.save host m receiver) (h'.save host m receiver)

variable {fl : Flavour} {Q : History → History → Prop} {room room' : Room} {s : Slot} {c : Nat}
  {env : Env} {m : Message} {e : Event} {paths : List UInt8 → Prop} {name : List UInt8}

/-! ## Two runs with different stores -/

theorem Agree.eq (h : Agree Q room room') : room' = { room with history := room'.history } := by
  obtain ⟨table, conn, accepted, history⟩ := room'
  obtain ⟨rfl, rfl, rfl, -⟩ := h
  rfl

theorem Agree.slotOf (h : Agree Q room room') (c : Nat) : room'.slotOf c = room.slotOf c := by
  rw [h.eq]
  rfl

theorem Agree.setEntry (h : Agree Q room room') (s : Slot) (e : Entry) :
    Agree Q (room.setEntry s e) (room'.setEntry s e) := by
  refine ⟨?_, h.conn, h.accepted, h.history⟩
  rw [table_setEntry, table_setEntry, h.table]

theorem Agree.release (h : Agree Q room room') (fl : Flavour) (s : Slot) :
    Agree Q (room.release fl s) (room'.release fl s) := by
  refine ⟨?_, ?_, h.accepted, h.history⟩
  · rw [table_release, table_release, h.table]
  · rw [conn_release, conn_release, h.conn]

/-- The store matters for the answer to a history request only. -/
theorem Agree.route (h : Agree Q room room') (hQ : Saves Q) (fl : Flavour) (env : Env) (s : Slot)
    (m : Message) : Agree Q (room.route fl env s m).1 (room'.route fl env s m).1 ∧
      (m.kind ≠ some .historyReq → (room'.route fl env s m).2 = (room.route fl env s m).2) := by
  obtain ⟨H, rfl⟩ : ∃ H, room' = { room with history := H } := ⟨_, h.eq⟩
  have hsave : ∀ r, Agree Q (room.save env m r) ({ room with history := H }.save env m r) :=
    fun r => ⟨rfl, rfl, rfl, hQ _ _ env.host m r h.history⟩
  have hrel := h.release fl s
  have hset := h.setEntry s
  unfold Room.route
  split
  · simp only [Room.login]
    split
    · exact ⟨h, fun _ => rfl⟩
    · next u p _ =>
      rw [show Room.taken { room with history := H } fl s u = room.taken fl s u from rfl]
      split
      · exact ⟨h, fun _ => rfl⟩
      · split
        · exact ⟨h, fun _ => rfl⟩
        · exact ⟨hset _, fun _ => rfl⟩
  · cases fl with
    | fork => exact ⟨hset _, fun _ => rfl⟩
    | thread => exact ⟨hrel, fun _ => rfl⟩
    | epoll => exact ⟨hrel, fun _ => rfl⟩
  · simp only [Room.broadcast]
    split
    · exact ⟨h, fun _ => rfl⟩
    · exact ⟨hsave _, fun _ => rfl⟩
  · simp only [Room.priv]
    split
    · exact ⟨h, fun _ => rfl⟩
    · split
      · exact ⟨h, fun _ => rfl⟩
      · exact ⟨hsave _, fun _ => rfl⟩
  · exact ⟨h, fun _ => rfl⟩
  · next hkind => exact ⟨h, fun hne => absurd hkind hne⟩
  · exact ⟨hset _, fun _ => rfl⟩
  · exact ⟨h, fun _ => rfl⟩

theorem framesTo_append (c : Nat) (out out' : List Sent) :
    framesTo c (out ++ out') = framesTo c out ++ framesTo c out' :=
  List.filterMap_append

/-- An answer is for nobody but the connection of its slot. -/
theorem framesTo_reply_of_ne (hs : room.conn s ≠ some c) (m : Message) :
    framesTo c (room.reply s m) = [] := by
  cases hc : room.conn s with
  | none => simp [Room.reply, Room.copies, hc, framesTo]
  | some d =>
    have hne : d ≠ c := by
      intro hd
      exact hs (hd ▸ hc)
    simp [Room.reply, Room.copies, hc, framesTo, hne]

theorem framesTo_reply (hs : room.conn s = some c) (m : Message) :
    framesTo c (room.reply s m) = [canonical m] := by
  simp [Room.reply, Room.copies, hs, framesTo]

/-- What an event does does not depend on the store, but for the answer to a history
request. -/
theorem Agree.serve (h : Agree Q room room') (hQ : Saves Q) (fl : Flavour) (e : Event) :
    Agree Q (serve fl room e).1 (serve fl room' e).1 ∧
      ((∀ c m env, e = .request c m env → m.val.kind ≠ some .historyReq) →
        (serve fl room' e).2 = (serve fl room e).2) := by
  cases e with
  | connect env =>
    obtain ⟨H, rfl⟩ : ∃ H, room' = { room with history := H } := ⟨_, h.eq⟩
    change Agree Q (room.connect fl env).1 (Room.connect _ fl env).1 ∧
      (_ → (Room.connect _ fl env).2 = (room.connect fl env).2)
    simp only [Room.connect]
    split
    · exact ⟨⟨rfl, rfl, rfl, h.history⟩, fun _ => rfl⟩
    · exact ⟨⟨rfl, rfl, rfl, h.history⟩, fun _ => rfl⟩
  | request c m env =>
    change Agree Q (room.request fl c m.val env).1 (room'.request fl c m.val env).1 ∧
      (_ → (room'.request fl c m.val env).2 = (room.request fl c m.val env).2)
    simp only [Room.request, h.slotOf]
    split
    · exact ⟨h, fun _ => rfl⟩
    · next s _ =>
      obtain ⟨h₁, h₂⟩ := h.route hQ fl env s m.val
      exact ⟨h₁, fun hkind => h₂ (hkind c m env rfl)⟩
  | close c how =>
    change Agree Q (room.close fl c how).1 (room'.close fl c how).1 ∧
      (_ → (room'.close fl c how).2 = (room.close fl c how).2)
    simp only [Room.close, h.slotOf]
    split
    · exact ⟨h, fun _ => rfl⟩
    · next s _ =>
      refine ⟨h.release fl s, fun _ => ?_⟩
      rw [h.eq]
      rfl

/-- Two runs that only differ in their stores agree at every event. -/
theorem agree_roomAfter {h h' : History} (hQ : Saves Q) (hh : Q h h') (fl : Flavour)
    (es : List Event) : Agree Q (roomAfter fl h es) (roomAfter fl h' es) := by
  apply after_rel (fun room room' e hr => (hr.serve hQ fl e).1)
  exact ⟨rfl, rfl, rfl, hh⟩

/-! ## Who may read -/

theorem saves_differIn (paths : List UInt8 → Prop) : Saves (DifferIn paths) := by
  intro h h' host m receiver hd p hp
  simp only [History.save, saveHistory]
  split
  · by_cases hpp : p = historyPath m.senderStr
    · subst hpp
      rw [Function.update_self, Function.update_self, hd _ hp]
    · rw [Function.update_of_ne hpp, Function.update_of_ne hpp, hd p hp]
  · exact hd p hp

/-- Stores that differ in the logs under some paths give the same answer to all others. -/
theorem historyResponse_eq {h h' : History} (hd : DifferIn paths h h')
    (hm : ¬ paths (historyPath m.senderStr)) (now : UInt64) :
    historyResponse now m h' = historyResponse now m h := by
  simp only [historyResponse, historyPayload, hd _ hm]

theorem loggedInAs_iff (h : Agree Q room room') (c : Nat) (name : List UInt8) :
    LoggedInAs room' c name ↔ LoggedInAs room c name := by
  simp only [LoggedInAs, h.table, h.conn]

/-- At an event whose reads are the user's own, the others get the same frames. -/
theorem Agree.confidential (h : Agree (DifferIn paths) room room')
    (hok : OwnReads name paths room e)
    (hc : ¬ ((∃ m env, e = .request c m env) ∧ LoggedInAs room c name)) :
    framesTo c (ChatSystem.Chat.serve fl room e).2 =
      framesTo c (ChatSystem.Chat.serve fl room' e).2 := by
  have hserve := h.serve (saves_differIn paths) fl e
  by_cases hkind : ∀ c m env, e = .request c m env → m.val.kind ≠ some .historyReq
  · rw [hserve.2 hkind]
  · push Not at hkind
    obtain ⟨d, m, env, rfl, hm⟩ := hkind
    change framesTo c (room.request fl d m.val env).2 = framesTo c (room'.request fl d m.val env).2
    simp only [Room.request, h.slotOf]
    split
    · rfl
    · next s hs =>
      simp only [Room.route, hm]
      by_cases hpath : paths (historyPath m.val.senderStr)
      · have hin := hok d m env rfl ⟨hm, hpath⟩ (by rw [hs]; exact Option.some_ne_none s)
        have hcd : some d ≠ some c := by
          intro hdc
          obtain rfl := Option.some.inj hdc
          exact hc ⟨⟨m, env, rfl⟩, hin⟩
        have hconn : room.conn s ≠ some c := by
          rw [conn_of_slotOf hs]
          exact hcd
        rw [framesTo_reply_of_ne hconn, framesTo_reply_of_ne (by rw [h.conn]; exact hconn)]
      · rw [historyResponse_eq h.history hpath, h.eq]
        rfl

/-! ## What a foreign request tells -/

/-- The same stores, but for one more line in front of one log. -/
structure Marked (p : List UInt8) (h h' : History) : Prop where
  marked : h' p = some (ascii "A\n" ++ (h p).getD [])
  lines : (h p).getD [] = [] ∨ ((h p).getD []).head? = some 91
  rest : ∀ q, q ≠ p → h' q = h q

theorem saves_marked (p : List UInt8) : Saves (Marked p) := by
  intro h h' host m receiver hm
  simp only [History.save, saveHistory]
  split
  · by_cases hp : p = historyPath m.senderStr
    · subst hp
      refine ⟨?_, Or.inr ?_, fun q hq => ?_⟩
      · rw [Function.update_self, Function.update_self, hm.marked]
        simp only [Option.getD_some, List.append_assoc]
      · rw [Function.update_self, Option.getD_some]
        rcases hm.lines with hnil | hhead
        · rw [hnil]
          rfl
        · rw [List.head?_append, hhead]
          rfl
      · rw [Function.update_of_ne hq, Function.update_of_ne hq, hm.rest q hq]
    · refine ⟨?_, ?_, fun q hq => ?_⟩
      · rw [Function.update_of_ne hp, Function.update_of_ne hp]
        exact hm.marked
      · rw [Function.update_of_ne hp]
        exact hm.lines
      · by_cases hqs : q = historyPath m.senderStr
        · subst hqs
          rw [Function.update_self, Function.update_self, hm.rest _ hq]
        · rw [Function.update_of_ne hqs, Function.update_of_ne hqs, hm.rest q hq]
  · exact hm

/-- The first byte of a payload the servers make. -/
theorem head_payload {p : List UInt8} {b : UInt8} (hb : p.head? = some b) (h0 : b ≠ 0)
    (now : UInt64) (t : MsgType) (sender receiver : List UInt8) :
    (makeMessage now t sender receiver p).payload.toList.head? = some b := by
  obtain ⟨rest, rfl⟩ := List.head?_eq_some_iff.mp hb
  change (padded maxPayloadLen (b :: rest)).head? = some b
  simp [padded, cstr, h0, maxPayloadLen]

/-- The answers from the two stores differ in their first byte. -/
theorem Marked.response_ne {h h' : History} (hm : Marked (historyPath m.senderStr) h h')
    (now : UInt64) :
    canonical (historyResponse now m h) ≠ canonical (historyResponse now m h') := by
  have hmarked : (historyResponse now m h').payload.toList.head? = some 65 := by
    apply head_payload _ (by decide)
    apply head_historyPayload _ (by decide) (by decide)
    rw [hm.marked]
    rfl
  have hplain : (historyResponse now m h).payload.toList.head? = some 78 ∨
      (historyResponse now m h).payload.toList.head? = some 91 := by
    rcases hm.lines with hnil | hhead
    · exact Or.inl (head_payload (by rw [historyPayload_of_nil hnil]; rfl) (by decide) _ _ _ _)
    · exact Or.inr (head_payload (head_historyPayload hhead (by decide) (by decide))
        (by decide) _ _ _ _)
  rw [historyResponse, historyResponse, (wellFormed_makeMessage ..).canonical_eq,
    (wellFormed_makeMessage ..).canonical_eq]
  intro heq
  change historyResponse now m h = historyResponse now m h' at heq
  rw [heq, hmarked] at hplain
  rcases hplain with hc | hc <;> cases hc

/-- Whoever asks for a log sees what stands in it. -/
theorem Agree.framesTo_ne (h : Agree (Marked (historyPath m.senderStr)) room room')
    (hm : m.kind = some .historyReq) (hs : room.slotOf c = some s) (fl : Flavour) (env : Env) :
    framesTo c (room.request fl c m env).2 ≠ framesTo c (room'.request fl c m env).2 := by
  have hconn := conn_of_slotOf hs
  simp only [Room.request, h.slotOf, hs, Room.route, hm]
  rw [framesTo_reply hconn, framesTo_reply (by rw [h.conn]; exact hconn)]
  intro heq
  exact h.history.response_ne env.now (List.cons.inj heq).1

/-- A store with one log of one line. -/
def oneLine (p : List UInt8) : History := Function.update (fun _ => none) p (some (ascii "A\n"))

theorem marked_oneLine (p : List UInt8) : Marked p (fun _ => none) (oneLine p) := by
  refine ⟨?_, Or.inl rfl, fun q hq => Function.update_of_ne hq _ _⟩
  rw [oneLine, Function.update_self]
  rfl

theorem differIn_oneLine {p : List UInt8} (hp : paths p) :
    DifferIn paths (fun _ => none) (oneLine p) := by
  intro q hq
  have hne : q ≠ p := by
    intro heq
    exact hq (heq ▸ hp)
  rw [oneLine, Function.update_of_ne hne]

/-- A run keeps a user's log to that user, whatever is in it, exactly if every request for it
comes from a connection logged in as that user. -/
theorem history_confidential_iff (fl : Flavour) (name : List UInt8) (paths : List UInt8 → Prop)
    (es : List Event) :
    (∀ h h', DifferIn paths h h' → Confidential fl name h h' es) ↔
      ∀ h, Along (serve fl) (OwnReads name paths) (.init h) es := by
  constructor
  · intro hall h
    apply along_iff.mpr
    intro past e future hes c m env he hreads hslot
    subst he
    by_contra hlogin
    obtain ⟨s, hs⟩ := Option.ne_none_iff_exists'.mp hslot
    have htrivial : Saves fun _ _ => True := fun _ _ _ _ _ _ => trivial
    have hsame : Agree (fun _ _ => True) (roomAfter fl h past)
        (roomAfter fl (fun _ => none) past) :=
      agree_roomAfter htrivial trivial fl past
    have hconf := hall _ _ (differIn_oneLine hreads.2) past _ future hes c
      (fun hin => hlogin ((loggedInAs_iff hsame c name).mp hin.2))
    exact (agree_roomAfter (saves_marked _) (marked_oneLine _) fl past).framesTo_ne hreads.1
      (by rw [hsame.slotOf]; exact hs) fl env hconf
  · intro hall h h' hd past e future hes c hc
    have hagree := agree_roomAfter (saves_differIn paths) hd fl past
    exact hagree.confidential (along_iff.mp (hall h) past e future hes) hc

/-- A fresh connection reads the log of alice. -/
theorem history_leaked : ∃ es h h', DifferIn (· = historyPath (ascii "alice")) h h' ∧
    ∀ fl, ¬ Confidential fl (ascii "alice") h h' es := by
  let m := Request.make 0 .historyReq (ascii "alice") [] []
  have hsender : m.val.senderStr = ascii "alice" := by decide
  refine ⟨[.connect plainEnv, .request 0 m plainEnv], fun _ => none, oneLine (historyPath m.val.senderStr),
    ?_, fun fl hconf => ?_⟩
  · exact differIn_oneLine (congrArg historyPath hsender)
  · have hslot : (roomAfter fl (fun _ => none) [.connect plainEnv]).slotOf 0 = some 0 := by
      cases fl <;> rfl
    have hagree := agree_roomAfter (saves_marked (historyPath m.val.senderStr))
      (marked_oneLine _) fl [.connect plainEnv]
    apply hagree.framesTo_ne (kind_makeMessage ..) hslot fl plainEnv
    apply hconf [.connect plainEnv] (.request 0 m plainEnv) [] rfl 0
    rintro ⟨-, s, -, hactive, -⟩
    have hnone : ∀ s, ((roomAfter fl (fun _ => none) [.connect plainEnv]).table s).active = false := by
      cases fl <;> decide
    rw [hnone s] at hactive
    cases hactive

end ChatSystem.Chat
