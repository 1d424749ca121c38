import ChatSystem.Chat.Strangers

/-!
# The three servers compared

For the same events the epoll and the thread server answer the same. So does the fork
server as long as nobody logs in again under the name it is logged in under, and a logout
is followed by the end of its connection before anything else could tell that the slot is
still in use. What differs by design is how the end of a connection is announced.
-/

namespace ChatSystem.Chat

open Bytes Reactive

/-- A message without its time. -/
def untimed (m : Message) : Message := { m with timestamp := 0 }

/-- What a connection gets, without the time. -/
def timeless (x : Sent) : Option (Nat × Message) := some (x.conn, untimed x.frame)

/-- The same event for two servers: their clocks may differ, the host's answers and the
credential checks do not. -/
inductive SameEvent : Event → Event → Prop
  | connect (env env' : Env) : SameEvent (.connect env) (.connect env')
  | request (c : Nat) (m : Request) {env env' : Env} (hhost : env'.host = env.host)
      (hcheck : ∀ u p, validate env'.disc env'.now u p = validate env.disc env.now u p) :
      SameEvent (.request c m env) (.request c m env')
  | close (c : Nat) (how how' : Leaving) : SameEvent (.close c how) (.close c how')

/-- One event, without the notices at the end of a connection. -/
def answer (fl : Flavour) (room : Room) (e : Event) : Room × List Sent :=
  match e with
  | .close _ _ => ((serve fl room e).1, [])
  | _ => serve fl room e

/-- The messages sent at a list of events, without the notices at the end of a connection. -/
def answersAt (fl : Flavour) (history : History) (es : List Event) : List Sent :=
  outputs (answer fl) (.init history) es

/-- The users that are logged in, with their status. -/
def users (room : Room) : List (List UInt8 × Nat) :=
  ((List.finRange maxClients).filter fun i => (room.table i).active).map fun i =>
    ((room.table i).name, (room.table i).status)

/-- The connections that have logged out and are still open, behind an event. -/
def lingering (room : Room) (gone : List Nat) : Event → List Nat
  | .connect _ => gone
  | .request c m _ =>
    if m.val.kind = some .logout ∧ room.slotOf c ≠ none then c :: gone else gone
  | .close c _ => gone.filter (· ≠ c)

/-- An event all servers treat alike: no connection arrives while one that has logged out is
open, which sends nothing more, and nobody logs in under the name it is logged in under. -/
def Plain (room : Room) (gone : List Nat) : Event → Prop
  | .connect _ => gone = []
  | .request c m _ => c ∉ gone ∧ ∀ s u p, room.slotOf c = some s → m.val.kind = some .login →
      scanLogin m.val.payload.toList = some (u, p) → (room.table s).active = true →
      (room.table s).name ≠ u
  | .close _ _ => True

/-- All events of a run of the epoll server are such. -/
def Orderly : Room → List Nat → List Event → Prop
  | _, _, [] => True
  | room, gone, e :: es =>
    Plain room gone e ∧ Orderly (serve .epoll room e).1 (lingering room gone e) es

/-- The epoll server, and another one where some slots are still in use. -/
structure Matches (gone : List Nat) (room room' : Room) : Prop where
  table : ∀ s, Alike (room.table s) (room'.table s)
  conn : ∀ s, room'.conn s = room.conn s ∨
    room.conn s = none ∧ ∃ c ∈ gone, room'.conn s = some c
  accepted : room'.accepted = room.accepted
  history : room'.history = room.history

variable {fl : Flavour} {room room' : Room} {gone gone' : List Nat} {s : Slot} {c : Nat}
  {env env' : Env} {m : Message} {e e' : Event} {es es' : List Event}

namespace Matches

variable (h : Matches gone room room')

include h

theorem others (s : Slot) : room'.others s = room.others s := by
  simp only [Room.others, (h.table _).active]

/-- A slot in use has the same connection in both. -/
theorem conn_eq (hs : room.conn s ≠ none) : room'.conn s = room.conn s := by
  rcases h.conn s with hc | ⟨hc, -⟩
  · exact hc
  · exact absurd hc hs

/-- So has an active slot. -/
theorem conn_of_active (hok : Tidy room) (hs : (room.table s).active = true) :
    room'.conn s = room.conn s := by
  obtain ⟨c, hc⟩ := hok.conn_of_active hs
  exact h.conn_eq (by rw [hc]; exact Option.some_ne_none c)

/-- A connection that has not logged out has the same slot in both. -/
theorem slotOf (hc : c ∉ gone) : room'.slotOf c = room.slotOf c := by
  have hconn : ∀ i, (room'.conn i == some c) = (room.conn i == some c) := by
    intro i
    rcases h.conn i with hi | ⟨hi, d, hd, hi'⟩
    · rw [hi]
    · have hne : d ≠ c := fun heq => hc (heq ▸ hd)
      simp [hi, hi', hne]
  simp only [Room.slotOf, hconn]

omit h in
/-- Messages for slots with the same connection, of the same text. -/
theorem copies {slots : List Slot} (hslots : ∀ i ∈ slots, room'.conn i = room.conn i) (via : Via)
    {m m' : Message} (hm : untimed (canonical m') = untimed (canonical m)) :
    (room'.copies slots via m').filterMap timeless =
      (room.copies slots via m).filterMap timeless := by
  rw [Room.copies, Room.copies, List.filterMap_filterMap, List.filterMap_filterMap]
  apply List.filterMap_congr
  intro i hi
  rw [hslots i hi]
  cases room.conn i with
  | none => rfl
  | some c => simp [timeless, hm]

theorem reply (hs : room.conn s = some c) {m m' : Message}
    (hm : untimed (canonical m') = untimed (canonical m)) :
    (room'.reply s m').filterMap timeless = (room.reply s m).filterMap timeless := by
  apply copies _ .reply hm
  intro i hi
  obtain rfl := List.mem_singleton.mp hi
  exact h.conn_eq (by rw [hs]; exact Option.some_ne_none c)

theorem setEntry {e e' : Entry} (he : Alike e e') (s : Slot) :
    Matches gone (room.setEntry s e) (room'.setEntry s e') :=
  ⟨alike_update h.table he s, h.conn, h.accepted, h.history⟩

theorem save (hhost : env'.host = env.host) (m : Message) (receiver : List UInt8) :
    Matches gone (room.save env m receiver) (room'.save env' m receiver) := by
  refine ⟨h.table, h.conn, h.accepted, ?_⟩
  simp only [Room.save, h.history, hhost]

/-- Releasing the slot in both. -/
theorem release (fl : Flavour) (s : Slot) :
    Matches gone (room.release .epoll s) (room'.release fl s) := by
  obtain ⟨-, hactive, hname⟩ := released_spec fl (room'.table s)
  have hzero : Alike Entry.zero (fl.released (room'.table s)) :=
    ⟨hname, hactive, fun hf => absurd hf Bool.false_ne_true⟩
  refine ⟨alike_update h.table hzero s, fun i => ?_, h.accepted, h.history⟩
  · by_cases hi : i = s
    · rw [conn_release, conn_release, hi, Function.update_self, Function.update_self]
      exact Or.inl rfl
    · rw [conn_release, conn_release, Function.update_of_ne hi, Function.update_of_ne hi]
      exact h.conn i

/-- Releasing it in the epoll server alone, where the connection lingers in the other one. -/
theorem linger (hs : room.conn s = some c) (hc : c ∈ gone) :
    Matches gone (room.release .epoll s) (room'.setEntry s (room'.table s).clear) := by
  have hclear : Alike Entry.zero (room'.table s).clear :=
    ⟨rfl, rfl, fun hf => absurd hf Bool.false_ne_true⟩
  refine ⟨alike_update h.table hclear s, fun i => ?_, h.accepted, h.history⟩
  by_cases hi : i = s
  · rw [conn_release, conn_setEntry, hi, Function.update_self]
    refine Or.inr ⟨rfl, c, hc, ?_⟩
    rw [h.conn_eq (by rw [hs]; exact Option.some_ne_none c), hs]
  · rw [conn_release, conn_setEntry, Function.update_of_ne hi]
    exact h.conn i

theorem mono (hsub : ∀ c ∈ gone, c ∈ gone') : Matches gone' room room' := by
  refine ⟨h.table, fun i => ?_, h.accepted, h.history⟩
  rcases h.conn i with hc | ⟨hc, d, hd, hd'⟩
  · exact Or.inl hc
  · exact Or.inr ⟨hc, d, hsub d hd, hd'⟩

theorem copies_others (hok : Tidy room) (s : Slot) (via : Via) {m m' : Message}
    (hm : untimed (canonical m') = untimed (canonical m)) :
    (room'.copies (room'.others s) via m').filterMap timeless =
      (room.copies (room.others s) via m).filterMap timeless := by
  rw [h.others]
  exact copies (fun i hi => h.conn_of_active hok (mem_others.mp hi).2) via hm

/-- A request that does the same in both servers. -/
theorem route (hok : Tidy room) (hs : room.conn s = some c)
    (htaken : ∀ u p, m.kind = some .login → scanLogin m.payload.toList = some (u, p) →
      room'.taken fl s u = room.taken .epoll s u)
    (hhost : env'.host = env.host)
    (hcheck : ∀ u p, validate env'.disc env'.now u p = validate env.disc env.now u p)
    (hgone : m.kind = some .logout → fl = .fork → c ∈ gone) :
    Matches gone (room.route .epoll env s m).1 (room'.route fl env' s m).1 ∧
      (room'.route fl env' s m).2.filterMap timeless =
        (room.route .epoll env s m).2.filterMap timeless := by
  have hack : (room'.reply s (relayed env'.now m)).filterMap timeless =
      (room.reply s (relayed env.now m)).filterMap timeless := h.reply hs rfl
  simp only [Room.route]
  split
  · next hkind =>
    simp only [Room.login]
    split
    · exact ⟨h, h.reply hs rfl⟩
    · next u p hscan =>
      rw [htaken u p hkind hscan, hcheck u p]
      split
      · exact ⟨h, h.reply hs rfl⟩
      · split
        · exact ⟨h, h.reply hs rfl⟩
        · refine ⟨?_, h.reply hs rfl⟩
          rw [(h.table s).login]
          exact h.setEntry (.refl _) s
  · next hkind =>
    simp only [Room.logout]
    have hout : (room'.farewell env' s).filterMap timeless =
        (room.farewell env s).filterMap timeless := by
      rw [Room.farewell, (h.table s).name]
      exact h.copies_others hok s .notice rfl
    cases fl with
    | fork => exact ⟨h.linger hs (hgone hkind rfl), hout⟩
    | thread => exact ⟨h.release .thread s, hout⟩
    | epoll => exact ⟨h.release .epoll s, hout⟩
  · simp only [Room.broadcast, (h.table s).active]
    split
    · exact ⟨h, h.reply hs rfl⟩
    · refine ⟨h.save hhost m [], ?_⟩
      rw [List.filterMap_append, List.filterMap_append, h.copies_others hok s .relay rfl, hack]
  · simp only [Room.priv, (h.table s).active, findName_alike h.table]
    split
    · exact ⟨h, h.reply hs rfl⟩
    · split
      · exact ⟨h, h.reply hs rfl⟩
      · next t ht =>
        have hactive : (room.table t).active = true := by
          have hholds := findName_eq_some ht
          simp only [Entry.holds, Bool.and_eq_true] at hholds
          exact hholds.1
        have hcopy : (room'.copies [t] .relay m).filterMap timeless =
            (room.copies [t] .relay m).filterMap timeless := by
          apply copies _ .relay rfl
          intro i hi
          obtain rfl := List.mem_singleton.mp hi
          exact h.conn_of_active hok hactive
        refine ⟨h.save hhost m m.receiverStr, ?_⟩
        rw [List.filterMap_append, List.filterMap_append, hcopy, hack]
  · refine ⟨h, h.reply hs ?_⟩
    rw [userList, listUsers_alike h.table]
    rfl
  · refine ⟨h, h.reply hs ?_⟩
    rw [h.history]
    rfl
  · exact ⟨h.setEntry ((h.table s).setStatus _) s, h.reply hs rfl⟩
  · exact ⟨h, h.reply hs rfl⟩

/-- Filling a slot, when no connection lingers. -/
theorem connect (hok : Tidy room') (hnone : gone = []) (fl : Flavour) (env env' : Env) :
    Matches gone (room.connect .epoll env).1 (room'.connect fl env').1 ∧
      (room'.connect fl env').2.filterMap timeless =
        (room.connect .epoll env).2.filterMap timeless := by
  have hconn : room'.conn = room.conn := by
    funext i
    rcases h.conn i with hi | ⟨-, d, hd, -⟩
    · exact hi
    · rw [hnone] at hd
      cases hd
  simp only [Room.connect, hconn]
  split
  · refine ⟨⟨h.table, fun i => Or.inl ?_, congrArg (· + 1) h.accepted, h.history⟩, ?_⟩
    · exact rfl
    · rw [h.accepted]
      rfl
  · next s hs =>
    have hfree : room'.conn s = none := by simpa [hconn] using firstSlot_eq_some hs
    obtain ⟨-, hactive, hname⟩ := hok.filled_spec hfree fl
    have hzero : Alike Entry.zero (fl.filled (room'.table s)) :=
      ⟨hname, hactive, fun hf => absurd hf Bool.false_ne_true⟩
    refine ⟨⟨alike_update h.table hzero s, fun i => Or.inl ?_, ?_, h.history⟩, rfl⟩
    · rw [conn_fill, conn_fill, hconn, h.accepted]
    · exact congrArg (· + 1) h.accepted

/-- A connection that has ended lingers no more. -/
theorem forget (hc : ∀ i, room'.conn i ≠ some c) : Matches (gone.filter (· ≠ c)) room room' := by
  refine ⟨h.table, fun i => ?_, h.accepted, h.history⟩
  rcases h.conn i with hi | ⟨hi, d, hd, hd'⟩
  · exact Or.inl hi
  · have hne : d ≠ c := fun heq => hc i (heq ▸ hd')
    exact Or.inr ⟨hi, d, List.mem_filter.mpr ⟨hd, by simpa using hne⟩, hd'⟩

/-- Releasing a slot only the other server has kept. -/
theorem drop (hok : Tidy room) (hs : room.conn s = none) (fl : Flavour) :
    Matches gone room (room'.release fl s) := by
  have hinactive := hok.held s hs
  obtain ⟨-, hactive, hname⟩ := released_spec fl (room'.table s)
  refine ⟨fun i => ?_, fun i => ?_, h.accepted, h.history⟩
  · by_cases hi : i = s
    · rw [table_release, hi, Function.update_self]
      refine ⟨hname.trans (hok.blank s hinactive).symm, hactive.trans hinactive.symm, fun hf => ?_⟩
      rw [hinactive] at hf
      cases hf
    · rw [table_release, Function.update_of_ne hi]
      exact h.table i
  · by_cases hi : i = s
    · rw [conn_release, hi, Function.update_self, hs]
      exact Or.inl rfl
    · rw [conn_release, Function.update_of_ne hi]
      exact h.conn i

/-- The end of a connection. -/
theorem close (hok : Tidy room) (hok' : Tidy room') (fl : Flavour) (c : Nat)
    (how how' : Leaving) :
    Matches (gone.filter (· ≠ c)) (room.close .epoll c how).1 (room'.close fl c how').1 := by
  have hended : ∀ s, room'.slotOf c = some s → ∀ i, (room'.release fl s).conn i ≠ some c := by
    intro s hs i hi
    by_cases his : i = s
    · rw [conn_release, his, Function.update_self] at hi
      cases hi
    · rw [conn_release, Function.update_of_ne his] at hi
      exact his (hok'.apart i s c hi (conn_of_slotOf hs))
  cases hs : room.slotOf c with
  | some s =>
    have hconn := conn_of_slotOf hs
    have hconn' : room'.conn s = some c := by
      rw [h.conn_eq (by rw [hconn]; exact Option.some_ne_none c), hconn]
    have hs' := hok'.slotOf_eq hconn'
    simp only [Room.close, hs, hs']
    exact (h.release fl s).forget (hended s hs')
  | none =>
    cases hs' : room'.slotOf c with
    | none =>
      simp only [Room.close, hs, hs']
      exact h.forget (conn_ne_of_slotOf hs')
    | some s =>
      have hnone : room.conn s = none := by
        rcases h.conn s with hi | ⟨hi, -⟩
        · exact absurd (hi.symm.trans (conn_of_slotOf hs')) (conn_ne_of_slotOf hs s)
        · exact hi
      simp only [Room.close, hs, hs']
      exact (h.drop hok hnone fl).forget (hended s hs')

end Matches

/-! ## Names in use -/

/-- The epoll and the thread server test a name alike; so does the fork server unless the
name is the client's own. -/
theorem taken_eq (h : Matches gone room room') {u : List UInt8}
    (hu : ValidName u)
    (hown : fl = .fork → (room.table s).active = true → (room.table s).name ≠ u) :
    room'.taken fl s u = room.taken .epoll s u := by
  have hfind := findName_alike h.table u
  cases fl with
  | thread => simp only [Room.taken, hfind]
  | epoll => simp only [Room.taken, hfind]
  | fork =>
    simp only [Room.taken, hfind]
    cases hk : findName room.table u with
    | none => rfl
    | some k =>
      obtain ⟨hactive, hname⟩ := (Entry.holds_iff hu).mp (findName_eq_some hk)
      have hne : k ≠ s := by
        intro heq
        exact hown rfl (heq ▸ hactive) (heq ▸ hname)
      simp [hne]

/-! ## Runs -/

theorem answer_fst (fl : Flavour) (room : Room) (e : Event) :
    (answer fl room e).1 = (serve fl room e).1 := by
  cases e <;> rfl

/-- The connections that linger in another server. -/
def lingersIn (fl : Flavour) (room : Room) (gone : List Nat) (e : Event) : List Nat :=
  if fl = .fork then lingering room gone e else gone

/-- A request. -/
theorem Matches.request (h : Matches gone room room') (hok : Tidy room) {m : Request}
    (hc : c ∉ gone) (hhost : env'.host = env.host)
    (hcheck : ∀ u p, validate env'.disc env'.now u p = validate env.disc env.now u p)
    (hown : fl = .fork → ∀ s u p, room.slotOf c = some s → m.val.kind = some .login →
      scanLogin m.val.payload.toList = some (u, p) → (room.table s).active = true →
      (room.table s).name ≠ u) :
    Matches (lingersIn fl room gone (.request c m env)) (room.request .epoll c m.val env).1
        (room'.request fl c m.val env').1 ∧
      (room'.request fl c m.val env').2.filterMap timeless =
        (room.request .epoll c m.val env).2.filterMap timeless := by
  have hsub : ∀ d ∈ gone, d ∈ lingersIn fl room gone (.request c m env) := by
    intro d hd
    simp only [lingersIn, lingering]
    split
    · split
      · exact List.mem_cons_of_mem c hd
      · exact hd
    · exact hd
  simp only [Room.request, h.slotOf hc]
  cases hs : room.slotOf c with
  | none => exact ⟨h.mono hsub, rfl⟩
  | some s =>
    apply (h.mono hsub).route hok (conn_of_slotOf hs) _ hhost hcheck
    · intro hlogout hfork
      simp [lingersIn, lingering, hfork, hlogout, hs]
    · intro u p hlogin hscan
      apply taken_eq h (validName_of_scanLogin hscan)
      exact fun hfork => hown hfork s u p hs hlogin hscan

/-- One event. -/
theorem Matches.answer (h : Matches gone room room') (hok : Tidy room) (hok' : Tidy room')
    (he : SameEvent e e') (hnone : fl ≠ .fork → gone = [])
    (hplain : fl = .fork → Plain room gone e) :
    Matches (lingersIn fl room gone e) (serve .epoll room e).1 (serve fl room' e').1 ∧
      (answer fl room' e').2.filterMap timeless =
        (Chat.answer .epoll room e).2.filterMap timeless := by
  cases he with
  | connect env env' =>
    have hgone : gone = [] := by
      by_cases hfl : fl = .fork
      · exact hplain hfl
      · exact hnone hfl
    have hsame : lingersIn fl room gone (.connect env) = gone := by
      simp only [lingersIn, lingering, ite_self]
    rw [hsame]
    exact h.connect hok' hgone fl env env'
  | @request c m env env' hhost hcheck =>
    have hc : c ∉ gone := by
      by_cases hfl : fl = .fork
      · exact (hplain hfl).1
      · rw [hnone hfl]
        exact List.not_mem_nil
    exact h.request hok hc hhost hcheck fun hfl => (hplain hfl).2
  | close c how how' =>
    have hclose := h.close hok hok' fl c how how'
    refine ⟨hclose.mono fun d hd => ?_, rfl⟩
    simp only [lingersIn, lingering]
    split
    · exact hd
    · exact (List.mem_filter.mp hd).1

theorem users_eq (h : Matches gone room room') : users room' = users room := by
  rw [users, users, funext fun i => (h.table i).active]
  apply List.map_congr_left
  intro i hi
  have hactive : (room.table i).active = true := (List.mem_filter.mp hi).2
  rw [(h.table i).name, (h.table i).status hactive]

/-- The relation holds along a run. -/
theorem matches_after (hes : List.Forall₂ SameEvent es es') (h : Matches gone room room')
    (hok : Tidy room) (hok' : Tidy room') (hnone : fl ≠ .fork → gone = [])
    (horder : fl = .fork → Orderly room gone es) :
    (∃ gone', Matches gone' (after (serve .epoll) room es) (after (serve fl) room' es')) ∧
      (outputs (answer fl) room' es').filterMap timeless =
        (outputs (answer .epoll) room es).filterMap timeless := by
  induction hes generalizing room room' gone with
  | nil => exact ⟨⟨gone, h⟩, rfl⟩
  | @cons e e' es es' he _ ih =>
    obtain ⟨h₁, h₂⟩ := h.answer hok hok' he hnone fun hfl => (horder hfl).1
    have hnone' : fl ≠ .fork → lingersIn fl room gone e = [] := by
      intro hfl
      rw [lingersIn, if_neg hfl, hnone hfl]
    have horder' : fl = .fork → Orderly (serve .epoll room e).1 (lingersIn fl room gone e) es := by
      intro hfl
      rw [lingersIn, if_pos hfl]
      exact (horder hfl).2
    obtain ⟨h₃, h₄⟩ := ih h₁ (hok.serve .epoll e) (hok'.serve fl e') hnone' horder'
    refine ⟨h₃, ?_⟩
    simp only [outputs_cons, List.filterMap_append, answer_fst, h₂, h₄]

theorem SameEvent.refl (e : Event) : SameEvent e e := by
  cases e with
  | connect env => exact .connect env env
  | request c m env => exact .request c m rfl fun _ _ => rfl
  | close c how => exact .close c how how

end ChatSystem.Chat
