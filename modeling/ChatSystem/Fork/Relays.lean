import ChatSystem.Fork.Ends
import ChatSystem.Server.Posts

/-!
# Broadcasts of the fork server

A broadcast is routed by the parent, which copies it to the other active slots before it reads
again. In between, the handler can only deactivate slots.
-/

namespace ChatSystem.Fork

open Bytes Channel Relay Tasks Transition

/-! ## Posts and copies -/

/-- A broadcast is routed. -/
def Shared.post (sh : Shared) (s : Slot) (c : Nat) (m : Message) : Post where
  slot := s
  origin := some c
  message := m
  active j := (sh.clients j).active
  conn := sh.writeEnd

/-- The broadcast an act routes. -/
def Act.posting (a : Act) (sh : Shared) : List Post :=
  match a with
  | .route s c m => if m.kind = some .broadcast then [sh.post s c m] else []
  | _ => []

/-- What is written for the children. -/
def toChildren (make : Nat → Message → Item Nat Message) (xs : List (Pipe × Message)) :
    List (Item Nat Message) :=
  xs.filterMap fun x =>
    match x.1 with
    | .toChild c => some (make c x.2)
    | .fromChild _ => none

/-- The broadcast an act routes, or what it writes for the children. -/
def Act.items (a : Act) (i : Input) (sh : Shared) : List (Item Nat Message) :=
  match a with
  | .route _ _ m => if m.kind = some .broadcast then [.post] else []
  | .relay .. => toChildren .copy (a.writing i sh)
  | _ => toChildren .other (a.writing i sh)

/-- The broadcast a step routes. -/
def postsAt (st : State) (l : Tid × Input) : List Post :=
  match st.todo l.1 with
  | .act a :: _ => a.posting st.shared
  | _ => []

/-- The items of a step. -/
def itemsAt (st : State) (l : Tid × Input) : List (Item Nat Message) :=
  match st.todo l.1 with
  | .act a :: _ => a.items l.2 st.shared
  | _ => []

/-- The broadcasts of a run, in the order in which they are routed. -/
def posts (st : State) (ls : List (Tid × Input)) : List Post := collect step postsAt st ls

/-- What the parent writes for the children in a run, between the broadcasts. -/
def transcript (st : State) (ls : List (Tid × Input)) : List (Item Nat Message) :=
  collect step itemsAt st ls

/-- What is written for a connection, with the numbers of the broadcasts. -/
def inboxOf (c : Nat) (st : State) (ls : List (Tid × Input)) : List (Option Nat × Message) :=
  inbox c 0 (transcript st ls)

/-- What a child reads from its client. -/
def Act.taking (a : Act) (i : Input) : List (Pipe × Message) :=
  match a with
  | .fromClient k =>
    match (recvMessage i.source).1 with
    | some m => [(.fromChild k.conn, m)]
    | none => []
  | _ => []

/-- The messages the child of a connection receives from its client in a run. -/
def taken (c : Nat) (st : State) (ls : List (Tid × Input)) : List Message :=
  onPipe (.fromChild c) (collect step (ofAct fun a i _ => a.taking i) st ls)

variable {t : Tid} {a b : Act} {i : Input} {sh sh' : Shared} {out : Outcome Empty Tid Act Shared}
  {s : Slot} {c : Nat} {m : Message} {js : List Slot} {p : Post} {ds : List Nat} {rest : Code}
  {o : Option (Post × List Nat)} {ps : List Post} {xs : List (Item Nat Message)}

/-- Only the parent routes and writes for the children. -/
theorem items_of_other (ha : a.owner ≠ .parent) : a.posting sh = [] ∧ a.items i sh = [] := by
  cases a with
  | bridge | fromClient | farewell | fromParent | exit | reap => exact ⟨rfl, rfl⟩
  | forward k m =>
    refine ⟨rfl, ?_⟩
    simp only [Act.items, Act.writing]
    split <;> rfl
  | _ => exact absurd rfl ha

/-- What a slot is sent is handed over to its connection, while its child is there. -/
theorem toChildren_sending (make : Nat → Message → Item Nat Message) (sh : Shared) (s : Slot)
    (m : Message) : toChildren make (sh.sending s m) = [] ∨
      ∃ c, sh.writeEnd s = some c ∧ toChildren make (sh.sending s m) = [make c m] := by
  rw [sending_eq]
  cases hc : sh.writeEnd s with
  | none => exact Or.inl rfl
  | some c =>
    simp only
    split
    · exact Or.inl rfl
    · exact Or.inr ⟨c, rfl, rfl⟩

/-- Nothing else than copies is handed over as a copy. -/
theorem eq_other_of_mem {xs : List (Pipe × Message)} {x : Item Nat Message}
    (h : x ∈ toChildren .other xs) : ∃ c m, x = .other c m ∧ (.toChild c, m) ∈ xs := by
  obtain ⟨⟨p, m⟩, hmem, hx⟩ := List.mem_filterMap.mp h
  cases p with
  | toChild c => exact ⟨c, m, (Option.some.inj hx).symm, hmem⟩
  | fromChild c => cases hx

/-! ## The loop of a broadcast -/

/-- No broadcast is being copied. -/
def NoRelay (p : Code) : Prop := ∀ s m js, .act (.relay s m js) ∉ p

/-- The loop over the slots `js` is ahead, and `ds` have got their copies. -/
structure Relaying (p : Post) (ds : List Nat) (s : Slot) (m : Message) (js : List Slot)
    (sh : Shared) : Prop where
  slot : p.slot = s
  message : p.message = m
  origin : ∃ c, p.origin = some c ∧ sh.writeEnd s = some c
  active : ∀ j, (sh.clients j).active = true → p.active j = true
  conn : ∀ j, p.conn j = sh.writeEnd j
  nodup : js.Nodup
  fresh : ∀ j ∈ js, ∀ d ∈ ds, sh.writeEnd j ≠ some d

/-- The parent copies the last post, or none. -/
inductive Stage (o : Option (Post × List Nat)) (sh : Shared) : Code → Prop
  | plain {rest : Code} (h : NoRelay rest) : Stage o sh rest
  | relay {p : Post} {ds : List Nat} {s : Slot} {m : Message} {js : List Slot} {rest : Code}
    (ho : o = some (p, ds)) (h : Relaying p ds s m js sh) (hrest : NoRelay rest) :
    Stage o sh (.act (.relay s m js) :: rest)
  | save {p : Post} {ds : List Nat} {s : Slot} {m : Message} {js : List Slot} {rest : Code}
    (m' : Message) (r : List UInt8) (ho : o = some (p, ds)) (h : Relaying p ds s m js sh)
    (hrest : NoRelay rest) :
    Stage o sh (.act (.saveHistory m' r) :: .act (.relay s m js) :: rest)

theorem NoRelay.tail {x : Stmt Empty Act} (h : NoRelay (x :: rest)) : NoRelay rest :=
  fun s m js hm => h s m js (List.mem_cons_of_mem _ hm)

theorem NoRelay.append {q : Code} (h : NoRelay q) (hrest : NoRelay rest) : NoRelay (q ++ rest) := by
  intro s m js hm
  rcases List.mem_append.mp hm with hm | hm
  · exact h s m js hm
  · exact hrest s m js hm

theorem noRelay_code {acts : List Act} (h : ∀ s m js, .relay s m js ∉ acts) :
    NoRelay (code acts) :=
  fun s m js hm => h s m js (mem_code.mp hm)

theorem Relaying.congr (h : Relaying p ds s m js sh)
    (hactive : ∀ j, (sh'.clients j).active = true → (sh.clients j).active = true)
    (hend : ∀ j, sh'.writeEnd j = sh.writeEnd j) : Relaying p ds s m js sh' where
  slot := h.slot
  message := h.message
  origin := by
    obtain ⟨c, hc, hs⟩ := h.origin
    exact ⟨c, hc, (hend s).trans hs⟩
  active j hj := h.active j (hactive j hj)
  conn j := (h.conn j).trans (hend j).symm
  nodup := h.nodup
  fresh j hj d hd := by
    rw [hend]
    exact h.fresh j hj d hd

theorem Quiet.writeEnd (h : Quiet sh sh') (j : Slot) : sh'.writeEnd j = sh.writeEnd j := by
  rw [Shared.writeEnd, Shared.writeEnd, h.clients, h.fd]

theorem Relaying.quiet (h : Relaying p ds s m js sh) (hq : Quiet sh sh') :
    Relaying p ds s m js sh' := by
  refine h.congr (fun j hj => ?_) hq.writeEnd
  rw [hq.clients] at hj
  exact hj

/-- The children and the handler leave the loop alone. -/
theorem Relaying.async (h : Relaying p ds s m js sh) (ha : Async sh sh') :
    Relaying p ds s m js sh' := by
  refine h.congr (fun j hj => ?_) ha.writeEnd
  rcases ha.client j with he | he <;> rw [he] at hj
  · exact hj
  · cases hj

theorem Stage.async (h : Stage o sh rest) (ha : Async sh sh') : Stage o sh' rest := by
  cases h with
  | plain h => exact .plain h
  | relay ho h hrest => exact .relay ho (h.async ha) hrest
  | save m' r ho h hrest => exact .save m' r ho (h.async ha) hrest

/-- The slot in front is dealt with. -/
theorem Relaying.next {j : Slot} (h : Relaying p ds s m (j :: js) sh) :
    Relaying p ds s m js sh where
  slot := h.slot
  message := h.message
  origin := h.origin
  active := h.active
  conn := h.conn
  nodup := (List.nodup_cons.mp h.nodup).2
  fresh k hk := h.fresh k (List.mem_cons_of_mem _ hk)

/-- The slot in front gets its copy. -/
theorem Relaying.copied {j : Slot} {d : Nat} (h : Relaying p ds s m (j :: js) sh)
    (hD : Distinct sh) (hd : sh.writeEnd j = some d) : Relaying p (ds ++ [d]) s m js sh := by
  refine { h.next with fresh := fun k hk d' hd' => ?_ }
  rcases List.mem_append.mp hd' with hd' | hd'
  · exact h.next.fresh k hk d' hd'
  · obtain rfl := List.mem_singleton.mp hd'
    intro hk'
    obtain rfl := hD.inj k j d' hk' hd
    exact (List.nodup_cons.mp h.nodup).1 hk

/-- A copy is for the connection of another slot that was active. -/
theorem Relaying.reaches {j : Slot} {d : Nat} (h : Relaying p ds s m (j :: js) sh)
    (hD : Distinct sh) (hj : j ≠ s) (hactive : (sh.clients j).active = true)
    (hd : sh.writeEnd j = some d) : p.Reaches d m := by
  refine ⟨h.message.symm, fun ho => ?_, j, ?_, h.active j hactive, (h.conn j).trans hd⟩
  · obtain ⟨c, hc, hs⟩ := h.origin
    obtain rfl := Option.some.inj (hc.symm.trans ho)
    exact hj (hD.inj j s c hd hs)
  · rw [h.slot]
    exact hj

/-- Routing anything but a broadcast copies nothing. -/
theorem noRelay_route (sh : Shared) (s : Slot) (hm : m.kind ≠ some .broadcast) :
    NoRelay (code (sh.route s m)) := by
  apply noRelay_code
  unfold Shared.route
  split
  · unfold Shared.login
    split <;> simp
  · simp [Shared.logout]
  · next h => exact absurd h hm
  · unfold Shared.priv
    split <;> simp
  all_goals simp

theorem noRelay_next (h : exec t a i sh = some out) (hr : ∀ s m js, a ≠ .relay s m js)
    (hp : ∀ s c m, a ≠ .route s c m) : NoRelay out.next := by
  cases a <;> simp only [exec] at h
  case relay s m js => exact absurd rfl (hr s m js)
  case route s c m => exact absurd rfl (hp s c m)
  all_goals
    repeat' split at h
    all_goals cases h
    all_goals exact noRelay_code (by simp [mainLoop])

/-- A broadcast is copied to all slots, in order, if its sender is logged in. -/
theorem stage_route (hm : m.kind = some .broadcast) (hs : sh.writeEnd s = some c)
    (hrest : NoRelay rest) : Stage (some (sh.post s c m, [])) (sh.note (.routed s c m))
      (code (sh.route s m) ++ rest) := by
  have hroute : sh.route s m = sh.broadcast s m := by
    unfold Shared.route
    rw [hm]
  rw [hroute, Shared.broadcast]
  split
  · exact .plain ((noRelay_code (by simp)).append hrest)
  · refine .save m [] rfl ⟨rfl, rfl, ⟨c, rfl, hs⟩, fun j hj => hj, fun j => rfl,
      List.nodup_finRange _, fun _ _ _ hd => (by cases hd)⟩ ?_
    exact NoRelay.append (q := code [.reply s (relayed · m)]) (noRelay_code (by simp)) hrest

/-- One act of the parent enters the broadcast it routes, or the copy it writes. -/
theorem Stage.step (hS : Stage o sh (.act a :: rest)) (h : exec t a i sh = some out)
    (hD : Distinct sh) (hlead : Leading a sh) (ho : Orderly Post.Reaches ps xs o) :
    ∃ o', Orderly Post.Reaches (ps ++ a.posting sh) (xs ++ a.items i sh) o' ∧
      Stage o' out.shared (out.next ++ rest) := by
  cases hS with
  | relay heq hR hrest =>
    rename_i p ds s m js
    subst heq
    simp only [exec] at h
    have hpost : Act.posting (.relay s m js) sh = [] := rfl
    rw [hpost, List.append_nil]
    cases js with
    | nil =>
      obtain rfl := goOn_inj h
      exact ⟨_, by simpa [Act.items, Act.writing, toChildren] using ho, .plain hrest⟩
    | cons j js =>
      simp only at h
      split at h <;> obtain rfl := goOn_inj h
      · next hj =>
        have hitems : Act.items (.relay s m (j :: js)) i sh =
            toChildren .copy (sh.sending j m) := by
          simp only [Act.items, Act.writing, if_pos hj]
        have hquiet := Quiet.pipeSend sh j m
        rw [hitems]
        rcases toChildren_sending .copy sh j m with hnone | ⟨d, hd, hcopy⟩
        · rw [hnone, List.append_nil]
          exact ⟨_, ho, .relay rfl (hR.next.quiet hquiet) hrest⟩
        · rw [hcopy]
          refine ⟨_, ho.copy (hR.reaches hD hj.1 hj.2 hd) fun hmem => ?_,
            .relay rfl ((hR.copied hD hd).quiet hquiet) hrest⟩
          exact hR.fresh j List.mem_cons_self d hmem hd
      · next hj =>
        have hitems : Act.items (.relay s m (j :: js)) i sh = [] := by
          simp only [Act.items, Act.writing, if_neg hj]
          rfl
        rw [hitems, List.append_nil]
        exact ⟨_, ho, .relay rfl hR.next hrest⟩
  | save m' r heq hR hrest =>
    obtain rfl := goOn_inj h
    exact ⟨_, by simpa [Act.posting, Act.items, Act.writing, toChildren] using ho,
      .relay heq (hR.quiet (.setHistory sh _)) hrest⟩
  | plain hno =>
    have hrest := hno.tail
    by_cases hroute : ∃ s c m, a = .route s c m
    · obtain ⟨s, c, m, rfl⟩ := hroute
      obtain rfl := goOn_inj h
      by_cases hm : m.kind = some .broadcast
      · refine ⟨some (sh.post s c m, []), ?_, stage_route hm hlead hrest⟩
        simpa only [Act.posting, Act.items, if_pos hm] using ho.post (sh.post s c m)
      · refine ⟨o, ?_, .plain ((noRelay_route sh s hm).append hrest)⟩
        simpa only [Act.posting, Act.items, if_neg hm, List.append_nil] using ho
    · have hroute' : ∀ s c m, a ≠ .route s c m := fun s c m he => hroute ⟨s, c, m, he⟩
      have hrelay : ∀ s m js, a ≠ .relay s m js := by
        rintro s m js rfl
        exact hno s m js List.mem_cons_self
      have hpost : a.posting sh = [] := by
        cases a with
        | route s c m => exact absurd rfl (hroute' s c m)
        | _ => rfl
      have hitems : a.items i sh = toChildren .other (a.writing i sh) := by
        cases a with
        | route s c m => exact absurd rfl (hroute' s c m)
        | relay s m js => exact absurd rfl (hrelay s m js)
        | _ => rfl
      rw [hpost, hitems, List.append_nil]
      refine ⟨o, ho.others fun x hx => ?_, .plain ((noRelay_next h hrelay hroute').append hrest)⟩
      obtain ⟨c, m, he, -⟩ := eq_other_of_mem hx
      exact ⟨c, m, he⟩

/-! ## The messages of the server -/

/-- A message that is handed over by itself is no broadcast. -/
def Act.Plain : Act → Prop
  | .findTarget _ m => m.kind ≠ some .broadcast
  | .pipeSend _ m => m.kind ≠ some .broadcast
  | .reply _ make => ∀ now, (make now).kind ≠ some .broadcast
  | _ => True

theorem plain_route (sh : Shared) (s : Slot) (m : Message) : ∀ b ∈ sh.route s m, b.Plain := by
  unfold Shared.route
  split
  · unfold Shared.login
    split <;> simp [Act.Plain, badLogin]
  · simp [Shared.logout, Act.Plain]
  · unfold Shared.broadcast
    split <;> simp [Act.Plain, notAuthenticated, relayed]
  · next h =>
    unfold Shared.priv
    split
    · simp [Act.Plain, notAuthenticated]
    · simp [Act.Plain, h]
  · simp [Act.Plain]
  · simp [Act.Plain]
  · simp [Act.Plain, statusUpdated]
  · simp [Act.Plain, unknownType]

/-- Every act leaves such messages only. -/
theorem plain_next (h : exec t a i sh = some out) (ha : a.Plain) :
    ∀ b, .act b ∈ out.next → b.Plain := by
  cases a <;> simp only [exec] at h
  case route s c m =>
    obtain rfl := goOn_inj h
    exact fun b hb => plain_route sh s m b (mem_code.mp hb)
  case findTarget s m =>
    have hm : m.kind ≠ some .broadcast := ha
    split at h <;> obtain rfl := goOn_inj h
    · simp [code, Act.Plain, userNotOnline]
    · simp [code, Act.Plain, relayed, hm]
  all_goals
    repeat' split at h
    all_goals cases h
    all_goals
      simp [code, mainLoop, Act.Plain, alreadyLoggedIn, invalidCredentials, loginSuccessful,
        userList, historyResponse]

theorem mem_sending {q : Pipe × Message} (h : q ∈ sh.sending s m) : q.2 = m := by
  rw [sending_eq] at h
  split at h
  · split at h
    · cases h
    · rw [List.mem_singleton.mp h]
  · cases h

/-- A broadcast that is handed over and is no copy is the server's own. -/
theorem isNotice_of_items (ha : a.Plain) (h : .other c m ∈ a.items i sh)
    (hm : m.kind = some .broadcast) : IsNotice m := by
  have hwriting : (∀ s c m, a ≠ .route s c m) → (∀ s m js, a ≠ .relay s m js) →
      (.toChild c, m) ∈ a.writing i sh := by
    intro hroute hrelay
    have hitems : a.items i sh = toChildren .other (a.writing i sh) := by
      cases a with
      | route s c m => exact absurd rfl (hroute s c m)
      | relay s m js => exact absurd rfl (hrelay s m js)
      | _ => rfl
    rw [hitems] at h
    obtain ⟨d, k, he, hmem⟩ := eq_other_of_mem h
    cases he
    exact hmem
  cases a with
  | route s c m' =>
    rw [Act.items] at h
    split at h
    · cases List.mem_singleton.mp h
    · cases h
  | relay s m' js =>
    obtain ⟨⟨p, k⟩, -, hx⟩ := List.mem_filterMap.mp h
    cases p <;> cases hx
  | notify skip note slots =>
    have hmem := hwriting (by simp) (by simp)
    cases slots with
    | nil => cases hmem
    | cons j slots =>
      simp only [Act.writing] at hmem
      split at hmem
      · obtain rfl := mem_sending hmem
        exact ⟨_, _, rfl⟩
      · cases hmem
  | pipeSend s m' =>
    obtain rfl := mem_sending (hwriting (by simp) (by simp))
    exact absurd hm ha
  | reply s make =>
    obtain rfl := mem_sending (hwriting (by simp) (by simp))
    exact absurd hm (ha _)
  | forward k m' =>
    have hmem := hwriting (by simp) (by simp)
    simp only [Act.writing] at hmem
    split at hmem <;> simp at hmem
  | _ => cases hwriting (by simp) (by simp)

/-! ## The books -/

variable {st st' : State} {l : Tid × Input} {ls : List (Tid × Input)} {history : History}

/-- The items are an orderly transcript of the posts. -/
structure Books (ps : List Post) (xs : List (Item Nat Message)) (st : State) : Prop where
  orderly : ∃ o, Orderly Post.Reaches ps xs o ∧ Stage o st.shared (st.todo .parent)
  own : ∀ c m, .other c m ∈ xs → m.kind = some .broadcast → IsNotice m
  plain : ∀ u a, .act a ∈ st.todo u → a.Plain

theorem books_init (history : History) : Books [] [] (init history) := by
  refine ⟨⟨none, .nil, .plain (noRelay_code (by simp [mainLoop]))⟩, fun c m hm => (by cases hm),
    fun u a ha => ?_⟩
  cases u with
  | parent =>
    obtain rfl := List.mem_singleton.mp (mem_code.mp ha)
    trivial
  | sigchld =>
    obtain rfl := List.mem_singleton.mp (mem_code.mp ha)
    trivial
  | child k => cases ha

theorem Books.step (h : Books ps xs st) (hE : InEnds st) (hs : Fork.step st l = some st') :
    Books (ps ++ postsAt st l) (xs ++ itemsAt st l) st' := by
  have hplain : ∀ u b, .act b ∈ st'.todo u → b.Plain := by
    intro u b hb
    rcases Tasks.mem_todo hs hb with hb | ⟨a, rest, out, ha, hexec, -, hb⟩
    · exact h.plain u b hb
    · rcases hb with ⟨-, hb⟩ | ⟨q, hq, hb⟩
      · exact plain_next hexec (h.plain l.1 a (ha ▸ List.mem_cons_self)) b hb
      · obtain ⟨s, fd, c, pid, -, -, rfl, -⟩ := spawn_eq_some hexec hq
        obtain rfl := List.mem_singleton.mp (mem_code.mp hb)
        trivial
  obtain ⟨a, rest, out, htodo, hexec, rfl⟩ := step_act hs
  have hmem : .act a ∈ st.todo l.1 := htodo ▸ List.mem_cons_self
  simp only [postsAt, itemsAt, htodo]
  refine ⟨?_, fun c m hm hk => ?_, hplain⟩
  · obtain ⟨o, ho, hS⟩ := h.orderly
    rw [todo_parent_perform hexec]
    by_cases hl : .parent = l.1
    · rw [if_pos hl]
      have hout := hE.outlined l.1
      rw [htodo] at hout
      rw [hl, htodo] at hS
      exact hS.step hexec hE.distinct (hout.1 a rfl).2 ho
    · rw [if_neg hl]
      have ha : a.owner ≠ .parent := fun he => hl (he.symm.trans (hE.owned l.1 a hmem))
      obtain ⟨hpost, hitems⟩ : a.posting st.shared = [] ∧ a.items l.2 st.shared = [] :=
        items_of_other ha
      rw [hpost, hitems, List.append_nil, List.append_nil]
      exact ⟨o, ho, hS.async (async_of_change ha (change_of_exec hexec))⟩
  · rcases List.mem_append.mp hm with hm | hm
    · exact h.own c m hm hk
    · exact isNotice_of_items (h.plain l.1 a hmem) hm hk

/-- The books of a run. -/
theorem books_of_run (hrun : run step (init history) ls = some st) :
    Books (posts (init history) ls) (transcript (init history) ls) st := by
  have hall : ∀ (ls : List (Tid × Input)) {a : State} {ps : List Post}
      {xs : List (Item Nat Message)}, InEnds a → Books ps xs a → run step a ls = some st →
      Books (ps ++ posts a ls) (xs ++ transcript a ls) st := by
    intro ls
    induction ls with
    | nil =>
      intro a ps xs _ h hrun
      obtain rfl := Option.some.inj hrun
      simpa [posts, transcript, collect] using h
    | cons l ls ih =>
      intro a ps xs hE h hrun
      obtain ⟨b, hs, hrun⟩ := run_cons_iff.mp hrun
      rw [posts, collect_cons hs, transcript, collect_cons hs, ← List.append_assoc,
        ← List.append_assoc]
      exact ih (hE.step hs) (h.step hE hs) hrun
  exact hall ls (inEnds_init history) (books_init history) hrun

/-! ## Receivers -/

theorem map_snd_toChildren {make : Nat → Message → Item Nat Message}
    (hmake : make = .copy ∨ make = .other) (c n : Nat) (xs : List (Pipe × Message)) :
    (inbox c n (toChildren make xs)).map Prod.snd = onPipe (.toChild c) xs := by
  induction xs with
  | nil => rfl
  | cons x xs ih =>
    obtain ⟨p, m⟩ := x
    cases p with
    | fromChild d => exact ih
    | toChild d =>
      have hcons : toChildren make ((.toChild d, m) :: xs) = make d m :: toChildren make xs := rfl
      have hpipe : onPipe (.toChild c) ((.toChild d, m) :: xs) =
          (if d = c then [m] else []) ++ onPipe (.toChild c) xs := by
        by_cases hd : d = c <;> simp [onPipe, hd]
      rw [hcons, hpipe, ← ih]
      rcases hmake with rfl | rfl
      · rw [inbox, List.map_append]
        by_cases hd : d = c <;> simp [hd]
      · rw [inbox, List.map_append]
        by_cases hd : d = c <;> simp [hd]

/-- What is handed over to a connection is written to its pipe. -/
theorem map_snd_items (a : Act) (i : Input) (sh : Shared) (c n : Nat) :
    (inbox c n (a.items i sh)).map Prod.snd = onPipe (.toChild c) (a.writing i sh) := by
  cases a with
  | route s d m =>
    simp only [Act.items, Act.writing]
    split <;> rfl
  | relay => exact map_snd_toChildren (Or.inl rfl) ..
  | _ => exact map_snd_toChildren (Or.inr rfl) ..

theorem map_snd_itemsAt (c n : Nat) (st : State) (l : Tid × Input) :
    (inbox c n (itemsAt st l)).map Prod.snd = onPipe (.toChild c) (ofAct Act.writing st l) := by
  unfold itemsAt
  split
  · next a rest htodo =>
    rw [ofAct, htodo]
    exact map_snd_items ..
  · next hno =>
    unfold ofAct
    split
    · next a rest htodo => exact absurd htodo (hno a rest)
    · rfl

theorem map_snd_inbox (c n : Nat) (st : State) (ls : List (Tid × Input)) :
    (inbox c n (transcript st ls)).map Prod.snd = written (.toChild c) st ls := by
  induction ls generalizing st n with
  | nil => rfl
  | cons l ls ih =>
    cases hs : step st l with
    | none =>
      simp only [transcript, written, collect, hs, Option.elim_none, List.append_nil]
      exact map_snd_itemsAt ..
    | some st' =>
      rw [transcript, written, collect_cons hs, collect_cons hs, inbox_append, List.map_append,
        onPipe_append, map_snd_itemsAt]
      congr 1
      exact ih _ st'

/-- The messages a child passed on to its client. -/
def deliveredTo (c : Nat) (log : List Event) : List Message :=
  log.filterMap fun
    | .delivered d m => if d = c then some m else none
    | _ => none

theorem deliveredTo_append (c : Nat) (l k : List Event) :
    deliveredTo c (l ++ k) = deliveredTo c l ++ deliveredTo c k := List.filterMap_append ..

theorem deliveredTo_pipeSend (c : Nat) (sh : Shared) (s : Slot) (m : Message) :
    deliveredTo c (sh.pipeSend s m).log = deliveredTo c sh.log := by
  unfold Shared.pipeSend
  split
  · unfold Shared.feed
    split <;> exact (deliveredTo_append ..).trans (List.append_nil _)
  · rfl

theorem deliveredTo_reap (c : Nat) (sh : Shared) (pid : Nat) :
    deliveredTo c (sh.reap pid).log = deliveredTo c sh.log := by
  rcases reap_cases sh pid with ⟨-, he⟩ | ⟨s, -, -, he⟩ <;> rw [he]
  exact (deliveredTo_append ..).trans (List.append_nil _)

/-- A child passes on what it reads from its pipe. -/
theorem deliveredTo_exec (h : exec t a i sh = some out) (c : Nat) :
    deliveredTo c out.shared.log =
      deliveredTo c sh.log ++ onPipe (.toChild c) (a.reading i sh) := by
  have hnote : ∀ {sh' : Shared} {e : Event}, sh'.log = sh.log → deliveredTo c [e] = [] →
      deliveredTo c (sh'.note e).log = deliveredTo c sh.log ++ [] := by
    intro sh' e hlog he
    rw [Shared.note, deliveredTo_append, he, hlog]
  cases a <;> simp only [exec] at h
  case fromParent k =>
    split at h
    · cases h
    · next src hr =>
      obtain rfl := goOn_inj h
      simp only [Act.reading, hr]
      exact (List.append_nil _).symm
    · next m src hr =>
      obtain rfl := goOn_inj h
      simp only [Act.reading, hr]
      refine (deliveredTo_append ..).trans ?_
      congr 1
      by_cases hk : k.conn = c <;> simp [deliveredTo, onPipe, hk]
  case recv s fd =>
    split at h
    · cases h
    · next d hd =>
      split at h
      · cases h
      · next m src hr =>
        obtain rfl := goOn_inj h
        simp only [Act.reading, hd, hr]
        exact (List.append_nil _).symm
      · next src hr =>
        obtain rfl := goOn_inj h
        simp only [Act.reading, hd, hr]
        exact (List.append_nil _).symm
  case notify | relay =>
    split at h
    · obtain rfl := goOn_inj h
      exact (List.append_nil _).symm
    · split at h <;> obtain rfl := goOn_inj h
      · exact (deliveredTo_pipeSend ..).trans (List.append_nil _).symm
      · exact (List.append_nil _).symm
  case pipeSend | reply =>
    obtain rfl := goOn_inj h
    exact (deliveredTo_pipeSend ..).trans (List.append_nil _).symm
  case reap =>
    split at h
    · cases h
    · split at h
      · obtain rfl := goOn_inj h
        exact (deliveredTo_reap ..).trans (List.append_nil _).symm
      · cases h
  all_goals
    repeat' split at h
    all_goals cases h
    all_goals
      first
      | exact (List.append_nil _).symm
      | exact hnote rfl rfl

theorem deliveredTo_run (hrun : run step st ls = some st') (c : Nat) :
    deliveredTo c st'.shared.log =
      deliveredTo c st.shared.log ++ returned (.toChild c) st ls := by
  induction ls generalizing st with
  | nil =>
    obtain rfl := Option.some.inj hrun
    simp [returned, collect]
  | cons l ls ih =>
    obtain ⟨st₁, hs, hrest⟩ := run_cons_iff.mp hrun
    rw [ih hrest, returned, returned, collect_cons hs, onPipe_append, ← List.append_assoc]
    congr 1
    obtain ⟨a, rest, out, htodo, hexec, rfl⟩ := step_act hs
    simp only [ofAct, htodo]
    exact deliveredTo_exec hexec c

/-! ## Senders -/

/-- The broadcasts among some messages. -/
def broadcasts (ms : List Message) : List Message := ms.filter fun m => m.kind = some .broadcast

@[simp] theorem broadcasts_nil : broadcasts [] = [] := rfl

@[simp] theorem broadcasts_append (ms ns : List Message) :
    broadcasts (ms ++ ns) = broadcasts ms ++ broadcasts ns := List.filter_append ..

/-- The messages of the posts of a connection. -/
def postedBy (c : Nat) (ps : List Post) : List Message :=
  (ps.filter fun p => p.origin = some c).map Post.message

@[simp] theorem postedBy_append (c : Nat) (ps qs : List Post) :
    postedBy c (ps ++ qs) = postedBy c ps ++ postedBy c qs := by
  simp [postedBy]

/-- Only the parent reads what the children write. -/
theorem reading_fromChild (ha : ∀ s fd, a ≠ .recv s fd) (c : Nat) :
    onPipe (.fromChild c) (a.reading i sh) = [] := by
  cases a with
  | recv s fd => exact absurd rfl (ha s fd)
  | fromParent k =>
    simp only [Act.reading]
    split
    · exact onPipe_of_ne (by simp) _
    · rfl
  | _ => rfl

/-- A message that is read is in the parent's hand. -/
theorem inHand_eq_reading (h : exec t a i sh = some out) (c : Nat) :
    inHand c out.next = onPipe (.fromChild c) (a.reading i sh) := by
  by_cases hrecv : ∃ s fd, a = .recv s fd
  · obtain ⟨s, fd, rfl⟩ := hrecv
    simp only [exec] at h
    split at h
    · cases h
    · next d hd =>
      split at h
      · cases h
      · next m src hr =>
        obtain rfl := goOn_inj h
        simp only [Act.reading, hd, hr]
        by_cases hdc : d = c <;> simp [inHand, code, Act.holding, onPipe, hdc]
      · next src hr =>
        obtain rfl := goOn_inj h
        simp only [Act.reading, hd, hr]
        rfl
  · have hnot : ∀ s fd, a ≠ .recv s fd := fun s fd he => hrecv ⟨s, fd, he⟩
    rw [inHand_next h hnot, reading_fromChild hnot]

/-- A broadcast the parent has read is routed next. -/
theorem posting_exec (h : exec t a i sh = some out)
    (hrest : ∀ b, .act b ∈ rest → ∀ s, Reading b s) (c : Nat) :
    postedBy c (a.posting sh) ++ broadcasts (inHand c (out.next ++ rest)) =
      broadcasts (inHand c (.act a :: rest)) ++
        broadcasts (onPipe (.fromChild c) (a.reading i sh)) := by
  rw [inHand_append hrest, inHand_eq_reading h]
  congr 1
  cases a with
  | route s d m =>
    rw [Act.posting, inHand, Act.holding]
    by_cases hm : m.kind = some .broadcast <;> by_cases hd : d = c <;>
      simp [postedBy, Shared.post, broadcasts, hm, hd]
  | _ => rfl

/-- The posts of a connection are the broadcasts the parent has read from its pipe. -/
theorem posting_run (hR : InReading st) (hrun : run step st ls = some st') (c : Nat) :
    postedBy c (posts st ls) ++ broadcasts (inHand c (st'.todo .parent)) =
      broadcasts (inHand c (st.todo .parent)) ++ broadcasts (returned (.fromChild c) st ls) := by
  induction ls generalizing st with
  | nil =>
    obtain rfl := Option.some.inj hrun
    simp [posts, returned, collect, postedBy]
  | cons l ls ih =>
    obtain ⟨st₁, hs, hrest⟩ := run_cons_iff.mp hrun
    have hlater := ih (hR.step hs) hrest
    have hstep : postedBy c (postsAt st l) ++ broadcasts (inHand c (st₁.todo .parent)) =
        broadcasts (inHand c (st.todo .parent)) ++
          broadcasts (onPipe (.fromChild c) (ofAct Act.reading st l)) := by
      obtain ⟨a, rest, out, htodo, hexec, rfl⟩ := step_act hs
      simp only [postsAt, ofAct, htodo]
      rw [todo_parent_perform hexec]
      by_cases hl : .parent = l.1
      · rw [if_pos hl]
        have hout := hR.outlined l.1
        rw [htodo] at hout
        rw [hl, htodo]
        exact posting_exec hexec (fun b hb s => (hout.2 b hb s).2) c
      · rw [if_neg hl]
        have hown := hR.owned l.1 a (htodo ▸ List.mem_cons_self)
        have ha : a.owner ≠ .parent := fun he => hl (he.symm.trans hown)
        have hread : onPipe (.fromChild c) (a.reading l.2 st.shared) = [] := by
          refine reading_fromChild (fun s fd he => ha ?_) c
          rw [he]
          rfl
        rw [(items_of_other (i := l.2) ha).1, hread, broadcasts_nil, List.append_nil]
        rfl
    rw [posts, collect_cons hs, postedBy_append, List.append_assoc, ← posts, hlater,
      ← List.append_assoc, hstep, returned, returned, collect_cons hs, onPipe_append,
      broadcasts_append, List.append_assoc]

/-- The broadcast an act is to write for the parent. -/
def Act.forwarding : Act → List Message
  | .forward _ m => broadcasts [canonical m]
  | _ => []

/-- The broadcast a process has read from its client and not written yet. -/
def pending : Code → List Message
  | .act a :: _ => a.forwarding
  | _ => []

/-- The children were created, and a message that is read is written at once. -/
structure Bridged (st : State) : Prop where
  born : ∀ k a, .act a ∈ st.todo (.child k) → .forked k ∈ st.shared.books
  tail : ∀ u a, .act a ∈ (st.todo u).tail → a.forwarding = []

theorem forked_stays (hc : Change sh a sh') {k : Child} (hk : .forked k ∈ sh.books) :
    .forked k ∈ sh'.books := by
  have hnote : ∀ {sh₁ : Shared} {e : Event}, sh₁.books = sh.books →
      .forked k ∈ (sh₁.note e).books := by
    intro sh₁ e he
    rw [← he] at hk
    rw [Shared.books, Shared.note, List.filter_append]
    exact List.mem_append_left _ hk
  cases hc with
  | quiet h =>
    rw [h.books]
    exact hk
  | start | drop | route | forward => exact hnote rfl
  | reap hpid => exact ((async_reap hpid).forked k).mpr hk
  | _ => exact hk

theorem tail_next (h : exec t a i sh = some out) : ∀ b, .act b ∈ out.next.tail → b.forwarding = [] := by
  cases a <;> simp only [exec] at h
  case route s c m =>
    obtain rfl := goOn_inj h
    intro b hb
    have hmem := mem_code.mp (List.mem_of_mem_tail hb)
    have hown := owned_route sh s m b hmem
    cases b with
    | forward => cases hown
    | _ => rfl
  all_goals
    repeat' split at h
    all_goals cases h
    all_goals simp [code, mainLoop, Act.forwarding]

theorem mem_tail_append {x : Stmt Empty Act} {q : Code} (h : x ∈ (q ++ rest).tail) :
    x ∈ q.tail ∨ x ∈ rest := by
  cases q with
  | nil => exact Or.inr (List.mem_of_mem_tail h)
  | cons y q => exact List.mem_append.mp h

theorem bridged_init (history : History) : Bridged (init history) := by
  refine ⟨fun k a ha => (by cases ha), fun u a ha => ?_⟩
  cases u <;> cases ha

theorem Bridged.step (h : Bridged st) (hs : Fork.step st l = some st') : Bridged st' := by
  obtain ⟨a, rest, out, htodo, hexec, hst⟩ := step_act hs
  refine ⟨fun k b hb => ?_, fun u b hb => ?_⟩
  · rcases Tasks.mem_todo hs hb with hb | ⟨a', rest', out', ha, hexec', hsh, hb⟩
    · rw [hst]
      exact forked_stays (change_of_exec hexec) (h.born k b hb)
    · rw [hsh]
      rcases hb with ⟨hu, hb⟩ | ⟨q, hq, hb⟩
      · refine forked_stays (change_of_exec hexec') (h.born k a' ?_)
        rw [hu, ha]
        exact List.mem_cons_self
      · obtain ⟨s, fd, c, pid, -, hk, -, -, -, hstart, -⟩ := spawn_eq_some hexec' hq
        obtain rfl := Tid.child.inj hk
        rw [hstart, Shared.start, books_note _ rfl]
        exact List.mem_append_right _ (List.mem_singleton_self _)
  · subst hst
    simp only [State.perform] at hb
    rcases mem_tail_append hb with hb | hb
    · split at hb
      · rcases mem_tail_append hb with hb | hb
        · exact tail_next hexec b hb
        · refine h.tail l.1 b ?_
          rw [htodo]
          exact hb
      · exact h.tail u b hb
    · rcases started_cases u out.spawn with hp | hp
      · rw [hp] at hb
        cases hb
      · obtain ⟨s, fd, c, pid, -, -, hq, -⟩ := spawn_eq_some hexec hp
        rw [hq] at hb
        obtain rfl := List.mem_singleton.mp (mem_code.mp hb)
        rfl

/-- Nothing is ahead of what does not forward. -/
theorem pending_of_plain (h : ∀ a, .act a ∈ rest → a.forwarding = []) : pending rest = [] := by
  cases rest with
  | nil => rfl
  | cons x rest =>
    cases x with
    | act a => exact h a List.mem_cons_self
    | lock k => cases k
    | unlock k => cases k

/-- A child has to write what it has just read from its client. -/
theorem pending_next {k : Child} (h : exec t a i sh = some out) (ha : a.owner = .child k)
    (hrest : ∀ b, .act b ∈ rest → b.forwarding = []) : pending (out.next ++ rest) =
      broadcasts ((onPipe (.fromChild k.conn) (a.taking i)).map canonical) := by
  cases a <;> simp only [Act.owner, reduceCtorEq] at ha
  case fromClient k' =>
    obtain rfl := Tid.child.inj ha
    simp only [exec] at h
    split at h
    · next hm =>
      obtain rfl := goOn_inj h
      simp only [Act.taking, hm]
      rfl
    · next m hm =>
      obtain rfl := goOn_inj h
      simp only [Act.taking, hm, onPipe_self]
      rfl
  case farewell k' =>
    simp only [exec] at h
    obtain rfl := goOn_inj h
    have hbye : broadcasts
        [canonical (makeMessage i.env.now .logout (sh.clients k'.slot).name [] [])] = [] := by
      rw [(wellFormed_makeMessage ..).canonical_eq]
      simp [broadcasts]
    exact hbye
  case bridge k' =>
    simp only [exec] at h
    obtain rfl := goOn_inj h
    split <;> rfl
  case forward k' m =>
    simp only [exec] at h
    split at h <;> obtain rfl := goOn_inj h <;> exact pending_of_plain hrest
  case fromParent k' =>
    simp only [exec] at h
    split at h
    · cases h
    · obtain rfl := goOn_inj h
      rfl
    · obtain rfl := goOn_inj h
      rfl
  case exit k' =>
    simp only [exec] at h
    split at h
    · obtain rfl := goOn_inj h
      exact pending_of_plain hrest
    · cases h

/-- Only the child of a connection writes for it, what it is to write. -/
theorem writing_fromChild (a : Act) (i : Input) (sh : Shared) (c : Nat) :
    onPipe (.fromChild c) (a.writing i sh) = [] ∨
      ∃ k m, a = .forward k m ∧ k.conn = c ∧ onPipe (.fromChild c) (a.writing i sh) = [m] := by
  have hsending : ∀ s m, onPipe (.fromChild c) (sh.sending s m) = [] := by
    intro s m
    rw [sending_eq]
    split
    · split
      · rfl
      · exact onPipe_of_ne (by simp) _
    · rfl
  cases a with
  | notify skip note slots =>
    cases slots with
    | nil => exact Or.inl rfl
    | cons j slots =>
      simp only [Act.writing]
      split
      · exact Or.inl (hsending ..)
      · exact Or.inl rfl
  | relay skip m slots =>
    cases slots with
    | nil => exact Or.inl rfl
    | cons j slots =>
      simp only [Act.writing]
      split
      · exact Or.inl (hsending ..)
      · exact Or.inl rfl
  | pipeSend s m => exact Or.inl (hsending ..)
  | reply s make => exact Or.inl (hsending ..)
  | forward k m =>
    simp only [Act.writing]
    split
    · exact Or.inl rfl
    · by_cases hk : k.conn = c
      · subst hk
        exact Or.inr ⟨k, m, rfl, rfl, onPipe_self ..⟩
      · refine Or.inl (onPipe_of_ne ?_ _)
        simpa using hk
  | _ => exact Or.inl rfl

/-- What the child of a connection has written and is to write comes from its client. -/
def Sent (c : Nat) (ws ts : List Message) (st : State) : Prop :=
  ∀ k : Child, k.conn = c →
    (broadcasts (ws.map canonical) ++ pending (st.todo (.child k))).Sublist (ts.map canonical)

theorem pending_append_bridge (q : Code) (k : Child) :
    pending (q ++ code [.bridge k]) = pending q := by
  cases q with
  | nil => rfl
  | cons x q => cases x <;> rfl

theorem Sent.step {ws ts : List Message} (h : Sent c ws ts st) (hB : Bridged st)
    (hR : InReading st) (hs : Fork.step st l = some st') :
    Sent c (ws ++ onPipe (.fromChild c) (ofAct Act.writing st l))
      (ts ++ onPipe (.fromChild c) (ofAct (fun a i _ => a.taking i) st l)) st' := by
  intro k hk
  obtain ⟨a, rest, out, htodo, hexec, rfl⟩ := step_act hs
  have hmem : .act a ∈ st.todo l.1 := htodo ▸ List.mem_cons_self
  have hown := hR.owned l.1 a hmem
  simp only [ofAct, htodo, List.map_append, broadcasts_append]
  by_cases hl : Tid.child k = l.1
  · -- the child itself writes what it was to write, or reads
    have hstarted : started (.child k) out.spawn = [] := by
      rcases started_cases (.child k : Tid) out.spawn with hp | hp
      · exact hp
      · obtain ⟨s, fd, d, pid, rfl, -⟩ := spawn_eq_some hexec hp
        rw [← hl] at hown
        cases hown
    have hnext : (st.perform l.1 rest out).todo (.child k) = out.next ++ rest := by
      simp only [State.perform, if_pos hl, hstarted, List.append_nil]
    have hrest : ∀ b, .act b ∈ rest → b.forwarding = [] := by
      intro b hb
      refine hB.tail l.1 b ?_
      rw [htodo]
      exact hb
    have hafter := pending_next hexec (hown.trans hl.symm) hrest
    have hbefore := h k hk
    rw [hl, htodo] at hbefore
    rw [hnext, hafter, hk]
    refine List.Sublist.append (List.Sublist.trans ?_ hbefore) List.filter_sublist
    refine (List.Sublist.refl _).append ?_
    rcases writing_fromChild a l.2 st.shared c with hw | ⟨k', m, rfl, -, hw⟩
    · rw [hw]
      exact List.nil_sublist _
    · rw [hw]
      exact List.Sublist.refl _
  · have hnext : pending ((st.perform l.1 rest out).todo (.child k)) =
        pending (st.todo (.child k)) := by
      simp only [State.perform, if_neg hl]
      rcases started_cases (.child k : Tid) out.spawn with hp | hp
      · rw [hp, List.append_nil]
      · obtain ⟨s, fd, d, pid, -, hk', hq, -⟩ := spawn_eq_some hexec hp
        rw [hq]
        exact pending_append_bridge ..
    rw [hnext]
    refine List.Sublist.trans ?_ (List.sublist_append_left _ _)
    rcases writing_fromChild a l.2 st.shared c with hw | ⟨k', m, rfl, hk', hw⟩
    · rw [hw, List.map_nil, broadcasts_nil, List.append_nil]
      exact h k hk
    · -- another child of the connection: then this one was never created
      have hl' : Tid.child k' = l.1 := hown
      have hempty : st.todo (.child k) = [] := by
        cases htodo' : st.todo (.child k) with
        | nil => rfl
        | cons x q =>
          cases x with
          | lock e => cases e
          | unlock e => cases e
          | act b =>
            have hforked := hB.born k b (htodo' ▸ List.mem_cons_self)
            have hforked' := hB.born k' (.forward k' m) (hl' ▸ hmem)
            have hsame := hR.linked.once k k' hforked hforked' (hk.trans hk'.symm)
            exact absurd (hsame ▸ hl') hl
      have hbefore := h k' hk'
      rw [hl', htodo] at hbefore
      rw [hempty, hw]
      simpa [pending, Act.forwarding] using hbefore

/-- The broadcasts a child writes come from its client, in order. -/
theorem sent_run (hrun : run step (init history) ls = some st) (c : Nat) :
    (broadcasts ((written (.fromChild c) (init history) ls).map canonical)).Sublist
      ((taken c (init history) ls).map canonical) := by
  have hall : ∀ (ls : List (Tid × Input)) {a : State} {ws ts : List Message}, InReading a →
      Bridged a → Sent c ws ts a → run step a ls = some st →
      Sent c (ws ++ written (.fromChild c) a ls) (ts ++ taken c a ls) st := by
    intro ls
    induction ls with
    | nil =>
      intro a ws ts _ _ h hrun
      obtain rfl := Option.some.inj hrun
      simpa [written, taken, collect] using h
    | cons l ls ih =>
      intro a ws ts hR hB h hrun
      obtain ⟨b, hs, hrun⟩ := run_cons_iff.mp hrun
      rw [written, collect_cons hs, taken, collect_cons hs, onPipe_append, onPipe_append,
        ← List.append_assoc, ← List.append_assoc]
      exact ih (hR.step hs) (hB.step hs) (h.step hB hR hs) hrun
  have hinit : Sent c [] [] (init history) := fun _ _ => List.Sublist.refl _
  have hsent := hall ls (inReading_init history) (bridged_init history) hinit hrun ⟨0, c, 0⟩ rfl
  exact (List.sublist_append_left _ _).trans hsent

/-! ## All connections -/

/-- In every run of the fork server, all connections get the relayed broadcasts in the order in
which the parent routes them. -/
theorem broadcasts_ordered (hrun : run step (init history) ls = some st) :
    TotallyOrdered (posts (init history) ls) (fun c => inboxOf c (init history) ls)
        (fun o => (taken o (init history) ls).map canonical) ∧
      ∀ c, deliveredTo c st.shared.log <+:
        ((inboxOf c (init history) ls).map Prod.snd).map canonical := by
  have hbooks := books_of_run hrun
  obtain ⟨o, ho, -⟩ := hbooks.orderly
  have hpipes := (pipes_framed hrun).1
  constructor
  · refine totallyOrdered ho.ordered (fun o => ?_) fun c m hm => hbooks.own c m (mem_of_inbox hm)
    obtain ⟨rest, -, hwritten, -⟩ := hpipes (.fromChild o)
    have hposted := posting_run (inReading_init history) hrun o
    have hfirst : (postedBy o (posts (init history) ls)).Sublist
        (broadcasts (returned (.fromChild o) (init history) ls)) := by
      have hnone : broadcasts (inHand o ((init history).todo .parent)) = [] := rfl
      rw [hnone, List.nil_append] at hposted
      rw [← hposted]
      exact List.sublist_append_left _ _
    refine hfirst.trans (List.Sublist.trans ?_ (sent_run hrun o))
    rw [hwritten, broadcasts_append]
    exact List.sublist_append_left _ _
  · intro c
    obtain ⟨rest, -, hwritten, -⟩ := hpipes (.toChild c)
    rw [deliveredTo_run hrun, inboxOf, map_snd_inbox, hwritten]
    exact List.prefix_append _ _

end ChatSystem.Fork
