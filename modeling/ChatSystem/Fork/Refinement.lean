import ChatSystem.Fork.Alone
import ChatSystem.Fork.Relays

/-!
# The parent is a room

Along every schedule in which the clock only moves between two events, and the handler only runs
there too, the parent is the room behind the connections it accepted, the messages it routed and
the sessions it found ended, however the children run in between. What a child passes on to its
client is among the messages of the room.
-/

namespace ChatSystem.Fork

open Bytes Channel Chat Tasks Transition

/-- Some steps in unchanging surroundings. -/
structure Round where
  env : Env
  labels : List (Tid × Input)

/-- A round. -/
def round (st : State) (n : Round) : Option State := run step st n.labels

/-- What an act of the parent is about; the other processes have acts of their own. -/
inductive Kind
  | loop
  | arrival
  | reception
  | departure
  | routing
  | foreign

/-- The kind of an act. -/
def Act.kind : Act → Kind
  | .watch _ _ | .select _ | .check _ _ | .accept => .loop
  | .findFreeSlot _ _ _ | .refuse _ _ | .pipes _ _ _ | .fork _ _ _ | .storePid _ _
  | .closeEnds _ _ | .closeFd _ => .arrival
  | .recv _ _ => .reception
  | .drop _ => .departure
  | .bridge _ | .fromClient _ | .farewell _ | .forward _ _ | .fromParent _ | .exit _ | .reap =>
    .foreign
  | _ => .routing

/-- A process that only has to go on with the select loop. -/
def Idle (p : Code) : Prop := ∀ a, .act a ∈ p → a.kind = .loop

/-- The parent works in the given surroundings, and the handler waits for it to be idle. -/
def Timely (env : Env) (st : State) (l : Tid × Input) : Prop :=
  (l.1 = .parent → l.2.env = env) ∧ (l.1 = .sigchld → Idle (st.todo .parent))

/-- A round behind which the parent is idle. -/
structure Undisturbed (st : State) (n : Round) : Prop where
  steps : Meets step (Timely n.env) st n.labels
  rest : ∀ st', round st n = some st' → Idle (st'.todo .parent)

/-- A message that `pipe_recv` returns stood in a legal frame. -/
theorem frame_of_pipeRecv {closed : Bool} {src src' : Source UInt8} {m : Message}
    (h : pipeRecv closed src = some (some m, src')) :
    ∃ f, frameFormat.IsFrame f ∧ unpackMessage f = some m := by
  obtain ⟨⟨o, src₁⟩, hread⟩ : ∃ x, readFull src headerSize [] = x := ⟨_, rfl⟩
  rw [pipeRecv, hread] at h
  cases o with
  | none =>
    simp only at h
    split at h <;> cases h
  | some header =>
    obtain ⟨_, rfl, hlen, -⟩ := readFull_eq_some (Nat.zero_le _) hread
    obtain ⟨⟨o', src₂⟩, hread'⟩ :
        ∃ x, readFull src₁ (announcedLen header).toNat [] = x := ⟨_, rfl⟩
    simp only [hread'] at h
    cases o' with
    | none =>
      simp only at h
      split at h <;> cases h
    | some body =>
      obtain ⟨_, rfl, hlen', -⟩ := readFull_eq_some (Nat.zero_le _) hread'
      have hm := (Prod.mk.inj (Option.some.inj h)).1
      have hann : announcedLen (header ++ body) = announcedLen header := by
        rw [← announcedLen_take (s := header ++ body) (Nat.le_refl _), List.take_left' hlen]
      refine ⟨header ++ body, isFrame_iff.mpr ⟨?_, ?_⟩, hm⟩
      · by_contra hle
        rw [unpackMessage, if_neg (by rw [List.length_append]; omega),
          if_pos (Nat.not_le.mp hle)] at hm
        cases hm
      · rw [List.length_append, hlen, hlen', hann]

/-- A message that `pipe_recv` returned. -/
def requestOf {closed : Bool} {src src' : Source UInt8} {m : Message}
    (h : pipeRecv closed src = some (some m, src')) : Request := ⟨m, frame_of_pipeRecv h⟩

/-- The end of a connection whose child has said its farewell. -/
def leaves (env : Env) (c : Nat) : Chat.Event := .close c ⟨env, [], true⟩

/-- The event that a step begins with. -/
def eventOf (st : State) (l : Tid × Input) : List Chat.Event :=
  match st.todo l.1 with
  | .act .accept :: _ => if l.2.fd.isSome then [.connect l.2.env] else []
  | .act (.pipes s fd c) :: _ =>
    if (Act.pipes s fd c).fails l.2 then [leaves l.2.env c] else []
  | .act (.fork s fd c) :: _ => if (Act.fork s fd c).fails l.2 then [leaves l.2.env c] else []
  | .act (.recv _ fd) :: _ =>
    match st.shared.readEnd fd with
    | none => []
    | some c =>
      match h : pipeRecv (st.shared.closed c) ⟨st.shared.fromPipe c, l.2.reads.map .chunk⟩ with
      | none => []
      | some (some _, _) => [.request c (requestOf h) l.2.env]
      | some (none, _) => [leaves l.2.env c]
  | .act .reap :: _ =>
    match (l.2.pid.bind st.shared.findPid).bind st.shared.room.conn with
    | none => []
    | some c => [leaves l.2.env c]
  | _ => []

/-- The events of a round. -/
def eventsOf (st : State) (n : Round) : List Chat.Event := collect step eventOf st n.labels

/-- An act of routing, in front of which the slot it works for is in use. -/
structure Busy (sh : Shared) (a : Act) : Prop where
  kind : a.kind = .routing
  served : ∀ s, a.served = some s → (sh.clients s).pid ≠ 0

/-- What the parent has to do for an event. -/
inductive Errand (sh : Shared) : Code → Prop
  | routing {p : Code} (h : ∀ a, .act a ∈ p → Busy sh a) : Errand sh p
  | arrival {a : Act} (h : a.kind = .arrival)
    (hproc : ∀ k fd, a = .storePid k fd → (sh.proc k.pid).isSome) : Errand sh [.act a]
  | recv {s : Slot} {fd : Nat} (h : (sh.clients s).pid ≠ 0) : Errand sh [.act (.recv s fd)]
  | drop (s : Slot) : Errand sh [.act (.drop s)]

/-- What the parent has to do: the work for an event in front of the select loop. -/
def Staged (sh : Shared) (p : Code) : Prop :=
  ∃ work loop, p = work ++ loop ∧ Errand sh work ∧ Idle loop

variable {st st' : State} {sh sh' : Shared} {t : Tid} {a b : Act} {i : Input}
  {out : Outcome Empty Tid Act Shared} {rest p : Code} {env : Env} {l : Tid × Input}

/-! ## The stages of the parent -/

theorem Idle.tail {x : Stmt Empty Act} (h : Idle (x :: p)) : Idle p :=
  fun a ha => h a (List.mem_cons_of_mem _ ha)

theorem Idle.append {q : Code} (hp : Idle p) (hq : Idle q) : Idle (p ++ q) := by
  intro a ha
  rcases List.mem_append.mp ha with ha | ha
  · exact hp a ha
  · exact hq a ha

theorem idle_code {acts : List Act} (h : ∀ a ∈ acts, a.kind = .loop) : Idle (code acts) :=
  fun a ha => h a (mem_code.mp ha)

/-- An idle parent waits. -/
theorem Idle.waits (h : Idle p) : (meaning env).Waits p := by
  cases p with
  | nil => trivial
  | cons x p =>
    cases x with
    | lock k => cases k
    | unlock k => cases k
    | act a =>
      have ha := h a List.mem_cons_self
      change (meaning env).stop a = true
      cases a <;> first | rfl | cases ha

theorem Staged.idle (h : Idle p) : Staged sh p :=
  ⟨[], p, rfl, .routing (fun a ha => by cases ha), h⟩

/-- The act in front of the parent. -/
theorem Staged.cases (h : Staged sh (.act a :: rest)) :
    a.kind = .loop ∧ Idle rest ∨
    (∃ work loop, rest = work ++ loop ∧ Idle loop ∧ Busy sh a ∧ ∀ b, .act b ∈ work → Busy sh b) ∨
    (a.kind = .arrival ∧ (∀ k fd, a = .storePid k fd → (sh.proc k.pid).isSome) ∧ Idle rest) ∨
    (∃ s fd, a = .recv s fd ∧ (sh.clients s).pid ≠ 0 ∧ Idle rest) ∨
    ∃ s, a = .drop s ∧ Idle rest := by
  obtain ⟨work, loop, he, hwork, hloop⟩ := h
  rcases List.append_eq_cons_iff.mp he.symm with ⟨rfl, rfl⟩ | ⟨work, rfl, rfl⟩
  · exact Or.inl ⟨hloop a List.mem_cons_self, hloop.tail⟩
  · cases hwork with
    | routing hbusy =>
      exact Or.inr (Or.inl ⟨work, loop, rfl, hloop, hbusy a List.mem_cons_self,
        fun b hb => hbusy b (List.mem_cons_of_mem _ hb)⟩)
    | arrival ha hproc => exact Or.inr (Or.inr (Or.inl ⟨ha, hproc, hloop⟩))
    | recv hs => exact Or.inr (Or.inr (Or.inr (Or.inl ⟨_, _, rfl, hs, hloop⟩)))
    | drop s => exact Or.inr (Or.inr (Or.inr (Or.inr ⟨s, rfl, hloop⟩)))

/-- A pid that is stored stays until its slot is released. -/
theorem pid_stays (hc : Change sh a sh') (ha : a.owner ≠ .sigchld) (hdrop : ∀ s, a ≠ .drop s)
    (hset : Setup a sh) {s : Slot} (hs : (sh.clients s).pid ≠ 0) : (sh'.clients s).pid ≠ 0 := by
  rcases pid_of_change hc s with he | he | rfl | ⟨k, fd, rfl, rfl⟩
  · rwa [he]
  · exact absurd he (hdrop s)
  · exact absurd rfl ha
  · exact absurd hset.2.1.2 hs

/-- The kernel keeps a process until it is waited for. -/
theorem proc_stays (hc : Change sh a sh') (ha : a.owner ≠ .sigchld) {pid : Nat}
    (h : (sh.proc pid).isSome) : (sh'.proc pid).isSome := by
  cases hc with
  | quiet hq =>
    rw [hq.proc]
    exact h
  | @start s fd c pid' hne hfree =>
    by_cases hp : pid = pid'
    · subst hp
      simp [Shared.start, Shared.note]
    · simpa [Shared.start, Shared.note, Function.update_of_ne hp] using h
  | @exit k hk =>
    by_cases hp : pid = k.pid
    · subst hp
      simp [Shared.exit]
    · simpa [Shared.exit, Function.update_of_ne hp] using h
  | reap => exact absurd rfl ha
  | _ => exact h

theorem Busy.stays (hb : Busy sh b) (hc : Change sh a sh') (ha : a.owner ≠ .sigchld)
    (hdrop : ∀ s, a ≠ .drop s) (hset : Setup a sh) : Busy sh' b :=
  ⟨hb.kind, fun s hs => pid_stays hc ha hdrop hset (hb.served s hs)⟩

/-- The parent routes, and no slot is dropped there. -/
theorem of_routing (h : a.kind = .routing) : a.owner ≠ .sigchld ∧ ∀ s, a ≠ .drop s := by
  cases a
  case drop => cases h
  case reap => cases h
  all_goals simp [Act.owner]

/-- An act of a router works for the slot that is routed. -/
theorem route_busy (sh sh' : Shared) {s : Slot} (hs : (sh'.clients s).pid ≠ 0) (m : Message) :
    ∀ b ∈ sh.route s m, Busy sh' b := by
  have hall : ∀ b ∈ sh.route s m, b.kind = .routing ∧ ∀ s', b.served = some s' → s' = s := by
    unfold Shared.route
    split
    · unfold Shared.login
      split <;> simp [Act.kind, Act.served]
    · simp [Shared.logout, Act.kind, Act.served]
    · unfold Shared.broadcast
      split <;> simp [Act.kind, Act.served]
    · unfold Shared.priv
      split <;> simp [Act.kind, Act.served]
    all_goals simp [Act.kind, Act.served]
  intro b hb
  obtain ⟨hkind, hserved⟩ := hall b hb
  exact ⟨hkind, fun s' hs' => hserved s' hs' ▸ hs⟩

/-- An act for one slot in use. -/
theorem busy_of_slot {s : Slot} (hs : (sh.clients s).pid ≠ 0) (hkind : a.kind = .routing)
    (hserved : a.served = some s) : Busy sh a := by
  refine ⟨hkind, fun s' hs' => ?_⟩
  obtain rfl := Option.some.inj (hserved.symm.trans hs')
  exact hs

theorem busy_of_none (hkind : a.kind = .routing) (hserved : a.served = none) : Busy sh a := by
  refine ⟨hkind, fun s hs => ?_⟩
  rw [hserved] at hs
  cases hs

/-- Routing expands to routing. -/
theorem busy_next (h : exec t a i sh = some out) (hb : Busy sh a) (hset : Setup a sh)
    (hrun : ∀ s, (sh.clients s).active = true → (sh.clients s).pid ≠ 0) :
    ∀ b, .act b ∈ out.next → Busy out.shared b := by
  have hkind := hb.kind
  have hstays : ∀ s, a.served = some s → (out.shared.clients s).pid ≠ 0 := by
    intro s hs
    obtain ⟨howner, hdrop⟩ := of_routing hkind
    exact pid_stays (change_of_exec h) howner hdrop hset (hb.served s hs)
  intro b hmem
  cases a with
  | route s c m =>
    have hs := hstays s rfl
    obtain rfl := goOn_inj h
    exact route_busy sh _ hs m b (mem_code.mp hmem)
  | checkName s u p | validate s u p =>
    have hs := hstays s rfl
    simp only [exec] at h
    split at h <;> obtain rfl := goOn_inj h <;> obtain rfl := eq_of_mem_code hmem <;>
      exact busy_of_slot hs rfl rfl
  | storeName s u | activate s u | listUsers s m | readHistory s m =>
    have hs := hstays s rfl
    obtain rfl := goOn_inj h
    obtain rfl := eq_of_mem_code hmem
    exact busy_of_slot hs rfl rfl
  | findTarget s m =>
    have hs := hstays s rfl
    simp only [exec] at h
    split at h
    · obtain rfl := goOn_inj h
      obtain rfl := eq_of_mem_code hmem
      exact busy_of_slot hs rfl rfl
    · next k hk =>
      obtain rfl := goOn_inj h
      have hheld := findName_eq_some hk
      rw [Entry.holds, Bool.and_eq_true] at hheld
      rw [mem_code] at hmem
      simp at hmem
      rcases hmem with rfl | rfl | rfl
      · exact busy_of_none rfl rfl
      · exact busy_of_slot (hrun k hheld.1) rfl rfl
      · exact busy_of_slot hs rfl rfl
  | notify | relay =>
    simp only [exec] at h
    repeat' split at h
    all_goals cases h
    all_goals rw [mem_code] at hmem
    all_goals simp at hmem
    all_goals
      subst hmem
      exact busy_of_none rfl rfl
  | clear | saveHistory | pipeSend | setStatus | reply =>
    obtain rfl := goOn_inj h
    cases hmem
  | _ => cases hkind

/-- The search for a slot, the pipes and the child of a connection come one after the other. -/
theorem arrival_next (h : exec t a i sh = some out) (ha : a.kind = .arrival) :
    Errand out.shared out.next := by
  have hnil : ∀ sh : Shared, Errand sh [] := fun _ => .routing (fun b hb => by cases hb)
  cases a with
  | findFreeSlot | pipes =>
    simp only [exec] at h
    repeat' split at h
    all_goals cases h
    all_goals exact .arrival rfl (by simp)
  | refuse | storePid | closeEnds =>
    obtain rfl := goOn_inj h
    exact .arrival rfl (by simp)
  | fork s fd c =>
    simp only [exec] at h
    split at h
    · obtain rfl := goOn_inj h
      exact .arrival rfl (by simp)
    · split at h
      · obtain rfl := Option.some.inj h
        refine .arrival rfl fun k fd hk => ?_
        cases hk
        simp [Shared.start, Shared.note]
      · cases h
  | closeFd fd =>
    obtain rfl := goOn_inj h
    exact hnil _
  | _ => cases ha

/-- The select loop goes on, or begins with an event. -/
theorem loop_next (h : exec t a i sh = some out) (ha : a.kind = .loop) :
    Staged out.shared out.next := by
  cases a with
  | watch slots rfds =>
    simp only [exec] at h
    split at h
    · obtain rfl := goOn_inj h
      exact .idle (idle_code (by simp [Act.kind]))
    · split at h <;> obtain rfl := goOn_inj h <;> exact .idle (idle_code (by simp [Act.kind]))
  | select rfds =>
    simp only [exec] at h
    split at h
    · obtain rfl := goOn_inj h
      exact .idle (idle_code (by simp [mainLoop, Act.kind]))
    · obtain rfl := goOn_inj h
      refine .idle (idle_code ?_)
      split <;> simp [Act.kind]
  | accept =>
    simp only [exec] at h
    split at h
    · obtain rfl := goOn_inj h
      exact .idle (idle_code (by simp))
    · split at h
      · obtain rfl := goOn_inj h
        refine ⟨_, [], (List.append_nil _).symm, .arrival rfl (by simp), fun b hb => ?_⟩
        cases hb
      · cases h
  | check slots rfds =>
    simp only [exec] at h
    split at h
    · obtain rfl := goOn_inj h
      exact .idle (idle_code (by simp [mainLoop, Act.kind]))
    · next s slots =>
      split at h
      · next hs =>
        obtain rfl := goOn_inj h
        exact ⟨code [.recv s (sh.clients s).fromChild.1], code [.check slots rfds], rfl,
          .recv hs.1.ne', idle_code (by simp [Act.kind])⟩
      · obtain rfl := goOn_inj h
        exact .idle (idle_code (by simp [Act.kind]))
  | _ => cases ha

theorem Staged.append {q : Code} (h : Staged sh p) (hq : Idle q) : Staged sh (p ++ q) := by
  obtain ⟨work, loop, rfl, hwork, hloop⟩ := h
  exact ⟨work, loop ++ q, List.append_assoc .., hwork, hloop.append hq⟩

/-- A step of the parent. -/
theorem Staged.parent (h : Staged sh (.act a :: rest)) (hexec : exec t a i sh = some out)
    (hset : Setup a sh)
    (hrun : ∀ s, (sh.clients s).active = true → (sh.clients s).pid ≠ 0) :
    Staged out.shared (out.next ++ rest) := by
  rcases h.cases with ⟨ha, hrest⟩ | ⟨work, loop, rfl, hloop, hself, hwork⟩ | ⟨ha, -, hrest⟩ |
      ⟨s, fd, rfl, hs, hrest⟩ | ⟨s, rfl, hrest⟩
  · exact (loop_next hexec ha).append hrest
  · refine ⟨out.next ++ work, loop, (List.append_assoc ..).symm, .routing fun b hb => ?_, hloop⟩
    obtain ⟨howner, hdrop⟩ := of_routing hself.kind
    rcases List.mem_append.mp hb with hb | hb
    · exact busy_next hexec hself hset hrun b hb
    · exact (hwork b hb).stays (change_of_exec hexec) howner hdrop hset
  · exact ⟨_, rest, rfl, arrival_next hexec ha, hrest⟩
  · simp only [exec] at hexec
    split at hexec
    · cases hexec
    · split at hexec
      · cases hexec
      · obtain rfl := goOn_inj hexec
        refine ⟨_, rest, rfl, .routing fun b hb => ?_, hrest⟩
        rw [eq_of_mem_code hb]
        exact busy_of_slot hs rfl rfl
      · obtain rfl := goOn_inj hexec
        exact ⟨_, rest, rfl, .drop s, hrest⟩
  · obtain rfl := goOn_inj hexec
    exact .idle hrest

/-! ## The other processes -/

/-- What a child does does not show. -/
theorem see_child {k : Child} (h : exec t a i sh = some out) (ha : a.owner = .child k) :
    see out.shared = see sh := by
  cases a with
  | bridge | farewell =>
    obtain rfl := goOn_inj h
    rfl
  | fromClient =>
    simp only [exec] at h
    split at h <;> obtain rfl := goOn_inj h <;> rfl
  | forward k m =>
    simp only [exec] at h
    split at h
    · obtain rfl := goOn_inj h
      rfl
    · obtain rfl := goOn_inj h
      exact see_note rfl rfl _
  | fromParent k =>
    simp only [exec] at h
    split at h
    · cases h
    · obtain rfl := goOn_inj h
      rfl
    · obtain rfl := goOn_inj h
      exact see_note rfl rfl _
  | exit k =>
    simp only [exec] at h
    split at h
    · obtain rfl := goOn_inj h
      rfl
    · cases h
  | _ => cases ha

theorem Errand.stays (h : Errand sh p) (hc : Change sh a sh') (ha : a.owner ≠ .parent)
    (hsig : a.owner ≠ .sigchld) (hset : Setup a sh) : Errand sh' p := by
  have hdrop : ∀ s, a ≠ .drop s := by
    rintro s rfl
    exact ha rfl
  cases h with
  | routing hbusy => exact .routing fun b hb => (hbusy b hb).stays hc hsig hdrop hset
  | arrival hb hproc => exact .arrival hb fun k fd hk => proc_stays hc hsig (hproc k fd hk)
  | recv hs => exact .recv (pid_stays hc hsig hdrop hset hs)
  | drop s => exact .drop s

/-- What the handler finds, if anything, is the child of a slot in use. -/
theorem see_reap {pid : Nat} (hpid : pid ≠ 0) (hL : Linked sh) :
    ((sh.findPid pid).bind sh.room.conn = none ∧ see (sh.reap pid) = see sh) ∨
      ∃ s c, sh.room.conn s = some c ∧ (sh.findPid pid).bind sh.room.conn = some c ∧
        see (sh.reap pid) = { see sh with room := sh.room.release .fork s } := by
  rcases reap_cases sh pid with ⟨hfind, he⟩ | ⟨s, hfind, hs, he⟩
  · refine Or.inl ⟨by rw [hfind]; rfl, ?_⟩
    rw [he]
    rfl
  · have hne : (sh.clients s).pid ≠ 0 := by rwa [hs]
    obtain ⟨c, hc, -⟩ := hL.holder s hne
    have hconn : sh.room.conn s = some c := (if_neg hne).trans hc
    refine Or.inr ⟨s, c, hconn, by rw [hfind]; exact hconn, ?_⟩
    rw [he]
    exact see_release sh s

/-! ## One step -/

/-- The processes between any two steps. -/
structure Orderly (st : State) : Prop where
  inOrder : InOrder st
  inEnds : InEnds st
  numbered : Numbered st.shared
  staged : Staged st.shared (st.todo .parent)

theorem orderly_init (history : History) : Orderly (init history) :=
  ⟨inOrder_init history, inEnds_init history, rfl,
    .idle (idle_code (by simp [mainLoop, Act.kind]))⟩

variable {history : History} {es : List Chat.Event}

theorem Orderly.owner (h : Orderly st) (htodo : st.todo t = .act a :: rest) : a.owner = t :=
  h.inOrder.owned t a (htodo ▸ List.mem_cons_self)

theorem Orderly.setup (h : Orderly st) (htodo : st.todo t = .act a :: rest) :
    Setup a st.shared := by
  have hout := h.inOrder.outlined t
  rw [htodo] at hout
  exact (hout.1 a rfl).1

/-- No store comes too late. -/
theorem Orderly.onTime (h : Orderly st) (l : Tid × Input) : OnTime st l := by
  intro a rest htodo
  have howner := h.owner htodo
  have hstaged : a.owner = .parent → Staged st.shared (.act a :: rest) := by
    intro ha
    rw [← htodo, ← howner, ha]
    exact h.staged
  cases a with
  | activate s u =>
    rcases (hstaged rfl).cases with ⟨ha, -⟩ | ⟨_, _, -, -, hb, -⟩ | ⟨ha, -⟩ | ⟨_, _, ha, -⟩ |
        ⟨_, ha, -⟩
    · cases ha
    · simpa [timely] using hb.served s rfl
    · cases ha
    · cases ha
    · cases ha
  | storePid k fd =>
    rcases (hstaged rfl).cases with ⟨ha, -⟩ | ⟨_, _, -, -, hb, -⟩ | ⟨-, hproc, -⟩ | ⟨_, _, ha, -⟩ |
        ⟨_, ha, -⟩
    · cases ha
    · cases hb.kind
    · exact hproc k fd rfl
    · cases ha
    · cases ha
  | _ => rfl

/-- The parent is never started. -/
theorem spawn_ne_parent (hexec : exec t a i sh = some out) (p : Code) :
    out.spawn ≠ some (.parent, p) := by
  intro hs
  obtain ⟨s, fd, c, pid, -, hu, -⟩ := spawn_eq_some hexec hs
  cases hu

theorem todo_parent (hexec : exec t a i st.shared = some out) (rest : Code) :
    (st.perform t rest out).todo .parent =
      if t = .parent then out.next ++ rest else st.todo .parent := by
  have hnone := (started_cases Tid.parent out.spawn).resolve_right (spawn_ne_parent hexec _)
  simp only [State.perform, hnone, List.append_nil, eq_comm (a := Tid.parent)]

theorem Orderly.step (h : Orderly st) (ht : Timely env st l) (hs : step st l = some st') :
    Orderly st' := by
  refine ⟨h.inOrder.step (h.onTime l) hs, h.inEnds.step hs, ?_, ?_⟩
  · obtain ⟨a, rest, out, -, hexec, rfl⟩ := step_act hs
    exact h.numbered.keeps (change_of_exec hexec)
  · obtain ⟨a, rest, out, htodo, hexec, rfl⟩ := step_act hs
    have howner := h.owner htodo
    have hset := h.setup htodo
    have hc := change_of_exec hexec
    rw [todo_parent hexec]
    split
    · next hp =>
      have hstaged := h.staged
      rw [← hp, htodo] at hstaged
      exact hstaged.parent hexec hset h.inOrder.sound.running
    · next hp =>
      by_cases hsig : l.1 = .sigchld
      · exact .idle (ht.2 hsig)
      · obtain ⟨work, loop, he, hwork, hloop⟩ := h.staged
        exact ⟨work, loop, he, hwork.stays hc (by rwa [howner]) (by rwa [howner]) hset, hloop⟩

/-! ## Events -/

/-- What is seen is the room behind some events. -/
def Shows (history : History) (es : List Chat.Event) (v : View) : Prop :=
  Implements .fork history es v.room v.asked v.sent

variable {v : View} {c : Nat} {s : Slot}

/-- A connection ends whose slot is still in use. -/
theorem Shows.leaves (h : Shows history es v) (hs : v.room.conn s = some c) (env : Env) :
    Shows history (es ++ [leaves env c]) { v with room := v.room.release .fork s } := by
  have htidy : Tidy v.room := h.tidy
  have hclose : serve .fork v.room (Fork.leaves env c) = (v.room.release .fork s, []) := by
    simp only [serve, Fork.leaves, Room.close, htidy.slotOf_eq hs]
    rfl
  refine h.snoc ?_ ?_ ?_
  · rw [hclose]
  · simp [Fork.leaves, Chat.Event.asked]
  · rw [hclose, List.map_nil, List.append_nil]

/-- A connection ends for which a free slot was in use. -/
theorem Shows.fails (h : Shows history es (v.fill s c)) (hs : v.room.conn s = none)
    (hactive : (v.room.table s).active = false) (env : Env) :
    Shows history (es ++ [Fork.leaves env c]) v := by
  have htidy : Tidy (v.fill s c).room := h.tidy
  have hself : (v.fill s c).room.conn s = some c := Function.update_self ..
  have hblank := htidy.blank s hactive
  have hclear : (v.room.table s).clear = v.room.table s := by
    have hname : (v.room.table s).username = zeros maxUsernameLen := hblank
    rw [Entry.clear, ← hactive, ← hname]
  have hrelease : (v.fill s c).room.release .fork s = v.room := by
    have hconn : Function.update (Function.update v.room.conn s (some c)) s none = v.room.conn := by
      rw [Function.update_idem, ← hs, Function.update_eq_self]
    change Room.mk (Function.update v.room.table s (v.room.table s).clear)
      (Function.update (Function.update v.room.conn s (some c)) s none) v.room.accepted
      v.room.history = v.room
    rw [hclear, Function.update_eq_self, hconn]
  have hleaves := h.leaves hself env
  rw [hrelease] at hleaves
  exact hleaves

theorem kind_of_served (hs : a.served = some s) : a.kind = .routing := by
  cases a <;> first | rfl | cases hs

theorem Orderly.ready (h : Orderly st) (hi : i.env = env)
    (htodo : st.todo .parent = .act a :: rest) : Ready env a i st.shared := by
  refine ⟨hi, h.inOrder.linked, h.inEnds.distinct, h.setup htodo, h.inOrder.sound.running,
    fun s hs => ?_⟩
  have hstaged := h.staged
  rw [htodo] at hstaged
  have hkind := kind_of_served hs
  rcases hstaged.cases with ⟨ha, -⟩ | ⟨_, _, -, -, hb, -⟩ | ⟨ha, -⟩ | ⟨_, _, rfl, -⟩ | ⟨_, rfl, -⟩
  · cases ha.symm.trans hkind
  · exact hb.served s hs
  · cases ha.symm.trans hkind
  · cases hs
  · cases hs

/-- The parent takes a connection. -/
theorem Orderly.shows_accept {fd : Nat} (h : Orderly st) (hfree : st.shared.fd fd = none)
    (hshow : Shows history es (see st.shared)) : Shows history (es ++ [.connect env])
      ((see (st.shared.accept fd)).findFreeSlot env st.shared.accepted
        (List.finRange maxClients)) := by
  have htidy : Tidy st.shared.room := hshow.tidy
  have hconn : (st.shared.accept fd).room.conn = st.shared.room.conn :=
    conn_stays h.inOrder.linked (.accept hfree) trivial fun _ => rfl
  have hroom : (st.shared.accept fd).room = { st.shared.room with
      accepted := st.shared.accepted + 1 } := by
    change Room.mk st.shared.table (st.shared.accept fd).room.conn (st.shared.accepted + 1)
      st.shared.history = _
    rw [hconn]
    rfl
  have hsee : see (st.shared.accept fd) = { see st.shared with
      room := { st.shared.room with accepted := st.shared.accepted + 1 } } := by
    rw [see, hroom]
    rfl
  have hsearch : (List.finRange maxClients).find? (fun s =>
      !(st.shared.room.table s).active && (st.shared.room.conn s).isNone) =
      firstSlot fun s => (st.shared.room.conn s).isNone := by
    unfold firstSlot
    congr 1
    ext s : 1
    cases hs : st.shared.room.conn s with
    | none =>
      rw [htidy.held s hs]
      rfl
    | some c => simp
  rw [hsee]
  unfold View.findFreeSlot
  simp only
  rw [hsearch]
  have hserve : serve .fork (see st.shared).room (.connect env) =
      st.shared.room.connect .fork env := rfl
  unfold Room.connect at hserve
  cases hfind : firstSlot fun s => (st.shared.room.conn s).isNone with
  | none =>
    simp only [hfind] at hserve
    refine hshow.snoc ?_ ?_ ?_
    · rw [hserve]
      rfl
    · exact (List.append_nil _).symm
    · rw [hserve]
      rfl
  | some s =>
    simp only [hfind] at hserve
    refine hshow.snoc ?_ ?_ ?_
    · rw [hserve]
      change Room.mk st.shared.room.table _ _ _ = Room.mk (Function.update st.shared.room.table s
        (st.shared.room.table s)) _ _ _
      rw [Function.update_eq_self]
      rfl
    · exact (List.append_nil _).symm
    · rw [hserve]
      exact (List.append_nil _).symm

/-- A round of the select loop does not show. -/
theorem loop_stays (env : Env) (h : exec t a i sh = some out) (ha : a.kind = .loop) (hne : a ≠ .accept)
    (rest : Code) : out.shared = sh ∧ (meaning env).Waits (out.next ++ rest) := by
  cases a with
  | accept => exact absurd rfl hne
  | watch | check =>
    simp only [exec] at h
    split at h
    · obtain rfl := goOn_inj h
      exact ⟨rfl, rfl⟩
    · split at h <;> obtain rfl := goOn_inj h <;> exact ⟨rfl, rfl⟩
  | select rfds =>
    simp only [exec] at h
    split at h
    · obtain rfl := goOn_inj h
      exact ⟨rfl, rfl⟩
    · obtain rfl := goOn_inj h
      refine ⟨rfl, ?_⟩
      cases i.waiting <;> rfl
  | _ => cases ha

theorem eventOf_of_loop (htodo : st.todo t = .act a :: rest) (ha : a.kind = .loop)
    (hne : a ≠ .accept) : eventOf st (t, i) = [] := by
  unfold eventOf
  simp only [htodo]
  cases a
  case accept => exact absurd rfl hne
  all_goals first | rfl | cases ha

theorem eventOf_of_going (htodo : st.todo t = .act a :: rest)
    (hstop : (meaning env).stop a = false) (hfails : a.fails i = false)
    (howner : a.owner = .parent) : eventOf st (t, i) = [] := by
  unfold eventOf
  simp only [htodo]
  cases a
  case pipes s fd c => simp [hfails]
  case fork s fd c => simp [hfails]
  case accept => cases hstop
  case recv s fd => cases hstop
  case reap => cases howner
  all_goals rfl

/-- The parent takes a message from a pipe, or finds the end of it. -/
theorem Orderly.shows_recv {s : Slot} {fd : Nat} (h : Orderly st) (hi : i.env = env)
    (htodo : st.todo .parent = .act (.recv s fd) :: rest)
    (hexec : exec .parent (.recv s fd) i st.shared = some out)
    (hshow : Shows history es (see st.shared)) :
    Shows history (es ++ eventOf st (.parent, i))
      ((meaning env).code (out.next ++ rest) (see out.shared)) := by
  have hstaged := h.staged
  rw [htodo] at hstaged
  obtain ⟨hpid, hidle⟩ : (st.shared.clients s).pid ≠ 0 ∧ Idle rest := by
    rcases hstaged.cases with ⟨ha, -⟩ | ⟨_, _, -, -, hb, -⟩ | ⟨ha, -⟩ | ⟨_, _, ha, hs, hr⟩ | ⟨_, ha, -⟩
    · cases ha
    · cases hb.kind
    · cases ha
    · cases ha
      exact ⟨hs, hr⟩
    · cases ha
  have hlead : st.shared.writeEnd s = st.shared.readEnd fd := by
    have hout := h.inEnds.outlined .parent
    rw [htodo] at hout
    exact (hout.1 _ rfl).2
  have htidy : Tidy st.shared.room := hshow.tidy
  have hread : st.shared.readEnd fd = st.shared.room.conn s := by
    rw [← hlead, h.inEnds.distinct.writeEnd_eq hpid]
  unfold eventOf
  simp only [htodo]
  simp only [exec] at hexec
  cases hc : st.shared.readEnd fd with
  | none =>
    rw [hc] at hexec
    cases hexec
  | some c =>
    rw [hc] at hexec
    have hconn : (see st.shared).room.conn s = some c := hread.symm.trans hc
    have hslot := htidy.slotOf_eq hconn
    simp only at hexec ⊢
    split at hexec
    · cases hexec
    · next m src hm =>
      obtain rfl := goOn_inj hexec
      split
      · next hnone => cases hm.symm.trans hnone
      · next m' src' hm' =>
        obtain ⟨hmm, -⟩ := Prod.mk.inj (Option.some.inj (hm.symm.trans hm'))
        obtain rfl := Option.some.inj hmm
        have hserve : serve .fork (see st.shared).room (.request c (requestOf hm') i.env) =
            st.shared.room.route .fork env s m := by
          rw [hi]
          change Room.request st.shared.room .fork c m env = _
          rw [Room.request, hslot]
        have hcode : (meaning env).code (code [.route s c m] ++ rest)
            (see (st.shared.readFrom c src.inbound)) = ({ see st.shared with
              asked := (see st.shared).asked ++ [(c, m)] } : View).serve
                (st.shared.room.route .fork env s m) := by
          change (meaning env).code rest _ = _
          rw [hidle.waits.code]
          rfl
        rw [hcode]
        refine Implements.snoc hshow ?_ rfl ?_
        · rw [hserve]
          rfl
        · rw [hserve]
          rfl
      · next src' hnone => cases hm.symm.trans hnone
    · next src hm =>
      obtain rfl := goOn_inj hexec
      split
      · next hnone => cases hm.symm.trans hnone
      · next m' src' hm' => cases hm.symm.trans hm'
      · next src' hm' =>
        have hcode : (meaning env).code (code [.drop s] ++ rest)
            (see (st.shared.readFrom c src.inbound)) = { see st.shared with
              room := (see st.shared).room.release .fork s } := by
          change (meaning env).code rest _ = _
          rw [hidle.waits.code]
          rfl
        rw [hcode]
        exact hshow.leaves hconn i.env

/-- A connection for which `pipe` or `fork` fails comes to nothing. -/
theorem Orderly.shows_failure (h : Orderly st) (htodo : st.todo .parent = .act a :: rest)
    (hexec : exec .parent a i st.shared = some out) (hfails : a.fails i = true)
    (hshow : Shows history es ((meaning env).code (st.todo .parent) (see st.shared))) :
    Shows history (es ++ eventOf st (.parent, i))
      ((meaning env).code (out.next ++ rest) (see out.shared)) := by
  have hidle : a.kind = .arrival → Idle rest := by
    intro ha
    have hstaged := h.staged
    rw [htodo] at hstaged
    rcases hstaged.cases with ⟨hk, -⟩ | ⟨_, _, -, -, hb, -⟩ | ⟨-, -, hr⟩ | ⟨_, _, rfl, -⟩ | ⟨_, rfl, -⟩
    · cases hk.symm.trans ha
    · cases hb.kind.symm.trans ha
    · exact hr
    · cases ha
    · cases ha
  have hset := h.setup htodo
  have hfree : ∀ {s}, st.shared.Free s → (see st.shared).room.conn s = none ∧
      ((see st.shared).room.table s).active = false := fun hs => ⟨if_pos hs.2, hs.1⟩
  rw [htodo] at hshow
  cases a with
  | pipes s fd c =>
    have hwaits : (meaning env).Waits rest := (hidle rfl).waits
    have hevent : eventOf st (.parent, i) = [leaves i.env c] := by
      unfold eventOf
      simp only [htodo, hfails, if_true]
    have hsee := see_pipes h.inOrder.linked hset hexec
    have hnext : out.next = code [.closeFd fd] := by
      simp only [exec] at hexec
      split at hexec
      · obtain rfl := goOn_inj hexec
        rfl
      · next p hp =>
        split at hexec
        · split at hexec
          · obtain rfl := goOn_inj hexec
            rfl
          · next q hq => simp [Act.fails, hp, hq] at hfails
        · cases hexec
    have hfill : Shows history es ((see st.shared).fill s c) := by
      have hcode : (meaning env).code (.act (.pipes s fd c) :: rest) (see st.shared) =
          (meaning env).code rest ((see st.shared).fill s c) := rfl
      rw [hcode, hwaits.code] at hshow
      exact hshow
    have hcode : (meaning env).code (code [.closeFd fd] ++ rest) (see out.shared) =
        see st.shared := by
      change (meaning env).code rest _ = _
      rw [hwaits.code]
      exact hsee
    rw [hevent, hnext, hcode]
    obtain ⟨hconn, hactive⟩ := hfree hset.2
    exact hfill.fails hconn hactive i.env
  | fork s fd c =>
    have hwaits : (meaning env).Waits rest := (hidle rfl).waits
    have hevent : eventOf st (.parent, i) = [leaves i.env c] := by
      unfold eventOf
      simp only [htodo, hfails, if_true]
    have hnone : i.pid = none := by simpa [Act.fails] using hfails
    simp only [exec, hnone] at hexec
    obtain rfl := goOn_inj hexec
    have hfill : Shows history es ((see st.shared).fill s c) := by
      have hcode : (meaning env).code (.act (.fork s fd c) :: rest) (see st.shared) =
          (meaning env).code rest ((see st.shared).fill s c) := rfl
      rw [hcode, hwaits.code] at hshow
      exact hshow
    have hcode : (meaning env).code (code [.closeFd fd] ++ rest) (see st.shared) =
        see st.shared := by
      change (meaning env).code rest _ = _
      rw [hwaits.code]
      rfl
    rw [hevent, hcode]
    obtain ⟨hconn, hactive⟩ := hfree hset.2.1
    exact hfill.fails hconn hactive i.env
  | _ => cases hfails

/-- A step of the parent. -/
theorem Orderly.shows_parent (h : Orderly st) (hi : i.env = env)
    (hs : Fork.step st (.parent, i) = some st')
    (hshow : Shows history es ((meaning env).code (st.todo .parent) (see st.shared))) :
    Shows history (es ++ eventOf st (.parent, i))
      ((meaning env).code (st'.todo .parent) (see st'.shared)) := by
  have hstep := hs
  obtain ⟨a, rest, out, htodo, hexec, rfl⟩ := step_act hs
  have htodo : st.todo .parent = .act a :: rest := htodo
  have hafter : (st.perform .parent rest out).todo .parent = out.next ++ rest := by
    rw [todo_parent hexec, if_pos rfl]
  have howner : a.owner = .parent := h.owner htodo
  cases hstop : (meaning env).stop a with
  | true =>
    have hwaits : (meaning env).Waits (st.todo .parent) := by
      rw [htodo]
      exact hstop
    rw [hwaits.code] at hshow
    rw [hafter]
    by_cases hrecv : ∃ s fd, a = .recv s fd
    · obtain ⟨s, fd, rfl⟩ := hrecv
      exact h.shows_recv hi htodo hexec hshow
    · have hkind : a.kind = .loop := by
        cases a with
        | recv s fd => exact absurd ⟨s, fd, rfl⟩ hrecv
        | watch | select | check | accept => rfl
        | _ => cases hstop
      by_cases hacc : a = .accept
      · subst hacc
        have hidle : Idle rest := by
          have hstaged := h.staged
          rw [htodo] at hstaged
          rcases hstaged.cases with ⟨-, hr⟩ | ⟨_, _, -, -, hb, -⟩ | ⟨ha, -⟩ | ⟨_, _, ha, -⟩ | ⟨_, ha, -⟩
          · exact hr
          · cases hb.kind
          · cases ha
          · cases ha
          · cases ha
        unfold eventOf
        simp only [htodo]
        simp only [exec] at hexec
        split at hexec
        · next hnone =>
          obtain rfl := goOn_inj hexec
          rw [hnone, if_neg (by simp), List.append_nil]
          change Shows history es ((meaning env).code rest (see st.shared))
          rw [hidle.waits.code]
          exact hshow
        · next fd hfd =>
          split at hexec
          · next hfree =>
            obtain rfl := goOn_inj hexec
            rw [hfd, hi]
            change Shows history (es ++ [.connect env]) ((meaning env).code rest _)
            rw [hidle.waits.code]
            exact h.shows_accept hfree hshow
          · cases hexec
      · obtain ⟨hshared, hwait⟩ := loop_stays env hexec hkind hacc rest
        rw [eventOf_of_loop htodo hkind hacc, List.append_nil, hwait.code]
        change Shows history es (see out.shared)
        rw [hshared]
        exact hshow
  | false =>
    cases hfails : a.fails i with
    | true =>
      rw [hafter]
      exact h.shows_failure htodo hexec hfails hshow
    | false =>
      have hsound : (meaning env).Sound see _ exec := meaning_sound
      have hcode := hsound.step hstep (fun b rest' hb => by
          have hb : st.todo .parent = .act b :: rest' := hb
          obtain rfl := Stmt.act.inj (List.cons.inj (hb.symm.trans htodo)).1
          exact ⟨howner, h.ready hi htodo, hfails⟩) (fun hw => by
          rw [htodo] at hw
          cases hstop.symm.trans hw) (fun b rest' out' p _ hx => spawn_ne_parent hx p)
      rw [eventOf_of_going htodo hstop hfails howner, List.append_nil, hcode]
      exact hshow

/-- Every step belongs to the event it begins with, or to the one the parent is busy with. -/
theorem Orderly.shows_step (h : Orderly st) (ht : Timely env st l)
    (hs : Fork.step st l = some st')
    (hshow : Shows history es ((meaning env).code (st.todo .parent) (see st.shared))) :
    Shows history (es ++ eventOf st l)
      ((meaning env).code (st'.todo .parent) (see st'.shared)) := by
  obtain ⟨t, i⟩ := l
  by_cases hp : t = .parent
  · subst hp
    exact h.shows_parent (ht.1 rfl) hs hshow
  · obtain ⟨a, rest, out, htodo, hexec, rfl⟩ := step_act hs
    have htodo : st.todo t = .act a :: rest := htodo
    have howner := h.owner htodo
    rw [todo_parent hexec, if_neg hp]
    cases t with
    | parent => exact absurd rfl hp
    | child k =>
      have hevent : eventOf st (.child k, i) = [] := by
        unfold eventOf
        simp only [htodo]
        cases a <;> first | rfl | cases howner
      rw [hevent, List.append_nil]
      change Shows history es ((meaning env).code (st.todo .parent) (see out.shared))
      rw [see_child hexec howner]
      exact hshow
    | sigchld =>
      have hidle : (meaning env).Waits (st.todo .parent) := (ht.2 rfl).waits
      rw [hidle.code] at hshow ⊢
      cases a with
      | reap =>
        simp only [exec] at hexec
        split at hexec
        · cases hexec
        · next pid hpid =>
          split at hexec
          · next c hzombie =>
            obtain rfl := goOn_inj hexec
            have hne : pid ≠ 0 := by
              rintro rfl
              rw [show st.shared.proc 0 = none from h.numbered] at hzombie
              cases hzombie
            have hevent : eventOf st (.sigchld, i) =
                match (st.shared.findPid pid).bind st.shared.room.conn with
                | none => []
                | some c => [leaves i.env c] := by
              unfold eventOf
              simp only [htodo]
              rw [hpid]
              rfl
            change Shows history _ (see (st.shared.reap pid))
            rcases see_reap hne h.inOrder.linked with ⟨hnone, hsee⟩ | ⟨s, c', hconn, hsome, hsee⟩
            · rw [hevent, hnone, hsee, List.append_nil]
              exact hshow
            · rw [hevent, hsome, hsee]
              exact hshow.leaves hconn i.env
          · cases hexec
      | _ => cases howner

/-! ## Rounds -/

/-- Some steps in unchanging surroundings. -/
theorem Orderly.shows_run (h : Orderly st) {ls : List (Tid × Input)}
    (ht : Meets Fork.step (Timely env) st ls) (hrun : run Fork.step st ls = some st')
    (hshow : Shows history es ((meaning env).code (st.todo .parent) (see st.shared))) :
    Orderly st' ∧ Shows history (es ++ collect Fork.step eventOf st ls)
      ((meaning env).code (st'.todo .parent) (see st'.shared)) := by
  induction ls generalizing st es with
  | nil =>
    obtain rfl := Option.some.inj hrun
    rw [collect, List.append_nil]
    exact ⟨h, hshow⟩
  | cons l ls ih =>
    obtain ⟨st₁, hs, hrest⟩ := run_cons_iff.mp hrun
    rw [collect_cons hs, ← List.append_assoc]
    exact ih (h.step ht.1 hs) (ht.2 st₁ hs) hrest (h.shows_step ht.1 hs hshow)

/-- The parent is idle, and the room behind some events. -/
structure Settled (history : History) (es : List Chat.Event) (st : State) : Prop where
  orderly : Orderly st
  idle : Idle (st.todo .parent)
  shows : Shows history es (see st.shared)

theorem settled_init (history : History) : Settled history [] (init history) := by
  refine ⟨orderly_init history, idle_code (by simp [mainLoop, Act.kind]), ?_, rfl, rfl⟩
  change _ = (Shared.init history).room
  unfold Shared.room
  congr 1

theorem Settled.round {n : Round} (h : Settled history es st) (hn : Undisturbed st n)
    (hs : Fork.round st n = some st') : Settled history (es ++ eventsOf st n) st' := by
  have hidle : (meaning n.env).Waits (st.todo .parent) := h.idle.waits
  have hshow : Shows history es ((meaning n.env).code (st.todo .parent) (see st.shared)) := by
    rw [hidle.code]
    exact h.shows
  have hidle' : Idle (st'.todo .parent) := hn.rest st' hs
  have hwaits : (meaning n.env).Waits (st'.todo .parent) := hidle'.waits
  obtain ⟨hord, hshow'⟩ := h.orderly.shows_run hn.steps hs hshow
  rw [hwaits.code] at hshow'
  exact ⟨hord, hidle', hshow'⟩

theorem settled_run {ns : List Round} (h : Settled history es st)
    (hcalm : Meets Fork.round Undisturbed st ns) (hrun : run Fork.round st ns = some st') :
    Settled history (es ++ collect Fork.round eventsOf st ns) st' := by
  induction ns generalizing st es with
  | nil =>
    obtain rfl := Option.some.inj hrun
    rw [collect, List.append_nil]
    exact h
  | cons n ns ih =>
    obtain ⟨st₁, hs, hrest⟩ := run_cons_iff.mp hrun
    rw [collect_cons hs, ← List.append_assoc]
    exact ih (h.round hcalm.1 hs) (hcalm.2 st₁ hs) hrest

/-! ## Deliveries -/

/-- The messages for a connection in a trace. -/
def sentTo (c : Nat) (log : List Event) : List Message := ofConn c (log.filterMap Event.parcel)

theorem sentTo_append (c : Nat) (log log' : List Event) :
    sentTo c (log ++ log') = sentTo c log ++ sentTo c log' := by
  rw [sentTo, List.filterMap_append]
  exact List.filterMap_append

/-- A message written to the pipe of a connection is one for the connection. -/
theorem sentTo_pipeSend (c : Nat) (sh : Shared) (s : Slot) (m : Message) :
    ∃ extra, sentTo c (sh.pipeSend s m).log = sentTo c sh.log ++ extra ∧
      ((onPipe (.toChild c) (sh.sending s m)).map canonical).Sublist extra := by
  have hfeed : ∀ (sh : Shared) (c : Nat) (d : List UInt8), (sh.feed c d).log = sh.log := by
    intro sh c d
    unfold Shared.feed
    split <;> rfl
  have hnone : ([] : List Message).Sublist [] := List.nil_sublist _
  unfold Shared.pipeSend Shared.sending
  cases hd : sh.fd (sh.clients s).toChild.2 with
  | none => exact ⟨[], (List.append_nil _).symm, hnone⟩
  | some r =>
    cases r with
    | toWrite d =>
      refine ⟨sentTo c [.sent d m], ?_, ?_⟩
      · change sentTo c ((sh.note (.sent d m)).feed d (packMessage m)).log = _
        rw [hfeed]
        exact sentTo_append ..
      · simp only
        split
        · exact List.nil_sublist _
        · by_cases hdc : d = c <;> simp [onPipe, sentTo, ofConn, Event.parcel, hdc]
    | _ => exact ⟨[], (List.append_nil _).symm, hnone⟩

theorem sentTo_exec (h : exec t a i sh = some out) (c : Nat) :
    ∃ extra, sentTo c out.shared.log = sentTo c sh.log ++ extra ∧
      ((onPipe (.toChild c) (a.writing i sh)).map canonical).Sublist extra := by
  have hsame : ∀ {sh' : Shared}, sh'.log = sh.log →
      ∃ extra, sentTo c sh'.log = sentTo c sh.log ++ extra ∧ ([] : List Message).Sublist extra :=
    fun he => ⟨[], by rw [he, List.append_nil], List.nil_sublist _⟩
  have hnote : ∀ {sh' : Shared} (e : Event), sh'.log = sh.log →
      ∃ extra, sentTo c (sh'.note e).log = sentTo c sh.log ++ extra ∧
        ([] : List Message).Sublist extra :=
    fun e he => ⟨sentTo c [e], by rw [Shared.note, sentTo_append, he], List.nil_sublist _⟩
  cases a with
  | notify skip note slots =>
    simp only [exec] at h
    split at h
    · obtain rfl := goOn_inj h
      exact hsame rfl
    · next j slots =>
      simp only [Act.writing]
      split at h
      · next hj =>
        obtain rfl := goOn_inj h
        rw [if_pos hj]
        exact sentTo_pipeSend ..
      · next hj =>
        obtain rfl := goOn_inj h
        rw [if_neg hj]
        exact hsame rfl
  | relay skip m slots =>
    simp only [exec] at h
    split at h
    · obtain rfl := goOn_inj h
      exact hsame rfl
    · next j slots =>
      simp only [Act.writing]
      split at h
      · next hj =>
        obtain rfl := goOn_inj h
        rw [if_pos hj]
        exact sentTo_pipeSend ..
      · next hj =>
        obtain rfl := goOn_inj h
        rw [if_neg hj]
        exact hsame rfl
  | pipeSend | reply =>
    obtain rfl := goOn_inj h
    exact sentTo_pipeSend ..
  | forward k m =>
    have hnone : (onPipe (.toChild c) ((Act.forward k m).writing i sh)).map canonical = [] := by
      simp only [Act.writing]
      split <;> simp [onPipe]
    rw [hnone]
    simp only [exec] at h
    split at h
    · obtain rfl := goOn_inj h
      exact hsame rfl
    · obtain rfl := goOn_inj h
      exact hnote _ rfl
  | reap =>
    simp only [exec] at h
    split at h
    · cases h
    · next pid hpid =>
      split at h
      · obtain rfl := goOn_inj h
        change ∃ extra, sentTo c (sh.reap pid).log = _ ∧ _
        rcases reap_cases sh pid with ⟨-, he⟩ | ⟨s, -, -, he⟩
        · rw [he]
          exact hsame rfl
        · rw [he]
          exact hnote _ rfl
      · cases h
  | refuse | drop | route =>
    obtain rfl := goOn_inj h
    exact hnote _ rfl
  | _ =>
    simp only [exec] at h
    repeat' split at h
    all_goals cases h
    all_goals first | exact hsame rfl | exact hnote _ rfl

/-- What a child passed on and what waits in its pipe are among the messages for its connection,
in their order. -/
def InTransit (c : Nat) (sh : Shared) : Prop :=
  ∃ rest, sh.content (.toChild c) = frames rest ∧
    (deliveredTo c sh.log ++ rest.map canonical).Sublist (sentTo c sh.log)

theorem InTransit.exec {c : Nat} (h : InTransit c sh) (hexec : exec t a i sh = some out) :
    InTransit c out.shared := by
  obtain ⟨rest, hrest, hsub⟩ := h
  obtain ⟨rest', hrest', hmap⟩ := traffic_exec hexec hrest
  obtain ⟨extra, hsent, hextra⟩ := sentTo_exec hexec c
  refine ⟨rest', hrest', ?_⟩
  rw [deliveredTo_exec hexec c, List.append_assoc, ← hmap, List.map_append, ← List.append_assoc,
    hsent]
  exact hsub.append hextra

theorem inTransit_run {c : Nat} {ls : List (Tid × Input)} (h : InTransit c st.shared)
    (hrun : run Fork.step st ls = some st') : InTransit c st'.shared := by
  refine run_invariant (I := fun st => InTransit c st.shared) (fun st l st' hst hs => ?_) h hrun
  obtain ⟨a, rest, out, -, hexec, rfl⟩ := step_act hs
  exact hst.exec hexec

theorem inTransit_rounds {c : Nat} {ns : List Round} (h : InTransit c st.shared)
    (hrun : run Fork.round st ns = some st') : InTransit c st'.shared :=
  run_invariant (I := fun st => InTransit c st.shared) (fun _ _ _ hst hs => inTransit_run hst hs)
    h hrun

/-- In undisturbed rounds the parent is the room behind the connections, the messages and the
ends of sessions it worked on, however the children run. It sends what the room sends, and every
child passes on some of that to its client, in the same order. -/
theorem processes_refine_room {ns : List Round}
    (hcalm : Meets Fork.round Undisturbed (init history) ns)
    (hrun : run Fork.round (init history) ns = some st) :
    Implements .fork history (collect Fork.round eventsOf (init history) ns) st.shared.room
        (st.shared.log.filterMap Event.asked) (st.shared.log.filterMap Event.parcel) ∧
      ∀ c, (deliveredTo c st.shared.log).Sublist (ofConn c ((sentAt .fork history
        (collect Fork.round eventsOf (init history) ns)).map Chat.Sent.parcel)) := by
  have h : Implements _ _ _ _ _ _ := (settled_run (settled_init history) hcalm hrun).shows
  rw [List.nil_append] at h
  refine ⟨h, fun c => ?_⟩
  have hinit : InTransit c (init history).shared := ⟨[], rfl, List.nil_sublist _⟩
  obtain ⟨rest, -, hsub⟩ := inTransit_rounds hinit hrun
  rw [h.sent]
  exact (List.sublist_append_left ..).trans hsub

/-- Steps in the surroundings of a round, with no interrupt among them. -/
theorem undisturbed_of_forall {n : Round} (h : ∀ l ∈ n.labels, l.1 ≠ .sigchld ∧ l.2.env = n.env)
    (hs : Fork.round st n = some st') (hidle : Idle (st'.todo .parent)) : Undisturbed st n := by
  constructor
  · refine meets_of_forall (fun l hl _ => ⟨fun _ => (h l hl).2, fun he => ?_⟩) st
    exact absurd he (h l hl).1
  · intro st₁ h₁
    obtain rfl := Option.some.inj (hs.symm.trans h₁)
    exact hidle

/-- A connection is taken; its child reads a login, and the parent routes it. -/
def loginRound : Round where
  env := noInput.env
  labels := connect 0 4 100 ++ (works ⟨0, 0, 100⟩ 1 ++
    ((.child ⟨0, 0, 100⟩, Fork.reads (loginAs "a")) :: (works ⟨0, 0, 100⟩ 2 ++
      (parents 13 ++ ((.parent, noInput) :: parents 6)))))

theorem processes_refine_room_login : ∃ st,
    run Fork.round (init fun _ => none) [loginRound] = some st ∧
    Implements .fork (fun _ => none)
      (collect Fork.round eventsOf (init fun _ => none) [loginRound]) st.shared.room
      (st.shared.log.filterMap Event.asked) (st.shared.log.filterMap Event.parcel) ∧
    (st.shared.room.table 0).active = true := by
  have hlogin : WellFormed (loginAs "a") := wellFormed_makeMessage ..
  have hround : Fork.round (init fun _ => none) loginRound = some _ :=
    run_trans rfl (run_trans rfl (run_cons_iff.mpr ⟨_, step_fromClient hlogin rfl,
      run_trans rfl (run_trans rfl (run_cons_iff.mpr ⟨_, step_recv hlogin rfl rfl
        (List.append_nil _).symm, rfl⟩))⟩))
  have hrun : run Fork.round (init fun _ => none) [loginRound] = some _ :=
    run_cons_iff.mpr ⟨_, hround, rfl⟩
  have hcalm : Undisturbed (init fun _ => none) loginRound := by
    refine undisturbed_of_forall ?_ hround ?_
    · simp [loginRound, connect, parents, works, Fork.reads, noInput]
    · change Idle (code [.check _ _])
      exact idle_code (by simp [Act.kind])
  have hmeets : Meets Fork.round Undisturbed (init fun _ => none) [loginRound] :=
    ⟨hcalm, fun _ _ => trivial⟩
  exact ⟨_, hrun, (processes_refine_room hmeets hrun).1, rfl⟩

end ChatSystem.Fork
