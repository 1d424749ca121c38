import ChatSystem.Fork.Program

/-!
# What the acts of the processes do

Every act belongs to one process and expands to acts of the same process, so that two
processes never stand at acts of one owner. An act makes one of few changes to the shared
state; most acts only produce output.
-/

namespace ChatSystem.Fork

open Tasks

variable {t : Tid} {a b : Act} {i : Input} {sh : Shared} {out : Outcome Empty Tid Act Shared}

theorem goOn_inj {next : List Act} (h : sh.goOn next = some out) :
    out = { shared := sh, next := code next, spawn := none } :=
  (Option.some.inj h).symm

theorem mem_code {acts : List Act} : Stmt.act a ∈ code acts ↔ a ∈ acts := by
  simp only [code, List.mem_map, Stmt.act.injEq, exists_eq_right]

theorem eq_of_mem_code (h : Stmt.act b ∈ code [a]) : b = a :=
  List.mem_singleton.mp (mem_code.mp h)

/-! ## Owners -/

/-- The process that performs an act. -/
def Act.owner : Act → Tid
  | .bridge k | .fromClient k | .farewell k | .forward k _ | .fromParent k | .exit k => .child k
  | .reap => .sigchld
  | _ => .parent

/-- All acts of a list belong to one process. -/
def OwnedBy (u : Tid) (acts : List Act) : Prop := ∀ a ∈ acts, a.owner = u

@[simp] theorem ownedBy_nil (u : Tid) : OwnedBy u [] := by
  intro a h
  cases h

@[simp] theorem ownedBy_cons {u : Tid} {acts : List Act} :
    OwnedBy u (a :: acts) ↔ a.owner = u ∧ OwnedBy u acts := by
  simp [OwnedBy]

@[simp] theorem ownedBy_append {u : Tid} {p q : List Act} :
    OwnedBy u (p ++ q) ↔ OwnedBy u p ∧ OwnedBy u q := by
  simp only [OwnedBy, List.mem_append]
  constructor
  · intro h
    exact ⟨fun a ha => h a (Or.inl ha), fun a ha => h a (Or.inr ha)⟩
  · rintro ⟨hp, hq⟩ a (ha | ha)
    · exact hp a ha
    · exact hq a ha

theorem owned_route (sh : Shared) (s : Slot) (m : Message) : OwnedBy .parent (sh.route s m) := by
  unfold Shared.route
  split
  · unfold Shared.login
    split <;> simp [Act.owner]
  · simp [Shared.logout, Act.owner]
  · unfold Shared.broadcast
    split <;> simp [Act.owner]
  · unfold Shared.priv
    split <;> simp [Act.owner]
  all_goals simp [Act.owner]

/-- An act expands to acts of its own process. -/
theorem owner_next (h : exec t a i sh = some out) :
    ∃ acts, out.next = code acts ∧ OwnedBy a.owner acts := by
  cases a <;> simp only [exec] at h
  case watch slots rfds | findFreeSlot fd c slots | notify skip note slots | relay skip m slots =>
    split at h
    · obtain rfl := goOn_inj h
      exact ⟨_, rfl, by simp [Act.owner]⟩
    · split at h <;> obtain rfl := goOn_inj h <;> exact ⟨_, rfl, by simp [Act.owner]⟩
  case select rfds =>
    split at h
    · obtain rfl := goOn_inj h
      exact ⟨_, rfl, by simp [mainLoop, Act.owner]⟩
    · obtain rfl := goOn_inj h
      refine ⟨_, rfl, ?_⟩
      rw [ownedBy_append]
      constructor
      · split <;> simp [Act.owner]
      · simp [Act.owner]
  case accept =>
    split at h
    · obtain rfl := goOn_inj h
      exact ⟨_, rfl, by simp⟩
    · split at h
      · obtain rfl := goOn_inj h
        exact ⟨_, rfl, by simp [Act.owner]⟩
      · cases h
  case pipes s fd c =>
    split at h
    · obtain rfl := goOn_inj h
      exact ⟨_, rfl, by simp [Act.owner]⟩
    · split at h
      · split at h
        · obtain rfl := goOn_inj h
          exact ⟨_, rfl, by simp [Act.owner]⟩
        · split at h
          · obtain rfl := goOn_inj h
            exact ⟨_, rfl, by simp [Act.owner]⟩
          · cases h
      · cases h
  case fork s fd c =>
    split at h
    · obtain rfl := goOn_inj h
      exact ⟨_, rfl, by simp [Act.owner]⟩
    · split at h
      · obtain rfl := Option.some.inj h
        exact ⟨_, rfl, by simp [Act.owner]⟩
      · cases h
  case check slots rfds =>
    split at h
    · obtain rfl := goOn_inj h
      exact ⟨_, rfl, by simp [mainLoop, Act.owner]⟩
    · split at h <;> obtain rfl := goOn_inj h <;> exact ⟨_, rfl, by simp [Act.owner]⟩
  case recv s fd =>
    split at h
    · cases h
    · split at h
      · cases h
      · obtain rfl := goOn_inj h
        exact ⟨_, rfl, by simp [Act.owner]⟩
      · obtain rfl := goOn_inj h
        exact ⟨_, rfl, by simp [Act.owner]⟩
  case route s c m =>
    obtain rfl := goOn_inj h
    exact ⟨_, rfl, owned_route sh s m⟩
  case checkName | validate =>
    split at h <;> obtain rfl := goOn_inj h <;> exact ⟨_, rfl, by simp [Act.owner]⟩
  case findTarget | forward =>
    split at h <;> obtain rfl := goOn_inj h <;> exact ⟨_, rfl, by simp [Act.owner]⟩
  case bridge k =>
    obtain rfl := goOn_inj h
    refine ⟨_, rfl, ?_⟩
    split <;> simp [Act.owner]
  case fromClient k =>
    split at h <;> obtain rfl := goOn_inj h <;> exact ⟨_, rfl, by simp [Act.owner]⟩
  case fromParent k =>
    split at h
    · cases h
    · obtain rfl := goOn_inj h
      exact ⟨_, rfl, by simp [Act.owner]⟩
    · obtain rfl := goOn_inj h
      exact ⟨_, rfl, by simp [Act.owner]⟩
  case exit k =>
    split at h
    · obtain rfl := goOn_inj h
      exact ⟨_, rfl, by simp⟩
    · cases h
  case reap =>
    split at h
    · cases h
    · split at h
      · obtain rfl := goOn_inj h
        exact ⟨_, rfl, by simp [Act.owner]⟩
      · cases h
  all_goals
    obtain rfl := goOn_inj h
    exact ⟨_, rfl, by simp [Act.owner]⟩

/-- Only `fork` starts a process, the child it creates. -/
theorem spawn_eq_some {u : Tid} {p : Code} (h : exec t a i sh = some out)
    (hp : out.spawn = some (u, p)) : ∃ s fd c pid, a = .fork s fd c ∧ u = .child ⟨s, c, pid⟩ ∧
      p = code [.bridge ⟨s, c, pid⟩] ∧ pid ≠ 0 ∧ sh.proc pid = none ∧
      out.shared = sh.start ⟨s, c, pid⟩ ∧ out.next = code [.storePid ⟨s, c, pid⟩ fd] := by
  cases a
  case fork s fd c =>
    simp only [exec] at h
    split at h
    · obtain rfl := goOn_inj h
      cases hp
    · split at h
      · next pid _ hfree =>
        obtain rfl := Option.some.inj h
        obtain ⟨rfl, rfl⟩ := Prod.mk.inj (Option.some.inj hp)
        exact ⟨s, fd, c, pid, rfl, rfl, rfl, hfree.1, hfree.2, rfl, rfl⟩
      · cases h
  all_goals
    simp only [exec] at h
    repeat' split at h
    all_goals cases h
    all_goals cases hp

/-- Each process only has acts of its own ahead. -/
def Owned (st : State) : Prop := ∀ u a, .act a ∈ st.todo u → a.owner = u

theorem owned_init (history : History) : Owned (init history) := by
  intro u a h
  cases u with
  | parent =>
    rw [init, mem_code, mainLoop, List.mem_singleton] at h
    rw [h]
    rfl
  | sigchld =>
    rw [init, mem_code, List.mem_singleton] at h
    rw [h]
    rfl
  | child k => cases h

variable {st st' : State} {l : Tid × Input}

theorem Owned.step (ho : Owned st) (hs : step st l = some st') : Owned st' := by
  intro u a ha
  rcases Tasks.mem_todo hs ha with ha | ⟨b, rest, out, hb, hexec, -, ha⟩
  · exact ho u a ha
  · have hown : b.owner = l.1 := ho l.1 b (hb ▸ List.mem_cons_self)
    rcases ha with ⟨hu, ha⟩ | ⟨p, hp, ha⟩
    · obtain ⟨acts, hnext, hacts⟩ := owner_next hexec
      rw [hnext, mem_code] at ha
      rw [hacts a ha, hown, hu]
    · obtain ⟨s, fd, c, pid, -, rfl, rfl, -⟩ := spawn_eq_some hexec hp
      rw [eq_of_mem_code ha]
      rfl

/-- A step is an act of a process that has it in front. -/
theorem step_act (hs : step st l = some st') : ∃ a rest out, st.todo l.1 = .act a :: rest ∧
    exec l.1 a l.2 st.shared = some out ∧ st' = st.perform l.1 rest out := by
  rcases Tasks.step_cases hs with ⟨k, -⟩ | ⟨k, -⟩ | h
  · cases k
  · cases k
  · exact h

/-! ## Changes -/

/-- A message goes to a client. -/
def Event.isOutput : Event → Bool
  | .sent _ _ | .delivered _ _ => true
  | _ => false

/-- The trace without the messages to clients. -/
def Shared.books (sh : Shared) : List Event := sh.log.filter fun e => !e.isOutput

/-- Only outgoing data and the history changed. -/
structure Quiet (a b : Shared) : Prop where
  clients : b.clients = a.clients
  fd : b.fd = a.fd
  accepted : b.accepted = a.accepted
  proc : b.proc = a.proc
  fromPipe : b.fromPipe = a.fromPipe
  closed : b.closed = a.closed
  books : b.books = a.books

namespace Quiet

variable {a b c : Shared}

theorem refl (a : Shared) : Quiet a a := ⟨rfl, rfl, rfl, rfl, rfl, rfl, rfl⟩

theorem trans (h : Quiet a b) (k : Quiet b c) : Quiet a c :=
  ⟨k.clients.trans h.clients, k.fd.trans h.fd, k.accepted.trans h.accepted, k.proc.trans h.proc,
    k.fromPipe.trans h.fromPipe, k.closed.trans h.closed, k.books.trans h.books⟩

theorem note (a : Shared) {e : Event} (he : e.isOutput = true) : Quiet a (a.note e) := by
  refine ⟨rfl, rfl, rfl, rfl, rfl, rfl, ?_⟩
  simp [Shared.books, Shared.note, List.filter_append, he]

theorem feed (a : Shared) (c : Nat) (d : List UInt8) : Quiet a (a.feed c d) := by
  unfold Shared.feed
  split
  · exact refl a
  · exact ⟨rfl, rfl, rfl, rfl, rfl, rfl, rfl⟩

theorem pipeSend (a : Shared) (s : Slot) (m : Message) : Quiet a (a.pipeSend s m) := by
  unfold Shared.pipeSend
  split
  · exact (note a rfl).trans (feed _ _ _)
  · exact refl a

theorem readTo (a : Shared) (c : Nat) (rest : List UInt8) : Quiet a (a.readTo c rest) :=
  ⟨rfl, rfl, rfl, rfl, rfl, rfl, rfl⟩

theorem setHistory (a : Shared) (h : History) : Quiet a { a with history := h } :=
  ⟨rfl, rfl, rfl, rfl, rfl, rfl, rfl⟩

end Quiet

/-- The changes an act can make to the shared state. -/
inductive Change (sh : Shared) : Act → Shared → Prop
  | quiet {a : Act} {sh' : Shared} (h : Quiet sh sh') : Change sh a sh'
  | accept {fd : Nat} (hfree : sh.fd fd = none) : Change sh .accept (sh.accept fd)
  | openTo {s : Slot} {fd c : Nat} {p : Nat × Nat} (hp : sh.Fresh p) :
    Change sh (.pipes s fd c) (sh.openTo s c p)
  | openBoth {s : Slot} {fd c : Nat} {p q : Nat × Nat} (hp : sh.Fresh p)
    (hq : (sh.openTo s c p).Fresh q) :
    Change sh (.pipes s fd c) ((sh.openTo s c p).openFrom s c q)
  | start {s : Slot} {fd c pid : Nat} (hpid : pid ≠ 0) (hfree : sh.proc pid = none) :
    Change sh (.fork s fd c) (sh.start ⟨s, c, pid⟩)
  | storePid (k : Child) (fd : Nat) : Change sh (.storePid k fd) (sh.storePid k.slot k.pid)
  | closeEnds (k : Child) (fd : Nat) : Change sh (.closeEnds k fd) (sh.closeEnds k.slot)
  | closeFd (fd : Nat) : Change sh (.closeFd fd) (sh.close fd)
  | recv {s : Slot} {fd c : Nat} {reads : List Nat} {r : Option Message} {src : Channel.Source UInt8}
    (hc : sh.readEnd fd = some c)
    (hr : pipeRecv (sh.closed c) ⟨sh.fromPipe c, reads.map .chunk⟩ = some (r, src)) :
    Change sh (.recv s fd) (sh.readFrom c src.inbound)
  | drop (s : Slot) : Change sh (.drop s) (sh.release s)
  | route (s : Slot) (c : Nat) (m : Message) : Change sh (.route s c m) (sh.note (.routed s c m))
  | storeName (s : Slot) (u : List UInt8) :
    Change sh (.storeName s u) (sh.setEntry s ((sh.clients s).setName u))
  | activate (s : Slot) (u : List UInt8) :
    Change sh (.activate s u) (sh.setEntry s (sh.clients s).activate)
  | clear (s : Slot) : Change sh (.clear s) (sh.setEntry s (sh.clients s).clear)
  | setStatus (s : Slot) (m : Message) (status : Nat) :
    Change sh (.setStatus s m) (sh.setEntry s ((sh.clients s).setStatus status))
  | forward {k : Child} {m : Message} (hk : sh.closed k.conn = false) :
    Change sh (.forward k m) (sh.forward k.conn m)
  | exit {k : Child} (hk : sh.proc k.pid = some (.running k.conn)) :
    Change sh (.exit k) (sh.exit k)
  | reap {pid c : Nat} (hpid : sh.proc pid = some (.zombie c)) : Change sh .reap (sh.reap pid)

/-- Every act makes one of the changes. -/
theorem change_of_exec (h : exec t a i sh = some out) : Change sh a out.shared := by
  cases a <;> simp only [exec] at h
  case watch | findFreeSlot | check =>
    split at h
    · obtain rfl := goOn_inj h
      exact .quiet (.refl sh)
    · split at h <;> obtain rfl := goOn_inj h <;> exact .quiet (.refl sh)
  case select | checkName | validate | findTarget | fromClient =>
    split at h <;> obtain rfl := goOn_inj h <;> exact .quiet (.refl sh)
  case accept =>
    split at h
    · obtain rfl := goOn_inj h
      exact .quiet (.refl sh)
    · split at h
      · next hfree =>
        obtain rfl := goOn_inj h
        exact .accept hfree
      · cases h
  case refuse =>
    obtain rfl := goOn_inj h
    exact .quiet (.note sh rfl)
  case pipes s fd c =>
    split at h
    · obtain rfl := goOn_inj h
      exact .quiet (.refl sh)
    · split at h
      · next hp =>
        split at h
        · obtain rfl := goOn_inj h
          exact .openTo hp
        · split at h
          · next hq =>
            obtain rfl := goOn_inj h
            exact .openBoth hp hq
          · cases h
      · cases h
  case fork s fd c =>
    split at h
    · obtain rfl := goOn_inj h
      exact .quiet (.refl sh)
    · split at h
      · next hfree =>
        obtain rfl := Option.some.inj h
        exact .start hfree.1 hfree.2
      · cases h
  case recv s fd =>
    split at h
    · cases h
    · next c hc =>
      split at h
      · cases h
      · next m src hr =>
        obtain rfl := goOn_inj h
        exact .recv hc hr
      · next src hr =>
        obtain rfl := goOn_inj h
        exact .recv hc hr
  case notify | relay =>
    split at h
    · obtain rfl := goOn_inj h
      exact .quiet (.refl sh)
    · split at h <;> obtain rfl := goOn_inj h
      · exact .quiet (.pipeSend sh _ _)
      · exact .quiet (.refl sh)
  case saveHistory =>
    obtain rfl := goOn_inj h
    exact .quiet (.setHistory sh _)
  case pipeSend | reply =>
    obtain rfl := goOn_inj h
    exact .quiet (.pipeSend sh _ _)
  case fromParent k =>
    split at h
    · cases h
    · obtain rfl := goOn_inj h
      exact .quiet (.readTo sh _ _)
    · obtain rfl := goOn_inj h
      exact .quiet ((Quiet.readTo sh _ _).trans (.note _ rfl))
  case exit k =>
    split at h
    · next hk =>
      obtain rfl := goOn_inj h
      exact .exit hk
    · cases h
  case reap =>
    split at h
    · cases h
    · split at h
      · next c hpid =>
        obtain rfl := goOn_inj h
        exact .reap hpid
      · cases h
  case storePid k fd =>
    obtain rfl := goOn_inj h
    exact .storePid k fd
  case closeEnds k fd =>
    obtain rfl := goOn_inj h
    exact .closeEnds k fd
  case closeFd fd =>
    obtain rfl := goOn_inj h
    exact .closeFd fd
  case drop s =>
    obtain rfl := goOn_inj h
    exact .drop s
  case route s c m =>
    obtain rfl := goOn_inj h
    exact .route s c m
  case storeName s u =>
    obtain rfl := goOn_inj h
    exact .storeName s u
  case activate s u =>
    obtain rfl := goOn_inj h
    exact .activate s u
  case clear s =>
    obtain rfl := goOn_inj h
    exact .clear s
  case setStatus s m =>
    obtain rfl := goOn_inj h
    exact .setStatus s m _
  case forward k m =>
    split at h
    · obtain rfl := goOn_inj h
      exact .quiet (.refl sh)
    · next hk =>
      obtain rfl := goOn_inj h
      exact .forward (by simpa using hk)
  all_goals
    obtain rfl := goOn_inj h
    exact .quiet (.refl sh)

end ChatSystem.Fork
