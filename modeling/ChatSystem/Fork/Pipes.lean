import ChatSystem.Fork.Slots

/-!
# Messages of the children

What a child has written is, in order, what the parent has routed, what it has just read
and what the pipe still holds. A slot that is cleared at the end of its pipe has had all
of it routed; a slot the handler clears may not.
-/

namespace ChatSystem.Fork

open Bytes Channel Tasks Transition

/-- The message a child of the connection wrote. -/
def Event.forwardedBy (c : Nat) : Event → Option Message
  | .forwarded c' m => if c' = c then some m else none
  | _ => none

/-- The message routed for the connection. -/
def Event.routedFrom (c : Nat) : Event → Option Message
  | .routed _ c' m => if c' = c then some m else none
  | _ => none

/-- The messages written to the `from_child` pipe of a connection. -/
def Shared.forwardedOf (sh : Shared) (c : Nat) : List Message :=
  sh.books.filterMap (Event.forwardedBy c)

/-- The messages of a connection passed to `route_message`. -/
def Shared.routedOf (sh : Shared) (c : Nat) : List Message :=
  sh.books.filterMap (Event.routedFrom c)

/-- The message of a connection that an act has still to route. -/
def Act.holding (c : Nat) : Act → List Message
  | .route _ c' m => if c' = c then [m] else []
  | _ => []

/-- The message of a connection the parent has read and not routed yet. -/
def inHand (c : Nat) : Code → List Message
  | .act a :: _ => a.holding c
  | _ => []

/-- No message is lost: what was written is routed in order for the child's own slot, or in
the parent's hand, or in the pipe; and all of it was routed when the slot was cleared. -/
structure NothingLost (st : State) : Prop where
  kept : ∀ c, ∃ rest : List Message, st.shared.fromPipe c = (rest.map packMessage).flatten ∧
    (st.shared.forwardedOf c).map canonical =
      st.shared.routedOf c ++ inHand c (st.todo .parent) ++ rest.map canonical
  complete : ∀ s c, .released s (some c) ∈ st.shared.books →
    (st.shared.forwardedOf c).map canonical = st.shared.routedOf c
  slot : ∀ s c m, .routed s c m ∈ st.shared.books → ∃ pid, .forked ⟨s, c, pid⟩ ∈ st.shared.books

/-- The handler clears a slot only when its pipe is empty and no message read from it is
still to be routed. -/
def Drained (st : State) (l : Tid × Input) : Prop :=
  ∀ pid s c, l.1 = .sigchld → l.2.pid = some pid → st.shared.findPid pid = some s →
    st.shared.connOf s = some c →
    st.shared.fromPipe c = [] ∧ inHand c (st.todo .parent) = []

variable {t : Tid} {a b : Act} {i : Input} {sh sh' : Shared} {out : Outcome Empty Tid Act Shared}

/-! ## Pipes hold frames -/

/-- The bytes in the pipes of the children are complete frames. -/
def Framed (sh : Shared) : Prop :=
  ∀ c, ∃ ms : List Message, sh.fromPipe c = (ms.map packMessage).flatten

/-- No process has the number `0`. -/
def Numbered (sh : Shared) : Prop := sh.proc 0 = none

theorem Numbered.keeps (hN : Numbered sh) (hc : Change sh a sh') : Numbered sh' := by
  cases hc with
  | quiet h => exact (congrFun h.proc 0).trans hN
  | @start s fd c pid hpid hfree =>
    exact (Function.update_of_ne (Ne.symm hpid) ..).trans hN
  | @exit k hk =>
    have hne : (0 : Nat) ≠ k.pid := by
      intro he
      rw [← he, hN] at hk
      cases hk
    exact (Function.update_of_ne hne ..).trans hN
  | @reap pid c hpid =>
    have hne : (0 : Nat) ≠ pid := by
      rintro rfl
      rw [hN] at hpid
      cases hpid
    rcases reap_cases sh pid with ⟨-, he⟩ | ⟨s, -, -, he⟩
    · rw [he]
      exact (Function.update_of_ne hne ..).trans hN
    · rw [he]
      exact (Function.update_of_ne hne ..).trans hN
  | _ => exact hN

theorem flatten_packMessage_eq_nil {ms : List Message} (h : (ms.map packMessage).flatten = []) :
    ms = [] := by
  cases ms with
  | nil => rfl
  | cons m ms =>
    have := congrArg List.length h
    simp only [List.map_cons, List.flatten_cons, List.length_append, length_packMessage,
      headerSize, List.length_nil] at this
    omega

/-- Reading from a pipe of frames. -/
theorem pipeRecv_frames {closed : Bool} {ms : List Message} {reads : List Nat}
    {r : Option Message} {src : Source UInt8}
    (h : pipeRecv closed ⟨(ms.map packMessage).flatten, reads.map .chunk⟩ = some (r, src)) :
    (ms = [] ∧ closed = true ∧ r = none ∧ src.inbound = []) ∨
    ∃ m ms', ms = m :: ms' ∧ r = some (canonical m) ∧
      src.inbound = (ms'.map packMessage).flatten := by
  cases ms with
  | nil =>
    obtain ⟨h1, h2, h3⟩ := pipeRecv_nil h
    exact Or.inl ⟨rfl, h1, h2, h3⟩
  | cons m ms =>
    obtain ⟨src', hsrc, hread⟩ := pipeRecv_packMessage closed m (ms.map packMessage).flatten reads
    rw [List.map_cons, List.flatten_cons, hread] at h
    obtain ⟨rfl, rfl⟩ := Prod.mk.inj (Option.some.inj h)
    exact Or.inr ⟨m, ms, rfl, rfl, hsrc⟩

theorem Framed.keeps (hF : Framed sh) (hc : Change sh a sh') : Framed sh' := by
  have hreap : ∀ pid, (sh.reap pid).fromPipe = sh.fromPipe := by
    intro pid
    rcases reap_cases sh pid with ⟨-, he⟩ | ⟨s, -, -, he⟩
    · rw [he]
    · rw [he]
      rfl
  cases hc with
  | quiet h =>
    intro c
    rw [h.fromPipe]
    exact hF c
  | @recv s fd c reads r src hc hr =>
    intro c'
    by_cases he : c' = c
    · subst he
      obtain ⟨ms, hms⟩ := hF c'
      rw [hms] at hr
      change ∃ ms : List Message, Function.update sh.fromPipe c' src.inbound c' = _
      rw [Function.update_self]
      rcases pipeRecv_frames hr with ⟨-, -, -, hsrc⟩ | ⟨m, ms', -, -, hsrc⟩
      · exact ⟨[], hsrc⟩
      · exact ⟨ms', hsrc⟩
    · change ∃ ms : List Message, Function.update sh.fromPipe c src.inbound c' = _
      rw [Function.update_of_ne he]
      exact hF c'
  | @forward k m hk =>
    intro c
    change ∃ ms : List Message, Function.update sh.fromPipe k.conn _ c = _
    by_cases he : c = k.conn
    · subst he
      obtain ⟨ms, hms⟩ := hF k.conn
      refine ⟨ms ++ [m], ?_⟩
      rw [Function.update_self, hms]
      simp
    · rw [Function.update_of_ne he]
      exact hF c
  | reap hpid =>
    intro c
    rw [hreap]
    exact hF c
  | _ => exact hF

/-! ## What the parent knows while it reads -/

/-- The assertion in front of the reading of a slot's pipe and what follows it. -/
def Reading : Act → Shared → Prop
  | .recv s fd, sh => ∃ k : Child, k.slot = s ∧ .forked k ∈ sh.books ∧
      sh.fd fd = some (.fromRead k.conn) ∧ (sh.clients s).fromChild.1 = fd
  | .route s c _, sh => ∃ pid, .forked ⟨s, c, pid⟩ ∈ sh.books
  | .drop s, sh => ∃ c, sh.connOf s = some c ∧ sh.closed c = true ∧ sh.fromPipe c = []
  | _, _ => True

theorem Async.fromChild (h : Async sh sh') (s : Slot) :
    (sh'.clients s).fromChild = (sh.clients s).fromChild := by
  rcases h.client s with he | he <;> rw [he]

theorem Async.connOf (h : Async sh sh') (s : Slot) : sh'.connOf s = sh.connOf s := by
  simp only [Shared.connOf, Shared.readEnd, h.fd, h.fromChild]

theorem Async.reading (h : Async sh sh') (hb : Reading b sh) : Reading b sh' := by
  cases b with
  | recv s fd =>
    obtain ⟨k, hs, hk, hfd, hc⟩ := hb
    refine ⟨k, hs, (h.forked k).mpr hk, ?_, ?_⟩
    · rw [h.fd]
      exact hfd
    · rw [h.fromChild]
      exact hc
  | route s c m =>
    obtain ⟨pid, hk⟩ := hb
    exact ⟨pid, (h.forked _).mpr hk⟩
  | drop s =>
    obtain ⟨c, hc, hcl, hp⟩ := hb
    exact ⟨c, (h.connOf s).trans hc, h.closed c hcl, (h.fromPipe c hcl).trans hp⟩
  | _ => trivial

theorem reading_route (sh sh' : Shared) (s : Slot) (m : Message) :
    ∀ b ∈ sh.route s m, Reading b sh' := by
  unfold Shared.route
  split
  · unfold Shared.login
    split <;> simp [Reading]
  · simp [Shared.logout, Reading]
  · unfold Shared.broadcast
    split <;> simp [Reading]
  · unfold Shared.priv
    split <;> simp [Reading]
  all_goals simp [Reading]

/-- The acts that read assert what they leave to do. -/
theorem reading_next (h : exec t a i sh = some out) (hI : Linked sh) (hF : Framed sh)
    (hpre : Reading a sh) : Outlined Reading out.shared out.next := by
  cases a <;> simp only [exec] at h
  case check slots rfds =>
    split at h
    · obtain rfl := goOn_inj h
      exact outlined_singleton trivial
    · next s slots =>
      split at h
      · next hs =>
        obtain rfl := goOn_inj h
        obtain ⟨c, hc, hk, -⟩ := hI.holder s hs.1.ne'
        exact outlined_cons ⟨_, rfl, hk, connOf_eq_some.mp hc, rfl⟩ (by simp [Reading])
      · obtain rfl := goOn_inj h
        exact outlined_singleton trivial
  case recv s fd =>
    obtain ⟨k, hs, hk, hfd, hfrom⟩ := hpre
    have hread : sh.readEnd fd = some k.conn := by
      rw [Shared.readEnd, hfd]
    rw [hread] at h
    obtain ⟨ms, hms⟩ := hF k.conn
    simp only at h
    split at h
    · cases h
    · next m src hr =>
      obtain rfl := goOn_inj h
      refine outlined_singleton ⟨k.pid, ?_⟩
      rw [← hs]
      exact hk
    · next src hr =>
      obtain rfl := goOn_inj h
      rw [hms] at hr
      rcases pipeRecv_frames hr with ⟨-, hcl, -, hsrc⟩ | ⟨m, ms', -, hr, -⟩
      · refine outlined_singleton ⟨k.conn, ?_, hcl, ?_⟩
        · change sh.connOf s = _
          rw [connOf_eq_some, hfrom]
          exact hfd
        · exact (Function.update_self ..).trans hsrc
      · cases hr
  case route s c m =>
    obtain rfl := goOn_inj h
    exact outlined_of_trivial fun b hb s' => reading_route sh s' s m b hb
  all_goals
    repeat' split at h
    all_goals cases h
    all_goals exact outlined_of_trivial (by simp [Reading, mainLoop])

theorem reading_of_other (b : Act) (s : Shared) (hb : b.owner ≠ .parent) : Reading b s := by
  cases b with
  | bridge | fromClient | farewell | forward | fromParent | exit | reap => trivial
  | _ => exact absurd rfl hb

/-- The parent reads slots of children, and the other processes respect it. -/
theorem readings : Outline (fun a sh => Setup a sh ∧ Reading a sh) (fun _ _ => True)
    (fun a b => a.owner ≠ b.owner) exec fun sh => Linked sh ∧ Framed sh ∧ Numbered sh where
  keeps := by
    rintro t a i sh out h ⟨hL, hF, hN⟩ ⟨hset, -⟩ -
    have hc := change_of_exec h
    exact ⟨hL.keeps hc hset, hF.keeps hc, hN.keeps hc⟩
  next := by
    rintro t a i sh out h ⟨hL, hF, -⟩ ⟨hset, hpre⟩ -
    exact outlined_and.mpr ⟨setup_next h hL hset, reading_next h hL hF hpre⟩
  spawn := by
    intro t a i sh out t' p h hp b hb s
    obtain ⟨s', fd, c, pid, -, -, rfl, -⟩ := spawn_eq_some h hp
    refine ⟨setup_bridge _ b hb s, ?_⟩
    rw [eq_of_mem_code hb]
    trivial
  frame h _ _ _ hb hapart :=
    ⟨frame_of_async setup_of_other Async.setup h hb.1 hapart,
      frame_of_async reading_of_other Async.reading h hb.2 hapart⟩

/-! ## Accounts -/

/-- The accounts of the connections, with the messages of each in the parent's hand. -/
structure Balanced (sh : Shared) (hand : Nat → List Message) : Prop where
  pending : ∀ c, ∃ done rest : List Message, sh.forwardedOf c = done ++ rest ∧
    done.map canonical = sh.routedOf c ++ hand c ∧
    sh.fromPipe c = (rest.map packMessage).flatten
  gone : ∀ s c, .released s (some c) ∈ sh.books →
    sh.closed c = true ∧ sh.fromPipe c = [] ∧ hand c = []
  slot : ∀ s c m, .routed s c m ∈ sh.books → ∃ pid, .forked ⟨s, c, pid⟩ ∈ sh.books

variable {hand : Nat → List Message} {e : Event}

theorem forwardedOf_note (he : e.isOutput = false) (c : Nat) :
    (sh.note e).forwardedOf c = sh.forwardedOf c ++ (e.forwardedBy c).toList := by
  rw [Shared.forwardedOf, books_note sh he, List.filterMap_append]
  cases h : e.forwardedBy c <;> simp [h, Shared.forwardedOf]

theorem routedOf_note (he : e.isOutput = false) (c : Nat) :
    (sh.note e).routedOf c = sh.routedOf c ++ (e.routedFrom c).toList := by
  rw [Shared.routedOf, books_note sh he, List.filterMap_append]
  cases h : e.routedFrom c <;> simp [h, Shared.routedOf]

/-- Nothing of a pipe's accounts changes. -/
theorem Balanced.congr (hB : Balanced sh hand) (hbooks : sh'.books = sh.books)
    (hpipe : sh'.fromPipe = sh.fromPipe) (hclosed : ∀ c, sh.closed c = true → sh'.closed c = true) :
    Balanced sh' hand := by
  refine ⟨fun c => ?_, fun s c h => ?_, fun s c m h => ?_⟩
  · rw [Shared.forwardedOf, Shared.routedOf, hbooks, hpipe]
    exact hB.pending c
  · rw [hbooks] at h
    obtain ⟨h1, h2, h3⟩ := hB.gone s c h
    refine ⟨hclosed c h1, ?_, h3⟩
    rw [hpipe]
    exact h2
  · rw [hbooks] at h ⊢
    exact hB.slot s c m h

/-- The creation of a child, or the release of a slot whose messages are all routed. -/
theorem Balanced.note (hB : Balanced sh hand) (he : e.isOutput = false)
    (hf : ∀ c, e.forwardedBy c = none) (hr : ∀ s c m, e ≠ .routed s c m)
    (hrel : ∀ s c, e = .released s (some c) →
      sh.closed c = true ∧ sh.fromPipe c = [] ∧ hand c = []) : Balanced (sh.note e) hand := by
  have hr' : ∀ c, e.routedFrom c = none := by
    intro c
    cases e with
    | routed s c' m => exact absurd rfl (hr s c' m)
    | _ => rfl
  refine ⟨fun c => ?_, fun s c h => ?_, fun s c m h => ?_⟩
  · rw [forwardedOf_note he, routedOf_note he, hf, hr', Option.toList_none, List.append_nil,
      List.append_nil]
    exact hB.pending c
  · rw [books_note sh he, List.mem_append, List.mem_singleton] at h
    rcases h with h | h
    · exact hB.gone s c h
    · exact hrel s c h.symm
  · rw [books_note sh he, List.mem_append, List.mem_singleton] at h
    rcases h with h | h
    · obtain ⟨pid, hk⟩ := hB.slot s c m h
      rw [books_note sh he]
      exact ⟨pid, List.mem_append_left _ hk⟩
    · exact absurd h.symm (hr s c m)

/-- A child whose ends are open writes a message. -/
theorem Balanced.forward (hB : Balanced sh hand) {c : Nat} (hc : sh.closed c = false)
    (m : Message) : Balanced (sh.forward c m) hand := by
  have hpipe : ∀ c', c' ≠ c → (sh.forward c m).fromPipe c' = sh.fromPipe c' :=
    fun c' hne => Function.update_of_ne hne ..
  have hfwd : ∀ c', (sh.forward c m).forwardedOf c' =
      sh.forwardedOf c' ++ (Event.forwardedBy c' (.forwarded c m)).toList :=
    fun c' => forwardedOf_note rfl c'
  have hrouted : ∀ c', (sh.forward c m).routedOf c' = sh.routedOf c' :=
    fun c' => (routedOf_note rfl c').trans (List.append_nil _)
  have hbooks : (sh.forward c m).books = sh.books ++ [.forwarded c m] := books_note _ rfl
  refine ⟨fun c' => ?_, fun s c' h => ?_, fun s c' m' h => ?_⟩
  · obtain ⟨done, rest, h1, h2, h3⟩ := hB.pending c'
    rw [hfwd, hrouted]
    by_cases hne : c' = c
    · subst hne
      refine ⟨done, rest ++ [m], ?_, h2, ?_⟩
      · simp [Event.forwardedBy, h1]
      · change Function.update sh.fromPipe c' _ c' = _
        rw [Function.update_self, h3]
        simp
    · refine ⟨done, rest, ?_, h2, (hpipe c' hne).trans h3⟩
      simp [Event.forwardedBy, Ne.symm hne, h1]
  · rw [hbooks, List.mem_append, List.mem_singleton] at h
    obtain ⟨h1, h2, h3⟩ := hB.gone s c' (h.resolve_right (by simp))
    have hne : c' ≠ c := by
      rintro rfl
      rw [hc] at h1
      cases h1
    exact ⟨h1, (hpipe c' hne).trans h2, h3⟩
  · rw [hbooks, List.mem_append, List.mem_singleton] at h
    obtain ⟨pid, hk⟩ := hB.slot s c' m' (h.resolve_right (by simp))
    rw [hbooks]
    exact ⟨pid, List.mem_append_left _ hk⟩

/-- The parent passes the message in its hand to `route_message`. -/
theorem Balanced.route {s : Slot} {c : Nat} {m : Message}
    (hB : Balanced sh fun c' => (Act.route s c m).holding c')
    (hslot : ∃ pid, .forked ⟨s, c, pid⟩ ∈ sh.books) :
    Balanced (sh.note (.routed s c m)) fun _ => [] := by
  have hbooks : (sh.note (.routed s c m)).books = sh.books ++ [.routed s c m] := books_note _ rfl
  refine ⟨fun c' => ?_, fun s' c' h => ?_, fun s' c' m' h => ?_⟩
  · obtain ⟨done, rest, h1, h2, h3⟩ := hB.pending c'
    refine ⟨done, rest, ?_, ?_, h3⟩
    · rw [forwardedOf_note rfl, h1]
      exact List.append_nil _
    · rw [routedOf_note rfl, h2, List.append_nil]
      by_cases hne : c = c'
      · simp [Event.routedFrom, Act.holding, hne]
      · simp [Event.routedFrom, Act.holding, hne]
  · rw [hbooks, List.mem_append, List.mem_singleton] at h
    obtain ⟨h1, h2, -⟩ := hB.gone s' c' (h.resolve_right (by simp))
    exact ⟨h1, h2, rfl⟩
  · rw [hbooks, List.mem_append, List.mem_singleton] at h
    rw [hbooks]
    rcases h with h | h
    · obtain ⟨pid, hk⟩ := hB.slot s' c' m' h
      exact ⟨pid, List.mem_append_left _ hk⟩
    · obtain ⟨rfl, rfl, rfl⟩ := Event.routed.inj h
      obtain ⟨pid, hk⟩ := hslot
      exact ⟨pid, List.mem_append_left _ hk⟩

/-- The parent reads from a pipe: a message into its hand, or the end. -/
theorem Balanced.recv {s : Slot} {c : Nat} {reads : List Nat} {r : Option Message}
    {src : Source UInt8} (hB : Balanced sh fun _ => [])
    (hr : pipeRecv (sh.closed c) ⟨sh.fromPipe c, reads.map .chunk⟩ = some (r, src)) :
    Balanced (sh.readFrom c src.inbound)
      fun c' => (r.map (Act.route s c)).elim [] (Act.holding c') := by
  obtain ⟨done, rest, h1, h2, h3⟩ := hB.pending c
  rw [h3] at hr
  have hother : ∀ c', c' ≠ c → (sh.readFrom c src.inbound).fromPipe c' = sh.fromPipe c' :=
    fun c' hne => Function.update_of_ne hne ..
  have hself : (sh.readFrom c src.inbound).fromPipe c = src.inbound := Function.update_self ..
  have hhold : ∀ c', c' ≠ c → (r.map (Act.route s c)).elim [] (Act.holding c') = [] := by
    intro c' hne
    cases r with
    | none => rfl
    | some m => simp [Act.holding, Ne.symm hne]
  refine ⟨fun c' => ?_, fun s' c' h => ?_, hB.slot⟩
  · by_cases hne : c' = c
    · subst hne
      rcases pipeRecv_frames hr with ⟨rfl, -, rfl, hsrc⟩ | ⟨m, ms, rfl, rfl, hsrc⟩
      · exact ⟨done, [], h1, h2, hself.trans hsrc⟩
      · refine ⟨done ++ [m], ms, ?_, ?_, hself.trans hsrc⟩
        · exact h1.trans (by simp)
        · rw [List.append_nil] at h2
          rw [List.map_append, h2]
          simp [Act.holding, Shared.routedOf, Shared.books, Shared.readFrom]
    · obtain ⟨done', rest', k1, k2, k3⟩ := hB.pending c'
      refine ⟨done', rest', k1, ?_, (hother c' hne).trans k3⟩
      rw [hhold c' hne]
      exact k2
  · obtain ⟨k1, k2, -⟩ := hB.gone s' c' h
    by_cases hne : c' = c
    · subst hne
      rw [k2] at h3
      rcases pipeRecv_frames hr with ⟨-, -, rfl, hsrc⟩ | ⟨m, ms, rfl, -, -⟩
      · exact ⟨k1, hself.trans hsrc, rfl⟩
      · cases flatten_packMessage_eq_nil h3.symm
    · exact ⟨k1, (hother c' hne).trans k2, hhold c' hne⟩

/-- The handler clears a slot whose pipe is empty and has nothing in the parent's hand. -/
theorem Balanced.reap {pid c : Nat} (hB : Balanced sh hand) (hL : Linked sh) (hN : Numbered sh)
    (hpid : sh.proc pid = some (.zombie c))
    (hok : ∀ s c, sh.findPid pid = some s → sh.connOf s = some c →
      sh.fromPipe c = [] ∧ hand c = []) : Balanced (sh.reap pid) hand := by
  rcases reap_cases sh pid with ⟨-, he⟩ | ⟨s, hfind, hs, he⟩ <;> rw [he]
  · exact hB.congr rfl rfl fun _ hc => hc
  · have hne : (sh.clients s).pid ≠ 0 := by
      rintro h0
      rw [← hs, h0, hN] at hpid
      cases hpid
    obtain ⟨c', hconn, -, hend⟩ := hL.holder s hne
    have hclosed : sh.closed c' = true := by
      rcases hend with hend | hend
      · rw [hs, hpid] at hend
        cases hend
      · exact hend
    have hrel : Balanced (sh.release s) hand := by
      have hset : Balanced (sh.setClient s
          { sh.clients s with toEntry := (sh.clients s).clear, pid := 0 }) hand :=
        hB.congr rfl rfl fun _ hc => hc
      refine hset.note rfl (fun _ => rfl) (by simp) fun s' d hd => ?_
      obtain ⟨-, hd⟩ := Event.released.inj hd
      obtain rfl := Option.some.inj (hconn.symm.trans hd)
      obtain ⟨hempty, hhand⟩ := hok s c' hfind hconn
      exact ⟨hclosed, hempty, hhand⟩
    exact hrel.congr rfl rfl fun _ hc => hc

/-- The other acts: those of the parent have nothing in hand. -/
theorem Balanced.change (hB : Balanced sh hand) (hc : Change sh a sh') (hpre : Reading a sh)
    (hhand : a.owner = .parent → ∀ c, hand c = []) (hrecv : ∀ s fd, a ≠ .recv s fd)
    (hroute : ∀ s c m, a ≠ .route s c m) (hreap : a ≠ .reap) : Balanced sh' hand := by
  cases hc with
  | quiet h => exact hB.congr h.books h.fromPipe fun c hc => by rw [h.closed]; exact hc
  | @start s fd c pid hpid hfree =>
    have hproc : Balanced { sh with proc := Function.update sh.proc pid (some (.running c)) }
        hand := hB.congr rfl rfl fun _ hc => hc
    exact hproc.note rfl (fun _ => rfl) (by simp) (by simp)
  | recv hc hr => exact absurd rfl (hrecv _ _)
  | drop s =>
    obtain ⟨c, hconn, hclosed, hempty⟩ := hpre
    have hset : Balanced (sh.setClient s
        { sh.clients s with toEntry := (sh.clients s).clear, pid := 0 }) hand :=
      hB.congr rfl rfl fun _ hc => hc
    refine hset.note rfl (fun _ => rfl) (by simp) fun s' d hd => ?_
    obtain ⟨-, hd⟩ := Event.released.inj hd
    obtain rfl := Option.some.inj (hconn.symm.trans hd)
    exact ⟨hclosed, hempty, hhand rfl c⟩
  | route s c m => exact absurd rfl (hroute s c m)
  | forward hk => exact hB.forward hk _
  | @exit k hk =>
    refine hB.congr rfl rfl fun c hc => ?_
    by_cases he : c = k.conn
    · subst he
      exact Function.update_self ..
    · exact (Function.update_of_ne he ..).trans hc
  | reap hpid => exact absurd rfl hreap
  | _ => exact hB.congr rfl rfl fun _ hc => hc

/-! ## Every interleaving -/

variable {st st' : State} {l : Tid × Input} {history : History}

/-- An act behind the one in front holds no message. -/
theorem holding_of_plain (h : ∀ s, Reading a s) (c : Nat) : a.holding c = [] := by
  cases a with
  | route s c' m =>
    obtain ⟨pid, hk⟩ := h (.init fun _ => none)
    cases hk
  | _ => rfl

/-- What the expansion of an act leaves in the parent's hand. -/
theorem inHand_append {p q : Code} (hq : ∀ a, .act a ∈ q → ∀ s, Reading a s) (c : Nat) :
    inHand c (p ++ q) = inHand c p := by
  cases p with
  | nil =>
    cases q with
    | nil => rfl
    | cons x q =>
      cases x with
      | act a => exact holding_of_plain (hq a List.mem_cons_self) c
      | lock k => cases k
      | unlock k => cases k
  | cons x p => cases x <;> rfl

/-- Only reading leaves a message in the parent's hand. -/
theorem inHand_next (h : exec t a i sh = some out) (ha : ∀ s fd, a ≠ .recv s fd) (c : Nat) :
    inHand c out.next = [] := by
  cases a <;> simp only [exec] at h
  case recv s fd => exact absurd rfl (ha s fd)
  case route s c' m =>
    obtain rfl := goOn_inj h
    exact inHand_append (p := code []) (fun b hb s' => reading_route sh s' s m b (mem_code.mp hb)) c
  all_goals
    repeat' split at h
    all_goals cases h
    all_goals rfl

/-- The acts ahead and the assertions of the readers. -/
structure InReading (st : State) : Prop where
  owned : Owned st
  linked : Linked st.shared
  framed : Framed st.shared
  numbered : Numbered st.shared
  outlined : ∀ t, Outlined (fun a sh => Setup a sh ∧ Reading a sh) st.shared (st.todo t)

theorem inReading_init (history : History) : InReading (init history) := by
  have h := inLinks_init history
  refine ⟨h.owned, h.linked, fun c => ⟨[], rfl⟩, rfl, fun t => outlined_and.mpr ⟨h.setup t, ?_⟩⟩
  cases t with
  | parent => exact outlined_singleton trivial
  | sigchld => exact outlined_singleton trivial
  | child k => exact outlined_nil _

theorem InReading.step (h : InReading st) (hs : Fork.step st l = some st') : InReading st' := by
  obtain ⟨⟨hL, hF, hN⟩, hout⟩ := readings.step ⟨h.linked, h.framed, h.numbered⟩ h.outlined
    (fun hne ha hb => h.owned.apart hne ha hb) (fun _ _ _ => trivial) hs
  exact ⟨h.owned.step hs, hL, hF, hN, hout⟩

theorem inReading_of_reachable (h : Reachable step (init history) st) : InReading st :=
  h.invariant (inReading_init history) fun _ _ _ hi hs => hi.step hs

/-- The acts ahead, the assertions and the accounts, together. -/
structure InBalance (st : State) : Prop where
  owned : Owned st
  linked : Linked st.shared
  framed : Framed st.shared
  numbered : Numbered st.shared
  outlined : ∀ t, Outlined (fun a sh => Setup a sh ∧ Reading a sh) st.shared (st.todo t)
  balanced : Balanced st.shared fun c => inHand c (st.todo .parent)

theorem InBalance.inReading (h : InBalance st) : InReading st :=
  ⟨h.owned, h.linked, h.framed, h.numbered, h.outlined⟩

theorem InReading.inBalance (h : InReading st)
    (hB : Balanced st.shared fun c => inHand c (st.todo .parent)) : InBalance st :=
  ⟨h.owned, h.linked, h.framed, h.numbered, h.outlined, hB⟩

theorem inBalance_init (history : History) : InBalance (init history) := by
  refine (inReading_init history).inBalance ⟨fun c => ⟨[], [], rfl, rfl, rfl⟩, fun s c h => ?_,
    fun s c m h => ?_⟩
  · cases h
  · cases h

/-- No process starts the parent again. -/
theorem started_parent (h : exec t a i sh = some out) : started .parent out.spawn = [] := by
  rcases started_cases (.parent : Tid) out.spawn with hp | hp
  · exact hp
  · obtain ⟨s, fd, c, pid, -, hk, -⟩ := spawn_eq_some h hp
    cases hk

/-- A step of the parent. -/
theorem InBalance.balanced_parent (h : InBalance st) {rest : Code}
    (htodo : st.todo .parent = .act a :: rest) (hexec : exec .parent a i st.shared = some out) :
    Balanced out.shared fun c => inHand c (out.next ++ rest) := by
  have hout := h.outlined .parent
  rw [htodo] at hout
  obtain ⟨-, hread⟩ := hout.1 a rfl
  have hown : a.owner = .parent := h.owned .parent a (htodo ▸ List.mem_cons_self)
  have hB : Balanced st.shared fun c => a.holding c := by
    have := h.balanced
    rwa [htodo] at this
  have hnext : (fun c => inHand c (out.next ++ rest)) = fun c => inHand c out.next := by
    ext1 c
    exact inHand_append (fun b hb s => (hout.2 b hb s).2) c
  rw [hnext]
  by_cases hrecv : ∃ s fd, a = .recv s fd
  · obtain ⟨s, fd, rfl⟩ := hrecv
    simp only [exec] at hexec
    split at hexec
    · cases hexec
    · next c hc =>
      split at hexec
      · cases hexec
      · next m src hr =>
        obtain rfl := goOn_inj hexec
        exact hB.recv hr
      · next src hr =>
        obtain rfl := goOn_inj hexec
        exact hB.recv (s := s) hr
  · have hnot : ∀ s fd, a ≠ .recv s fd := fun s fd he => hrecv ⟨s, fd, he⟩
    have hempty : (fun c => inHand c out.next) = fun _ => [] := by
      ext1 c
      exact inHand_next hexec hnot c
    rw [hempty]
    by_cases hroute : ∃ s c m, a = .route s c m
    · obtain ⟨s, c, m, rfl⟩ := hroute
      obtain rfl := goOn_inj hexec
      exact hB.route hread
    · have hnot' : ∀ s c m, a ≠ .route s c m := fun s c m he => hroute ⟨s, c, m, he⟩
      have hhold : (fun c => a.holding c) = fun _ => [] := by
        ext1 c
        cases a with
        | route s c m => exact absurd rfl (hnot' s c m)
        | _ => rfl
      rw [hhold] at hB
      refine hB.change (change_of_exec hexec) hread (fun _ _ => rfl) hnot hnot' ?_
      rintro rfl
      cases hown

/-- A step of a child or of the handler. -/
theorem InBalance.balanced_other (h : InBalance st) (hok : Drained st l) (hl : l.1 ≠ .parent)
    {rest : Code} (htodo : st.todo l.1 = .act a :: rest)
    (hexec : exec l.1 a l.2 st.shared = some out) :
    Balanced out.shared fun c => inHand c (st.todo .parent) := by
  have hout := h.outlined l.1
  rw [htodo] at hout
  obtain ⟨-, hread⟩ := hout.1 a rfl
  have hown : a.owner = l.1 := h.owned l.1 a (htodo ▸ List.mem_cons_self)
  by_cases hreap : a = .reap
  · subst hreap
    simp only [exec] at hexec
    split at hexec
    · cases hexec
    · next pid hpid =>
      split at hexec
      · next c hz =>
        obtain rfl := goOn_inj hexec
        exact h.balanced.reap h.linked h.numbered hz fun s c hs hc => hok pid s c hown.symm hpid hs hc
      · cases hexec
  · refine h.balanced.change (change_of_exec hexec) hread (fun ha => ?_) (fun s fd he => ?_)
      (fun s c m he => ?_) hreap
    · exact absurd (hown.symm.trans ha) hl
    · subst he
      exact absurd hown.symm hl
    · subst he
      exact absurd hown.symm hl

theorem InBalance.step (h : InBalance st) (hok : Drained st l) (hs : Fork.step st l = some st') :
    InBalance st' := by
  refine (h.inReading.step hs).inBalance ?_
  obtain ⟨a, rest, out, htodo, hexec, rfl⟩ := step_act hs
  have hwork : (st.perform l.1 rest out).todo .parent =
      if Tid.parent = l.1 then out.next ++ rest else st.todo .parent := by
    simp only [State.perform, started_parent hexec, List.append_nil]
  rw [hwork]
  by_cases hl : Tid.parent = l.1
  · rw [if_pos hl]
    rw [← hl] at htodo hexec
    exact h.balanced_parent htodo hexec
  · rw [if_neg hl]
    exact h.balanced_other hok (Ne.symm hl) htodo hexec

/-- The accounts, settled. -/
theorem InBalance.nothingLost (h : InBalance st) : NothingLost st := by
  refine ⟨fun c => ?_, fun s c hrel => ?_, h.balanced.slot⟩
  · obtain ⟨done, rest, h1, h2, h3⟩ := h.balanced.pending c
    refine ⟨rest, h3, ?_⟩
    rw [h1, List.map_append, h2]
  · obtain ⟨done, rest, h1, h2, h3⟩ := h.balanced.pending c
    obtain ⟨-, hempty, hhand⟩ := h.balanced.gone s c hrel
    rw [hempty] at h3
    have hrest : rest = [] := flatten_packMessage_eq_nil h3.symm
    simp only [hhand, List.append_nil] at h2
    rw [h1, hrest, List.append_nil, h2]

/-- A slot cleared too early loses messages at once. -/
theorem InBalance.not_nothingLost (h : InBalance st) (hlate : ¬ Drained st l)
    (hs : Fork.step st l = some st') : ¬ NothingLost st' := by
  intro hlost
  refine hlate fun pid s c hl hpid hfind hconn => ?_
  obtain ⟨a, rest, out, htodo, hexec, rfl⟩ := step_act hs
  have hown : a.owner = l.1 := h.owned l.1 a (htodo ▸ List.mem_cons_self)
  obtain rfl : a = .reap := by
    rw [hl] at hown
    cases a <;> cases hown
    rfl
  simp only [exec, hpid] at hexec
  split at hexec
  · next d hz =>
    obtain rfl := goOn_inj hexec
    have hrelease : st.shared.reap pid = { st.shared.release s with
        proc := Function.update (st.shared.release s).proc pid none } := by
      rcases reap_cases st.shared pid with ⟨hnone, -⟩ | ⟨s', hs', -, he⟩
      · rw [hfind] at hnone
        cases hnone
      · obtain rfl := Option.some.inj (hfind.symm.trans hs')
        exact he
    have hbooks : (st.shared.reap pid).books = st.shared.books ++ [.released s (some c)] := by
      rw [hrelease, ← hconn]
      exact books_note _ rfl
    have hfwd : (st.shared.reap pid).forwardedOf c = st.shared.forwardedOf c := by
      rw [Shared.forwardedOf, hbooks, List.filterMap_append]
      exact List.append_nil _
    have hrouted : (st.shared.reap pid).routedOf c = st.shared.routedOf c := by
      rw [Shared.routedOf, hbooks, List.filterMap_append]
      exact List.append_nil _
    have hall : ((st.shared.reap pid).forwardedOf c).map canonical =
        (st.shared.reap pid).routedOf c := by
      apply hlost.complete s c
      change _ ∈ (st.shared.reap pid).books
      rw [hbooks]
      exact List.mem_append_right _ (List.mem_singleton_self _)
    rw [hfwd, hrouted] at hall
    obtain ⟨done, rest', h1, h2, h3⟩ := h.balanced.pending c
    have hsum : st.shared.routedOf c ++ (inHand c (st.todo .parent) ++ rest'.map canonical) =
        st.shared.routedOf c := by
      rw [← List.append_assoc, ← h2, ← List.map_append, ← h1]
      exact hall
    have hnil := List.append_right_eq_self.mp hsum
    obtain ⟨hhand, hrest⟩ := List.append_eq_nil_iff.mp hnil
    rw [List.map_eq_nil_iff] at hrest
    rw [h3, hrest]
    exact ⟨rfl, hhand⟩
  · cases hexec

/-- No message of a child is lost in any state of a run exactly if the handler, in this run,
clears a slot only when its pipe is empty and the parent has routed all it read from it. -/
theorem nothing_lost_iff {ls : List (Tid × Input)} (hrun : run step (init history) ls = some st) :
    (∀ ks st', ks <+: ls → run step (init history) ks = some st' → NothingLost st') ↔
      Meets step Drained (init history) ls := by
  exact forall_prefix_iff_meets (fun _ h => h.nothingLost) (fun _ _ _ hok h hs => h.step hok hs)
    (fun _ _ _ h hlate hs => h.not_nothingLost hlate hs) (inBalance_init history) hrun

/-- What the child of a client that never logged in writes when it ends. -/
def bye : Message := makeMessage 0 .logout [] [] []

/-- A client leaves at once; its child writes its farewell and ends, the parent routes it. -/
def visit : List (Tid × Input) :=
  connect 0 4 100 ++ (works ⟨0, 0, 100⟩ 1 ++ ((.child ⟨0, 0, 100⟩, noInput) ::
    (works ⟨0, 0, 100⟩ 3 ++ (parents 13 ++ ((.parent, noInput) :: parents 1)))))

/-- The handler finds the farewell routed. -/
theorem nothing_lost_iff_visit : ∃ st, run step (init fun _ => none)
      (visit ++ [(.sigchld, { noInput with pid := some 100 })]) = some st ∧
    .routed 0 0 bye ∈ st.shared.log ∧ .released 0 (some 0) ∈ st.shared.log ∧
    ∀ ks st', ks <+: visit ++ [(.sigchld, { noInput with pid := some 100 })] →
      run step (init fun _ => none) ks = some st' → NothingLost st' := by
  have hbye : WellFormed bye := wellFormed_makeMessage ..
  have hvisit : run step (init fun _ => none) visit = some _ :=
    run_trans rfl (run_trans rfl (run_cons_iff.mpr ⟨_, step_fromClient_end rfl,
      run_trans rfl (run_trans rfl (run_cons_iff.mpr ⟨_, step_recv hbye rfl rfl
        (List.append_nil _).symm, rfl⟩))⟩))
  have hrun : run step (init fun _ => none)
      (visit ++ [(.sigchld, { noInput with pid := some 100 })]) = some _ := run_trans hvisit rfl
  have hmeets : Meets step Drained (init fun _ => none)
      (visit ++ [(.sigchld, { noInput with pid := some 100 })]) := by
    have hquiet : Meets step Drained (init fun _ => none) visit := by
      refine meets_of_forall (fun l hl s pid slot c hsig => ?_) _
      have hall : ∀ l ∈ visit, l.1 ≠ Tid.sigchld := by decide
      exact absurd hsig (hall l hl)
    -- every pipe is empty when the handler runs
    refine hquiet.append hvisit ⟨fun pid s c _ _ _ _ => ⟨?_, rfl⟩, fun _ _ => trivial⟩
    by_cases hc : c = 0
    · subst hc
      rfl
    · exact (Function.update_of_ne hc ..).trans (Function.update_of_ne hc ..)
  refine ⟨_, hrun, ?_, ?_, (nothing_lost_iff hrun).mpr hmeets⟩
  · apply List.mem_append_left
    apply List.mem_append_right
    exact List.mem_singleton_self _
  · apply List.mem_append_right
    exact List.mem_singleton_self _

/-- A client logs in and leaves; the handler clears the slot before the parent reads. -/
theorem message_lost : ∃ ls st, run step (init fun _ => none) ls = some st ∧
    ¬ NothingLost st := by
  have hlogin : WellFormed (loginAs "a") := wellFormed_makeMessage ..
  have hrun : run step (init fun _ => none) (connect 0 4 100 ++ (works ⟨0, 0, 100⟩ 1 ++
      ((.child ⟨0, 0, 100⟩, reads (loginAs "a")) :: (works ⟨0, 0, 100⟩ 2 ++
        ((.child ⟨0, 0, 100⟩, noInput) :: (works ⟨0, 0, 100⟩ 3 ++
          [(.sigchld, { noInput with pid := some 100 })])))))) = some _ :=
    run_trans rfl (run_trans rfl (run_cons_iff.mpr ⟨_, step_fromClient hlogin rfl,
      run_trans rfl (run_cons_iff.mpr ⟨_, step_fromClient_end rfl, run_trans rfl rfl⟩)⟩))
  refine ⟨_, _, hrun, fun h => ?_⟩
  have hreleased := h.complete 0 0 ((mem_books rfl).mpr
    (List.mem_append_right _ (List.mem_singleton_self _)))
  exact absurd (congrArg List.length hreleased) (by decide)

end ChatSystem.Fork
