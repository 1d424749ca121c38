import ChatSystem.Fork.Workload

/-!
# The processes get done

Without new connections and requests the processes come to rest: none of them waits for another but
in `select`, and what they have ahead ends. At rest, nothing is left in the pipes of a child that
lives, and each of them has its slot.
-/

namespace ChatSystem.Fork

open Bytes Channel Tasks Transition Budget

/-- A process rests: the parent in `select` with nothing to read, a child that has not ended in
front of an empty pipe, the handler while no child has ended. -/
def Rests (st : State) : Tid → Prop
  | .parent => ∃ rfds, st.todo .parent = code [.select rfds] ∧
      ∀ fd ∈ rfds, st.shared.readable fd = false
  | .child k => st.todo (.child k) = [] ∨ st.shared.toPipe k.conn = [] ∧
      (st.todo (.child k) = code [.bridge k] ∨ st.todo (.child k) = code [.fromParent k])
  | .sigchld => ∀ p c, st.shared.proc p ≠ some (.zombie c)

/-- A child that lives has its slot, and everything that was written to its pipes was read. -/
structure Served (st : State) (k : Child) : Prop where
  pid : (st.shared.clients k.slot).pid = k.pid
  conn : st.shared.connOf k.slot = some k.conn
  toChild : st.shared.toPipe k.conn = []
  fromChild : st.shared.fromPipe k.conn = []

/-- The slots are those of the children that live, and these are served: what a run has written for
the parent was routed, and what the parent has written was passed on, in order. -/
structure Done (history : History) (ks : List (Tid × Input)) (st : State) : Prop where
  lives : ∀ s, (st.shared.clients s).pid ≠ 0 →
    ∃ c, st.todo (.child ⟨s, c, (st.shared.clients s).pid⟩) ≠ []
  served : ∀ k, st.todo (.child k) ≠ [] → Served st k
  routed : ∀ k, st.todo (.child k) ≠ [] → st.shared.routedOf k.conn =
    (written (.fromChild k.conn) (init history) ks).map canonical
  delivered : ∀ k, st.todo (.child k) ≠ [] → deliveredTo k.conn st.shared.log =
    (written (.toChild k.conn) (init history) ks).map canonical

/-- What a step sees when nobody requests anything. -/
def noRequest : Input := { noInput with fromClient := false }

variable {t : Tid} {a : Act} {i : Input} {sh : Shared} {out : Outcome Empty Tid Act Shared}
  {rest : Code} {st st' : State} {history : History} {ls : List (Tid × Input)}

/-! ## Steps that can be made -/

/-- A pipe with a message, or without a writer, does not block. -/
theorem pipeRecv_isSome {closed : Bool} {bytes : List UInt8} {ms : List Message}
    (hms : bytes = frames ms) (h : bytes ≠ [] ∨ closed = true) (reads : List Nat) :
    (pipeRecv closed ⟨bytes, reads.map .chunk⟩).isSome := by
  cases ms with
  | nil =>
    have hclosed := h.resolve_left fun hne => hne hms
    unfold pipeRecv
    rw [hclosed]
    repeat' split
    all_goals simp_all
  | cons m ms =>
    obtain ⟨src, -, hr⟩ := pipeRecv_packMessage closed m (frames ms) reads
    have hcons : frames (m :: ms) = packMessage m ++ frames ms := by simp [frames]
    rw [hms, hcons, hr]
    rfl

/-- Where an act is next and can be done, its process can go on. -/
theorem exists_works (htodo : st.todo t = .act a :: rest) (hw : a.works i st.shared)
    (hexec : (exec t a i st.shared).isSome) : ∃ i, Works st (t, i) ∧ (step st (t, i)).isSome := by
  refine ⟨i, fun b rest' hb => ?_, ?_⟩
  · obtain ⟨he, -⟩ := List.cons.inj (htodo.symm.trans hb)
    rwa [← Stmt.act.inj he]
  · simpa only [step, Tasks.step, htodo, Option.isSome_map] using hexec

/-- The parent needs nobody but to read. -/
theorem exec_isSome (hown : a.owner = .parent) (ha : ∀ s fd, a ≠ .recv s fd) :
    (exec t a noRequest sh).isSome := by
  cases a
  case recv s fd => exact absurd rfl (ha s fd)
  case bridge | fromClient | farewell | forward | fromParent | exit | reap => cases hown
  all_goals
    simp only [exec, noRequest, noInput, Shared.goOn]
    repeat' split
    all_goals rfl

/-- Where the parent is not in `select`, it needs nothing new. -/
theorem works_noRequest (hown : a.owner = .parent) (ha : ∀ rfds, a ≠ .select rfds) :
    a.works noRequest sh := by
  cases a with
  | select rfds => exact absurd rfl (ha rfds)
  | accept => rfl
  | bridge => cases hown
  | _ => trivial

/-- The parent waits in `select` alone. -/
theorem Budgeted.parent_works (h : Budgeted st) (hno : ¬ Rests st .parent) :
    ∃ i, Works st (.parent, i) ∧ (Fork.step st (.parent, i)).isSome := by
  have hi := h.inTurns.inReading
  have hturn := h.inTurns.turn
  generalize hp : st.todo .parent = p at hturn
  cases hturn with
  | watch hw hall =>
    exact exists_works hp (works_noRequest rfl (by simp)) (exec_isSome rfl (by simp))
  | @select rfds hw hall =>
    have hready : ∃ fd ∈ rfds, st.shared.readable fd = true := by
      by_contra hnone
      refine hno ⟨rfds, hp, fun fd hfd => ?_⟩
      rw [← Bool.not_eq_true]
      exact fun hr => hnone ⟨fd, hfd, hr⟩
    exact exists_works hp (i := noRequest) ⟨rfl, rfl, hready⟩ (exec_isSome rfl (by simp))
  | @check front slots rfds hfront hw hslots hready =>
    cases front with
    | nil => exact exists_works hp (works_noRequest rfl (by simp)) (exec_isSome rfl (by simp))
    | cons b front =>
      have hb := hfront b List.mem_cons_self
      have hown : b.owner = .parent := hi.owned .parent b (hp ▸ List.mem_cons_self)
      refine exists_works hp (works_noRequest hown ?_) (exec_isSome hown ?_)
      · rintro rfds rfl
        cases hb
      · rintro s fd rfl
        cases hb
  | @recv s slots rfds hw hslots hready hs =>
    obtain ⟨k, -, hfd, -⟩ := hw _ hs
    have hread : st.shared.readEnd (st.shared.clients s).fromChild.1 = some k.conn := by
      rw [Shared.readEnd, hfd]
    have hr := hready s List.mem_cons_self hs
    obtain ⟨ms, hms⟩ := h.frames (.fromChild k.conn)
    simp only [Shared.readable, hread, Bool.or_eq_true, Bool.not_eq_true',
      List.isEmpty_eq_false_iff] at hr
    have hsome := pipeRecv_isSome hms hr noRequest.reads
    refine exists_works hp (works_noRequest rfl (by simp)) ?_
    simp only [exec, hread]
    split
    · next hnone =>
      change pipeRecv _ ⟨st.shared.content (.fromChild k.conn), _⟩ = none at hnone
      rw [hnone] at hsome
      cases hsome
    · rfl
    · rfl

/-- A child waits for its client or the parent alone. -/
theorem Budgeted.child_works (h : Budgeted st) {k : Child} (hno : ¬ Rests st (.child k)) :
    ∃ i, Works st (.child k, i) ∧ (Fork.step st (.child k, i)).isSome := by
  have hchore := h.inTurns.staffed.chore k
  have hlives : st.todo (.child k) ≠ [] := fun hnil => hno (Or.inl hnil)
  have hrun := ((h.inTurns.staffed.running k).mp hlives).2
  generalize hp : st.todo (.child k) = p at hchore
  cases hchore with
  | ended => exact absurd hp hlives
  | bridge =>
    have hpipe : st.shared.toPipe k.conn ≠ [] := fun hnil => hno (Or.inr ⟨hnil, Or.inl hp⟩)
    exact exists_works hp (i := noRequest) ⟨rfl, hpipe⟩ rfl
  | fromClient =>
    refine exists_works hp (i := noRequest) trivial ?_
    simp only [exec]
    split <;> rfl
  | fromParent =>
    have hpipe : st.shared.toPipe k.conn ≠ [] := fun hnil => hno (Or.inr ⟨hnil, Or.inr hp⟩)
    obtain ⟨ms, hms⟩ := h.frames (.toChild k.conn)
    have hsome := @pipeRecv_isSome false _ ms hms (Or.inl hpipe) noRequest.reads
    refine exists_works hp (i := noRequest) trivial ?_
    simp only [exec]
    split
    · next hnone =>
      change pipeRecv _ ⟨st.shared.content (.toChild k.conn), _⟩ = none at hnone
      rw [hnone] at hsome
      cases hsome
    · rfl
    · rfl
  | pass m | last m =>
    refine exists_works hp (i := noRequest) trivial ?_
    simp only [exec]
    split <;> rfl
  | farewell => exact exists_works hp (i := noRequest) trivial rfl
  | exit =>
    refine exists_works hp (i := noRequest) trivial ?_
    simp only [exec, if_pos hrun]
    rfl

/-- The handler waits for a child to end. -/
theorem Budgeted.sigchld_works (h : Budgeted st) (hno : ¬ Rests st .sigchld) :
    ∃ i, Works st (.sigchld, i) ∧ (Fork.step st (.sigchld, i)).isSome := by
  simp only [Rests, not_forall, not_not] at hno
  obtain ⟨p, c, hz⟩ := hno
  refine exists_works h.inTurns.staffed.handler (i := { noRequest with pid := some p }) trivial ?_
  simp only [exec, hz]
  rfl

/-- No process waits for another. -/
theorem Budgeted.works (h : Budgeted st) (hno : ¬ Rests st t) :
    ∃ i, Works st (t, i) ∧ (Fork.step st (t, i)).isSome := by
  cases t with
  | parent => exact h.parent_works hno
  | child k => exact h.child_works hno
  | sigchld => exact h.sigchld_works hno

/-! ## What is read is routed -/

/-- Only `route_message` routes. -/
theorem routedOf_exec (h : exec t a i sh = some out) (c : Nat) :
    out.shared.routedOf c = sh.routedOf c ++ a.holding c := by
  by_cases hroute : ∃ s d m, a = .route s d m
  · obtain ⟨s, d, m, rfl⟩ := hroute
    obtain rfl := goOn_inj h
    rw [routedOf_note rfl]
    by_cases hd : d = c <;> simp [Event.routedFrom, Act.holding, hd]
  · have hnone : a.holding c = [] := by
      cases a with
      | route s d m => exact absurd ⟨s, d, m, rfl⟩ hroute
      | _ => rfl
    have hnote : ∀ {b : Shared} {e : Event}, b.books = sh.books → e.isOutput = false →
        e.routedFrom c = none → (b.note e).routedOf c = sh.routedOf c := by
      intro b e hb he hr
      rw [routedOf_note he, hr, Shared.routedOf, hb]
      exact List.append_nil _
    have hc := change_of_exec h
    rw [hnone, List.append_nil]
    generalize out.shared = sh' at hc
    cases hc with
    | quiet hq => rw [Shared.routedOf, hq.books, Shared.routedOf]
    | route s d m => exact absurd ⟨s, d, m, rfl⟩ hroute
    | start | drop | forward => exact hnote rfl rfl rfl
    | @reap pid d hz =>
      rcases reap_cases sh pid with ⟨-, he⟩ | ⟨s, -, -, he⟩ <;> rw [he]
      · rfl
      · exact hnote (e := .released s (sh.connOf s)) rfl rfl rfl
    | _ => rfl

/-- What the parent reads from a pipe it routes, in order. -/
theorem routed_run (hR : InReading st) (hrun : run step st ls = some st') (c : Nat) :
    st'.shared.routedOf c ++ inHand c (st'.todo .parent) =
      st.shared.routedOf c ++ inHand c (st.todo .parent) ++ returned (.fromChild c) st ls := by
  induction ls generalizing st with
  | nil =>
    obtain rfl := Option.some.inj hrun
    simp [returned, collect]
  | cons l ls ih =>
    obtain ⟨st₁, hs, hrest⟩ := run_cons_iff.mp hrun
    rw [ih (hR.step hs) hrest, returned, returned, collect_cons hs, onPipe_append,
      ← List.append_assoc]
    congr 1
    obtain ⟨a, rest, out, htodo, hexec, rfl⟩ := step_act hs
    have hown := hR.owned l.1 a (htodo ▸ List.mem_cons_self)
    have hout := hR.outlined l.1
    rw [htodo] at hout
    have hrouted : (st.perform l.1 rest out).shared.routedOf c = _ := routedOf_exec hexec c
    rw [hrouted, todo_parent_perform hexec]
    simp only [ofAct, htodo]
    by_cases hl : .parent = l.1
    · rw [if_pos hl, inHand_append (fun b hb s => (hout.2 b hb s).2) c, inHand_eq_reading hexec, hl,
        htodo]
      rfl
    · have ha : ∀ s fd, a ≠ .recv s fd := by
        rintro s fd rfl
        exact hl hown
      have hhold : a.holding c = [] := by
        cases a with
        | route s d m => exact absurd hown hl
        | _ => rfl
      rw [if_neg hl, hhold, reading_fromChild ha, List.append_nil, List.append_nil]

/-! ## At rest -/

/-- At rest, what a slot with a pid reads from is empty and open. -/
theorem Budgeted.fromPipe_eq_nil (h : Budgeted st) (hrest : Rests st .parent) {s : Slot}
    (hs : (st.shared.clients s).pid ≠ 0) : ∃ c, st.shared.connOf s = some c ∧
      st.shared.fromPipe c = [] ∧ st.shared.closed c = false := by
  obtain ⟨rfds, htodo, hnone⟩ := hrest
  have hturn := h.inTurns.turn
  obtain ⟨c, hconn, -, -⟩ := h.inTurns.inReading.linked.holder s hs
  have hread : st.shared.readable (st.shared.clients s).fromChild.1 = false := by
    rw [htodo] at hturn
    exact hnone _ (hturn.of_select.2 s hs)
  have hend : st.shared.readEnd (st.shared.clients s).fromChild.1 = some c := hconn
  simp only [Shared.readable, hend, Bool.or_eq_false_iff, Bool.not_eq_false',
    List.isEmpty_iff] at hread
  exact ⟨c, hconn, hread⟩

/-- At rest, the slots with a pid are those of the children that live. -/
theorem Budgeted.lives (h : Budgeted st) (hrest : Rests st .parent) {s : Slot}
    (hs : (st.shared.clients s).pid ≠ 0) : ∃ c,
      st.todo (.child ⟨s, c, (st.shared.clients s).pid⟩) ≠ [] := by
  obtain ⟨c, hconn, -, hopen⟩ := h.fromPipe_eq_nil hrest hs
  obtain ⟨c', hconn', hk, hproc⟩ := h.inTurns.inReading.linked.holder s hs
  obtain rfl := Option.some.inj (hconn.symm.trans hconn')
  refine ⟨c, (h.inTurns.staffed.running _).mpr ⟨hk, hproc.resolve_right ?_⟩⟩
  rw [hopen]
  exact Bool.false_ne_true

/-- At rest, a child that lives has its slot, and its pipes are empty. -/
theorem Budgeted.served (h : Budgeted st) (hrest : ∀ t, Rests st t) {k : Child}
    (hk : st.todo (.child k) ≠ []) : Served st k := by
  have hi := h.inTurns.inReading
  have hslot := h.inTurns.staffed.slot k hk
  obtain ⟨rfds, htodo, -⟩ := hrest .parent
  have hpair := hslot.resolve_left fun ⟨fd, rest, hstore⟩ => by
    cases htodo.symm.trans hstore
  have hpid : (st.shared.clients k.slot).pid ≠ 0 := by
    rw [hpair.1]
    exact h.inTurns.staffed.pid_ne_zero hi.numbered hk
  obtain ⟨c, hconn, hempty, -⟩ := h.fromPipe_eq_nil (hrest .parent) hpid
  obtain rfl := Option.some.inj (hconn.symm.trans hpair.2)
  exact ⟨hpair.1, hpair.2, ((hrest (.child k)).resolve_left hk).1, hempty⟩

/-- What was written to an empty pipe was read, in order. -/
theorem returned_of_nil {p : Pipe} (hrun : run step (init history) ls = some st)
    (hempty : st.shared.content p = []) :
    (written p (init history) ls).map canonical = returned p (init history) ls := by
  have hinit : (init history).shared.content p = frames [] := by cases p <;> rfl
  obtain ⟨ms, hms, hall⟩ := traffic_run hrun hinit
  obtain rfl : ms = [] := flatten_packMessage_eq_nil (hms.symm.trans hempty)
  simpa using hall

theorem Budgeted.done (h : Budgeted st) (hrest : ∀ t, Rests st t)
    (hrun : run Fork.step (init history) ls = some st) : Done history ls st := by
  refine ⟨fun s hs => h.lives (hrest .parent) hs, fun k hk => h.served hrest hk, fun k hk => ?_,
    fun k hk => ?_⟩
  · obtain ⟨rfds, htodo, -⟩ := hrest .parent
    have hrouted := routed_run (inReading_init history) hrun k.conn
    rw [htodo] at hrouted
    calc
      st.shared.routedOf k.conn = st.shared.routedOf k.conn ++ [] := (List.append_nil _).symm
      _ = returned (.fromChild k.conn) (init history) ls := hrouted
      _ = _ := (returned_of_nil (p := .fromChild k.conn) hrun (h.served hrest hk).fromChild).symm
  · calc
      deliveredTo k.conn st.shared.log = returned (.toChild k.conn) (init history) ls :=
        deliveredTo_run hrun k.conn
      _ = _ := (returned_of_nil (p := .toChild k.conn) hrun (h.served hrest hk).toChild).symm

/-- A process that rests has no work. -/
theorem Budgeted.step_eq_none (h : Budgeted st) (hrest : Rests st t) (hw : Works st (t, i)) :
    Fork.step st (t, i) = none := by
  cases t with
  | parent =>
    obtain ⟨rfds, htodo, hnone⟩ := hrest
    obtain ⟨-, -, fd, hfd, hr⟩ := hw _ [] htodo
    rw [hnone fd hfd] at hr
    cases hr
  | child k =>
    rcases hrest with hnil | ⟨hempty, htodo | htodo⟩
    · simp only [Fork.step, Tasks.step, hnil]
    · obtain ⟨-, hne⟩ := hw _ [] htodo
      exact absurd hempty hne
    · have htodo : st.todo (.child k) = [.act (.fromParent k)] := htodo
      simp only [Fork.step, Tasks.step, htodo, exec, hempty]
      split
      · rfl
      · next hr => cases (pipeRecv_nil hr).1
      · next hr => cases (pipeRecv_nil hr).1
  | sigchld =>
    have htodo : st.todo .sigchld = [.act .reap] := h.inTurns.staffed.handler
    simp only [Fork.step, Tasks.step, htodo, exec]
    split
    · rfl
    · split
      · next hz => exact absurd hz (hrest _ _)
      · rfl

end ChatSystem.Fork
