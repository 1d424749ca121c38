import ChatSystem.Epoll.Names
import ChatSystem.Thread.Sessions

/-!
# Names in the thread server

A login checks its name, waits for the credential check and stores the name, all
under `table_lock`. Every act that writes login data needs that lock, so what
the check found still holds when the name is stored.
-/

namespace ChatSystem.Thread

open Tasks Transition

variable {t : Tid} {a b : Act} {i : Input} {sh : Shared} {out : Outcome Lock Tid Act Shared}

/-! ## Lock discipline -/

theorem flow_route (sh : Shared) (s : Slot) (m : Message) :
    flow effect none (sh.route s m) = some none := by
  unfold Shared.route
  split
  · unfold Shared.login
    split <;> rfl
  · rfl
  · unfold Shared.broadcast
    split <;> rfl
  · unfold Shared.priv
    split <;> rfl
  all_goals rfl

theorem flow_slotSend (s : Slot) (m : Message) : flow effect none (slotSend s m) = some none := by
  simp [slotSend, flow, effect, within]

/-- The acts take and release locks as announced. -/
theorem obeys : Obeys effect exec where
  next := by
    intro t a i sh out h h' hout heff
    cases a
    case write fd m rest =>
      obtain rfl := Option.some.inj heff
      simp only [exec] at hout
      split at hout <;> obtain rfl := goOn_inj hout <;> rfl
    all_goals
      simp only [effect, outside_eq_some, within_eq_some, releases_eq_some] at heff
      obtain ⟨rfl, rfl⟩ := heff
      simp only [exec] at hout
    case accept =>
      split at hout
      · obtain rfl := goOn_inj hout
        rfl
      · split at hout
        · obtain rfl := goOn_inj hout
          rfl
        · cases hout
    case create =>
      split at hout
      · obtain rfl := Option.some.inj hout
        rfl
      · obtain rfl := goOn_inj hout
        rfl
    case recv =>
      split at hout
      · split at hout <;> obtain rfl := goOn_inj hout <;> rfl
      · obtain rfl := goOn_inj hout
        rfl
    case route =>
      obtain rfl := goOn_inj hout
      exact flow_route _ _ _
    case sendActive =>
      split at hout
      · obtain rfl := goOn_inj hout
        rfl
      · split at hout
        · obtain rfl := goOn_inj hout
          rw [flow_append, flow_slotSend]
          rfl
        · obtain rfl := goOn_inj hout
          rfl
    case findTarget =>
      split at hout
      · obtain rfl := goOn_inj hout
        rfl
      · obtain rfl := goOn_inj hout
        rw [flow_append, flow_append, Option.bind_assoc]
        simp [flow, effect, outside, flow_slotSend]
    case reply =>
      obtain rfl := goOn_inj hout
      exact flow_slotSend _ _
    case cleanup =>
      obtain rfl := goOn_inj hout
      simp only
      split <;> rfl
    case allot | checkName | validate =>
      split at hout <;> obtain rfl := goOn_inj hout <;> rfl
    all_goals
      obtain rfl := goOn_inj hout
      rfl
  spawn := by
    intro t a i sh out t' p hout hp
    obtain ⟨s, fd, c, -, -, rfl, -, -⟩ := spawn_eq_some hout hp
    rfl

/-- At the start nobody holds a lock. -/
theorem disciplined_init (history : History) : Disciplined effect (init history) := by
  refine ⟨fun _ => none, fun t => ?_, fun l t => ?_⟩
  · unfold init
    simp only
    split <;> rfl
  · simp [init]

/-! ## Login data -/

/-- What a thread knows in front of an act. -/
def Pre : Act → Shared → Prop
  | .checkName _ u _, _ => ValidName u
  | .validate _ u _, sh => ValidName u ∧ sh.findUser u = none
  | .storeLogin _ u, sh => ValidName u ∧ sh.findUser u = none
  | _, _ => True

theorem table_setClient (sh : Shared) (s : Slot) (c : Client) :
    (sh.setClient s c).table = Function.update sh.table s c.toEntry := by
  ext1 j
  by_cases hj : j = s
  · subst hj
    simp only [Shared.table, Shared.setClient, Function.update_self]
  · simp only [Shared.table, Shared.setClient, Function.update_of_ne hj]

/-- Overwriting a slot with the same login data. -/
theorem table_setClient_eq {s : Slot} {c : Client} (h : c.toEntry = (sh.clients s).toEntry) :
    (sh.setClient s c).table = sh.table := by
  rw [table_setClient, h]
  exact Function.update_eq_self s sh.table

@[simp] theorem table_note (sh : Shared) (e : Event) : (sh.note e).table = sh.table := rfl

theorem table_close (sh : Shared) (t : Tid) (fd : Nat) : (sh.close t fd).table = sh.table := by
  unfold Shared.close
  split <;> rfl

/-- What a change does to the login data: nothing, or the act needs `table_lock` and writes an
admissible entry. -/
theorem Change.table {sh' : Shared} (h : Change t sh a sh') (hok : NamesOk sh.table)
    (hpre : Pre a sh) : sh'.table = sh.table ∨
      (∀ held, effect a held ≠ none → held = some .table) ∧
        ∃ s e, Admissible sh.table s e ∧ sh'.table = Function.update sh.table s e := by
  cases h with
  | same => exact Or.inl rfl
  | accept => exact Or.inl rfl
  | start => exact Or.inl rfl
  | abandon s => exact Or.inl (table_setClient_eq rfl)
  | closeFd fd => exact Or.inl (table_close sh t fd)
  | write => exact Or.inl rfl
  | saveHistory => exact Or.inl rfl
  | closeSocket s => exact Or.inl (table_close sh t _)
  | @fill s =>
    refine Or.inr ⟨fun _ => eq_of_releases, s, _, ?_, table_setClient sh s _⟩
    exact admissible_of_inactive rfl rfl
  | storeLogin s u =>
    refine Or.inr ⟨fun _ => eq_of_releases, s, _, ?_, table_setClient sh s _⟩
    exact hok.admissible_login hpre.1 hpre.2 s
  | clear s =>
    refine Or.inr ⟨fun _ => eq_of_within, s, _, ?_, table_setClient sh s _⟩
    exact admissible_of_inactive rfl rfl
  | setStatus s m status =>
    refine Or.inr ⟨fun _ => eq_of_within, s, _, ?_, table_setClient sh s _⟩
    exact (hok.admissible s).setStatus status
  | cleanup s =>
    refine Or.inr ⟨fun _ => eq_of_releases, s, _, ?_, table_setClient sh s _⟩
    exact admissible_of_inactive rfl rfl

/-- Acts that know nothing in front of them. -/
theorem pre_of_role (h : ∀ s, a.role ≠ .serving s) (sh : Shared) : Pre a sh := by
  cases a
  case checkName s u p => exact absurd rfl (h s)
  case validate s u p => exact absurd rfl (h s)
  case storeLogin s u => exact absurd rfl (h s)
  all_goals trivial

theorem outlined_of_sending {p : Code} (h : Sending p) (sh : Shared) : Outlined Pre sh p :=
  outlined_of_plain (fun a ha => pre_of_role fun s hs => by cases (h a ha).symm.trans hs) sh

theorem outlined_route (sh : Shared) (s : Slot) (m : Message) : Outlined Pre sh (sh.route s m) := by
  unfold Shared.route
  split
  · unfold Shared.login
    split
    · simp [Outlined, Pre]
    · next u p hscan => simp [Outlined, Pre, validName_of_scanLogin hscan]
  · simp [Shared.logout, Outlined, Pre]
  · unfold Shared.broadcast
    split <;> simp [Outlined, Pre]
  · unfold Shared.priv
    split <;> simp [Outlined, Pre]
  all_goals simp [Outlined, Pre]

/-- A login passes on what it has found out about its name. -/
theorem outlined_serving {s : Slot} (h : exec t a i sh = some out) (hpre : Pre a sh)
    (ha : a.role = .serving s) : Outlined Pre out.shared out.next := by
  cases a <;> cases ha <;> simp only [exec] at h
  case recv =>
    split at h
    · split at h <;> obtain rfl := goOn_inj h <;> simp [Outlined, Pre]
    · obtain rfl := goOn_inj h
      trivial
  case route m =>
    obtain rfl := goOn_inj h
    exact outlined_route sh s m
  case checkName u p =>
    split at h
    · obtain rfl := goOn_inj h
      simp [Outlined, Pre]
    · next hfree =>
      obtain rfl := goOn_inj h
      have hfree : sh.findUser u = none := by simpa using hfree
      have hu : ValidName u := hpre
      simp [Outlined, Pre, hfree, hu]
  case validate u p =>
    split at h
    · obtain rfl := goOn_inj h
      simp [Outlined, Pre]
    · obtain rfl := goOn_inj h
      have hu : ValidName u ∧ sh.findUser u = none := hpre
      simp [Outlined, Pre, hu]
  case findTarget m =>
    split at h <;> obtain rfl := goOn_inj h <;> simp [Outlined, Pre, slotSend]
  all_goals
    obtain rfl := goOn_inj h
    simp [Outlined, Pre]

/-- The login of the threads is sound: nobody can take a name between check and store. -/
theorem sound : Sound Pre effect exec fun sh => NamesOk sh.table where
  keeps := by
    intro t a i sh out hout hok hpre
    rcases (change_of_exec hout).table hok hpre with he | ⟨-, s, e, hadm, he⟩
    · rwa [he]
    · rw [he]
      exact hok.update hadm
  next := by
    intro t a i sh out hout hok hpre
    cases hrole : a.role with
    | sending => exact outlined_of_sending (sending_next hout hrole) _
    | leaving => exact outlined_of_sending (leaving_next hout hrole) _
    | closing =>
      cases a <;> cases hrole
      obtain rfl := goOn_inj hout
      trivial
    | accepting =>
      cases a <;> cases hrole <;> simp only [exec] at hout <;> repeat' split at hout
      all_goals cases hout
      all_goals simp [Outlined, Pre]
    | serving s => exact outlined_serving hout hpre hrole
  spawn := by
    intro t a i sh out t' p hout hp b hb sh'
    obtain ⟨s, fd, c, -, -, rfl, -, -⟩ := spawn_eq_some hout hp
    simp only [clientThread, List.mem_cons, reduceCtorEq, Stmt.act.injEq, List.not_mem_nil,
      or_false, false_or] at hb
    rcases hb with rfl | rfl | rfl <;> trivial
  frame := by
    intro t a i sh out b h k hout hok hpre hb ha hk hne
    rcases (change_of_exec hout).table hok hpre with he | ⟨hneed, -⟩
    · cases b <;> first | trivial | (simpa only [Pre, Shared.findUser, he] using hb)
    · -- the act holds `table_lock`, so the other one stands outside it
      have hother : k ≠ some .table := hne _ (hneed h ha)
      cases b
      case validate => exact absurd (eq_of_releases hk) hother
      case storeLogin => exact absurd (eq_of_releases hk) hother
      case checkName => exact hb
      all_goals trivial

/-- The lock discipline, the names and what the threads know, together. -/
structure InOrder (st : State) : Prop where
  disciplined : Disciplined effect st
  names : NamesOk st.shared.table
  outlined : ∀ t, Outlined Pre st.shared (st.todo t)

theorem inOrder_init (history : History) : InOrder (init history) := by
  refine ⟨disciplined_init history, namesOk_zero, fun t => ?_⟩
  unfold init
  simp only
  split <;> simp [Outlined, Pre]

theorem InOrder.step {st st' : State} {l : Tid × Input} (h : InOrder st)
    (hs : step st l = some st') : InOrder st' := by
  obtain ⟨hn, ho⟩ := sound.step h.disciplined h.names h.outlined hs
  exact ⟨h.disciplined.step obeys hs, hn, ho⟩

theorem inOrder_of_reachable {history : History} {st : State}
    (h : Reachable step (init history) st) : InOrder st :=
  h.invariant (inOrder_init history) fun _ _ _ hi hs => hi.step hs

/-- Names in the epoll and the thread server: in every reachable state, over all sequences of
events and all interleavings of the threads, active slots hold valid, distinct names. -/
theorem names_unique {history : History} {srv : Epoll.Server} {st : State}
    (hsrv : Reachable Epoll.step (Epoll.Server.init history) srv)
    (hst : Reachable step (init history) st) : NamesOk srv.table ∧ NamesOk st.shared.table :=
  ⟨Epoll.namesOk_of_reachable hsrv, (inOrder_of_reachable hst).names⟩

/-- A user logs in, on either server. -/
theorem names_unique_login : ∃ srv st,
    run Epoll.step (Epoll.Server.init fun _ => none)
      (Epoll.oneBurst noInput.env ⟨packMessage (loginAs "a"), [], .again⟩) = some srv ∧
    run step (init fun _ => none)
      (connect 4 ++ ((.client 0 0, reads (loginAs "a")) :: works 0 0 12)) = some st ∧
    (st.shared.clients 0).active = true ∧ NamesOk srv.table ∧ NamesOk st.shared.table := by
  have hlogin : WellFormed (loginAs "a") := wellFormed_makeMessage ..
  obtain ⟨-, srv, -, hsrv, -⟩ := Epoll.run_oneBurst (fun _ => none) noInput.env
    ⟨packMessage (loginAs "a"), [], .again⟩
  have hst : run step (init fun _ => none)
      (connect 4 ++ ((.client 0 0, reads (loginAs "a")) :: works 0 0 12)) = some _ :=
    run_trans rfl (run_cons_iff.mpr ⟨_, step_recv hlogin (by simp [loginAs]) rfl rfl, rfl⟩)
  exact ⟨srv, _, hsrv, hst, rfl, names_unique ⟨_, hsrv⟩ ⟨_, hst⟩⟩

end ChatSystem.Thread
