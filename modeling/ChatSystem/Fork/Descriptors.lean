import Mathlib.Data.Finset.Card
import Mathlib.Data.Fintype.Card
import Mathlib.Tactic.FinCases
import ChatSystem.Fork.Pipes

/-!
# Descriptors of the parent

Between two statements the parent holds its own descriptors, the ends of the pipes it uses
for slots with a pid, and what the statement in front of it still has to close. A slot that
is cleared takes the numbers of its ends with it, and so does a `pipe` or a `fork` that fails
behind another `pipe`: nothing closes them any more.
-/

namespace ChatSystem.Fork

open Tasks Transition

/-- `FD_SETSIZE`. -/
def fdSetSize : Nat := 1024

/-- An end of a pipe. -/
def Handle.isPipe : Handle → Bool
  | .own | .socket _ => false
  | _ => true

namespace Shared

variable (sh : Shared)

/-- A descriptor of the parent is an end of a pipe. -/
def IsPipe (n : Nat) : Prop := ∃ r, sh.fd n = some r ∧ r.isPipe = true

/-- `to_child[1]` or `from_child[0]` of a slot with a pid. -/
def Kept (n : Nat) : Prop :=
  ∃ s, 0 < (sh.clients s).pid ∧ (n = (sh.clients s).toChild.2 ∨ n = (sh.clients s).fromChild.1)

/-- The pipe descriptors open in the parent are those of the slots with a pid. -/
def Balanced : Prop := ∀ n, sh.IsPipe n ↔ sh.Kept n

/-- The four numbers of a slot. -/
def ends (s : Slot) : List Nat :=
  [(sh.clients s).toChild.1, (sh.clients s).toChild.2, (sh.clients s).fromChild.1,
    (sh.clients s).fromChild.2]

/-- The lowest number that is free. -/
def Lowest (n : Nat) : Prop := ∀ m, m < n → sh.fd m ≠ none

/-- The two lowest numbers that are free. -/
def LowestTwo (p : Nat × Nat) : Prop := sh.Lowest p.1 ∧ ∀ m, m < p.2 → m ≠ p.1 → sh.fd m ≠ none

end Shared

/-- The parent is in the loop in front of `select`, which starts its turn. -/
def Watching (st : State) : Prop := ∃ slots rfds, st.todo .parent = code [.watch slots rfds]

/-- What the parent has open for a new connection, in front of an act. -/
def Act.unclosed (a : Act) (sh : Shared) : List Nat :=
  match a with
  | .findFreeSlot fd _ _ | .refuse fd _ | .pipes _ fd _ | .closeFd fd => [fd]
  | .fork s fd _ => fd :: sh.ends s
  | .storePid k fd => fd :: sh.ends k.slot
  | .closeEnds k fd => [fd, (sh.clients k.slot).toChild.1, (sh.clients k.slot).fromChild.2]
  | _ => []

/-- The act does not leave pipes behind: a slot with a pid is not cleared, and neither the second
`pipe` nor `fork` fails. -/
def tight (a : Act) (i : Input) (sh : Shared) : Bool :=
  match a with
  | .pipes _ _ _ => i.toChild.isNone || i.fromChild.isSome
  | .fork _ _ _ => i.pid.isSome
  | .drop s => (sh.clients s).pid == 0
  | .reap => i.pid.all fun pid => pid == 0 || (sh.findPid pid).isNone
  | _ => true

/-- This step leaves no pipe behind. -/
def Tight (st : State) (l : Tid × Input) : Prop :=
  ∀ a rest, st.todo l.1 = .act a :: rest → tight a l.2 st.shared = true

/-- The kernel hands out the lowest free numbers. -/
def frugal (a : Act) (i : Input) (sh : Shared) : Prop :=
  match a with
  | .accept => ∀ fd, i.fd = some fd → sh.Lowest fd
  | .pipes s _ c => ∀ p, i.toChild = some p → sh.LowestTwo p ∧
      ∀ q, i.fromChild = some q → (sh.openTo s c p).LowestTwo q
  | _ => True

/-- This step gets the lowest free numbers. -/
def Frugal (st : State) (l : Tid × Input) : Prop :=
  ∀ a rest, st.todo l.1 = .act a :: rest → frugal a l.2 st.shared

variable {t : Tid} {a b : Act} {i : Input} {sh sh' : Shared} {out : Outcome Empty Tid Act Shared}
  {n : Nat} {r : Handle}

/-! ## The ends the parent uses -/

/-- The end the parent writes to, of a slot it is about to store a pid in. -/
def Wired : Act → Shared → Prop
  | .fork s _ c, sh => sh.fd (sh.clients s).toChild.2 = some (.toWrite c)
  | .storePid k _, sh => sh.fd (sh.clients k.slot).toChild.2 = some (.toWrite k.conn)
  | _, _ => True

/-- A slot with a pid has a pipe to write to. -/
def Fed (sh : Shared) : Prop :=
  ∀ s, (sh.clients s).pid ≠ 0 → ∃ c, sh.fd (sh.clients s).toChild.2 = some (.toWrite c)

/-- Neither number pair of any slot changes but in `pipe`. -/
theorem pairs_of_change (hc : Change sh a sh') (hp : ∀ s fd c, a ≠ .pipes s fd c) (j : Slot) :
    (sh'.clients j).toChild = (sh.clients j).toChild ∧
      (sh'.clients j).fromChild = (sh.clients j).fromChild := by
  have hset : ∀ {s : Slot} {c : Client}, c.toChild = (sh.clients s).toChild →
      c.fromChild = (sh.clients s).fromChild →
      ((sh.setClient s c).clients j).toChild = (sh.clients j).toChild ∧
        ((sh.setClient s c).clients j).fromChild = (sh.clients j).fromChild := by
    intro s c h1 h2
    by_cases hj : j = s
    · subst hj
      rw [clients_setClient_self]
      exact ⟨h1, h2⟩
    · rw [clients_setClient_of_ne sh hj]
      exact ⟨rfl, rfl⟩
  cases hc with
  | quiet h =>
    rw [h.clients]
    exact ⟨rfl, rfl⟩
  | openTo => exact absurd rfl (hp _ _ _)
  | openBoth => exact absurd rfl (hp _ _ _)
  | storePid k fd => exact hset rfl rfl
  | drop s => exact hset (s := s) rfl rfl
  | storeName s u => exact hset (s := s) rfl rfl
  | activate s u => exact hset (s := s) rfl rfl
  | clear s => exact hset (s := s) rfl rfl
  | setStatus s m status => exact hset (s := s) rfl rfl
  | @reap pid c hpid =>
    rcases reap_cases sh pid with ⟨-, he⟩ | ⟨s, -, -, he⟩ <;> rw [he]
    · exact ⟨rfl, rfl⟩
    · exact hset (s := s) rfl rfl
  | _ => exact ⟨rfl, rfl⟩

theorem clients_openTo_of_ne (sh : Shared) {s j : Slot} (hj : j ≠ s) (c : Nat) (p : Nat × Nat) :
    (sh.openTo s c p).clients j = sh.clients j := clients_setClient_of_ne _ hj _

theorem clients_openFrom_of_ne (sh : Shared) {s j : Slot} (hj : j ≠ s) (c : Nat) (p : Nat × Nat) :
    (sh.openFrom s c p).clients j = sh.clients j := clients_setClient_of_ne _ hj _

theorem pid_openTo (sh : Shared) (s : Slot) (c : Nat) (p : Nat × Nat) (j : Slot) :
    ((sh.openTo s c p).clients j).pid = (sh.clients j).pid := by
  by_cases hj : j = s
  · subst hj
    rw [Shared.openTo, clients_setClient_self]
  · rw [clients_openTo_of_ne sh hj]

theorem pid_openFrom (sh : Shared) (s : Slot) (c : Nat) (p : Nat × Nat) (j : Slot) :
    ((sh.openFrom s c p).clients j).pid = (sh.clients j).pid := by
  by_cases hj : j = s
  · subst hj
    rw [Shared.openFrom, clients_setClient_self]
  · rw [clients_openFrom_of_ne sh hj]

theorem toChild_openTo (sh : Shared) (s : Slot) (c : Nat) (p : Nat × Nat) :
    ((sh.openTo s c p).clients s).toChild = p := by
  rw [Shared.openTo, clients_setClient_self]

theorem pairs_openFrom (sh : Shared) (s : Slot) (c : Nat) (q : Nat × Nat) :
    ((sh.openFrom s c q).clients s).toChild = (sh.clients s).toChild ∧
      ((sh.openFrom s c q).clients s).fromChild = q := by
  rw [Shared.openFrom, clients_setClient_self]
  exact ⟨rfl, rfl⟩

theorem pid_release_of_ne (sh : Shared) {s j : Slot} (hj : j ≠ s) :
    ((sh.release s).clients j).pid = (sh.clients j).pid :=
  congrArg Client.pid (clients_setClient_of_ne sh hj _)

theorem pid_setEntry (sh : Shared) (s : Slot) (e : Entry) (j : Slot) :
    ((sh.setEntry s e).clients j).pid = (sh.clients j).pid := by
  by_cases hj : j = s
  · subst hj
    rw [Shared.setEntry, clients_setClient_self]
  · rw [Shared.setEntry, clients_setClient_of_ne sh hj]

/-- A slot gets a pid from `fork` alone, and loses it in the select loop or to the handler. -/
theorem pid_of_change (hc : Change sh a sh') (j : Slot) :
    (sh'.clients j).pid = (sh.clients j).pid ∨ a = .drop j ∨ a = .reap ∨
      ∃ k fd, a = .storePid k fd ∧ j = k.slot := by
  cases hc with
  | quiet h =>
    rw [h.clients]
    exact Or.inl rfl
  | openTo => exact Or.inl (pid_openTo ..)
  | openBoth => exact Or.inl ((pid_openFrom ..).trans (pid_openTo ..))
  | storePid k fd =>
    by_cases hj : j = k.slot
    · exact Or.inr (Or.inr (Or.inr ⟨k, fd, rfl, hj⟩))
    · refine Or.inl ?_
      rw [Shared.storePid, clients_setClient_of_ne sh hj]
  | drop s =>
    by_cases hj : j = s
    · subst hj
      exact Or.inr (Or.inl rfl)
    · exact Or.inl (pid_release_of_ne sh hj)
  | storeName s u => exact Or.inl (pid_setEntry ..)
  | activate s u => exact Or.inl (pid_setEntry ..)
  | clear s => exact Or.inl (pid_setEntry ..)
  | setStatus s m status => exact Or.inl (pid_setEntry ..)
  | reap => exact Or.inr (Or.inr (Or.inl rfl))
  | _ => exact Or.inl rfl

theorem pid_release (sh : Shared) (s : Slot) : ((sh.release s).clients s).pid = 0 :=
  congrArg Client.pid (clients_setClient_self sh s _)

/-- The handler leaves a slot alone, or clears it. -/
theorem pid_reap (sh : Shared) (pid : Nat) (j : Slot) :
    ((sh.reap pid).clients j).pid = (sh.clients j).pid ∨
      ((sh.reap pid).clients j).pid = 0 ∧ (sh.clients j).pid = pid ∧ sh.findPid pid = some j := by
  rcases reap_cases sh pid with ⟨-, he⟩ | ⟨s, hfind, hs, he⟩ <;> rw [he]
  · exact Or.inl rfl
  · by_cases hj : j = s
    · subst hj
      exact Or.inr ⟨pid_release sh j, hs, hfind⟩
    · exact Or.inl (pid_release_of_ne sh hj)

/-- A slot with a pid has had it, with the same numbers, or it has just been stored. -/
theorem used_of_change (hc : Change sh a sh') (hpre : Setup a sh) {j : Slot}
    (hj : (sh'.clients j).pid ≠ 0) :
    (sh'.clients j).toChild = (sh.clients j).toChild ∧
      (sh'.clients j).fromChild = (sh.clients j).fromChild ∧
      ((sh.clients j).pid ≠ 0 ∨ ∃ k fd, a = .storePid k fd ∧ j = k.slot) := by
  have hpid : (sh.clients j).pid ≠ 0 ∨ ∃ k fd, a = .storePid k fd ∧ j = k.slot := by
    rcases pid_of_change hc j with he | rfl | rfl | h
    · exact Or.inl (he ▸ hj)
    · cases hc with
      | quiet h =>
        rw [h.clients] at hj
        exact Or.inl hj
      | drop => exact absurd (pid_release sh j) hj
    · cases hc with
      | quiet h =>
        rw [h.clients] at hj
        exact Or.inl hj
      | @reap pid =>
        rcases pid_reap sh pid j with he | ⟨he, -⟩
        · exact Or.inl (he ▸ hj)
        · exact absurd he hj
    · exact Or.inr h
  by_cases hp : ∃ s fd c, a = .pipes s fd c
  · obtain ⟨s, fd, c, rfl⟩ := hp
    have hjs : j ≠ s := by
      rintro rfl
      rcases hpid with h | ⟨k, fd, h, -⟩
      · exact h hpre.2.2
      · cases h
    have hsame : sh'.clients j = sh.clients j := by
      cases hc with
      | quiet h => rw [h.clients]
      | openTo => exact clients_openTo_of_ne sh hjs ..
      | openBoth => exact (clients_openFrom_of_ne _ hjs ..).trans (clients_openTo_of_ne sh hjs ..)
    rw [hsame]
    exact ⟨rfl, rfl, hpid⟩
  · obtain ⟨h1, h2⟩ := pairs_of_change hc (fun s fd c he => hp ⟨s, fd, c, he⟩) j
    exact ⟨h1, h2, hpid⟩

/-- Only what an act holds is closed by it. -/
theorem fd_of_change (hc : Change sh a sh') (hn : sh.fd n = some r) (hh : n ∉ a.unclosed sh) :
    sh'.fd n = some r := by
  cases hc with
  | quiet h =>
    rw [h.fd]
    exact hn
  | accept hfree => exact fd_openFd hn hfree
  | openTo hp => exact fd_openTo hp hn
  | openBoth hp hq => exact fd_openFrom hq (fd_openTo hp hn)
  | closeEnds k fd =>
    simp only [Act.unclosed, List.mem_cons, not_or] at hh
    have hfirst : (sh.close (sh.clients k.slot).toChild.1).fd n = some r :=
      (Function.update_of_ne hh.2.1 ..).trans hn
    exact (Function.update_of_ne hh.2.2.1 ..).trans hfirst
  | closeFd fd =>
    simp only [Act.unclosed, List.mem_singleton] at hh
    exact (Function.update_of_ne hh ..).trans hn
  | reap =>
    rw [(async_reap ‹_›).fd]
    exact hn
  | _ => exact hn

/-- A number in use was in use, or held by the act. -/
theorem kept_of_change (hc : Change sh a sh') (hpre : Setup a sh) (hk : sh'.Kept n) :
    sh.Kept n ∨ n ∈ a.unclosed sh := by
  obtain ⟨j, hj, hn⟩ := hk
  obtain ⟨hto, hfrom, hpid⟩ := used_of_change hc hpre hj.ne'
  rw [hto, hfrom] at hn
  rcases hpid with hpid | ⟨k, fd, rfl, rfl⟩
  · exact Or.inl ⟨j, Nat.pos_of_ne_zero hpid, hn⟩
  · refine Or.inr ?_
    rcases hn with rfl | rfl <;> simp [Act.unclosed, Shared.ends]

/-- A number in use stays in use, unless a pipe is left behind. -/
theorem Shared.Kept.change (h : exec t a i sh = some out) (hpre : Setup a sh)
    (htight : tight a i sh = true) (hk : sh.Kept n) : out.shared.Kept n := by
  have hc := change_of_exec h
  obtain ⟨j, hj, hn⟩ := hk
  have hstay : (out.shared.clients j).pid ≠ 0 := by
    rcases pid_of_change hc j with he | rfl | rfl | ⟨k, fd, rfl, rfl⟩
    · exact he ▸ hj.ne'
    · simp only [tight, beq_iff_eq] at htight
      exact absurd htight hj.ne'
    · simp only [exec] at h
      split at h
      · cases h
      · next pid hpid =>
        simp only [tight, hpid, Option.all_some, Bool.or_eq_true, beq_iff_eq,
          Option.isNone_iff_eq_none] at htight
        split at h
        · obtain rfl := goOn_inj h
          rcases pid_reap sh pid j with he | ⟨-, hj', hfind⟩
          · exact he ▸ hj.ne'
          · rcases htight with rfl | hnone
            · exact absurd hj' hj.ne'
            · cases hnone.symm.trans hfind
        · cases h
    · exact absurd hpre.2.1.2 hj.ne'
  obtain ⟨hto, hfrom, -⟩ := used_of_change hc hpre hstay
  refine ⟨j, Nat.pos_of_ne_zero hstay, ?_⟩
  rw [hto, hfrom]
  exact hn

/-- A handle that no act closes. -/
def Handle.lasting : Handle → Bool
  | .own | .toWrite _ | .fromRead _ => true
  | _ => false

theorem fd_stays (hc : Change sh a sh') (hpre : Setup a sh) (hn : sh.fd n = some r)
    (hr : r.lasting = true) : sh'.fd n = some r := by
  have hne : ∀ {e : Handle}, e.lasting = false → e ≠ r := by
    rintro e he rfl
    cases he.symm.trans hr
  cases hc with
  | quiet h =>
    rw [h.fd]
    exact hn
  | accept hfree => exact fd_openFd hn hfree
  | openTo hp => exact fd_openTo hp hn
  | openBoth hp hq => exact fd_openFrom hq (fd_openTo hp hn)
  | closeEnds k fd =>
    have hto := hpre.2.toRead
    have hfrom := hpre.2.fromWrite
    exact fd_close (fd_close hn hto (hne rfl)) (fd_close hfrom hto (by simp)) (hne rfl)
  | closeFd fd =>
    obtain ⟨c, hc⟩ := hpre
    exact fd_close hn hc (hne rfl)
  | reap hpid =>
    rw [(async_reap hpid).fd]
    exact hn
  | _ => exact hn

theorem Fed.keeps (hI : Fed sh) (hc : Change sh a sh') (hpre : Setup a sh) (hw : Wired a sh) :
    Fed sh' := by
  intro s hs
  obtain ⟨hto, -, hpid⟩ := used_of_change hc hpre hs
  rw [hto]
  rcases hpid with hpid | ⟨k, fd, rfl, rfl⟩
  · obtain ⟨c, hfd⟩ := hI s hpid
    exact ⟨c, fd_stays hc hpre hfd rfl⟩
  · exact ⟨k.conn, fd_stays hc hpre hw rfl⟩

theorem Async.wired (h : Async sh sh') (hb : Wired b sh) : Wired b sh' := by
  have hto : ∀ s, (sh'.clients s).toChild = (sh.clients s).toChild := by
    intro s
    rcases h.client s with he | he <;> rw [he]
  cases b with
  | fork s fd c =>
    change sh'.fd _ = _
    rw [h.fd, hto]
    exact hb
  | storePid k fd =>
    change sh'.fd _ = _
    rw [h.fd, hto]
    exact hb
  | _ => trivial

theorem wired_of_other (b : Act) (s : Shared) (hb : b.owner ≠ .parent) : Wired b s := by
  cases b with
  | bridge | fromClient | farewell | forward | fromParent | exit | reap => trivial
  | _ => exact absurd rfl hb

theorem wired_route (sh sh' : Shared) (s : Slot) (m : Message) :
    ∀ b ∈ sh.route s m, Wired b sh' := by
  unfold Shared.route
  split
  · unfold Shared.login
    split <;> simp [Wired]
  · simp [Shared.logout, Wired]
  · unfold Shared.broadcast
    split <;> simp [Wired]
  · unfold Shared.priv
    split <;> simp [Wired]
  all_goals simp [Wired]

/-- The acts that set up a connection assert the end they leave open. -/
theorem wired_next (h : exec t a i sh = some out) (hw : Wired a sh) :
    Outlined Wired out.shared out.next := by
  cases a <;> simp only [exec] at h
  case pipes s fd c =>
    split at h
    · obtain rfl := goOn_inj h
      exact outlined_singleton trivial
    · next p _ =>
      split at h
      · split at h
        · obtain rfl := goOn_inj h
          exact outlined_singleton trivial
        · split at h
          · next q _ hq =>
            obtain rfl := goOn_inj h
            refine outlined_singleton ?_
            change Shared.fd _ _ = _
            rw [(pairs_openFrom _ s c q).1, toChild_openTo]
            exact fd_openFrom hq (Function.update_self ..)
          · cases h
      · cases h
  case fork s fd c =>
    split at h
    · obtain rfl := goOn_inj h
      exact outlined_singleton trivial
    · split at h
      · obtain rfl := Option.some.inj h
        exact outlined_singleton hw
      · cases h
  case route s c m =>
    obtain rfl := goOn_inj h
    exact outlined_of_trivial fun b hb s' => wired_route sh s' s m b hb
  all_goals
    repeat' split at h
    all_goals cases h
    all_goals exact outlined_of_trivial (by simp [Wired, mainLoop])

/-- The statements of the parent are an outline for the ends it writes to. -/
theorem wiring : Outline (fun a sh => Setup a sh ∧ Wired a sh) (fun _ _ => True)
    (fun a b => a.owner ≠ b.owner) exec fun sh => Linked sh ∧ Fed sh where
  keeps := by
    rintro t a i sh out h ⟨hL, hF⟩ ⟨hset, hw⟩ -
    have hc := change_of_exec h
    exact ⟨hL.keeps hc hset, hF.keeps hc hset hw⟩
  next := by
    rintro t a i sh out h ⟨hL, hF⟩ ⟨hset, hw⟩ -
    exact outlined_and.mpr ⟨setup_next h hL hset, wired_next h hw⟩
  spawn := by
    intro t a i sh out t' p h hp b hb s
    obtain ⟨s', fd, c, pid, -, -, rfl, -⟩ := spawn_eq_some h hp
    refine ⟨setup_bridge _ b hb s, ?_⟩
    rw [eq_of_mem_code hb]
    trivial
  frame h _ _ _ hb hapart :=
    ⟨frame_of_async setup_of_other Async.setup h hb.1 hapart,
      frame_of_async wired_of_other Async.wired h hb.2 hapart⟩

/-! ## What the parent holds -/

/-- The numbers of two new pipes. -/
theorem ends_open (sh : Shared) (s : Slot) (c : Nat) (p q : Nat × Nat) :
    ((sh.openTo s c p).openFrom s c q).ends s = [p.1, p.2, q.1, q.2] := by
  obtain ⟨hto, hfrom⟩ := pairs_openFrom (sh.openTo s c p) s c q
  rw [Shared.ends, hto, hfrom, toChild_openTo]

theorem fd_openTo_eq_none {s : Slot} {c : Nat} {p : Nat × Nat} (hp : sh.Fresh p)
    (hn : (sh.openTo s c p).fd n = none) : sh.fd n = none := by
  cases hr : sh.fd n with
  | none => rfl
  | some r => cases hn.symm.trans (fd_openTo hp hr)

/-- Routing a message opens nothing. -/
theorem unclosed_route (sh sh' : Shared) (s : Slot) (m : Message) :
    ∀ b ∈ sh.route s m, b.unclosed sh' = [] := by
  unfold Shared.route
  split
  · unfold Shared.login
    split <;> simp [Act.unclosed]
  · simp [Shared.logout, Act.unclosed]
  · unfold Shared.broadcast
    split <;> simp [Act.unclosed]
  · unfold Shared.priv
    split <;> simp [Act.unclosed]
  all_goals simp [Act.unclosed]

theorem not_unclosed {acts : List Act} (hacts : ∀ b ∈ acts, ∀ s : Shared, b.unclosed s = [])
    {b : Act} (hb : .act b ∈ code acts) (hn : n ∈ b.unclosed sh) : False := by
  rw [hacts b (mem_code.mp hb) sh] at hn
  exact List.not_mem_nil hn

/-- What is held behind an act was held in front of it, or is new. -/
theorem unclosed_next (h : exec t a i sh = some out) {b : Act} (hb : .act b ∈ out.next)
    (hn : n ∈ b.unclosed out.shared) : n ∈ a.unclosed sh ∨ sh.fd n = none := by
  cases a <;> simp only [exec] at h
  case accept =>
    split at h
    · obtain rfl := goOn_inj h
      cases hb
    · split at h
      · next hfree =>
        obtain rfl := goOn_inj h
        obtain rfl := eq_of_mem_code hb
        rw [Act.unclosed, List.mem_singleton] at hn
        exact Or.inr (hn ▸ hfree)
      · cases h
  case findFreeSlot fd c slots =>
    refine Or.inl ?_
    split at h
    · obtain rfl := goOn_inj h
      obtain rfl := eq_of_mem_code hb
      exact hn
    · split at h <;> obtain rfl := goOn_inj h
      · obtain rfl := eq_of_mem_code hb
        exact hn
      · obtain rfl := eq_of_mem_code hb
        exact hn
  case refuse fd c =>
    obtain rfl := goOn_inj h
    obtain rfl := eq_of_mem_code hb
    exact Or.inl hn
  case pipes s fd c =>
    split at h
    · obtain rfl := goOn_inj h
      obtain rfl := eq_of_mem_code hb
      exact Or.inl hn
    · split at h
      · next p _ hp =>
        split at h
        · obtain rfl := goOn_inj h
          obtain rfl := eq_of_mem_code hb
          exact Or.inl hn
        · split at h
          · next q _ hq =>
            obtain rfl := goOn_inj h
            obtain rfl := eq_of_mem_code hb
            simp only [Act.unclosed, ends_open, List.mem_cons, List.not_mem_nil, or_false] at hn
            rcases hn with rfl | rfl | rfl | rfl | rfl
            · exact Or.inl (List.mem_singleton_self _)
            · exact Or.inr hp.1
            · exact Or.inr hp.2.1
            · exact Or.inr (fd_openTo_eq_none hp hq.1)
            · exact Or.inr (fd_openTo_eq_none hp hq.2.1)
          · cases h
      · cases h
  case fork s fd c =>
    refine Or.inl ?_
    split at h
    · obtain rfl := goOn_inj h
      obtain rfl := eq_of_mem_code hb
      rw [Act.unclosed, List.mem_singleton] at hn
      exact hn ▸ List.mem_cons_self
    · split at h
      · obtain rfl := Option.some.inj h
        obtain rfl := eq_of_mem_code hb
        exact hn
      · cases h
  case storePid k fd =>
    have hc : Change sh (.storePid k fd) (sh.storePid k.slot k.pid) := .storePid k fd
    obtain ⟨hto, hfrom⟩ := pairs_of_change hc (by simp) k.slot
    obtain rfl := goOn_inj h
    obtain rfl := eq_of_mem_code hb
    simp only [Act.unclosed, hto, hfrom, List.mem_cons, List.not_mem_nil, or_false] at hn
    refine Or.inl ?_
    rcases hn with rfl | rfl | rfl <;> simp [Act.unclosed, Shared.ends]
  case closeEnds k fd =>
    obtain rfl := goOn_inj h
    obtain rfl := eq_of_mem_code hb
    rw [Act.unclosed, List.mem_singleton] at hn
    exact Or.inl (hn ▸ List.mem_cons_self)
  case route s c m =>
    obtain rfl := goOn_inj h
    exact (not_unclosed (fun b hb s' => unclosed_route sh s' s m b hb) hb hn).elim
  all_goals
    repeat' split at h
    all_goals cases h
    all_goals exact (not_unclosed (by simp [Act.unclosed, mainLoop]) hb hn).elim

/-- Every descriptor of the parent is one of its own, in use for a slot, or held. -/
def Shared.Accounted (sh : Shared) (held : Nat → Prop) : Prop :=
  ∀ n r, sh.fd n = some r → r = .own ∧ n ≤ 3 ∨ sh.Kept n ∨ held n

theorem fd_openFd_cases {m : Nat} {e : Handle} (hn : (sh.openFd m e).fd n = some r) :
    n = m ∨ sh.fd n = some r := by
  by_cases hm : n = m
  · exact Or.inl hm
  · exact Or.inr ((Function.update_of_ne hm ..).symm.trans hn)

theorem fd_close_eq_some {m : Nat} (hn : (sh.close m).fd n = some r) :
    n ≠ m ∧ sh.fd n = some r := by
  have hm : n ≠ m := by
    rintro rfl
    cases hn.symm.trans (Function.update_self ..)
  exact ⟨hm, (Function.update_of_ne hm ..).symm.trans hn⟩

/-- The open descriptors behind two calls of `pipe`. -/
theorem fd_open_cases {s : Slot} {c : Nat} {p q : Nat × Nat}
    (hn : ((sh.openTo s c p).openFrom s c q).fd n = some r) :
    sh.fd n = some r ∨ n ∈ ((sh.openTo s c p).openFrom s c q).ends s := by
  rw [ends_open]
  rcases fd_openFd_cases hn with rfl | hn
  · simp
  rcases fd_openFd_cases hn with rfl | hn
  · simp
  rcases fd_openFd_cases hn with rfl | hn
  · simp
  rcases fd_openFd_cases hn with rfl | hn
  · simp
  · exact Or.inl hn

/-- Only `accept` and `pipe` open descriptors. -/
theorem fd_before (hc : Change sh a sh') (ha : a ≠ .accept) (hp : ∀ s fd c, a ≠ .pipes s fd c)
    (hn : sh'.fd n = some r) : sh.fd n = some r := by
  cases hc with
  | quiet h => exact h.fd ▸ hn
  | accept => exact absurd rfl ha
  | openTo => exact absurd rfl (hp _ _ _)
  | openBoth => exact absurd rfl (hp _ _ _)
  | closeEnds k fd => exact (fd_close_eq_some (fd_close_eq_some hn).2).2
  | closeFd fd => exact (fd_close_eq_some hn).2
  | reap hpid => exact (async_reap hpid).fd ▸ hn
  | _ => exact hn

/-- What an act holds is in use behind it, is still held, or is closed. -/
theorem held_exec (h : exec t a i sh = some out) (hpre : Setup a sh) (htight : tight a i sh = true)
    (hn : n ∈ a.unclosed sh) (ho : out.shared.fd n = some r) :
    out.shared.Kept n ∨ ∃ b, .act b ∈ out.next ∧ n ∈ b.unclosed out.shared := by
  have hone : ∀ {b : Act} {sh' : Shared}, n ∈ b.unclosed sh' →
      ∃ b', .act b' ∈ code [b] ∧ n ∈ b'.unclosed sh' :=
    fun {b} _ hb => ⟨b, mem_code.mpr (List.mem_singleton_self b), hb⟩
  cases a <;> simp only [exec] at h
  case findFreeSlot fd c slots =>
    split at h
    · obtain rfl := goOn_inj h
      exact Or.inr (hone hn)
    · split at h <;> obtain rfl := goOn_inj h <;> exact Or.inr (hone hn)
  case refuse fd c =>
    obtain rfl := goOn_inj h
    exact Or.inr (hone (b := .closeFd fd) hn)
  case pipes s fd c =>
    split at h
    · obtain rfl := goOn_inj h
      exact Or.inr (hone (b := .closeFd fd) hn)
    · split at h
      · split at h
        · obtain rfl := goOn_inj h
          exact Or.inr (hone (b := .closeFd fd) hn)
        · split at h
          · obtain rfl := goOn_inj h
            rw [Act.unclosed, List.mem_singleton] at hn
            subst hn
            exact Or.inr (hone (b := .fork s n c) List.mem_cons_self)
          · cases h
      · cases h
  case fork s fd c =>
    split at h
    · next hpid =>
      rw [tight, hpid] at htight
      cases htight
    · split at h
      · next pid _ _ =>
        obtain rfl := Option.some.inj h
        exact Or.inr (hone (b := .storePid ⟨s, c, pid⟩ fd) hn)
      · cases h
  case storePid k fd =>
    have hc : Change sh (.storePid k fd) (sh.storePid k.slot k.pid) := .storePid k fd
    obtain ⟨hto, hfrom⟩ := pairs_of_change hc (by simp) k.slot
    obtain rfl := goOn_inj h
    have hpid : 0 < ((sh.storePid k.slot k.pid).clients k.slot).pid := by
      rw [Shared.storePid, clients_setClient_self]
      exact Nat.pos_of_ne_zero hpre.2.2.2.pid
    simp only [Act.unclosed, Shared.ends, List.mem_cons, List.not_mem_nil, or_false] at hn
    have hheld : n = fd ∨ n = (sh.clients k.slot).toChild.1 ∨
        n = (sh.clients k.slot).fromChild.2 →
        n ∈ (Act.closeEnds k fd).unclosed (sh.storePid k.slot k.pid) := by
      simp only [Act.unclosed, hto, hfrom, List.mem_cons, List.not_mem_nil, or_false]
      exact id
    rcases hn with hn | hn | hn | hn | hn
    · exact Or.inr (hone (hheld (Or.inl hn)))
    · exact Or.inr (hone (hheld (Or.inr (Or.inl hn))))
    · exact Or.inl ⟨k.slot, hpid, Or.inl (hn.trans (congrArg Prod.snd hto).symm)⟩
    · exact Or.inl ⟨k.slot, hpid, Or.inr (hn.trans (congrArg Prod.fst hfrom).symm)⟩
    · exact Or.inr (hone (hheld (Or.inr (Or.inr hn))))
  case closeEnds k fd =>
    obtain rfl := goOn_inj h
    obtain ⟨h2, ho⟩ := fd_close_eq_some ho
    obtain ⟨h1, -⟩ := fd_close_eq_some ho
    simp only [Act.unclosed, List.mem_cons, List.not_mem_nil, or_false] at hn
    rcases hn with hn | hn | hn
    · subst hn
      exact Or.inr (hone (b := .closeFd n) (List.mem_singleton_self _))
    · exact absurd hn h1
    · exact absurd hn h2
  case closeFd fd =>
    obtain rfl := goOn_inj h
    rw [Act.unclosed, List.mem_singleton] at hn
    exact absurd hn (fd_close_eq_some ho).1
  all_goals cases hn

/-- Without a pipe left behind, every descriptor stays accounted for. -/
theorem accounted_exec (h : exec t a i sh = some out) (hpre : Setup a sh)
    (htight : tight a i sh = true) (hI : sh.Accounted (· ∈ a.unclosed sh)) :
    out.shared.Accounted fun n => ∃ b, .act b ∈ out.next ∧ n ∈ b.unclosed out.shared := by
  intro n r hn
  have hold : sh.fd n = some r → r = .own ∧ n ≤ 3 ∨ out.shared.Kept n ∨
      ∃ b, .act b ∈ out.next ∧ n ∈ b.unclosed out.shared := by
    intro hb
    rcases hI n r hb with hown | hk | hh
    · exact Or.inl hown
    · exact Or.inr (Or.inl (hk.change h hpre htight))
    · exact Or.inr (held_exec h hpre htight hh hn)
  by_cases ha : a = .accept
  · subst ha
    simp only [exec] at h
    split at h
    · obtain rfl := goOn_inj h
      exact hold hn
    · split at h
      · obtain rfl := goOn_inj h
        rcases fd_openFd_cases hn with rfl | hb
        · exact Or.inr (Or.inr ⟨_, List.mem_cons_self, List.mem_singleton_self _⟩)
        · exact hold hb
      · cases h
  by_cases hp : ∃ s fd c, a = .pipes s fd c
  · obtain ⟨s, fd, c, rfl⟩ := hp
    simp only [exec] at h
    split at h
    · obtain rfl := goOn_inj h
      exact hold hn
    · next p hto =>
      split at h
      · split at h
        · next hfrom =>
          rw [tight, hto, hfrom] at htight
          cases htight
        · split at h
          · obtain rfl := goOn_inj h
            rcases fd_open_cases hn with hb | hb
            · exact hold hb
            · exact Or.inr (Or.inr ⟨_, List.mem_cons_self, List.mem_cons_of_mem _ hb⟩)
          · cases h
      · cases h
  · exact hold (fd_before (change_of_exec h) ha (fun s fd c he => hp ⟨s, fd, c, he⟩) hn)

/-! ## Ends that are left behind -/

/-- An end of a pipe that nothing will close. -/
def Shared.Lost (sh : Shared) (held : Nat → Prop) (n : Nat) : Prop :=
  sh.IsPipe n ∧ ¬ sh.Kept n ∧ ¬ held n

/-- What is lost is lost for good. -/
theorem lost_exec (h : exec t a i sh = some out) (hpre : Setup a sh)
    (hn : sh.Lost (· ∈ a.unclosed sh) n) :
    out.shared.Lost (fun n => ∃ b, .act b ∈ out.next ∧ n ∈ b.unclosed out.shared) n := by
  obtain ⟨⟨r, hr, hp⟩, hkept, hheld⟩ := hn
  have hc := change_of_exec h
  refine ⟨⟨r, fd_of_change hc hr hheld, hp⟩, fun hk => ?_, ?_⟩
  · rcases kept_of_change hc hpre hk with hk | hk
    · exact hkept hk
    · exact hheld hk
  · rintro ⟨b, hb, hn⟩
    rcases unclosed_next h hb hn with hn | hn
    · exact hheld hn
    · cases hn.symm.trans hr

/-- The ends in use are one to write to or one to read from. -/
theorem fd_of_kept (hL : Linked sh) (hF : Fed sh) (hk : sh.Kept n) :
    ∃ s c, (sh.clients s).pid ≠ 0 ∧ (sh.fd n = some (.toWrite c) ∨
      sh.fd n = some (.fromRead c) ∧ .forked ⟨s, c, (sh.clients s).pid⟩ ∈ sh.books) := by
  obtain ⟨s, hs, hn⟩ := hk
  rcases hn with rfl | rfl
  · obtain ⟨c, hc⟩ := hF s hs.ne'
    exact ⟨s, c, hs.ne', Or.inl hc⟩
  · obtain ⟨c, hc, hf, -⟩ := hL.holder s hs.ne'
    exact ⟨s, c, hs.ne', Or.inr ⟨connOf_eq_some.mp hc, hf⟩⟩

theorem isPipe_of_kept (hL : Linked sh) (hF : Fed sh) (hk : sh.Kept n) : sh.IsPipe n := by
  obtain ⟨s, c, -, hn | ⟨hn, -⟩⟩ := fd_of_kept hL hF hk
  · exact ⟨_, hn, rfl⟩
  · exact ⟨_, hn, rfl⟩

/-- A slot that is cleared loses its end to read from. -/
theorem lost_release (hL : Linked sh) (hF : Fed sh) {s : Slot} (hs : (sh.clients s).pid ≠ 0) :
    (sh.release s).IsPipe (sh.clients s).fromChild.1 ∧
      ¬ (sh.release s).Kept (sh.clients s).fromChild.1 := by
  obtain ⟨c, hc, hf, -⟩ := hL.holder s hs
  rw [connOf_eq_some] at hc
  refine ⟨⟨_, hc, rfl⟩, ?_⟩
  rintro ⟨j, hj, hn⟩
  have hjs : j ≠ s := by
    rintro rfl
    exact hj.ne' (pid_release sh j)
  have hother : (sh.release s).clients j = sh.clients j := clients_setClient_of_ne sh hjs _
  rw [hother] at hj hn
  rcases hn with hn | hn
  · obtain ⟨d, hd⟩ := hF j hj.ne'
    rw [← hn, hc] at hd
    cases hd
  · obtain ⟨d, hd, hf', -⟩ := hL.holder j hj.ne'
    rw [connOf_eq_some, ← hn, hc] at hd
    obtain rfl := Handle.fromRead.inj (Option.some.inj hd)
    exact hjs (congrArg Child.slot (hL.once _ _ hf' hf rfl))

/-- The end a slot with a pid reads from is not held for a new connection. -/
theorem not_held (hL : Linked sh) {s : Slot} (hs : (sh.clients s).pid ≠ 0) (hpre : Setup b sh)
    (hw : Wired b sh) : (sh.clients s).fromChild.1 ∉ b.unclosed sh := by
  obtain ⟨c, hc, hf, -⟩ := hL.holder s hs
  rw [connOf_eq_some] at hc
  have hne : ∀ {m : Nat} {e : Handle}, sh.fd m = some e → e ≠ .fromRead c →
      (sh.clients s).fromChild.1 ≠ m := by
    rintro m e hm he rfl
    exact he (Option.some.inj (hm.symm.trans hc))
  intro hn
  cases b with
  | findFreeSlot fd d slots =>
    obtain ⟨e, he⟩ := hpre.socket
    exact hne he (by simp) (List.mem_singleton.mp hn)
  | refuse fd d =>
    obtain ⟨e, he⟩ := hpre
    exact hne he (by simp) (List.mem_singleton.mp hn)
  | closeFd fd =>
    obtain ⟨e, he⟩ := hpre
    exact hne he (by simp) (List.mem_singleton.mp hn)
  | pipes j fd d =>
    obtain ⟨e, he⟩ := hpre.1.socket
    exact hne he (by simp) (List.mem_singleton.mp hn)
  | fork j fd d =>
    obtain ⟨hnew, hfree, hends⟩ := hpre
    obtain ⟨e, he⟩ := hnew.socket
    have hd : c ≠ d := by
      rintro rfl
      exact hnew.fresh _ hf rfl
    simp only [Act.unclosed, Shared.ends, List.mem_cons, List.not_mem_nil, or_false] at hn
    rcases hn with hn | hn | hn | hn | hn
    · exact hne he (by simp) hn
    · exact hne hends.toRead (by simp) hn
    · exact hne hw (by simp) hn
    · exact hne hends.fromRead (by simpa using hd.symm) hn
    · exact hne hends.fromWrite (by simp) hn
  | storePid k fd =>
    obtain ⟨⟨e, he⟩, hfree, hends, hk⟩ := hpre
    have hd : c ≠ k.conn := by
      rintro rfl
      have hsame := hL.once _ _ hf hk.forked rfl
      exact hs ((congrArg (fun k : Child => (sh.clients k.slot).pid) hsame).trans hfree.2)
    simp only [Act.unclosed, Shared.ends, List.mem_cons, List.not_mem_nil, or_false] at hn
    rcases hn with hn | hn | hn | hn | hn
    · exact hne he (by simp) hn
    · exact hne hends.toRead (by simp) hn
    · exact hne hw (by simp) hn
    · exact hne hends.fromRead (by simpa using hd.symm) hn
    · exact hne hends.fromWrite (by simp) hn
  | closeEnds k fd =>
    obtain ⟨⟨e, he⟩, hends⟩ := hpre
    simp only [Act.unclosed, List.mem_cons, List.not_mem_nil, or_false] at hn
    rcases hn with hn | hn | hn
    · exact hne he (by simp) hn
    · exact hne hends.toRead (by simp) hn
    · exact hne hends.fromWrite (by simp) hn
  | _ => cases hn

/-- A failing `pipe` or `fork` behind another `pipe`, and a cleared slot, leave an end behind. -/
theorem lost_of_parent (h : exec t a i sh = some out) (hL : Linked sh) (hF : Fed sh)
    (hpre : Setup a sh) (ha : a.owner = .parent) (hloose : tight a i sh = false) :
    ∃ n, out.shared.Lost (fun n => ∃ b, .act b ∈ out.next ∧ n ∈ b.unclosed out.shared) n := by
  have hc := change_of_exec h
  cases a with
  | pipes s fd c =>
    obtain ⟨⟨e, he⟩, -, -⟩ := hpre.1
    simp only [exec] at h
    split at h
    · next hto =>
      rw [tight, hto] at hloose
      cases hloose
    · next p hto =>
      split at h
      · next hp =>
        split at h
        · obtain rfl := goOn_inj h
          have hfd : p.1 ≠ fd := by
            intro hpf
            cases he.symm.trans (hpf ▸ hp.1)
          refine ⟨p.1, ⟨.toRead c, ?_, rfl⟩, fun hk => ?_, ?_⟩
          · exact (Function.update_of_ne hp.2.2 ..).trans (Function.update_self ..)
          · rcases kept_of_change hc hpre hk with hk | hk
            · obtain ⟨r, hr, -⟩ := isPipe_of_kept hL hF hk
              cases hr.symm.trans hp.1
            · exact hfd (List.mem_singleton.mp hk)
          · rintro ⟨b, hb, hn⟩
            obtain rfl := eq_of_mem_code hb
            exact hfd (List.mem_singleton.mp hn)
        · next q hfrom =>
          rw [tight, hto, hfrom] at hloose
          cases hloose
      · cases h
  | fork s fd c =>
    obtain ⟨hnew, -, hends⟩ := hpre
    obtain ⟨e, he⟩ := hnew.socket
    simp only [exec] at h
    split at h
    · obtain rfl := goOn_inj h
      refine ⟨(sh.clients s).toChild.1, ⟨_, hends.toRead, rfl⟩, fun hk => ?_, ?_⟩
      · obtain ⟨j, d, -, hn | ⟨hn, -⟩⟩ := fd_of_kept hL hF hk
        · cases hn.symm.trans hends.toRead
        · cases hn.symm.trans hends.toRead
      · rintro ⟨b, hb, hn⟩
        obtain rfl := eq_of_mem_code hb
        rw [Act.unclosed, List.mem_singleton] at hn
        cases he.symm.trans (hn ▸ hends.toRead)
    · next pid hpid =>
      rw [tight, hpid] at hloose
      cases hloose
  | drop s =>
    have hs : (sh.clients s).pid ≠ 0 := by simpa [tight] using hloose
    obtain rfl := goOn_inj h
    obtain ⟨hpipe, hkept⟩ := lost_release hL hF hs
    refine ⟨_, hpipe, hkept, ?_⟩
    rintro ⟨b, hb, -⟩
    cases hb
  | reap => cases ha
  | _ => cases hloose

/-- The handler leaves the end behind that the parent read from. -/
theorem lost_of_reap (h : exec t .reap i sh = some out) (hL : Linked sh) (hF : Fed sh)
    (hloose : tight .reap i sh = false) :
    ∃ s, (sh.clients s).pid ≠ 0 ∧ out.shared.IsPipe (sh.clients s).fromChild.1 ∧
      ¬ out.shared.Kept (sh.clients s).fromChild.1 := by
  simp only [exec] at h
  split at h
  · cases h
  · next pid hpid =>
    simp only [tight, hpid, Option.all_some, Bool.or_eq_false_iff, beq_eq_false_iff_ne,
      Option.isNone_eq_false_iff] at hloose
    split at h
    · obtain rfl := goOn_inj h
      rcases reap_cases sh pid with ⟨hnone, -⟩ | ⟨s, -, hs, he⟩
      · rw [hnone] at hloose
        cases hloose.2
      · obtain ⟨hpipe, hkept⟩ := lost_release hL hF (hs ▸ hloose.1)
        refine ⟨s, hs ▸ hloose.1, ?_, ?_⟩ <;> rw [he]
        · exact hpipe
        · exact hkept
    · cases h

/-! ## Runs -/

variable {st st' : State} {l : Tid × Input} {ls : List (Tid × Input)} {history : History}

/-- What the parent has to close or to use yet. -/
def Pending (st : State) (n : Nat) : Prop :=
  ∃ a, .act a ∈ st.todo .parent ∧ n ∈ a.unclosed st.shared

/-- The acts ahead, the links, the ends in use and the assertions, together. -/
structure InDescriptors (st : State) : Prop where
  owned : Owned st
  linked : Linked st.shared
  fed : Fed st.shared
  outlined : ∀ t, Outlined (fun a sh => Setup a sh ∧ Wired a sh) st.shared (st.todo t)

theorem inDescriptors_init (history : History) : InDescriptors (init history) := by
  have h := inLinks_init history
  refine ⟨h.owned, h.linked, fun s hs => absurd rfl hs, fun t => ?_⟩
  refine outlined_and.mpr ⟨h.setup t, ?_⟩
  cases t with
  | parent => exact outlined_singleton trivial
  | sigchld => exact outlined_singleton trivial
  | child k => exact outlined_nil _

theorem InDescriptors.step (h : InDescriptors st) (hs : step st l = some st') :
    InDescriptors st' := by
  obtain ⟨⟨hL, hF⟩, hout⟩ := wiring.step ⟨h.linked, h.fed⟩ h.outlined
    (fun hne ha hb => h.owned.apart hne ha hb) (fun _ _ _ => trivial) hs
  exact ⟨h.owned.step hs, hL, hF, hout⟩

/-- An act that may stand anywhere holds nothing. -/
theorem unclosed_of_setup (hb : ∀ s, Setup b s) : b.unclosed sh = [] := by
  have hnone : ∀ {fd : Nat}, ¬ ({ sh with fd := fun _ => none } : Shared).IsSocket fd := by
    rintro fd ⟨c, hc⟩
    cases hc
  cases b with
  | findFreeSlot fd c slots => exact absurd (hb _).socket hnone
  | refuse fd c => exact absurd (hb _) hnone
  | closeFd fd => exact absurd (hb _) hnone
  | pipes s fd c => exact absurd (hb _).1.socket hnone
  | fork s fd c => exact absurd (hb _).1.socket hnone
  | storePid k fd => exact absurd (hb _).1 hnone
  | closeEnds k fd => exact absurd (hb _).1 hnone
  | _ => rfl

/-- Nobody starts the parent. -/
theorem todo_parent_perform {rest : Code} (h : exec t a i st.shared = some out) :
    (st.perform t rest out).todo .parent =
      if .parent = t then out.next ++ rest else st.todo .parent := by
  have hstarted : started Tid.parent out.spawn = [] := by
    rcases started_cases Tid.parent out.spawn with hs | hs
    · exact hs
    · obtain ⟨s, fd, c, pid, -, hu, -⟩ := spawn_eq_some h hs
      cases hu
  simp only [State.perform, hstarted, List.append_nil]

/-- The parent holds what the act in front of it holds. -/
theorem InDescriptors.pending_iff (h : InDescriptors st) {rest : Code}
    (htodo : st.todo .parent = .act a :: rest) : Pending st n ↔ n ∈ a.unclosed st.shared := by
  have hout := h.outlined .parent
  rw [htodo] at hout
  rw [Pending, htodo]
  constructor
  · rintro ⟨b, hb, hn⟩
    rcases List.mem_cons.mp hb with hb | hb
    · exact Stmt.act.inj hb ▸ hn
    · rw [unclosed_of_setup fun s => (hout.2 b hb s).1] at hn
      cases hn
  · intro hn
    exact ⟨a, List.mem_cons_self, hn⟩

/-- Behind an act of the parent it holds what the expansion holds. -/
theorem InDescriptors.pending_perform (h : InDescriptors st) {rest : Code}
    (htodo : st.todo .parent = .act a :: rest) (hexec : exec .parent a i st.shared = some out) :
    Pending (st.perform .parent rest out) n ↔
      ∃ b, .act b ∈ out.next ∧ n ∈ b.unclosed out.shared := by
  have hout := h.outlined .parent
  rw [htodo] at hout
  rw [Pending, todo_parent_perform hexec, if_pos rfl]
  constructor
  · rintro ⟨b, hb, hn⟩
    rcases List.mem_append.mp hb with hb | hb
    · exact ⟨b, hb, hn⟩
    · rw [unclosed_of_setup fun s => (hout.2 b hb s).1] at hn
      cases hn
  · rintro ⟨b, hb, hn⟩
    exact ⟨b, List.mem_append_left _ hb, hn⟩

theorem Async.unclosed (h : Async sh sh') (b : Act) : b.unclosed sh' = b.unclosed sh := by
  have hpair : ∀ s, (sh'.clients s).toChild = (sh.clients s).toChild ∧
      (sh'.clients s).fromChild = (sh.clients s).fromChild := by
    intro s
    rcases h.client s with he | he <;> rw [he] <;> exact ⟨rfl, rfl⟩
  cases b <;> simp [Act.unclosed, Shared.ends, hpair]

/-- The others do not change what the parent holds. -/
theorem pending_async {rest : Code} (ht : t ≠ .parent) (hexec : exec t a i st.shared = some out)
    (hasync : Async st.shared out.shared) :
    Pending (st.perform t rest out) n ↔ Pending st n := by
  have hshared : (st.perform t rest out).shared = out.shared := rfl
  simp only [Pending, todo_parent_perform hexec, if_neg (Ne.symm ht), hshared, hasync.unclosed]

/-- A step that leaves nothing behind keeps every descriptor accounted for. -/
theorem InDescriptors.accounted_step (h : InDescriptors st)
    (hacc : st.shared.Accounted (Pending st)) (htight : Tight st l) (hs : Fork.step st l = some st') :
    st'.shared.Accounted (Pending st') := by
  obtain ⟨t, i⟩ := l
  obtain ⟨a, rest, out, htodo, hexec, rfl⟩ := step_act hs
  have hout := h.outlined t
  rw [htodo] at hout
  have hset := (hout.1 a rfl).1
  have hok := htight a rest htodo
  intro n r hn
  by_cases ht : t = .parent
  · subst ht
    rw [h.pending_perform htodo hexec]
    refine accounted_exec hexec hset hok (fun m e hm => ?_) n r hn
    have hplace := hacc m e hm
    rwa [h.pending_iff htodo] at hplace
  · have ha : a.owner ≠ .parent := by
      rw [h.owned t a (htodo ▸ List.mem_cons_self)]
      exact ht
    have hasync := async_of_change ha (change_of_exec hexec)
    rw [pending_async ht hexec hasync]
    have hn : st.shared.fd n = some r := hasync.fd ▸ hn
    rcases hacc n r hn with hown | hk | hp
    · exact Or.inl hown
    · exact Or.inr (Or.inl (hk.change hexec hset hok))
    · exact Or.inr (Or.inr hp)

/-- An end that is lost stays lost. -/
theorem InDescriptors.lost_step (h : InDescriptors st) (hn : st.shared.Lost (Pending st) n)
    (hs : Fork.step st l = some st') : st'.shared.Lost (Pending st') n := by
  obtain ⟨t, i⟩ := l
  obtain ⟨a, rest, out, htodo, hexec, rfl⟩ := step_act hs
  have hout := h.outlined t
  rw [htodo] at hout
  have hset := (hout.1 a rfl).1
  obtain ⟨hpipe, hkept, hheld⟩ := hn
  by_cases ht : t = .parent
  · subst ht
    rw [h.pending_iff htodo] at hheld
    obtain ⟨hpipe, hkept, hheld⟩ := lost_exec hexec hset ⟨hpipe, hkept, hheld⟩
    exact ⟨hpipe, hkept, fun hn => hheld ((h.pending_perform htodo hexec).mp hn)⟩
  · have ha : a.owner ≠ .parent := by
      rw [h.owned t a (htodo ▸ List.mem_cons_self)]
      exact ht
    have hasync := async_of_change ha (change_of_exec hexec)
    have hnone : a.unclosed st.shared = [] := by
      cases a with
      | bridge | fromClient | farewell | forward | fromParent | exit | reap => rfl
      | _ => exact absurd rfl ha
    refine ⟨?_, fun hk => ?_, fun hn => hheld ((pending_async ht hexec hasync).mp hn)⟩
    · obtain ⟨r, hr, hp⟩ := hpipe
      exact ⟨r, hasync.fd ▸ hr, hp⟩
    · rcases kept_of_change (change_of_exec hexec) hset hk with hk | hk
      · exact hkept hk
      · rw [hnone] at hk
        cases hk

/-- A step that leaves a pipe behind loses an end. -/
theorem InDescriptors.lost_of_not_tight (h : InDescriptors st) (hloose : ¬ Tight st l)
    (hs : Fork.step st l = some st') : ∃ n, st'.shared.Lost (Pending st') n := by
  obtain ⟨t, i⟩ := l
  obtain ⟨a, rest, out, htodo, hexec, rfl⟩ := step_act hs
  have hout := h.outlined t
  rw [htodo] at hout
  have hset := (hout.1 a rfl).1
  have hfalse : tight a i st.shared = false := by
    by_contra hne
    refine hloose fun b rest' hb => ?_
    rw [htodo] at hb
    obtain rfl := Stmt.act.inj (List.cons.inj hb).1
    simpa using hne
  have hown := h.owned t a (htodo ▸ List.mem_cons_self)
  by_cases ht : t = .parent
  · subst ht
    obtain ⟨n, hpipe, hkept, hheld⟩ := lost_of_parent hexec h.linked h.fed hset hown hfalse
    exact ⟨n, hpipe, hkept, fun hn => hheld ((h.pending_perform htodo hexec).mp hn)⟩
  · have ha : a.owner ≠ .parent := by
      rw [hown]
      exact ht
    have hasync := async_of_change ha (change_of_exec hexec)
    have hreap : a = .reap := by
      cases a with
      | bridge | fromClient | farewell | forward | fromParent | exit => cases hfalse
      | reap => rfl
      | _ => exact absurd rfl ha
    subst hreap
    obtain ⟨s, hs, hpipe, hkept⟩ := lost_of_reap hexec h.linked h.fed hfalse
    refine ⟨_, hpipe, hkept, fun hn => ?_⟩
    obtain ⟨b, hb, hn⟩ := (pending_async ht hexec hasync).mp hn
    have hparent := h.outlined .parent
    cases hwork : st.todo .parent with
    | nil =>
      rw [hwork] at hb
      cases hb
    | cons x todo =>
      rw [hwork] at hb hparent
      rcases List.mem_cons.mp hb with rfl | hb
      · obtain ⟨hset', hw⟩ := hparent.1 b rfl
        exact not_held h.linked hs hset' hw hn
      · rw [unclosed_of_setup fun s => (hparent.2 b hb s).1] at hn
        cases hn

theorem accounted_init (history : History) :
    (init history).shared.Accounted (Pending (init history)) := by
  intro n r hn
  change (if n ≤ 3 then some Handle.own else none) = some r at hn
  split at hn
  · next hle => exact Or.inl ⟨(Option.some.inj hn).symm, hle⟩
  · cases hn

/-- Either no step left a pipe behind, and everything is accounted for, or an end is lost. -/
theorem accounted_or_lost (hrun : run step (init history) ls = some st) :
    Meets step Tight (init history) ls ∧ st.shared.Accounted (Pending st) ∨
      ¬ Meets step Tight (init history) ls ∧ ∃ n, st.shared.Lost (Pending st) n :=
  meets_or_broken (I := InDescriptors) (G := fun st => st.shared.Accounted (Pending st))
    (B := fun st => ∃ n, st.shared.Lost (Pending st) n) (fun _ _ _ h hs => h.step hs)
    (fun _ _ _ h hg hok hs => h.accounted_step hg hok hs)
    (fun _ _ _ h hl hs => h.lost_of_not_tight hl hs)
    (fun _ _ _ h ⟨n, hn⟩ hs => ⟨n, h.lost_step hn hs⟩) (inDescriptors_init history)
    (accounted_init history) hrun

/-! ## Numbers -/

theorem le_card_of_lowest {S : Finset Nat} (h : ∀ m, m < n → m ∈ S) : n ≤ S.card := by
  have hsub : Finset.range n ⊆ S := fun m hm => h m (Finset.mem_range.mp hm)
  have hcard := Finset.card_le_card hsub
  rwa [Finset.card_range] at hcard

/-- The numbers that are accounted for. -/
def Shared.numbers (sh : Shared) (held : List Nat) : Finset Nat :=
  Finset.range 4 ∪ Finset.univ.image (fun s => (sh.clients s).toChild.2) ∪
    Finset.univ.image (fun s => (sh.clients s).fromChild.1) ∪ held.toFinset

theorem card_numbers (sh : Shared) (held : List Nat) :
    (sh.numbers held).card ≤ 4 + 2 * maxClients + held.length := by
  have himage : ∀ f : Slot → Nat, (Finset.univ.image f).card ≤ maxClients := by
    intro f
    have h : (Finset.univ.image f).card ≤ (Finset.univ : Finset Slot).card :=
      Finset.card_image_le
    rwa [Finset.card_univ, Fintype.card_fin] at h
  have hto := himage fun s => (sh.clients s).toChild.2
  have hfrom := himage fun s => (sh.clients s).fromChild.1
  have hheld := List.toFinset_card_le held
  have h1 := Finset.card_union_le (Finset.range 4)
    (Finset.univ.image fun s => (sh.clients s).toChild.2)
  have h2 := Finset.card_union_le (Finset.range 4 ∪
    Finset.univ.image fun s => (sh.clients s).toChild.2)
    (Finset.univ.image fun s => (sh.clients s).fromChild.1)
  have h3 := Finset.card_union_le (Finset.range 4 ∪
    (Finset.univ.image fun s => (sh.clients s).toChild.2) ∪
    Finset.univ.image fun s => (sh.clients s).fromChild.1) held.toFinset
  rw [Finset.card_range] at h1
  unfold Shared.numbers
  omega

theorem mem_numbers {held : List Nat} (hacc : sh.Accounted (· ∈ held)) (hn : sh.fd n ≠ none) :
    n ∈ sh.numbers held := by
  obtain ⟨r, hr⟩ := Option.ne_none_iff_exists'.mp hn
  simp only [Shared.numbers, Finset.mem_union, Finset.mem_range, Finset.mem_image, Finset.mem_univ,
    true_and, List.mem_toFinset]
  rcases hacc n r hr with ⟨-, hle⟩ | ⟨s, -, hn⟩ | hh
  · exact Or.inl (Or.inl (Or.inl (by omega)))
  · rcases hn with rfl | rfl
    · exact Or.inl (Or.inl (Or.inr ⟨s, rfl⟩))
    · exact Or.inl (Or.inr ⟨s, rfl⟩)
  · exact Or.inr hh

/-- Every open descriptor fits an `fd_set`. -/
def Shared.Small (sh : Shared) : Prop := ∀ n r, sh.fd n = some r → n < fdSetSize

theorem Shared.Small.openFd (hsmall : sh.Small) {m : Nat} (e : Handle) (hm : m < fdSetSize) :
    (sh.openFd m e).Small := by
  intro n r hn
  rcases fd_openFd_cases hn with rfl | hn
  · exact hm
  · exact hsmall n r hn

/-- The lowest free number is small where the open ones are accounted for. -/
theorem lt_of_lowest {held : List Nat} {S : Finset Nat}
    (hS : S.card ≤ (sh.numbers held).card + 3) (hheld : held.length ≤ 5)
    (hopen : ∀ m, m < n → m ∈ S) : n < fdSetSize := by
  have hn := le_card_of_lowest hopen
  have hcard := card_numbers sh held
  unfold fdSetSize
  unfold maxClients at hcard
  omega

/-- The numbers of a pipe are small where the open ones are accounted for. -/
theorem lowestTwo_lt {held : List Nat} {S : Finset Nat} {p : Nat × Nat}
    (hopen : ∀ m, sh'.fd m ≠ none → m ∈ S) (hS : S.card ≤ (sh.numbers held).card + 2)
    (hheld : held.length ≤ 5) (hp : sh'.LowestTwo p) : p.1 < fdSetSize ∧ p.2 < fdSetSize := by
  constructor
  · exact lt_of_lowest (hS.trans (Nat.le_succ _)) hheld fun m hm => hopen m (hp.1 m hm)
  · have hcard : (insert p.1 S).card ≤ (sh.numbers held).card + 3 :=
      (Finset.card_insert_le p.1 S).trans (Nat.succ_le_succ hS)
    refine lt_of_lowest hcard hheld fun m hm => ?_
    rw [Finset.mem_insert]
    by_cases hmp : m = p.1
    · exact Or.inl hmp
    · exact Or.inr (hopen m (hp.2 m hm hmp))

/-- An act with the lowest free numbers keeps the descriptors small. -/
theorem small_exec (h : exec t a i sh = some out) (hacc : sh.Accounted (· ∈ a.unclosed sh))
    (hsmall : sh.Small) (hlow : frugal a i sh) : out.shared.Small := by
  have hopen : ∀ m, sh.fd m ≠ none → m ∈ sh.numbers (a.unclosed sh) :=
    fun m hm => mem_numbers hacc hm
  by_cases ha : a = .accept
  · subst ha
    simp only [exec] at h
    split at h
    · obtain rfl := goOn_inj h
      exact hsmall
    · next fd hfd =>
      split at h
      · obtain rfl := goOn_inj h
        have hnone : ([] : List Nat).length ≤ 5 := Nat.zero_le 5
        have hlt : fd < fdSetSize :=
          lt_of_lowest (Nat.le_add_right _ 3) hnone fun m hm => hopen m (hlow fd hfd m hm)
        exact hsmall.openFd _ hlt
      · cases h
  by_cases hpipes : ∃ s fd c, a = .pipes s fd c
  · obtain ⟨s, fd, c, rfl⟩ := hpipes
    have hone : [fd].length ≤ 5 := Nat.le_add_left 1 4
    simp only [exec] at h
    split at h
    · obtain rfl := goOn_inj h
      exact hsmall
    · next p hto =>
      obtain ⟨hp, hq⟩ := hlow p hto
      obtain ⟨hp1, hp2⟩ := lowestTwo_lt hopen (Nat.le_add_right _ 2) hone hp
      have hfirst : (sh.openTo s c p).Small := (hsmall.openFd (.toRead c) hp1).openFd (.toWrite c) hp2
      split at h
      · split at h
        · obtain rfl := goOn_inj h
          exact hfirst
        · next q hfrom =>
          split at h
          · obtain rfl := goOn_inj h
            have hcard := Finset.card_insert_le p.2 (sh.numbers [fd])
            have hcard' := Finset.card_insert_le p.1 (insert p.2 (sh.numbers [fd]))
            have hopen' : ∀ m, (sh.openTo s c p).fd m ≠ none →
                m ∈ insert p.1 (insert p.2 (sh.numbers [fd])) := by
              intro m hm
              obtain ⟨r, hr⟩ := Option.ne_none_iff_exists'.mp hm
              rw [Finset.mem_insert, Finset.mem_insert]
              rcases fd_openFd_cases hr with rfl | hr
              · exact Or.inr (Or.inl rfl)
              rcases fd_openFd_cases hr with rfl | hr
              · exact Or.inl rfl
              · exact Or.inr (Or.inr (hopen m (by rw [hr]; exact Option.some_ne_none r)))
            obtain ⟨hq1, hq2⟩ := @lowestTwo_lt sh _ [fd] _ _ hopen' (by omega) hone (hq q hfrom)
            exact (hfirst.openFd (.fromRead c) hq1).openFd (.fromWrite c) hq2
          · cases h
      · cases h
  · exact fun n r hn => hsmall n r
      (fd_before (change_of_exec h) ha (fun s fd c he => hpipes ⟨s, fd, c, he⟩) hn)

theorem InDescriptors.small_step (h : InDescriptors st)
    (hacc : st.shared.Accounted (Pending st)) (hsmall : st.shared.Small) (hlow : Frugal st l)
    (hs : Fork.step st l = some st') : st'.shared.Small := by
  obtain ⟨t, i⟩ := l
  obtain ⟨a, rest, out, htodo, hexec, rfl⟩ := step_act hs
  by_cases ht : t = .parent
  · subst ht
    refine small_exec hexec (fun n r hn => ?_) hsmall (hlow a rest htodo)
    have hplace := hacc n r hn
    rwa [h.pending_iff htodo] at hplace
  · have ha : a.owner ≠ .parent := by
      rw [h.owned t a (htodo ▸ List.mem_cons_self)]
      exact ht
    intro n r hn
    exact hsmall n r ((async_of_change ha (change_of_exec hexec)).fd ▸ hn)

theorem small_of_run (hrun : run step (init history) ls = some st)
    (htight : Meets step Tight (init history) ls) (hlow : Meets step Frugal (init history) ls) :
    st.shared.Small := by
  refine (run_invariant_of_meets (I := fun st => InDescriptors st ∧
    st.shared.Accounted (Pending st) ∧ st.shared.Small) (fun st l st' hok h hs => ?_)
    (htight.and hlow) ⟨inDescriptors_init history, accounted_init history, ?_⟩ hrun).2.2
  · obtain ⟨hi, hacc, hsmall⟩ := h
    exact ⟨hi.step hs, hi.accounted_step hacc hok.1 hs, hi.small_step hacc hsmall hok.2 hs⟩
  · intro n r hn
    change (if n ≤ 3 then some Handle.own else none) = some r at hn
    split at hn
    · unfold fdSetSize
      omega
    · cases hn

/-- In front of `select` the parent holds nothing for a new connection. -/
theorem InDescriptors.not_pending (h : InDescriptors st) (htop : Watching st) : ¬ Pending st n := by
  obtain ⟨slots, rfds, htodo⟩ := htop
  intro hn
  rw [h.pending_iff htodo] at hn
  cases hn

/-- The numbers in use are at most two for each slot. -/
theorem card_kept (sh : Shared) : ∃ fds : Finset Nat, fds.card ≤ 2 * maxClients ∧
    ∀ n, n ∈ fds ↔ sh.Kept n := by
  have himage : ∀ f : Slot → Nat,
      ((Finset.univ.filter fun s => 0 < (sh.clients s).pid).image f).card ≤ maxClients := by
    intro f
    have h : (Finset.univ.filter fun s => 0 < (sh.clients s).pid).card ≤
        (Finset.univ : Finset Slot).card := Finset.card_filter_le ..
    rw [Finset.card_univ, Fintype.card_fin] at h
    exact Finset.card_image_le.trans h
  refine ⟨(Finset.univ.filter fun s => 0 < (sh.clients s).pid).image
      (fun s => (sh.clients s).toChild.2) ∪
    (Finset.univ.filter fun s => 0 < (sh.clients s).pid).image
      (fun s => (sh.clients s).fromChild.1), ?_, fun n => ?_⟩
  · have hcard := Finset.card_union_le ((Finset.univ.filter fun s => 0 < (sh.clients s).pid).image
      (fun s => (sh.clients s).toChild.2)) ((Finset.univ.filter fun s =>
        0 < (sh.clients s).pid).image (fun s => (sh.clients s).fromChild.1))
    have hto := himage fun s => (sh.clients s).toChild.2
    have hfrom := himage fun s => (sh.clients s).fromChild.1
    omega
  · simp only [Finset.mem_union, Finset.mem_image, Finset.mem_filter, Finset.mem_univ, true_and]
    constructor
    · rintro (⟨s, hs, rfl⟩ | ⟨s, hs, rfl⟩)
      · exact ⟨s, hs, Or.inl rfl⟩
      · exact ⟨s, hs, Or.inr rfl⟩
    · rintro ⟨s, hs, rfl | rfl⟩
      · exact Or.inl ⟨s, hs, rfl⟩
      · exact Or.inr ⟨s, hs, rfl⟩

/-- Descriptors of the parent: whenever it is in front of `select`, its open pipe descriptors are
those of the slots with a pid, so that there are at most two for each slot and every number
given to `FD_SET` fits as long as the kernel hands out the lowest free ones, if and only if the
run has left no pipe behind. -/
theorem descriptors_balanced_iff (hrun : run step (init history) ls = some st)
    (htop : Watching st) :
    (st.shared.Balanced ∧
      (∃ fds : Finset Nat, fds.card ≤ 2 * maxClients ∧ ∀ n, n ∈ fds ↔ st.shared.IsPipe n) ∧
      (Meets step Frugal (init history) ls → ∀ s, 0 < (st.shared.clients s).pid →
        (st.shared.clients s).fromChild.1 < fdSetSize)) ↔
      Meets step Tight (init history) ls := by
  have hin : InDescriptors st := run_invariant (fun _ _ _ h hs => h.step hs)
    (inDescriptors_init history) hrun
  constructor
  · rintro ⟨hbal, -⟩
    rcases accounted_or_lost hrun with ⟨hmeets, -⟩ | ⟨-, n, hpipe, hkept, -⟩
    · exact hmeets
    · exact absurd ((hbal n).mp hpipe) hkept
  · intro hmeets
    have hacc : st.shared.Accounted (Pending st) := by
      rcases accounted_or_lost hrun with ⟨-, hacc⟩ | ⟨hno, -⟩
      · exact hacc
      · exact absurd hmeets hno
    have hbal : st.shared.Balanced := by
      intro n
      constructor
      · rintro ⟨r, hr, hp⟩
        rcases hacc n r hr with ⟨rfl, -⟩ | hk | hheld
        · cases hp
        · exact hk
        · exact absurd hheld (hin.not_pending htop)
      · exact isPipe_of_kept hin.linked hin.fed
    refine ⟨hbal, ?_, fun hlow s hs => ?_⟩
    · obtain ⟨fds, hcard, hmem⟩ := card_kept st.shared
      exact ⟨fds, hcard, fun n => (hmem n).trans (hbal n).symm⟩
    · obtain ⟨r, hr, -⟩ := (hbal _).mpr ⟨s, hs, Or.inr rfl⟩
      exact small_of_run hrun hmeets hlow _ r hr

/-- The condition, as a test. -/
def leavesNothing (st : State) (l : Tid × Input) : Bool :=
  match st.todo l.1 with
  | .act a :: _ => tight a l.2 st.shared
  | _ => true

theorem tight_of_test {st : State} {l : Tid × Input} (h : leavesNothing st l = true) :
    Tight st l := by
  intro a rest htodo
  rw [leavesNothing, htodo] at h
  exact h

/-- A connection is accepted and its child created. -/
theorem descriptors_balanced_connect : ∃ st,
    run step (init fun _ => none) (connect 0 4 100) = some st ∧ st.shared.Balanced := by
  have hrun : run step (init fun _ => none) (connect 0 4 100) = some _ := rfl
  have htest : check step leavesNothing (init fun _ => none) (connect 0 4 100) = true := rfl
  exact ⟨_, hrun, ((descriptors_balanced_iff hrun ⟨_, _, rfl⟩).mpr
    (meets_of_check (fun _ _ => tight_of_test) htest)).1⟩

/-- An open pipe without a slot in use. -/
theorem not_balanced (hn : sh.IsPipe n) (hpid : ∀ s, (sh.clients s).pid = 0) : ¬ sh.Balanced := by
  intro hbal
  obtain ⟨s, hs, -⟩ := (hbal n).mp hn
  exact hs.ne' (hpid s)

/-- A client that connects and leaves takes two numbers with it. -/
theorem visit_leaks : ∃ ls st, run step (init fun _ => none) ls = some st ∧ Watching st ∧
    st.shared.IsPipe 6 ∧ st.shared.IsPipe 7 ∧ (∀ s, (st.shared.clients s).pid = 0) ∧
    ¬ st.shared.Balanced := by
  have hbye : WellFormed bye := wellFormed_makeMessage ..
  have hvisit : run step (init fun _ => none) visit = some _ :=
    run_trans rfl (run_trans rfl (run_cons_iff.mpr ⟨_, step_fromClient_end rfl,
      run_trans rfl (run_trans rfl (run_cons_iff.mpr ⟨_, step_recv hbye rfl rfl
        (List.append_nil _).symm, rfl⟩))⟩))
  have hrun : run step (init fun _ => none)
      (visit ++ (.sigchld, { noInput with pid := some 100 }) :: parents 22) = some _ :=
    run_trans hvisit rfl
  refine ⟨_, _, hrun, ?_, ?_, ?_, ?_⟩
  · exact ⟨_, _, rfl⟩
  · exact ⟨.toWrite 0, rfl, rfl⟩
  · exact ⟨.fromRead 0, rfl, rfl⟩
  refine (fun hpid => ⟨hpid, not_balanced (n := 6) ⟨.toWrite 0, rfl, rfl⟩ hpid⟩) ?_
  intro s
  fin_cases s <;> rfl

end ChatSystem.Fork
