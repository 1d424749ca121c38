import ChatSystem.Thread.Steps

/-!
# The life of a session

What is left to do for a thread is some work in front of a fixed ending: the
accept loop finishes with the connection it took, a client thread cleans up and
closes its socket. The endings form a small machine of their own, the accept loop
with its stages and the sessions with their phases, and every step of the threads
is a move of it.
-/

namespace ChatSystem.Thread

open Tasks Transition

/-- How far the accept loop is with the connection `c` it took as `fd`. -/
inductive Stage
  | idle
  | taken (fd c : Nat)
  | refused (fd c : Nat)
  | filled (s : Slot) (fd c : Nat)
  | abandoned (s : Slot) (fd c : Nat)

/-- The ending of the accept loop. -/
def Stage.code : Stage → Code
  | .idle => [.act .accept]
  | .taken fd c => [.act (.allot fd c), .act .accept]
  | .refused fd _ => [.act (.closeFd fd), .act .accept]
  | .filled s fd c => [.act (.create s fd c), .act .accept]
  | .abandoned s fd _ => [.act (.abandon s), .act (.closeFd fd), .act .accept]

/-- The descriptor and the connection the accept loop is busy with. -/
def Stage.pending : Stage → Option (Nat × Nat)
  | .idle => none
  | .taken fd c | .refused fd c | .filled _ fd c | .abandoned _ fd c => some (fd, c)

/-- How far a client thread is. -/
inductive Phase
  | gone
  | leaving
  | serving
  deriving DecidableEq

/-- The ending of a client thread. -/
def Phase.code (s : Slot) : Phase → Code
  | .gone => []
  | .leaving => [.act (.closeSocket s)]
  | .serving => [.act (.cleanup s), .act (.closeSocket s)]

/-- The work in front of the ending. -/
def Phase.Front (s : Slot) : Phase → Code → Prop
  | .gone, p => p = []
  | .leaving, p => Sending p
  | .serving, p => Serving s p

/-- The phase of every possible client thread. -/
abbrev Phases := Slot × Nat → Phase

variable {st st' : State} {g : Stage} {k : Phases} {t : Tid} {i : Input}

/-- The work of a thread fits its stage or phase. -/
def Fits (g : Stage) (k : Phases) : Tid → Code → Prop
  | .main, todo => ∃ p, Sending p ∧ todo = p ++ g.code
  | .client s c, todo => ∃ p, (k (s, c)).Front s p ∧ todo = p ++ (k (s, c)).code s

/-- The state of the threads shows the given stage and phases. -/
structure At (st : State) (g : Stage) (k : Phases) : Prop where
  todo : ∀ t, Fits g k t (st.todo t)
  bound : ∀ s c, k (s, c) ≠ .gone → c < st.shared.accepted
  fresh : ∀ fd c, g.pending = some (fd, c) → c < st.shared.accepted ∧ ∀ s, k (s, c) = .gone

/-- The moves of the accept loop and the sessions. -/
inductive Move (st : State) (l : Tid × Input) : Stage → Phases → Shared → Stage → Phases → Prop
  | stay (g : Stage) (k : Phases) : Move st l g k st.shared g k
  | work {a : Act} {rest : Code} {sh : Shared} {g : Stage} {k : Phases}
    (htodo : st.todo l.1 = .act a :: rest) (hc : Change l.1 st.shared a sh)
    (ha : a.role = .sending ∨
      ∃ s c, l.1 = .client s c ∧ a.role = .serving s ∧ k (s, c) = .serving) :
    Move st l g k sh g k
  | accept {fd : Nat} {k : Phases} (hl : l.1 = .main) (htodo : st.todo .main = [.act .accept])
    (hfd : l.2.fd = some fd) (hfree : st.shared.conn fd = none) :
    Move st l .idle k (st.shared.accept fd) (.taken fd st.shared.accepted) k
  | refuse (fd c : Nat) (k : Phases) : Move st l (.taken fd c) k st.shared (.refused fd c) k
  | fill {s : Slot} {fd c : Nat} {k : Phases} (hl : l.1 = .main)
    (htodo : st.todo .main = [.act (.allot fd c), .act .accept])
    (hfree : st.shared.findFree = some s) :
    Move st l (.taken fd c) k (st.shared.fill s fd) (.filled s fd c) k
  | start (s : Slot) (fd c : Nat) (k : Phases) :
    Move st l (.filled s fd c) k (st.shared.note (.started s c)) .idle
      (Function.update k (s, c) .serving)
  | giveUp (s : Slot) (fd c : Nat) (k : Phases) :
    Move st l (.filled s fd c) k st.shared (.abandoned s fd c) k
  | abandon (s : Slot) (fd c : Nat) (k : Phases) :
    Move st l (.abandoned s fd c) k (st.shared.abandon s) (.refused fd c) k
  | closeFd (fd c : Nat) (k : Phases) :
    Move st l (.refused fd c) k (st.shared.close .main fd) .idle k
  | leave {s : Slot} {c : Nat} {g : Stage} {k : Phases} (hk : k (s, c) = .serving) :
    Move st l g k (st.shared.release s) g (Function.update k (s, c) .leaving)
  | close {s : Slot} {c : Nat} {g : Stage} {k : Phases}
    (htodo : st.todo (.client s c) = [.act (.closeSocket s)]) (hk : k (s, c) = .leaving) :
    Move st l g k (st.shared.close (.client s c) (st.shared.clients s).sockfd) g
      (Function.update k (s, c) .gone)

/-! ## Work in front of the ending -/

theorem Phase.Front.cons {s : Slot} {ph : Phase} {x : Stmt Lock Act} {p : Code}
    (h : ph.Front s (x :: p)) : ph ≠ .gone ∧ ph.Front s p := by
  cases ph with
  | gone => cases h
  | leaving =>
    have h : Sending (x :: p) := h
    exact ⟨by simp, h.tail⟩
  | serving =>
    have h : Serving s (x :: p) := h
    exact ⟨by simp, h.tail⟩

/-- A client thread does not see the stage nor the phases of other threads. -/
theorem fits_update {g' : Stage} {s s' : Slot} {c c' : Nat} {ph : Phase} {todo : Code}
    (h : (s', c') ≠ (s, c)) : Fits g' (Function.update k (s, c) ph) (.client s' c') todo ↔
      Fits g k (.client s' c') todo := by
  simp only [Fits, Function.update_of_ne h]

/-- Dropping a lock operation in front keeps the stage. -/
theorem Fits.skip {x : Stmt Lock Act} {rest : Code} (h : Fits g k t (x :: rest))
    (hx : ∀ a, x ≠ .act a) : Fits g k t rest := by
  cases t with
  | main =>
    obtain ⟨p, hp, he⟩ := h
    rcases List.append_eq_cons_iff.mp he.symm with ⟨-, hg⟩ | ⟨q, rfl, rfl⟩
    · cases g <;> exact absurd (List.cons.inj hg).1.symm (hx _)
    · exact ⟨q, hp.tail, rfl⟩
  | client s c =>
    obtain ⟨p, hp, he⟩ := h
    rcases List.append_eq_cons_iff.mp he.symm with ⟨-, hg⟩ | ⟨q, rfl, rfl⟩
    · cases hk : k (s, c) <;> rw [hk] at hg
      · cases hg
      · exact absurd (List.cons.inj hg).1.symm (hx _)
      · exact absurd (List.cons.inj hg).1.symm (hx _)
    · exact ⟨q, hp.cons.2, rfl⟩

/-- A step of one thread that keeps the stage and the phases. -/
theorem At.same (h : At st g k) (hacc : st'.shared.accepted = st.shared.accepted)
    (hother : ∀ u, u ≠ t → st'.todo u = st.todo u) (hself : Fits g k t (st'.todo t)) :
    At st' g k := by
  refine ⟨fun u => ?_, fun s c hk => ?_, fun fd c hg => ?_⟩
  · by_cases hu : u = t
    · subst hu
      exact hself
    · rw [hother u hu]
      exact h.todo u
  · rw [hacc]
    exact h.bound s c hk
  · rw [hacc]
    exact h.fresh fd c hg

theorem spawn_eq_none {sh : Shared} {a : Act} {out : Outcome Lock Tid Act Shared}
    (h : exec t a i sh = some out) (ha : a.role ≠ .accepting) : out.spawn = none := by
  cases hp : out.spawn with
  | none => rfl
  | some up =>
    obtain ⟨s, fd, c, rfl, -⟩ := spawn_eq_some h hp
    exact absurd rfl ha

/-- An act in front of the ending is work, and so is what it expands to. -/
theorem At.work (h : At st g k) {a : Act} {rest : Code} {out : Outcome Lock Tid Act Shared}
    (hexec : exec t a i st.shared = some out) (ha : a.role ≠ .accepting)
    (hfits : Fits g k t (out.next ++ rest)) (hacc : out.shared.accepted = st.shared.accepted) :
    At (st.perform t rest out) g k := by
  have hspawn := spawn_eq_none hexec ha
  apply h.same (t := t) hacc
  · intro u hu
    exact todo_perform_of_ne hspawn hu
  · rw [todo_perform_self hspawn]
    exact hfits

theorem accepted_close (sh : Shared) (t : Tid) (fd : Nat) :
    (sh.close t fd).accepted = sh.accepted := by
  unfold Shared.close
  split <;> rfl

/-- Only `accept` counts a connection. -/
theorem Change.accepted {sh sh' : Shared} {a : Act} (h : Change t sh a sh') (ha : a ≠ .accept) :
    sh'.accepted = sh.accepted := by
  cases h
  case accept => exact absurd rfl ha
  case closeFd => exact accepted_close ..
  case closeSocket => exact accepted_close ..
  all_goals rfl

/-! ## The accept loop -/

/-- A connection not yet accepted has no thread. -/
theorem At.gone_of_le (h : At st g k) (s : Slot) {c : Nat} (hc : st.shared.accepted ≤ c) :
    k (s, c) = .gone := by
  by_contra hk
  exact absurd (h.bound s c hk) (Nat.not_lt.mpr hc)

/-- The accept loop moves to another stage. -/
theorem At.advance (h : At st g k) {g' : Stage} {rest p : Code}
    {out : Outcome Lock Tid Act Shared} (hspawn : out.spawn = none) (hp : Sending p)
    (hnext : out.next ++ rest = p ++ g'.code) (hle : st.shared.accepted ≤ out.shared.accepted)
    (hfresh : ∀ fd c, g'.pending = some (fd, c) →
      c < out.shared.accepted ∧ ∀ s, k (s, c) = .gone) :
    At (st.perform .main rest out) g' k := by
  refine ⟨fun u => ?_, fun s c hk => ?_, hfresh⟩
  · cases u with
    | main =>
      rw [todo_perform_self hspawn]
      exact ⟨p, hp, hnext⟩
    | client s c =>
      rw [todo_perform_of_ne hspawn (by simp)]
      exact h.todo (.client s c)
  · exact Nat.lt_of_lt_of_le (h.bound s c hk) hle

/-- The accept loop creates the thread of a connection. -/
theorem At.started {s : Slot} {fd c : Nat} (h : At st (.filled s fd c) k)
    {out : Outcome Lock Tid Act Shared} (hspawn : out.spawn = some (.client s c, clientThread s))
    (hnext : out.next = []) (hacc : out.shared.accepted = st.shared.accepted) :
    At (st.perform .main [.act .accept] out) .idle (Function.update k (s, c) .serving) := by
  obtain ⟨hc, hgone⟩ := h.fresh fd c rfl
  refine ⟨fun u => ?_, fun s' c' hk => ?_, fun _ _ hg => by cases hg⟩
  · cases u with
    | main => exact ⟨[], by simp [Sending], by simp [State.perform, hspawn, hnext, Tasks.started,
        Stage.code]⟩
    | client s' c' =>
      by_cases hsc : (s', c') = (s, c)
      · obtain ⟨rfl, rfl⟩ := Prod.mk.inj hsc
        obtain ⟨p, hp, he⟩ := h.todo (.client s' c')
        rw [hgone s'] at hp he
        obtain rfl : p = [] := hp
        refine ⟨[.act (.recv s'), .lock .table], ?_, ?_⟩
        · simp [Phase.Front, Serving, Act.role]
        · simp [State.perform, hspawn, Tasks.started, he, Phase.code, clientThread]
      · have hne : Tid.client s' c' ≠ .client s c := fun he => hsc (by cases he; rfl)
        have : (st.perform .main [.act .accept] out).todo (.client s' c') =
            st.todo (.client s' c') := by
          simp only [State.perform, hspawn, Tasks.started, if_neg hne]
          simp
        rw [this]
        exact (fits_update hsc).mpr (h.todo (.client s' c'))
  · change c' < out.shared.accepted
    rw [hacc]
    by_cases hsc : (s', c') = (s, c)
    · obtain ⟨rfl, rfl⟩ := Prod.mk.inj hsc
      exact hc
    · rw [Function.update_of_ne hsc] at hk
      exact h.bound s' c' hk

theorem At.step_main (h : At st g k) {a : Act} {rest : Code}
    {out : Outcome Lock Tid Act Shared} (htodo : st.todo .main = .act a :: rest)
    (hexec : exec .main a i st.shared = some out) :
    ∃ g' k', Move st (.main, i) g k out.shared g' k' ∧ At (st.perform .main rest out) g' k' := by
  obtain ⟨p, hp, he⟩ := h.todo .main
  rw [htodo] at he
  rcases List.append_eq_cons_iff.mp he.symm with ⟨-, hg⟩ | ⟨q, rfl, rfl⟩
  · cases g with
    | idle =>
      obtain ⟨ha, rfl⟩ := List.cons.inj hg
      obtain rfl := Stmt.act.inj ha
      simp only [exec] at hexec
      split at hexec
      · obtain rfl := goOn_inj hexec
        exact ⟨_, _, .stay _ _, h.advance rfl (p := []) (by simp [Sending]) rfl (Nat.le_refl _)
          h.fresh⟩
      · next fd hfd =>
        split at hexec
        · next hfree =>
          obtain rfl := goOn_inj hexec
          refine ⟨_, _, .accept rfl htodo hfd (Option.isNone_iff_eq_none.mp hfree),
            h.advance rfl (p := [.lock .table]) (by simp [Sending]) rfl (Nat.le_succ _) ?_⟩
          intro fd' c hc
          obtain ⟨-, rfl⟩ := Prod.mk.inj (Option.some.inj hc)
          exact ⟨Nat.lt_succ_self _, fun s => h.gone_of_le s (Nat.le_refl _)⟩
        · cases hexec
    | taken fd c =>
      obtain ⟨ha, rfl⟩ := List.cons.inj hg
      obtain rfl := Stmt.act.inj ha
      simp only [exec] at hexec
      split at hexec
      · obtain rfl := goOn_inj hexec
        exact ⟨_, _, .refuse fd c k, h.advance rfl (p := [.unlock .table, .act (.refuse fd)])
          (by simp [Sending, Act.role]) rfl (Nat.le_refl _) h.fresh⟩
      · next s hfree =>
        obtain rfl := goOn_inj hexec
        exact ⟨_, _, .fill rfl htodo hfree, h.advance rfl (p := [.unlock .table])
          (by simp [Sending]) rfl (Nat.le_refl _) h.fresh⟩
    | refused fd c =>
      obtain ⟨ha, rfl⟩ := List.cons.inj hg
      obtain rfl := Stmt.act.inj ha
      obtain rfl := goOn_inj hexec
      exact ⟨_, _, .closeFd fd c k, h.advance rfl (p := []) (by simp [Sending]) rfl
        (accepted_close ..).ge fun _ _ hc => by cases hc⟩
    | filled s fd c =>
      obtain ⟨ha, rfl⟩ := List.cons.inj hg
      obtain rfl := Stmt.act.inj ha
      simp only [exec] at hexec
      split at hexec
      · obtain rfl := Option.some.inj hexec
        exact ⟨_, _, .start s fd c k, h.started rfl rfl rfl⟩
      · obtain rfl := goOn_inj hexec
        exact ⟨_, _, .giveUp s fd c k, h.advance rfl (p := []) (by simp [Sending]) rfl
          (Nat.le_refl _) h.fresh⟩
    | abandoned s fd c =>
      obtain ⟨ha, rfl⟩ := List.cons.inj hg
      obtain rfl := Stmt.act.inj ha
      obtain rfl := goOn_inj hexec
      exact ⟨_, _, .abandon s fd c k, h.advance rfl (p := []) (by simp [Sending]) rfl
        (Nat.le_refl _) h.fresh⟩
  · have ha : a.role = .sending := hp a List.mem_cons_self
    refine ⟨g, k, .work htodo (change_of_exec hexec) (Or.inl ha), h.work hexec (by simp [ha]) ?_ ?_⟩
    · refine ⟨out.next ++ q, ?_, (List.append_assoc ..).symm⟩
      exact allRoles_append.mpr ⟨sending_next hexec ha, hp.tail⟩
    · exact (change_of_exec hexec).accepted (fun he => by rw [he] at ha; cases ha)

/-! ## The client threads -/

/-- A client thread moves to another phase. -/
theorem At.turn (h : At st g k) {s : Slot} {c : Nat} {ph : Phase} {rest p : Code}
    {out : Outcome Lock Tid Act Shared} (hk : k (s, c) ≠ .gone) (hspawn : out.spawn = none)
    (hp : ph.Front s p) (hnext : out.next ++ rest = p ++ ph.code s)
    (hacc : out.shared.accepted = st.shared.accepted) :
    At (st.perform (.client s c) rest out) g (Function.update k (s, c) ph) := by
  have hbound := h.bound s c hk
  refine ⟨fun u => ?_, fun s' c' hk' => ?_, fun fd c' hg => ?_⟩
  · cases u with
    | main =>
      rw [todo_perform_of_ne hspawn (by simp)]
      exact h.todo .main
    | client s' c' =>
      by_cases hsc : (s', c') = (s, c)
      · obtain ⟨rfl, rfl⟩ := Prod.mk.inj hsc
        rw [todo_perform_self hspawn]
        simp only [Fits, Function.update_self]
        exact ⟨p, hp, hnext⟩
      · rw [todo_perform_of_ne hspawn fun he => hsc (by cases he; rfl)]
        exact (fits_update hsc).mpr (h.todo (.client s' c'))
  · change c' < out.shared.accepted
    rw [hacc]
    by_cases hsc : (s', c') = (s, c)
    · obtain ⟨rfl, rfl⟩ := Prod.mk.inj hsc
      exact hbound
    · rw [Function.update_of_ne hsc] at hk'
      exact h.bound s' c' hk'
  · change c' < out.shared.accepted ∧ _
    rw [hacc]
    obtain ⟨hc', hgone⟩ := h.fresh fd c' hg
    refine ⟨hc', fun s' => ?_⟩
    rw [Function.update_of_ne]
    · exact hgone s'
    · intro hsc
      obtain ⟨rfl, rfl⟩ := Prod.mk.inj hsc
      exact hk (hgone s')

theorem At.step_client (h : At st g k) {s : Slot} {c : Nat} {a : Act} {rest : Code}
    {out : Outcome Lock Tid Act Shared} (htodo : st.todo (.client s c) = .act a :: rest)
    (hexec : exec (.client s c) a i st.shared = some out) :
    ∃ g' k', Move st (.client s c, i) g k out.shared g' k' ∧
      At (st.perform (.client s c) rest out) g' k' := by
  obtain ⟨p, hp, he⟩ := h.todo (.client s c)
  rw [htodo] at he
  have hk : k (s, c) ≠ .gone := by
    intro hk
    rw [hk] at hp he
    obtain rfl : p = [] := hp
    cases he
  rcases List.append_eq_cons_iff.mp he.symm with ⟨-, hg⟩ | ⟨q, rfl, rfl⟩
  · cases hph : k (s, c) with
    | gone => exact absurd hph hk
    | leaving =>
      rw [hph] at hg
      obtain ⟨ha, rfl⟩ := List.cons.inj hg
      obtain rfl := Stmt.act.inj ha
      obtain rfl := goOn_inj hexec
      exact ⟨g, _, .close htodo hph, h.turn hk rfl (p := []) rfl rfl (accepted_close ..)⟩
    | serving =>
      rw [hph] at hg
      obtain ⟨ha, rfl⟩ := List.cons.inj hg
      obtain rfl := Stmt.act.inj ha
      have hnext := leaving_next hexec rfl
      have hspawn := spawn_eq_none hexec (by simp [Act.role])
      have hacc := (change_of_exec hexec).accepted (by simp)
      have hshared : out.shared = st.shared.release s := by
        obtain rfl := goOn_inj hexec
        rfl
      rw [hshared]
      exact ⟨g, _, .leave hph, h.turn hk hspawn hnext rfl hacc⟩
  · have hrole : a.role = .sending ∨ a.role = .serving s ∧ k (s, c) = .serving := by
      cases hph : k (s, c) with
      | gone => exact absurd hph hk
      | leaving =>
        rw [hph] at hp
        exact Or.inl (hp a List.mem_cons_self)
      | serving =>
        rw [hph] at hp
        rcases hp a List.mem_cons_self with ha | ha
        · exact Or.inr ⟨ha, rfl⟩
        · exact Or.inl ha
    have hnotmain : a.role ≠ .accepting := by
      rcases hrole with ha | ⟨ha, -⟩ <;> simp [ha]
    have hchange := change_of_exec hexec
    have hacc : out.shared.accepted = st.shared.accepted :=
      hchange.accepted fun he => hnotmain (by rw [he]; rfl)
    have hfront : (k (s, c)).Front s (out.next ++ q) := by
      have hq := hp.cons.2
      rcases hrole with ha | ⟨ha, hph⟩
      · have hn := sending_next hexec ha
        cases hph : k (s, c) with
        | gone => exact absurd hph hk
        | leaving =>
          rw [hph] at hq
          exact allRoles_append.mpr ⟨hn, hq⟩
        | serving =>
          rw [hph] at hq
          exact allRoles_append.mpr ⟨hn.serving s, hq⟩
      · rw [hph] at hq ⊢
        exact allRoles_append.mpr ⟨serving_next hexec ha, hq⟩
    refine ⟨g, k, .work htodo hchange ?_, h.work hexec hnotmain ?_ hacc⟩
    · rcases hrole with ha | ⟨ha, hph⟩
      · exact Or.inl ha
      · exact Or.inr ⟨s, c, rfl, ha, hph⟩
    · exact ⟨out.next ++ q, hfront, (List.append_assoc ..).symm⟩

/-- Every step of the threads is a move of the accept loop or of a session. -/
theorem At.step (h : At st g k) {l : Tid × Input} (hs : step st l = some st') :
    ∃ g' k', Move st l g k st'.shared g' k' ∧ At st' g' k' := by
  obtain ⟨t, i⟩ := l
  rcases Tasks.step_cases hs with ⟨x, rest, htodo, -, rfl⟩ | ⟨x, rest, htodo, rfl⟩ |
      ⟨a, rest, out, htodo, hexec, rfl⟩
  · have hfits := h.todo t
    rw [htodo] at hfits
    refine ⟨g, k, .stay g k, h.same (t := t) rfl (fun u hu => todo_goOn_of_ne hu _) ?_⟩
    rw [todo_goOn_self]
    exact hfits.skip (by simp)
  · have hfits := h.todo t
    rw [htodo] at hfits
    refine ⟨g, k, .stay g k, h.same (t := t) rfl (fun u hu => todo_goOn_of_ne hu _) ?_⟩
    rw [todo_goOn_self]
    exact hfits.skip (by simp)
  · cases t with
    | main => exact h.step_main htodo hexec
    | client s c => exact h.step_client htodo hexec

theorem at_init (history : History) : At (init history) .idle fun _ => .gone := by
  refine ⟨fun u => ?_, fun s c hk => absurd rfl hk, fun _ _ hg => by cases hg⟩
  cases u with
  | main => exact ⟨[], by simp [Sending], rfl⟩
  | client s c => exact ⟨[], rfl, rfl⟩

/-- A client thread has work left exactly if its session is not over. -/
theorem At.todo_eq_nil_iff (h : At st g k) (s : Slot) (c : Nat) :
    st.todo (.client s c) = [] ↔ k (s, c) = .gone := by
  obtain ⟨p, hp, he⟩ := h.todo (.client s c)
  rw [he]
  cases hk : k (s, c) with
  | gone =>
    rw [hk] at hp
    obtain rfl : p = [] := hp
    simp [Phase.code]
  | leaving => simp [Phase.code]
  | serving => simp [Phase.code]

end ChatSystem.Thread
