import ChatSystem.Core.Locking
import ChatSystem.Thread.Names

/-!
# Locks of the thread server

`table_lock` and the `send_lock` of each slot, over every interleaving of the
accept loop and the client threads. A thread owns at most one of them, gives
back what it took before it takes the next, and an owner can always go on: no
thread that owns a lock waits for one.
-/

namespace ChatSystem.Thread

open Tasks Transition

/-- The acts between whose statements a thread has nothing taken: the head of the accept loop,
the head of the loop of `client_thread`, and the calls of `route`. -/
def Act.atRest : Act → Prop
  | .accept | .recv _ | .route _ _ => True
  | _ => False

/-- At the head of its loop a thread owns no lock. -/
theorem free_of_atRest {st : State} (hd : Disciplined effect st) {t : Tid} {a : Act} {rest : Code}
    (ht : st.todo t = .act a :: rest) (ha : a.atRest) (k : Lock) : st.owner k ≠ some t := by
  intro ho
  have heff := hd.effect_of_act ht ho
  cases a
  case accept => exact heff rfl
  case recv s => exact heff rfl
  case route s m => exact heff rfl
  all_goals exact ha

/-- An act under a lock is never refused. -/
theorem exec_isSome {t : Tid} {a : Act} {k : Lock} (h : effect a (some k) ≠ none) (i : Input)
    (sh : Shared) : (exec t a i sh).isSome := by
  cases a
  case accept => exact absurd rfl h
  all_goals
    simp only [exec]
    repeat' split
  all_goals rfl

/-- A thread that owns a lock can take its next step, whatever the others do. -/
theorem owner_steps {st : State} (hd : Disciplined effect st) {t : Tid} {k : Lock}
    (ho : st.owner k = some t) (i : Input) : (step st (t, i)).isSome := by
  unfold step
  cases htodo : st.todo t with
  | nil => exact absurd ho (hd.free_of_nil htodo k)
  | cons x rest =>
    cases x with
    | lock l => exact absurd ho (hd.free_of_lock htodo k)
    | unlock l =>
      rw [step_unlock_eq htodo]
      rfl
    | act a =>
      have hexec := exec_isSome (t := t) (hd.effect_of_act htodo ho) i st.shared
      simp only [Tasks.step, htodo, Option.isSome_map, hexec]

/-- Lock discipline: after every run of the accept loop and the client threads, over every
interleaving, every message and every outcome, a thread owns at most one lock, takes a lock only
without owning one, releases only what it owns, has taken and released its locks in pairs up to
the one it owns, owns none at the head of its loop and when it ends, and no threads wait for each
other in a cycle. -/
theorem locks_disciplined {history : History} {ls : List (Tid × Input)} {st : State}
    (hrun : run step (init history) ls = some st) :
    (∀ t k l, st.owner k = some t → st.owner l = some t → k = l) ∧
    (∀ t k rest, st.todo t = .lock k :: rest → ∀ l, st.owner l ≠ some t) ∧
    (∀ t k rest, st.todo t = .unlock k :: rest → st.owner k = some t) ∧
    (∀ t, ∃ ks h, lockOps exec t (init history) ls = pairs ks ++ pending h ∧ Holds st t h) ∧
    (∀ t, st.todo t = [] ∨ (∃ a rest, st.todo t = .act a :: rest ∧ a.atRest) →
      ∀ l, st.owner l ≠ some t) ∧
    ∀ t, ¬ Relation.TransGen (Waits st) t t := by
  have hd : Disciplined effect st := (inOrder_of_reachable ⟨ls, hrun⟩).disciplined
  refine ⟨fun t k l => hd.eq_of_owner, fun t k rest => hd.free_of_lock,
    fun t k rest => hd.owner_of_unlock, fun t => ?_, fun t => ?_, hd.acyclic⟩
  · have hnone : Holds (init history) t none := by
      intro l
      simp [init]
    obtain ⟨ks, h, hh, heq⟩ := lockOps_run obeys (disciplined_init history) hnone hrun
    exact ⟨ks, h, heq, hh⟩
  · rintro (hnil | ⟨a, rest, ht, ha⟩) l
    · exact hd.free_of_nil hnil l
    · exact free_of_atRest hd ht ha l

/-- The thread of a connection takes `table_lock` for its cleanup, while a second connection is
accepted and waits for it. -/
theorem locks_disciplined_cleanup : ∃ st, run step (init fun _ => none)
      (connect 4 ++ (works 0 0 2 ++ [(.main, { noInput with fd := some 5 })])) = some st ∧
    st.owner .table = some (.client 0 0) ∧ Waits st .main (.client 0 0) ∧
    ∀ t, ¬ Relation.TransGen (Waits st) t t := by
  have hrun : run step (init fun _ => none)
      (connect 4 ++ (works 0 0 2 ++ [(.main, { noInput with fd := some 5 })])) = some _ :=
    run_trans rfl (run_cons_iff.mpr ⟨_, step_recv_end rfl, rfl⟩)
  obtain ⟨-, -, -, -, -, hacyclic⟩ := locks_disciplined hrun
  exact ⟨_, hrun, rfl, ⟨_, _, rfl, rfl⟩, hacyclic⟩

end ChatSystem.Thread
