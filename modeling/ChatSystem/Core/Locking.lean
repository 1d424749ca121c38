import ChatSystem.Core.Tasks
import ChatSystem.Core.Transition
import Mathlib.Logic.Relation

/-!
# Lock operations of tasks

What the lock discipline says about a state and about a run: a task owns at most
one lock, stands in front of taking a lock only without one, and its operations
come in pairs of taking a lock and giving it back. So a task that owns a lock
never waits, and waiting has no cycles.
-/

namespace Tasks

variable {L T A I S : Type*}

/-- The locks a task owns: none, or one. -/
def Holds (st : State L T A S) (t : T) (h : Option L) : Prop :=
  ∀ l, st.owner l = some t ↔ h = some l

/-- A task stands in front of a lock that another one owns. -/
def Waits (st : State L T A S) (t u : T) : Prop :=
  ∃ k rest, st.todo t = .lock k :: rest ∧ st.owner k = some u

/-- A lock is taken, or given back. -/
inductive LockOp (L : Type*)
  | took (l : L)
  | gave (l : L)

/-- Locks taken and given back, one after the other. -/
def pairs (ks : List L) : List (LockOp L) := ks.flatMap fun k => [.took k, .gave k]

/-- The operation that took the lock now held. -/
def pending (h : Option L) : List (LockOp L) := h.toList.map .took

@[simp] theorem pairs_nil : pairs ([] : List L) = [] := rfl

@[simp] theorem pairs_cons (k : L) (ks : List L) :
    pairs (k :: ks) = .took k :: .gave k :: pairs ks := rfl

@[simp] theorem pending_none : pending (none : Option L) = [] := rfl

@[simp] theorem pending_some (k : L) : pending (some k) = [.took k] := rfl

section Run

variable [DecidableEq L] [DecidableEq T]

/-- The lock operation of a statement. -/
def Stmt.lockOp : Stmt L A → List (LockOp L)
  | .lock k => [.took k]
  | .unlock k => [.gave k]
  | .act _ => []

/-- The lock operation of a task by the next step. -/
def opBy (st : State L T A S) (t u : T) : List (LockOp L) :=
  if u = t then (st.todo t).head?.elim [] Stmt.lockOp else []

/-- The lock operations of a task along a run. -/
def lockOps (exec : T → A → I → S → Option (Outcome L T A S)) (t : T) :
    State L T A S → List (T × I) → List (LockOp L) :=
  Transition.collect (step exec) fun st l => opBy st t l.1

end Run

section State

variable [DecidableEq L] {effect : A → Option L → Option (Option L)}
  {st : State L T A S} {t u v : T} {k l : L} {rest : List (Stmt L A)}

/-- The lock a task holds is the one its work starts with. -/
theorem Disciplined.holds (hd : Disciplined effect st) (t : T) :
    ∃ h, Holds st t h ∧ flow effect h (st.todo t) = some none := by
  obtain ⟨held, hflow, howner⟩ := hd
  exact ⟨held t, fun l => howner l t, hflow t⟩

/-- Nobody owns two locks. -/
theorem Disciplined.eq_of_owner (hd : Disciplined effect st) (hk : st.owner k = some t)
    (hl : st.owner l = some t) : k = l := by
  obtain ⟨h, hh, -⟩ := hd.holds t
  exact Option.some.inj (((hh k).mp hk).symm.trans ((hh l).mp hl))

/-- A task in front of taking a lock owns none. -/
theorem Disciplined.free_of_lock (hd : Disciplined effect st) (ht : st.todo t = .lock k :: rest)
    (l : L) : st.owner l ≠ some t := by
  obtain ⟨h, hh, hflow⟩ := hd.holds t
  intro ho
  rw [ht, (hh l).mp ho] at hflow
  simp [flow] at hflow

/-- A task in front of giving a lock back owns it. -/
theorem Disciplined.owner_of_unlock (hd : Disciplined effect st)
    (ht : st.todo t = .unlock k :: rest) : st.owner k = some t := by
  obtain ⟨h, hh, hflow⟩ := hd.holds t
  rw [ht] at hflow
  simp only [flow] at hflow
  split at hflow
  · next he => exact (hh k).mpr he
  · cases hflow

/-- A task without further work owns no lock. -/
theorem Disciplined.free_of_nil (hd : Disciplined effect st) (ht : st.todo t = []) (l : L) :
    st.owner l ≠ some t := by
  obtain ⟨h, hh, hflow⟩ := hd.holds t
  intro ho
  rw [ht, (hh l).mp ho] at hflow
  simp [flow] at hflow

/-- A task in front of an act holds a lock the act may stand under. -/
theorem Disciplined.effect_of_act (hd : Disciplined effect st) {a : A}
    (ht : st.todo t = .act a :: rest) (ho : st.owner l = some t) : effect a (some l) ≠ none := by
  obtain ⟨h, hh, hflow⟩ := hd.holds t
  intro he
  rw [ht, (hh l).mp ho] at hflow
  simp [flow, he] at hflow

/-- A task somebody waits for does not wait. -/
theorem Disciplined.not_waits (hd : Disciplined effect st) (htu : Waits st t u) :
    ¬ Waits st u v := by
  obtain ⟨k, rest, -, ho⟩ := htu
  rintro ⟨k', rest', hu, -⟩
  exact hd.free_of_lock hu k ho

/-- Waiting has no cycles. -/
theorem Disciplined.acyclic (hd : Disciplined effect st) (t : T) :
    ¬ Relation.TransGen (Waits st) t t := by
  intro hcycle
  obtain ⟨u, htu, hut⟩ := Relation.TransGen.head'_iff.mp hcycle
  rcases hut.cases_head with rfl | ⟨v, huv, -⟩
  · exact hd.not_waits htu htu
  · exact hd.not_waits htu huv

end State

section Run

variable [DecidableEq L] [DecidableEq T] {effect : A → Option L → Option (Option L)}
  {exec : T → A → I → S → Option (Outcome L T A S)} {st st' : State L T A S}

/-- What a step does to the locks of a task. -/
theorem Holds.step {t : T} {h : Option L} (hh : Holds st t h) (hd : Disciplined effect st)
    {l : T × I} (hs : step exec st l = some st') :
    ∃ h', Holds st' t h' ∧
      ((h' = h ∧ opBy st t l.1 = []) ∨ (∃ k, h = none ∧ h' = some k ∧ opBy st t l.1 = [.took k]) ∨
        ∃ k, h = some k ∧ h' = none ∧ opBy st t l.1 = [.gave k]) := by
  rcases step_cases hs with ⟨k, rest, hk, hfree, rfl⟩ | ⟨k, rest, hk, rfl⟩ |
      ⟨a, rest, out, ha, -, rfl⟩
  · by_cases ht : l.1 = t
    · -- this task takes a lock: it owned none before
      subst ht
      have hnone : h = none := by
        rw [Option.eq_none_iff_forall_ne_some]
        intro k' hk'
        exact hd.free_of_lock hk k' ((hh k').mpr hk')
      refine ⟨some k, ?_, Or.inr (Or.inl ⟨k, hnone, rfl, by simp [opBy, hk, Stmt.lockOp]⟩)⟩
      intro k'
      by_cases he : k' = k
      · simp [he]
      · have := hh k'
        rw [hnone] at this
        simpa [he, Ne.symm he] using this
    · refine ⟨h, ?_, Or.inl ⟨rfl, by simp [opBy, ht]⟩⟩
      intro k'
      by_cases he : k' = k
      · have hno := hh k
        rw [hfree] at hno
        simpa [he, ht] using hno
      · simpa [he] using hh k'
  · by_cases ht : l.1 = t
    · subst ht
      have hk' : h = some k := (hh k).mp (hd.owner_of_unlock hk)
      refine ⟨none, ?_, Or.inr (Or.inr ⟨k, hk', rfl, by simp [opBy, hk, Stmt.lockOp]⟩)⟩
      intro k'
      by_cases he : k' = k
      · simp [he]
      · have := hh k'
        rw [hk'] at this
        simpa [he, Ne.symm he] using this
    · -- another task gives its own lock back
      refine ⟨h, ?_, Or.inl ⟨rfl, by simp [opBy, ht]⟩⟩
      intro k'
      by_cases he : k' = k
      · have hno := hh k
        rw [hd.owner_of_unlock hk] at hno
        simpa [he, ht] using hno
      · simpa [he] using hh k'
  · refine ⟨h, hh, Or.inl ⟨rfl, ?_⟩⟩
    by_cases ht : l.1 = t
    · subst ht
      simp [opBy, ha, Stmt.lockOp]
    · simp [opBy, ht]

/-- Along a run a task takes and gives back its locks in pairs, up to the one it holds. -/
theorem lockOps_run (hobeys : Obeys effect exec) {t : T} {h : Option L} {ls : List (T × I)}
    (hd : Disciplined effect st) (hh : Holds st t h)
    (hrun : Transition.run (step exec) st ls = some st') :
    ∃ ks h', Holds st' t h' ∧ pending h ++ lockOps exec t st ls = pairs ks ++ pending h' := by
  induction ls generalizing st h with
  | nil =>
    obtain rfl := Option.some.inj hrun
    exact ⟨[], h, hh, List.append_nil _⟩
  | cons l ls ih =>
    obtain ⟨st₁, hs, hrest⟩ := Transition.run_cons_iff.mp hrun
    obtain ⟨h₁, hh₁, hop⟩ := hh.step hd hs
    obtain ⟨ks, h', hh', heq⟩ := ih (hd.step hobeys hs) hh₁ hrest
    rw [lockOps, Transition.collect_cons hs]
    rw [lockOps] at heq
    rcases hop with ⟨rfl, hno⟩ | ⟨k, rfl, rfl, htook⟩ | ⟨k, rfl, rfl, hgave⟩
    · exact ⟨ks, h', hh', by rw [hno, List.nil_append, heq]⟩
    · exact ⟨ks, h', hh', by rw [htook, ← heq]; rfl⟩
    · refine ⟨k :: ks, h', hh', ?_⟩
      rw [pending_none, List.nil_append] at heq
      rw [hgave, heq]
      rfl

end Run

end Tasks
