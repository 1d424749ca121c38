import Mathlib.Algebra.BigOperators.Group.Finset.Basic
import Mathlib.Algebra.Order.BigOperators.Group.Finset
import ChatSystem.Core.Budget
import ChatSystem.Core.Locking

/-!
# Work that ends

Tasks rest in front of some acts, and every other act costs no less than what it expands to.
Then a task that works comes to rest, whatever the others do in between. Where tasks obey the
locks and no act blocks, somebody can work as long as anybody does not rest; so all schedules of
work are finite and end with everybody at rest.
-/

namespace Tasks

variable {L T A I S : Type*}

/-- The acts in front of which a task rests, what the expansion of each other act costs at most,
and the inputs with which it gets on. -/
structure Cost (A I : Type*) where
  stop : A → Bool
  weight : A → Nat
  ok : A → I → Prop

namespace Cost

variable (K : Cost A I)

/-- What a task still has to do before it rests. -/
def effort : List (Stmt L A) → Nat
  | [] => 0
  | .act a :: rest => if K.stop a then 0 else 1 + K.weight a + effort rest
  | .lock _ :: rest => 1 + effort rest
  | .unlock _ :: rest => 1 + effort rest

/-- A task works: it is not in front of a rest, and its input lets it get on. -/
def Works (st : State L T A S) (l : T × I) : Prop :=
  ∀ a rest, st.todo l.1 = .act a :: rest → K.stop a = false ∧ K.ok a l.2

/-- All acts are paid for, no act but a rest leads to a rest, and started tasks begin with one. -/
structure Sound (exec : T → A → I → S → Option (Outcome L T A S)) : Prop where
  pays : ∀ {t a i sh out}, exec t a i sh = some out → K.stop a = false → K.ok a i →
    K.effort out.next ≤ K.weight a
  keeps : ∀ {t a i sh out}, exec t a i sh = some out → K.stop a = false →
    K.effort out.next ≤ 1 + K.weight a
  plain : ∀ {t a i sh out}, exec t a i sh = some out → K.stop a = false →
    ∀ b, .act b ∈ out.next → K.stop b = false
  calm : ∀ {t a i sh out u p}, exec t a i sh = some out → out.spawn = some (u, p) →
    K.effort p = 0

/-- A task never has more than `most` to do before it rests, and no more than `last` behind a
rest. -/
def Within (most last : Nat) (p : List (Stmt L A)) : Prop :=
  ∀ q, q <:+ p → K.effort q ≤ most ∧
    ∀ a rest, q = .act a :: rest → K.stop a = true → K.effort rest ≤ last

variable {K} {most last : Nat}

theorem effort_append_le (p q : List (Stmt L A)) : K.effort (p ++ q) ≤ K.effort p + K.effort q := by
  induction p with
  | nil => exact (Nat.zero_add _).ge
  | cons x p ih =>
    cases x with
    | act a =>
      simp only [List.cons_append, effort]
      split <;> omega
    | lock l =>
      simp only [List.cons_append, effort]
      omega
    | unlock l =>
      simp only [List.cons_append, effort]
      omega

/-- A task without work rests. -/
theorem effort_eq_zero {p : List (Stmt L A)} (h : K.effort p = 0) :
    p = [] ∨ ∃ a rest, p = .act a :: rest ∧ K.stop a = true := by
  cases p with
  | nil => exact Or.inl rfl
  | cons x p =>
    cases x with
    | act a =>
      simp only [effort] at h
      split at h
      · next ha => exact Or.inr ⟨a, p, rfl, ha⟩
      · omega
    | lock l =>
      simp only [effort] at h
      omega
    | unlock l =>
      simp only [effort] at h
      omega

theorem effort_started [DecidableEq T] {exec : T → A → I → S → Option (Outcome L T A S)}
    (hK : K.Sound exec) {t : T} {a : A} {i : I} {sh : S} {out : Outcome L T A S}
    (h : exec t a i sh = some out) (u : T) : K.effort (started u out.spawn) = 0 := by
  rcases started_cases u out.spawn with hnil | hsome
  · rw [hnil]
    rfl
  · exact hK.calm h hsome

/-- The end of some work without a rest costs no more than the work. -/
theorem effort_suffix_le {p q : List (Stmt L A)} (hp : ∀ a, .act a ∈ p → K.stop a = false)
    (h : q <:+ p) : K.effort q ≤ K.effort p := by
  induction p with
  | nil =>
    rw [List.suffix_nil.mp h]
  | cons x p ih =>
    rcases List.suffix_cons_iff.mp h with rfl | h
    · exact Nat.le_refl _
    · have hle := ih (fun a ha => hp a (List.mem_cons_of_mem _ ha)) h
      cases x with
      | act a =>
        have ha := hp a List.mem_cons_self
        simp only [effort, ha, Bool.false_eq_true, if_false]
        omega
      | lock k =>
        simp only [effort]
        omega
      | unlock k =>
        simp only [effort]
        omega

theorem Within.suffix {p q : List (Stmt L A)} (h : K.Within most last p) (hq : q <:+ p) :
    K.Within most last q := fun r hr => h r (hr.trans hq)

theorem within_nil : K.Within most last ([] : List (Stmt L A)) := by
  intro q hq
  rw [List.suffix_nil.mp hq]
  refine ⟨Nat.zero_le _, fun a rest he => ?_⟩
  cases he

theorem within_cons {x : Stmt L A} {p : List (Stmt L A)} (hx : K.effort (x :: p) ≤ most)
    (hstop : ∀ a, x = .act a → K.stop a = true → K.effort p ≤ last) (h : K.Within most last p) :
    K.Within most last (x :: p) := by
  intro q hq
  rcases List.suffix_cons_iff.mp hq with rfl | hq
  · refine ⟨hx, fun a rest he ha => ?_⟩
    obtain ⟨rfl, rfl⟩ := List.cons.inj he
    exact hstop a rfl ha
  · exact h q hq

/-- Work without a rest in front of some more. -/
theorem Within.append {p q : List (Stmt L A)} (h : K.Within most last q)
    (hp : ∀ a, .act a ∈ p → K.stop a = false) (hle : K.effort p + K.effort q ≤ most) :
    K.Within most last (p ++ q) := by
  induction p with
  | nil => exact h
  | cons x p ih =>
    have hsuffix : K.effort p ≤ K.effort (x :: p) :=
      effort_suffix_le hp (List.suffix_cons x p)
    refine within_cons ((effort_append_le (x :: p) q).trans hle) (fun a hx ha => ?_)
      (ih (fun a ha => hp a (List.mem_cons_of_mem _ ha)) (by omega))
    have hno := hp a (hx ▸ List.mem_cons_self)
    rw [ha] at hno
    cases hno

/-- A task that rests first may come behind any work. -/
theorem Within.behind {p q : List (Stmt L A)} (h : K.Within most last p)
    (hq : K.Within most last q) (hzero : K.effort q = 0) : K.Within most last (p ++ q) := by
  induction p with
  | nil => exact hq
  | cons x p ih =>
    obtain ⟨hmost, hlast⟩ := h (x :: p) (List.suffix_refl _)
    have hle : ∀ r, K.effort (r ++ q) ≤ K.effort r := by
      intro r
      have happend := effort_append_le (K := K) r q
      omega
    refine within_cons ((hle (x :: p)).trans hmost) (fun a hx ha => ?_)
      (ih (h.suffix (List.suffix_cons x p)))
    exact (hle p).trans (hlast a p (by rw [hx]) ha)

section Run

variable [DecidableEq L] [DecidableEq T] {exec : T → A → I → S → Option (Outcome L T A S)}
  (hK : K.Sound exec) {st st' : State L T A S} {l : T × I}

include hK

/-- Whatever step is made, no task gets more to do than it may have, if that is so behind a rest
and of the tasks that are started. -/
theorem Within.step {u : T} (h : ∀ u, K.Within most last (st.todo u))
    (hrest : ∀ t a i rest out, exec t a i st.shared = some out → K.stop a = true →
      K.Within most last (.act a :: rest) → K.Within most last (out.next ++ rest))
    (hspawn : ∀ t a i out u p, exec t a i st.shared = some out → out.spawn = some (u, p) →
      K.Within most last p)
    (hs : step exec st l = some st') : K.Within most last (st'.todo u) := by
  rcases step_cases hs with ⟨k, rest, htodo, -, rfl⟩ | ⟨k, rest, htodo, rfl⟩ |
      ⟨a, rest, out, htodo, hexec, rfl⟩
  · by_cases hu : u = l.1
    · rw [hu, todo_goOn_self]
      exact (htodo ▸ h l.1).suffix (List.suffix_cons _ _)
    · rw [todo_goOn_of_ne hu]
      exact h u
  · by_cases hu : u = l.1
    · rw [hu, todo_goOn_self]
      exact (htodo ▸ h l.1).suffix (List.suffix_cons _ _)
    · rw [todo_goOn_of_ne hu]
      exact h u
  · have hself : K.Within most last (.act a :: rest) := htodo ▸ h l.1
    have hfront : K.Within most last (if u = l.1 then out.next ++ rest else st.todo u) := by
      split
      · cases hstop : K.stop a with
        | true => exact hrest l.1 a l.2 rest out hexec hstop hself
        | false =>
          have hmost := (hself _ (List.suffix_refl _)).1
          have hkeeps := hK.keeps hexec hstop
          simp only [effort, hstop, Bool.false_eq_true, if_false] at hmost
          exact (hself.suffix (List.suffix_cons _ _)).append (hK.plain hexec hstop) (by omega)
      · exact h u
    rcases started_cases u out.spawn with hnil | hsome
    · have hsame : (st.perform l.1 rest out).todo u =
          if u = l.1 then out.next ++ rest else st.todo u := by
        simp only [State.perform, hnil, List.append_nil]
      rw [hsame]
      exact hfront
    · exact hfront.behind (hspawn _ _ _ _ _ _ hexec hsome) (hK.calm hexec hsome)

/-- A task does not get more to do by what the others do. -/
theorem effort_other {u : T} (hs : step exec st l = some st') (hu : u ≠ l.1) :
    K.effort (st'.todo u) ≤ K.effort (st.todo u) := by
  rcases step_cases hs with ⟨k, rest, -, -, rfl⟩ | ⟨k, rest, -, rfl⟩ | ⟨a, rest, out, -, hexec, rfl⟩
  · rw [todo_goOn_of_ne hu]
    exact Nat.le_refl _
  · rw [todo_goOn_of_ne hu]
    exact Nat.le_refl _
  · have hcalm := effort_started hK hexec u
    have happend := effort_append_le (K := K) (st.todo u) (started u out.spawn)
    simp only [State.perform, if_neg hu]
    omega

/-- A task that works has less to do behind it. -/
theorem effort_self (hs : step exec st l = some st') (hw : K.Works st l) :
    K.effort (st'.todo l.1) < K.effort (st.todo l.1) := by
  rcases step_cases hs with ⟨k, rest, htodo, -, rfl⟩ | ⟨k, rest, htodo, rfl⟩ |
      ⟨a, rest, out, htodo, hexec, rfl⟩
  · rw [todo_goOn_self, htodo, effort]
    omega
  · rw [todo_goOn_self, htodo, effort]
    omega
  · obtain ⟨hstop, hok⟩ := hw a rest htodo
    have hcalm := effort_started hK hexec l.1
    have hpays := hK.pays hexec hstop hok
    have hfront := effort_append_le (K := K) (out.next ++ rest) (started l.1 out.spawn)
    have hnext := effort_append_le (K := K) out.next rest
    simp only [State.perform, if_true, htodo, effort, hstop, Bool.false_eq_true, if_false]
    omega

/-- Whatever the others do, a task takes no more steps than it has to do before it rests. -/
theorem steps_le {t : T} {ls : List (T × I)}
    (hw : Transition.Meets (step exec) (fun st l => l.1 = t → K.Works st l) st ls)
    (hrun : Transition.run (step exec) st ls = some st') :
    (ls.filter fun l => l.1 = t).length + K.effort (st'.todo t) ≤ K.effort (st.todo t) := by
  induction ls generalizing st with
  | nil =>
    obtain rfl := Option.some.inj hrun
    simp
  | cons l ls ih =>
    obtain ⟨st₁, hs, hrest⟩ := Transition.run_cons_iff.mp hrun
    have hle := ih (hw.2 st₁ hs) hrest
    by_cases hl : l.1 = t
    · have hlt := effort_self hK hs (hw.1 hl)
      rw [hl] at hlt
      rw [List.filter_cons_of_pos (by simpa using hl), List.length_cons]
      omega
    · have hother := effort_other hK hs (Ne.symm hl)
      rw [List.filter_cons_of_neg (by simpa using hl)]
      omega

/-- What some tasks still have to do. -/
def total (K : Cost A I) (ts : Finset T) (st : State L T A S) : Nat :=
  ∑ t ∈ ts, K.effort (st.todo t)

theorem total_step {ts : Finset T} (hs : step exec st l = some st') (hw : K.Works st l)
    (hl : l.1 ∈ ts) : K.total ts st' < K.total ts st := by
  refine Finset.sum_lt_sum (fun u _ => ?_) ⟨l.1, hl, effort_self hK hs hw⟩
  by_cases hu : u = l.1
  · rw [hu]
    exact (effort_self hK hs hw).le
  · exact effort_other hK hs hu

/-- Work of tasks of which only some have anything to do leaves them less of it. -/
theorem total_lt {ts : Finset T} {P : State L T A S → Prop}
    (hts : ∀ st, P st → ∀ t, t ∉ ts → st.todo t = []) (st : State L T A S) (l : T × I)
    (st' : State L T A S) (hst : P st) (hw : K.Works st l) (hs : step exec st l = some st') :
    K.total ts st' < K.total ts st := by
  refine total_step hK hs hw ?_
  by_contra hno
  have hnil := hts st hst l.1 hno
  rcases step_cases hs with ⟨_, _, htodo, -⟩ | ⟨_, _, htodo, -⟩ | ⟨_, _, _, htodo, -⟩ <;>
    exact absurd (htodo.symm.trans hnil) (by simp)

/-- A schedule of work takes no more steps than there is to do. -/
theorem length_le {ts : Finset T} {P : State L T A S → Prop}
    (hP : ∀ st l st', P st → K.Works st l → step exec st l = some st' → P st')
    (hts : ∀ st, P st → ∀ t, t ∉ ts → st.todo t = []) (hst : P st) {ls : List (T × I)}
    (hw : Transition.Meets (step exec) K.Works st ls)
    (hrun : Transition.run (step exec) st ls = some st') :
    ls.length + K.total ts st' ≤ K.total ts st :=
  Budget.length_le hP (total_lt hK hts) hst hw hrun

end Run

section Locks

variable [DecidableEq L] [DecidableEq T] {exec : T → A → I → S → Option (Outcome L T A S)}
  {effect : A → Option L → Option (Option L)} {st : State L T A S}

/-- No act blocks: in every state there is an input with which it gets on. -/
def Enabled (K : Cost A I) (exec : T → A → I → S → Option (Outcome L T A S))
    (st : State L T A S) : Prop :=
  ∀ t a rest, st.todo t = .act a :: rest → K.stop a = false →
    ∃ i, K.ok a i ∧ (exec t a i st.shared).isSome

/-- A task in front of anything but a lock can work. -/
theorem Enabled.exists_step [Nonempty I] (h : K.Enabled exec st) {t : T} {x : Stmt L A}
    {rest : List (Stmt L A)} (ht : st.todo t = x :: rest) (hx : ∀ k, x ≠ .lock k)
    (hstop : ∀ a, x = .act a → K.stop a = false) :
    ∃ l, K.Works st l ∧ (step exec st l).isSome := by
  obtain ⟨i⟩ := ‹Nonempty I›
  cases x with
  | lock k => exact absurd rfl (hx k)
  | unlock k =>
    refine ⟨(t, i), fun a rest' ha => ?_, ?_⟩
    · cases ht.symm.trans ha
    · simp [step, ht]
  | act a =>
    obtain ⟨i, hok, hsome⟩ := h t a rest ht (hstop a rfl)
    refine ⟨(t, i), fun b rest' hb => ?_, ?_⟩
    · obtain rfl := Stmt.act.inj (List.cons.inj (ht.symm.trans hb)).1
      exact ⟨hstop a rfl, hok⟩
    · simp [step, ht, hsome]

/-- As long as not everybody rests, somebody can work: whoever waits for a lock waits for a task
that can. -/
theorem exists_works [Nonempty I] (hd : Disciplined effect st) (h : K.Enabled exec st)
    (hheld : ∀ a k, K.stop a = true → effect a (some k) = none) {t : T}
    (ht : K.effort (st.todo t) ≠ 0) : ∃ l, K.Works st l ∧ (step exec st l).isSome := by
  cases htodo : st.todo t with
  | nil =>
    rw [htodo] at ht
    exact absurd rfl ht
  | cons x rest =>
    have hstop : ∀ a, x = .act a → K.stop a = false := by
      rintro a rfl
      by_contra hne
      rw [Bool.not_eq_false] at hne
      rw [htodo, effort, if_pos hne] at ht
      exact ht rfl
    by_cases hx : ∃ k, x = .lock k
    · obtain ⟨k, rfl⟩ := hx
      cases ho : st.owner k with
      | none =>
        obtain ⟨i⟩ := ‹Nonempty I›
        refine ⟨(t, i), fun a rest' ha => ?_, ?_⟩
        · cases htodo.symm.trans ha
        · simp [step, htodo, ho]
      | some u =>
        cases hu : st.todo u with
        | nil => exact absurd ho (hd.free_of_nil hu k)
        | cons y rest' =>
          refine h.exists_step hu ?_ ?_
          · rintro k' rfl
            exact hd.free_of_lock hu k ho
          · rintro a rfl
            by_contra hne
            rw [Bool.not_eq_false] at hne
            exact hd.effect_of_act hu ho (hheld a k hne)
    · exact h.exists_step htodo (fun k hk => hx ⟨k, hk⟩) hstop

end Locks

section Rest

variable [DecidableEq L] [DecidableEq T] {exec : T → A → I → S → Option (Outcome L T A S)}
  {st : State L T A S}

/-- Where somebody can work as long as not everybody rests, a schedule of work ends with everybody
at rest. -/
theorem exists_rest (hK : K.Sound exec) {ts : Finset T} {P : State L T A S → Prop}
    (hP : ∀ st l st', P st → K.Works st l → step exec st l = some st' → P st')
    (hts : ∀ st, P st → ∀ t, t ∉ ts → st.todo t = [])
    (hgo : ∀ st, P st → ∀ t, K.effort (st.todo t) ≠ 0 →
      ∃ l, K.Works st l ∧ (step exec st l).isSome) (hst : P st) :
    ∃ ls st', Transition.Meets (step exec) K.Works st ls ∧
      Transition.run (step exec) st ls = some st' ∧ P st' ∧ ∀ t, K.effort (st'.todo t) = 0 := by
  refine Budget.exists_rest (fun st => ∀ t, K.effort (st.todo t) = 0) hP
    (total_lt hK hts) (fun st hst hrest => ?_) hst
  obtain ⟨t, ht⟩ := not_forall.mp hrest
  exact hgo st hst t ht

end Rest

end Cost

end Tasks
