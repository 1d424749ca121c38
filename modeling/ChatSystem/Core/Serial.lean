import ChatSystem.Core.Tasks

/-!
# Tasks that work alone

An act has a meaning: what it does, along with everything it expands to, to what is seen of the
shared state. A stop is an act a task waits at. While a task works alone from one stop to the
next, the meaning of what it still has to do, applied to what is seen, stays the same; so at
the next stop what is seen is the meaning of the work.
-/

namespace Tasks

variable {L T A I S V : Type*}

/-- The acts at which a task waits, and what the others mean. -/
structure Meaning (A V : Type*) where
  stop : A → Bool
  act : A → V → V

/-- The first statement is a stop, or there is none. -/
def Meaning.Waits (M : Meaning A V) : List (Stmt L A) → Prop
  | [] => True
  | .act a :: _ => M.stop a = true
  | _ => False

/-- No act is a stop. -/
def Meaning.Free (M : Meaning A V) (p : List (Stmt L A)) : Prop := ∀ a, .act a ∈ p → M.stop a = false

/-- The meaning of the statements in front of the first stop. -/
def Meaning.code (M : Meaning A V) : List (Stmt L A) → V → V
  | [], v => v
  | .lock _ :: p, v => M.code p v
  | .unlock _ :: p, v => M.code p v
  | .act a :: p, v => if M.stop a then v else M.code p (M.act a v)

/-- An act that is no stop leaves its meaning to its expansion, which has no stop either. -/
structure Meaning.Sound (M : Meaning A V) (see : S → V) (ok : T → A → I → S → Prop)
    (exec : T → A → I → S → Option (Outcome L T A S)) : Prop where
  act : ∀ {t a i s out}, exec t a i s = some out → ok t a i s → M.stop a = false →
    M.code out.next (see out.shared) = M.act a (see s)
  free : ∀ {t a i s out}, exec t a i s = some out → M.stop a = false → M.Free out.next

variable {M : Meaning A V} {see : S → V} {ok : T → A → I → S → Prop}
  {exec : T → A → I → S → Option (Outcome L T A S)} {p q : List (Stmt L A)} {v : V} {a : A}

@[simp] theorem Meaning.code_nil (v : V) : M.code ([] : List (Stmt L A)) v = v := rfl

@[simp] theorem Meaning.code_lock (l : L) (p : List (Stmt L A)) (v : V) :
    M.code (.lock l :: p) v = M.code p v := rfl

@[simp] theorem Meaning.code_unlock (l : L) (p : List (Stmt L A)) (v : V) :
    M.code (.unlock l :: p) v = M.code p v := rfl

theorem Meaning.code_act (h : M.stop a = false) (p : List (Stmt L A)) (v : V) :
    M.code (.act a :: p) v = M.code p (M.act a v) := by
  rw [code, if_neg (by simp [h])]

/-- A task that waits has nothing to do before its stop. -/
theorem Meaning.Waits.code (h : M.Waits p) (v : V) : M.code p v = v := by
  cases p with
  | nil => rfl
  | cons x p =>
    cases x with
    | lock l => cases h
    | unlock l => cases h
    | act a =>
      have h : M.stop a = true := h
      rw [Meaning.code, if_pos h]

theorem Meaning.Free.append (hp : M.Free p) (hq : M.Free q) : M.Free (p ++ q) := by
  intro a h
  rcases List.mem_append.mp h with h | h
  · exact hp a h
  · exact hq a h

/-- Work without a stop is done before what stands behind it. -/
theorem Meaning.Free.code_append (h : M.Free p) (q : List (Stmt L A)) (v : V) :
    M.code (p ++ q) v = M.code q (M.code p v) := by
  induction p generalizing v with
  | nil => rfl
  | cons x p ih =>
    have hp : M.Free p := fun a ha => h a (List.mem_cons_of_mem _ ha)
    cases x with
    | lock l => exact ih hp v
    | unlock l => exact ih hp v
    | act a =>
      have ha := h a List.mem_cons_self
      rw [List.cons_append, code_act ha, code_act ha]
      exact ih hp _

variable [DecidableEq L] [DecidableEq T] {st st' : State L T A S} {t u : T} {i : I}

/-- Another task only gets work from a step that starts it. -/
theorem todo_step_of_ne (h : step exec st (t, i) = some st') (hu : u ≠ t) :
    st'.todo u = st.todo u ∨ ∃ a rest out p, st.todo t = .act a :: rest ∧
      exec t a i st.shared = some out ∧ out.spawn = some (u, p) ∧ st'.todo u = st.todo u ++ p := by
  rcases step_cases h with ⟨k, rest, -, -, rfl⟩ | ⟨k, rest, -, rfl⟩ | ⟨a, rest, out, ha, he, rfl⟩
  · exact Or.inl (todo_goOn_of_ne hu _)
  · exact Or.inl (todo_goOn_of_ne hu _)
  · have htodo : (st.perform t rest out).todo u = st.todo u ++ started u out.spawn := by
      simp only [State.perform, if_neg hu]
    rcases started_cases u out.spawn with hs | hs
    · rw [hs, List.append_nil] at htodo
      exact Or.inl htodo
    · exact Or.inr ⟨a, rest, out, _, ha, he, hs, htodo⟩

/-- A step that is no stop keeps the meaning of what is left to do. -/
theorem Meaning.Sound.step (hM : M.Sound see ok exec) (h : step exec st (t, i) = some st')
    (hok : ∀ a rest, st.todo t = .act a :: rest → ok t a i st.shared)
    (hfront : ¬ M.Waits (st.todo t))
    (hself : ∀ a rest out p, st.todo t = .act a :: rest → exec t a i st.shared = some out →
      out.spawn ≠ some (t, p)) :
    M.code (st'.todo t) (see st'.shared) = M.code (st.todo t) (see st.shared) := by
  rcases step_cases h with ⟨k, rest, hk, -, rfl⟩ | ⟨k, rest, hk, rfl⟩ | ⟨a, rest, out, ha, he, rfl⟩
  · rw [hk, todo_goOn_self]
    rfl
  · rw [hk, todo_goOn_self]
    rfl
  · have hstop : M.stop a = false := by
      rw [ha] at hfront
      simpa [Meaning.Waits] using hfront
    have htodo : (st.perform t rest out).todo t = out.next ++ rest := by
      have hnone : started t out.spawn = [] :=
        (started_cases t out.spawn).resolve_right (hself a rest out _ ha he)
      simp only [State.perform, if_true, hnone, List.append_nil]
    have hshared : (st.perform t rest out).shared = out.shared := rfl
    rw [ha, htodo, hshared, (hM.free he hstop).code_append, hM.act he (hok a rest ha) hstop,
      code_act hstop]

end Tasks
