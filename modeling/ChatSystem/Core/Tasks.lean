import Mathlib.Data.List.Basic
import Mathlib.Logic.Function.Basic

/-!
# Tasks with work lists and locks

Tasks share a state and a family of locks. The work of a task is a list of
statements: taking a lock, releasing it, or an act on the shared state, which
may put further statements in front of the list and start another task. One
statement of one task is one step.

An effect says which lock a task holds before and after an act. Work that obeys
it never holds two locks, so two tasks never stand at acts that need the same
lock, and an assertion about the next act of a task only has to survive the acts
the locks let the others perform.
-/

namespace Tasks

/-- A statement of a task. -/
inductive Stmt (L A : Type*)
  | lock (l : L)
  | unlock (l : L)
  | act (a : A)

/-- What an act leaves: the shared state, the statements it expands to, a task it starts. -/
structure Outcome (L T A S : Type*) where
  shared : S
  next : List (Stmt L A)
  spawn : Option (T × List (Stmt L A))

/-- The shared state, the owner of each lock and the work of each task. -/
structure State (L T A S : Type*) where
  shared : S
  owner : L → Option T
  todo : T → List (Stmt L A)

variable {L T A I S : Type*}

/-- A lock is given to a task or to nobody. -/
def State.pass [DecidableEq L] (st : State L T A S) (l : L) (o : Option T) : State L T A S :=
  { st with owner := Function.update st.owner l o }

@[simp] theorem shared_pass [DecidableEq L] (st : State L T A S) (l : L) (o : Option T) :
    (st.pass l o).shared = st.shared := rfl

@[simp] theorem owner_pass [DecidableEq L] (st : State L T A S) (l : L) (o : Option T) :
    (st.pass l o).owner = Function.update st.owner l o := rfl

@[simp] theorem todo_pass [DecidableEq L] (st : State L T A S) (l : L) (o : Option T) :
    (st.pass l o).todo = st.todo := rfl

section Work

variable [DecidableEq T]

/-- The statements a task gets from a started one. -/
def started (t : T) : Option (T × List (Stmt L A)) → List (Stmt L A)
  | none => []
  | some (u, p) => if t = u then p else []

theorem started_cases (t : T) (sp : Option (T × List (Stmt L A))) :
    started t sp = [] ∨ sp = some (t, started t sp) := by
  cases sp with
  | none => exact Or.inl rfl
  | some up =>
    obtain ⟨u, p⟩ := up
    by_cases h : t = u
    · subst h
      exact Or.inr (by simp [started])
    · exact Or.inl (by simp [started, h])

/-- The work of a task is replaced. -/
def State.goOn (st : State L T A S) (t : T) (rest : List (Stmt L A)) : State L T A S :=
  { st with todo := Function.update st.todo t rest }

/-- The state behind an act in front of `rest`; started work is appended. -/
def State.perform (st : State L T A S) (t : T) (rest : List (Stmt L A))
    (out : Outcome L T A S) : State L T A S where
  shared := out.shared
  owner := st.owner
  todo u := (if u = t then out.next ++ rest else st.todo u) ++ started u out.spawn

variable {st : State L T A S}

@[simp] theorem shared_goOn (t : T) (p : List (Stmt L A)) : (st.goOn t p).shared = st.shared := rfl

@[simp] theorem owner_goOn (t : T) (p : List (Stmt L A)) : (st.goOn t p).owner = st.owner := rfl

@[simp] theorem todo_goOn_self (t : T) (p : List (Stmt L A)) : (st.goOn t p).todo t = p :=
  Function.update_self ..

theorem todo_goOn_of_ne {t u : T} (h : u ≠ t) (p : List (Stmt L A)) :
    (st.goOn t p).todo u = st.todo u :=
  Function.update_of_ne h ..

section NoSpawn

variable {t u : T} {rest : List (Stmt L A)} {out : Outcome L T A S} (h : out.spawn = none)
include h

/-- An act that starts nothing puts its expansion in front of the rest. -/
theorem perform_eq : st.perform t rest out =
    { st with shared := out.shared }.goOn t (out.next ++ rest) := by
  simp only [State.perform, State.goOn, h, started, List.append_nil, State.mk.injEq, true_and]
  ext1 u
  by_cases hu : u = t
  · subst hu
    simp
  · simp [hu]

theorem todo_perform_self : (st.perform t rest out).todo t = out.next ++ rest := by
  rw [perform_eq h, todo_goOn_self]

theorem todo_perform_of_ne (hu : u ≠ t) : (st.perform t rest out).todo u = st.todo u := by
  rw [perform_eq h, todo_goOn_of_ne hu]

end NoSpawn

end Work

variable [DecidableEq L] [DecidableEq T]

/-- One statement of one task; taking a lock waits until nobody owns it. -/
def step (exec : T → A → I → S → Option (Outcome L T A S)) (st : State L T A S) (l : T × I) :
    Option (State L T A S) :=
  match st.todo l.1 with
  | [] => none
  | .lock k :: rest =>
    if (st.owner k).isNone then some ((st.pass k (some l.1)).goOn l.1 rest) else none
  | .unlock k :: rest => some ((st.pass k none).goOn l.1 rest)
  | .act a :: rest => (exec l.1 a l.2 st.shared).map (st.perform l.1 rest)

variable {exec : T → A → I → S → Option (Outcome L T A S)} {st st' : State L T A S} {l : T × I}

/-! ## One step -/

/-- The three kinds of a step. -/
theorem step_cases (h : step exec st l = some st') :
    (∃ k rest, st.todo l.1 = .lock k :: rest ∧ st.owner k = none ∧
      st' = (st.pass k (some l.1)).goOn l.1 rest) ∨
    (∃ k rest, st.todo l.1 = .unlock k :: rest ∧ st' = (st.pass k none).goOn l.1 rest) ∨
    (∃ a rest out, st.todo l.1 = .act a :: rest ∧ exec l.1 a l.2 st.shared = some out ∧
      st' = st.perform l.1 rest out) := by
  unfold step at h
  split at h
  · cases h
  · next k rest hk =>
    split at h
    · next ho => exact Or.inl ⟨k, rest, hk, by simpa using ho, (Option.some.inj h).symm⟩
    · cases h
  · next k rest hk => exact Or.inr (Or.inl ⟨k, rest, hk, (Option.some.inj h).symm⟩)
  · next a rest ha =>
    obtain ⟨out, ho, he⟩ := Option.map_eq_some_iff.mp h
    exact Or.inr (Or.inr ⟨a, rest, out, ha, ho, he.symm⟩)

/-- What every act keeps of the shared state, every step keeps. -/
theorem step_shared {P : S → Prop}
    (hexec : ∀ t a i s out, exec t a i s = some out → P s → P out.shared)
    (h : step exec st l = some st') (hi : P st.shared) : P st'.shared := by
  rcases step_cases h with ⟨k, rest, -, -, rfl⟩ | ⟨k, rest, -, rfl⟩ | ⟨a, rest, out, -, he, rfl⟩
  · exact hi
  · exact hi
  · exact hexec l.1 a l.2 st.shared out he hi

section Alone

variable {t : T} {i : I} {rest : List (Stmt L A)} {k : L}

/-- An act that starts nothing. -/
theorem step_act_eq {a : A} {out : Outcome L T A S} (h : st.todo t = .act a :: rest)
    (he : exec t a i st.shared = some out) (hs : out.spawn = none) :
    step exec st (t, i) = some ({ st with shared := out.shared }.goOn t (out.next ++ rest)) := by
  simp only [step, h, he, Option.map_some, perform_eq hs]

/-- Taking a free lock. -/
theorem step_lock_eq (h : st.todo t = .lock k :: rest) (hk : st.owner k = none) :
    step exec st (t, i) = some ((st.pass k (some t)).goOn t rest) := by
  simp only [step, h, hk, Option.isNone_none, if_true]

/-- Releasing a lock. -/
theorem step_unlock_eq (h : st.todo t = .unlock k :: rest) :
    step exec st (t, i) = some ((st.pass k none).goOn t rest) := by
  simp only [step, h]

end Alone

/-- What a task has to do after a step it had to do before, or an act has just added it. -/
theorem mem_todo (h : step exec st l = some st') {u : T} {x : Stmt L A} (hx : x ∈ st'.todo u) :
    x ∈ st.todo u ∨ ∃ a rest out, st.todo l.1 = .act a :: rest ∧
      exec l.1 a l.2 st.shared = some out ∧ st'.shared = out.shared ∧
      (u = l.1 ∧ x ∈ out.next ∨ ∃ p, out.spawn = some (u, p) ∧ x ∈ p) := by
  have hskip : ∀ {y : Stmt L A} {rest : List (Stmt L A)} {st₁ : State L T A S},
      st.todo l.1 = y :: rest → st₁.todo = st.todo → x ∈ (st₁.goOn l.1 rest).todo u →
        x ∈ st.todo u := by
    intro y rest st₁ htodo he hm
    by_cases hu : u = l.1
    · subst hu
      rw [todo_goOn_self] at hm
      rw [htodo]
      exact List.mem_cons_of_mem _ hm
    · rw [todo_goOn_of_ne hu, he] at hm
      exact hm
  rcases step_cases h with ⟨k, rest, hk, -, rfl⟩ | ⟨k, rest, hk, rfl⟩ | ⟨a, rest, out, ha, he, rfl⟩
  · exact Or.inl (hskip hk (todo_pass ..) hx)
  · exact Or.inl (hskip hk (todo_pass ..) hx)
  · simp only [State.perform, List.mem_append] at hx
    rcases hx with hx | hx
    · split at hx
      · next hu =>
        rcases List.mem_append.mp hx with hx | hx
        · exact Or.inr ⟨a, rest, out, ha, he, rfl, Or.inl ⟨hu, hx⟩⟩
        · rw [hu, ha]
          exact Or.inl (List.mem_cons_of_mem _ hx)
      · exact Or.inl hx
    · rcases started_cases u out.spawn with hs | hs
      · rw [hs] at hx
        cases hx
      · exact Or.inr ⟨a, rest, out, ha, he, rfl, Or.inr ⟨_, hs, hx⟩⟩

/-! ## Locks -/

section Flow

variable (effect : A → Option L → Option (Option L))

/-- The lock a task holds behind its statements, from the one it holds in front of them;
`none` where a statement is not allowed. -/
def flow : Option L → List (Stmt L A) → Option (Option L)
  | h, [] => some h
  | h, .lock l :: p => if h.isNone then flow (some l) p else none
  | h, .unlock l :: p => if h = some l then flow none p else none
  | h, .act a :: p => (effect a h).bind fun h => flow h p

/-- The acts have the effects announced, and started work begins and ends without a lock. -/
structure Obeys (exec : T → A → I → S → Option (Outcome L T A S)) : Prop where
  next : ∀ {t a i s out h h'}, exec t a i s = some out → effect a h = some h' →
    flow effect h out.next = some h'
  spawn : ∀ {t a i s out t' p}, exec t a i s = some out → out.spawn = some (t', p) →
    flow effect none p = some none

/-- Each task ends without a lock and holds at most one, which it owns. -/
def Disciplined (st : State L T A S) : Prop :=
  ∃ held : T → Option L, (∀ t, flow effect (held t) (st.todo t) = some none) ∧
    ∀ l t, st.owner l = some t ↔ held t = some l

variable {effect}

theorem flow_append (h : Option L) (p q : List (Stmt L A)) :
    flow effect h (p ++ q) = (flow effect h p).bind fun h => flow effect h q := by
  induction p generalizing h with
  | nil => rfl
  | cons x p ih =>
    cases x with
    | lock l =>
      simp only [List.cons_append, flow]
      split
      · exact ih _
      · rfl
    | unlock l =>
      simp only [List.cons_append, flow]
      split
      · exact ih _
      · rfl
    | act a =>
      simp only [List.cons_append, flow]
      cases effect a h with
      | none => rfl
      | some h' => exact ih h'

/-- Every step keeps the lock discipline. -/
theorem Disciplined.step (hd : Disciplined effect st) (ho : Obeys effect exec)
    (hs : step exec st l = some st') : Disciplined effect st' := by
  obtain ⟨held, hflow, howner⟩ := hd
  rcases step_cases hs with ⟨k, rest, hk, hfree, rfl⟩ | ⟨k, rest, hk, rfl⟩ |
      ⟨a, rest, out, ha, hout, rfl⟩
  · -- taking a lock: nobody holds it before
    have hmine := hflow l.1
    rw [hk] at hmine
    simp only [flow, Option.isNone_iff_eq_none] at hmine
    split at hmine
    · next hnone =>
      refine ⟨Function.update held l.1 (some k), fun t => ?_, fun l' t => ?_⟩
      · by_cases ht : t = l.1
        · subst ht
          simpa using hmine
        · simpa [ht, todo_goOn_of_ne ht] using hflow t
      · have hno : ∀ t, held t ≠ some k := fun t hh => by
          rw [(howner k t).mpr hh] at hfree
          cases hfree
        by_cases hl : l' = k <;> by_cases ht : t = l.1
        · simp [hl, ht]
        · simpa [hl, ht, Ne.symm ht] using hno t
        · have := howner l' l.1
          simpa [hl, ht, hnone, Ne.symm hl] using this
        · simpa [hl, ht] using howner l' t
    · cases hmine
  · -- releasing the lock held
    have hmine := hflow l.1
    rw [hk] at hmine
    simp only [flow] at hmine
    split at hmine
    · next hheld =>
      refine ⟨Function.update held l.1 none, fun t => ?_, fun l' t => ?_⟩
      · by_cases ht : t = l.1
        · subst ht
          simpa using hmine
        · simpa [ht, todo_goOn_of_ne ht] using hflow t
      · have hk' := howner k l.1
        by_cases hl : l' = k <;> by_cases ht : t = l.1
        · simp [hl, ht]
        · have hne : held t ≠ some k := fun hh => by
            have h1 := (howner k t).mpr hh
            rw [hk'.mpr hheld] at h1
            exact ht (Option.some.inj h1).symm
          simpa [hl, ht] using hne
        · have hne : st.owner l' ≠ some l.1 := fun hh => by
            rw [(howner l' l.1).mp hh] at hheld
            exact hl (Option.some.inj hheld)
          simpa [hl, ht] using hne
        · simpa [hl, ht] using howner l' t
    · cases hmine
  · -- an act: its expansion has the announced effect
    have hmine := hflow l.1
    rw [ha] at hmine
    simp only [flow, Option.bind_eq_some_iff] at hmine
    obtain ⟨h', heff, hrest⟩ := hmine
    refine ⟨held, fun t => ?_, howner⟩
    have hbase : flow effect (held t) (if t = l.1 then out.next ++ rest else st.todo t) =
        some none := by
      split
      · next ht =>
        rw [flow_append, ht, ho.next hout heff]
        exact hrest
      · exact hflow t
    rw [State.perform, flow_append, hbase, Option.bind_some]
    rcases started_cases t out.spawn with hp | hp
    · rw [hp]
      rfl
    · exact ho.spawn hout hp

omit [DecidableEq T] in
/-- Two tasks never stand at acts under the same lock. -/
theorem Disciplined.exclusive (hd : Disciplined effect st) {t u : T} (hne : t ≠ u) {a b : A}
    {p q : List (Stmt L A)} (ha : st.todo t = .act a :: p) (hb : st.todo u = .act b :: q) :
    ∃ h k, effect a h ≠ none ∧ effect b k ≠ none ∧ ∀ l, h = some l → k ≠ some l := by
  obtain ⟨held, hflow, howner⟩ := hd
  refine ⟨held t, held u, fun he => ?_, fun he => ?_, fun l hl hk => ?_⟩
  · have := hflow t
    simp [ha, flow, he] at this
  · have := hflow u
    simp [hb, flow, he] at this
  · have h1 := (howner l t).mpr hl
    rw [(howner l u).mpr hk] at h1
    exact hne (Option.some.inj h1).symm

end Flow

/-! ## Kinds of effects -/

section Kinds

variable (l : L) (h : Option L)

/-- An act that only stands where no lock is held. -/
def outside (h : Option L) : Option (Option L) := if h.isNone then some h else none

/-- An act that needs a lock and leaves it held. -/
def within : Option (Option L) := if h = some l then some h else none

/-- An act that needs a lock and whose expansion releases it. -/
def releases : Option (Option L) := if h = some l then some none else none

variable {l h} {h' : Option L}

omit [DecidableEq L] in
theorem outside_eq_some : outside h = some h' ↔ h = none ∧ h' = none := by
  unfold outside
  cases h <;> simp [eq_comm]

theorem within_eq_some : within l h = some h' ↔ h = some l ∧ h' = some l := by
  unfold within
  split
  · next he => simp [he, eq_comm]
  · next he => simp [he]

theorem releases_eq_some : releases l h = some h' ↔ h = some l ∧ h' = none := by
  unfold releases
  split
  · next he => simp [he, eq_comm]
  · next he => simp [he]

theorem eq_of_within (hne : within l h ≠ none) : h = some l := by
  obtain ⟨h', he⟩ := Option.ne_none_iff_exists'.mp hne
  exact (within_eq_some.mp he).1

theorem eq_of_releases (hne : releases l h ≠ none) : h = some l := by
  obtain ⟨h', he⟩ := Option.ne_none_iff_exists'.mp hne
  exact (releases_eq_some.mp he).1

end Kinds

/-! ## Assertions -/

section Outline

variable (Pre : A → S → Prop)

/-- The act in front meets its assertion, and the acts behind it have none to meet. -/
def Outlined (s : S) : List (Stmt L A) → Prop
  | [] => True
  | x :: rest => (∀ a, x = .act a → Pre a s) ∧ ∀ a, .act a ∈ rest → ∀ s, Pre a s

/-- The obligations of an outline: an act at its assertion keeps the invariant and
establishes the assertion of its expansion, and it spares the assertion of any act that the
locks let another task stand at. -/
structure Sound (effect : A → Option L → Option (Option L))
    (exec : T → A → I → S → Option (Outcome L T A S)) (Inv : S → Prop) : Prop where
  keeps : ∀ {t a i s out}, exec t a i s = some out → Inv s → Pre a s → Inv out.shared
  next : ∀ {t a i s out}, exec t a i s = some out → Inv s → Pre a s →
    Outlined Pre out.shared out.next
  spawn : ∀ {t a i s out t' p}, exec t a i s = some out → out.spawn = some (t', p) →
    ∀ a, .act a ∈ p → ∀ s, Pre a s
  frame : ∀ {t a i s out b h k}, exec t a i s = some out → Inv s → Pre a s → Pre b s →
    effect a h ≠ none → effect b k ≠ none → (∀ l, h = some l → k ≠ some l) → Pre b out.shared

variable {Pre}

omit [DecidableEq L] [DecidableEq T] in
theorem outlined_of_plain {p : List (Stmt L A)} (h : ∀ a, .act a ∈ p → ∀ s, Pre a s) (s : S) :
    Outlined Pre s p := by
  cases p with
  | nil => trivial
  | cons x p =>
    refine ⟨fun a ha => ?_, fun a ha => ?_⟩
    · exact h a (by rw [ha]; exact List.mem_cons_self) s
    · exact h a (List.mem_cons_of_mem _ ha)

omit [DecidableEq L] [DecidableEq T] in
theorem Outlined.append {s : S} {p q : List (Stmt L A)} (hp : Outlined Pre s p)
    (hq : ∀ a, .act a ∈ q → ∀ s, Pre a s) : Outlined Pre s (p ++ q) := by
  cases p with
  | nil => exact outlined_of_plain hq s
  | cons x p =>
    refine ⟨hp.1, fun a ha => ?_⟩
    rcases List.mem_append.mp ha with ha | ha
    · exact hp.2 a ha
    · exact hq a ha

omit [DecidableEq L] [DecidableEq T] in
/-- Two outlines side by side. -/
theorem outlined_and {Q : A → S → Prop} {s : S} {p : List (Stmt L A)} :
    Outlined (fun a s => Pre a s ∧ Q a s) s p ↔ Outlined Pre s p ∧ Outlined Q s p := by
  cases p with
  | nil => exact ⟨fun _ => ⟨trivial, trivial⟩, fun _ => trivial⟩
  | cons x p =>
    constructor
    · intro h
      exact ⟨⟨fun a ha => (h.1 a ha).1, fun a ha s => (h.2 a ha s).1⟩,
        ⟨fun a ha => (h.1 a ha).2, fun a ha s => (h.2 a ha s).2⟩⟩
    · rintro ⟨h, k⟩
      exact ⟨fun a ha => ⟨h.1 a ha, k.1 a ha⟩, fun a ha s => ⟨h.2 a ha s, k.2 a ha s⟩⟩

omit [DecidableEq L] [DecidableEq T] in
theorem Outlined.tail {s : S} {x : Stmt L A} {p : List (Stmt L A)} (h : Outlined Pre s (x :: p))
    (s' : S) : Outlined Pre s' p :=
  outlined_of_plain h.2 s'

/-- The obligations of an outline for acts that meet `ok`, where two tasks only stand at
`apart` acts at the same time. -/
structure Outline (Pre ok : A → S → Prop) (apart : A → A → Prop)
    (exec : T → A → I → S → Option (Outcome L T A S)) (Inv : S → Prop) : Prop where
  keeps : ∀ {t a i s out}, exec t a i s = some out → Inv s → Pre a s → ok a s → Inv out.shared
  next : ∀ {t a i s out}, exec t a i s = some out → Inv s → Pre a s → ok a s →
    Outlined Pre out.shared out.next
  spawn : ∀ {t a i s out t' p}, exec t a i s = some out → out.spawn = some (t', p) →
    ∀ a, .act a ∈ p → ∀ s, Pre a s
  frame : ∀ {t a i s out b}, exec t a i s = some out → Inv s → Pre a s → ok a s → Pre b s →
    apart a b → Pre b out.shared

/-- An outline is kept by every step whose act meets the side condition: the rule for
parallel tasks. -/
theorem Outline.step {ok : A → S → Prop} {apart : A → A → Prop} {Inv : S → Prop}
    (hrule : Outline Pre ok apart exec Inv) (hI : Inv st.shared)
    (hout : ∀ t, Outlined Pre st.shared (st.todo t))
    (hapart : ∀ {t u a b p q}, t ≠ u → st.todo t = .act a :: p → st.todo u = .act b :: q →
      apart a b)
    (hok : ∀ a p, st.todo l.1 = .act a :: p → ok a st.shared) (hs : step exec st l = some st') :
    Inv st'.shared ∧ ∀ t, Outlined Pre st'.shared (st'.todo t) := by
  rcases step_cases hs with ⟨k, rest, hk, -, rfl⟩ | ⟨k, rest, hk, rfl⟩ |
      ⟨a, rest, out, ha, hexec, rfl⟩
  · refine ⟨hI, fun t => ?_⟩
    by_cases ht : t = l.1
    · subst ht
      have := hout l.1
      rw [hk] at this
      simpa using this.tail st.shared
    · simpa [todo_goOn_of_ne ht] using hout t
  · refine ⟨hI, fun t => ?_⟩
    by_cases ht : t = l.1
    · subst ht
      have := hout l.1
      rw [hk] at this
      simpa using this.tail st.shared
    · simpa [todo_goOn_of_ne ht] using hout t
  · have hmine := hout l.1
    rw [ha] at hmine
    have hpre : Pre a st.shared := hmine.1 a rfl
    have hside := hok a rest ha
    refine ⟨hrule.keeps hexec hI hpre hside, fun t => ?_⟩
    have hbase : Outlined Pre out.shared (if t = l.1 then out.next ++ rest else st.todo t) := by
      split
      · exact (hrule.next hexec hI hpre hside).append hmine.2
      · next ht =>
        -- another task: its next act stands apart from this one
        have hother := hout t
        cases htodo : st.todo t with
        | nil => trivial
        | cons x p =>
          rw [htodo] at hother
          refine ⟨fun b hb => ?_, hother.2⟩
          subst hb
          exact hrule.frame hexec hI hpre hside (hother.1 b rfl) (hapart (Ne.symm ht) ha htodo)
    refine hbase.append fun b hb => ?_
    rcases started_cases t out.spawn with hp | hp
    · rw [hp] at hb
      cases hb
    · exact hrule.spawn hexec hp b hb

/-- A sound outline is kept by every step: the locks keep the tasks apart. -/
theorem Sound.step {effect : A → Option L → Option (Option L)} {Inv : S → Prop}
    (hsound : Sound Pre effect exec Inv) (hd : Disciplined effect st) (hI : Inv st.shared)
    (hout : ∀ t, Outlined Pre st.shared (st.todo t)) (hs : step exec st l = some st') :
    Inv st'.shared ∧ ∀ t, Outlined Pre st'.shared (st'.todo t) := by
  have hrule : Outline Pre (fun _ _ => True)
      (fun a b => ∃ h k, effect a h ≠ none ∧ effect b k ≠ none ∧ ∀ l, h = some l → k ≠ some l)
      exec Inv := by
    refine ⟨fun he hI hp _ => hsound.keeps he hI hp, fun he hI hp _ => hsound.next he hI hp,
      hsound.spawn, fun he hI hp _ hb hapart => ?_⟩
    obtain ⟨h, k, h1, h2, h3⟩ := hapart
    exact hsound.frame he hI hp hb h1 h2 h3
  exact hrule.step hI hout (fun hne ha hb => hd.exclusive hne ha hb) (fun _ _ _ => trivial) hs

end Outline

end Tasks
