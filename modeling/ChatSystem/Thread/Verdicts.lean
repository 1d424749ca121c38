import ChatSystem.Server.Verdicts
import ChatSystem.Thread.Frames

/-!
# Who answers a login

A thread that has read a login keeps the connection waiting: it takes and releases `table_lock`
before it takes the `send_lock` of its slot for the answer. In between the slot may already be
active, and any other thread that takes the `send_lock` gets its frame out first. A connection
is watched along a run; where nobody else takes the lock while a login waits, the first frame is
the answer.
-/

namespace ChatSystem.Thread

open Tasks Transition Bytes Channel

variable {st st' : State} {sh sh' : Shared} {t u : Tid} {a b : Act} {i : Input}
  {out : Outcome Lock Tid Act Shared} {l : Tid × Input} {dead : List Nat} {s : Slot} {c fd : Nat}
  {m f : Message} {granted : Bool}

/-- What a step means for the first login of a connection. -/
inductive Moment
  /-- A login was read from the connection. -/
  | asked (m : Message)
  /-- A login was stored in its slot. -/
  | stored
  /-- A part of a frame was accepted for it. -/
  | wrote (f : Message)
  /-- A write to it failed. -/
  | lost

/-- What a step of a thread means for a connection. -/
def moment (c : Nat) (st : State) (l : Tid × Input) : Option Moment :=
  match st.todo l.1 with
  | .act (.recv s) :: _ =>
    if st.shared.conn (st.shared.clients s).sockfd = some c then
      match (recvMessage l.2.source).1 with
      | some m => if m.kind = some .login then some (.asked m) else none
      | none => none
    else none
  | .act (.storeLogin s _) :: _ =>
    if st.shared.conn (st.shared.clients s).sockfd = some c then some .stored else none
  | .act (.write fd f (_ :: _)) :: _ =>
    if st.shared.conn fd = some c then
      match l.2.write with
      | .took _ => some (.wrote f)
      | .interrupted => none
      | .failed => some .lost
    else none
  | _ => none

/-- How far a connection is with its first login: whether it was stored, and the first frame that
was written behind it. -/
inductive Progress
  | unasked
  | asked (m : Message) (stored : Bool)
  | broken (m : Message) (stored : Bool)
  | answered (m f : Message) (stored : Bool)

/-- The progress behind a step. -/
def Progress.after : Progress → Option Moment → Progress
  | .unasked, some (.asked m) => .asked m false
  | .asked m _, some .stored => .asked m true
  | .asked m stored, some (.wrote f) => .answered m f stored
  | .asked m stored, some .lost => .broken m stored
  | .broken m stored, some (.wrote f) => .answered m f stored
  | p, _ => p

/-- One step of one thread, with an eye on a connection. -/
def observe (c : Nat) (x : State × Progress) (l : Tid × Input) : Option (State × Progress) :=
  (step x.1 l).map fun st' => (st', x.2.after (moment c x.1 l))

/-- A thread that has no more to write before it releases the `send_lock` of a slot. -/
inductive Through (s : Slot) : Code → Prop
  | unlock (rest : Code) : Through s (.unlock (.send s) :: rest)
  | written (fd : Nat) (f : Message) (rest : Code) :
    Through s (.act (.write fd f []) :: .unlock (.send s) :: rest)

/-- While the first login of a connection waits for its answer, nobody takes the `send_lock` of
the slot but the thread with the cleanup of the slot ahead, and when the login is read the owner
of the lock has no more to write. -/
structure Undisturbed (c : Nat) (x : State × Progress) (l : Tid × Input) : Prop where
  lock : ∀ s rest m stored, x.1.todo l.1 = .lock (.send s) :: rest → x.2 = .asked m stored →
    x.1.shared.conn (x.1.shared.clients s).sockfd = some c → .act (.cleanup s) ∈ rest
  read : ∀ s rest m u, x.1.todo l.1 = .act (.recv s) :: rest → x.2 = .unasked →
    moment c x.1 l = some (.asked m) → x.1.owner (.send s) = some u → Through s (x.1.todo u)

/-! ## Steps of the threads -/

/-- Watching a connection refuses no step. -/
theorem observe_eq_some {x y : State × Progress} (h : observe c x l = some y) :
    step x.1 l = some y.1 ∧ y.2 = x.2.after (moment c x.1 l) := by
  obtain ⟨st', hs, rfl⟩ := Option.map_eq_some_iff.mp h
  exact ⟨hs, rfl⟩

/-- The moments of a connection. -/
theorem moment_cases {x : Moment} (h : moment c st l = some x) :
    (∃ s rest m, st.todo l.1 = .act (.recv s) :: rest ∧
      st.shared.conn (st.shared.clients s).sockfd = some c ∧
      (recvMessage l.2.source).1 = some m ∧ m.kind = some .login ∧ x = .asked m) ∨
    (∃ s u rest, st.todo l.1 = .act (.storeLogin s u) :: rest ∧
      st.shared.conn (st.shared.clients s).sockfd = some c ∧ x = .stored) ∨
    ∃ fd f r rest, st.todo l.1 = .act (.write fd f r) :: rest ∧ r ≠ [] ∧
      st.shared.conn fd = some c ∧
      (x = .wrote f ∧ taking st l = some c ∨ x = .lost ∧ failing st l = some c) := by
  unfold moment at h
  split at h
  · next s rest htodo =>
    split at h
    · next hc =>
      split at h
      · next m hm =>
        split at h
        · next hkind =>
          obtain rfl := Option.some.inj h
          exact Or.inl ⟨s, rest, m, htodo, hc, hm, hkind, rfl⟩
        · cases h
      · cases h
    · cases h
  · next s u rest htodo =>
    split at h
    · next hc =>
      obtain rfl := Option.some.inj h
      exact Or.inr (Or.inl ⟨s, u, rest, htodo, hc, rfl⟩)
    · cases h
  · next fd f x₀ xs rest htodo =>
    split at h
    · next hc =>
      refine Or.inr (Or.inr ⟨fd, f, x₀ :: xs, rest, htodo, List.cons_ne_nil x₀ xs, hc, ?_⟩)
      split at h
      · next n hw =>
        obtain rfl := Option.some.inj h
        refine Or.inl ⟨rfl, ?_⟩
        simp only [taking, htodo, hw, hc]
      · cases h
      · next hw =>
        obtain rfl := Option.some.inj h
        refine Or.inr ⟨rfl, ?_⟩
        simp only [failing, htodo, hw, hc]
    · cases h
  · cases h

/-- Nothing happens to a connection without a descriptor. -/
theorem moment_of_closed (h : ∀ fd, st.shared.conn fd ≠ some c) : moment c st l = none := by
  cases hx : moment c st l with
  | none => rfl
  | some x =>
    rcases moment_cases hx with ⟨s, _, _, _, hc, -⟩ | ⟨s, _, _, _, hc, -⟩ | ⟨fd, _, _, _, _, -, hc, -⟩
    · exact absurd hc (h _)
    · exact absurd hc (h _)
    · exact absurd hc (h _)

/-- The descriptors behind a step. -/
theorem conn_step (hs : step st l = some st') (h : st'.shared.conn fd = some c) :
    st.shared.conn fd = some c ∨ c = st.shared.accepted := by
  rcases Tasks.step_cases hs with ⟨_, _, _, _, rfl⟩ | ⟨_, _, _, rfl⟩ | ⟨a, rest, out, ha, he, rfl⟩
  · exact Or.inl h
  · exact Or.inl h
  · rcases conn_of_change (change_of_exec he) h with h | ⟨-, -, -, h, -⟩
    · exact Or.inl h
    · exact Or.inr h

theorem accepted_step (hs : step st l = some st') :
    st.shared.accepted ≤ st'.shared.accepted := by
  rcases Tasks.step_cases hs with ⟨_, _, _, _, rfl⟩ | ⟨_, _, _, rfl⟩ | ⟨a, rest, out, ha, he, rfl⟩
  · exact Nat.le_refl _
  · exact Nat.le_refl _
  · exact (change_of_exec he).accepted_le

/-- A closed connection stays closed. -/
theorem closed_step (hs : step st l = some st')
    (h : c < st.shared.accepted ∧ ∀ fd, st.shared.conn fd ≠ some c) :
    c < st'.shared.accepted ∧ ∀ fd, st'.shared.conn fd ≠ some c := by
  refine ⟨h.1.trans_le (accepted_step hs), fun fd hc => ?_⟩
  rcases conn_step hs hc with hc | hc
  · exact h.2 fd hc
  · exact h.1.ne hc

/-- A connection keeps its descriptor, or is closed. -/
theorem Framed.open_step (h : Framed st dead) (hs : Thread.step st l = some st')
    (hc : st.shared.conn fd = some c) : st'.shared.conn fd = some c ∨
      c < st'.shared.accepted ∧ ∀ fd', st'.shared.conn fd' ≠ some c := by
  by_cases hopen : st'.shared.conn fd = some c
  · exact Or.inl hopen
  · refine Or.inr ⟨(h.lt fd c hc).trans_le (accepted_step hs), fun fd' hc' => ?_⟩
    rcases conn_step hs hc' with hold | he
    · obtain rfl := h.inj fd fd' c hc hold
      exact hopen hc'
    · exact (h.lt fd c hc).ne he

/-- A slot in use keeps its descriptor. -/
theorem sockfd_step (hs : step st l = some st') (huse : (st.shared.clients s).inUse = true) :
    (st'.shared.clients s).sockfd = (st.shared.clients s).sockfd := by
  rcases Tasks.step_cases hs with ⟨_, _, _, _, rfl⟩ | ⟨_, _, _, rfl⟩ | ⟨a, rest, out, ha, he, rfl⟩
  · rfl
  · rfl
  · have hc := change_of_exec he
    by_cases hallot : ∃ fd c, a = .allot fd c
    · obtain ⟨fd, c, rfl⟩ := hallot
      change (out.shared.clients s).sockfd = _
      generalize out.shared = sh' at hc
      cases hc with
      | same => rfl
      | @fill j _ _ hfree =>
        have hne : s ≠ j := by
          rintro rfl
          have hnot := firstSlot_eq_some hfree
          simp [huse] at hnot
        rw [Shared.fill, clients_setClient_of_ne _ hne]
    · exact (slots_of_change hc (fun fd c hac => hallot ⟨fd, c, hac⟩) s).1

/-- An act goes on with its expansion. -/
theorem todo_of_act {rest : Code} (hs : step st l = some st')
    (htodo : st.todo l.1 = .act a :: rest) (ha : a.role ≠ .accepting) :
    ∃ out, exec l.1 a l.2 st.shared = some out ∧ st'.shared = out.shared ∧
      st'.todo l.1 = out.next ++ rest := by
  rcases Tasks.step_cases hs with ⟨y, p, hy, -⟩ | ⟨y, p, hy, -⟩ | ⟨a', p, out, hy, hexec, rfl⟩
  · cases htodo.symm.trans hy
  · cases htodo.symm.trans hy
  · obtain ⟨he, rfl⟩ := List.cons.inj (hy.symm.trans htodo)
    obtain rfl := Stmt.act.inj he
    exact ⟨out, hexec, rfl, todo_perform_self (spawn_eq_none hexec ha)⟩

/-- What stands behind the front stays. -/
theorem mem_rest {x y : Stmt Lock Act} {rest : Code} (hs : step st l = some st')
    (htodo : st.todo l.1 = x :: rest) (hy : y ∈ rest) : y ∈ st'.todo l.1 := by
  rcases Tasks.step_cases hs with ⟨z, p, hz, -, rfl⟩ | ⟨z, p, hz, rfl⟩ | ⟨a, p, out, hz, -, rfl⟩
  · rw [todo_goOn_self, (List.cons.inj (hz.symm.trans htodo)).2]
    exact hy
  · rw [todo_goOn_self, (List.cons.inj (hz.symm.trans htodo)).2]
    exact hy
  · refine List.mem_append_left _ ?_
    rw [if_pos rfl, (List.cons.inj (hz.symm.trans htodo)).2]
    exact List.mem_append_right _ hy

/-- A lock operation is passed. -/
theorem todo_of_lock {x : Stmt Lock Act} {rest : Code} (hs : step st l = some st')
    (htodo : st.todo l.1 = x :: rest) (hx : ∀ a, x ≠ .act a) : st'.todo l.1 = rest := by
  rcases Tasks.step_cases hs with ⟨y, p, hy, -, rfl⟩ | ⟨y, p, hy, rfl⟩ | ⟨a, p, out, hy, -⟩
  · rw [todo_goOn_self]
    exact (List.cons.inj (hy.symm.trans htodo)).2
  · rw [todo_goOn_self]
    exact (List.cons.inj (hy.symm.trans htodo)).2
  · exact absurd (List.cons.inj (htodo.symm.trans hy)).1 (hx a)

/-- The other threads keep their work, and may get more behind it. -/
theorem todo_of_ne (hs : step st l = some st') (hu : u ≠ l.1) :
    ∃ p, st'.todo u = st.todo u ++ p := by
  rcases Tasks.step_cases hs with ⟨y, rest, -, -, rfl⟩ | ⟨y, rest, -, rfl⟩ |
      ⟨a, rest, out, -, -, rfl⟩
  · exact ⟨[], by rw [todo_goOn_of_ne hu, todo_pass, List.append_nil]⟩
  · exact ⟨[], by rw [todo_goOn_of_ne hu, todo_pass, List.append_nil]⟩
  · exact ⟨started u out.spawn, by simp only [State.perform, if_neg hu]⟩

/-! ## The thread that answers -/

/-- The work of the thread of a slot from the reading of a login to its answer, and whether the
login is stored. -/
inductive Answering (s : Slot) (fd : Nat) (m : Message) : Bool → Code → Prop
  | route (rest : Code) (h : m.kind = some .login) :
    Answering s fd m false (.act (.route s m) :: rest)
  | table {u p : List UInt8} (rest : Code) (h : scanLogin m.payload.toList = some (u, p)) :
    Answering s fd m false (.lock .table :: .act (.checkName s u p) :: rest)
  | checkName {u p : List UInt8} (rest : Code) (h : scanLogin m.payload.toList = some (u, p)) :
    Answering s fd m false (.act (.checkName s u p) :: rest)
  | validate {u p : List UInt8} (rest : Code) (h : scanLogin m.payload.toList = some (u, p)) :
    Answering s fd m false (.act (.validate s u p) :: rest)
  | storeLogin {u p : List UInt8} (rest : Code) (h : scanLogin m.payload.toList = some (u, p)) :
    Answering s fd m false (.act (.storeLogin s u) :: rest)
  | unlock {make : UInt64 → Message} {b : Bool} (rest : Code) (h : ∀ now, IsVerdict m (make now) b) :
    Answering s fd m b (.unlock .table :: .act (.reply s make) :: rest)
  | reply {make : UInt64 → Message} {b : Bool} (rest : Code) (h : ∀ now, IsVerdict m (make now) b) :
    Answering s fd m b (.act (.reply s make) :: rest)
  | lock {f : Message} {b : Bool} (rest : Code) (h : IsVerdict m f b) :
    Answering s fd m b (.lock (.send s) :: .act (.sendMessage s f) :: rest)
  | sendMessage {f : Message} {b : Bool} (rest : Code) (h : IsVerdict m f b) :
    Answering s fd m b (.act (.sendMessage s f) :: rest)
  | write {f : Message} {b : Bool} (rest : Code) (h : IsVerdict m f b) :
    Answering s fd m b (.act (.write fd f (packMessage f)) :: rest)

/-- What stands behind the answer does not matter. -/
theorem Answering.append {p : Code} (h : Answering s fd m granted p) (q : Code) :
    Answering s fd m granted (p ++ q) := by
  cases h with
  | route rest h => exact .route (rest ++ q) h
  | table rest h => exact .table (rest ++ q) h
  | checkName rest h => exact .checkName (rest ++ q) h
  | validate rest h => exact .validate (rest ++ q) h
  | storeLogin rest h => exact .storeLogin (rest ++ q) h
  | unlock rest h => exact .unlock (rest ++ q) h
  | reply rest h => exact .reply (rest ++ q) h
  | lock rest h => exact .lock (rest ++ q) h
  | sendMessage rest h => exact .sendMessage (rest ++ q) h
  | write rest h => exact .write (rest ++ q) h

/-- The cleanup comes behind the answer. -/
theorem Answering.ne_cleanup {x : Stmt Lock Act} {rest : Code}
    (h : Answering s fd m granted (x :: rest)) (j : Slot) : x ≠ .act (.cleanup j) := by
  cases h <;> simp

theorem packMessage_ne_nil (f : Message) : packMessage f ≠ [] := by
  apply List.ne_nil_of_length_pos
  rw [length_packMessage, headerSize]
  omega

/-- What a step of the thread that answers leads to. -/
inductive Answers (st st' : State) (l : Tid × Input) (s : Slot) (c fd : Nat) (m : Message)
    (granted : Bool) : Prop
  | goesOn (hm : moment c st l = none) (h : Answering s fd m granted (st'.todo l.1))
  | stores (hm : moment c st l = some .stored) (h : Answering s fd m true (st'.todo l.1))
  | begins {f : Message} (hm : moment c st l = some (.wrote f)) (h : IsVerdict m f granted)
  | fails (hm : moment c st l = some .lost) (h : failing st l = some c)

/-- A step of the thread that answers leads on, or to the answer. -/
theorem Answering.step (h : Answering s (st.shared.clients s).sockfd m granted (st.todo l.1))
    (hc : st.shared.conn (st.shared.clients s).sockfd = some c)
    (hs : Thread.step st l = some st') :
    Answers st st' l s c (st.shared.clients s).sockfd m granted := by
  generalize hp : st.todo l.1 = p at h
  have hquiet : ∀ {x : Stmt Lock Act} {rest : Code}, p = x :: rest →
      (∀ j, x ≠ .act (.recv j)) → (∀ j u, x ≠ .act (.storeLogin j u)) →
      (∀ fd f r, x ≠ .act (.write fd f r)) → moment c st l = none := by
    intro x rest hx h1 h2 h3
    cases hmom : moment c st l with
    | none => rfl
    | some y =>
      rcases moment_cases hmom with ⟨_, _, _, hy, -⟩ | ⟨_, _, _, hy, -⟩ | ⟨_, _, _, _, hy, -⟩
      · exact absurd (List.cons.inj (hx.symm.trans (hp.symm.trans hy))).1 (h1 _)
      · exact absurd (List.cons.inj (hx.symm.trans (hp.symm.trans hy))).1 (h2 _ _)
      · exact absurd (List.cons.inj (hx.symm.trans (hp.symm.trans hy))).1 (h3 _ _ _)
  cases h with
  | route rest hkind =>
    obtain ⟨out, hexec, -, hnext⟩ := todo_of_act hs hp (by simp [Act.role])
    refine .goesOn (hquiet rfl (by simp) (by simp) (by simp)) ?_
    obtain rfl := goOn_inj hexec
    rw [hnext]
    simp only [Shared.route, hkind, Shared.login]
    split
    · next hscan => exact .reply _ fun now => .badLogin now hscan
    · next u p hscan => exact .table _ hscan
  | table rest hscan =>
    refine .goesOn (hquiet rfl (by simp) (by simp) (by simp)) ?_
    rw [todo_of_lock hs hp (by simp)]
    exact .checkName rest hscan
  | checkName rest hscan =>
    obtain ⟨out, hexec, -, hnext⟩ := todo_of_act hs hp (by simp [Act.role])
    refine .goesOn (hquiet rfl (by simp) (by simp) (by simp)) ?_
    rw [hnext]
    simp only [exec] at hexec
    split at hexec
    · obtain rfl := goOn_inj hexec
      exact .unlock rest fun now => .alreadyLoggedIn now hscan
    · obtain rfl := goOn_inj hexec
      exact .validate rest hscan
  | validate rest hscan =>
    obtain ⟨out, hexec, -, hnext⟩ := todo_of_act hs hp (by simp [Act.role])
    refine .goesOn (hquiet rfl (by simp) (by simp) (by simp)) ?_
    rw [hnext]
    simp only [exec] at hexec
    split at hexec
    · obtain rfl := goOn_inj hexec
      exact .unlock rest fun now => .invalidCredentials now hscan
    · obtain rfl := goOn_inj hexec
      exact .storeLogin rest hscan
  | storeLogin rest hscan =>
    obtain ⟨out, hexec, -, hnext⟩ := todo_of_act hs hp (by simp [Act.role])
    refine .stores ?_ ?_
    · simp only [moment, hp, if_pos hc]
    · obtain rfl := goOn_inj hexec
      rw [hnext]
      exact .unlock rest fun now => .loginSuccessful now hscan
  | unlock rest hmake =>
    refine .goesOn (hquiet rfl (by simp) (by simp) (by simp)) ?_
    rw [todo_of_lock hs hp (by simp)]
    exact .reply rest hmake
  | reply rest hmake =>
    obtain ⟨out, hexec, -, hnext⟩ := todo_of_act hs hp (by simp [Act.role])
    refine .goesOn (hquiet rfl (by simp) (by simp) (by simp)) ?_
    obtain rfl := goOn_inj hexec
    rw [hnext]
    exact .lock _ (hmake _)
  | lock rest hf =>
    refine .goesOn (hquiet rfl (by simp) (by simp) (by simp)) ?_
    rw [todo_of_lock hs hp (by simp)]
    exact .sendMessage rest hf
  | sendMessage rest hf =>
    obtain ⟨out, hexec, -, hnext⟩ := todo_of_act hs hp (by simp [Act.role])
    refine .goesOn (hquiet rfl (by simp) (by simp) (by simp)) ?_
    obtain rfl := goOn_inj hexec
    rw [hnext]
    exact .write rest hf
  | @write f _ rest hf =>
    obtain ⟨x, xs, hpack⟩ := List.exists_cons_of_ne_nil (packMessage_ne_nil f)
    have hp' := hp
    rw [hpack] at hp'
    cases hw : l.2.write with
    | took n => exact .begins (by simp only [moment, hp', if_pos hc, hw]) hf
    | interrupted =>
      obtain ⟨out, hexec, -, hnext⟩ := todo_of_act hs hp (by simp [Act.role])
      refine .goesOn (by simp only [moment, hp', if_pos hc, hw]) ?_
      rw [hnext]
      simp only [exec, hpack, hc, hw] at hexec
      obtain rfl := goOn_inj hexec
      rw [← hpack]
      exact .write rest hf
    | failed =>
      refine .fails (by simp only [moment, hp', if_pos hc, hw]) ?_
      simp only [failing, hp', hw, hc]

/-! ## Waiting for the answer -/

/-- A thread that serves a slot has the cleanup of the slot ahead. -/
theorem At.serving_of_cleanup {g : Stage} {k : Phases} (h : At st g k)
    (hm : .act (.cleanup s) ∈ st.todo t) : ∃ c, t = .client s c ∧ k (s, c) = .serving := by
  have hfits := h.todo t
  cases t with
  | main =>
    obtain ⟨p, hp, he⟩ := hfits
    rw [he] at hm
    rcases List.mem_append.mp hm with hm | hm
    · cases hp _ hm
    · cases g <;> simp [Stage.code] at hm
  | client s' c =>
    obtain ⟨p, hp, he⟩ := hfits
    rw [he] at hm
    cases hk : k (s', c) with
    | gone =>
      rw [hk] at hp hm
      obtain rfl : p = [] := hp
      cases hm
    | leaving =>
      rw [hk] at hp hm
      rcases List.mem_append.mp hm with hm | hm
      · cases (hp _ hm : Act.role _ = .sending)
      · simp [Phase.code] at hm
    | serving =>
      rw [hk] at hp hm
      rcases List.mem_append.mp hm with hm | hm
      · rcases (hp _ hm : Act.role _ = .serving s' ∨ Act.role _ = .sending) with hr | hr <;> cases hr
      · simp [Phase.code] at hm
        exact ⟨c, by rw [hm], by rw [hm]; exact hk⟩

/-- The thread of a served slot has the cleanup of the slot ahead. -/
theorem At.cleanup_mem {g : Stage} {k : Phases} (h : At st g k) (hk : k (s, c) = .serving) :
    .act (.cleanup s) ∈ st.todo (.client s c) := by
  obtain ⟨p, -, he⟩ := h.todo (.client s c)
  rw [he, hk]
  exact List.mem_append_right _ List.mem_cons_self

/-- One thread serves a slot, and the slot is in use. -/
theorem Apart.served (h : Apart st) (ht : .act (.cleanup s) ∈ st.todo t) :
    (st.shared.clients s).inUse = true ∧ ∀ u, .act (.cleanup s) ∈ st.todo u → u = t := by
  obtain ⟨g, k, hat, hocc⟩ := h.occupied
  obtain ⟨c, rfl, hk⟩ := hat.serving_of_cleanup ht
  refine ⟨hocc.serving s c hk, fun u hu => ?_⟩
  obtain ⟨c', rfl, hk'⟩ := hat.serving_of_cleanup hu
  rw [hocc.alone s c c' hk hk']

/-- The descriptor of a slot in use belongs to the slot. -/
theorem Apart.belongs (h : Apart st) (huse : (st.shared.clients s).inUse = true) :
    Belongs st (st.shared.clients s).sockfd s := by
  rcases h.home (st.shared.clients s).sockfd with hspare | ⟨j, hb⟩
  · exact absurd rfl (hspare.slots s (Or.inl huse))
  · have hj := hb.slots s (Or.inl huse) rfl
    rw [← hj] at hb
    exact hb

theorem Through.append {p : Code} (h : Through s p) (q : Code) : Through s (p ++ q) := by
  cases h with
  | unlock rest => exact .unlock (rest ++ q)
  | written fd f rest => exact .written fd f (rest ++ q)

/-- The owner of a `send_lock` that has no more to write stays so until it releases the lock, if
no other thread takes it. -/
theorem through_step (hs : step st l = some st')
    (hlock : ∀ rest, st.todo l.1 = .lock (.send s) :: rest → l.1 = t)
    (h : ∀ u, u ≠ t → st.owner (.send s) = some u → Through s (st.todo u)) (hu : u ≠ t)
    (ho : st'.owner (.send s) = some u) : Through s (st'.todo u) := by
  have hother : st.owner (.send s) = some u → u ≠ l.1 → Through s (st'.todo u) := by
    intro ho hne
    obtain ⟨p, hp⟩ := todo_of_ne hs hne
    rw [hp]
    exact (h u hu ho).append p
  rcases Tasks.step_cases hs with ⟨x, rest, hx, -, rfl⟩ | ⟨x, rest, hx, rfl⟩ |
      ⟨a, rest, out, ha, hexec, rfl⟩
  · have hne : x ≠ .send s := by
      rintro rfl
      have hself : (st.pass (.send s) (some l.1)).owner (.send s) = some l.1 :=
        Function.update_self ..
      have hl : l.1 = u := Option.some.inj (hself.symm.trans ho)
      exact hu (hl ▸ hlock rest hx)
    have ho₀ : st.owner (.send s) = some u := (Function.update_of_ne (Ne.symm hne) ..).symm.trans ho
    refine hother ho₀ ?_
    rintro rfl
    have hthrough := h _ hu ho₀
    rw [hx] at hthrough
    cases hthrough
  · have hne : x ≠ .send s := by
      rintro rfl
      have hself : (st.pass (.send s) none).owner (.send s) = none := Function.update_self ..
      cases hself.symm.trans ho
    have ho₀ : st.owner (.send s) = some u := (Function.update_of_ne (Ne.symm hne) ..).symm.trans ho
    refine hother ho₀ ?_
    rintro rfl
    have hthrough := h _ hu ho₀
    rw [hx] at hthrough
    cases hthrough
    exact hne rfl
  · have ho₀ : st.owner (.send s) = some u := ho
    by_cases hl : u = l.1
    · subst hl
      have hthrough := h _ hu ho₀
      rw [ha] at hthrough
      cases hthrough with
      | written fd f rest =>
        obtain ⟨out', hexec', -, hnext⟩ := todo_of_act hs ha (by simp [Act.role])
        obtain rfl := goOn_inj hexec'
        rw [hnext]
        exact .unlock rest
    · exact hother ho₀ hl

/-- The thread of the slot of a connection is on its way to the answer, and nobody else has
anything to write to the slot. -/
structure Waiting (st : State) (c : Nat) (m : Message) (granted : Bool) (s : Slot) (t : Tid) :
    Prop where
  code : Answering s (st.shared.clients s).sockfd m granted (st.todo t)
  conn : st.shared.conn (st.shared.clients s).sockfd = some c
  serves : .act (.cleanup s) ∈ st.todo t
  others : ∀ u, u ≠ t → st.owner (.send s) = some u → Through s (st.todo u)

/-- The other threads do nothing for the connection. -/
theorem Waiting.moment_of_ne (h : Waiting st c m granted s t) (hframed : Framed st dead)
    (hl : l.1 ≠ t) : moment c st l = none ∨ ∃ m', moment c st l = some (.asked m') := by
  have hserved := hframed.apart.served h.serves
  have hbelongs := hframed.apart.belongs hserved.1
  cases hx : moment c st l with
  | none => exact Or.inl rfl
  | some x =>
    rcases moment_cases hx with ⟨j, rest, m', -, -, -, -, rfl⟩ | ⟨j, u, rest, htodo, hc, rfl⟩ |
      ⟨fd, f, r, rest, htodo, hne, hc, -⟩
    · exact Or.inr ⟨m', rfl⟩
    · -- a second thread that serves the slot
      obtain ⟨g, k, hat, hocc⟩ := hframed.apart.occupied
      obtain ⟨c', hl', hk⟩ := hat.serving_of_role htodo rfl
      have hfd := hframed.inj _ _ c hc h.conn
      obtain rfl := hbelongs.slots j (Or.inl (hocc.serving j c' hk)) hfd
      refine absurd (hserved.2 l.1 ?_) hl
      rw [hl']
      exact hat.cleanup_mem hk
    · -- a second thread that writes under the lock
      obtain rfl := hframed.inj _ _ c hc h.conn
      have howner := hbelongs.writers l.1 ⟨f, r, htodo ▸ List.mem_cons_self⟩
      have hthrough := h.others l.1 hl howner
      rw [htodo] at hthrough
      cases hthrough
      exact absurd rfl hne

/-- How far a connection really is. -/
def Keeps (c : Nat) (st : State) (dead : List Nat) : Progress → Prop
  | .unasked => True
  | .asked m granted => (c < st.shared.accepted ∧ ∀ fd, st.shared.conn fd ≠ some c) ∨
      ∃ s t, Waiting st c m granted s t
  | .broken _ _ => c ∈ dead
  | .answered m f granted => IsVerdict m f granted

/-- A connection goes on waiting, or is closed. -/
theorem Waiting.goesOn (h : Waiting st c m granted s t) (hframed : Framed st dead)
    (hs : Thread.step st l = some st')
    (hlock : ∀ rest, st.todo l.1 = .lock (.send s) :: rest → l.1 = t) {granted' : Bool}
    (hserves : .act (.cleanup s) ∈ st'.todo t)
    (hcode : Answering s (st.shared.clients s).sockfd m granted' (st'.todo t)) :
    Keeps c st' dead (.asked m granted') := by
  have hfd := sockfd_step hs (hframed.apart.served h.serves).1
  rcases hframed.open_step hs h.conn with hopen | hclosed
  · refine Or.inr ⟨s, t, ?_, ?_, hserves, fun u hu ho => through_step hs hlock h.others hu ho⟩
    · rw [hfd]
      exact hcode
    · rw [hfd]
      exact hopen
  · exact Or.inl hclosed

theorem Keeps.mono {p : Progress} (h : Keeps c st dead p) (dead' : List Nat) :
    Keeps c st (dead ++ dead') p := by
  cases p with
  | broken m granted => exact List.mem_append_left _ h
  | _ => exact h

/-- A step of the thread that answers. -/
theorem Waiting.step_self (h : Waiting st c m granted s l.1) (hframed : Framed st dead)
    (hs : Thread.step st l = some st') :
    Keeps c st' (dead ++ (failing st l).toList)
      ((Progress.asked m granted).after (moment c st l)) := by
  have hserves : .act (.cleanup s) ∈ st'.todo l.1 := by
    cases htodo : st.todo l.1 with
    | nil =>
      have hm := h.serves
      rw [htodo] at hm
      cases hm
    | cons x rest =>
      have hcode := h.code
      have hm := h.serves
      rw [htodo] at hcode hm
      refine mem_rest hs htodo ?_
      rcases List.mem_cons.mp hm with hm | hm
      · exact absurd hm.symm (hcode.ne_cleanup s)
      · exact hm
  cases h.code.step h.conn hs with
  | goesOn hm hcode =>
    rw [hm]
    exact (h.goesOn hframed hs (fun _ _ => rfl) hserves hcode).mono _
  | stores hm hcode =>
    rw [hm]
    exact (h.goesOn hframed hs (fun _ _ => rfl) hserves hcode).mono _
  | begins hm hf =>
    rw [hm]
    exact hf
  | fails hm hfail =>
    rw [hm, hfail]
    exact List.mem_append_right _ (List.mem_singleton_self c)

/-- A step of another thread, which does not take the lock. -/
theorem Waiting.step_other (h : Waiting st c m granted s t) (hframed : Framed st dead)
    (hs : Thread.step st l = some st') (hl : l.1 ≠ t)
    (hlock : ∀ rest, st.todo l.1 ≠ .lock (.send s) :: rest) :
    Keeps c st' dead ((Progress.asked m granted).after (moment c st l)) := by
  have hkeeps : Keeps c st' dead (.asked m granted) := by
    refine h.goesOn hframed hs (fun rest htodo => absurd htodo (hlock rest)) ?_ ?_
    · exact mem_stays hs (Ne.symm hl) h.serves
    · obtain ⟨p, hp⟩ := todo_of_ne hs (Ne.symm hl)
      rw [hp]
      exact h.code.append p
  rcases h.moment_of_ne hframed hl with hm | ⟨m', hm⟩
  · rw [hm]
    exact hkeeps
  · rw [hm]
    exact hkeeps

/-- A connection whose first login is read waits for its answer. -/
theorem Framed.waiting (hframed : Framed st dead) (hs : Thread.step st l = some st')
    {rest : Code} (htodo : st.todo l.1 = .act (.recv s) :: rest)
    (hc : st.shared.conn (st.shared.clients s).sockfd = some c)
    (hm : (recvMessage l.2.source).1 = some m) (hkind : m.kind = some .login)
    (hread : ∀ u, st.owner (.send s) = some u → Through s (st.todo u)) :
    Waiting st' c m false s l.1 := by
  obtain ⟨g, k, hat, hocc⟩ := hframed.apart.occupied
  obtain ⟨c', hl, hk⟩ := hat.serving_of_role htodo rfl
  have hserves : .act (.cleanup s) ∈ st'.todo l.1 := by
    have hmem := hat.cleanup_mem hk
    rw [← hl, htodo] at hmem
    exact mem_rest hs htodo ((List.mem_cons.mp hmem).resolve_left (by simp))
  obtain ⟨out, hexec, hshared, hnext⟩ := todo_of_act hs htodo (by simp [Act.role])
  simp only [exec, hc, hm, if_neg (show ¬ m.kind = some .logout by rw [hkind]; simp)] at hexec
  obtain rfl := goOn_inj hexec
  refine ⟨?_, ?_, hserves, fun u hu ho => ?_⟩
  · rw [hnext]
    exact .route _ hkind
  · rw [hshared]
    exact hc
  · refine through_step hs (fun rest' htodo' => ?_) (fun u _ => hread u) hu ho
    cases htodo.symm.trans htodo'

/-! ## Runs -/

/-- A step keeps the progress of a connection true. -/
theorem Keeps.step {p : Progress} (h : Keeps c st dead p) (hframed : Framed st dead)
    (hund : Undisturbed c (st, p) l) (hs : Thread.step st l = some st')
    (hfinal : ∀ c, taking st l = some c → c ∉ dead) :
    Keeps c st' (dead ++ (failing st l).toList) (p.after (moment c st l)) := by
  cases p with
  | unasked =>
    cases hx : moment c st l with
    | none => trivial
    | some x =>
      rcases moment_cases hx with ⟨s, rest, m, htodo, hc, hm, hkind, rfl⟩ | ⟨_, _, _, -, -, rfl⟩ |
        ⟨_, _, _, _, -, -, -, ⟨rfl, -⟩ | ⟨rfl, -⟩⟩
      · exact Or.inr ⟨s, l.1, hframed.waiting hs htodo hc hm hkind fun u ho =>
          hund.read s rest m u htodo rfl hx ho⟩
      · trivial
      · trivial
      · trivial
  | asked m granted =>
    rcases h with hclosed | ⟨s, t, hw⟩
    · rw [moment_of_closed hclosed.2]
      exact Or.inl (closed_step hs hclosed)
    · by_cases hl : l.1 = t
      · subst hl
        exact hw.step_self hframed hs
      · refine (hw.step_other hframed hs hl fun rest htodo => hl ?_).mono _
        refine (hframed.apart.served hw.serves).2 l.1 ?_
        rw [htodo]
        exact List.mem_cons_of_mem _ (hund.lock s rest m granted htodo rfl hw.conn)
  | broken m granted =>
    have hdead : c ∈ dead ++ (failing st l).toList := List.mem_append_left _ h
    cases hx : moment c st l with
    | none => exact hdead
    | some x =>
      rcases moment_cases hx with ⟨_, _, _, -, -, -, -, rfl⟩ | ⟨_, _, _, -, -, rfl⟩ |
        ⟨_, _, _, _, -, -, -, ⟨-, htake⟩ | ⟨rfl, -⟩⟩
      · exact hdead
      · exact hdead
      · exact absurd h (hfinal c htake)
      · exact hdead
  | answered m f granted => exact h

/-- The progress of a connection stays true along the runs in which nobody disturbs its login. -/
theorem Keeps.run {x y : State × Progress} {ls : List (Tid × Input)} (h : Keeps c x.1 dead x.2)
    (hframed : Framed x.1 dead) (hok : Meets Thread.step KeepsApart x.1 ls)
    (hfinal : FailuresFinal dead x.1 ls) (hund : Meets (observe c) (Undisturbed c) x ls)
    (hrun : run (observe c) x ls = some y) : ∃ dead', Keeps c y.1 dead' y.2 := by
  induction ls generalizing x dead with
  | nil =>
    obtain rfl := Option.some.inj hrun
    exact ⟨dead, h⟩
  | cons l ls ih =>
    obtain ⟨x₁, hx₁, hrun⟩ := run_cons_iff.mp hrun
    obtain ⟨hs, hp⟩ := observe_eq_some hx₁
    have hkeeps := h.step hframed hund.1 hs hfinal.1
    rw [← hp] at hkeeps
    exact ih hkeeps (hframed.step hok.1 hs hfinal.1) (hok.2 x₁.1 hs) (hfinal.2 x₁.1 hs)
      (hund.2 x₁ hx₁) hrun

/-- Every run can be watched. -/
theorem observe_run {p : Progress} {ls : List (Tid × Input)} (hrun : run step st ls = some st') :
    ∃ p', run (observe c) (st, p) ls = some (st', p') := by
  induction ls generalizing st p with
  | nil =>
    obtain rfl := Option.some.inj hrun
    exact ⟨p, rfl⟩
  | cons l ls ih =>
    obtain ⟨st₁, hs, hrun⟩ := run_cons_iff.mp hrun
    obtain ⟨p', hp'⟩ := ih hrun (p := p.after (moment c st l))
    refine ⟨p', run_cons_iff.mpr ⟨(st₁, p.after (moment c st l)), ?_, hp'⟩⟩
    rw [observe, hs, Option.map_some]

/-- A test for steps that disturb no login: taking a `send_lock` with the cleanup of the slot
ahead, or anything but that and reading. -/
def calmStep (x : State × Progress) (l : Tid × Input) : Bool :=
  match x.1.todo l.1 with
  | .lock (.send s) :: rest => rest.any fun
    | .act (.cleanup j) => j == s
    | _ => false
  | .act (.recv _) :: _ => false
  | _ => true

theorem undisturbed_of_calm (x : State × Progress) (l : Tid × Input) (h : calmStep x l = true) :
    Undisturbed c x l := by
  constructor
  · intro s rest m stored htodo _ _
    simp only [calmStep, htodo, List.any_eq_true] at h
    obtain ⟨y, hy, hc⟩ := h
    split at hc
    · rw [beq_iff_eq] at hc
      exact hc ▸ hy
    · cases hc
  · intro s rest m u htodo
    simp only [calmStep, htodo] at h
    cases h

/-- A thread that reads a message, as a connection sees it. -/
theorem observe_recv {p : Progress} {j d : Nat} {rest : Code} (hm : WellFormed m)
    (hkind : m.kind ≠ some .logout)
    (hc : st.shared.conn (st.shared.clients s).sockfd = some d)
    (h : st.todo (.client s j) = .act (.recv s) :: rest) :
    observe c (st, p) (.client s j, reads m) =
      some (st.goOn (.client s j) (.act (.route s m) :: .act (.recv s) :: rest),
        p.after (if d = c then if m.kind = some .login then some (.asked m) else none else none)) := by
  have hmoment : moment c st (.client s j, reads m) =
      if d = c then if m.kind = some .login then some (.asked m) else none else none := by
    simp only [moment, h, recvMessage_reads hm, hc, Option.some.injEq]
  rw [observe, step_recv hm hkind hc h, Option.map_some, hmoment]

/-- A broadcast of the user `a` that looks like a refusal. -/
def jeer : Message := { shout with status := 1 }

end ChatSystem.Thread
