import ChatSystem.Thread.Refinement

/-!
# Schedules in shifts

In a shift one thread works alone, in unchanging surroundings, until it waits again, for a
connection or for a message. Behind every schedule in shifts the threads are the room behind
the events the shifts began with.
-/

namespace ChatSystem.Thread

open Chat Tasks Transition

/-- What a thread does alone, between two points where all threads wait. -/
structure Shift where
  tid : Tid
  env : Env
  junk : List UInt8
  inputs : List Input

/-- The steps of a shift. -/
def Shift.labels (n : Shift) : List (Tid × Input) :=
  n.inputs.map fun i => (n.tid, { i with env := n.env, junk := n.junk })

/-- A shift. -/
def shift (st : State) (n : Shift) : Option State := run step st n.labels

/-- A thread waits for a connection or a message, or has ended. -/
def Resting : Code → Prop
  | [] => True
  | .act .accept :: _ => True
  | .act (.recv _) :: _ => True
  | _ => False

/-- No write and no `pthread_create` of the shift fails, and the thread waits behind it. -/
structure Serial (st : State) (n : Shift) : Prop where
  smooth : ∀ i ∈ n.inputs, i.created = true ∧ i.write ≠ .failed
  rest : ∀ st', shift st n = some st' → Resting (st'.todo n.tid)

/-- A message that `recv_message` returned. -/
def requestOf {src : Channel.Source UInt8} {m : Message} (h : (recvMessage src).1 = some m) :
    Request :=
  ⟨m, by
    obtain ⟨f, hf, -, hm⟩ := recvMessage_eq_some h
    exact ⟨f, hf, hm⟩⟩

/-- The event that a step begins with. -/
def eventOf (st : State) (l : Tid × Input) : List Chat.Event :=
  match l.1, st.todo l.1 with
  | .main, .act .accept :: _ => if l.2.fd.isSome then [.connect l.2.env] else []
  | .client _ c, .act (.recv _) :: _ =>
    match h : (recvMessage l.2.source).1 with
    | some _ => [.request c (requestOf h) l.2.env]
    | none => [.close c ⟨l.2.env, l.2.junk, false⟩]
  | _, _ => []

/-- The events of a shift. -/
def eventsOf (st : State) (n : Shift) : List Chat.Event := collect step eventOf st n.labels

/-- A slot in use is served, or the accept loop is busy with it. -/
def Used (sh : Shared) (g : Stage) (k : Phases) : Prop :=
  ∀ s, (sh.clients s).inUse = true →
    (∃ c, k (s, c) = .serving) ∨ ∃ fd c, g = .filled s fd c ∨ g = .abandoned s fd c

/-- Behind its next reception a thread of a slot only has its end. -/
def Listens (s : Slot) : Code → Prop
  | [] => True
  | .act (.recv s') :: rest =>
    s' = s ∧ rest = [.lock .table, .act (.cleanup s), .act (.closeSocket s)]
  | _ :: rest => Listens s rest

variable {st st' : State} {sh sh' : Shared} {g g' : Stage} {k k' : Phases} {t u : Tid} {i : Input}
  {l : Tid × Input} {s : Slot} {c : Nat} {p q : Code} {env : Env} {junk : List UInt8}

/-! ## Slots in use -/

theorem Used.congr (h : Used sh g k)
    (huse : ∀ s, (sh'.clients s).inUse = true → (sh.clients s).inUse = true)
    (hg : ∀ s fd c, g = .filled s fd c ∨ g = .abandoned s fd c →
      ∃ fd' c', g' = .filled s fd' c' ∨ g' = .abandoned s fd' c') : Used sh' g' k := by
  intro s hs
  rcases h s (huse s hs) with hc | ⟨fd, c, hs⟩
  · exact Or.inl hc
  · exact Or.inr (hg s fd c hs)

theorem inUse_of_work {a : Act} (h : Change t sh a sh')
    (ha : a.role = .sending ∨ ∃ s, a.role = .serving s) (j : Slot) :
    (sh'.clients j).inUse = (sh.clients j).inUse := by
  cases h
  case same => rfl
  case write => rfl
  case storeLogin s u => exact inUse_setEntry sh s j _
  case clear s => exact inUse_setEntry sh s j _
  case setStatus s m status => exact inUse_setEntry sh s j _
  case saveHistory => rfl
  all_goals
    rcases ha with ha | ⟨s', ha⟩
    · cases ha
    · cases ha

/-- Every move keeps track of the slots in use. -/
theorem Used.move (h : Used st.shared g k) (hm : Move st l g k sh g' k') : Used sh g' k' := by
  cases hm with
  | stay => exact h
  | work htodo hc ha =>
    apply h.congr
    · intro s hs
      rwa [inUse_of_work hc (by rcases ha with ha | ⟨s, c, -, ha, -⟩; exacts [.inl ha, .inr ⟨s, ha⟩])]
        at hs
    · exact fun s fd c hs => ⟨fd, c, hs⟩
  | accept => exact h.congr (fun s hs => hs) fun s fd c hs => (by rcases hs with hs | hs <;> cases hs)
  | refuse => exact h.congr (fun s hs => hs) fun s fd c hs => (by rcases hs with hs | hs <;> cases hs)
  | @fill s fd c _ hl htodo hfree =>
    intro j hj
    by_cases hjs : j = s
    · exact Or.inr ⟨fd, c, Or.inl (by rw [hjs])⟩
    · rw [Shared.fill, clients_setClient_of_ne _ hjs] at hj
      rcases h j hj with hc | ⟨fd', c', hs⟩
      · exact Or.inl hc
      · rcases hs with hs | hs <;> cases hs
  | start s fd c =>
    intro j hj
    rcases h j hj with ⟨c', hc⟩ | ⟨fd', c', hs⟩
    · refine Or.inl ⟨c', ?_⟩
      by_cases he : (j, c') = (s, c)
      · rw [he, Function.update_self]
      · rw [Function.update_of_ne he]
        exact hc
    · rcases hs with hs | hs
      · cases hs
        exact Or.inl ⟨c, Function.update_self ..⟩
      · cases hs
  | giveUp s fd c =>
    refine h.congr (fun s hs => hs) fun j fd' c' hs => ?_
    rcases hs with hs | hs
    · cases hs
      exact ⟨fd, c, Or.inr rfl⟩
    · cases hs
  | abandon s fd c =>
    intro j hj
    by_cases hjs : j = s
    · rw [hjs, Shared.abandon, clients_setClient_self] at hj
      cases hj
    · rw [Shared.abandon, clients_setClient_of_ne _ hjs] at hj
      rcases h j hj with hc | ⟨fd', c', hs⟩
      · exact Or.inl hc
      · rcases hs with hs | hs
        · cases hs
        · cases hs
          exact absurd rfl hjs
  | closeFd fd c =>
    refine h.congr (fun s hs => ?_) fun s fd c hs => (by rcases hs with hs | hs <;> cases hs)
    rwa [clients_close] at hs
  | @leave s c _ _ hk =>
    intro j hj
    by_cases hjs : j = s
    · rw [hjs, Shared.release, clients_setClient_self] at hj
      cases hj
    · rw [Shared.release, clients_setClient_of_ne _ hjs] at hj
      rcases h j hj with ⟨c', hc⟩ | hs
      · refine Or.inl ⟨c', ?_⟩
        rw [Function.update_of_ne (fun he => hjs (Prod.mk.inj he).1)]
        exact hc
      · exact Or.inr hs
  | @close s c _ _ htodo hk =>
    intro j hj
    rw [clients_close] at hj
    rcases h j hj with ⟨c', hc⟩ | hs
    · refine Or.inl ⟨c', ?_⟩
      have hne : (j, c') ≠ (s, c) := by
        intro he
        rw [he, hk] at hc
        cases hc
      rw [Function.update_of_ne hne]
      exact hc
    · exact Or.inr hs

theorem used_init (history : History) : Used (Shared.init history) .idle fun _ => .gone := by
  intro s hs
  cases hs

/-! ## Receptions -/

theorem Listens.tail {x : Stmt Lock Act} (h : Listens s (x :: p)) : Listens s p := by
  cases x with
  | lock _ => exact h
  | unlock _ => exact h
  | act a =>
    cases a
    case recv s' =>
      rw [h.2]
      trivial
    all_goals exact h

theorem Listens.append (hp : (meaning env junk).Free p) (h : Listens s q) : Listens s (p ++ q) := by
  induction p with
  | nil => exact h
  | cons x p ih =>
    have hrest := ih fun a ha => hp a (List.mem_cons_of_mem _ ha)
    cases x with
    | lock _ => exact hrest
    | unlock _ => exact hrest
    | act a =>
      cases a
      case recv s' => cases hp _ List.mem_cons_self
      all_goals exact hrest

/-- What a thread does, it does in front of its next reception. -/
theorem Listens.next {a : Act} {rest : Code} {out : Outcome Lock Tid Act Shared}
    (h : Listens s (.act a :: rest)) (hexec : exec t a i sh = some out) (ha : a ≠ .accept) :
    Listens s (out.next ++ rest) := by
  by_cases hrecv : ∃ s', a = .recv s'
  · obtain ⟨s', rfl⟩ := hrecv
    obtain ⟨rfl, hrest⟩ := h
    simp only [exec] at hexec
    split at hexec
    · split at hexec
      · obtain rfl := goOn_inj hexec
        rw [hrest]
        trivial
      · obtain rfl := goOn_inj hexec
        exact ⟨rfl, hrest⟩
    · obtain rfl := goOn_inj hexec
      rw [hrest]
      trivial
  · have hstop : (meaning i.env i.junk).stop a = false := by
      cases a
      case accept => exact absurd rfl ha
      case recv s' => exact absurd ⟨s', rfl⟩ hrecv
      all_goals rfl
    exact (h.tail).append (free_next hexec hstop)

/-- A thread that is started had no work before. -/
theorem At.started_fresh (h : At st g k) {a : Act} {rest : Code}
    {out : Outcome Lock Tid Act Shared} (htodo : st.todo t = .act a :: rest)
    (hexec : exec t a i st.shared = some out) (hspawn : out.spawn = some (u, p)) :
    t = .main ∧ st.todo u = [] ∧ ∃ s c, u = .client s c ∧ p = clientThread s := by
  obtain ⟨s, fd, c, rfl, rfl, rfl, -⟩ := spawn_eq_some hexec hspawn
  obtain rfl := h.main_of_role htodo rfl
  have hg : g = .filled s fd c := h.filled_of_mem (by rw [htodo]; exact List.mem_cons_self)
  subst hg
  have hgone := (h.fresh fd c rfl).2 s
  exact ⟨rfl, (h.todo_eq_nil_iff s c).mpr hgone, s, c, rfl, rfl⟩

/-- Every step of a thread keeps what stands behind its next reception. -/
theorem listens_step (h : ∀ s c, Listens s (st.todo (.client s c))) (hat : At st g k)
    (hs : step st (t, i) = some st') (s : Slot) (c : Nat) :
    Listens s (st'.todo (.client s c)) := by
  have hmine := h s c
  by_cases ht : Tid.client s c = t
  · subst ht
    rcases Tasks.step_cases hs with ⟨x, rest, htodo, -, rfl⟩ | ⟨x, rest, htodo, rfl⟩ |
        ⟨a, rest, out, htodo, hexec, rfl⟩
    · rw [htodo] at hmine
      rw [todo_goOn_self]
      exact hmine.tail
    · rw [htodo] at hmine
      rw [todo_goOn_self]
      exact hmine.tail
    · rw [htodo] at hmine
      have hrole : a.role ≠ .accepting := fun ha => by cases hat.main_of_role htodo ha
      rw [todo_perform_self (spawn_eq_none hexec hrole)]
      exact hmine.next hexec fun ha => hrole (by rw [ha]; rfl)
  · rcases todo_step_of_ne hs ht with he | ⟨a, rest, out, p, htodo, hexec, hspawn, he⟩
    · rw [he]
      exact hmine
    · obtain ⟨-, hnil, s', c', hu, rfl⟩ := hat.started_fresh htodo hexec hspawn
      cases hu
      rw [he, hnil]
      exact ⟨rfl, rfl⟩

/-! ## Threads that wait -/

/-- An accept loop that waits is at the top of its loop. -/
theorem At.idle_of_resting (h : At st g k) (hr : Resting (st.todo .main)) :
    g = .idle ∧ st.todo .main = [.act .accept] := by
  obtain ⟨p, hp, he⟩ := h.todo .main
  rw [he] at hr ⊢
  cases p with
  | nil =>
    cases g with
    | idle => exact ⟨rfl, rfl⟩
    | taken => cases hr
    | refused => cases hr
    | filled => cases hr
    | abandoned => cases hr
  | cons x p =>
    cases x with
    | lock _ => cases hr
    | unlock _ => cases hr
    | act a =>
      have ha : a.role = .sending := hp a List.mem_cons_self
      cases a
      case accept => cases ha
      case recv s => cases ha
      all_goals cases hr

/-- A client thread that waits is about to receive. -/
theorem At.serving_of_resting (h : At st g k) (hr : Resting (st.todo (.client s c)))
    (hne : st.todo (.client s c) ≠ []) :
    k (s, c) = .serving ∧ ∃ s' rest, st.todo (.client s c) = .act (.recv s') :: rest := by
  obtain ⟨x, rest, htodo⟩ := List.exists_cons_of_ne_nil hne
  rw [htodo] at hr
  cases x with
  | lock _ => cases hr
  | unlock _ => cases hr
  | act a =>
    cases a
    case accept => cases h.main_of_role htodo rfl
    case recv s' =>
      obtain ⟨c', hc, hk⟩ := h.serving_of_role htodo rfl
      cases hc
      exact ⟨hk, s, rest, htodo⟩
    all_goals cases hr

/-- The threads between any two steps. -/
structure Orderly (st : State) (g : Stage) (k : Phases) : Prop where
  stages : At st g k
  owns : Owns st.shared g k
  occupied : Occupied st.shared g k
  used : Used st.shared g k
  listens : ∀ s c, Listens s (st.todo (.client s c))

theorem orderly_init (history : History) : Orderly (init history) .idle fun _ => .gone :=
  ⟨at_init history, owns_init history, occupied_init history, used_init history,
    fun _ _ => trivial⟩

/-- While the others wait, the accept loop fills a slot nobody uses. -/
theorem Orderly.fillsFinished (h : Orderly st g k) (hrest : ∀ u, u ≠ t → Resting (st.todo u))
    (i : Input) : FillsFinished st (t, i) := by
  intro fd c rest s ht htodo hfree c'
  obtain rfl : t = .main := ht
  by_contra hne
  have hk := (h.stages.serving_of_resting (hrest (.client s c') (by simp)) hne).1
  have huse := h.occupied.serving s c' hk
  have hfree : (!(st.shared.clients s).inUse) = true := firstSlot_eq_some hfree
  rw [huse] at hfree
  cases hfree

theorem Orderly.step (h : Orderly st g k) (hrest : ∀ u, u ≠ t → Resting (st.todo u))
    (hs : step st (t, i) = some st') : ∃ g' k', Orderly st' g' k' := by
  obtain ⟨g', k', hm, hat⟩ := h.stages.step hs
  exact ⟨g', k', hat, h.owns.move h.stages (h.fillsFinished hrest i) hm, h.occupied.move hm,
    h.used.move hm, listens_step h.listens h.stages hs⟩

/-- Threads that wait go on waiting, and a thread that is started waits. -/
theorem Orderly.resting_step (h : Orderly st g k) (hrest : ∀ u, u ≠ t → Resting (st.todo u))
    (hs : Thread.step st (t, i) = some st') (hu : u ≠ t) : Resting (st'.todo u) := by
  rcases todo_step_of_ne hs hu with he | ⟨a, rest, out, p, htodo, hexec, hspawn, he⟩
  · rw [he]
    exact hrest u hu
  · obtain ⟨-, hnil, s, c, -, rfl⟩ := h.stages.started_fresh htodo hexec hspawn
    rw [he, hnil]
    trivial

/-- While the accept loop waits, the slots in use have sockets of their own. -/
theorem connected_of_idle (ho : Owns sh .idle k) (hu : Used sh .idle k) : Connected sh := by
  have hserved : ∀ s, (sh.clients s).inUse = true →
      ∃ c, k (s, c) ≠ .gone ∧ sh.conn (sh.clients s).sockfd = some c := by
    intro s hs
    rcases hu s hs with ⟨c, hc⟩ | ⟨fd, c, hg⟩
    · have hk : k (s, c) ≠ .gone := by rw [hc]; simp
      exact ⟨c, hk, ho.own s c hk⟩
    · rcases hg with hg | hg <;> cases hg
  constructor
  · intro s hs
    obtain ⟨c, -, hc⟩ := hserved s hs
    exact ⟨c, hc⟩
  · intro s s' hs hs' he
    obtain ⟨c, hk, hc⟩ := hserved s hs
    obtain ⟨c', hk', hc'⟩ := hserved s' hs'
    rw [he, hc'] at hc
    obtain rfl := Option.some.inj hc
    exact ho.slot s s' c' hk hk'

/-! ## Events -/

/-- What is seen is the room behind some events and the bytes of its messages. -/
structure Shows (history : History) (es : List Chat.Event) (v : View) : Prop where
  room : v.shared.room = roomAfter .thread history es
  wire : v.wire = (sentAt .thread history es).flatMap bytesOf

variable {history : History} {es : List Chat.Event} {v w : View}

/-- Serving one more event. -/
theorem Shows.serve {e : Chat.Event} (h : Shows history es v)
    (hs : Serves v w (serve .thread v.shared.room e).1 (serve .thread v.shared.room e).2) :
    Shows history (es ++ [e]) w := by
  obtain ⟨hroom, hwire⟩ := hs
  rw [h.room] at hroom hwire
  constructor
  · rw [hroom, roomAfter, roomAfter, Reactive.after_append]
    rfl
  · rw [hwire, h.wire, sentAt, sentAt, Reactive.outputs_append, List.flatMap_append]
    simp only [Reactive.outputs_cons, Reactive.outputs_nil, List.append_nil]
    rfl

theorem waits_iff : (meaning env junk).Waits p ↔ Resting p := by
  cases p with
  | nil => exact Iff.rfl
  | cons x p =>
    cases x with
    | lock _ => exact Iff.rfl
    | unlock _ => exact Iff.rfl
    | act a => cases a <;> simp [Meaning.Waits, meaning, Resting]

/-- Only a thread that waits begins with an event. -/
theorem eventOf_of_busy (h : ¬ Resting (st.todo t)) : eventOf st (t, i) = [] := by
  unfold eventOf
  split
  · next htodo =>
    rw [htodo] at h
    exact absurd trivial h
  · next htodo =>
    rw [htodo] at h
    exact absurd trivial h
  · rfl

/-- A step of a thread that goes on is part of what it does alone. -/
theorem Orderly.shows_busy (h : Orderly st g k) (hi : Smooth env junk i)
    (hs : Thread.step st (t, i) = some st') (hbusy : ¬ Resting (st.todo t))
    (hshow : Shows history es ((meaning env junk).code (st.todo t) (see st.shared))) :
    Shows history (es ++ eventOf st (t, i))
      ((meaning env junk).code (st'.todo t) (see st'.shared)) := by
  have hcode := meaning_sound.step hs (fun _ _ _ => hi) (fun hw => hbusy (waits_iff.mp hw)) (by
    intro a rest out p htodo hexec hspawn
    obtain ⟨rfl, -, s, c, hu, -⟩ := h.stages.started_fresh htodo hexec hspawn
    cases hu)
  rw [eventOf_of_busy hbusy, List.append_nil, hcode]
  exact hshow

/-- The accept loop takes a connection, or finds none. -/
theorem Orderly.shows_accept (h : Orderly st g k) (hi : Smooth env junk i)
    (hs : Thread.step st (.main, i) = some st') (hr : Resting (st.todo .main))
    (hshow : Shows history es ((meaning env junk).code (st.todo .main) (see st.shared))) :
    Shows history (es ++ eventOf st (.main, i))
      ((meaning env junk).code (st'.todo .main) (see st'.shared)) := by
  obtain ⟨rfl, htodo⟩ := h.stages.idle_of_resting hr
  rw [htodo] at hshow
  have hshow : Shows history es (see st.shared) := hshow
  simp only [Thread.step, Tasks.step, htodo] at hs
  obtain ⟨out, hexec, rfl⟩ := Option.map_eq_some_iff.mp hs
  have hspawn : out.spawn = none := by
    cases hp : out.spawn with
    | none => rfl
    | some up =>
      obtain ⟨s, fd, c, ha, -⟩ := spawn_eq_some hexec hp
      cases ha
  rw [todo_perform_self hspawn]
  unfold eventOf
  simp only [htodo]
  simp only [exec] at hexec
  split at hexec
  · next hnone =>
    obtain rfl := goOn_inj hexec
    rw [hnone, if_neg (by simp), List.append_nil]
    exact hshow
  · next fd hfd =>
    split at hexec
    · next hfree =>
      obtain rfl := goOn_inj hexec
      rw [hfd, hi.env]
      exact hshow.serve (serves_allot (connected_of_idle h.owns h.used)
        (Option.isNone_iff_eq_none.mp hfree) env)
    · cases hexec

/-- A client thread receives a message, or finds the end of its stream. -/
theorem Orderly.shows_recv (h : Orderly st g k) (hi : Smooth env junk i)
    (hmain : Resting (st.todo .main)) (hs : Thread.step st (.client s c, i) = some st')
    (hr : Resting (st.todo (.client s c)))
    (hshow : Shows history es ((meaning env junk).code (st.todo (.client s c)) (see st.shared))) :
    Shows history (es ++ eventOf st (.client s c, i))
      ((meaning env junk).code (st'.todo (.client s c)) (see st'.shared)) := by
  have hne : st.todo (.client s c) ≠ [] := by
    intro hnil
    simp [Thread.step, Tasks.step, hnil] at hs
  obtain ⟨hk, s', rest, htodo⟩ := h.stages.serving_of_resting hr hne
  have hlistens := h.listens s c
  rw [htodo] at hlistens
  obtain ⟨rfl, rfl⟩ := hlistens
  obtain ⟨rfl, -⟩ := h.stages.idle_of_resting hmain
  have hopen : st.shared.conn (st.shared.clients s').sockfd = some c :=
    h.owns.own s' c (by rw [hk]; simp)
  have huse := h.occupied.serving s' c hk
  have hidle := connected_of_idle h.owns h.used
  have hconnected : Connected (see st.shared).shared := ⟨hidle.conn, hidle.apart⟩
  rw [htodo] at hshow
  have hshow : Shows history es (see st.shared) := hshow
  have hslot : (see st.shared).shared.room.slotOf c = some s' := by
    apply Tidy.slotOf_eq (by rw [hshow.room]; exact tidy_roomAfter ..)
    change (if (st.shared.clients s').inUse then _ else none) = _
    rw [if_pos huse]
    exact hopen
  have hman : Manned (see st.shared) := h.occupied.active
  simp only [Thread.step, Tasks.step, htodo] at hs
  obtain ⟨out, hexec, rfl⟩ := Option.map_eq_some_iff.mp hs
  rw [todo_perform_self (spawn_eq_none hexec (by simp [Act.role]))]
  unfold eventOf
  simp only [htodo]
  simp only [exec, hopen] at hexec
  split
  · next m hm =>
    have hserve : serve .thread (see st.shared).shared.room (.request c (requestOf hm) i.env) =
        (see st.shared).shared.room.route .thread env s' m := by
      rw [hi.env]
      simp only [serve, Room.request, hslot]
      rfl
    simp only [hm] at hexec
    split at hexec
    · next hlogout =>
      obtain rfl := goOn_inj hexec
      apply hshow.serve
      have hview : (see st.shared).route env s' m = (see st.shared).logout env s' := by
        rw [View.route, hlogout]
      have hroom : (see st.shared).shared.room.route .thread env s' m =
          (see st.shared).shared.room.logout .thread env s' := by
        rw [Room.route, hlogout]
      rw [hserve, hroom]
      change Serves _ (((see st.shared).route env s' m).leave env junk s') _ _
      rw [hview]
      exact serves_logout hman hconnected huse env
    · next hstay =>
      obtain rfl := goOn_inj hexec
      apply hshow.serve
      rw [hserve]
      exact serves_route hman huse env hstay
  · next hm =>
    simp only [hm] at hexec
    obtain rfl := goOn_inj hexec
    apply hshow.serve
    rw [hi.env, hi.junk]
    exact serves_leave hman hconnected huse hslot

/-- Every step of a thread, while the others wait, belongs to the event it began with. -/
theorem Orderly.shows_step (h : Orderly st g k) (hi : Smooth env junk i)
    (hrest : ∀ u, u ≠ t → Resting (st.todo u)) (hs : Thread.step st (t, i) = some st')
    (hshow : Shows history es ((meaning env junk).code (st.todo t) (see st.shared))) :
    Shows history (es ++ eventOf st (t, i))
      ((meaning env junk).code (st'.todo t) (see st'.shared)) := by
  by_cases hr : Resting (st.todo t)
  · cases t with
    | main => exact h.shows_accept hi hs hr hshow
    | client s c => exact h.shows_recv hi (hrest .main (by simp)) hs hr hshow
  · exact h.shows_busy hi hs hr hshow

/-! ## Shifts -/

/-- A thread works alone for any number of steps. -/
theorem Orderly.shows_run (h : Orderly st g k) {is : List Input}
    (his : ∀ i ∈ is, Smooth env junk i) (hrest : ∀ u, u ≠ t → Resting (st.todo u))
    (hshow : Shows history es ((meaning env junk).code (st.todo t) (see st.shared)))
    (hrun : run Thread.step st (is.map (t, ·)) = some st') :
    (∃ g' k', Orderly st' g' k') ∧ (∀ u, u ≠ t → Resting (st'.todo u)) ∧
      Shows history (es ++ collect Thread.step eventOf st (is.map (t, ·)))
        ((meaning env junk).code (st'.todo t) (see st'.shared)) := by
  induction is generalizing st g k es with
  | nil =>
    obtain rfl := Option.some.inj hrun
    refine ⟨⟨g, k, h⟩, hrest, ?_⟩
    rw [List.map_nil, collect, List.append_nil]
    exact hshow
  | cons i is ih =>
    obtain ⟨st₁, hs, hrest₁⟩ := run_cons_iff.mp hrun
    obtain ⟨g₁, k₁, h₁⟩ := h.step hrest hs
    have hshow₁ := h.shows_step (his i List.mem_cons_self) hrest hs hshow
    have hwait : ∀ u, u ≠ t → Resting (st₁.todo u) := fun u hu => h.resting_step hrest hs hu
    rw [List.map_cons, collect_cons hs, ← List.append_assoc]
    exact ih h₁ (fun i hi => his i (List.mem_cons_of_mem _ hi)) hwait hshow₁ hrest₁

/-- All threads wait, and are the room behind some events. -/
structure Settled (history : History) (es : List Chat.Event) (st : State) : Prop where
  orderly : ∃ g k, Orderly st g k
  resting : ∀ t, Resting (st.todo t)
  shows : Shows history es (see st.shared)

theorem settled_init (history : History) : Settled history [] (init history) := by
  refine ⟨⟨_, _, orderly_init history⟩, fun t => ?_, ?_, ?_⟩
  · cases t <;> trivial
  · rfl
  · rfl

/-- A shift serves its events. -/
theorem Settled.shift {n : Shift} (h : Settled history es st) (hn : Serial st n)
    (hs : Thread.shift st n = some st') : Settled history (es ++ eventsOf st n) st' := by
  obtain ⟨g, k, ho⟩ := h.orderly
  have hlabels : n.labels =
      (n.inputs.map fun i => { i with env := n.env, junk := n.junk }).map (n.tid, ·) := by
    rw [List.map_map]
    rfl
  have hsmooth : ∀ i ∈ n.inputs.map fun i : Input => { i with env := n.env, junk := n.junk },
      Smooth n.env n.junk i := by
    intro i hi
    obtain ⟨i, hmem, rfl⟩ := List.mem_map.mp hi
    exact ⟨rfl, rfl, (hn.smooth i hmem).1, (hn.smooth i hmem).2⟩
  have hrest' := hn.rest st' hs
  have hstart : Shows history es ((meaning n.env n.junk).code (st.todo n.tid) (see st.shared)) := by
    rw [(waits_iff.mpr (h.resting n.tid)).code]
    exact h.shows
  have hrun := hs
  rw [Thread.shift, hlabels] at hrun
  obtain ⟨horder, hothers, hend⟩ := ho.shows_run hsmooth (fun u _ => h.resting u) hstart hrun
  rw [(waits_iff.mpr hrest').code, ← hlabels] at hend
  refine ⟨horder, fun u => ?_, hend⟩
  by_cases hu : u = n.tid
  · rw [hu]
    exact hrest'
  · exact hothers u hu

theorem settled_run {ns : List Shift} (h : Settled history es st) (hserial : Meets shift Serial st ns)
    (hrun : run shift st ns = some st') :
    Settled history (es ++ collect shift eventsOf st ns) st' := by
  induction ns generalizing st es with
  | nil =>
    obtain rfl := Option.some.inj hrun
    rw [collect, List.append_nil]
    exact h
  | cons n ns ih =>
    obtain ⟨st₁, hs, hrest⟩ := run_cons_iff.mp hrun
    rw [collect_cons hs, ← List.append_assoc]
    exact ih (h.shift hserial.1 hs) (hserial.2 st₁ hs) hrest

/-- Behind every schedule in shifts, the table, the connections and the history of the thread
server are those of the room behind the events of the shifts, and a client that reads with
`recv_message` what was written to its socket gets the messages the room sends it. -/
theorem threads_refine_room {ns : List Shift} (hserial : Meets shift Serial (init history) ns)
    (hrun : run shift (init history) ns = some st) :
    roomAfter .thread history (collect shift eventsOf (init history) ns) = st.shared.room ∧
      ∀ c reads, Channel.Steady reads → ∀ n, (wireTo c (wireOf st.shared.log)).length < n →
        ChatSystem.received n ⟨wireTo c (wireOf st.shared.log), reads⟩ =
          framesTo c (sentAt .thread history (collect shift eventsOf (init history) ns)) := by
  have h := (settled_run (settled_init history) hserial hrun).shows
  rw [List.nil_append] at h
  refine ⟨h.room.symm, fun c reads hr n hn => ?_⟩
  have hwire : wireOf st.shared.log = _ := h.wire
  rw [hwire] at hn ⊢
  exact received_sent (asRead_sentAt .thread history _) c hr hn

/-- The accept loop takes a connection, whose client logs in and gets its answer. -/
def loginShifts : List Shift :=
  [⟨.main, noInput.env, [], { noInput with fd := some 4 } :: List.replicate 4 noInput⟩,
    ⟨.client 0 0, noInput.env, [], reads (loginAs "a") :: List.replicate 12 noInput⟩]

theorem threads_refine_room_login : ∃ st, run shift (init fun _ => none) loginShifts = some st ∧
    roomAfter .thread (fun _ => none)
      (collect shift eventsOf (init fun _ => none) loginShifts) = st.shared.room ∧
    (st.shared.room.table 0).active = true := by
  have hlogin : WellFormed (loginAs "a") := wellFormed_makeMessage ..
  have hkind : (loginAs "a").kind ≠ some .logout := by simp [loginAs]
  have hrun : run shift (init fun _ => none) loginShifts = some _ :=
    run_cons_iff.mpr ⟨_, rfl, run_cons_iff.mpr
      ⟨_, run_cons_iff.mpr ⟨_, step_recv hlogin hkind rfl rfl, rfl⟩, rfl⟩⟩
  have hinput : ∀ i ∈ List.replicate 12 noInput, i.created = true ∧ i.write ≠ .failed := by
    intro i hi
    rw [List.eq_of_mem_replicate hi]
    exact ⟨rfl, by simp [noInput]⟩
  have hserial : Meets shift Serial (init fun _ => none) loginShifts := by
    refine ⟨⟨?_, ?_⟩, fun st₁ h₁ => ⟨⟨?_, ?_⟩, fun _ _ => trivial⟩⟩
    · intro i hi
      rcases List.mem_cons.mp hi with rfl | hi
      · exact ⟨rfl, by simp [noInput]⟩
      · rw [List.eq_of_mem_replicate hi]
        exact ⟨rfl, by simp [noInput]⟩
    · intro st' hs
      obtain rfl := Option.some.inj hs
      trivial
    · intro i hi
      rcases List.mem_cons.mp hi with rfl | hi
      · exact ⟨rfl, by simp [reads, noInput]⟩
      · exact hinput i hi
    · intro st' hs
      obtain rfl := Option.some.inj h₁
      obtain ⟨st₂, h₂, hs⟩ := run_cons_iff.mp hs
      obtain rfl := Option.some.inj ((step_recv hlogin hkind rfl rfl).symm.trans h₂)
      obtain rfl := Option.some.inj hs
      trivial
  exact ⟨_, hrun, (threads_refine_room hserial hrun).1, rfl⟩

end ChatSystem.Thread
