import ChatSystem.Thread.Stages

/-!
# Sessions and their descriptors

Each session should close its own descriptor, and nobody else should. A thread
frees its slot before it closes `clients[s].sockfd`, so this holds along the runs
in which the accept loop only fills slots whose earlier sessions are over: there
the descriptor in a slot is the one of its only running session.
-/

namespace ChatSystem.Thread

open Tasks Transition

variable {st st' : State} {sh sh' : Shared} {g g' : Stage} {k k' : Phases} {t : Tid}

/-- The connection whose descriptor an event closes. -/
def Event.closedConn : Event → Option Nat
  | .closed _ _ c => some c
  | _ => none

/-- The events about the life of a session. -/
def Event.isSession : Event → Bool
  | .started _ _ | .closed _ _ _ => true
  | _ => false

/-- The connections closed so far. -/
def closedConns (log : List Event) : List Nat := log.filterMap Event.closedConn

/-- Sessions own their descriptors: no connection is closed twice, each is closed by the thread
created for it or, if there is none, by the accept loop, no thread is about to close its socket
while another session runs in its slot, and sessions that are over have closed their own. -/
structure Owned (st : State) : Prop where
  once : (closedConns st.shared.log).Nodup
  byOwner : ∀ t fd c, .closed t fd c ∈ st.shared.log →
    (∃ s, t = .client s c ∧ .started s c ∈ st.shared.log) ∨
      t = .main ∧ ∀ s, .started s c ∉ st.shared.log
  alone : ∀ s c, st.todo (.client s c) = [.act (.closeSocket s)] →
    (∀ c', c' ≠ c → st.todo (.client s c') = []) ∧ ∀ fd c', .act (.create s fd c') ∉ st.todo .main
  ended : ∀ s c, .started s c ∈ st.shared.log → st.todo (.client s c) = [] →
    ∃ fd, .closed (.client s c) fd c ∈ st.shared.log

/-- A slot that the accept loop is about to fill has no session that is not over. -/
def FillsFinished (st : State) (l : Tid × Input) : Prop :=
  ∀ fd c rest s, l.1 = .main → st.todo .main = .act (.allot fd c) :: rest →
    st.shared.findFree = some s → ∀ c', st.todo (.client s c') = []

/-- The descriptors of the running sessions and of the pending connection. -/
structure Owns (sh : Shared) (g : Stage) (k : Phases) : Prop where
  lt : ∀ fd c, sh.conn fd = some c → c < sh.accepted
  inj : ∀ fd fd' c, sh.conn fd = some c → sh.conn fd' = some c → fd = fd'
  own : ∀ s c, k (s, c) ≠ .gone → sh.conn (sh.clients s).sockfd = some c
  slot : ∀ s s' c, k (s, c) ≠ .gone → k (s', c) ≠ .gone → s = s'
  pending : ∀ fd c, g.pending = some (fd, c) → sh.conn fd = some c
  filled : ∀ s fd c, g = .filled s fd c → (sh.clients s).sockfd = fd ∧ ∀ c', k (s, c') = .gone
  started : ∀ s c, k (s, c) ≠ .gone → .started s c ∈ sh.log
  unstarted : ∀ fd c s, g.pending = some (fd, c) → .started s c ∉ sh.log
  startedLt : ∀ s c, .started s c ∈ sh.log → c < sh.accepted
  closed : ∀ t fd c, .closed t fd c ∈ sh.log → c < sh.accepted ∧ (∀ fd', sh.conn fd' ≠ some c) ∧
    ((∃ s, t = .client s c ∧ .started s c ∈ sh.log) ∨ t = .main ∧ ∀ s, .started s c ∉ sh.log)
  once : (closedConns sh.log).Nodup
  ended : ∀ s c, .started s c ∈ sh.log → k (s, c) = .gone →
    ∃ fd, .closed (.client s c) fd c ∈ sh.log

/-! ## Changes that leave descriptors alone -/

/-- Descriptors and session events are unchanged. -/
structure Calm (sh sh' : Shared) : Prop where
  conn : sh'.conn = sh.conn
  accepted : sh'.accepted = sh.accepted
  sockfd : ∀ s, (sh'.clients s).sockfd = (sh.clients s).sockfd
  log : sh'.log.filter Event.isSession = sh.log.filter Event.isSession

theorem calm_setClient (sh : Shared) (s : Slot) {c : Client}
    (h : c.sockfd = (sh.clients s).sockfd) : Calm sh (sh.setClient s c) := by
  refine ⟨rfl, rfl, fun i => ?_, rfl⟩
  by_cases hi : i = s
  · subst hi
    simpa only [Shared.setClient, Function.update_self] using h
  · simp only [Shared.setClient, Function.update_of_ne hi]

theorem Calm.note (h : Calm sh sh') {e : Event} (he : e.isSession = false) :
    Calm sh (sh'.note e) := by
  refine ⟨h.conn, h.accepted, h.sockfd, ?_⟩
  rw [← h.log]
  simp [Shared.note, he]

theorem Calm.refl (sh : Shared) : Calm sh sh := ⟨rfl, rfl, fun _ => rfl, rfl⟩

/-- Service and sending leave descriptors alone. -/
theorem Change.calm {a : Act} (h : Change t sh a sh')
    (ha : a.role = .sending ∨ ∃ s, a.role = .serving s) : Calm sh sh' := by
  cases h
  case same => exact .refl sh
  case write => exact (Calm.refl sh).note rfl
  case storeLogin s u =>
    have hset : Calm sh (sh.setEntry s ((sh.clients s).login u)) := calm_setClient sh s rfl
    exact hset.note rfl
  case clear s => exact calm_setClient sh s rfl
  case setStatus s m status => exact calm_setClient sh s rfl
  case saveHistory => exact ⟨rfl, rfl, fun _ => rfl, rfl⟩
  all_goals rcases ha with ha | ⟨s, ha⟩ <;> cases ha

theorem Calm.mem (h : Calm sh sh') {e : Event} (he : e.isSession = true) :
    e ∈ sh'.log ↔ e ∈ sh.log := by
  have h1 : e ∈ sh'.log.filter Event.isSession ↔ e ∈ sh.log.filter Event.isSession := by rw [h.log]
  simpa [List.mem_filter, he] using h1

theorem closedConns_filter (log : List Event) :
    closedConns (log.filter Event.isSession) = closedConns log := by
  rw [closedConns, List.filterMap_filter, closedConns]
  congr 1
  ext1 e
  cases e <;> rfl

/-- A calm change, with the same pending connection and the same sessions not over. -/
theorem Owns.calm (h : Owns sh g k) (hc : Calm sh sh') (hp : g'.pending = g.pending)
    (hf : ∀ s fd c, g' = .filled s fd c → g = g') (hk : ∀ x, k' x = .gone ↔ k x = .gone) :
    Owns sh' g' k' := by
  have hst : ∀ s c, Event.started s c ∈ sh'.log ↔ Event.started s c ∈ sh.log :=
    fun _ _ => hc.mem rfl
  have hcl : ∀ t fd c, Event.closed t fd c ∈ sh'.log ↔ Event.closed t fd c ∈ sh.log :=
    fun _ _ _ => hc.mem rfl
  have hne : ∀ x, k' x ≠ .gone ↔ k x ≠ .gone := fun x => not_congr (hk x)
  constructor
  · intro fd c hfd
    rw [hc.accepted]
    exact h.lt fd c (hc.conn ▸ hfd)
  · intro fd fd' c h1 h2
    exact h.inj fd fd' c (hc.conn ▸ h1) (hc.conn ▸ h2)
  · intro s c hs
    rw [hc.conn, hc.sockfd]
    exact h.own s c ((hne _).mp hs)
  · intro s s' c h1 h2
    exact h.slot s s' c ((hne _).mp h1) ((hne _).mp h2)
  · intro fd c hg
    rw [hc.conn]
    exact h.pending fd c (hp ▸ hg)
  · intro s fd c hg
    rw [hc.sockfd]
    obtain ⟨h1, h2⟩ := h.filled s fd c ((hf s fd c hg).trans hg)
    exact ⟨h1, fun c' => (hk _).mpr (h2 c')⟩
  · intro s c hs
    exact (hst s c).mpr (h.started s c ((hne _).mp hs))
  · intro fd c s hg hm
    exact h.unstarted fd c s (hp ▸ hg) ((hst s c).mp hm)
  · intro s c hm
    rw [hc.accepted]
    exact h.startedLt s c ((hst s c).mp hm)
  · intro t fd c hm
    rw [hc.accepted, hc.conn]
    simp only [hst]
    exact h.closed t fd c ((hcl t fd c).mp hm)
  · rw [← closedConns_filter, hc.log, closedConns_filter]
    exact h.once
  · intro s c hm hs
    obtain ⟨fd, hfd⟩ := h.ended s c ((hst s c).mp hm) ((hk _).mp hs)
    exact ⟨fd, (hcl _ fd c).mpr hfd⟩

/-! ## Moves of the accept loop -/

theorem Owns.accept {fd : Nat} (h : Owns sh .idle k) (hfree : sh.conn fd = none) :
    Owns (sh.accept fd) (.taken fd sh.accepted) k := by
  have hconn : ∀ fd' c, (sh.accept fd).conn fd' = some c →
      fd' = fd ∧ c = sh.accepted ∨ fd' ≠ fd ∧ sh.conn fd' = some c := by
    intro fd' c hc
    by_cases hfd : fd' = fd
    · subst hfd
      simp only [Shared.accept, Function.update_self, Option.some.injEq] at hc
      exact Or.inl ⟨rfl, hc.symm⟩
    · simp only [Shared.accept, Function.update_of_ne hfd] at hc
      exact Or.inr ⟨hfd, hc⟩
  constructor
  · intro fd' c hc
    rcases hconn fd' c hc with ⟨-, rfl⟩ | ⟨-, hc⟩
    · exact Nat.lt_succ_self _
    · exact Nat.lt_succ_of_lt (h.lt fd' c hc)
  · intro fd₁ fd₂ c h1 h2
    rcases hconn fd₁ c h1 with ⟨he, hc⟩ | ⟨-, hc⟩ <;>
      rcases hconn fd₂ c h2 with ⟨he', hc'⟩ | ⟨-, hc'⟩
    · exact he.trans he'.symm
    · exact absurd (h.lt _ _ hc') (by rw [hc]; exact Nat.lt_irrefl _)
    · exact absurd (h.lt _ _ hc) (by rw [hc']; exact Nat.lt_irrefl _)
    · exact h.inj fd₁ fd₂ c hc hc'
  · intro s c hs
    have hc := h.own s c hs
    have hne : (sh.clients s).sockfd ≠ fd := by
      intro he
      rw [he, hfree] at hc
      cases hc
    simpa only [Shared.accept, Function.update_of_ne hne] using hc
  · exact h.slot
  · intro fd' c hg
    obtain ⟨rfl, rfl⟩ := Prod.mk.inj (Option.some.inj hg)
    simp only [Shared.accept, Function.update_self]
  · intro s fd' c hg
    cases hg
  · exact h.started
  · intro fd' c s hg hm
    obtain ⟨-, rfl⟩ := Prod.mk.inj (Option.some.inj hg)
    exact absurd (h.startedLt s _ hm) (Nat.lt_irrefl _)
  · intro s c hm
    exact Nat.lt_succ_of_lt (h.startedLt s c hm)
  · intro t fd' c hm
    obtain ⟨hlt, hclosed, howner⟩ := h.closed t fd' c hm
    refine ⟨Nat.lt_succ_of_lt hlt, fun fd'' hc => ?_, howner⟩
    rcases hconn fd'' c hc with ⟨-, rfl⟩ | ⟨-, hc⟩
    · exact Nat.lt_irrefl _ hlt
    · exact hclosed fd'' hc
  · exact h.once
  · exact h.ended

/-- A slot without a running session is filled. -/
theorem Owns.fill {s : Slot} {fd c : Nat} (h : Owns sh (.taken fd c) k)
    (hgone : ∀ c', k (s, c') = .gone) : Owns (sh.fill s fd) (.filled s fd c) k := by
  have hself : ((sh.fill s fd).clients s).sockfd = fd := by
    simp only [Shared.fill, Shared.setClient, Function.update_self]
  refine ⟨h.lt, h.inj, fun s' c' hs => ?_, h.slot, h.pending, fun s' fd' c' hg => ?_, h.started,
    h.unstarted, h.startedLt, h.closed, h.once, h.ended⟩
  · have hne : s' ≠ s := by
      rintro rfl
      exact hs (hgone c')
    have hsame : (sh.fill s fd).clients s' = sh.clients s' := Function.update_of_ne hne ..
    rw [hsame]
    exact h.own s' c' hs
  · cases hg
    exact ⟨hself, hgone⟩

/-- The thread of a filled slot starts. -/
theorem Owns.start {s : Slot} {fd c : Nat} (h : Owns sh (.filled s fd c) k)
    (hfresh : ∀ s', k (s', c) = .gone) (hlt : c < sh.accepted) :
    Owns (sh.note (.started s c)) .idle (Function.update k (s, c) .serving) := by
  obtain ⟨hsock, hgone⟩ := h.filled s fd c rfl
  have hopen := h.pending fd c rfl
  have hk : ∀ s' c', Function.update k (s, c) .serving (s', c') ≠ .gone →
      s' = s ∧ c' = c ∨ k (s', c') ≠ .gone := by
    intro s' c' hs
    by_cases hsc : (s', c') = (s, c)
    · obtain ⟨rfl, rfl⟩ := Prod.mk.inj hsc
      exact Or.inl ⟨rfl, rfl⟩
    · rw [Function.update_of_ne hsc] at hs
      exact Or.inr hs
  have hmem : ∀ e, e ∈ (sh.note (.started s c)).log ↔ e ∈ sh.log ∨ e = .started s c := by
    intro e
    simp [Shared.note]
  have hst : ∀ s' c', Event.started s' c' ∈ (sh.note (.started s c)).log →
      Event.started s' c' ∈ sh.log ∨ s' = s ∧ c' = c := by
    intro s' c' hm
    rcases (hmem _).mp hm with hm | hm
    · exact Or.inl hm
    · cases hm
      exact Or.inr ⟨rfl, rfl⟩
  constructor
  · exact h.lt
  · exact h.inj
  · intro s' c' hs
    rcases hk s' c' hs with ⟨rfl, rfl⟩ | hs
    · change sh.conn (sh.clients s').sockfd = some c'
      rw [hsock]
      exact hopen
    · exact h.own s' c' hs
  · intro s₁ s₂ c' h1 h2
    rcases hk s₁ c' h1 with ⟨he, hc⟩ | hs <;> rcases hk s₂ c' h2 with ⟨he', hc'⟩ | hs'
    · exact he.trans he'.symm
    · exact absurd (hfresh s₂) (hc ▸ hs')
    · exact absurd (hfresh s₁) (hc' ▸ hs)
    · exact h.slot s₁ s₂ c' hs hs'
  · intro fd' c' hg
    cases hg
  · intro s' fd' c' hg
    cases hg
  · intro s' c' hs
    rcases hk s' c' hs with ⟨rfl, rfl⟩ | hs
    · exact (hmem _).mpr (Or.inr rfl)
    · exact (hmem _).mpr (Or.inl (h.started s' c' hs))
  · intro fd' c' s' hg
    cases hg
  · intro s' c' hm
    rcases hst s' c' hm with hm | ⟨rfl, rfl⟩
    · exact h.startedLt s' c' hm
    · exact hlt
  · intro t fd' c' hm
    rcases (hmem _).mp hm with hm | hm
    · obtain ⟨hc, hclosed, howner⟩ := h.closed t fd' c' hm
      refine ⟨hc, hclosed, ?_⟩
      rcases howner with ⟨s', ht, hs⟩ | ⟨ht, hno⟩
      · exact Or.inl ⟨s', ht, (hmem _).mpr (Or.inl hs)⟩
      · refine Or.inr ⟨ht, fun s' hs => ?_⟩
        rcases hst s' c' hs with hs | ⟨-, rfl⟩
        · exact hno s' hs
        · exact hclosed fd hopen
    · cases hm
  · have : closedConns (sh.note (.started s c)).log = closedConns sh.log := by
      simp [closedConns, Shared.note, Event.closedConn]
    rw [this]
    exact h.once
  · intro s' c' hm hs
    have hne : (s', c') ≠ (s, c) := by
      intro he
      rw [he, Function.update_self] at hs
      cases hs
    rw [Function.update_of_ne hne] at hs
    rcases hst s' c' hm with hm | ⟨rfl, rfl⟩
    · obtain ⟨fd', hfd⟩ := h.ended s' c' hm hs
      exact ⟨fd', (hmem _).mpr (Or.inl hfd)⟩
    · exact absurd rfl hne

/-! ## Closing -/

theorem close_of_open {fd c : Nat} (hopen : sh.conn fd = some c) : sh.close t fd =
    { sh with conn := Function.update sh.conn fd none }.note (.closed t fd c) := by
  simp only [Shared.close, hopen]

/-- Closing a descriptor ends its connection, which no other descriptor stands for. -/
theorem Owns.conn_close {fd c fd' c' : Nat} (h : Owns sh g k) (hopen : sh.conn fd = some c) :
    (sh.close t fd).conn fd' = some c' ↔ sh.conn fd' = some c' ∧ c' ≠ c := by
  rw [close_of_open hopen]
  by_cases hfd : fd' = fd
  · subst hfd
    simp only [Shared.note, Function.update_self, reduceCtorEq, false_iff, not_and,
      Decidable.not_not]
    intro hc
    rw [hopen] at hc
    exact (Option.some.inj hc).symm
  · simp only [Shared.note, Function.update_of_ne hfd, iff_self_and]
    rintro hc rfl
    exact hfd (h.inj fd' fd _ hc hopen)

theorem mem_log_close {fd c : Nat} (hopen : sh.conn fd = some c) (e : Event) :
    e ∈ (sh.close t fd).log ↔ e ∈ sh.log ∨ e = .closed t fd c := by
  rw [close_of_open hopen]
  simp [Shared.note]

theorem started_mem_log_close {fd c : Nat} (hopen : sh.conn fd = some c) (s' : Slot) (c' : Nat) :
    Event.started s' c' ∈ (sh.close t fd).log ↔ Event.started s' c' ∈ sh.log := by
  rw [mem_log_close hopen]
  simp

/-- The holder of the open descriptor `fd` of the connection `c` closes it: afterwards nobody
else needs that descriptor. -/
theorem Owns.close {fd c : Nat} (h : Owns sh g k) (hopen : sh.conn fd = some c)
    (howner : (∃ s, t = .client s c ∧ .started s c ∈ sh.log) ∨
      t = .main ∧ ∀ s, .started s c ∉ sh.log)
    (hpending : ∀ fd' c', g'.pending = some (fd', c') → g.pending = some (fd', c') ∧ c' ≠ c)
    (hfilled : ∀ s fd' c', g' = .filled s fd' c' → g = g')
    (hk : ∀ s' c', k' (s', c') ≠ .gone → k (s', c') ≠ .gone ∧ c' ≠ c)
    (hgone : ∀ s' c', k (s', c') ≠ .gone → k' (s', c') = .gone → t = .client s' c') :
    Owns (sh.close t fd) g' k' := by
  have hsh := close_of_open (t := t) hopen
  have hconn : ∀ fd' c', (sh.close t fd).conn fd' = some c' ↔ sh.conn fd' = some c' ∧ c' ≠ c :=
    fun _ _ => h.conn_close hopen
  have hmem : ∀ e, e ∈ (sh.close t fd).log ↔ e ∈ sh.log ∨ e = .closed t fd c :=
    mem_log_close hopen
  have hst : ∀ s' c', Event.started s' c' ∈ (sh.close t fd).log ↔ Event.started s' c' ∈ sh.log :=
    started_mem_log_close hopen
  have hclients : (sh.close t fd).clients = sh.clients := by
    rw [hsh]
    rfl
  have hacc : (sh.close t fd).accepted = sh.accepted := accepted_close ..
  constructor
  · intro fd' c' hc
    rw [hacc]
    exact h.lt fd' c' ((hconn _ _).mp hc).1
  · intro fd₁ fd₂ c' h1 h2
    exact h.inj fd₁ fd₂ c' ((hconn _ _).mp h1).1 ((hconn _ _).mp h2).1
  · intro s' c' hs
    rw [hclients]
    obtain ⟨hs, hne⟩ := hk s' c' hs
    exact (hconn _ _).mpr ⟨h.own s' c' hs, hne⟩
  · intro s₁ s₂ c' h1 h2
    exact h.slot s₁ s₂ c' (hk _ _ h1).1 (hk _ _ h2).1
  · intro fd' c' hg
    obtain ⟨hg, hne⟩ := hpending fd' c' hg
    exact (hconn _ _).mpr ⟨h.pending fd' c' hg, hne⟩
  · intro s' fd' c' hg
    rw [hclients]
    obtain ⟨h1, h2⟩ := h.filled s' fd' c' ((hfilled _ _ _ hg).trans hg)
    refine ⟨h1, fun c'' => ?_⟩
    by_contra hs
    exact (hk s' c'' hs).1 (h2 c'')
  · intro s' c' hs
    exact (hst _ _).mpr (h.started s' c' (hk s' c' hs).1)
  · intro fd' c' s' hg hm
    exact h.unstarted fd' c' s' (hpending fd' c' hg).1 ((hst _ _).mp hm)
  · intro s' c' hm
    rw [hacc]
    exact h.startedLt s' c' ((hst _ _).mp hm)
  · intro t' fd' c' hm
    rw [hacc]
    simp only [hst]
    rcases (hmem _).mp hm with hm | hm
    · obtain ⟨hlt, hclosed, how⟩ := h.closed t' fd' c' hm
      exact ⟨hlt, fun fd'' hc => hclosed fd'' ((hconn _ _).mp hc).1, how⟩
    · cases hm
      exact ⟨h.lt fd c hopen, fun fd'' hc => ((hconn _ _).mp hc).2 rfl, howner⟩
  · have hlog : closedConns (sh.close t fd).log = closedConns sh.log ++ [c] := by
      rw [hsh]
      simp [closedConns, Shared.note, Event.closedConn]
    rw [hlog, List.nodup_append]
    refine ⟨h.once, by simp, ?_⟩
    intro x hx y hy hxy
    obtain rfl := List.mem_singleton.mp hy
    subst hxy
    obtain ⟨e, he, hce⟩ := List.mem_filterMap.mp hx
    cases e <;> cases hce
    exact (h.closed _ _ _ he).2.1 fd hopen
  · intro s' c' hm hs
    by_cases hold : k (s', c') = .gone
    · obtain ⟨fd', hfd⟩ := h.ended s' c' ((hst _ _).mp hm) hold
      exact ⟨fd', (hmem _).mpr (Or.inl hfd)⟩
    · obtain rfl := hgone s' c' hold hs
      rcases howner with ⟨s'', ht, -⟩ | ⟨ht, -⟩
      · cases ht
        exact ⟨fd, (hmem _).mpr (Or.inr rfl)⟩
      · cases ht

/-- Every move keeps the ownership of descriptors, if slots are only filled once their earlier
sessions are over. -/
theorem Owns.move {l : Tid × Input} (h : Owns st.shared g k) (hat : At st g k)
    (hfill : FillsFinished st l) (hm : Move st l g k sh g' k') : Owns sh g' k' := by
  cases hm with
  | stay => exact h
  | work _ hc ha =>
    apply h.calm (hc.calm ?_) rfl (fun _ _ _ _ => rfl) fun _ => Iff.rfl
    rcases ha with ha | ⟨s, c, -, ha, -⟩
    · exact Or.inl ha
    · exact Or.inr ⟨s, ha⟩
  | accept _ _ _ hfree => exact h.accept hfree
  | refuse fd c => exact h.calm (.refl _) rfl (fun _ _ _ hg => by cases hg) fun _ => Iff.rfl
  | @fill s fd c _ hl htodo hfree =>
    apply h.fill
    intro c'
    exact (hat.todo_eq_nil_iff s c').mp (hfill fd c _ s hl htodo hfree c')
  | start s fd c =>
    obtain ⟨hlt, hfresh⟩ := hat.fresh fd c rfl
    exact h.start hfresh hlt
  | giveUp s fd c => exact h.calm (.refl _) rfl (fun _ _ _ hg => by cases hg) fun _ => Iff.rfl
  | abandon s fd c =>
    have hc : Calm st.shared (st.shared.abandon s) := calm_setClient _ s rfl
    exact h.calm hc rfl (fun _ _ _ hg => by cases hg) fun _ => Iff.rfl
  | closeFd fd c =>
    obtain ⟨-, hfresh⟩ := hat.fresh fd c rfl
    refine h.close (h.pending fd c rfl) (Or.inr ⟨rfl, fun s => h.unstarted fd c s rfl⟩)
      (fun _ _ hg => by cases hg) (fun _ _ _ hg => by cases hg) (fun s' c' hs => ⟨hs, ?_⟩)
      fun _ _ hs hs' => absurd hs' hs
    rintro rfl
    exact hs (hfresh s')
  | @leave s c _ _ hk =>
    have hc : Calm st.shared (st.shared.release s) := calm_setClient _ s rfl
    refine h.calm hc rfl (fun _ _ _ _ => rfl) fun x => ?_
    by_cases hx : x = (s, c)
    · subst hx
      simp [hk]
    · rw [Function.update_of_ne hx]
  | @close s c _ _ htodo hk =>
    have hrun : k (s, c) ≠ .gone := by simp [hk]
    refine h.close (h.own s c hrun) (Or.inl ⟨s, rfl, h.started s c hrun⟩) (fun fd' c' hg => ?_)
      (fun _ _ _ _ => rfl) (fun s' c' hs => ?_) fun s' c' hs hs' => ?_
    · refine ⟨hg, ?_⟩
      rintro rfl
      exact hrun ((hat.fresh fd' _ hg).2 s)
    · have hne : (s', c') ≠ (s, c) := by
        intro he
        rw [he, Function.update_self] at hs
        exact hs rfl
      rw [Function.update_of_ne hne] at hs
      refine ⟨hs, ?_⟩
      rintro rfl
      exact hne (by rw [h.slot s' s _ hs hrun])
    · by_cases hsc : (s', c') = (s, c)
      · obtain ⟨rfl, rfl⟩ := Prod.mk.inj hsc
        rfl
      · rw [Function.update_of_ne hsc] at hs'
        exact absurd hs' hs

theorem owns_init (history : History) : Owns (Shared.init history) .idle fun _ => .gone := by
  constructor
  case once => simp [closedConns, Shared.init]
  all_goals simp [Shared.init, Stage.pending]

/-- What is left to do tells whether the accept loop has a thread to create. -/
theorem At.filled_of_mem (h : At st g k) {s : Slot} {fd c : Nat}
    (hm : .act (.create s fd c) ∈ st.todo .main) : g = .filled s fd c := by
  obtain ⟨p, hp, he⟩ := h.todo .main
  rw [he] at hm
  rcases List.mem_append.mp hm with hm | hm
  · cases hp _ hm
  · cases g <;> simp [Stage.code] at hm
    obtain ⟨rfl, rfl, rfl⟩ := hm
    rfl

theorem Owns.owned (h : Owns st.shared g k) (hat : At st g k) : Owned st := by
  refine ⟨h.once, fun t fd c hm => (h.closed t fd c hm).2.2, fun s c htodo => ?_,
    fun s c hm hs => h.ended s c hm ((hat.todo_eq_nil_iff s c).mp hs)⟩
  have hrun : k (s, c) ≠ .gone := by
    intro hk
    rw [(hat.todo_eq_nil_iff s c).mpr hk] at htodo
    cases htodo
  refine ⟨fun c' hne => ?_, fun fd c' hm => ?_⟩
  · rw [hat.todo_eq_nil_iff]
    by_contra hk
    have hc := h.own s c' hk
    rw [h.own s c hrun] at hc
    exact hne (Option.some.inj hc).symm
  · obtain rfl := hat.filled_of_mem hm
    exact hrun ((h.filled s fd c' rfl).2 c)

/-! ## Runs -/

/-- The input of a step that needs none: nothing to accept, nothing to read. -/
def noInput : Input where
  env := ⟨0, none, ⟨fun _ => [], fun _ => false⟩⟩
  fd := none
  created := true
  source := ⟨[], []⟩
  write := .took maxPayloadLen
  junk := []

/-- The steps in which the accept loop takes a connection as `fd` and creates its thread. -/
def connect (fd : Nat) : List (Tid × Input) :=
  (.main, { noInput with fd := some fd }) :: List.replicate 4 (.main, noInput)

/-- A number of steps of a client thread that reads nothing. -/
def works (s : Slot) (c n : Nat) : List (Tid × Input) := List.replicate n (.client s c, noInput)

theorem recvMessage_noInput : (recvMessage noInput.source).1 = none := by
  simp [noInput, recvMessage, Channel.readFull, Channel.Source.read, Channel.Source.take,
    headerSize]

/-- A thread that finds the end of its stream leaves its loop. -/
theorem step_recv_end {s : Slot} {c : Nat} {rest : Code}
    (h : st.todo (.client s c) = .act (.recv s) :: rest) :
    step st (.client s c, noInput) = some (st.goOn (.client s c) rest) := by
  have hexec : exec (.client s c) (.recv s) noInput st.shared = st.shared.goOn [] := by
    simp only [exec, recvMessage_noInput]
    cases st.shared.conn (st.shared.clients s).sockfd <;> rfl
  simp only [step, Tasks.step, h, hexec, Shared.goOn, Option.map_some]
  exact congrArg some (perform_eq rfl)

/-- The input of a thread that reads a message. -/
def reads (m : Message) : Input := { noInput with source := ⟨packMessage m, []⟩ }

/-- The login of a user whose password does not matter. -/
def loginAs (name : String) : Message :=
  makeMessage 0 .login [] [] (Bytes.ascii (name ++ ":p"))

theorem recvMessage_reads {m : Message} (hm : WellFormed m) :
    (recvMessage (reads m).source).1 = some m := by
  have hr := @recvMessage_packMessage m hm [] [] (by simp [Channel.Steady])
  rw [List.append_nil] at hr
  exact hr.1

/-- A thread that reads a message routes it, and goes on reading. -/
theorem step_recv {s : Slot} {c d : Nat} {m : Message} {rest : Code} (hm : WellFormed m)
    (hkind : m.kind ≠ some .logout)
    (hc : st.shared.conn (st.shared.clients s).sockfd = some d)
    (h : st.todo (.client s c) = .act (.recv s) :: rest) :
    step st (.client s c, reads m) =
      some (st.goOn (.client s c) (.act (.route s m) :: .act (.recv s) :: rest)) := by
  have hexec : exec (.client s c) (.recv s) (reads m) st.shared =
      st.shared.goOn [.act (.route s m), .act (.recv s)] := by
    simp only [exec, recvMessage_reads hm, hc, if_neg hkind]
  simp only [step, Tasks.step, h, hexec, Shared.goOn, Option.map_some]
  exact congrArg some (perform_eq rfl)

/-- Along every run in which the accept loop only fills slots whose earlier sessions are over,
sessions own their descriptors. -/
theorem descriptors_owned {history : History} {ls : List (Tid × Input)}
    (hfill : Meets step FillsFinished (init history) ls)
    (hrun : run step (init history) ls = some st) : Owned st := by
  have hinv : ∃ g k, At st g k ∧ Owns st.shared g k := by
    refine run_invariant_of_meets (I := fun st => ∃ g k, At st g k ∧ Owns st.shared g k)
      ?_ hfill ⟨_, _, at_init history, owns_init history⟩ hrun
    rintro st l st' hok ⟨g, k, hat, howns⟩ hs
    obtain ⟨g', k', hm, hat'⟩ := hat.step hs
    exact ⟨g', k', hat', howns.move hat hok hm⟩
  obtain ⟨g, k, hat, howns⟩ := hinv
  exact howns.owned hat

/-- A client thread never fills a slot. -/
theorem fillsFinished_client (s : Slot) (c : Nat) (i : Input) (st : State) :
    FillsFinished st (.client s c, i) := by
  intro fd c' rest s' hl
  cases hl

/-- One session from its connection to its end, along with what it leaves behind. -/
theorem descriptors_owned_session : ∃ st, run step (init fun _ => none)
    (connect 4 ++ works 0 0 5) = some st ∧ closedConns st.shared.log = [0] ∧ Owned st := by
  have hend : ∀ l ∈ works 0 0 5, ∀ st, FillsFinished st l := by
    intro l hl st
    rw [List.eq_of_mem_replicate hl]
    exact fillsFinished_client 0 0 noInput st
  have hconnect : Meets step FillsFinished (init fun _ => none) (connect 4) := by
    refine ⟨fun _ _ _ _ _ h => ?_, fun s₁ h₁ => ⟨fun _ _ _ _ _ h => ?_, fun s₂ h₂ =>
      ⟨fun _ _ _ _ _ _ _ c => ?_, fun s₃ h₃ => ⟨fun _ _ _ _ _ h => ?_, fun s₄ h₄ =>
        ⟨fun _ _ _ _ _ h => ?_, fun _ _ => trivial⟩⟩⟩⟩⟩
    · cases h
    · obtain rfl := Option.some.inj h₁
      cases h
    · obtain rfl := Option.some.inj h₁
      obtain rfl := Option.some.inj h₂
      rfl
    · obtain rfl := Option.some.inj h₁
      obtain rfl := Option.some.inj h₂
      obtain rfl := Option.some.inj h₃
      cases h
    · obtain rfl := Option.some.inj h₁
      obtain rfl := Option.some.inj h₂
      obtain rfl := Option.some.inj h₃
      obtain rfl := Option.some.inj h₄
      cases h
  have hrun : run step (init fun _ => none) (connect 4 ++ works 0 0 5) = some _ :=
    run_trans rfl (run_cons_iff.mpr ⟨_, step_recv_end rfl, rfl⟩)
  exact ⟨_, hrun, rfl, descriptors_owned (hconnect.append rfl (meets_of_forall hend _)) hrun⟩

/-- Without the condition, a slot refilled behind a cleanup loses its descriptor: the thread of
connection 0 closes the descriptor 5 of connection 1, which took over its slot. -/
theorem refilled_slot_closed : ∃ ls st, run step (init fun _ => none) ls = some st ∧
    .closed (.client 0 0) 5 1 ∈ st.shared.log ∧ ¬ Owned st := by
  have hmem : ∀ st : State, .closed (.client 0 0) 5 1 ∈ st.shared.log → ¬ Owned st := by
    intro st hm h
    rcases h.byOwner _ 5 1 hm with ⟨s, hs, -⟩ | ⟨hs, -⟩ <;> cases hs
  have hrun : run step (init fun _ => none)
      (connect 4 ++ (works 0 0 4 ++ (connect 5 ++ works 0 0 1))) = some _ :=
    run_trans rfl (run_cons_iff.mpr ⟨_, step_recv_end rfl, rfl⟩)
  have hlog : [Event.started 0 0, .started 0 1, .closed (.client 0 0) 5 1].getLast? =
      some (.closed (.client 0 0) 5 1) := rfl
  have hclosed := List.mem_of_getLast? hlog
  exact ⟨_, _, hrun, hclosed, hmem _ hclosed⟩

end ChatSystem.Thread
