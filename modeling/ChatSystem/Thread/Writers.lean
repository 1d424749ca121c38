import ChatSystem.Core.Locking
import ChatSystem.Thread.Privacy

/-!
# Who writes to a descriptor

A thread sends under the `send_lock` of a slot, to the descriptor it has read from the slot;
the accept loop writes to a connection it refuses without a lock. The locks keep the frames of
two threads apart as long as a descriptor belongs to one slot: no number is handed out that
a thread may still send to.
-/

namespace ChatSystem.Thread

open Tasks Transition

variable {st st' : State} {sh sh' : Shared} {g g' : Stage} {k k' : Phases} {t u : Tid} {a b : Act}
  {i : Input} {out : Outcome Lock Tid Act Shared} {l : Tid × Input}

/-! ## Slots in use -/

/-- Served, reserved and active slots are in use, and each is served by one thread. -/
structure Occupied (sh : Shared) (g : Stage) (k : Phases) : Prop where
  serving : ∀ s c, k (s, c) = .serving → (sh.clients s).inUse = true
  alone : ∀ s c c', k (s, c) = .serving → k (s, c') = .serving → c = c'
  reserved : ∀ s fd c, g = .filled s fd c ∨ g = .abandoned s fd c →
    (sh.clients s).inUse = true ∧ (sh.clients s).active = false ∧ ∀ c', k (s, c') ≠ .serving
  active : ∀ s, (sh.clients s).active = true → (sh.clients s).inUse = true

theorem Occupied.congr (h : Occupied sh g k)
    (huse : ∀ s, (sh'.clients s).inUse = (sh.clients s).inUse)
    (hact : ∀ s, (sh'.clients s).active = true →
      (sh.clients s).active = true ∨ ∃ c, k (s, c) = .serving)
    (hg : ∀ s fd c, g' = .filled s fd c ∨ g' = .abandoned s fd c →
      ∃ fd' c', g = .filled s fd' c' ∨ g = .abandoned s fd' c') : Occupied sh' g' k := by
  refine ⟨fun s c hs => ?_, h.alone, fun s fd c hs => ?_, fun s hs => ?_⟩
  · rw [huse]
    exact h.serving s c hs
  · obtain ⟨fd', c', hs'⟩ := hg s fd c hs
    obtain ⟨h1, h2, h3⟩ := h.reserved s fd' c' hs'
    rw [huse]
    refine ⟨h1, ?_, h3⟩
    rw [← Bool.not_eq_true]
    intro ha
    rcases hact s ha with ha | ⟨c', hc'⟩
    · rw [h2] at ha
      cases ha
    · exact h3 c' hc'
  · rw [huse]
    rcases hact s hs with ha | ⟨c, hc⟩
    · exact h.active s ha
    · exact h.serving s c hc

/-- The entry of a slot is overwritten; it may get active in a served slot. -/
theorem Occupied.setEntry (h : Occupied sh g k) {s : Slot} {e : Entry}
    (hclients : sh'.clients = (sh.setEntry s e).clients)
    (he : e.active = true → (sh.clients s).active = true ∨ ∃ c, k (s, c) = .serving) :
    Occupied sh' g k := by
  refine h.congr (fun j => ?_) (fun j hj => ?_) fun j fd c hj => ⟨fd, c, hj⟩
  · rw [hclients, inUse_setEntry]
  · by_cases hjs : j = s
    · subst hjs
      rw [hclients, toEntry_setEntry_self] at hj
      exact he hj
    · rw [hclients, Shared.setEntry, clients_setClient_of_ne sh hjs] at hj
      exact Or.inl hj

theorem Occupied.work (h : Occupied sh g k) (hc : Change t sh a sh')
    (ha : a.role = .sending ∨
      ∃ s c, t = .client s c ∧ a.role = .serving s ∧ k (s, c) = .serving) :
    Occupied sh' g k := by
  cases hc with
  | same => exact h
  | write => exact ⟨h.serving, h.alone, h.reserved, h.active⟩
  | storeLogin s u =>
    refine h.setEntry rfl fun _ => Or.inr ?_
    rcases ha with ha | ⟨s', c, -, ha, hk⟩
    · cases ha
    · cases ha
      exact ⟨c, hk⟩
  | clear s => exact h.setEntry rfl fun he => (by cases he)
  | setStatus s m status => exact h.setEntry rfl Or.inl
  | saveHistory => exact ⟨h.serving, h.alone, h.reserved, h.active⟩
  | _ => rcases ha with ha | ⟨s', c, -, ha, -⟩ <;> cases ha

/-- A slot is freed that is neither served nor reserved any more. -/
theorem Occupied.free (h : Occupied sh g k) {s : Slot} {cl : Client}
    (hg : ∀ j fd c, g' = .filled j fd c ∨ g' = .abandoned j fd c → g = g' ∧ j ≠ s)
    (hk : ∀ j c, k' (j, c) = .serving → k (j, c) = .serving ∧ j ≠ s) (hcl : cl.active = false) :
    Occupied (sh.setClient s cl) g' k' := by
  have hother : ∀ j, j ≠ s → (sh.setClient s cl).clients j = sh.clients j :=
    fun j hj => clients_setClient_of_ne sh hj cl
  refine ⟨fun j c hj => ?_, fun j c c' hc hc' => ?_, fun j fd c hj => ?_, fun j hj => ?_⟩
  · obtain ⟨hj, hne⟩ := hk j c hj
    rw [hother j hne]
    exact h.serving j c hj
  · exact h.alone j c c' (hk j c hc).1 (hk j c' hc').1
  · obtain ⟨rfl, hne⟩ := hg j fd c hj
    rw [hother j hne]
    obtain ⟨h1, h2, h3⟩ := h.reserved j fd c hj
    exact ⟨h1, h2, fun c' hc' => h3 c' (hk j c' hc').1⟩
  · by_cases hjs : j = s
    · rw [hjs, clients_setClient_self, hcl] at hj
      cases hj
    · rw [hother j hjs] at hj ⊢
      exact h.active j hj

theorem Occupied.fill {s : Slot} {fd c : Nat} (h : Occupied sh (.taken fd c) k)
    (hfree : (sh.clients s).inUse = false) : Occupied (sh.fill s fd) (.filled s fd c) k := by
  have hother : ∀ j, j ≠ s → (sh.fill s fd).clients j = sh.clients j :=
    fun j hj => clients_setClient_of_ne sh hj _
  have hself : (sh.fill s fd).clients s =
      { (sh.clients s).clear.setStatus statusAvailable with sockfd := fd, inUse := true } :=
    clients_setClient_self ..
  have hused : ∀ j, (sh.clients j).inUse = true → j ≠ s := by
    rintro j hj rfl
    rw [hfree] at hj
    cases hj
  refine ⟨fun j c' hj => ?_, h.alone, fun j fd' c' hg => ?_, fun j hj => ?_⟩
  · rw [hother j (hused j (h.serving j c' hj))]
    exact h.serving j c' hj
  · rcases hg with hg | hg
    · cases hg
      rw [hself]
      exact ⟨rfl, rfl, fun c' hc' => hused s (h.serving s c' hc') rfl⟩
    · cases hg
  · by_cases hjs : j = s
    · rw [hjs, hself] at hj
      cases hj
    · rw [hother j hjs] at hj ⊢
      exact h.active j hj

theorem Occupied.start {s : Slot} {fd c : Nat} (h : Occupied sh (.filled s fd c) k) :
    Occupied (sh.note (.started s c)) .idle (Function.update k (s, c) .serving) := by
  obtain ⟨huse, -, hnot⟩ := h.reserved s fd c (Or.inl rfl)
  have hk : ∀ j c', Function.update k (s, c) .serving (j, c') = .serving →
      j = s ∧ c' = c ∨ k (j, c') = .serving ∧ j ≠ s := by
    intro j c' hj
    by_cases hjc : (j, c') = (s, c)
    · obtain ⟨rfl, rfl⟩ := Prod.mk.inj hjc
      exact Or.inl ⟨rfl, rfl⟩
    · rw [Function.update_of_ne hjc] at hj
      refine Or.inr ⟨hj, ?_⟩
      rintro rfl
      exact hnot c' hj
  refine ⟨fun j c' hj => ?_, fun j c₁ c₂ h1 h2 => ?_, fun j fd' c' hg => ?_, h.active⟩
  · rcases hk j c' hj with ⟨rfl, rfl⟩ | ⟨hj, -⟩
    · exact huse
    · exact h.serving j c' hj
  · rcases hk j c₁ h1 with ⟨hj, rfl⟩ | ⟨hs, hj⟩ <;> rcases hk j c₂ h2 with ⟨hj', rfl⟩ | ⟨hs', hj'⟩
    · rfl
    · exact absurd hj hj'
    · exact absurd hj' hj
    · exact h.alone j c₁ c₂ hs hs'
  · rcases hg with hg | hg <;> cases hg

/-- Every move keeps the slots in use. -/
theorem Occupied.move (h : Occupied st.shared g k) (hm : Move st l g k sh g' k') :
    Occupied sh g' k' := by
  have hsame : ∀ {sh' : Shared} {g' : Stage}, sh'.clients = st.shared.clients →
      (∀ s fd c, g' = .filled s fd c ∨ g' = .abandoned s fd c →
        ∃ fd' c', g = .filled s fd' c' ∨ g = .abandoned s fd' c') → Occupied sh' g' k := by
    intro sh' g' hcl hg
    exact h.congr (fun s => by rw [hcl]) (fun s hs => Or.inl (hcl ▸ hs)) hg
  cases hm with
  | stay => exact h
  | work htodo hc ha => exact h.work hc ha
  | accept => exact hsame rfl fun s fd c hg => (by rcases hg with hg | hg <;> cases hg)
  | refuse => exact hsame rfl fun s fd c hg => (by rcases hg with hg | hg <;> cases hg)
  | fill hl htodo hfree => exact h.fill (by simpa using firstSlot_eq_some hfree)
  | start s fd c => exact h.start
  | giveUp s fd c =>
    refine hsame rfl fun j fd' c' hg => ?_
    rcases hg with hg | hg
    · cases hg
    · cases hg
      exact ⟨fd, c, Or.inl rfl⟩
  | abandon s fd c =>
    obtain ⟨-, hinactive, hnot⟩ := h.reserved s fd c (Or.inr rfl)
    refine h.free (fun j fd' c' hg => ?_) (fun j c' hj => ⟨hj, ?_⟩) hinactive
    · rcases hg with hg | hg <;> cases hg
    · rintro rfl
      exact hnot c' hj
  | closeFd fd c =>
    exact hsame (clients_close ..) fun s fd c hg => (by rcases hg with hg | hg <;> cases hg)
  | @leave s c _ _ hk =>
    refine h.free (fun j fd' c' hg => ⟨rfl, ?_⟩) (fun j c' hj => ?_) rfl
    · rintro rfl
      exact (h.reserved j fd' c' hg).2.2 c hk
    · have hjc : (j, c') ≠ (s, c) := by
        intro he
        rw [he, Function.update_self] at hj
        cases hj
      rw [Function.update_of_ne hjc] at hj
      refine ⟨hj, ?_⟩
      rintro rfl
      exact hjc (by rw [h.alone j c' c hj hk])
  | @close s c _ _ htodo hk =>
    have hocc : Occupied (st.shared.close (.client s c) (st.shared.clients s).sockfd) g k :=
      hsame (clients_close ..) fun j fd' c' hg => ⟨fd', c', hg⟩
    have hserving : ∀ j c', Function.update k (s, c) .gone (j, c') = .serving →
        k (j, c') = .serving := by
      intro j c' hj
      by_cases hjc : (j, c') = (s, c)
      · rw [hjc, Function.update_self] at hj
        cases hj
      · rwa [Function.update_of_ne hjc] at hj
    refine ⟨fun j c' hj => hocc.serving j c' (hserving j c' hj),
      fun j c₁ c₂ h1 h2 => hocc.alone j c₁ c₂ (hserving j c₁ h1) (hserving j c₂ h2),
      fun j fd' c' hg => ?_, hocc.active⟩
    obtain ⟨h1, h2, h3⟩ := hocc.reserved j fd' c' hg
    exact ⟨h1, h2, fun d hd => h3 d (hserving j d hd)⟩

theorem occupied_init (history : History) :
    Occupied (Shared.init history) .idle fun _ => .gone := by
  refine ⟨fun s c hs => (by cases hs), fun s c c' hs => (by cases hs), fun s fd c hg => ?_,
    fun s hs => (by cases hs)⟩
  rcases hg with hg | hg <;> cases hg

/-! ## What is sent -/

/-- The slot an act is about to send to. -/
def Act.target : Act → Option Slot
  | .sendMessage s _ | .reply s _ => some s
  | _ => none

/-- An act is the write loop of `send_message`. -/
def Act.isWrite : Act → Bool
  | .write _ _ _ => true
  | _ => false

theorem target_slotSend {s : Slot} {m : Message} (hb : .act b ∈ slotSend s m) :
    b = .sendMessage s m := by
  simpa [slotSend] using hb

/-- The replies of a route go to its own slot. -/
theorem route_target (sh : Shared) (s : Slot) (m : Message) :
    ∀ b, .act b ∈ sh.route s m → b.isWrite = false ∧ (∀ fd, b ≠ .refuse fd) ∧
      ∀ j, b.target = some j → j = s := by
  intro b hb
  unfold Shared.route at hb
  split at hb
  · unfold Shared.login at hb
    split at hb <;> simp at hb <;> subst hb <;> simp [Act.target, Act.isWrite]
  · simp [Shared.logout] at hb
    rcases hb with rfl | rfl <;> simp [Act.target, Act.isWrite]
  · unfold Shared.broadcast at hb
    split at hb
    · simp at hb
      subst hb
      simp [Act.target, Act.isWrite]
    · simp at hb
      rcases hb with rfl | rfl | rfl <;> simp [Act.target, Act.isWrite]
  · unfold Shared.priv at hb
    split at hb <;> simp at hb <;> subst hb <;> simp [Act.target, Act.isWrite]
  all_goals simp at hb
  · subst hb
    simp [Act.target, Act.isWrite]
  · subst hb
    simp [Act.target, Act.isWrite]
  · rcases hb with rfl | rfl <;> simp [Act.target, Act.isWrite]
  · subst hb
    simp [Act.target, Act.isWrite]

/-- A slot gets a target of an active check, or of its own thread. -/
theorem target_next (h : exec t a i sh = some out) (hb : .act b ∈ out.next) {j : Slot}
    (hj : b.target = some j) :
    a.target = some j ∨ (sh.clients j).active = true ∨ a.role = .serving j := by
  cases a <;> simp only [exec] at h
  case route s m =>
    obtain rfl := goOn_inj h
    obtain rfl := (route_target sh s m b hb).2.2 j hj
    exact Or.inr (Or.inr rfl)
  case sendActive skip m slots =>
    split at h
    · obtain rfl := goOn_inj h
      cases hb
    · split at h
      · next hact =>
        obtain rfl := goOn_inj h
        simp [slotSend] at hb
        rcases hb with rfl | rfl
        · cases hj
          exact Or.inr (Or.inl hact.2)
        · cases hj
      · obtain rfl := goOn_inj h
        simp at hb
        subst hb
        cases hj
  case findTarget s m =>
    split at h
    · obtain rfl := goOn_inj h
      simp at hb
      subst hb
      cases hj
      exact Or.inr (Or.inr rfl)
    · next s' hfind =>
      obtain rfl := goOn_inj h
      simp [slotSend] at hb
      rcases hb with rfl | rfl | rfl
      · cases hj
      · cases hj
        have hholds : (sh.table j).holds m.receiver.toList = true := findName_eq_some hfind
        simp only [Entry.holds, Bool.and_eq_true] at hholds
        exact Or.inr (Or.inl hholds.1)
      · cases hj
        exact Or.inr (Or.inr rfl)
  case reply s make =>
    obtain rfl := goOn_inj h
    obtain rfl := target_slotSend hb
    exact Or.inl hj
  all_goals
    repeat' split at h
    all_goals cases h
    all_goals simp at hb
    all_goals
      first
        | (subst hb; cases hj; done)
        | (subst hb; cases hj; exact Or.inr (Or.inr rfl))
        | (rcases hb with rfl | rfl <;> cases hj)

/-- Only `send_message` writes, with nothing behind it but what called it. -/
theorem write_next (h : exec t a i sh = some out) (hb : .act b ∈ out.next)
    (hw : b.isWrite = true) : out.next = [.act b] ∧
      ((∃ s m, a = .sendMessage s m ∧ b = .write (sh.clients s).sockfd m (packMessage m)) ∨
        (∃ fd m, a = .refuse fd ∧ b = .write fd m (packMessage m)) ∨
        ∃ fd m rest rest', a = .write fd m rest ∧ b = .write fd m rest') := by
  cases a <;> simp only [exec] at h
  case route s m =>
    obtain rfl := goOn_inj h
    rw [(route_target sh s m b hb).1] at hw
    cases hw
  case sendMessage s m =>
    obtain rfl := goOn_inj h
    simp at hb
    subst hb
    exact ⟨rfl, Or.inl ⟨s, m, rfl, rfl⟩⟩
  case refuse fd =>
    obtain rfl := goOn_inj h
    simp at hb
    subst hb
    exact ⟨rfl, Or.inr (Or.inl ⟨fd, _, rfl, rfl⟩)⟩
  case write fd m rest =>
    split at h <;> obtain rfl := goOn_inj h <;> simp at hb <;> subst hb
    · exact ⟨rfl, Or.inr (Or.inr ⟨fd, m, _, _, rfl, rfl⟩)⟩
    · exact ⟨rfl, Or.inr (Or.inr ⟨fd, m, _, _, rfl, rfl⟩)⟩
  case reply s make =>
    obtain rfl := goOn_inj h
    obtain rfl := target_slotSend hb
    cases hw
  all_goals
    repeat' split at h
    all_goals cases h
    all_goals simp [slotSend] at hb
    all_goals
      first
        | (subst hb; cases hw)
        | (rcases hb with rfl | rfl <;> cases hw)
        | (rcases hb with rfl | rfl | rfl <;> cases hw)

/-- A write loop only stands in front. -/
def HeadOnly (p : Code) : Prop := ∀ b, .act b ∈ p.tail → b.isWrite = false

theorem HeadOnly.append {p q : Code} (hp : HeadOnly p) (hq : ∀ b, .act b ∈ q → b.isWrite = false) :
    HeadOnly (p ++ q) := by
  cases p with
  | nil => exact fun b hb => hq b (List.mem_of_mem_tail hb)
  | cons x p =>
    intro b hb
    rcases List.mem_append.mp hb with hb | hb
    · exact hp b hb
    · exact hq b hb

theorem headOnly_next (h : exec t a i sh = some out) : HeadOnly out.next := by
  intro b hb
  by_contra hw
  rw [Bool.not_eq_false] at hw
  rw [(write_next h (List.mem_of_mem_tail hb) hw).1] at hb
  cases hb

/-- No thread has a write loop behind anything else. -/
def Heads (st : State) : Prop := ∀ t, HeadOnly (st.todo t)

theorem heads_init (history : History) : Heads (init history) := by
  intro t b hb
  cases t with
  | main => cases hb
  | client s c => cases hb

theorem Heads.step (h : Heads st) (hs : step st l = some st') : Heads st' := by
  have hskip : ∀ {x : Stmt Lock Act} {rest : Code} {st₁ : State}, st.todo l.1 = x :: rest →
      st₁.todo = st.todo → Heads (st₁.goOn l.1 rest) := by
    intro x rest st₁ htodo he t b hb
    by_cases ht : t = l.1
    · subst ht
      rw [todo_goOn_self] at hb
      refine h l.1 b ?_
      rw [htodo]
      exact List.mem_of_mem_tail hb
    · rw [todo_goOn_of_ne ht, he] at hb
      exact h t b hb
  rcases Tasks.step_cases hs with ⟨x, rest, hx, -, rfl⟩ | ⟨x, rest, hx, rfl⟩ |
      ⟨a, rest, out, ha, hexec, rfl⟩
  · exact hskip hx rfl
  · exact hskip hx rfl
  · intro t
    have hrest : ∀ b, .act b ∈ rest → b.isWrite = false := by
      intro b hb
      refine h l.1 b ?_
      rw [ha]
      exact hb
    have hstarted : ∀ b, .act b ∈ started t out.spawn → b.isWrite = false := by
      intro b hb
      rcases started_cases t out.spawn with hp | hp
      · rw [hp] at hb
        cases hb
      · obtain ⟨s, fd, c, -, -, hp, -⟩ := spawn_eq_some hexec hp
        rw [hp] at hb
        simp [clientThread] at hb
        rcases hb with rfl | rfl | rfl <;> rfl
    refine HeadOnly.append ?_ hstarted
    split
    · exact (headOnly_next hexec).append hrest
    · exact h t

/-! ## Descriptors and their slots -/

/-- A slot that is in use, or that a thread is about to send to. -/
def Live (st : State) (j : Slot) : Prop :=
  (st.shared.clients j).inUse = true ∨ ∃ t a, .act a ∈ st.todo t ∧ a.target = some j

/-- A thread is in the write loop of `send_message` on a descriptor. -/
def Writing (st : State) (t : Tid) (fd : Nat) : Prop :=
  ∃ m rest, .act (.write fd m rest) ∈ st.todo t

/-- No slot leads to the descriptor, so that only the accept loop writes to it. -/
structure Spare (st : State) (fd : Nat) : Prop where
  slots : ∀ j, Live st j → (st.shared.clients j).sockfd ≠ fd
  writers : ∀ t, Writing st t fd → t = .main

/-- Only one slot leads to the descriptor, and a thread writes to it under its `send_lock`. -/
structure Belongs (st : State) (fd : Nat) (s : Slot) : Prop where
  slots : ∀ j, Live st j → (st.shared.clients j).sockfd = fd → j = s
  writers : ∀ t, Writing st t fd → st.owner (.send s) = some t

/-- `accept` returns no number that a thread may still send to. -/
def KeepsApart (st : State) (l : Tid × Input) : Prop :=
  ∀ fd, l.1 = .main → st.todo .main = [.act .accept] → l.2.fd = some fd →
    (∀ t, ¬ Writing st t fd) ∧ ∀ j, Live st j → (st.shared.clients j).sockfd ≠ fd

/-- The work of the accept loop, with the descriptor it has to itself. -/
inductive Turn : Code → Option Nat → Prop
  | idle : Turn [.act .accept] none
  | taken (fd c : Nat) : Turn [.lock .table, .act (.allot fd c), .act .accept] (some fd)
  | allot (fd c : Nat) : Turn [.act (.allot fd c), .act .accept] (some fd)
  | full (fd : Nat) :
    Turn [.unlock .table, .act (.refuse fd), .act (.closeFd fd), .act .accept] (some fd)
  | refuse (fd : Nat) : Turn [.act (.refuse fd), .act (.closeFd fd), .act .accept] (some fd)
  | write (fd : Nat) (m : Message) (rest : List UInt8) :
    Turn [.act (.write fd m rest), .act (.closeFd fd), .act .accept] (some fd)
  | close (fd : Nat) : Turn [.act (.closeFd fd), .act .accept] none
  | filled (s : Slot) (fd c : Nat) :
    Turn [.unlock .table, .act (.create s fd c), .act .accept] none
  | create (s : Slot) (fd c : Nat) : Turn [.act (.create s fd c), .act .accept] none
  | abandon (s : Slot) (fd : Nat) :
    Turn [.act (.abandon s), .act (.closeFd fd), .act .accept] none

/-- Every descriptor has one slot or none, so that two threads never write to it at once. -/
structure Apart (st : State) : Prop where
  disciplined : Disciplined effect st
  heads : Heads st
  occupied : ∃ g k, At st g k ∧ Occupied st.shared g k
  refusals : ∀ t fd, .act (.refuse fd) ∈ st.todo t → t = .main
  turn : ∃ o, Turn (st.todo .main) o ∧ ∀ fd, o = some fd → Spare st fd
  home : ∀ fd, Spare st fd ∨ ∃ s, Belongs st fd s

/-- Two threads never write to one descriptor at once. -/
theorem Apart.eq_of_writing (h : Apart st) {fd : Nat} (ht : Writing st t fd)
    (hu : Writing st u fd) : t = u := by
  rcases h.home fd with hs | ⟨s, hs⟩
  · rw [hs.writers t ht, hs.writers u hu]
  · exact Option.some.inj ((hs.writers t ht).symm.trans (hs.writers u hu))

/-! ### Locks -/

/-- A thread in front of a lock operation writes nothing. -/
theorem Heads.not_writing (h : Heads st) {x : Stmt Lock Act} {rest : Code}
    (htodo : st.todo t = x :: rest) (hx : ∀ a, x ≠ .act a) (fd : Nat) : ¬ Writing st t fd := by
  rintro ⟨m, r, hm⟩
  have hhead := h t
  rw [htodo] at hm hhead
  rcases List.mem_cons.mp hm with hm | hm
  · exact hx _ hm.symm
  · cases hhead _ hm

/-- What a thread has to do after a step: old work, what the act expands to, or the work of a new
thread, which does not send yet. -/
theorem mem_after (hs : step st l = some st') (hb : .act b ∈ st'.todo u) :
    .act b ∈ st.todo u ∨ ∃ a rest out, st.todo l.1 = .act a :: rest ∧
      exec l.1 a l.2 st.shared = some out ∧
      (u = l.1 ∧ .act b ∈ out.next ∨
        b.target = none ∧ b.isWrite = false ∧ ∀ fd, b ≠ .refuse fd) := by
  rcases Tasks.mem_todo hs hb with hb | ⟨a, rest, out, htodo, hexec, -, hb⟩
  · exact Or.inl hb
  · refine Or.inr ⟨a, rest, out, htodo, hexec, ?_⟩
    rcases hb with hb | ⟨p, hp, hb⟩
    · exact Or.inl hb
    · obtain ⟨s, fd, c, -, -, rfl, -⟩ := spawn_eq_some hexec hp
      simp [clientThread] at hb
      rcases hb with rfl | rfl | rfl <;> exact Or.inr ⟨rfl, rfl, by simp⟩

/-- A client thread that serves a slot is the one of the slot. -/
theorem At.serving_of_role (h : At st g k) {rest : Code} {s : Slot}
    (htodo : st.todo t = .act a :: rest) (ha : a.role = .serving s) :
    ∃ c, t = .client s c ∧ k (s, c) = .serving := by
  have hfits := h.todo t
  rw [htodo] at hfits
  cases t with
  | main =>
    obtain ⟨p, hp, he⟩ := hfits
    rcases List.append_eq_cons_iff.mp he.symm with ⟨-, hg⟩ | ⟨q, rfl, rfl⟩
    · cases g <;> cases (List.cons.inj hg).1 <;> cases ha
    · have hrole : a.role = .sending := hp a List.mem_cons_self
      rw [ha] at hrole
      cases hrole
  | client s' c =>
    obtain ⟨p, hp, he⟩ := hfits
    cases hk : k (s', c) with
    | gone =>
      rw [hk] at hp he
      obtain rfl : p = [] := hp
      cases he
    | leaving =>
      rw [hk] at hp he
      rcases List.append_eq_cons_iff.mp he.symm with ⟨-, hg⟩ | ⟨q, rfl, rfl⟩
      · cases (List.cons.inj hg).1
        cases ha
      · have hrole : a.role = .sending := hp a List.mem_cons_self
        rw [ha] at hrole
        cases hrole
    | serving =>
      rw [hk] at hp he
      rcases List.append_eq_cons_iff.mp he.symm with ⟨-, hg⟩ | ⟨q, rfl, rfl⟩
      · cases (List.cons.inj hg).1
        cases ha
      · have hrole : a.role = .serving s' ∨ a.role = .sending := hp a List.mem_cons_self
        rw [ha] at hrole
        rcases hrole with hrole | hrole
        · cases hrole
          exact ⟨c, rfl, hk⟩
        · cases hrole

/-- Only the accept loop gives a slot a descriptor and takes it into use. -/
theorem slots_of_change (hc : Change t sh a sh') (ha : ∀ fd c, a ≠ .allot fd c) (j : Slot) :
    (sh'.clients j).sockfd = (sh.clients j).sockfd ∧
      ((sh'.clients j).inUse = true → (sh.clients j).inUse = true) := by
  have hset : ∀ {s : Slot} {cl : Client}, cl.sockfd = (sh.clients s).sockfd →
      (cl.inUse = true → (sh.clients s).inUse = true) →
      ((sh.setClient s cl).clients j).sockfd = (sh.clients j).sockfd ∧
        (((sh.setClient s cl).clients j).inUse = true → (sh.clients j).inUse = true) := by
    intro s cl h1 h2
    by_cases hj : j = s
    · subst hj
      rw [clients_setClient_self]
      exact ⟨h1, h2⟩
    · rw [clients_setClient_of_ne sh hj]
      exact ⟨rfl, id⟩
  cases hc with
  | fill => exact absurd rfl (ha _ _)
  | abandon s => exact hset (s := s) rfl fun h => (by cases h)
  | storeLogin s u => exact hset (s := s) rfl id
  | clear s => exact hset (s := s) rfl id
  | setStatus s m status => exact hset (s := s) rfl id
  | cleanup s => exact hset (s := s) rfl fun h => (by cases h)
  | closeFd fd =>
    rw [clients_close]
    exact ⟨rfl, id⟩
  | closeSocket s =>
    rw [clients_close]
    exact ⟨rfl, id⟩
  | _ => exact ⟨rfl, id⟩

/-- The slots behind a step that fills none. -/
theorem slots_step (hs : step st l = some st')
    (hfill : ∀ fd c rest, st.todo l.1 = .act (.allot fd c) :: rest → st.shared.findFree = none)
    (j : Slot) : (st'.shared.clients j).sockfd = (st.shared.clients j).sockfd ∧
      ((st'.shared.clients j).inUse = true → (st.shared.clients j).inUse = true) := by
  rcases Tasks.step_cases hs with ⟨_, _, _, _, rfl⟩ | ⟨_, _, _, rfl⟩ | ⟨a, rest, out, ha, he, rfl⟩
  · exact ⟨rfl, id⟩
  · exact ⟨rfl, id⟩
  · by_cases hallot : ∃ fd c, a = .allot fd c
    · obtain ⟨fd, c, rfl⟩ := hallot
      simp only [exec, hfill fd c rest ha] at he
      obtain rfl := goOn_inj he
      exact ⟨rfl, id⟩
    · exact slots_of_change (change_of_exec he) (fun fd c hac => hallot ⟨fd, c, hac⟩) j

/-- No slot gets live but by the accept loop. -/
theorem Apart.live_step (h : Apart st) (hs : step st l = some st')
    (hfill : ∀ fd c rest, st.todo l.1 = .act (.allot fd c) :: rest → st.shared.findFree = none)
    {j : Slot} (hj : Live st' j) : Live st j := by
  rcases hj with hj | ⟨u, b, hb, hj⟩
  · exact Or.inl ((slots_step hs hfill j).2 hj)
  · rcases mem_after hs hb with hold | ⟨a, rest, out, htodo, hexec, ⟨rfl, hnew⟩ | ⟨hnone, -⟩⟩
    · exact Or.inr ⟨u, b, hold, hj⟩
    · obtain ⟨g, k, hat, hocc⟩ := h.occupied
      rcases target_next hexec hnew hj with ha | ha | ha
      · exact Or.inr ⟨l.1, a, htodo ▸ List.mem_cons_self, ha⟩
      · exact Or.inl (hocc.active j ha)
      · obtain ⟨c, -, hk⟩ := hat.serving_of_role htodo ha
        exact Or.inl (hocc.serving j c hk)
    · rw [hnone] at hj
      cases hj

/-- A thread begins to write by `slot_send`, or to refuse a connection. -/
theorem writing_step (hs : step st l = some st') {fd : Nat} (hu : Writing st' u fd) :
    Writing st u fd ∨ u = l.1 ∧ ((∃ s m rest, st.todo l.1 = .act (.sendMessage s m) :: rest ∧
      fd = (st.shared.clients s).sockfd) ∨ ∃ rest, st.todo l.1 = .act (.refuse fd) :: rest) := by
  obtain ⟨m, r, hm⟩ := hu
  rcases mem_after hs hm with hold | ⟨a, rest, out, htodo, hexec, ⟨rfl, hnew⟩ | ⟨-, hw, -⟩⟩
  · exact Or.inl ⟨m, r, hold⟩
  · obtain ⟨-, ⟨s, m', rfl, he⟩ | ⟨fd', m', rfl, he⟩ | ⟨fd', m', r₁, r₂, rfl, he⟩⟩ :=
      write_next (b := .write fd m r) hexec hnew rfl
    · cases he
      exact Or.inr ⟨rfl, Or.inl ⟨s, m, rest, htodo, rfl⟩⟩
    · cases he
      exact Or.inr ⟨rfl, Or.inr ⟨rest, htodo⟩⟩
    · cases he
      exact Or.inl ⟨m, r₁, htodo ▸ List.mem_cons_self⟩
  · cases hw

/-- A thread that writes keeps its lock. -/
theorem Heads.owner_step (h : Heads st) (hd : Disciplined effect st)
    (hs : Thread.step st l = some st') {fd : Nat} (hw : Writing st u fd) {x : Lock}
    (ho : st.owner x = some u) : st'.owner x = some u := by
  rcases Tasks.step_cases hs with ⟨y, rest, hy, hfree, rfl⟩ | ⟨y, rest, hy, rfl⟩ |
      ⟨a, rest, out, ha, he, rfl⟩
  · have hne : x ≠ y := by
      rintro rfl
      rw [hfree] at ho
      cases ho
    exact (Function.update_of_ne hne ..).trans ho
  · have hne : x ≠ y := by
      rintro rfl
      have hu := hd.owner_of_unlock hy
      obtain rfl := Option.some.inj (ho.symm.trans hu)
      exact h.not_writing hy (by simp) fd hw
    exact (Function.update_of_ne hne ..).trans ho
  · exact ho

/-- A thread sends to a slot under its lock. -/
theorem owner_of_sendMessage (hd : Disciplined effect st) (hs : step st l = some st') {s : Slot}
    {m : Message} {rest : Code} (htodo : st.todo l.1 = .act (.sendMessage s m) :: rest) :
    st'.owner (.send s) = some l.1 := by
  have ho : st.owner (.send s) = some l.1 := by
    obtain ⟨x, hx, hflow⟩ := hd.holds l.1
    rw [htodo] at hflow
    simp only [flow, Option.bind_eq_some_iff] at hflow
    obtain ⟨x', heff, -⟩ := hflow
    exact (hx _).mpr (within_eq_some.mp heff).1
  rcases Tasks.step_cases hs with ⟨y, rest', hy, -⟩ | ⟨y, rest', hy, -⟩ | ⟨a, rest', out, -, -, rfl⟩
  · cases htodo.symm.trans hy
  · cases htodo.symm.trans hy
  · exact ho

/-- A step that fills no slot leaves every descriptor with its slot. -/
theorem Apart.homes_step (h : Apart st) (hs : step st l = some st')
    (hfill : ∀ fd c rest, st.todo l.1 = .act (.allot fd c) :: rest → st.shared.findFree = none)
    (fd : Nat) : (Spare st fd → Spare st' fd) ∧
      ∀ s, Belongs st fd s → (∀ rest, st.todo l.1 ≠ .act (.refuse fd) :: rest) →
        Belongs st' fd s := by
  have hlive : ∀ {s : Slot} {m : Message} {rest : Code},
      st.todo l.1 = .act (.sendMessage s m) :: rest → Live st s :=
    fun htodo => Or.inr ⟨l.1, _, htodo ▸ List.mem_cons_self, rfl⟩
  constructor
  · intro hspare
    refine ⟨fun j hj => ?_, fun u hu => ?_⟩
    · rw [(slots_step hs hfill j).1]
      exact hspare.slots j (h.live_step hs hfill hj)
    · rcases writing_step hs hu with hu | ⟨rfl, ⟨s, m, rest, htodo, he⟩ | ⟨rest, htodo⟩⟩
      · exact hspare.writers u hu
      · exact absurd he.symm (hspare.slots s (hlive htodo))
      · exact h.refusals l.1 fd (htodo ▸ List.mem_cons_self)
  · intro s hbel hrefuse
    refine ⟨fun j hj he => ?_, fun u hu => ?_⟩
    · rw [(slots_step hs hfill j).1] at he
      exact hbel.slots j (h.live_step hs hfill hj) he
    · rcases writing_step hs hu with hw | ⟨rfl, ⟨s', m, rest, htodo, he⟩ | ⟨rest, htodo⟩⟩
      · exact h.heads.owner_step h.disciplined hs hw (hbel.writers u hw)
      · obtain rfl := hbel.slots s' (hlive htodo) he.symm
        exact owner_of_sendMessage h.disciplined hs htodo
      · exact absurd htodo (hrefuse rest)

/-- The accept loop passes a lock operation. -/
theorem Turn.skip {x : Stmt Lock Act} {rest : Code} {o : Option Nat} (h : Turn (x :: rest) o)
    (hx : ∀ a, x ≠ .act a) : Turn rest o := by
  cases h with
  | taken fd c => exact .allot fd c
  | full fd => exact .refuse fd
  | filled s fd c => exact .create s fd c
  | _ => exact absurd rfl (hx _)

/-! ### The accept loop -/

/-- Nobody starts the accept loop. -/
theorem todo_main_perform {rest : Code} (h : exec t a i st.shared = some out) :
    (st.perform t rest out).todo .main =
      if .main = t then out.next ++ rest else st.todo .main := by
  have hstarted : started Tid.main out.spawn = [] := by
    rcases started_cases Tid.main out.spawn with hs | hs
    · exact hs
    · obtain ⟨s, fd, c, -, hu, -⟩ := spawn_eq_some h hs
      cases hu
  simp only [State.perform, hstarted, List.append_nil]

/-- The others leave the work of the accept loop alone. -/
theorem todo_main_of_ne (hs : step st l = some st') (hl : l.1 ≠ .main) :
    st'.todo .main = st.todo .main := by
  rcases Tasks.step_cases hs with ⟨y, rest, -, -, rfl⟩ | ⟨y, rest, -, rfl⟩ |
      ⟨a, rest, out, -, hexec, rfl⟩
  · exact todo_goOn_of_ne (Ne.symm hl) _
  · exact todo_goOn_of_ne (Ne.symm hl) _
  · rw [todo_main_perform hexec, if_neg (Ne.symm hl)]

/-- The accept loop goes on with a descriptor it has accepted, and gives none up but to a slot. -/
theorem Turn.step {o : Option Nat} (h : Turn (st.todo .main) o) (hl : l.1 = .main)
    (hs : step st l = some st') : ∃ o', Turn (st'.todo .main) o' ∧ ∀ fd, o' = some fd →
      o = some fd ∨ st.todo .main = [.act .accept] ∧ l.2.fd = some fd := by
  obtain ⟨t, i⟩ := l
  obtain rfl : t = .main := hl
  generalize hp : st.todo .main = p at h
  rcases Tasks.step_cases hs with ⟨y, rest, hy, -, rfl⟩ | ⟨y, rest, hy, rfl⟩ |
      ⟨a, rest, out, hy, hexec, rfl⟩
  · obtain rfl := hp.symm.trans hy
    refine ⟨o, ?_, fun fd ho => Or.inl ho⟩
    rw [todo_goOn_self]
    exact h.skip (by simp)
  · obtain rfl := hp.symm.trans hy
    refine ⟨o, ?_, fun fd ho => Or.inl ho⟩
    rw [todo_goOn_self]
    exact h.skip (by simp)
  · obtain rfl := hp.symm.trans hy
    rw [todo_main_perform hexec, if_pos rfl]
    cases h with
    | idle =>
      simp only [exec] at hexec
      split at hexec
      · obtain rfl := goOn_inj hexec
        exact ⟨none, .idle, by simp⟩
      · next fd hfd =>
        split at hexec
        · obtain rfl := goOn_inj hexec
          refine ⟨some fd, .taken fd _, fun fd' ho => Or.inr ⟨rfl, ?_⟩⟩
          rw [← ho]
          exact hfd
        · cases hexec
    | allot fd c =>
      simp only [exec] at hexec
      split at hexec
      · obtain rfl := goOn_inj hexec
        exact ⟨some fd, .full fd, fun fd' ho => Or.inl ho⟩
      · obtain rfl := goOn_inj hexec
        exact ⟨none, .filled _ fd c, by simp⟩
    | refuse fd =>
      obtain rfl := goOn_inj hexec
      exact ⟨some fd, .write fd _ _, fun fd' ho => Or.inl ho⟩
    | write fd m rest =>
      simp only [exec] at hexec
      split at hexec <;> obtain rfl := goOn_inj hexec
      · exact ⟨none, .close fd, by simp⟩
      · exact ⟨some fd, .write fd m _, fun fd' ho => Or.inl ho⟩
      · exact ⟨some fd, .write fd m _, fun fd' ho => Or.inl ho⟩
      · exact ⟨none, .close fd, by simp⟩
    | close fd =>
      obtain rfl := goOn_inj hexec
      exact ⟨none, .idle, by simp⟩
    | create s fd c =>
      simp only [exec] at hexec
      split at hexec
      · obtain rfl := Option.some.inj hexec
        exact ⟨none, .idle, by simp⟩
      · obtain rfl := goOn_inj hexec
        exact ⟨none, .abandon s fd, by simp⟩
    | abandon s fd =>
      obtain rfl := goOn_inj hexec
      exact ⟨none, .close fd, by simp⟩

/-- Only a full table makes the accept loop refuse a connection. -/
theorem refuse_next (h : exec t a i sh = some out) {fd : Nat}
    (hb : .act (.refuse fd) ∈ out.next) : ∃ fd' c, a = .allot fd' c := by
  cases a <;> simp only [exec] at h
  case allot fd' c => exact ⟨fd', c, rfl⟩
  case route s m =>
    obtain rfl := goOn_inj h
    exact absurd rfl ((route_target sh s m _ hb).2.1 fd)
  all_goals
    repeat' split at h
    all_goals cases h
    all_goals simp [slotSend] at hb

/-- A thread that accepts is the accept loop. -/
theorem At.main_of_role (h : At st g k) {rest : Code} (htodo : st.todo t = .act a :: rest)
    (ha : a.role = .accepting) : t = .main := by
  have hfits := h.todo t
  rw [htodo] at hfits
  cases t with
  | main => rfl
  | client s c =>
    obtain ⟨p, hp, he⟩ := hfits
    rcases List.append_eq_cons_iff.mp he.symm with ⟨-, hg⟩ | ⟨q, rfl, rfl⟩
    · cases hk : k (s, c) <;> rw [hk] at hg
      · cases hg
      · cases (List.cons.inj hg).1
        cases ha
      · cases (List.cons.inj hg).1
        cases ha
    · cases hk : k (s, c) <;> rw [hk] at hp
      · cases hp
      · have hrole : a.role = .sending := hp a List.mem_cons_self
        cases ha.symm.trans hrole
      · have hrole : a.role = .serving s ∨ a.role = .sending := hp a List.mem_cons_self
        rw [ha] at hrole
        rcases hrole with hrole | hrole <;> cases hrole

/-- Only the accept loop refuses connections. -/
theorem Apart.refusals_step (h : Apart st) (hs : Thread.step st l = some st') {fd : Nat}
    (hb : .act (.refuse fd) ∈ st'.todo u) : u = .main := by
  rcases mem_after hs hb with hold | ⟨a, rest, out, htodo, hexec, ⟨rfl, hnew⟩ | ⟨-, -, hne⟩⟩
  · exact h.refusals u fd hold
  · obtain ⟨fd', c, rfl⟩ := refuse_next hexec hnew
    obtain ⟨g, k, hat, -⟩ := h.occupied
    exact hat.main_of_role htodo rfl
  · exact absurd rfl (hne fd)

/-- A filled slot takes over the descriptor the accept loop had to itself. -/
theorem homes_fill {s : Slot} {fd c : Nat} {rest : Code} (h : Apart st)
    (htodo : st.todo .main = .act (.allot fd c) :: rest)
    (hclients : st'.shared.clients = (st.shared.fill s fd).clients)
    (hmem : ∀ u b, .act b ∈ st'.todo u → .act b ∈ st.todo u ∨
      b.target = none ∧ b.isWrite = false) (howner : st'.owner = st.owner) (fd' : Nat) :
    Spare st' fd' ∨ ∃ s', Belongs st' fd' s' := by
  have hspare : Spare st fd := by
    obtain ⟨o, hturn, ho⟩ := h.turn
    rw [htodo] at hturn
    cases hturn
    exact ho fd rfl
  have hother : ∀ j, j ≠ s → st'.shared.clients j = st.shared.clients j := by
    intro j hj
    rw [hclients]
    exact clients_setClient_of_ne _ hj _
  have hself : (st'.shared.clients s).sockfd = fd := by
    rw [hclients, Shared.fill, clients_setClient_self]
  have hlive : ∀ j, j ≠ s → Live st' j → Live st j := by
    intro j hj hl
    rcases hl with hl | ⟨u, b, hb, hl⟩
    · rw [hother j hj] at hl
      exact Or.inl hl
    · rcases hmem u b hb with hb | ⟨hnone, -⟩
      · exact Or.inr ⟨u, b, hb, hl⟩
      · cases hnone.symm.trans hl
  have hwriting : ∀ u n, Writing st' u n → Writing st u n := by
    rintro u n ⟨m, r, hm⟩
    rcases hmem u _ hm with hm | ⟨-, hw⟩
    · exact ⟨m, r, hm⟩
    · cases hw
  have hmain : ∀ n, ¬ Writing st .main n := by
    rintro n ⟨m, r, hm⟩
    have hhead := h.heads .main
    rw [htodo] at hm hhead
    rcases List.mem_cons.mp hm with hm | hm
    · cases hm
    · cases hhead _ hm
  by_cases hfd : fd' = fd
  · subst hfd
    refine Or.inr ⟨s, fun j hj he => ?_, fun u hu => ?_⟩
    · by_contra hjs
      rw [hother j hjs] at he
      exact hspare.slots j (hlive j hjs hj) he
    · have hw := hwriting u _ hu
      rw [hspare.writers u hw] at hw
      exact absurd hw (hmain _)
  · rcases h.home fd' with hsp | ⟨s', hb⟩
    · refine Or.inl ⟨fun j hj he => ?_, fun u hu => hsp.writers u (hwriting u _ hu)⟩
      by_cases hjs : j = s
      · rw [hjs, hself] at he
        exact hfd he.symm
      · rw [hother j hjs] at he
        exact hsp.slots j (hlive j hjs hj) he
    · refine Or.inr ⟨s', fun j hj he => ?_, fun u hu => ?_⟩
      · by_cases hjs : j = s
        · rw [hjs, hself] at he
          exact absurd he.symm hfd
        · rw [hother j hjs] at he
          exact hb.slots j (hlive j hjs hj) he
      · rw [howner]
        exact hb.writers u (hwriting u _ hu)

/-- A step that fills no slot keeps the descriptors apart. -/
theorem Apart.homes_calm (h : Apart st) (hs : Thread.step st l = some st')
    (hfill : ∀ fd c rest, st.todo l.1 = .act (.allot fd c) :: rest → st.shared.findFree = none)
    (fd : Nat) : Spare st' fd ∨ ∃ s, Belongs st' fd s := by
  obtain ⟨hspare, hbelongs⟩ := h.homes_step hs hfill fd
  by_cases hrefuse : ∃ rest, st.todo l.1 = .act (.refuse fd) :: rest
  · obtain ⟨rest, htodo⟩ := hrefuse
    have hl : l.1 = .main := h.refusals l.1 fd (htodo ▸ List.mem_cons_self)
    obtain ⟨o, hturn, ho⟩ := h.turn
    rw [hl] at htodo
    rw [htodo] at hturn
    cases hturn
    exact Or.inl (hspare (ho fd rfl))
  · rcases h.home fd with hs | ⟨s, hs⟩
    · exact Or.inl (hspare hs)
    · exact Or.inr ⟨s, hbelongs s hs fun rest htodo => hrefuse ⟨rest, htodo⟩⟩

/-- A step that hands out no number a thread may still send to keeps the descriptors apart. -/
theorem Apart.step (h : Apart st) (hok : KeepsApart st l) (hs : Thread.step st l = some st') :
    Apart st' := by
  obtain ⟨g, k, hat, hocc⟩ := h.occupied
  obtain ⟨g', k', hm, hat'⟩ := hat.step hs
  have hrefusals : ∀ t fd, .act (.refuse fd) ∈ st'.todo t → t = .main :=
    fun t fd hb => h.refusals_step hs hb
  obtain ⟨o, hturn, ho⟩ := h.turn
  by_cases hfill : ∃ fd c rest s, st.todo l.1 = .act (.allot fd c) :: rest ∧
      st.shared.findFree = some s
  · obtain ⟨fd, c, rest, s, htodo, hfree⟩ := hfill
    have hl : l.1 = .main := hat.main_of_role htodo rfl
    have hstep := hs
    simp only [Thread.step, Tasks.step, htodo, exec, hfree, Shared.goOn, Option.map_some,
      Option.some.injEq] at hstep
    have hshared : st'.shared = st.shared.fill s fd := by
      rw [← hstep]
      rfl
    have howner : st'.owner = st.owner := by
      rw [← hstep]
      rfl
    have hwork : st'.todo .main = [.unlock .table, .act (.create s fd c)] ++ rest := by
      rw [← hstep, perform_eq rfl, hl, todo_goOn_self]
    rw [hl] at htodo
    refine ⟨h.disciplined.step obeys hs, h.heads.step hs, ⟨g', k', hat', hocc.move hm⟩, hrefusals,
      ⟨none, ?_, fun _ he => (by cases he)⟩, ?_⟩
    · rw [htodo] at hturn
      rw [hwork]
      cases hturn
      exact .filled s fd c
    · refine homes_fill h htodo (congrArg Shared.clients hshared) (fun u b hb => ?_) howner
      rcases mem_after hs hb with hb | ⟨a, rest', out, htodo', hexec, ⟨rfl, hnew⟩ | ⟨h1, h2, -⟩⟩
      · exact Or.inl hb
      · rw [hl, htodo] at htodo'
        obtain rfl := Stmt.act.inj (List.cons.inj htodo').1
        simp only [exec, hfree] at hexec
        obtain rfl := goOn_inj hexec
        simp at hnew
        subst hnew
        exact Or.inr ⟨rfl, rfl⟩
      · exact Or.inr ⟨h1, h2⟩
  · have hcalm : ∀ fd c rest, st.todo l.1 = .act (.allot fd c) :: rest →
        st.shared.findFree = none := by
      intro fd c rest htodo
      cases hfree : st.shared.findFree with
      | none => rfl
      | some s => exact absurd ⟨fd, c, rest, s, htodo, hfree⟩ hfill
    refine ⟨h.disciplined.step obeys hs, h.heads.step hs, ⟨g', k', hat', hocc.move hm⟩, hrefusals,
      ?_, h.homes_calm hs hcalm⟩
    by_cases hl : l.1 = .main
    · obtain ⟨o', hturn', ho'⟩ := hturn.step hl hs
      refine ⟨o', hturn', fun fd he => (h.homes_step hs hcalm fd).1 ?_⟩
      rcases ho' fd he with he | ⟨htodo, hfd⟩
      · exact ho fd he
      · obtain ⟨hw, hslots⟩ := hok fd hl htodo hfd
        exact ⟨hslots, fun u hu => absurd hu (hw u)⟩
    · refine ⟨o, ?_, fun fd he => (h.homes_step hs hcalm fd).1 (ho fd he)⟩
      rw [todo_main_of_ne hs hl]
      exact hturn

theorem apart_init (history : History) : Apart (init history) := by
  have hwrite : ∀ u n, ¬ Writing (init history) u n := by
    rintro u n ⟨m, r, hm⟩
    cases u with
    | main => cases List.mem_singleton.mp hm
    | client s c => cases hm
  refine ⟨disciplined_init history, heads_init history,
    ⟨_, _, at_init history, occupied_init history⟩, fun t fd hb => ?_,
    ⟨none, .idle, fun _ he => (by cases he)⟩,
    fun fd => Or.inl ⟨fun j hj => ?_, fun u hu => absurd hu (hwrite u fd)⟩⟩
  · cases t with
    | main => rfl
    | client s c => cases hb
  · rcases hj with hj | ⟨u, b, hb, hj⟩
    · cases hj
    · cases u with
      | main =>
        cases List.mem_singleton.mp hb
        cases hj
      | client s c => cases hb

end ChatSystem.Thread
