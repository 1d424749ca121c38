import ChatSystem.Thread.Names

/-!
# Private messages in the thread server

The slot of a receiver is looked up under `table_lock` and used after the lock
is released. A private message stays with its receiver along the runs in which,
while it is on its way, its slot is not filled again and the number of its
descriptor is not handed out again.
-/

namespace ChatSystem.Thread

open Bytes Tasks Transition

variable {st st' : State} {sh sh' : Shared} {g g' : Stage} {k k' : Phases} {t : Tid} {a b : Act}
  {i : Input} {out : Outcome Lock Tid Act Shared}

/-- The thread of a connection has logged in under a name. -/
def LoggedIn (sh : Shared) (c : Nat) (u : List UInt8) : Prop :=
  ∃ s, .loggedIn (.client s c) u ∈ sh.log

/-- A private message was only written to the connections of sessions logged in as its
receiver. -/
def StayPrivate (sh : Shared) : Prop :=
  ∀ c m bytes, .wrote c m bytes ∈ sh.log → m.kind = some .priv → LoggedIn sh c m.receiverStr

/-- Some thread is about to send a private message to a slot. -/
def SendsTo (st : State) (s : Slot) : Prop :=
  ∃ t m, .act (.sendMessage s m) ∈ st.todo t ∧ m.kind = some .priv

/-- Some thread is writing a private message to a descriptor. -/
def WritesTo (st : State) (fd : Nat) : Prop :=
  ∃ t m rest, .act (.write fd m rest) ∈ st.todo t ∧ m.kind = some .priv

/-- The accept loop gives out no descriptor that a slot in use, a pending private message or its
writing refers to, and fills no slot that a private message is about to be sent to. -/
structure KeepsTargets (st : State) (l : Tid × Input) : Prop where
  accept : ∀ fd, l.1 = .main → st.todo .main = [.act .accept] → l.2.fd = some fd →
    ¬ WritesTo st fd ∧ ∀ s, (st.shared.clients s).inUse = true ∨ SendsTo st s →
      (st.shared.clients s).sockfd ≠ fd
  fill : ∀ fd c rest s, l.1 = .main → st.todo .main = .act (.allot fd c) :: rest →
    st.shared.findFree = some s → ¬ SendsTo st s

/-- The connection that the descriptor of a slot in use stands for is the one of its session,
and an active slot's connection is logged in under its name. -/
structure Bound (sh : Shared) (g : Stage) (k : Phases) : Prop where
  serving : ∀ s c, k (s, c) = .serving → (sh.clients s).inUse = true ∧
    ∀ c', sh.conn (sh.clients s).sockfd = some c' → c' = c
  alone : ∀ s c c', k (s, c) = .serving → k (s, c') = .serving → c = c'
  pending : ∀ fd c, g.pending = some (fd, c) → ∀ c', sh.conn fd = some c' → c' = c
  filled : ∀ s fd c, g = .filled s fd c → (sh.clients s).sockfd = fd
  reserved : ∀ s fd c, g = .filled s fd c ∨ g = .abandoned s fd c →
    (sh.clients s).inUse = true ∧ (sh.clients s).active = false ∧ ∀ c', k (s, c') ≠ .serving
  active : ∀ s, (sh.clients s).active = true → (sh.clients s).inUse = true ∧
    ∀ c, sh.conn (sh.clients s).sockfd = some c → LoggedIn sh c (sh.clients s).name
  wrote : StayPrivate sh

/-- What every act a thread still has to do is entitled to. -/
def Entitled (sh : Shared) : Act → Prop
  | .sendMessage s m => m.kind = some .priv →
    ∀ c, sh.conn (sh.clients s).sockfd = some c → LoggedIn sh c m.receiverStr
  | .write fd m _ => m.kind = some .priv → ∀ c, sh.conn fd = some c → LoggedIn sh c m.receiverStr
  | .sendActive _ m _ => m.kind ≠ some .priv
  | .reply _ make => ∀ now, (make now).kind ≠ some .priv
  | _ => True

theorem LoggedIn.mono {c : Nat} {u : List UInt8} (h : LoggedIn sh c u)
    (hlog : ∀ e ∈ sh.log, e ∈ sh'.log) : LoggedIn sh' c u := by
  obtain ⟨s, hs⟩ := h
  exact ⟨s, hlog _ hs⟩

/-! ## Entitlement of what is still to be done -/

/-- A change after which every descriptor and slot of concern leads where it led before. -/
theorem Entitled.mono (h : Entitled sh b) (hlog : ∀ e ∈ sh.log, e ∈ sh'.log)
    (hsend : ∀ s m, b = .sendMessage s m → m.kind = some .priv →
      ∀ c, sh'.conn (sh'.clients s).sockfd = some c → sh.conn (sh.clients s).sockfd = some c)
    (hwrite : ∀ fd m rest, b = .write fd m rest → m.kind = some .priv →
      ∀ c, sh'.conn fd = some c → sh.conn fd = some c) : Entitled sh' b := by
  cases b
  case sendMessage s m =>
    intro hm c hc
    exact (h hm c (hsend s m rfl hm c hc)).mono hlog
  case write fd m rest =>
    intro hm c hc
    exact (h hm c (hwrite fd m rest rfl hm c hc)).mono hlog
  case sendActive => exact h
  case reply => exact h
  all_goals trivial

/-- The replies of the server are not private messages. -/
theorem entitled_route (sh : Shared) (s : Slot) (m : Message) :
    ∀ b, .act b ∈ sh.route s m → Entitled sh b := by
  intro b hb
  unfold Shared.route at hb
  split at hb
  · unfold Shared.login at hb
    split at hb <;> simp at hb <;> subst hb <;> simp [Entitled, badLogin]
  · simp [Shared.logout] at hb
    rcases hb with rfl | rfl <;> trivial
  · next hkind =>
    unfold Shared.broadcast at hb
    split at hb
    · simp at hb
      subst hb
      simp [Entitled, notAuthenticated]
    · simp at hb
      rcases hb with rfl | rfl | rfl
      · trivial
      · simp [Entitled, hkind]
      · simp [Entitled, relayed]
  · unfold Shared.priv at hb
    split at hb <;> simp at hb <;> subst hb <;> simp [Entitled, notAuthenticated]
  all_goals simp at hb
  · subst hb
    trivial
  · subst hb
    trivial
  · rcases hb with rfl | rfl
    · trivial
    · simp [Entitled, statusUpdated]
  · subst hb
    simp [Entitled, unknownType]

/-- Sending a message on to a slot it may be sent to. -/
theorem entitled_slotSend {s : Slot} {m : Message}
    (h : m.kind = some .priv →
      ∀ c, sh.conn (sh.clients s).sockfd = some c → LoggedIn sh c m.receiverStr) :
    ∀ b, .act b ∈ slotSend s m → Entitled sh b := by
  intro b hb
  simp [slotSend] at hb
  subst hb
  exact h

/-- The slot found for a name holds the connection of a session logged in under it. -/
theorem Bound.target {m : Message} {s : Slot} (h : Bound sh g k)
    (hfind : sh.findUser m.receiver.toList = some s) :
    ∀ c, sh.conn (sh.clients s).sockfd = some c → LoggedIn sh c m.receiverStr := by
  have hholds : (sh.table s).holds m.receiver.toList = true := findName_eq_some hfind
  simp only [Entry.holds, Bool.and_eq_true] at hholds
  obtain ⟨hactive, heq⟩ := hholds
  have hname : (sh.clients s).name = m.receiverStr := by
    have hlen : ∀ v : Arr maxUsernameLen, v.toList.take maxUsernameLen = v.toList := fun v =>
      List.take_of_length_le (List.Vector.toList_length v).le
    rw [strncmpEq, hlen, hlen, beq_iff_eq] at heq
    exact heq
  rw [← hname]
  exact (h.active s hactive).2

/-- What an act adds is entitled, if the act was. -/
theorem entitled_next (hb : Bound sh g k)
    (hexec : exec t a i sh = some out) (ha : Entitled sh a) :
    ∀ b, .act b ∈ out.next → Entitled out.shared b := by
  cases a <;> simp only [exec] at hexec
  case accept =>
    split at hexec
    · obtain rfl := goOn_inj hexec
      simp [Entitled]
    · split at hexec
      · obtain rfl := goOn_inj hexec
        simp [Entitled]
      · cases hexec
  case create =>
    split at hexec
    · obtain rfl := Option.some.inj hexec
      simp
    · obtain rfl := goOn_inj hexec
      simp [Entitled]
  case refuse =>
    obtain rfl := goOn_inj hexec
    simp [Entitled, serverFull]
  case write fd m rest =>
    split at hexec
    · obtain rfl := goOn_inj hexec
      simp
    · obtain rfl := goOn_inj hexec
      intro b hm
      simp at hm
      subst hm
      have ha : Entitled sh (.write fd m _) := ha
      exact ha.mono (fun e he => List.mem_append_left _ he)
        (fun _ _ he => by cases he) fun fd' _ _ he _ c hc => by cases he; exact hc
    · obtain rfl := goOn_inj hexec
      simpa using ha
    · obtain rfl := goOn_inj hexec
      simp
  case recv =>
    split at hexec
    · split at hexec <;> obtain rfl := goOn_inj hexec <;> simp [Entitled]
    · obtain rfl := goOn_inj hexec
      simp
  case route s m =>
    obtain rfl := goOn_inj hexec
    exact entitled_route sh s m
  case checkName =>
    split at hexec <;> obtain rfl := goOn_inj hexec <;> simp [Entitled, alreadyLoggedIn]
  case validate =>
    split at hexec <;> obtain rfl := goOn_inj hexec <;> simp [Entitled, invalidCredentials]
  case bcastNote =>
    obtain rfl := goOn_inj hexec
    simp [Entitled, notice]
  case sendActive skip m slots =>
    split at hexec
    · obtain rfl := goOn_inj hexec
      simp
    · split at hexec
      · obtain rfl := goOn_inj hexec
        simp [slotSend, Entitled] at ha ⊢
        exact ⟨fun hm => absurd hm ha, ha⟩
      · obtain rfl := goOn_inj hexec
        simpa [Entitled] using ha
  case findTarget s m =>
    split at hexec
    · obtain rfl := goOn_inj hexec
      simp [Entitled, userNotOnline]
    · next s' hfind =>
      obtain rfl := goOn_inj hexec
      have htarget := hb.target hfind
      intro b hm
      simp only [List.mem_append] at hm
      rcases hm with (hm | hm) | hm
      · simp at hm
        subst hm
        trivial
      · exact entitled_slotSend (fun _ => htarget) b hm
      · simp at hm
        subst hm
        simp [Entitled, relayed]
  case reply s make =>
    obtain rfl := goOn_inj hexec
    exact entitled_slotSend fun hm => absurd hm (ha _)
  case sendMessage s m =>
    obtain rfl := goOn_inj hexec
    simpa [Entitled] using ha
  case cleanup =>
    obtain rfl := goOn_inj hexec
    simp only
    split <;> simp [Entitled]
  case allot => split at hexec <;> obtain rfl := goOn_inj hexec <;> simp [Entitled]
  all_goals
    obtain rfl := goOn_inj hexec
    simp [Entitled, loginSuccessful, userList, historyResponse]

/-! ## Moves -/

/-- A change of login data and history, in which a name appears only with its login. -/
theorem Bound.entries (h : Bound sh g k) (hconn : sh'.conn = sh.conn)
    (hfd : ∀ s, (sh'.clients s).sockfd = (sh.clients s).sockfd)
    (huse : ∀ s, (sh'.clients s).inUse = (sh.clients s).inUse)
    (hact : ∀ s, (sh'.clients s).active = true →
      (sh.clients s).active = true ∧ (sh'.clients s).name = (sh.clients s).name ∨
        ∃ c, k (s, c) = .serving ∧ LoggedIn sh' c (sh'.clients s).name)
    (hlog : ∀ e ∈ sh.log, e ∈ sh'.log) (hwrote : StayPrivate sh') : Bound sh' g k := by
  constructor
  · intro s c hs
    rw [huse, hfd, hconn]
    exact h.serving s c hs
  · exact h.alone
  · rw [hconn]
    exact h.pending
  · intro s fd c hg
    rw [hfd]
    exact h.filled s fd c hg
  · intro s fd c hg
    obtain ⟨h1, h2, h3⟩ := h.reserved s fd c hg
    rw [huse]
    refine ⟨h1, ?_, h3⟩
    rw [← Bool.not_eq_true]
    intro ha
    rcases hact s ha with ⟨ha, -⟩ | ⟨c', hc', -⟩
    · rw [h2] at ha
      cases ha
    · exact h3 c' hc'
  · intro s ha
    rw [huse, hfd, hconn]
    rcases hact s ha with ⟨ha, hname⟩ | ⟨c, hc, hin⟩
    · obtain ⟨h1, h2⟩ := h.active s ha
      rw [hname]
      exact ⟨h1, fun c hc => (h2 c hc).mono hlog⟩
    · obtain ⟨h1, h2⟩ := h.serving s c hc
      refine ⟨h1, fun c' hc' => ?_⟩
      obtain rfl := h2 c' hc'
      exact hin
  · exact hwrote

/-- The login data of a slot is overwritten: the new entry is inactive, keeps its name, or has the
name of a login of the thread that serves the slot. -/
theorem Bound.setEntry (h : Bound sh g k) {s : Slot} {e : Entry}
    (hclients : sh'.clients = (sh.setEntry s e).clients) (hconn : sh'.conn = sh.conn)
    (he : e.active = true → (sh.clients s).active = true ∧ e.name = (sh.clients s).name ∨
      ∃ c, k (s, c) = .serving ∧ LoggedIn sh' c e.name)
    (hlog : ∀ e ∈ sh.log, e ∈ sh'.log) (hwrote : StayPrivate sh') : Bound sh' g k := by
  refine h.entries hconn (fun j => ?_) (fun j => ?_) (fun j hj => ?_) hlog hwrote
  · rw [hclients, sockfd_setEntry]
  · rw [hclients, inUse_setEntry]
  · by_cases hjs : j = s
    · subst hjs
      rw [hclients, toEntry_setEntry_self] at hj ⊢
      exact he hj
    · rw [hclients, Shared.setEntry, clients_setClient_of_ne sh hjs] at hj ⊢
      exact Or.inl ⟨hj, rfl⟩

/-- Writing on bytes of an entitled message. -/
theorem StayPrivate.wrote {fd c : Nat} {m : Message} {rest bytes : List UInt8}
    (h : StayPrivate sh) (hent : Entitled sh (.write fd m rest)) (hc : sh.conn fd = some c) :
    StayPrivate (sh.note (.wrote c m bytes)) := by
  have hmono : ∀ e ∈ sh.log, e ∈ (sh.note (.wrote c m bytes)).log :=
    fun e he => List.mem_append_left _ he
  intro d m' bytes' hm hkind
  rcases List.mem_append.mp hm with hm | hm
  · exact (h d m' bytes' hm hkind).mono hmono
  · cases List.mem_singleton.mp hm
    exact (hent hkind c hc).mono hmono

/-- Service and sending keep the table bound. -/
theorem Bound.work (h : Bound sh g k) (hn : NamesOk sh.table) (hc : Change t sh a sh')
    (ha : a.role = .sending ∨ ∃ s c, t = .client s c ∧ a.role = .serving s ∧ k (s, c) = .serving)
    (hpre : Pre a sh) (hent : Entitled sh a) : Bound sh' g k := by
  cases hc
  case same => exact h
  case write fd c m rest bytes hc =>
    have hmono : ∀ e ∈ sh.log, e ∈ (sh.note (.wrote c m bytes)).log :=
      fun e he => List.mem_append_left _ he
    exact h.entries rfl (fun _ => rfl) (fun _ => rfl) (fun _ hj => Or.inl ⟨hj, rfl⟩) hmono
      (h.wrote.wrote hent hc)
  case storeLogin s u =>
    rcases ha with ha | ⟨s', c, rfl, ha, hk⟩
    · cases ha
    · cases ha
      have hname : ((sh.clients s).login u).name = u :=
        Entry.name_setName (hn.terminated s) hpre.1
      refine h.setEntry rfl rfl (fun _ => Or.inr ⟨c, hk, s, ?_⟩)
        (fun e he => List.mem_append_left _ he) fun d m bytes hm hkind => ?_
      · rw [hname]
        exact List.mem_append_right _ (List.mem_singleton.mpr rfl)
      · rcases List.mem_append.mp hm with hm | hm
        · exact (h.wrote d m bytes hm hkind).mono fun e he => List.mem_append_left _ he
        · cases List.mem_singleton.mp hm
  case clear s => exact h.setEntry rfl rfl (fun he => by cases he) (fun _ he => he) h.wrote
  case setStatus s m status =>
    exact h.setEntry rfl rfl (fun he => Or.inl ⟨he, rfl⟩) (fun _ he => he) h.wrote
  case saveHistory =>
    exact h.entries rfl (fun _ => rfl) (fun _ => rfl) (fun _ hj => Or.inl ⟨hj, rfl⟩)
      (fun _ he => he) h.wrote
  all_goals rcases ha with ha | ⟨s', c, -, ha, -⟩ <;> cases ha

/-! ### Closing a descriptor -/

theorem conn_of_close {fd c : Nat} {t : Tid} {fd' : Nat} (h : (sh.close t fd').conn fd = some c) :
    sh.conn fd = some c := by
  unfold Shared.close at h
  split at h
  · exact h
  · by_cases hfd : fd = fd'
    · subst hfd
      simp [Shared.note] at h
    · simpa only [Shared.note, Function.update_of_ne hfd] using h

theorem clients_close (sh : Shared) (t : Tid) (fd : Nat) : (sh.close t fd).clients = sh.clients := by
  unfold Shared.close
  split <;> rfl

/-- Threads only add to the trace. -/
theorem Change.log_mono (h : Change t sh a sh') : ∀ e ∈ sh.log, e ∈ sh'.log := by
  have hclose : ∀ fd, ∀ e ∈ sh.log, e ∈ (sh.close t fd).log := by
    intro fd e he
    unfold Shared.close
    split
    · exact he
    · exact List.mem_append_left _ he
  intro e he
  cases h
  case closeFd fd => exact hclose fd e he
  case closeSocket s => exact hclose _ e he
  case start => exact List.mem_append_left _ he
  case write => exact List.mem_append_left _ he
  case storeLogin => exact List.mem_append_left _ he
  all_goals exact he

theorem Bound.close (h : Bound sh g k) (t : Tid) (fd : Nat)
    (hp : ∀ fd c, g'.pending = some (fd, c) → g.pending = some (fd, c))
    (hg : ∀ s fd c, g' = .filled s fd c ∨ g' = .abandoned s fd c → g = g')
    (hk : ∀ s c, k' (s, c) = .serving → k (s, c) = .serving) : Bound (sh.close t fd) g' k' := by
  have hlog : ∀ e ∈ sh.log, e ∈ (sh.close t fd).log := (Change.closeFd fd).log_mono
  constructor
  · intro s c hs
    rw [clients_close]
    obtain ⟨h1, h2⟩ := h.serving s c (hk s c hs)
    exact ⟨h1, fun c' hc' => h2 c' (conn_of_close hc')⟩
  · intro s c c' hs hs'
    exact h.alone s c c' (hk s c hs) (hk s c' hs')
  · intro fd' c hg' c' hc'
    exact h.pending fd' c (hp fd' c hg') c' (conn_of_close hc')
  · intro s fd' c hg'
    rw [clients_close]
    exact h.filled s fd' c ((hg s fd' c (Or.inl hg')).trans hg')
  · intro s fd' c hg'
    rw [clients_close]
    obtain ⟨h1, h2, h3⟩ := h.reserved s fd' c (by rwa [hg s fd' c hg'])
    exact ⟨h1, h2, fun c' hc' => h3 c' (hk s c' hc')⟩
  · intro s ha
    rw [clients_close] at ha ⊢
    obtain ⟨h1, h2⟩ := h.active s ha
    exact ⟨h1, fun c hc => (h2 c (conn_of_close hc)).mono hlog⟩
  · intro c m bytes hm hkind
    have hm : .wrote c m bytes ∈ sh.log := by
      unfold Shared.close at hm
      split at hm
      · exact hm
      · rcases List.mem_append.mp hm with hm | hm
        · exact hm
        · cases List.mem_singleton.mp hm
    exact (h.wrote c m bytes hm hkind).mono hlog

/-- A new connection gets a descriptor that no slot in use refers to. -/
theorem Bound.accept {fd : Nat} (h : Bound sh .idle k)
    (hfd : ∀ s, (sh.clients s).inUse = true → (sh.clients s).sockfd ≠ fd) :
    Bound (sh.accept fd) (.taken fd sh.accepted) k := by
  have hconn : ∀ fd', fd' ≠ fd → (sh.accept fd).conn fd' = sh.conn fd' :=
    fun fd' hne => Function.update_of_ne hne ..
  refine ⟨fun s c hs => ?_, h.alone, fun fd' c hg c' hc' => ?_, fun s fd' c hg => (by cases hg),
    fun s fd' c hg => ?_, fun s ha => ?_, h.wrote⟩
  · obtain ⟨h1, h2⟩ := h.serving s c hs
    refine ⟨h1, fun c' hc' => h2 c' ?_⟩
    exact hconn _ (hfd s h1) ▸ hc'
  · obtain ⟨rfl, rfl⟩ := Prod.mk.inj (Option.some.inj hg)
    have hself : (sh.accept fd).conn fd = some sh.accepted := Function.update_self ..
    rw [hself] at hc'
    exact (Option.some.inj hc').symm
  · rcases hg with hg | hg <;> cases hg
  · obtain ⟨h1, h2⟩ := h.active s ha
    refine ⟨h1, fun c hc => h2 c ?_⟩
    exact hconn _ (hfd s h1) ▸ hc

/-- A free slot is filled. -/
theorem Bound.fill {s : Slot} {fd c : Nat} (h : Bound sh (.taken fd c) k)
    (hfree : (sh.clients s).inUse = false) : Bound (sh.fill s fd) (.filled s fd c) k := by
  have hother : ∀ j, j ≠ s → (sh.fill s fd).clients j = sh.clients j :=
    fun j hj => clients_setClient_of_ne sh hj _
  have hself : (sh.fill s fd).clients s =
      { (sh.clients s).clear.setStatus statusAvailable with sockfd := fd, inUse := true } :=
    clients_setClient_self ..
  have hused : ∀ j, (sh.clients j).inUse = true → j ≠ s := by
    rintro j hj rfl
    rw [hfree] at hj
    cases hj
  have hnot : ∀ c', k (s, c') ≠ .serving := fun c' hc' => hused s (h.serving s c' hc').1 rfl
  refine ⟨fun j c' hj => ?_, h.alone, h.pending, fun j fd' c' hg => ?_, fun j fd' c' hg => ?_,
    fun j hj => ?_, h.wrote⟩
  · rw [hother j (hused j (h.serving j c' hj).1)]
    exact h.serving j c' hj
  · cases hg
    rw [hself]
  · rcases hg with hg | hg
    · cases hg
      rw [hself]
      exact ⟨rfl, rfl, hnot⟩
    · cases hg
  · by_cases hjs : j = s
    · rw [hjs, hself] at hj
      cases hj
    · rw [hother j hjs] at hj ⊢
      exact h.active j hj

/-- The thread of a filled slot starts. -/
theorem Bound.start {s : Slot} {fd c : Nat} (h : Bound sh (.filled s fd c) k) :
    Bound (sh.note (.started s c)) .idle (Function.update k (s, c) .serving) := by
  obtain ⟨huse, -, hnot⟩ := h.reserved s fd c (Or.inl rfl)
  have hsock := h.filled s fd c rfl
  have hk : ∀ j c', Function.update k (s, c) .serving (j, c') = .serving →
      j = s ∧ c' = c ∨ k (j, c') = .serving ∧ j ≠ s := by
    intro j c' hj
    by_cases hjc : (j, c') = (s, c)
    · obtain ⟨rfl, rfl⟩ := Prod.mk.inj hjc
      exact Or.inl ⟨rfl, rfl⟩
    · rw [Function.update_of_ne hjc] at hj
      refine Or.inr ⟨hj, ?_⟩
      rintro rfl
      exact hnot c' hj
  have hmono : ∀ e ∈ sh.log, e ∈ (sh.note (.started s c)).log :=
    fun e he => List.mem_append_left _ he
  refine ⟨fun j c' hj => ?_, fun j c₁ c₂ h1 h2 => ?_, fun fd' c' hg => (by cases hg),
    fun j fd' c' hg => (by cases hg), fun j fd' c' hg => ?_, fun j hj => ?_, fun d m bytes hm hm' => ?_⟩
  · rcases hk j c' hj with ⟨rfl, rfl⟩ | ⟨hj, -⟩
    · refine ⟨huse, fun c'' hc'' => h.pending fd c' rfl c'' ?_⟩
      rw [← hsock]
      exact hc''
    · exact h.serving j c' hj
  · rcases hk j c₁ h1 with ⟨hj, rfl⟩ | ⟨hs, hj⟩ <;> rcases hk j c₂ h2 with ⟨hj', rfl⟩ | ⟨hs', hj'⟩
    · rfl
    · exact absurd hj hj'
    · exact absurd hj' hj
    · exact h.alone j c₁ c₂ hs hs'
  · rcases hg with hg | hg <;> cases hg
  · obtain ⟨h1, h2⟩ := h.active j hj
    exact ⟨h1, fun d hd => (h2 d hd).mono hmono⟩
  · rcases List.mem_append.mp hm with hm | hm
    · exact (h.wrote d m bytes hm hm').mono hmono
    · cases List.mem_singleton.mp hm

/-- A slot without a session of its own that is served or logged in is freed. -/
theorem Bound.free (h : Bound sh g k) {s : Slot} {cl : Client}
    (hg : ∀ j fd c, g' = .filled j fd c ∨ g' = .abandoned j fd c → g = g' ∧ j ≠ s)
    (hp : g'.pending = g.pending) (hk : ∀ j c, k' (j, c) = .serving → k (j, c) = .serving ∧ j ≠ s)
    (hcl : cl.active = false) : Bound (sh.setClient s cl) g' k' := by
  have hother : ∀ j, j ≠ s → (sh.setClient s cl).clients j = sh.clients j :=
    fun j hj => clients_setClient_of_ne sh hj cl
  refine ⟨fun j c hj => ?_, fun j c c' hc hc' => ?_, fun fd c hpend => ?_, fun j fd c hj => ?_,
    fun j fd c hj => ?_, fun j hj => ?_, h.wrote⟩
  · obtain ⟨hj, hne⟩ := hk j c hj
    rw [hother j hne]
    exact h.serving j c hj
  · exact h.alone j c c' (hk j c hc).1 (hk j c' hc').1
  · exact h.pending fd c (hp ▸ hpend)
  · obtain ⟨rfl, hne⟩ := hg j fd c (Or.inl hj)
    rw [hother j hne]
    exact h.filled j fd c hj
  · obtain ⟨rfl, hne⟩ := hg j fd c hj
    rw [hother j hne]
    obtain ⟨h1, h2, h3⟩ := h.reserved j fd c hj
    exact ⟨h1, h2, fun c' hc' => h3 c' (hk j c' hc').1⟩
  · by_cases hjs : j = s
    · rw [hjs, clients_setClient_self, hcl] at hj
      cases hj
    · rw [hother j hjs] at hj ⊢
      exact h.active j hj

/-- Every move keeps the table bound. -/
theorem Bound.move {l : Tid × Input} (h : Bound st.shared g k) (hord : InOrder st)
    (hent : ∀ a rest, st.todo l.1 = .act a :: rest → Entitled st.shared a)
    (hok : KeepsTargets st l) (hm : Move st l g k sh g' k') : Bound sh g' k' := by
  cases hm with
  | stay => exact h
  | @work a rest _ _ _ htodo hc ha =>
    have hout := hord.outlined l.1
    rw [htodo] at hout
    exact h.work hord.names hc ha (hout.1 a rfl) (hent a rest htodo)
  | @accept fd _ hl htodo hfd hfree =>
    apply h.accept
    intro s hs
    exact (hok.accept fd hl htodo hfd).2 s (Or.inl hs)
  | refuse fd c =>
    exact ⟨h.serving, h.alone, h.pending, fun _ _ _ hg => (by cases hg),
      fun _ _ _ hg => (by rcases hg with hg | hg <;> cases hg), h.active, h.wrote⟩
  | fill hl htodo hfree =>
    apply h.fill
    simpa using firstSlot_eq_some hfree
  | start s fd c => exact h.start
  | giveUp s fd c =>
    refine ⟨h.serving, h.alone, h.pending, fun _ _ _ hg => (by cases hg), fun j fd' c' hg => ?_,
      h.active, h.wrote⟩
    rcases hg with hg | hg
    · cases hg
    · cases hg
      exact h.reserved s fd c (Or.inl rfl)
  | abandon s fd c =>
    obtain ⟨-, hinactive, hnot⟩ := h.reserved s fd c (Or.inr rfl)
    refine h.free (fun j fd' c' hg => ?_) rfl (fun j c' hj => ⟨hj, ?_⟩) hinactive
    · rcases hg with hg | hg <;> cases hg
    · rintro rfl
      exact hnot c' hj
  | closeFd fd c =>
    exact h.close _ fd (fun _ _ hg => by cases hg)
      (fun _ _ _ hg => by rcases hg with hg | hg <;> cases hg) fun _ _ hs => hs
  | @leave s c _ _ hk =>
    refine h.free (fun j fd' c' hg => ⟨rfl, ?_⟩) rfl (fun j c' hj => ?_) rfl
    · rintro rfl
      exact (h.reserved j fd' c' hg).2.2 c hk
    · have hjc : (j, c') ≠ (s, c) := by
        intro he
        rw [he, Function.update_self] at hj
        cases hj
      rw [Function.update_of_ne hjc] at hj
      refine ⟨hj, ?_⟩
      rintro rfl
      exact hjc (by rw [h.alone j c' c hj hk])
  | @close s c _ _ htodo hk =>
    refine h.close _ _ (fun _ _ hg => hg) (fun _ _ _ _ => rfl) fun j c' hj => ?_
    by_cases hjc : (j, c') = (s, c)
    · rw [hjc, Function.update_self] at hj
      cases hj
    · rwa [Function.update_of_ne hjc] at hj

/-- Under the condition, what a thread still has to do stays entitled. -/
theorem Entitled.move {l : Tid × Input} (h : Entitled st.shared b) (hb : .act b ∈ st.todo t)
    (hok : KeepsTargets st l) (hm : Move st l g k sh g' k')
    (hlog : ∀ e ∈ st.shared.log, e ∈ sh.log) : Entitled sh b := by
  have hnarrow : (∀ s, (sh.clients s).sockfd = (st.shared.clients s).sockfd) →
      (∀ fd c, sh.conn fd = some c → st.shared.conn fd = some c) → Entitled sh b := by
    intro hfd hconn
    refine h.mono hlog (fun s m _ _ c hc => ?_) fun fd m rest _ _ c hc => hconn fd c hc
    rw [hfd] at hc
    exact hconn _ c hc
  have hcalm : Calm st.shared sh → Entitled sh b := by
    intro hc
    exact hnarrow hc.sockfd fun fd c h => hc.conn ▸ h
  cases hm with
  | stay => exact h
  | work htodo hc ha =>
    apply hcalm (hc.calm ?_)
    rcases ha with ha | ⟨s, c, -, ha, -⟩
    · exact Or.inl ha
    · exact Or.inr ⟨s, ha⟩
  | @accept fd _ hl htodo hfd hfree =>
    obtain ⟨hw, hs⟩ := hok.accept fd hl htodo hfd
    refine h.mono hlog (fun s m he hkind c hc => ?_) fun fd' m rest he hkind c hc => ?_
    · have hne : (st.shared.clients s).sockfd ≠ fd := hs s (Or.inr ⟨t, m, he ▸ hb, hkind⟩)
      simpa only [Shared.accept, Function.update_of_ne hne] using hc
    · have hne : fd' ≠ fd := by
        rintro rfl
        exact hw ⟨t, m, rest, he ▸ hb, hkind⟩
      simpa only [Shared.accept, Function.update_of_ne hne] using hc
  | refuse => exact h
  | @fill s fd c _ hl htodo hfree =>
    have hs := hok.fill fd c _ s hl htodo hfree
    refine h.mono hlog (fun s' m he hkind c' hc => ?_) fun fd' m rest he hkind c hc => hc
    have hne : s' ≠ s := by
      rintro rfl
      exact hs ⟨t, m, he ▸ hb, hkind⟩
    rwa [Shared.fill, clients_setClient_of_ne _ hne] at hc
  | start => exact hnarrow (fun _ => rfl) fun _ _ hc => hc
  | giveUp => exact h
  | abandon s => exact hcalm (calm_setClient _ s rfl)
  | closeFd fd =>
    exact hnarrow (fun s => by rw [clients_close]) fun _ _ hc => conn_of_close hc
  | @leave s => exact hcalm (calm_setClient _ s rfl)
  | close => exact hnarrow (fun s => by rw [clients_close]) fun _ _ hc => conn_of_close hc

/-- The invariant of the runs that keep targets. -/
structure Guarded (st : State) : Prop where
  order : InOrder st
  bound : ∃ g k, At st g k ∧ Bound st.shared g k
  entitled : ∀ t a, .act a ∈ st.todo t → Entitled st.shared a

theorem guarded_init (history : History) : Guarded (init history) := by
  refine ⟨inOrder_init history, ⟨_, _, at_init history, ?_⟩, fun t a ha => ?_⟩
  · constructor <;> simp [init, Shared.init, Client.zero, Entry.zero, Stage.pending, StayPrivate]
  · cases t with
    | main =>
      obtain rfl := Stmt.act.inj (List.mem_singleton.mp ha)
      trivial
    | client s c => cases ha

theorem Guarded.step {l : Tid × Input} (h : Guarded st) (hok : KeepsTargets st l)
    (hs : step st l = some st') : Guarded st' := by
  obtain ⟨g, k, hat, hbound⟩ := h.bound
  obtain ⟨g', k', hm, hat'⟩ := hat.step hs
  have hlog : ∀ e ∈ st.shared.log, e ∈ st'.shared.log := by
    rcases Tasks.step_cases hs with ⟨_, _, _, _, rfl⟩ | ⟨_, _, _, rfl⟩ | ⟨a, rest, out, _, he, rfl⟩
    · exact fun _ he => he
    · exact fun _ he => he
    · exact (change_of_exec he).log_mono
  have hhead : ∀ a rest, st.todo l.1 = .act a :: rest → Entitled st.shared a := by
    intro a rest htodo
    exact h.entitled l.1 a (by rw [htodo]; exact List.mem_cons_self)
  refine ⟨h.order.step hs, ⟨g', k', hat', hbound.move h.order hhead hok hm⟩, fun t a ha => ?_⟩
  rcases Tasks.mem_todo hs ha with hold | ⟨b, rest, out, htodo, he, hsh, hnew⟩
  · exact (h.entitled t a hold).move hold hok hm hlog
  · rw [hsh]
    rcases hnew with ⟨-, hnew⟩ | ⟨p, hp, hnew⟩
    · exact entitled_next hbound he (hhead b rest htodo) a hnew
    · obtain ⟨s, fd, c, -, -, rfl, -, -⟩ := spawn_eq_some he hp
      simp [clientThread] at hnew
      rcases hnew with rfl | rfl | rfl <;> trivial

/-- Along every run that keeps the targets of private messages, a private message is only written
to sockets of sessions logged in under the name of its receiver. -/
theorem private_stay_private {history : History} {ls : List (Tid × Input)}
    (hok : Meets step KeepsTargets (init history) ls)
    (hrun : run step (init history) ls = some st) : StayPrivate st.shared := by
  have h : Guarded st :=
    run_invariant_of_meets (I := Guarded) (fun _ _ _ hok h hs => h.step hok hs) hok
      (guarded_init history) hrun
  obtain ⟨g, k, -, hbound⟩ := h.bound
  exact hbound.wrote

/-! ## Runs -/

theorem keepsTargets_client (s : Slot) (c : Nat) (i : Input) (st : State) :
    KeepsTargets st (.client s c, i) :=
  ⟨fun _ hl => (by cases hl), fun _ _ _ _ hl => (by cases hl)⟩

theorem keepsTargets_of_head {st : State} {i : Input} {x : Stmt Lock Act} {rest : Code}
    (h : st.todo .main = x :: rest) (ha : x ≠ .act .accept) (hadm : ∀ fd c, x ≠ .act (.allot fd c)) :
    KeepsTargets st (.main, i) := by
  constructor
  · intro fd _ htodo
    rw [h] at htodo
    exact absurd (List.cons.inj htodo).1 ha
  · intro fd c rest' s _ htodo
    rw [h] at htodo
    exact absurd (List.cons.inj htodo).1 (hadm fd c)

/-- While all work is accepting, no private message is on its way. -/
theorem no_targets (h : ∀ t a, .act a ∈ st.todo t → a.role = .accepting) :
    (∀ s, ¬ SendsTo st s) ∧ ∀ fd, ¬ WritesTo st fd := by
  constructor
  · rintro s ⟨t, m, hm, -⟩
    cases h t _ hm
  · rintro fd ⟨t, m, rest, hm, -⟩
    cases h t _ hm

/-- The thread whose login an event records. -/
def Event.loggedInTid : Event → Option Tid
  | .loggedIn t _ => some t
  | _ => none

/-- A private message written to a connection whose thread never logged in. -/
theorem not_stayPrivate {c : Nat} {m : Message} {bytes : List UInt8} {tids : List Tid}
    (hlast : sh.log.getLast? = some (.wrote c m bytes)) (hkind : m.kind = some .priv)
    (htids : sh.log.filterMap Event.loggedInTid = tids) (hno : ∀ s, .client s c ∉ tids) :
    ¬ StayPrivate sh := by
  intro h
  obtain ⟨s, hs⟩ := h c m bytes (List.mem_of_getLast? hlast) hkind
  apply hno s
  rw [← htids]
  exact List.mem_filterMap.mpr ⟨_, hs, rfl⟩

/-- A private message of the user `a`. -/
def privateTo (name : String) : Message :=
  makeMessage 0 .priv (ascii "a") (ascii name) (ascii "hi")

/-- A user logs in and sends itself a message, which is delivered. -/
theorem private_stay_private_self : ∃ st, run step (init fun _ => none)
    (connect 4 ++ ((.client 0 0, reads (loginAs "a")) :: (works 0 0 12 ++
      ((.client 0 0, reads (privateTo "a")) :: works 0 0 8)))) = some st ∧
      st.shared.log.getLast? = some (.wrote 0 (privateTo "a") (packMessage (privateTo "a"))) ∧
      StayPrivate st.shared := by
  have hlogin : WellFormed (loginAs "a") := wellFormed_makeMessage ..
  have hpriv : WellFormed (privateTo "a") := wellFormed_makeMessage ..
  have hconnect : Meets step KeepsTargets (init fun _ => none) (connect 4) := by
    refine ⟨?_, fun s₁ h₁ => ⟨?_, fun s₂ h₂ => ⟨?_, fun s₃ h₃ => ⟨?_, fun s₄ h₄ => ⟨?_,
      fun _ _ => trivial⟩⟩⟩⟩⟩
    · obtain ⟨hs, hw⟩ := @no_targets (init fun _ => none) fun t a ha => by
        cases t with
        | main => cases List.mem_singleton.mp ha; rfl
        | client s c => cases ha
      refine ⟨fun fd _ _ _ => ⟨hw fd, fun s hs' => ?_⟩, fun _ _ _ _ _ h => (by cases h)⟩
      rcases hs' with hs' | hs'
      · cases hs'
      · exact absurd hs' (hs s)
    · obtain rfl := Option.some.inj h₁
      exact keepsTargets_of_head rfl (by simp) (by simp)
    · obtain rfl := Option.some.inj h₁
      obtain rfl := Option.some.inj h₂
      refine ⟨fun _ _ h => (by cases h), fun fd c rest s _ _ _ => ?_⟩
      refine (no_targets fun t a ha => ?_).1 s
      cases t with
      | main =>
        rcases List.mem_cons.mp ha with ha | ha
        · cases ha
          rfl
        · cases List.mem_singleton.mp ha
          rfl
      | client s c => cases ha
    · obtain rfl := Option.some.inj h₁
      obtain rfl := Option.some.inj h₂
      obtain rfl := Option.some.inj h₃
      exact keepsTargets_of_head rfl (by simp) (by simp)
    · obtain rfl := Option.some.inj h₁
      obtain rfl := Option.some.inj h₂
      obtain rfl := Option.some.inj h₃
      obtain rfl := Option.some.inj h₄
      exact keepsTargets_of_head rfl (by simp) (by simp)
  have hclient : ∀ l ∈ (.client 0 0, reads (loginAs "a")) :: (works 0 0 12 ++
      ((.client 0 0, reads (privateTo "a")) :: works 0 0 8)), ∀ st, KeepsTargets st l := by
    intro l hl st
    have hmain : l.1 = .client 0 0 := by
      simp only [List.mem_cons, List.mem_append, works] at hl
      rcases hl with rfl | hl | rfl | hl
      · rfl
      · rw [List.eq_of_mem_replicate hl]
      · rfl
      · rw [List.eq_of_mem_replicate hl]
    obtain ⟨t, i⟩ := l
    obtain rfl : t = .client 0 0 := hmain
    exact keepsTargets_client 0 0 i st
  have hrun : run step (init fun _ => none) (connect 4 ++
      ((.client 0 0, reads (loginAs "a")) :: (works 0 0 12 ++
        ((.client 0 0, reads (privateTo "a")) :: works 0 0 8)))) = some _ :=
    run_trans rfl (run_cons_iff.mpr
      ⟨_, step_recv hlogin (by simp [loginAs]) rfl rfl, run_trans rfl (run_cons_iff.mpr
        ⟨_, step_recv hpriv (by simp [privateTo]) rfl rfl, rfl⟩)⟩)
  exact ⟨_, hrun, rfl,
    private_stay_private (hconnect.append rfl (meets_of_forall hclient _)) hrun⟩

/-- Without the condition, the session that takes over the slot of a receiver gets the message
that was looked up for the receiver. -/
theorem private_to_successor : ∃ ls st, run step (init fun _ => none) ls = some st ∧
    ¬ StayPrivate st.shared := by
  have hlogin : ∀ name, WellFormed (loginAs name) := fun _ => wellFormed_makeMessage ..
  have hpriv : ∀ name, WellFormed (privateTo name) := fun _ => wellFormed_makeMessage ..
  refine ⟨connect 4 ++ (connect 5 ++ ((.client 0 0, reads (loginAs "a")) :: (works 0 0 12 ++
    ((.client 1 1, reads (loginAs "b")) :: (works 1 1 12 ++
      ((.client 0 0, reads (privateTo "b")) :: (works 0 0 5 ++ ((.client 1 1, noInput) ::
        (works 1 1 3 ++ (connect 6 ++ works 0 0 3)))))))))), _,
    run_trans rfl (run_trans rfl (run_cons_iff.mpr
      ⟨_, step_recv (hlogin _) (by simp [loginAs]) rfl rfl, run_trans rfl (run_cons_iff.mpr
        ⟨_, step_recv (hlogin _) (by simp [loginAs]) rfl rfl, run_trans rfl (run_cons_iff.mpr
          ⟨_, step_recv (hpriv _) (by simp [privateTo]) rfl rfl, run_trans rfl (run_cons_iff.mpr
            ⟨_, step_recv_end rfl, run_trans rfl (run_trans rfl rfl)⟩)⟩)⟩)⟩)), ?_⟩
  refine @not_stayPrivate _ 2 (privateTo "b") _ [.client 0 0, .client 1 1] rfl
    (by simp [privateTo]) rfl ?_
  simp

end ChatSystem.Thread
