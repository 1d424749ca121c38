import ChatSystem.Fork.Links

/-!
# The slot table of the fork server

Every slot of the table is free or belongs to a child that has not been waited for, and
names are held once, unless a login is completed, or a pid stored, behind the handler's
back.
-/

namespace ChatSystem.Fork

open Bytes Tasks Transition

/-- A child was created and has been waited for. -/
def Shared.Reaped (sh : Shared) (k : Child) : Prop :=
  .forked k ∈ sh.log ∧ sh.proc k.pid ≠ some (.running k.conn) ∧
    sh.proc k.pid ≠ some (.zombie k.conn)

/-- Active slots have a child and a name of their own; the slot of a child that has been
waited for is free, and no search for a name finds it. -/
structure SlotsOk (sh : Shared) : Prop where
  running : ∀ s, (sh.clients s).active = true → 0 < (sh.clients s).pid ∧ (sh.clients s).name ≠ []
  unique : ∀ i j, (sh.clients i).active = true → (sh.clients j).active = true →
    (sh.clients i).name = (sh.clients j).name → i = j
  reaped : ∀ k, sh.Reaped k → sh.connOf k.slot = some k.conn →
    sh.Free k.slot ∧ ∀ u, sh.findSlotByUsername u ≠ some k.slot

/-- The stores that come too late behind a run of the handler: a login completed in a slot
without a pid, and the pid of a child that has been waited for. -/
def timely (a : Act) (sh : Shared) : Bool :=
  match a with
  | .activate s _ => (sh.clients s).pid ≠ 0
  | .storePid k _ => (sh.proc k.pid).isSome
  | _ => true

/-- No store of this step comes too late. -/
def OnTime (st : State) (l : Tid × Input) : Prop :=
  ∀ a rest, st.todo l.1 = .act a :: rest → timely a st.shared = true

/-! ## What a login knows between its statements -/

/-- A valid name that no other slot is active under. -/
structure Shared.Unused (sh : Shared) (s : Slot) (u : List UInt8) : Prop where
  valid : ValidName u
  other : ∀ j, j ≠ s → (sh.clients j).active = true → (sh.clients j).name ≠ u

/-- The assertion in front of an act of a login. -/
def Login : Act → Shared → Prop
  | .checkName _ u _, _ => ValidName u
  | .validate s u _, sh => sh.Unused s u
  | .storeName s u, sh => sh.Unused s u
  | .activate s u, sh => sh.Unused s u ∧ ((sh.clients s).pid = 0 ∨ (sh.clients s).name = u)
  | _, _ => True

/-- Names are held once, by slots with a pid, and a pid is that of a child that has not been
waited for. -/
structure Sound (sh : Shared) : Prop where
  names : NamesOk sh.table
  running : ∀ s, (sh.clients s).active = true → (sh.clients s).pid ≠ 0
  holder : ∀ s, (sh.clients s).pid ≠ 0 → ∃ c, sh.connOf s = some c ∧
    (sh.proc (sh.clients s).pid = some (.running c) ∨
      sh.proc (sh.clients s).pid = some (.zombie c))

variable {t : Tid} {a b : Act} {i : Input} {sh sh' : Shared} {out : Outcome Empty Tid Act Shared}

theorem Async.unused (h : Async sh sh') {s : Slot} {u : List UInt8} (hs : sh.Unused s u) :
    sh'.Unused s u := by
  refine ⟨hs.valid, fun j hj hact => ?_⟩
  rcases h.client j with he | he
  · rw [he] at hact ⊢
    exact hs.other j hj hact
  · rw [he] at hact
    cases hact

/-- No assertion of a login is lost to the other processes. -/
theorem Async.login (h : Async sh sh') (hb : Login b sh) : Login b sh' := by
  cases b with
  | checkName s u p => exact hb
  | validate s u p => exact h.unused hb
  | storeName s u => exact h.unused hb
  | activate s u =>
    refine ⟨h.unused hb.1, ?_⟩
    rcases h.client s with he | he <;> rw [he]
    · exact hb.2
    · exact Or.inl rfl
  | _ => trivial

/-! ## The invariant -/

theorem table_setClient (sh : Shared) (s : Slot) (c : Client) :
    (sh.setClient s c).table = Function.update sh.table s c.toEntry := by
  ext1 j
  by_cases hj : j = s
  · subst hj
    rw [Function.update_self, Shared.table, clients_setClient_self]
  · rw [Function.update_of_ne hj, Shared.table, clients_setClient_of_ne sh hj]
    rfl

theorem table_setClient_same (sh : Shared) {s : Slot} {c : Client}
    (hc : c.toEntry = (sh.clients s).toEntry) : (sh.setClient s c).table = sh.table := by
  rw [table_setClient, hc]
  exact Function.update_eq_self s sh.table

/-- What the invariant looks at. -/
theorem Sound.congr (hI : Sound sh) (htable : sh'.table = sh.table)
    (hpid : ∀ s, (sh'.clients s).pid = (sh.clients s).pid)
    (hends : ∀ s, (sh.clients s).pid ≠ 0 → (sh'.clients s).fromChild = (sh.clients s).fromChild)
    (hfd : ∀ n c, sh.fd n = some (.fromRead c) → sh'.fd n = some (.fromRead c))
    (hproc : sh'.proc = sh.proc) : Sound sh' where
  names := by
    rw [htable]
    exact hI.names
  running s hs := by
    rw [hpid]
    apply hI.running
    have := congrArg Entry.active (congrFun htable s)
    exact this.symm.trans hs
  holder s hs := by
    rw [hpid] at hs
    obtain ⟨c, hc, hp⟩ := hI.holder s hs
    refine ⟨c, ?_, ?_⟩
    · rw [connOf_eq_some, hends s hs]
      exact hfd _ _ (connOf_eq_some.mp hc)
    · rw [hpid, hproc]
      exact hp

/-- Login data may change in a slot with a child. -/
theorem Sound.setEntry (hI : Sound sh) {s : Slot} {e : Entry} (hadm : Admissible sh.table s e)
    (hact : e.active = true → (sh.clients s).pid ≠ 0) : Sound (sh.setEntry s e) := by
  have hcl : ∀ j, ((sh.setEntry s e).clients j).pid = (sh.clients j).pid ∧
      ((sh.setEntry s e).clients j).fromChild = (sh.clients j).fromChild := by
    intro j
    by_cases hj : j = s
    · subst hj
      rw [Shared.setEntry, clients_setClient_self]
      exact ⟨rfl, rfl⟩
    · rw [Shared.setEntry, clients_setClient_of_ne sh hj]
      exact ⟨rfl, rfl⟩
  refine ⟨?_, fun j hj => ?_, fun j hj => ?_⟩
  · rw [Shared.setEntry, table_setClient]
    exact hI.names.update hadm
  · rw [(hcl j).1]
    by_cases hjs : j = s
    · subst hjs
      rw [Shared.setEntry, clients_setClient_self] at hj
      exact hact hj
    · rw [Shared.setEntry, clients_setClient_of_ne sh hjs] at hj
      exact hI.running j hj
  · rw [(hcl j).1] at hj ⊢
    obtain ⟨c, hc, hp⟩ := hI.holder j hj
    refine ⟨c, ?_, hp⟩
    rw [connOf_eq_some, (hcl j).2]
    exact connOf_eq_some.mp hc

/-- Clearing a slot. -/
theorem Sound.release (hI : Sound sh) (s : Slot) : Sound (sh.release s) := by
  have hself : (sh.release s).clients s =
      { sh.clients s with toEntry := (sh.clients s).clear, pid := 0 } :=
    clients_setClient_self sh s _
  have hother : ∀ j, j ≠ s → (sh.release s).clients j = sh.clients j :=
    fun j hj => clients_setClient_of_ne sh hj _
  refine ⟨?_, fun j hj => ?_, fun j hj => ?_⟩
  · change NamesOk (Shared.table (sh.setClient s _))
    rw [table_setClient]
    exact hI.names.update (admissible_of_inactive (Entry.terminated_zero_name _) rfl)
  · by_cases hjs : j = s
    · subst hjs
      rw [hself] at hj
      cases hj
    · rw [hother j hjs] at hj ⊢
      exact hI.running j hj
  · by_cases hjs : j = s
    · subst hjs
      rw [hself] at hj
      exact absurd rfl hj
    · rw [hother j hjs] at hj ⊢
      obtain ⟨c, hc, hp⟩ := hI.holder j hj
      refine ⟨c, ?_, hp⟩
      rw [connOf_eq_some, hother j hjs]
      exact connOf_eq_some.mp hc

/-- Two slots never carry the same pid. -/
theorem Sound.pid_inj (hI : Sound sh) (hL : Linked sh) {i j : Slot}
    (hi : (sh.clients i).pid ≠ 0) (he : (sh.clients i).pid = (sh.clients j).pid) : i = j := by
  obtain ⟨c, hc, hp⟩ := hI.holder i hi
  obtain ⟨c', hc', hp'⟩ := hI.holder j (he ▸ hi)
  obtain ⟨d, hd, hk, -⟩ := hL.holder i hi
  obtain ⟨d', hd', hk', -⟩ := hL.holder j (he ▸ hi)
  obtain rfl := Option.some.inj (hc.symm.trans hd)
  obtain rfl := Option.some.inj (hc'.symm.trans hd')
  rw [← he] at hp'
  have hcc : c = c' := by
    rcases hp with hp | hp <;> rcases hp' with hp' | hp' <;> rw [hp] at hp' <;> cases hp' <;> rfl
  exact congrArg Child.slot (hL.once _ _ hk hk' hcc)

/-- The handler waits for a child and clears its slot, if one carries its pid. -/
theorem Sound.reap (hI : Sound sh) (hL : Linked sh) (pid : Nat) : Sound (sh.reap pid) := by
  -- without the slots of the child that is waited for, the process table may shrink
  have hdrop : ∀ a : Shared, Sound a → (∀ s, (a.clients s).pid ≠ 0 → (a.clients s).pid ≠ pid) →
      Sound { a with proc := Function.update a.proc pid none } := by
    intro a ha hne
    refine ⟨ha.names, ha.running, fun s hs => ?_⟩
    obtain ⟨c', hc, hp⟩ := ha.holder s hs
    refine ⟨c', hc, ?_⟩
    simpa only [Function.update_of_ne (hne s hs)] using hp
  rcases reap_cases sh pid with ⟨hfind, he⟩ | ⟨s, -, hs, he⟩ <;> rw [he]
  · refine hdrop sh hI fun s _ hs => ?_
    have := firstSlot_eq_none hfind s
    simp [hs] at this
  · refine hdrop _ (hI.release s) fun j hj he => ?_
    by_cases hjs : j = s
    · subst hjs
      exact hj (congrArg Client.pid (clients_setClient_self sh j _))
    · have hj' : (sh.release s).clients j = sh.clients j := clients_setClient_of_ne sh hjs _
      rw [hj'] at hj he
      exact hjs (hI.pid_inj hL hj (he.trans hs.symm))

theorem Sound.quiet (hI : Sound sh) (h : Quiet sh sh') : Sound sh' := by
  refine hI.congr ?_ (fun s => ?_) (fun s _ => ?_) (fun n c hn => ?_) h.proc
  · ext1 s
    rw [Shared.table, h.clients]
    rfl
  · rw [h.clients]
  · rw [h.clients]
  · rw [h.fd]
    exact hn

theorem Sound.openTo (hI : Sound sh) {s : Slot} {c : Nat} {p : Nat × Nat} (hp : sh.Fresh p) :
    Sound (sh.openTo s c p) := by
  have hcl : ∀ j, ((sh.openTo s c p).clients j).pid = (sh.clients j).pid ∧
      ((sh.openTo s c p).clients j).fromChild = (sh.clients j).fromChild := by
    intro j
    by_cases hj : j = s
    · subst hj
      rw [Shared.openTo, clients_setClient_self]
      exact ⟨rfl, rfl⟩
    · rw [Shared.openTo, clients_setClient_of_ne _ hj]
      exact ⟨rfl, rfl⟩
  exact hI.congr (table_setClient_same _ rfl) (fun j => (hcl j).1) (fun j _ => (hcl j).2)
    (fun n c' hn => fd_openTo hp hn) rfl

theorem Sound.openFrom (hI : Sound sh) {s : Slot} {c : Nat} {p : Nat × Nat} (hp : sh.Fresh p)
    (hs : (sh.clients s).pid = 0) : Sound (sh.openFrom s c p) := by
  refine hI.congr (table_setClient_same _ rfl) (fun j => ?_) (fun j hj => ?_)
    (fun n c' hn => fd_openFrom hp hn) rfl
  · by_cases hjs : j = s
    · subst hjs
      rw [Shared.openFrom, clients_setClient_self]
    · rw [Shared.openFrom, clients_setClient_of_ne _ hjs]
      rfl
  · have hjs : j ≠ s := by
      rintro rfl
      exact hj hs
    rw [Shared.openFrom, clients_setClient_of_ne _ hjs]
    rfl

/-- A child is created. -/
theorem Sound.start (hI : Sound sh) {k : Child} (hfree : sh.proc k.pid = none) :
    Sound (sh.start k) := by
  refine ⟨hI.names, hI.running, fun j hj => ?_⟩
  obtain ⟨c', hc, hp⟩ := hI.holder j hj
  have hne : (sh.clients j).pid ≠ k.pid := by
    intro he
    rw [he, hfree] at hp
    rcases hp with hp | hp <;> cases hp
  refine ⟨c', hc, ?_⟩
  change Function.update sh.proc k.pid _ (sh.clients j).pid = _ ∨
    Function.update sh.proc k.pid _ (sh.clients j).pid = _
  rw [Function.update_of_ne hne]
  exact hp

/-- The parent stores the pid of a child that has not been waited for. -/
theorem Sound.storePid (hI : Sound sh) {k : Child} {fd : Nat} (hpre : Setup (.storePid k fd) sh)
    (hok : timely (.storePid k fd) sh = true) : Sound (sh.storePid k.slot k.pid) := by
  obtain ⟨-, hfree, hends, hk⟩ := hpre
  have hself : (sh.storePid k.slot k.pid).clients k.slot =
      { sh.clients k.slot with pid := k.pid } := clients_setClient_self sh k.slot _
  have hother : ∀ j, j ≠ k.slot → (sh.storePid k.slot k.pid).clients j = sh.clients j :=
    fun j hj => clients_setClient_of_ne sh hj _
  refine ⟨?_, fun j hj => ?_, fun j hj => ?_⟩
  · have htable : (sh.storePid k.slot k.pid).table = sh.table := table_setClient_same sh rfl
    rw [htable]
    exact hI.names
  · by_cases hjs : j = k.slot
    · subst hjs
      rw [hself] at hj
      exact absurd (hfree.1.symm.trans hj) Bool.false_ne_true
    · rw [hother j hjs] at hj ⊢
      exact hI.running j hj
  · by_cases hjs : j = k.slot
    · subst hjs
      rw [hself]
      refine ⟨k.conn, ?_, ?_⟩
      · rw [connOf_eq_some, hself]
        exact hends.fromRead
      · obtain ⟨r, hr⟩ := Option.isSome_iff_exists.mp hok
        change sh.proc k.pid = _ ∨ sh.proc k.pid = _
        rw [hr, Option.some.injEq, Option.some.injEq]
        exact hk.proc r hr
    · rw [hother j hjs] at hj ⊢
      obtain ⟨c, hc, hp⟩ := hI.holder j hj
      refine ⟨c, ?_, hp⟩
      rw [connOf_eq_some, hother j hjs]
      exact connOf_eq_some.mp hc

/-- A child ends. -/
theorem Sound.exit (hI : Sound sh) {k : Child} (hk : sh.proc k.pid = some (.running k.conn)) :
    Sound (sh.exit k) := by
  refine ⟨hI.names, hI.running, fun s hs => ?_⟩
  obtain ⟨c, hc, hp⟩ := hI.holder s hs
  refine ⟨c, hc, ?_⟩
  change Function.update sh.proc k.pid _ (sh.clients s).pid = _ ∨
    Function.update sh.proc k.pid _ (sh.clients s).pid = _
  by_cases he : (sh.clients s).pid = k.pid
  · rw [he, hk] at hp
    rw [he, Function.update_self]
    rcases hp with hp | hp <;> cases hp
    exact Or.inr rfl
  · rw [Function.update_of_ne he]
    exact hp

/-- A name nobody else uses may stand in a slot. -/
theorem Shared.Unused.admissible {s : Slot} {u : List UInt8} (h : sh.Unused s u) {e : Entry}
    (ht : e.Terminated) (hn : e.active = true → e.name = u) : Admissible sh.table s e := by
  refine ⟨ht, fun ha => ?_, fun ha j hj hact he => ?_⟩
  · rw [hn ha]
    exact h.valid
  · exact h.other j hj hact (he.trans (hn ha))

/-- Every act whose store is not late keeps the invariant. -/
theorem Sound.keeps (hI : Sound sh) (hL : Linked sh) (hc : Change sh a sh') (hset : Setup a sh)
    (hpre : Login a sh) (hok : timely a sh = true) : Sound sh' := by
  cases hc with
  | quiet h => exact hI.quiet h
  | @accept fd hfree =>
    exact hI.congr rfl (fun _ => rfl) (fun _ _ => rfl) (fun n c hn => fd_openFd hn hfree) rfl
  | openTo hp => exact hI.openTo hp
  | @openBoth s fd c p q hp hq =>
    refine (hI.openTo hp).openFrom hq ?_
    exact (congrArg Client.pid (clients_setClient_self _ s _)).trans hset.2.2
  | start hpid hfree => exact hI.start hfree
  | storePid k fd => exact hI.storePid hset hok
  | closeEnds k fd =>
    refine hI.congr rfl (fun _ => rfl) (fun _ _ => rfl) (fun n c hn => ?_) rfl
    have hto := hset.2.toRead
    have hfrom := hset.2.fromWrite
    exact fd_close (fd_close hn hto (by simp)) (fd_close hfrom hto (by simp)) (by simp)
  | closeFd fd =>
    obtain ⟨c', hc'⟩ := hset
    exact hI.congr rfl (fun _ => rfl) (fun _ _ => rfl) (fun n c hn => fd_close hn hc' (by simp)) rfl
  | recv hc hr => exact hI.congr rfl (fun _ => rfl) (fun _ _ => rfl) (fun _ _ hn => hn) rfl
  | drop s => exact hI.release s
  | route s c m => exact hI.congr rfl (fun _ => rfl) (fun _ _ => rfl) (fun _ _ hn => hn) rfl
  | storeName s u =>
    have hpre : sh.Unused s u := hpre
    have hterm := hI.names.terminated s
    exact hI.setEntry (hpre.admissible (Entry.terminated_setName hterm u)
      fun _ => Entry.name_setName hterm hpre.valid) (hI.running s)
  | activate s u =>
    obtain ⟨hu, hname⟩ := hpre
    have hpid : (sh.clients s).pid ≠ 0 := by simpa [timely] using hok
    exact hI.setEntry (hu.admissible (hI.names.terminated s) fun _ => hname.resolve_left hpid)
      fun _ => hpid
  | clear s =>
    refine hI.setEntry (admissible_of_inactive (Entry.terminated_zero_name _) rfl) fun h => ?_
    cases h
  | setStatus s m status =>
    exact hI.setEntry ((hI.names.admissible s).setStatus status) (hI.running s)
  | forward hk => exact hI.congr rfl (fun _ => rfl) (fun _ _ => rfl) (fun _ _ hn => hn) rfl
  | exit hk => exact hI.exit hk
  | reap hpid => exact hI.reap hL _

/-! ## The outline -/

theorem outlined_route (sh sh' : Shared) (s : Slot) (m : Message) :
    Outlined Login sh' (code (sh.route s m)) := by
  unfold Shared.route
  split
  · unfold Shared.login
    split
    · exact outlined_singleton trivial
    · next u p h => exact outlined_singleton (validName_of_scanLogin h)
  · exact outlined_of_trivial (by simp [Shared.logout, Login])
  · unfold Shared.broadcast
    split <;> exact outlined_of_trivial (by simp [Login])
  · unfold Shared.priv
    split <;> exact outlined_singleton trivial
  all_goals exact outlined_of_trivial (by simp [Login])

/-- A name that is not found, or found in the slot itself, is unused. -/
theorem unused_of_search {s : Slot} {u : List UInt8} (hu : ValidName u)
    (hn : NamesOk sh.table) (h : ¬ (sh.findSlotByUsername u).any (· ≠ s) = true) :
    sh.Unused s u := by
  refine ⟨hu, fun j hj hact hname => ?_⟩
  have hholds : (sh.table j).holds u = true := (Entry.holds_iff hu).mpr ⟨hact, hname⟩
  cases hfind : sh.findSlotByUsername u with
  | none =>
    have := findName_eq_none hfind j
    rw [hholds] at this
    cases this
  | some d =>
    have hd : d = s := by
      by_contra hne
      exact h (by simp [hfind, hne])
    have hheld := (Entry.holds_iff hu).mp (findName_eq_some hfind)
    exact hj ((hn.unique j d hact hheld.1 (hname.trans hheld.2.symm)).trans hd)

/-- The acts of a login assert what they leave to do. -/
theorem login_next (h : exec t a i sh = some out) (hI : Sound sh) (hpre : Login a sh) :
    Outlined Login out.shared out.next := by
  cases a <;> simp only [exec] at h
  case route s c m =>
    obtain rfl := goOn_inj h
    exact outlined_route sh _ s m
  case checkName s u p =>
    split at h
    · obtain rfl := goOn_inj h
      exact outlined_singleton trivial
    · next hfree =>
      obtain rfl := goOn_inj h
      exact outlined_singleton (unused_of_search hpre hI.names hfree)
  case validate s u p =>
    split at h
    · obtain rfl := goOn_inj h
      exact outlined_singleton trivial
    · obtain rfl := goOn_inj h
      exact outlined_singleton hpre
  case storeName s u =>
    have hpre : sh.Unused s u := hpre
    obtain rfl := goOn_inj h
    have hself : (sh.setEntry s ((sh.clients s).setName u)).clients s =
        { sh.clients s with toEntry := (sh.clients s).setName u } := clients_setClient_self sh s _
    refine outlined_singleton ⟨⟨hpre.valid, fun j hj hact => ?_⟩, Or.inr ?_⟩
    · have hother : (sh.setEntry s ((sh.clients s).setName u)).clients j = sh.clients j :=
        clients_setClient_of_ne sh hj _
      rw [hother] at hact ⊢
      exact hpre.other j hj hact
    · rw [hself]
      exact Entry.name_setName (hI.names.terminated s) hpre.valid
  all_goals
    repeat' split at h
    all_goals cases h
    all_goals exact outlined_of_trivial (by simp [Login, mainLoop])

theorem login_of_other (b : Act) (s : Shared) (hb : b.owner ≠ .parent) : Login b s := by
  cases b with
  | bridge | fromClient | farewell | forward | fromParent | exit | reap => trivial
  | _ => exact absurd rfl hb

/-- The statements of the parent are an outline that the children and the handler respect. -/
theorem outline : Outline (fun a sh => Setup a sh ∧ Login a sh) (fun a sh => timely a sh = true)
    (fun a b => a.owner ≠ b.owner) exec fun sh => Linked sh ∧ Sound sh where
  keeps := by
    rintro t a i sh out h ⟨hL, hI⟩ ⟨hset, hpre⟩ hok
    have hc := change_of_exec h
    exact ⟨hL.keeps hc hset, hI.keeps hL hc hset hpre hok⟩
  next := by
    rintro t a i sh out h ⟨hL, hI⟩ ⟨hset, hpre⟩ -
    exact outlined_and.mpr ⟨setup_next h hL hset, login_next h hI hpre⟩
  spawn := by
    intro t a i sh out t' p h hp b hb s
    obtain ⟨s', fd, c, pid, -, -, rfl, -⟩ := spawn_eq_some h hp
    refine ⟨setup_bridge _ b hb s, ?_⟩
    rw [eq_of_mem_code hb]
    trivial
  frame h _ _ _ hb hapart :=
    ⟨frame_of_async setup_of_other Async.setup h hb.1 hapart,
      frame_of_async login_of_other Async.login h hb.2 hapart⟩

variable {st st' : State} {l : Tid × Input} {history : History}

/-- The acts ahead, the invariants and the assertions, together. -/
structure InOrder (st : State) : Prop where
  owned : Owned st
  linked : Linked st.shared
  sound : Sound st.shared
  outlined : ∀ t, Outlined (fun a sh => Setup a sh ∧ Login a sh) st.shared (st.todo t)

theorem sound_init (history : History) : Sound (Shared.init history) := by
  refine ⟨namesOk_zero, fun s h => ?_, fun s h => ?_⟩
  · cases h
  · exact absurd rfl h

theorem inOrder_init (history : History) : InOrder (init history) := by
  have h := inLinks_init history
  refine ⟨h.owned, h.linked, sound_init history, fun t => outlined_and.mpr ⟨h.setup t, ?_⟩⟩
  cases t with
  | parent => exact outlined_singleton trivial
  | sigchld => exact outlined_singleton trivial
  | child k => exact outlined_nil _

theorem InOrder.step (h : InOrder st) (hok : OnTime st l) (hs : step st l = some st') :
    InOrder st' := by
  obtain ⟨⟨hL, hI⟩, hout⟩ := outline.step ⟨h.linked, h.sound⟩ h.outlined
    (fun hne ha hb => h.owned.apart hne ha hb) hok hs
  exact ⟨h.owned.step hs, hL, hI, hout⟩

/-- What the invariant says about the slots. -/
theorem Sound.slotsOk (hI : Sound sh) (hL : Linked sh) : SlotsOk sh := by
  refine ⟨fun s hs => ⟨Nat.pos_of_ne_zero (hI.running s hs), (hI.names.valid s hs).ne_nil⟩,
    hI.names.unique, fun k hk hconn => ?_⟩
  have hpid : (sh.clients k.slot).pid = 0 := by
    by_contra hne
    obtain ⟨c, hc, hp⟩ := hI.holder k.slot hne
    obtain ⟨d, hd, hf, -⟩ := hL.holder k.slot hne
    obtain rfl := Option.some.inj (hc.symm.trans hd)
    have hck : k.conn = c := Option.some.inj (hconn.symm.trans hc)
    have hk' := hL.once k _ ((mem_books rfl).mpr hk.1) hf hck
    have hkp : k.pid = (sh.clients k.slot).pid := congrArg Child.pid hk'
    rw [← hkp, ← hck] at hp
    exact hp.elim hk.2.1 hk.2.2
  have hactive : (sh.clients k.slot).active = false := by
    by_contra hne
    exact hI.running k.slot (by simpa using hne) hpid
  refine ⟨⟨hactive, hpid⟩, fun u hu => ?_⟩
  have hheld := findName_eq_some hu
  rw [Entry.holds, Shared.table, hactive] at hheld
  cases hheld

/-- A store behind the handler's back breaks the table at once. -/
theorem InOrder.not_slotsOk (h : InOrder st) (hlate : ¬ OnTime st l)
    (hs : Fork.step st l = some st') : ¬ SlotsOk st'.shared := by
  intro hok
  obtain ⟨a, rest, out, htodo, hexec, rfl⟩ := step_act hs
  have hpre : Setup a st.shared := by
    have := h.outlined l.1
    rw [htodo] at this
    exact (this.1 a rfl).1
  have hnot : timely a st.shared = false := by
    by_contra hne
    refine hlate fun b rest' hb => ?_
    rw [htodo] at hb
    obtain rfl := Stmt.act.inj (List.cons.inj hb).1
    simpa using hne
  cases a with
  | activate s u =>
    obtain rfl := goOn_inj hexec
    have hpid : (st.shared.clients s).pid = 0 := by simpa [timely] using hnot
    have hself : (st.shared.setEntry s (st.shared.clients s).activate).clients s =
        { st.shared.clients s with toEntry := (st.shared.clients s).activate } :=
      clients_setClient_self ..
    have hpos := (hok.running s (congrArg (fun c : Client => c.active) hself)).1
    change 0 < ((st.shared.setEntry s (st.shared.clients s).activate).clients s).pid at hpos
    rw [hself] at hpos
    exact hpos.ne' hpid
  | storePid k fd =>
    obtain rfl := goOn_inj hexec
    obtain ⟨-, -, hends, hk⟩ := hpre
    have hgone : st.shared.proc k.pid = none := by simpa [timely] using hnot
    have hgone : (st.shared.storePid k.slot k.pid).proc k.pid = none := hgone
    have hself : (st.shared.storePid k.slot k.pid).clients k.slot =
        { st.shared.clients k.slot with pid := k.pid } := clients_setClient_self ..
    have hreaped : (st.shared.storePid k.slot k.pid).Reaped k := by
      refine ⟨(mem_books rfl).mp hk.forked, ?_, ?_⟩ <;> rw [hgone] <;> simp
    have hconn : (st.shared.storePid k.slot k.pid).connOf k.slot = some k.conn := by
      rw [connOf_eq_some, hself]
      exact hends.fromRead
    have hzero := (hok.reaped k hreaped hconn).1.2
    change ((st.shared.storePid k.slot k.pid).clients k.slot).pid = 0 at hzero
    rw [hself] at hzero
    exact hk.pid hzero
  | _ => cases hnot

/-! ## Runs -/

/-- The input of a step that needs none. -/
def noInput : Input where
  env := ⟨0, none, ⟨fun _ => [], fun _ => false⟩⟩
  interrupted := false
  waiting := false
  fd := none
  toChild := none
  fromChild := none
  pid := none
  reads := []
  fromClient := true
  source := ⟨[], []⟩

/-- A number of steps of the parent that need no input. -/
def parents (n : Nat) : List (Tid × Input) := List.replicate n (.parent, noInput)

/-- The turn of the select loop that takes a connection into slot `s`, with four descriptors
from `fd + 1` on for its pipes. -/
def connect (s : Slot) (fd pid : Nat) : List (Tid × Input) :=
  parents 11 ++ (.parent, { noInput with waiting := true }) ::
    (.parent, { noInput with fd := some fd }) :: (parents (s.val + 1) ++
      (.parent, { noInput with
        toChild := some (fd + 1, fd + 2), fromChild := some (fd + 3, fd + 4) }) ::
      (.parent, { noInput with pid := some pid }) :: parents 14)

/-- A number of steps of a child that need no input. -/
def works (k : Child) (n : Nat) : List (Tid × Input) := List.replicate n (.child k, noInput)

/-- The input of a child that reads a message from its client. -/
def reads (m : Message) : Input := { noInput with source := ⟨packMessage m, []⟩ }

/-- The login of a user whose password does not matter. -/
def loginAs (name : String) : Message :=
  makeMessage 0 .login [] [] (ascii (name ++ ":p"))

theorem step_fromClient {k : Child} {m : Message} {rest : Code} (hm : WellFormed m)
    (h : st.todo (.child k) = .act (.fromClient k) :: rest) :
    step st (.child k, reads m) =
      some (st.goOn (.child k) (.act (.forward k m) :: .act (.bridge k) :: rest)) := by
  have hrecv : (recvMessage (reads m).source).1 = some m := by
    have hr := @recvMessage_packMessage m hm [] [] (by simp [Channel.Steady])
    rw [List.append_nil] at hr
    exact hr.1
  have hexec : exec (.child k) (.fromClient k) (reads m) st.shared =
      st.shared.goOn [.forward k m, .bridge k] := by
    simp only [exec, hrecv]
  simp only [step, Tasks.step, h, hexec, Shared.goOn, Option.map_some]
  exact congrArg some (perform_eq rfl)

/-- A child that finds the end of its client's stream says farewell. -/
theorem step_fromClient_end {k : Child} {rest : Code}
    (h : st.todo (.child k) = .act (.fromClient k) :: rest) :
    step st (.child k, noInput) = some (st.goOn (.child k) (.act (.farewell k) :: rest)) := by
  have hrecv : (recvMessage noInput.source).1 = none := by
    simp [noInput, recvMessage, Channel.readFull, Channel.Source.read, Channel.Source.take,
      headerSize]
  have hexec : exec (.child k) (.fromClient k) noInput st.shared =
      st.shared.goOn [.farewell k] := by
    simp only [exec, hrecv]
  simp only [step, Tasks.step, h, hexec, Shared.goOn, Option.map_some]
  exact congrArg some (perform_eq rfl)

/-- The parent reads the message at the front of a pipe. -/
theorem step_recv {s : Slot} {fd c : Nat} {m : Message} {tail : List UInt8} {rest : Code}
    (hm : WellFormed m) (h : st.todo .parent = .act (.recv s fd) :: rest)
    (hc : st.shared.readEnd fd = some c) (hp : st.shared.fromPipe c = packMessage m ++ tail) :
    step st (.parent, noInput) = some ({ st with shared := st.shared.readFrom c tail }.goOn .parent
      (.act (.route s c m) :: rest)) := by
  obtain ⟨src, hsrc, hrecv⟩ := pipeRecv_packMessage (st.shared.closed c) m tail []
  have hexec : exec .parent (.recv s fd) noInput st.shared =
      (st.shared.readFrom c tail).goOn [.route s c m] := by
    have hrecv' : pipeRecv (st.shared.closed c)
        ⟨st.shared.fromPipe c, noInput.reads.map .chunk⟩ = some (some m, src) := by
      rw [hm.canonical_eq] at hrecv
      rw [hp]
      exact hrecv
    simp only [exec, hc, hrecv', hsrc]
  simp only [step, Tasks.step, h, hexec, Shared.goOn, Option.map_some]
  exact congrArg some (perform_eq rfl)

/-- The slot table is in order in every state of a run exactly if no step of it completes a
login in a slot, or stores the pid of a child, that the handler has cleared in between. -/
theorem slots_ok_iff {ls : List (Tid × Input)} (hrun : run step (init history) ls = some st) :
    (∀ ks st', ks <+: ls → run step (init history) ks = some st' → SlotsOk st'.shared) ↔
      Meets step OnTime (init history) ls := by
  exact forall_prefix_iff_meets (fun _ h => h.sound.slotsOk h.linked) (fun _ _ _ hok h hs => h.step hok hs)
    (fun _ _ _ h hlate hs => h.not_slotsOk hlate hs) (inOrder_init history) hrun

/-- The condition, as a test. -/
def onTime (st : State) (l : Tid × Input) : Bool :=
  match st.todo l.1 with
  | .act a :: _ => timely a st.shared
  | _ => true

theorem onTime_of_test {st : State} {l : Tid × Input} (h : onTime st l = true) : OnTime st l := by
  intro a rest htodo
  rw [onTime, htodo] at h
  exact h

/-- A connection is accepted and its child created. -/
theorem slots_ok_iff_connect : ∃ st, run step (init fun _ => none) (connect 0 4 100) = some st ∧
    (st.shared.clients 0).pid = 100 ∧ ∀ ks st', ks <+: connect 0 4 100 →
      run step (init fun _ => none) ks = some st' → SlotsOk st'.shared := by
  have hrun : run step (init fun _ => none) (connect 0 4 100) = some _ := rfl
  have htest : check step onTime (init fun _ => none) (connect 0 4 100) = true := rfl
  exact ⟨_, hrun, rfl, (slots_ok_iff hrun).mpr (meets_of_check (fun _ _ => onTime_of_test) htest)⟩

/-- A child that ends while its login is checked leaves a ghost: a slot that is active without
a child. -/
theorem ghost_user : ∃ ls st, run step (init fun _ => none) ls = some st ∧
    ¬ SlotsOk st.shared := by
  have hlogin : WellFormed (loginAs "a") := wellFormed_makeMessage ..
  have hrun : run step (init fun _ => none) (connect 0 4 100 ++ (works ⟨0, 0, 100⟩ 1 ++
      ((.child ⟨0, 0, 100⟩, reads (loginAs "a")) :: (works ⟨0, 0, 100⟩ 2 ++ (parents 13 ++
        ((.parent, noInput) :: (parents 3 ++ ((.child ⟨0, 0, 100⟩, noInput) ::
          (works ⟨0, 0, 100⟩ 3 ++
            ((.sigchld, { noInput with pid := some 100 }) :: parents 2)))))))))) = some _ :=
    run_trans rfl (run_trans rfl (run_cons_iff.mpr ⟨_, step_fromClient hlogin rfl,
      run_trans rfl (run_trans rfl (run_cons_iff.mpr ⟨_, step_recv hlogin rfl rfl
        (List.append_nil _).symm, run_trans rfl (run_cons_iff.mpr
          ⟨_, step_fromClient_end rfl, rfl⟩)⟩))⟩))
  refine ⟨_, _, hrun, fun h => ?_⟩
  exact absurd (h.running 0 rfl).1 (lt_irrefl 0)

end ChatSystem.Fork
