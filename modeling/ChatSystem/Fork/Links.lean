import ChatSystem.Fork.Steps

/-!
# Slots and their children

While the parent stands between two statements, the children and the handler can only
write to pipes, end, and clear slots. Under the assertions that survive this, a slot with
a pid is linked by its pipes to the child it was filled for, which runs or has closed its
ends.
-/

namespace ChatSystem.Fork

open Bytes Tasks Transition

/-- The condition of `find_free_slot`. -/
def Shared.Free (sh : Shared) (s : Slot) : Prop :=
  (sh.clients s).active = false ∧ (sh.clients s).pid = 0

/-! ## What the parent knows of a new connection -/

/-- A descriptor of the parent is the socket of some connection. -/
def Shared.IsSocket (sh : Shared) (fd : Nat) : Prop := ∃ c, sh.fd fd = some (.socket c)

/-- No child was created for an accepted connection yet. -/
structure Shared.New (sh : Shared) (fd c : Nat) : Prop where
  socket : sh.IsSocket fd
  lt : c < sh.accepted
  fresh : ∀ k, .forked k ∈ sh.books → k.conn ≠ c

/-- The pipes of a slot are those of a connection, and all ends are open. -/
structure Shared.Ends (sh : Shared) (s : Slot) (c : Nat) : Prop where
  toRead : sh.fd (sh.clients s).toChild.1 = some (.toRead c)
  fromRead : sh.fd (sh.clients s).fromChild.1 = some (.fromRead c)
  fromWrite : sh.fd (sh.clients s).fromChild.2 = some (.fromWrite c)

/-- A child that the parent has just created. -/
structure Shared.Created (sh : Shared) (k : Child) : Prop where
  pid : k.pid ≠ 0
  forked : .forked k ∈ sh.books
  proc : ∀ r, sh.proc k.pid = some r → r = .running k.conn ∨ r = .zombie k.conn
  alive : sh.proc k.pid = some (.running k.conn) ∨ sh.closed k.conn = true

/-- The assertion in front of an act that sets up a connection. -/
def Setup : Act → Shared → Prop
  | .findFreeSlot fd c _, sh => sh.New fd c
  | .refuse fd _, sh => sh.IsSocket fd
  | .closeFd fd, sh => sh.IsSocket fd
  | .pipes s fd c, sh => sh.New fd c ∧ sh.Free s
  | .fork s fd c, sh => sh.New fd c ∧ sh.Free s ∧ sh.Ends s c
  | .storePid k fd, sh =>
      sh.IsSocket fd ∧ sh.Free k.slot ∧ sh.Ends k.slot k.conn ∧ sh.Created k
  | .closeEnds k fd, sh => sh.IsSocket fd ∧ sh.Ends k.slot k.conn
  | _, _ => True

/-- A slot with a pid is linked to the child it was filled for. -/
structure Linked (sh : Shared) : Prop where
  holder : ∀ s, (sh.clients s).pid ≠ 0 → ∃ c, sh.connOf s = some c ∧
    .forked ⟨s, c, (sh.clients s).pid⟩ ∈ sh.books ∧
    (sh.proc (sh.clients s).pid = some (.running c) ∨ sh.closed c = true)
  once : ∀ k k', .forked k ∈ sh.books → .forked k' ∈ sh.books → k.conn = k'.conn → k = k'
  lt : ∀ k, .forked k ∈ sh.books → k.conn < sh.accepted
  ended : ∀ p c, sh.proc p = some (.zombie c) → sh.closed c = true

variable {t : Tid} {a b : Act} {i : Input} {sh sh' : Shared} {out : Outcome Empty Tid Act Shared}

/-! ## Interference -/

/-- What the children and the handler do between two statements of the parent. -/
structure Async (a b : Shared) : Prop where
  fd : b.fd = a.fd
  accepted : b.accepted = a.accepted
  forked : ∀ k, .forked k ∈ b.books ↔ .forked k ∈ a.books
  client : ∀ j, b.clients j = a.clients j ∨
    b.clients j = { a.clients j with toEntry := (a.clients j).clear, pid := 0 }
  proc : ∀ p, b.proc p = a.proc p ∨ (∃ c, a.proc p = some (.zombie c) ∧ b.proc p = none) ∨
    ∃ c, a.proc p = some (.running c) ∧ b.proc p = some (.zombie c) ∧ b.closed c = true
  closed : ∀ c, a.closed c = true → b.closed c = true
  fromPipe : ∀ c, a.closed c = true → b.fromPipe c = a.fromPipe c

theorem mem_books {e : Event} (he : e.isOutput = false) : e ∈ sh.books ↔ e ∈ sh.log := by
  simp [Shared.books, he]

theorem books_note (sh : Shared) {e : Event} (he : e.isOutput = false) :
    (sh.note e).books = sh.books ++ [e] := by
  simp [Shared.books, Shared.note, List.filter_append, he]

theorem mem_books_note {k : Child} {e : Event} (he : e.isOutput = false) (hne : e ≠ .forked k) :
    .forked k ∈ (sh.note e).books ↔ .forked k ∈ sh.books := by
  rw [books_note sh he, List.mem_append, List.mem_singleton]
  constructor
  · rintro (h | h)
    · exact h
    · exact absurd h.symm hne
  · exact Or.inl

theorem Quiet.async (h : Quiet sh sh') : Async sh sh' where
  fd := h.fd
  accepted := h.accepted
  forked k := by rw [h.books]
  client j := Or.inl (congrFun h.clients j)
  proc p := Or.inl (congrFun h.proc p)
  closed c hc := by rw [h.closed]; exact hc
  fromPipe c _ := congrFun h.fromPipe c

theorem async_release (sh : Shared) (s : Slot) : Async sh (sh.release s) where
  fd := rfl
  accepted := rfl
  forked k := mem_books_note rfl (by simp)
  client j := by
    by_cases hj : j = s
    · subst hj
      exact Or.inr (clients_setClient_self sh j _)
    · exact Or.inl (clients_setClient_of_ne sh hj _)
  proc p := Or.inl rfl
  closed c hc := hc
  fromPipe c _ := rfl

/-- A turn of the handler waits for a child and clears a slot, if it finds one. -/
theorem reap_cases (sh : Shared) (pid : Nat) :
    (sh.findPid pid = none ∧
      sh.reap pid = { sh with proc := Function.update sh.proc pid none }) ∨
    ∃ s, sh.findPid pid = some s ∧ (sh.clients s).pid = pid ∧ sh.reap pid =
      { sh.release s with proc := Function.update (sh.release s).proc pid none } := by
  cases hfind : sh.findPid pid with
  | none =>
    refine Or.inl ⟨rfl, ?_⟩
    simp only [Shared.reap, Shared.findPid] at hfind ⊢
    rw [hfind]
  | some s =>
    refine Or.inr ⟨s, rfl, by simpa using firstSlot_eq_some hfind, ?_⟩
    simp only [Shared.reap, Shared.findPid] at hfind ⊢
    rw [hfind]
    rfl

theorem async_reap {pid c : Nat} (hpid : sh.proc pid = some (.zombie c)) :
    Async sh (sh.reap pid) := by
  have hdrop : ∀ a, Async sh a → a.proc = sh.proc →
      Async sh { a with proc := Function.update a.proc pid none } := by
    intro a ha hproc
    refine ⟨ha.fd, ha.accepted, ha.forked, ha.client, fun p => ?_, ha.closed, ha.fromPipe⟩
    by_cases hp : p = pid
    · subst hp
      exact Or.inr (Or.inl ⟨c, hpid, Function.update_self ..⟩)
    · refine Or.inl ?_
      change Function.update a.proc pid none p = _
      rw [Function.update_of_ne hp, hproc]
  rcases reap_cases sh pid with ⟨-, he⟩ | ⟨s, -, -, he⟩ <;> rw [he]
  · exact hdrop sh (Quiet.refl sh).async rfl
  · exact hdrop _ (async_release sh s) rfl

/-- The acts that do not belong to the parent only interfere in these ways. -/
theorem async_of_change (ha : a.owner ≠ .parent) (h : Change sh a sh') : Async sh sh' := by
  cases h with
  | quiet h => exact h.async
  | @forward k m hk =>
    refine ⟨rfl, rfl, fun _ => mem_books_note rfl (by simp), fun _ => Or.inl rfl,
      fun _ => Or.inl rfl, fun _ hc => hc, fun c hc => ?_⟩
    have hne : c ≠ k.conn := by
      rintro rfl
      rw [hk] at hc
      cases hc
    exact Function.update_of_ne hne ..
  | @exit k hk =>
    refine ⟨rfl, rfl, fun _ => Iff.rfl, fun _ => Or.inl rfl, fun p => ?_, fun c hc => ?_,
      fun _ _ => rfl⟩
    · by_cases hp : p = k.pid
      · subst hp
        exact Or.inr (Or.inr ⟨k.conn, hk, Function.update_self .., Function.update_self ..⟩)
      · exact Or.inl (Function.update_of_ne hp ..)
    · by_cases hck : c = k.conn
      · subst hck
        exact Function.update_self ..
      · exact (Function.update_of_ne hck ..).trans hc
  | reap hpid => exact async_reap hpid
  | _ => exact absurd rfl ha

section Async

variable (h : Async sh sh')
include h

theorem Async.isSocket {fd : Nat} (hs : sh.IsSocket fd) : sh'.IsSocket fd := by
  rw [Shared.IsSocket, h.fd]
  exact hs

theorem Async.new {fd c : Nat} (hn : sh.New fd c) : sh'.New fd c := by
  refine ⟨h.isSocket hn.socket, ?_, fun k hk => hn.fresh k ((h.forked k).mp hk)⟩
  rw [h.accepted]
  exact hn.lt

theorem Async.pid_eq_zero {s : Slot} (hs : (sh.clients s).pid = 0) : (sh'.clients s).pid = 0 := by
  rcases h.client s with he | he <;> rw [he]
  exact hs

theorem Async.free {s : Slot} (hs : sh.Free s) : sh'.Free s := by
  refine ⟨?_, h.pid_eq_zero hs.2⟩
  rcases h.client s with he | he <;> rw [he]
  · exact hs.1
  · rfl

theorem Async.ends {s : Slot} {c : Nat} (hs : sh.Ends s c) : sh'.Ends s c := by
  constructor <;> rw [h.fd] <;> rcases h.client s with he | he <;> rw [he]
  · exact hs.toRead
  · exact hs.toRead
  · exact hs.fromRead
  · exact hs.fromRead
  · exact hs.fromWrite
  · exact hs.fromWrite

theorem Async.created {k : Child} (hk : sh.Created k) : sh'.Created k := by
  refine ⟨hk.pid, (h.forked k).mpr hk.forked, fun r hr => ?_, ?_⟩
  · rcases h.proc k.pid with he | ⟨c, -, he⟩ | ⟨c, hc, he, -⟩
    · exact hk.proc r (he ▸ hr)
    · rw [he] at hr
      cases hr
    · rw [he] at hr
      obtain rfl := Option.some.inj hr
      rcases hk.proc _ hc with hc | hc
      · cases hc
        exact Or.inr rfl
      · cases hc
  · rcases hk.alive with ha | ha
    · rcases h.proc k.pid with he | ⟨c, hc, -⟩ | ⟨c, hc, -, hcl⟩
      · exact Or.inl (he.trans ha)
      · rw [ha] at hc
        cases hc
      · rw [ha] at hc
        cases hc
        exact Or.inr hcl
    · exact Or.inr (h.closed _ ha)

/-- No assertion of the parent is lost to the others. -/
theorem Async.setup (hb : Setup b sh) : Setup b sh' := by
  cases b with
  | findFreeSlot fd c slots => exact h.new hb
  | refuse fd c => exact h.isSocket hb
  | closeFd fd => exact h.isSocket hb
  | pipes s fd c => exact ⟨h.new hb.1, h.free hb.2⟩
  | fork s fd c => exact ⟨h.new hb.1, h.free hb.2.1, h.ends hb.2.2⟩
  | storePid k fd =>
    exact ⟨h.isSocket hb.1, h.free hb.2.1, h.ends hb.2.2.1, h.created hb.2.2.2⟩
  | closeEnds k fd => exact ⟨h.isSocket hb.1, h.ends hb.2⟩
  | _ => trivial

end Async

/-! ## Descriptors -/

theorem connOf_eq_some {s : Slot} {c : Nat} :
    sh.connOf s = some c ↔ sh.fd (sh.clients s).fromChild.1 = some (.fromRead c) := by
  unfold Shared.connOf Shared.readEnd
  split
  · next c' hc =>
    rw [hc]
    simp
  · next hne =>
    constructor
    · intro h
      cases h
    · intro h
      exact absurd h (hne c)

/-- A fresh number hides no open descriptor. -/
theorem fd_openFd {n m : Nat} {h r : Handle} (hn : sh.fd n = some r) (hm : sh.fd m = none) :
    (sh.openFd m h).fd n = some r := by
  have hne : n ≠ m := by
    rintro rfl
    rw [hm] at hn
    cases hn
  exact (Function.update_of_ne hne ..).trans hn

theorem fd_openTo {s : Slot} {c n : Nat} {p : Nat × Nat} {r : Handle} (hp : sh.Fresh p)
    (hn : sh.fd n = some r) : (sh.openTo s c p).fd n = some r := by
  have hp2 : (sh.openFd p.1 (.toRead c)).fd p.2 = none :=
    (Function.update_of_ne (Ne.symm hp.2.2) ..).trans hp.2.1
  exact fd_openFd (fd_openFd hn hp.1) hp2

theorem fd_openFrom {s : Slot} {c n : Nat} {p : Nat × Nat} {r : Handle} (hp : sh.Fresh p)
    (hn : sh.fd n = some r) : (sh.openFrom s c p).fd n = some r := by
  have hp2 : (sh.openFd p.1 (.fromRead c)).fd p.2 = none :=
    (Function.update_of_ne (Ne.symm hp.2.2) ..).trans hp.2.1
  exact fd_openFd (fd_openFd hn hp.1) hp2

/-- Closing another kind of descriptor. -/
theorem fd_close {n m : Nat} {h r : Handle} (hn : sh.fd n = some r) (hm : sh.fd m = some h)
    (hne : h ≠ r) : (sh.close m).fd n = some r := by
  have hnm : n ≠ m := by
    rintro rfl
    rw [hm] at hn
    exact hne (Option.some.inj hn)
  exact (Function.update_of_ne hnm ..).trans hn

/-- The pipes of a connection that `pipe` has just created. -/
theorem ends_openFrom {s : Slot} {c : Nat} {p q : Nat × Nat} (hp : sh.Fresh p)
    (hq : (sh.openTo s c p).Fresh q) : ((sh.openTo s c p).openFrom s c q).Ends s c := by
  have hto : ((sh.openTo s c p).openFrom s c q).clients s =
      { (sh.openTo s c p).clients s with fromChild := q } := clients_setClient_self _ s _
  have hp1 : ((sh.openTo s c p).clients s).toChild = p :=
    congrArg Client.toChild (clients_setClient_self _ s _)
  constructor
  · rw [hto, hp1]
    apply fd_openFrom hq
    change Function.update (Function.update sh.fd p.1 _) p.2 _ p.1 = _
    rw [Function.update_of_ne hp.2.2, Function.update_self]
  · rw [hto]
    change Function.update (Function.update _ q.1 _) q.2 _ q.1 = _
    rw [Function.update_of_ne hq.2.2, Function.update_self]
  · rw [hto]
    exact Function.update_self ..

/-! ## The invariant -/

/-- What the links look at: pids, the pipes of slots with a pid, read ends, processes. -/
theorem Linked.congr (hI : Linked sh)
    (hpid : ∀ s, (sh'.clients s).pid = (sh.clients s).pid ∨ (sh'.clients s).pid = 0)
    (hends : ∀ s, (sh.clients s).pid ≠ 0 → (sh'.clients s).fromChild = (sh.clients s).fromChild)
    (hfd : ∀ n c, sh.fd n = some (.fromRead c) → sh'.fd n = some (.fromRead c))
    (hacc : sh.accepted ≤ sh'.accepted) (hproc : sh'.proc = sh.proc)
    (hclosed : sh'.closed = sh.closed)
    (hforked : ∀ k, .forked k ∈ sh'.books ↔ .forked k ∈ sh.books) : Linked sh' where
  holder s hs := by
    have he : (sh'.clients s).pid = (sh.clients s).pid := (hpid s).resolve_right hs
    rw [he] at hs
    obtain ⟨c, hc, hk, hp⟩ := hI.holder s hs
    refine ⟨c, ?_, ?_, ?_⟩
    · rw [connOf_eq_some, hends s hs]
      exact hfd _ _ (connOf_eq_some.mp hc)
    · rw [he, hforked]
      exact hk
    · rw [he, hproc, hclosed]
      exact hp
  once k k' hk hk' := hI.once k k' ((hforked k).mp hk) ((hforked k').mp hk')
  lt k hk := (hI.lt k ((hforked k).mp hk)).trans_le hacc
  ended p c := by
    rw [hproc, hclosed]
    exact hI.ended p c

theorem Linked.quiet (hI : Linked sh) (h : Quiet sh sh') : Linked sh' := by
  refine hI.congr (fun s => Or.inl ?_) (fun s _ => ?_) (fun n c hn => ?_) h.accepted.ge h.proc
    h.closed (fun k => by rw [h.books])
  · rw [h.clients]
  · rw [h.clients]
  · rw [h.fd]
    exact hn

/-- Login data does not matter. -/
theorem Linked.setEntry (hI : Linked sh) (s : Slot) (e : Entry) : Linked (sh.setEntry s e) := by
  have hcl : ∀ j, ((sh.setEntry s e).clients j).pid = (sh.clients j).pid ∧
      ((sh.setEntry s e).clients j).fromChild = (sh.clients j).fromChild := by
    intro j
    by_cases hj : j = s
    · subst hj
      rw [Shared.setEntry, clients_setClient_self]
      exact ⟨rfl, rfl⟩
    · rw [Shared.setEntry, clients_setClient_of_ne sh hj]
      exact ⟨rfl, rfl⟩
  exact hI.congr (fun j => Or.inl (hcl j).1) (fun j _ => (hcl j).2) (fun _ _ hn => hn)
    (Nat.le_refl _) rfl rfl fun _ => Iff.rfl

/-- Clearing a slot. -/
theorem Linked.release (hI : Linked sh) (s : Slot) : Linked (sh.release s) := by
  refine hI.congr (fun j => ?_) (fun j _ => ?_) (fun _ _ hn => hn) (Nat.le_refl _) rfl rfl
    fun _ => mem_books_note rfl (by simp)
  · by_cases hj : j = s
    · subst hj
      exact Or.inr (congrArg Client.pid (clients_setClient_self sh j _))
    · exact Or.inl (congrArg Client.pid (clients_setClient_of_ne sh hj _))
  · by_cases hj : j = s
    · subst hj
      change ((sh.setClient j _).clients j).fromChild = _
      rw [clients_setClient_self]
    · exact congrArg Client.fromChild (clients_setClient_of_ne sh hj _)

/-- A turn of the handler. -/
theorem Linked.reap (hI : Linked sh) {pid c : Nat} (hpid : sh.proc pid = some (.zombie c)) :
    Linked (sh.reap pid) := by
  -- a slot that still carries the pid is linked to a child that has closed its ends
  have hdrop : ∀ a : Shared, Linked a → a.proc = sh.proc →
      Linked { a with proc := Function.update a.proc pid none } := by
    intro a ha hproc
    refine ⟨fun s hs => ?_, ha.once, ha.lt, fun p c' hp => ?_⟩
    · obtain ⟨c', hc, hk, hp⟩ := ha.holder s hs
      refine ⟨c', hc, hk, ?_⟩
      by_cases he : (a.clients s).pid = pid
      · rcases hp with hp | hp
        · rw [hproc, he, hpid] at hp
          cases hp
        · exact Or.inr hp
      · simpa only [Function.update_of_ne he] using hp
    · change Function.update a.proc pid none p = _ at hp
      by_cases he : p = pid
      · rw [he, Function.update_self] at hp
        cases hp
      · rw [Function.update_of_ne he] at hp
        exact ha.ended p c' hp
  rcases reap_cases sh pid with ⟨-, he⟩ | ⟨s, -, -, he⟩ <;> rw [he]
  · exact hdrop sh hI rfl
  · exact hdrop _ (hI.release s) rfl

theorem Linked.openTo (hI : Linked sh) {s : Slot} {c : Nat} {p : Nat × Nat} (hp : sh.Fresh p) :
    Linked (sh.openTo s c p) := by
  have hcl : ∀ j, ((sh.openTo s c p).clients j).pid = (sh.clients j).pid ∧
      ((sh.openTo s c p).clients j).fromChild = (sh.clients j).fromChild := by
    intro j
    by_cases hj : j = s
    · subst hj
      rw [Shared.openTo, clients_setClient_self]
      exact ⟨rfl, rfl⟩
    · rw [Shared.openTo, clients_setClient_of_ne _ hj]
      exact ⟨rfl, rfl⟩
  exact hI.congr (fun j => Or.inl (hcl j).1) (fun j _ => (hcl j).2) (fun n c' hn => fd_openTo hp hn)
    (Nat.le_refl _) rfl rfl fun _ => Iff.rfl

theorem Linked.openFrom (hI : Linked sh) {s : Slot} {c : Nat} {p : Nat × Nat} (hp : sh.Fresh p)
    (hs : (sh.clients s).pid = 0) : Linked (sh.openFrom s c p) := by
  refine hI.congr (fun j => Or.inl ?_) (fun j hj => ?_) (fun n c' hn => fd_openFrom hp hn)
    (Nat.le_refl _) rfl rfl fun _ => Iff.rfl
  · by_cases hjs : j = s
    · subst hjs
      rw [Shared.openFrom, clients_setClient_self]
    · rw [Shared.openFrom, clients_setClient_of_ne _ hjs]
      rfl
  · have hjs : j ≠ s := by
      rintro rfl
      exact hj hs
    rw [Shared.openFrom, clients_setClient_of_ne _ hjs]
    rfl

/-- A child is created for a new connection. -/
theorem Linked.start (hI : Linked sh) {s : Slot} {fd c pid : Nat} (hnew : sh.New fd c)
    (hfree : sh.proc pid = none) : Linked (sh.start ⟨s, c, pid⟩) := by
  have hforked : ∀ k, .forked k ∈ (sh.start ⟨s, c, pid⟩).books ↔
      .forked k ∈ sh.books ∨ k = ⟨s, c, pid⟩ := by
    intro k
    change _ ∈ (Shared.note _ _).books ↔ _
    rw [books_note _ rfl, List.mem_append, List.mem_singleton, Event.forked.injEq]
    rfl
  refine ⟨fun j hj => ?_, fun k k' hk hk' he => ?_, fun k hk => ?_, fun p c' hp => ?_⟩
  · obtain ⟨c', hc, hk, hp⟩ := hI.holder j hj
    refine ⟨c', hc, (hforked _).mpr (Or.inl hk), ?_⟩
    rcases hp with hp | hp
    · refine Or.inl ?_
      have hne : (sh.clients j).pid ≠ pid := by
        rintro rfl
        rw [hfree] at hp
        cases hp
      exact (Function.update_of_ne hne ..).trans hp
    · exact Or.inr hp
  · rcases (hforked k).mp hk with hk | rfl <;> rcases (hforked k').mp hk' with hk' | rfl
    · exact hI.once k k' hk hk' he
    · exact absurd he (hnew.fresh k hk)
    · exact absurd he.symm (hnew.fresh k' hk')
    · rfl
  · rcases (hforked k).mp hk with hk | rfl
    · exact hI.lt k hk
    · exact hnew.lt
  · change Function.update sh.proc pid _ p = _ at hp
    by_cases he : p = pid
    · rw [he, Function.update_self] at hp
      cases hp
    · rw [Function.update_of_ne he] at hp
      exact hI.ended p c' hp

/-- The parent stores the pid of the child it has created. -/
theorem Linked.storePid (hI : Linked sh) {k : Child} {fd : Nat} (hpre : Setup (.storePid k fd) sh) :
    Linked (sh.storePid k.slot k.pid) := by
  obtain ⟨-, -, hends, hk⟩ := hpre
  have hself : (sh.storePid k.slot k.pid).clients k.slot =
      { sh.clients k.slot with pid := k.pid } := clients_setClient_self sh k.slot _
  refine ⟨fun j hj => ?_, hI.once, hI.lt, hI.ended⟩
  by_cases hjs : j = k.slot
  · subst hjs
    rw [hself]
    refine ⟨k.conn, ?_, hk.forked, hk.alive⟩
    rw [connOf_eq_some, hself]
    exact hends.fromRead
  · have hother : (sh.storePid k.slot k.pid).clients j = sh.clients j :=
      clients_setClient_of_ne sh hjs _
    rw [hother] at hj ⊢
    obtain ⟨c, hc, hk', hp⟩ := hI.holder j hj
    refine ⟨c, ?_, hk', hp⟩
    rw [connOf_eq_some, hother]
    exact connOf_eq_some.mp hc

/-- A child ends. -/
theorem Linked.exit (hI : Linked sh) {k : Child} (hk : sh.proc k.pid = some (.running k.conn)) :
    Linked (sh.exit k) := by
  have hclosed : ∀ c, sh.closed c = true → (sh.exit k).closed c = true := by
    intro c hc
    by_cases hck : c = k.conn
    · subst hck
      exact Function.update_self ..
    · exact (Function.update_of_ne hck ..).trans hc
  refine ⟨fun s hs => ?_, hI.once, hI.lt, fun p c hp => ?_⟩
  · obtain ⟨c, hc, hf, hp⟩ := hI.holder s hs
    refine ⟨c, hc, hf, ?_⟩
    rcases hp with hp | hp
    · by_cases he : (sh.clients s).pid = k.pid
      · rw [he, hk] at hp
        cases hp
        exact Or.inr (Function.update_self ..)
      · exact Or.inl ((Function.update_of_ne he ..).trans hp)
    · exact Or.inr (hclosed c hp)
  · change Function.update sh.proc k.pid _ p = _ at hp
    by_cases he : p = k.pid
    · rw [he, Function.update_self] at hp
      cases hp
      exact Function.update_self ..
    · rw [Function.update_of_ne he] at hp
      exact hclosed c (hI.ended p c hp)

/-- Every act keeps the links. -/
theorem Linked.keeps (hI : Linked sh) (hc : Change sh a sh') (hpre : Setup a sh) :
    Linked sh' := by
  have hsame : ∀ sh' : Shared, sh'.clients = sh.clients → sh'.fd = sh.fd →
      sh'.accepted = sh.accepted → sh'.proc = sh.proc → sh'.closed = sh.closed →
      (∀ k, .forked k ∈ sh'.books ↔ .forked k ∈ sh.books) → Linked sh' := by
    intro sh' h1 h2 h3 h4 h5 h6
    exact hI.congr (fun s => Or.inl (by rw [h1])) (fun s _ => by rw [h1])
      (fun n c hn => by rw [h2]; exact hn) h3.ge h4 h5 h6
  cases hc with
  | quiet h => exact hI.quiet h
  | @accept fd hfree =>
    exact hI.congr (fun _ => Or.inl rfl) (fun _ _ => rfl) (fun n c hn => fd_openFd hn hfree)
      (Nat.le_succ _) rfl rfl fun _ => Iff.rfl
  | openTo hp => exact hI.openTo hp
  | @openBoth s fd c p q hp hq =>
    refine (hI.openTo hp).openFrom hq ?_
    exact (congrArg Client.pid (clients_setClient_self _ s _)).trans hpre.2.2
  | start hpid hfree => exact hI.start hpre.1 hfree
  | storePid k fd => exact hI.storePid hpre
  | closeEnds k fd =>
    refine hI.congr (fun _ => Or.inl rfl) (fun _ _ => rfl) (fun n c hn => ?_) (Nat.le_refl _) rfl
      rfl fun _ => Iff.rfl
    have hto := hpre.2.toRead
    have hfrom := hpre.2.fromWrite
    exact fd_close (fd_close hn hto (by simp)) (fd_close hfrom hto (by simp)) (by simp)
  | closeFd fd =>
    obtain ⟨c', hc'⟩ := hpre
    exact hI.congr (fun _ => Or.inl rfl) (fun _ _ => rfl) (fun n c hn => fd_close hn hc' (by simp))
      (Nat.le_refl _) rfl rfl fun _ => Iff.rfl
  | recv hc hr => exact hsame _ rfl rfl rfl rfl rfl fun _ => Iff.rfl
  | drop s => exact hI.release s
  | route s c m => exact hsame _ rfl rfl rfl rfl rfl fun _ => mem_books_note rfl (by simp)
  | storeName s u => exact hI.setEntry s _
  | activate s u => exact hI.setEntry s _
  | clear s => exact hI.setEntry s _
  | setStatus s m status => exact hI.setEntry s _
  | forward hk => exact hsame _ rfl rfl rfl rfl rfl fun _ => mem_books_note rfl (by simp)
  | exit hk => exact hI.exit hk
  | reap hpid => exact hI.reap hpid

/-! ## The outline -/

section Outlined

variable {Pre : Act → Shared → Prop}

theorem outlined_nil (sh : Shared) : Outlined Pre sh (code []) := trivial

theorem outlined_cons {acts : List Act} (ha : Pre a sh) (hacts : ∀ b ∈ acts, ∀ s, Pre b s) :
    Outlined Pre sh (code (a :: acts)) := by
  refine ⟨fun b hb => ?_, fun b hb => hacts b (mem_code.mp hb)⟩
  obtain rfl := Stmt.act.inj hb
  exact ha

theorem outlined_singleton (ha : Pre a sh) : Outlined Pre sh (code [a]) :=
  outlined_cons ha fun _ hb => (List.not_mem_nil hb).elim

/-- Acts without an assertion. -/
theorem outlined_of_trivial {acts : List Act} (h : ∀ b ∈ acts, ∀ s, Pre b s) :
    Outlined Pre sh (code acts) := by
  cases acts with
  | nil => exact outlined_nil sh
  | cons a acts =>
    exact outlined_cons (h a List.mem_cons_self sh) fun b hb => h b (List.mem_cons_of_mem _ hb)

end Outlined

/-- Routing a message does not set up a connection. -/
theorem setup_route (sh sh' : Shared) (s : Slot) (m : Message) :
    ∀ b ∈ sh.route s m, Setup b sh' := by
  unfold Shared.route
  split
  · unfold Shared.login
    split <;> simp [Setup]
  · simp [Shared.logout, Setup]
  · unfold Shared.broadcast
    split <;> simp [Setup]
  · unfold Shared.priv
    split <;> simp [Setup]
  all_goals simp [Setup]

/-- The acts that set up a connection assert what they leave to do. -/
theorem setup_next (h : exec t a i sh = some out) (hI : Linked sh) (hpre : Setup a sh) :
    Outlined Setup out.shared out.next := by
  cases a <;> simp only [exec] at h
  case findFreeSlot fd c slots =>
    have hpre : sh.New fd c := hpre
    split at h
    · obtain rfl := goOn_inj h
      exact outlined_singleton hpre.socket
    · split at h
      · next hfree =>
        obtain rfl := goOn_inj h
        exact outlined_singleton ⟨hpre, by simpa [Shared.Free] using hfree⟩
      · obtain rfl := goOn_inj h
        exact outlined_singleton hpre
  case accept =>
    split at h
    · obtain rfl := goOn_inj h
      exact outlined_nil _
    · split at h
      · next fd _ hfree =>
        obtain rfl := goOn_inj h
        refine outlined_singleton ⟨⟨sh.accepted, Function.update_self ..⟩, Nat.lt_succ_self _, ?_⟩
        intro k hk
        exact (hI.lt k hk).ne
      · cases h
  case refuse =>
    obtain rfl := goOn_inj h
    exact outlined_singleton hpre
  case pipes s fd c =>
    obtain ⟨hnew, hfree⟩ := hpre
    obtain ⟨c', hsock⟩ := hnew.socket
    split at h
    · obtain rfl := goOn_inj h
      exact outlined_singleton hnew.socket
    · split at h
      · next p _ hp =>
        split at h
        · obtain rfl := goOn_inj h
          exact outlined_singleton ⟨c', fd_openTo hp hsock⟩
        · split at h
          · next q _ hq =>
            obtain rfl := goOn_inj h
            have hself : (((sh.openTo s c p).openFrom s c q).clients s).toEntry =
                (sh.clients s).toEntry ∧
                (((sh.openTo s c p).openFrom s c q).clients s).pid = (sh.clients s).pid := by
              rw [Shared.openFrom, clients_setClient_self, Shared.openTo, clients_setClient_self]
              exact ⟨rfl, rfl⟩
            refine outlined_singleton ⟨⟨⟨c', fd_openFrom hq (fd_openTo hp hsock)⟩, hnew.lt,
              hnew.fresh⟩, ⟨?_, ?_⟩, ends_openFrom hp hq⟩
            · exact (congrArg Entry.active hself.1).trans hfree.1
            · exact hself.2.trans hfree.2
          · cases h
      · cases h
  case fork s fd c =>
    obtain ⟨hnew, hfree, hends⟩ := hpre
    split at h
    · obtain rfl := goOn_inj h
      exact outlined_singleton hnew.socket
    · split at h
      · next pid _ hpid =>
        obtain rfl := Option.some.inj h
        have hproc : (sh.start ⟨s, c, pid⟩).proc pid = some (.running c) :=
          Function.update_self ..
        refine outlined_singleton ⟨hnew.socket, hfree, ⟨hends.toRead, hends.fromRead,
          hends.fromWrite⟩, hpid.1, ?_, fun r hr => Or.inl ?_, Or.inl hproc⟩
        · rw [Shared.start, books_note _ rfl]
          exact List.mem_append_right _ (List.mem_singleton_self _)
        · exact (Option.some.inj (hproc.symm.trans hr)).symm
      · cases h
  case storePid k fd =>
    obtain ⟨hfd, -, hends, -⟩ := hpre
    obtain rfl := goOn_inj h
    have hself : (sh.storePid k.slot k.pid).clients k.slot =
        { sh.clients k.slot with pid := k.pid } := clients_setClient_self sh k.slot _
    refine outlined_singleton ⟨hfd, ?_⟩
    constructor <;> rw [hself]
    · exact hends.toRead
    · exact hends.fromRead
    · exact hends.fromWrite
  case closeEnds k fd =>
    obtain ⟨⟨c', hfd⟩, hends⟩ := hpre
    obtain rfl := goOn_inj h
    have hto := hends.toRead
    have hfrom := hends.fromWrite
    exact outlined_singleton ⟨c', fd_close (fd_close hfd hto (by simp))
      (fd_close hfrom hto (by simp)) (by simp)⟩
  case route s c m =>
    obtain rfl := goOn_inj h
    exact outlined_of_trivial fun b hb s' => setup_route sh s' s m b hb
  all_goals
    repeat' split at h
    all_goals cases h
    all_goals exact outlined_of_trivial (by simp [Setup, mainLoop])

/-- An assertion of the parent only that survives the interference survives the other
processes. -/
theorem frame_of_async {Pre : Act → Shared → Prop} (hother : ∀ b s, b.owner ≠ .parent → Pre b s)
    (hasync : ∀ {b s s'}, Async s s' → Pre b s → Pre b s') (h : exec t a i sh = some out)
    (hb : Pre b sh) (hapart : a.owner ≠ b.owner) : Pre b out.shared := by
  by_cases ha : a.owner = .parent
  · exact hother b _ fun hb => hapart (ha.trans hb.symm)
  · exact hasync (async_of_change ha (change_of_exec h)) hb

theorem setup_of_other (b : Act) (s : Shared) (hb : b.owner ≠ .parent) : Setup b s := by
  cases b with
  | bridge | fromClient | farewell | forward | fromParent | exit | reap => trivial
  | _ => exact absurd rfl hb

theorem setup_bridge (k : Child) : ∀ b, Stmt.act b ∈ code [.bridge k] → ∀ s, Setup b s := by
  intro b hb s
  rw [eq_of_mem_code hb]
  trivial

/-- The parent keeps the links, and the children and the handler respect its assertions. -/
theorem links : Outline Setup (fun _ _ => True) (fun a b => a.owner ≠ b.owner) exec Linked where
  keeps h hI hpre _ := hI.keeps (change_of_exec h) hpre
  next h hI hpre _ := setup_next h hI hpre
  spawn := by
    intro t a i sh out t' p h hp
    obtain ⟨s, fd, c, pid, -, -, rfl, -⟩ := spawn_eq_some h hp
    exact setup_bridge _
  frame h _ _ _ hb hapart := frame_of_async setup_of_other Async.setup h hb hapart

variable {st st' : State} {l : Tid × Input} {history : History}

/-- Two processes stand at acts of different owners. -/
theorem Owned.apart (ho : Owned st) {t u : Tid} {p q : Code} (hne : t ≠ u)
    (ha : st.todo t = .act a :: p) (hb : st.todo u = .act b :: q) : a.owner ≠ b.owner := by
  rw [ho t a (ha ▸ List.mem_cons_self), ho u b (hb ▸ List.mem_cons_self)]
  exact hne

/-- The acts ahead, the links and the assertions, together. -/
structure InLinks (st : State) : Prop where
  owned : Owned st
  linked : Linked st.shared
  setup : ∀ t, Outlined Setup st.shared (st.todo t)

theorem inLinks_init (history : History) : InLinks (init history) := by
  refine ⟨owned_init history, ⟨fun s h => absurd rfl h, fun k k' h => (by cases h),
    fun k h => (by cases h), fun p c h => (by cases h)⟩, fun t => ?_⟩
  cases t with
  | parent => exact outlined_singleton trivial
  | sigchld => exact outlined_singleton trivial
  | child k => exact outlined_nil _

theorem InLinks.step (h : InLinks st) (hs : step st l = some st') : InLinks st' := by
  obtain ⟨hI, hout⟩ := links.step h.linked h.setup (fun hne ha hb => h.owned.apart hne ha hb)
    (fun _ _ _ => trivial) hs
  exact ⟨h.owned.step hs, hI, hout⟩

end ChatSystem.Fork
