import ChatSystem.Fork.Ends
import ChatSystem.Fork.Relays

/-!
# Turns of the select loop

What the parent reads in a turn of its loop was reported by `select` and can still be read when
its slot comes up, whatever was done for other slots and by other processes in between: no read of
a pipe keeps the parent waiting.
-/

namespace ChatSystem.Fork

open Bytes Channel Tasks Transition

/-- The numbers the slots read from are open for good, and no two slots read from one pipe. -/
structure Listening (sh : Shared) : Prop where
  lasting : ∀ s, ∃ r, sh.fd (sh.clients s).fromChild.1 = some r ∧ r.lasting = true
  apart : ∀ i j c, sh.connOf i = some c →
    (sh.clients i).fromChild.1 = (sh.clients j).fromChild.1 → i = j

/-- Descriptors of pipes that slots were given, each for a child. -/
def Watched (sh : Shared) (rfds : List Nat) : Prop :=
  ∀ fd ∈ rfds, ∃ k : Child, .forked k ∈ sh.books ∧ sh.fd fd = some (.fromRead k.conn) ∧
    ∀ j, (sh.clients j).fromChild.1 = fd → j = k.slot

/-- The reported pipes of some slots can be read. -/
def Reported (sh : Shared) (slots : List Slot) (rfds : List Nat) : Prop :=
  ∀ s ∈ slots, (sh.clients s).fromChild.1 ∈ rfds → sh.readable (sh.clients s).fromChild.1 = true

/-- The loop over the slots to watch, `select`, the loop over the reported slots and its read. -/
def Act.turns : Act → Bool
  | .watch _ _ | .select _ | .check _ _ | .recv _ _ => true
  | _ => false

/-- Where the parent is in a turn of its loop. -/
inductive Turn (sh : Shared) : Code → Prop
  | watch {slots : List Slot} {rfds : List Nat} (hw : Watched sh rfds)
    (hall : ∀ s, (sh.clients s).pid ≠ 0 → s ∈ slots ∨ (sh.clients s).fromChild.1 ∈ rfds) :
    Turn sh (code [.watch slots rfds])
  | select {rfds : List Nat} (hw : Watched sh rfds)
    (hall : ∀ s, (sh.clients s).pid ≠ 0 → (sh.clients s).fromChild.1 ∈ rfds) :
    Turn sh (code [.select rfds])
  | check {front : List Act} {slots : List Slot} {rfds : List Nat}
    (hfront : ∀ a ∈ front, a.turns = false) (hw : Watched sh rfds) (hslots : slots.Nodup)
    (hready : Reported sh slots rfds) : Turn sh (code (front ++ [.check slots rfds]))
  | recv {s : Slot} {slots : List Slot} {rfds : List Nat} (hw : Watched sh rfds)
    (hslots : (s :: slots).Nodup) (hready : Reported sh (s :: slots) rfds)
    (hs : (sh.clients s).fromChild.1 ∈ rfds) :
    Turn sh (code [.recv s (sh.clients s).fromChild.1, .check slots rfds])

variable {t : Tid} {a : Act} {i : Input} {sh sh' : Shared} {out : Outcome Empty Tid Act Shared}
  {slots : List Slot} {rfds : List Nat} {s : Slot} {st st' : State} {l : Tid × Input}
  {history : History} {rest p : Code}

/-! ## What the slots read from -/

/-- No slot is given another pipe to read from, or one is given a new one. -/
theorem fromChild_of_change (hc : Change sh a sh') :
    (∀ j, (sh'.clients j).fromChild = (sh.clients j).fromChild) ∨
      ∃ s c, sh.fd (sh'.clients s).fromChild.1 = none ∧
        sh'.fd (sh'.clients s).fromChild.1 = some (.fromRead c) ∧
        ∀ j, j ≠ s → (sh'.clients j).fromChild = (sh.clients j).fromChild := by
  by_cases hp : ∃ s fd c, a = .pipes s fd c
  · obtain ⟨s, fd, c, rfl⟩ := hp
    cases hc with
    | quiet h => exact Or.inl fun j => by rw [h.clients]
    | @openTo _ _ _ p hp =>
      refine Or.inl fun j => ?_
      by_cases hj : j = s
      · subst hj
        rw [Shared.openTo, clients_setClient_self]
      · rw [clients_openTo_of_ne sh hj]
    | @openBoth _ _ _ p q hp hq =>
      refine Or.inr ⟨s, c, ?_, (ends_openFrom hp hq).fromRead, fun j hj => ?_⟩
      · rw [(pairs_openFrom _ s c q).2]
        cases hfree : sh.fd q.1 with
        | none => rfl
        | some r => cases (fd_openTo (s := s) (c := c) hp hfree).symm.trans hq.1
      · rw [clients_openFrom_of_ne _ hj, clients_openTo_of_ne sh hj]
  · exact Or.inl fun j => (pairs_of_change hc (fun s fd c he => hp ⟨s, fd, c, he⟩) j).2

theorem Listening.keeps (hI : Listening sh) (hc : Change sh a sh') (hpre : Setup a sh) :
    Listening sh' := by
  have hold : ∀ j, (sh'.clients j).fromChild = (sh.clients j).fromChild →
      ∃ r, sh'.fd (sh'.clients j).fromChild.1 = some r ∧ r.lasting = true := by
    intro j hj
    obtain ⟨r, hr, hlast⟩ := hI.lasting j
    exact ⟨r, hj ▸ fd_stays hc hpre hr hlast, hlast⟩
  have hconn : ∀ j c, (sh'.clients j).fromChild = (sh.clients j).fromChild →
      sh'.connOf j = some c → sh.connOf j = some c := by
    intro j c hj hcj
    obtain ⟨r, hr, hlast⟩ := hI.lasting j
    rw [connOf_eq_some, hj, fd_stays hc hpre hr hlast] at hcj
    rw [connOf_eq_some, hr, hcj]
  rcases fromChild_of_change hc with hsame | ⟨s, c, hnew, hopen, hsame⟩
  · refine ⟨fun j => hold j (hsame j), fun i j c hi hij => ?_⟩
    rw [hsame, hsame] at hij
    exact hI.apart i j c (hconn i c (hsame i) hi) hij
  · -- the new number was free, so that no slot had it
    have hfresh : ∀ j, j ≠ s → (sh'.clients j).fromChild.1 ≠ (sh'.clients s).fromChild.1 := by
      intro j hj he
      obtain ⟨r, hr, -⟩ := hI.lasting j
      rw [← hsame j hj, he, hnew] at hr
      cases hr
    refine ⟨fun j => ?_, fun i j d hi hij => ?_⟩
    · by_cases hj : j = s
      · exact hj ▸ ⟨_, hopen, rfl⟩
      · exact hold j (hsame j hj)
    · by_cases his : i = s
      · by_cases hjs : j = s
        · rw [his, hjs]
        · exact absurd (his ▸ hij.symm) (hfresh j hjs)
      · by_cases hjs : j = s
        · exact absurd (hjs ▸ hij) (hfresh i his)
        · rw [hsame i his, hsame j hjs] at hij
          exact hI.apart i j d (hconn i d (hsame i his) hi) hij

theorem listening_init (history : History) : Listening (Shared.init history) := by
  refine ⟨fun s => ⟨.own, rfl, rfl⟩, fun i j c hi => ?_⟩
  rw [connOf_eq_some] at hi
  cases hi

/-- The pipe of a slot with a pid can be watched. -/
theorem Listening.watched (hI : Listening sh) (hL : Linked sh) (hs : (sh.clients s).pid ≠ 0) :
    Watched sh [(sh.clients s).fromChild.1] := by
  intro fd hfd
  obtain rfl := List.mem_singleton.mp hfd
  obtain ⟨c, hconn, hk, -⟩ := hL.holder s hs
  exact ⟨_, hk, connOf_eq_some.mp hconn, fun j hj => (hI.apart s j c hconn hj.symm).symm⟩

theorem Watched.keeps (hw : Watched sh rfds) (hc : Change sh a sh') (hpre : Setup a sh) :
    Watched sh' rfds := by
  intro fd hfd
  obtain ⟨k, hk, hopen, hown⟩ := hw fd hfd
  refine ⟨k, forked_stays hc hk, fd_stays hc hpre hopen rfl, fun j hj => ?_⟩
  rcases fromChild_of_change hc with hsame | ⟨s, c, hnew, -, hsame⟩
  · exact hown j (hsame j ▸ hj)
  · by_cases hjs : j = s
    · rw [← hjs, hj, hopen] at hnew
      cases hnew
    · exact hown j (hsame j hjs ▸ hj)

/-- Only the parent's read takes from a pipe to the parent. -/
theorem readable_stays {fd c : Nat} (hc : Change sh a sh') (hpre : Setup a sh)
    (ha : ∀ s fd, a ≠ .recv s fd) (hfd : sh.fd fd = some (.fromRead c))
    (hr : sh.readable fd = true) : sh'.readable fd = true := by
  have hread : sh.readEnd fd = some c := by
    rw [Shared.readEnd, hfd]
  have hread' : sh'.readEnd fd = some c := by
    rw [Shared.readEnd, fd_stays hc hpre hfd rfl]
  simp only [Shared.readable, hread, hread', Bool.or_eq_true, Bool.not_eq_true',
    List.isEmpty_eq_false_iff] at hr ⊢
  have hsame : sh'.fromPipe = sh.fromPipe → sh'.closed = sh.closed →
      sh'.fromPipe c ≠ [] ∨ sh'.closed c = true := by
    intro h1 h2
    rw [h1, h2]
    exact hr
  cases hc with
  | quiet h => exact hsame h.fromPipe h.closed
  | recv => exact absurd rfl (ha _ _)
  | @forward k m hk =>
    refine hr.imp (fun hne => ?_) id
    change Function.update sh.fromPipe k.conn (sh.fromPipe k.conn ++ packMessage m) c ≠ []
    by_cases hkc : c = k.conn
    · rw [hkc, Function.update_self]
      exact fun h => hne (hkc ▸ (List.append_eq_nil_iff.mp h).1)
    · rw [Function.update_of_ne hkc]
      exact hne
  | @exit k hk =>
    refine hr.imp id fun hclosed => ?_
    change Function.update sh.closed k.conn true c = true
    by_cases hkc : c = k.conn
    · rw [hkc, Function.update_self]
    · rw [Function.update_of_ne hkc]
      exact hclosed
  | @reap pid c' hpid =>
    rcases reap_cases sh pid with ⟨-, he⟩ | ⟨s, -, -, he⟩ <;> rw [he] at hsame ⊢
    · exact hsame rfl rfl
    · exact hsame rfl rfl
  | _ => exact hsame rfl rfl

theorem Reported.keeps (hready : Reported sh slots rfds) (hw : Watched sh rfds) (hc : Change sh a sh')
    (hpre : Setup a sh) (ha : ∀ s fd, a ≠ .recv s fd) : Reported sh' slots rfds := by
  intro s hs hfd
  have hsame : (sh'.clients s).fromChild = (sh.clients s).fromChild := by
    rcases fromChild_of_change hc with hsame | ⟨s', c, hnew, -, hsame⟩
    · exact hsame s
    · refine hsame s ?_
      rintro rfl
      obtain ⟨k, -, hopen, -⟩ := hw _ hfd
      cases hnew.symm.trans hopen
  rw [hsame] at hfd ⊢
  obtain ⟨k, -, hopen, -⟩ := hw _ hfd
  exact readable_stays hc hpre ha hopen (hready s hs hfd)

/-- A read from the pipe of one slot leaves what can be read at the others. -/
theorem Reported.recv (hready : Reported sh (s :: slots) rfds) (hw : Watched sh rfds) (hL : Linked sh)
    (hslots : (s :: slots).Nodup) (hs : (sh.clients s).fromChild.1 ∈ rfds) {c : Nat}
    (hc : sh.readEnd (sh.clients s).fromChild.1 = some c) (bytes : List UInt8) :
    Reported (sh.readFrom c bytes) slots rfds := by
  intro j hj hfd
  have hfd : (sh.clients j).fromChild.1 ∈ rfds := hfd
  obtain ⟨k, hk, hopen, hown⟩ := hw _ hs
  obtain ⟨k', hk', hopen', hown'⟩ := hw _ hfd
  have hslot : k.slot ≠ k'.slot := by
    rw [← hown s rfl, ← hown' j rfl]
    rintro rfl
    exact (List.nodup_cons.mp hslots).1 hj
  have hne : k'.conn ≠ k.conn := fun he => hslot (congrArg Child.slot (hL.once _ _ hk hk' he.symm))
  obtain rfl : k.conn = c := by
    rw [Shared.readEnd, hopen] at hc
    exact Option.some.inj hc
  have hr := hready j (List.mem_cons_of_mem _ hj) hfd
  change Shared.readable _ (sh.clients j).fromChild.1 = true
  have hend : (sh.readFrom k.conn bytes).readEnd (sh.clients j).fromChild.1 = some k'.conn := by
    change sh.readEnd _ = _
    rw [Shared.readEnd, hopen']
  have hpipe : (sh.readFrom k.conn bytes).fromPipe k'.conn = sh.fromPipe k'.conn :=
    Function.update_of_ne hne ..
  have hend' : sh.readEnd (sh.clients j).fromChild.1 = some k'.conn := hend
  simp only [Shared.readable, hend, hend', hpipe] at hr ⊢
  exact hr

/-! ## The turns -/

/-- What is not of the loop expands to what is not. -/
theorem turns_next (h : exec t a i sh = some out) (ha : a.turns = false) (hown : a.owner = .parent) :
    ∃ acts, out.next = code acts ∧ ∀ b ∈ acts, b.turns = false := by
  cases a <;> simp only [exec] at h
  case watch | select | check | recv => cases ha
  case bridge | fromClient | farewell | forward | fromParent | exit | reap => cases hown
  case route s c m =>
    obtain rfl := goOn_inj h
    refine ⟨_, rfl, ?_⟩
    unfold Shared.route Shared.login Shared.broadcast Shared.priv Shared.logout
    repeat' split
    all_goals simp [Act.turns]
  all_goals
    repeat' split at h
    all_goals cases h
    all_goals exact ⟨_, rfl, by simp [Act.turns]⟩

/-- Other processes leave the parent where it is. -/
theorem Turn.other (h : Turn sh p) (hc : Change sh a sh') (hpre : Setup a sh)
    (ha : a.owner ≠ .parent) : Turn sh' p := by
  have hrecv : ∀ s fd, a ≠ .recv s fd := by
    rintro s fd rfl
    exact ha rfl
  have hA := async_of_change ha hc
  have hpid : ∀ s, (sh'.clients s).pid ≠ 0 → (sh.clients s).pid ≠ 0 :=
    fun s hs hzero => hs (hA.pid_eq_zero hzero)
  cases h with
  | watch hw hall =>
    refine .watch (hw.keeps hc hpre) fun s hs => ?_
    rw [hA.fromChild]
    exact hall s (hpid s hs)
  | select hw hall =>
    refine .select (hw.keeps hc hpre) fun s hs => ?_
    rw [hA.fromChild]
    exact hall s (hpid s hs)
  | check hfront hw hslots hready =>
    exact .check hfront (hw.keeps hc hpre) hslots (hready.keeps hw hc hpre hrecv)
  | @recv s slots rfds hw hslots hready hs =>
    have h := hready.keeps hw hc hpre hrecv
    rw [← hA.fromChild s] at hs ⊢
    exact .recv (hw.keeps hc hpre) hslots h hs

/-- The turn goes on. -/
theorem Turn.next (h : Turn sh (.act a :: rest)) (hexec : exec t a i sh = some out)
    (hpre : Setup a sh) (hread : Reading a sh) (hown : a.owner = .parent) (hI : Listening sh)
    (hL : Linked sh) : Turn out.shared (out.next ++ rest) := by
  have hc := change_of_exec hexec
  generalize hp : (.act a :: rest : Code) = p at h
  cases h with
  | @watch slots rfds hw hall =>
    obtain ⟨ha, rfl⟩ := List.cons.inj hp
    obtain rfl := Stmt.act.inj ha
    simp only [exec] at hexec
    split at hexec
    · obtain rfl := goOn_inj hexec
      exact .select hw fun s hs => (hall s hs).resolve_left List.not_mem_nil
    · next s slots =>
      split at hexec
      · next hpos =>
        obtain rfl := goOn_inj hexec
        refine .watch (fun fd hfd => ?_) fun j hj => ?_
        · rcases List.mem_append.mp hfd with hfd | hfd
          · exact hw fd hfd
          · exact hI.watched hL hpos.ne' fd hfd
        · rcases hall j hj with hmem | hmem
          · rcases List.mem_cons.mp hmem with rfl | hmem
            · exact Or.inr (List.mem_append_right _ (List.mem_singleton_self _))
            · exact Or.inl hmem
          · exact Or.inr (List.mem_append_left _ hmem)
      · next hpos =>
        obtain rfl := goOn_inj hexec
        refine .watch hw fun j hj => ?_
        rcases hall j hj with hmem | hmem
        · rcases List.mem_cons.mp hmem with rfl | hmem
          · exact absurd (Nat.pos_of_ne_zero hj) hpos
          · exact Or.inl hmem
        · exact Or.inr hmem
  | @select rfds hw hall =>
    obtain ⟨ha, rfl⟩ := List.cons.inj hp
    obtain rfl := Stmt.act.inj ha
    simp only [exec] at hexec
    split at hexec
    · obtain rfl := goOn_inj hexec
      exact .watch (fun fd hfd => (List.not_mem_nil hfd).elim) fun s _ => Or.inl (List.mem_finRange s)
    · obtain rfl := goOn_inj hexec
      change Turn sh (code _ ++ [])
      rw [List.append_nil]
      refine .check ?_ (fun fd hfd => hw fd (List.mem_of_mem_filter hfd)) (List.nodup_finRange _)
        fun s _ hs => (List.mem_filter.mp hs).2
      split <;> simp [Act.turns]
  | @check front slots rfds hfront hw hslots hready =>
    cases front with
    | nil =>
      obtain ⟨ha, rfl⟩ := List.cons.inj hp
      obtain rfl := Stmt.act.inj ha
      simp only [exec] at hexec
      split at hexec
      · obtain rfl := goOn_inj hexec
        exact .watch (fun fd hfd => (List.not_mem_nil hfd).elim)
          fun s _ => Or.inl (List.mem_finRange s)
      · next s slots =>
        split at hexec
        · next hs =>
          obtain rfl := goOn_inj hexec
          exact .recv hw hslots hready hs.2
        · obtain rfl := goOn_inj hexec
          have hrest : Turn sh (code ([] ++ [.check slots rfds])) :=
            .check (by simp) hw (List.nodup_cons.mp hslots).2
              fun j hj => hready j (List.mem_cons_of_mem _ hj)
          exact hrest
    | cons b front =>
      obtain ⟨ha, rfl⟩ := List.cons.inj hp
      obtain rfl := Stmt.act.inj ha
      have hb := hfront a List.mem_cons_self
      obtain ⟨acts, hnext, hacts⟩ := turns_next hexec hb hown
      have hrecv : ∀ s fd, a ≠ .recv s fd := by
        rintro s fd rfl
        cases hb
      have hcode : out.next ++ code (front ++ [.check slots rfds]) =
          code ((acts ++ front) ++ [.check slots rfds]) := by
        rw [hnext]
        simp [code]
      change Turn _ (out.next ++ code (front ++ [.check slots rfds]))
      rw [hcode]
      refine .check (fun d hd => ?_) (hw.keeps hc hpre) hslots (hready.keeps hw hc hpre hrecv)
      rcases List.mem_append.mp hd with hd | hd
      · exact hacts d hd
      · exact hfront d (List.mem_cons_of_mem _ hd)
  | @recv s slots rfds hw hslots hready hs =>
    obtain ⟨ha, rfl⟩ := List.cons.inj hp
    obtain rfl := Stmt.act.inj ha
    simp only [exec] at hexec
    split at hexec
    · cases hexec
    · next c hconn =>
      have hrest : ∀ b bytes, b.turns = false →
          Turn (sh.readFrom c bytes) (code ([b] ++ [.check slots rfds])) := by
        intro b bytes hb
        refine .check (by simpa using hb) hw (List.nodup_cons.mp hslots).2
          (hready.recv hw hL hslots hs hconn bytes)
      split at hexec
      · cases hexec
      · obtain rfl := goOn_inj hexec
        exact hrest _ _ rfl
      · obtain rfl := goOn_inj hexec
        exact hrest _ _ rfl

/-! ## The children -/

/-- Where a child is in its loop. -/
inductive Chore (k : Child) : Code → Prop
  | ended : Chore k []
  | bridge : Chore k (code [.bridge k])
  | fromClient : Chore k (code [.fromClient k])
  | fromParent : Chore k (code [.fromParent k])
  | pass (m : Message) : Chore k (code [.forward k m, .bridge k])
  | farewell : Chore k (code [.farewell k])
  | last (m : Message) : Chore k (code [.forward k m, .exit k])
  | exit : Chore k (code [.exit k])

/-- A child goes on in its loop until it ends. -/
theorem Chore.next {k : Child} (h : Chore k (.act a :: rest)) (hexec : exec t a i sh = some out) :
    Chore k (out.next ++ rest) ∧ (out.next ++ rest = [] ↔ a = .exit k) := by
  generalize hp : (.act a :: rest : Code) = p at h
  cases h with
  | ended => cases hp
  | bridge =>
    cases hp
    obtain rfl := goOn_inj hexec
    refine ⟨?_, by simp [code]⟩
    split
    · exact .fromClient
    · exact .fromParent
  | fromClient =>
    cases hp
    simp only [exec] at hexec
    split at hexec
    · obtain rfl := goOn_inj hexec
      exact ⟨.farewell, by simp [code]⟩
    · obtain rfl := goOn_inj hexec
      exact ⟨.pass _, by simp [code]⟩
  | fromParent =>
    cases hp
    simp only [exec] at hexec
    split at hexec
    · cases hexec
    · obtain rfl := goOn_inj hexec
      exact ⟨.exit, by simp [code]⟩
    · obtain rfl := goOn_inj hexec
      exact ⟨.bridge, by simp [code]⟩
  | pass m =>
    cases hp
    simp only [exec] at hexec
    split at hexec <;> obtain rfl := goOn_inj hexec <;> exact ⟨.bridge, by simp [code]⟩
  | farewell =>
    cases hp
    obtain rfl := goOn_inj hexec
    exact ⟨.last _, by simp [code]⟩
  | last m =>
    cases hp
    simp only [exec] at hexec
    split at hexec <;> obtain rfl := goOn_inj hexec <;> exact ⟨.exit, by simp [code]⟩
  | exit =>
    cases hp
    simp only [exec] at hexec
    split at hexec
    · obtain rfl := goOn_inj hexec
      exact ⟨.ended, by simp [code]⟩
    · cases hexec

/-- The children at work are those that run, with their ends of the pipes open; each has its slot,
or is about to get it. -/
structure Staffed (st : State) : Prop where
  chore : ∀ k, Chore k (st.todo (.child k))
  running : ∀ k, st.todo (.child k) ≠ [] ↔
    .forked k ∈ st.shared.books ∧ st.shared.proc k.pid = some (.running k.conn)
  closed : ∀ c, st.shared.closed c = true → ∃ k : Child, .forked k ∈ st.shared.books ∧
    k.conn = c ∧ st.todo (.child k) = []
  slot : ∀ k, st.todo (.child k) ≠ [] →
    (∃ fd rest, st.todo .parent = .act (.storePid k fd) :: rest) ∨
      (st.shared.clients k.slot).pid = k.pid ∧ st.shared.connOf k.slot = some k.conn
  handler : st.todo .sigchld = code [.reap]

theorem staffed_init (history : History) : Staffed (init history) := by
  refine ⟨fun k => .ended, fun k => ⟨fun h => absurd rfl h, fun h => ?_⟩, fun c h => ?_,
    fun k h => absurd rfl h, rfl⟩
  · cases h.1
  · cases h

/-- Processes are created by `fork`, end by `exit` and are waited for by the handler. -/
theorem processes_of_exec (h : exec t a i sh = some out) :
    (out.spawn = none ∧ (∀ k, a ≠ .exit k) ∧ out.shared.proc = sh.proc ∧
      out.shared.closed = sh.closed ∧
      ∀ k, .forked k ∈ out.shared.books ↔ .forked k ∈ sh.books) ∨
    (∃ k fd, a = .fork k.slot fd k.conn ∧ sh.proc k.pid = none ∧ out.shared = sh.start k ∧
      out.next = code [.storePid k fd] ∧ out.spawn = some (.child k, code [.bridge k])) ∨
    (∃ k, a = .exit k ∧ out.spawn = none ∧ sh.proc k.pid = some (.running k.conn) ∧
      out.shared = sh.exit k) ∨
    ∃ pid c, a = .reap ∧ out.spawn = none ∧ sh.proc pid = some (.zombie c) ∧
      out.shared = sh.reap pid := by
  cases hspawn : out.spawn with
  | some up =>
    obtain ⟨s, fd, c, pid, rfl, hu, hp, -, hfree, hshared, hnext⟩ := spawn_eq_some h hspawn
    refine Or.inr (Or.inl ⟨⟨s, c, pid⟩, fd, rfl, hfree, hshared, hnext, ?_⟩)
    rw [← hu, ← hp]
  | none =>
    have hc := change_of_exec h
    generalize hsh : out.shared = sh' at hc
    cases hc with
    | quiet hq =>
      by_cases ha : ∃ k, a = .exit k
      · obtain ⟨k, rfl⟩ := ha
        simp only [exec] at h
        split at h
        · next hk =>
          obtain rfl := goOn_inj h
          exact Or.inr (Or.inr (Or.inl ⟨k, rfl, rfl, hk, hsh.symm⟩))
        · cases h
      · exact Or.inl ⟨rfl, fun k hk => ha ⟨k, hk⟩, hq.proc, hq.closed, fun k => by rw [hq.books]⟩
    | @start s fd c pid _ hfree =>
      simp only [exec] at h
      split at h
      · obtain rfl := goOn_inj h
        rw [← hsh]
        exact Or.inl ⟨rfl, by simp, rfl, rfl, fun k => Iff.rfl⟩
      · split at h
        · obtain rfl := Option.some.inj h
          cases hspawn
        · cases h
    | @exit k hk => exact Or.inr (Or.inr (Or.inl ⟨k, rfl, rfl, hk, rfl⟩))
    | @reap pid c hpid => exact Or.inr (Or.inr (Or.inr ⟨pid, c, rfl, rfl, hpid, rfl⟩))
    | drop s => exact Or.inl ⟨rfl, by simp, rfl, rfl, fun k => mem_books_note rfl (by simp)⟩
    | route s c m => exact Or.inl ⟨rfl, by simp, rfl, rfl, fun k => mem_books_note rfl (by simp)⟩
    | forward => exact Or.inl ⟨rfl, by simp, rfl, rfl, fun k => mem_books_note rfl (by simp)⟩
    | _ => exact Or.inl ⟨rfl, by simp, rfl, rfl, fun k => Iff.rfl⟩

theorem forked_start (sh : Shared) (k k' : Child) :
    .forked k' ∈ (sh.start k).books ↔ .forked k' ∈ sh.books ∨ k' = k := by
  change _ ∈ (Shared.note _ _).books ↔ _
  rw [books_note _ rfl, List.mem_append, List.mem_singleton, Event.forked.injEq]
  exact Iff.rfl

/-- A child that is created was not there. -/
theorem Staffed.fresh (h : Staffed st) {k : Child}
    (hnew : ∀ k', .forked k' ∈ st.shared.books → k'.conn ≠ k.conn) : st.todo (.child k) = [] := by
  by_contra hne
  exact hnew k ((h.running k).mp hne).1 rfl

/-- The pipes of a child that works are open. -/
theorem Staffed.open_ (h : Staffed st) (hL : Linked st.shared) {k : Child}
    (hk : st.todo (.child k) ≠ []) : st.shared.closed k.conn = false := by
  rw [Bool.eq_false_iff]
  intro hclosed
  obtain ⟨k', hk', hconn, hnil⟩ := h.closed _ hclosed
  obtain rfl := hL.once _ _ hk' ((h.running k).mp hk).1 hconn
  exact hk hnil

/-- A child that works has a number of its own. -/
theorem Staffed.pid_ne_zero (h : Staffed st) (hN : Numbered st.shared) {k : Child}
    (hk : st.todo (.child k) ≠ []) : k.pid ≠ 0 := by
  intro hzero
  have hrun := ((h.running k).mp hk).2
  rw [hzero, hN] at hrun
  cases hrun

/-- The slot of a child at work stays the child's. -/
theorem Staffed.slot_stays (h : Staffed st) (hi : InReading st) {k : Child}
    (hk : st.todo (.child k) ≠ []) (hpid : (st.shared.clients k.slot).pid = k.pid)
    (hconn : st.shared.connOf k.slot = some k.conn) (hc : Change st.shared a sh')
    (hset : Setup a st.shared) (hread : Reading a st.shared) :
    (sh'.clients k.slot).pid = k.pid ∧ sh'.connOf k.slot = some k.conn := by
  have hzero := h.pid_ne_zero hi.numbered hk
  have hsame : (sh'.clients k.slot).pid = (st.shared.clients k.slot).pid := by
    rcases pid_of_change hc k.slot with he | rfl | rfl | ⟨k', fd, rfl, hslot⟩
    · exact he
    · obtain ⟨c, hc', hclosed, -⟩ := hread
      obtain rfl := Option.some.inj (hconn.symm.trans hc')
      rw [h.open_ hi.linked hk] at hclosed
      cases hclosed
    · cases hc with
      | quiet hq => rw [hq.clients]
      | @reap pid c hz =>
        rcases pid_reap st.shared pid k.slot with he | ⟨-, hp, -⟩
        · exact he
        · rw [← hp, hpid, ((h.running k).mp hk).2] at hz
          cases hz
    · have hfree := hset.2.1.2
      rw [← hslot, hpid] at hfree
      exact absurd hfree hzero
  have hne : (st.shared.clients k.slot).pid ≠ 0 := hpid ▸ hzero
  refine ⟨hsame.trans hpid, ?_⟩
  rw [connOf_stays hi.linked hc hset hne (used_of_change hc hset (hsame ▸ hne)).2.1]
  exact hconn

/-- The slot of a child at work behind a step. -/
theorem Staffed.slot_next (h : Staffed st) (hi : InReading st) {k : Child}
    (hk : st.todo (.child k) ≠ []) (htodo : st.todo l.1 = .act a :: rest)
    (hexec : exec l.1 a l.2 st.shared = some out) (hset : Setup a st.shared)
    (hread : Reading a st.shared) :
    (∃ fd rest', (st.perform l.1 rest out).todo .parent = .act (.storePid k fd) :: rest') ∨
      (out.shared.clients k.slot).pid = k.pid ∧ out.shared.connOf k.slot = some k.conn := by
  rcases h.slot k hk with ⟨fd, rest', hstore⟩ | ⟨hpid, hconn⟩
  · rw [todo_parent_perform hexec]
    split
    · next hl =>
      rw [hl] at hstore
      obtain ⟨ha, -⟩ := List.cons.inj (hstore.symm.trans htodo)
      obtain rfl := Stmt.act.inj ha
      obtain rfl := goOn_inj hexec
      refine Or.inr ⟨congrArg Client.pid (clients_setClient_self _ _ _), ?_⟩
      have hfrom : ((st.shared.storePid k.slot k.pid).clients k.slot).fromChild =
          (st.shared.clients k.slot).fromChild :=
        (pairs_of_change (.storePid k fd) (by simp) k.slot).2
      rw [connOf_eq_some, hfrom]
      exact hset.2.2.1.fromRead
    · exact Or.inl ⟨fd, rest', hstore⟩
  · exact Or.inr (h.slot_stays hi hk hpid hconn (change_of_exec hexec) hset hread)

/-- What a child has ahead where none is created. -/
theorem Staffed.todo_child (h : Staffed st) (hown : a.owner = l.1)
    (htodo : st.todo l.1 = .act a :: rest) (hexec : exec l.1 a l.2 st.shared = some out)
    (hspawn : out.spawn = none) (k : Child) :
    Chore k ((st.perform l.1 rest out).todo (.child k)) ∧
      ((st.perform l.1 rest out).todo (.child k) ≠ [] ↔
        st.todo (.child k) ≠ [] ∧ a ≠ .exit k) := by
  by_cases hk : .child k = l.1
  · have hchore : Chore k (.act a :: rest) := by
      rw [← htodo, ← hk]
      exact h.chore k
    obtain ⟨hnext, hnil⟩ := hchore.next hexec
    rw [hk, todo_perform_self hspawn, htodo]
    exact ⟨hnext, by simp [hnil]⟩
  · have hne : a ≠ .exit k := by
      rintro rfl
      exact hk hown
    rw [todo_perform_of_ne hspawn hk]
    exact ⟨h.chore k, by simp [hne]⟩

/-- What the handler has ahead. -/
theorem Staffed.todo_sigchld (h : Staffed st) (hown : a.owner = l.1)
    (htodo : st.todo l.1 = .act a :: rest) (hexec : exec l.1 a l.2 st.shared = some out)
    (hspawn : out.spawn = none) : (st.perform l.1 rest out).todo .sigchld = code [.reap] := by
  by_cases hl : Tid.sigchld = l.1
  · rw [← hl, h.handler] at htodo
    obtain ⟨ha, rfl⟩ := List.cons.inj htodo
    obtain rfl := Stmt.act.inj ha
    rw [hl, todo_perform_self hspawn]
    simp only [exec] at hexec
    repeat' split at hexec
    all_goals cases hexec
    rfl
  · rw [todo_perform_of_ne hspawn hl]
    exact h.handler

/-- A child is created. -/
theorem Staffed.start (h : Staffed st) (hi : InReading st) {k : Child} {fd : Nat}
    (htodo : st.todo .parent = .act (.fork k.slot fd k.conn) :: rest)
    (hexec : exec .parent (.fork k.slot fd k.conn) i st.shared = some out)
    (hset : Setup (.fork k.slot fd k.conn) st.shared) (hfree : st.shared.proc k.pid = none)
    (hshared : out.shared = st.shared.start k) (hnext : out.next = code [.storePid k fd])
    (hspawn : out.spawn = some (.child k, code [.bridge k])) :
    Staffed (st.perform .parent rest out) := by
  have hnew : ∀ k', .forked k' ∈ st.shared.books → k'.conn ≠ k.conn := hset.1.fresh
  have hnil := h.fresh hnew
  have hself : (st.perform .parent rest out).todo (.child k) = code [.bridge k] := by
    simp [State.perform, started, hspawn, hnil]
  have hother : ∀ k', k' ≠ k → (st.perform .parent rest out).todo (.child k') =
      st.todo (.child k') := by
    intro k' hk'
    simp [State.perform, started, hspawn, hk']
  have hproc : ∀ p, out.shared.proc p = if p = k.pid then some (.running k.conn)
      else st.shared.proc p := by
    intro p
    rw [hshared]
    exact Function.update_apply ..
  have hforked : ∀ k', .forked k' ∈ out.shared.books ↔ .forked k' ∈ st.shared.books ∨ k' = k := by
    intro k'
    rw [hshared]
    exact forked_start st.shared k k'
  refine ⟨fun k' => ?_, fun k' => ?_, fun c hc => ?_, fun k' hk' => ?_, ?_⟩
  · by_cases hk' : k' = k
    · rw [hk', hself]
      exact .bridge
    · rw [hother k' hk']
      exact h.chore k'
  · change _ ↔ _ ∈ out.shared.books ∧ out.shared.proc k'.pid = _
    rw [hforked, hproc]
    by_cases hk' : k' = k
    · subst hk'
      simp [hself, code]
    · rw [hother k' hk', h.running]
      constructor
      · rintro ⟨hf, hrun⟩
        rw [if_neg]
        · exact ⟨Or.inl hf, hrun⟩
        · intro hp
          rw [hp, hfree] at hrun
          cases hrun
      · rintro ⟨hf, hrun⟩
        have hf := hf.resolve_right hk'
        split at hrun
        · have hconn := Proc.running.inj (Option.some.inj hrun)
          exact absurd hconn.symm (hnew k' hf)
        · exact ⟨hf, hrun⟩
  · have hc : out.shared.closed c = true := hc
    rw [hshared] at hc
    obtain ⟨k', hf, hconn, hend⟩ := h.closed c hc
    have hne : k' ≠ k := by
      rintro rfl
      exact hnew k' hf rfl
    exact ⟨k', (hforked k').mpr (Or.inl hf), hconn, (hother k' hne).trans hend⟩
  · by_cases hkk : k' = k
    · refine Or.inl ⟨fd, rest, ?_⟩
      rw [todo_parent_perform hexec, if_pos rfl, hnext, hkk]
      rfl
    · rw [hother k' hkk] at hk'
      exact h.slot_next (l := (.parent, i)) hi hk' htodo hexec hset trivial
  · simp [State.perform, started, hspawn, h.handler]

theorem proc_reap (sh : Shared) (pid p : Nat) :
    (sh.reap pid).proc p = if p = pid then none else sh.proc p := by
  rcases reap_cases sh pid with ⟨-, he⟩ | ⟨s, -, -, he⟩ <;> rw [he] <;>
    exact Function.update_apply ..

theorem closed_reap (sh : Shared) (pid : Nat) : (sh.reap pid).closed = sh.closed := by
  rcases reap_cases sh pid with ⟨-, he⟩ | ⟨s, -, -, he⟩ <;> rw [he]
  rfl

theorem Staffed.step (h : Staffed st) (hi : InReading st) (hs : Fork.step st l = some st') :
    Staffed st' := by
  obtain ⟨a, rest, out, htodo, hexec, rfl⟩ := step_act hs
  have hown : a.owner = l.1 := hi.owned l.1 a (htodo ▸ List.mem_cons_self)
  have hout := hi.outlined l.1
  rw [htodo] at hout
  obtain ⟨hset, hread⟩ := hout.1 a rfl
  rcases processes_of_exec hexec with ⟨hspawn, hexit, hproc, hclosed, hforked⟩ |
      ⟨k, fd, rfl, hfree, hshared, hnext, hspawn⟩ | ⟨k, rfl, hspawn, hrun, hshared⟩ |
      ⟨pid, c, rfl, hspawn, hz, hshared⟩
  · have hchild := h.todo_child hown htodo hexec hspawn
    refine ⟨fun k => (hchild k).1, fun k => ?_, fun c hc => ?_,
      fun k hk => h.slot_next hi ((hchild k).2.mp hk).1 htodo hexec hset hread,
      h.todo_sigchld hown htodo hexec hspawn⟩
    · change _ ↔ _ ∈ out.shared.books ∧ out.shared.proc k.pid = _
      rw [(hchild k).2, h.running, hforked, hproc]
      simp [hexit k]
    · have hc : out.shared.closed c = true := hc
      rw [hclosed] at hc
      obtain ⟨k, hf, hconn, hend⟩ := h.closed c hc
      refine ⟨k, (hforked k).mpr hf, hconn, ?_⟩
      by_contra hne
      exact ((hchild k).2.mp hne).1 hend
  · obtain ⟨t, i⟩ := l
    obtain rfl : Tid.parent = t := hown
    exact h.start hi htodo hexec hset hfree hshared hnext hspawn
  · have hchild := h.todo_child hown htodo hexec hspawn
    have hk : st.todo (.child k) ≠ [] := by
      rw [show Tid.child k = l.1 from hown, htodo]
      exact List.cons_ne_nil _ _
    have hf := ((h.running k).mp hk).1
    have hproc : ∀ p, out.shared.proc p = if p = k.pid then some (.zombie k.conn)
        else st.shared.proc p := by
      intro p
      rw [hshared]
      exact Function.update_apply ..
    have hbooks : out.shared.books = st.shared.books := by
      rw [hshared]
      rfl
    refine ⟨fun k' => (hchild k').1, fun k' => ?_, fun c hc => ?_,
      fun k' hk' => h.slot_next hi ((hchild k').2.mp hk').1 htodo hexec hset hread,
      h.todo_sigchld hown htodo hexec hspawn⟩
    · change _ ↔ _ ∈ out.shared.books ∧ out.shared.proc k'.pid = _
      rw [(hchild k').2, h.running, hbooks, hproc]
      constructor
      · rintro ⟨⟨hf', hrun'⟩, hne⟩
        refine ⟨hf', ?_⟩
        rwa [if_neg]
        intro hp
        rw [hp, hrun] at hrun'
        have hconn := Proc.running.inj (Option.some.inj hrun')
        exact hne (congrArg Act.exit (hi.linked.once _ _ hf hf' hconn))
      · rintro ⟨hf', hrun'⟩
        split at hrun'
        · cases hrun'
        · next hp =>
          refine ⟨⟨hf', hrun'⟩, fun he => hp ?_⟩
          rw [Act.exit.inj he]
    · have hc : out.shared.closed c = true := hc
      change ∃ k', _ ∈ out.shared.books ∧ _
      rw [hbooks]
      by_cases hck : c = k.conn
      · refine ⟨k, hf, hck.symm, ?_⟩
        by_contra hne
        exact ((hchild k).2.mp hne).2 rfl
      · rw [hshared] at hc
        have hold : st.shared.closed c = true := (Function.update_of_ne hck ..).symm.trans hc
        obtain ⟨k', hf', hconn, hend⟩ := h.closed c hold
        refine ⟨k', hf', hconn, ?_⟩
        by_contra hne
        exact ((hchild k').2.mp hne).1 hend
  · have hchild := h.todo_child hown htodo hexec hspawn
    have hforked := (async_reap hz).forked
    refine ⟨fun k => (hchild k).1, fun k => ?_, fun c' hc => ?_,
      fun k hk => h.slot_next hi ((hchild k).2.mp hk).1 htodo hexec hset hread,
      h.todo_sigchld hown htodo hexec hspawn⟩
    · change _ ↔ _ ∈ out.shared.books ∧ out.shared.proc k.pid = _
      rw [(hchild k).2, h.running, hshared, hforked, proc_reap]
      by_cases hp : k.pid = pid
      · simp [hp, hz]
      · simp [hp]
    · have hc : out.shared.closed c' = true := hc
      rw [hshared, closed_reap] at hc
      obtain ⟨k, hf, hconn, hend⟩ := h.closed c' hc
      refine ⟨k, ?_, hconn, ?_⟩
      · change _ ∈ out.shared.books
        rw [hshared]
        exact (hforked k).mpr hf
      · by_contra hne
        exact ((hchild k).2.mp hne).1 hend

/-! ## Reachable states -/

/-- The turns of the parent and the children, together. -/
structure InTurns (st : State) : Prop where
  inReading : InReading st
  listening : Listening st.shared
  turn : Turn st.shared (st.todo .parent)
  staffed : Staffed st

theorem inTurns_init (history : History) : InTurns (init history) := by
  refine ⟨inReading_init history, listening_init history, ?_, staffed_init history⟩
  exact .watch (fun fd hfd => (List.not_mem_nil hfd).elim) fun s _ => Or.inl (List.mem_finRange s)

theorem InTurns.step (h : InTurns st) (hs : Fork.step st l = some st') : InTurns st' := by
  have hi := h.inReading
  refine ⟨hi.step hs, ?_, ?_, h.staffed.step hi hs⟩
  all_goals
    obtain ⟨a, rest, out, htodo, hexec, rfl⟩ := step_act hs
    have hown : a.owner = l.1 := hi.owned l.1 a (htodo ▸ List.mem_cons_self)
    have hout := hi.outlined l.1
    rw [htodo] at hout
    obtain ⟨hset, hread⟩ := hout.1 a rfl
    have hc := change_of_exec hexec
  · exact h.listening.keeps hc hset
  · rw [todo_parent_perform hexec]
    have hturn := h.turn
    split
    · next hl =>
      rw [hl, htodo] at hturn
      exact hturn.next hexec hset hread (hown.trans hl.symm) h.listening hi.linked
    · next hl => exact hturn.other hc hset fun ha => hl (ha.symm.trans hown)

theorem inTurns_of_reachable (h : Reachable step (init history) st) : InTurns st :=
  h.invariant (inTurns_init history) fun _ _ _ hi hs => hi.step hs

end ChatSystem.Fork
