import ChatSystem.Core.Chunks
import ChatSystem.Thread.Writers

/-!
# Whole frames

The write loop of `send_message` hands a frame over in parts, and another thread can only write
to the same descriptor between two frames. So a connection gets whole frames, one after the
other, along the runs in which no number is handed out that a thread may still send to.
-/

namespace ChatSystem.Thread

open Tasks Transition

variable {st st' : State} {sh sh' : Shared} {t u : Tid} {a b : Act} {i : Input}
  {out : Outcome Lock Tid Act Shared} {l : Tid × Input} {dead : List Nat}

/-- The part of a message that an event hands over to a connection. -/
def Event.part (c : Nat) : Event → Option (Message × List UInt8)
  | .wrote d m bytes => if d = c then some (m, bytes) else none
  | _ => none

/-- The parts of messages a connection got. -/
def parts (c : Nat) (log : List Event) : List (Message × List UInt8) :=
  log.filterMap (Event.part c)

/-- The connection whose `write` takes bytes in a step. -/
def taking (st : State) (l : Tid × Input) : Option Nat :=
  match st.todo l.1, l.2.write with
  | .act (.write fd _ (_ :: _)) :: _, .took _ => st.shared.conn fd
  | _, _ => none

/-- The connection whose `write` fails in a step. -/
def failing (st : State) (l : Tid × Input) : Option Nat :=
  match st.todo l.1, l.2.write with
  | .act (.write fd _ (_ :: _)) :: _, .failed => st.shared.conn fd
  | _, _ => none

/-- A socket that a `write` has failed on takes no more bytes. -/
def FailuresFinal : List Nat → State → List (Tid × Input) → Prop
  | _, _, [] => True
  | dead, st, l :: ls => (∀ c, taking st l = some c → c ∉ dead) ∧
    ∀ st', step st l = some st' → FailuresFinal (dead ++ (failing st l).toList) st' ls

@[simp] theorem parts_append (c : Nat) (log log' : List Event) :
    parts c (log ++ log') = parts c log ++ parts c log' := List.filterMap_append ..

/-! ## Writes that go on -/

/-- The parts in order, and the threads that write: one has what is missing, or all begin. -/
def Agrees (st : State) (fd : Nat) : Option (Message × List UInt8) → Prop
  | none => ∀ t m r, .act (.write fd m r) ∈ st.todo t → r = [] ∨ r = packMessage m
  | some (m, r) => ∃ t, .act (.write fd m r) ∈ st.todo t

/-- Every connection has got its parts in order, and an open one that is not dead gets the rest. -/
structure Framed (st : State) (dead : List Nat) : Prop where
  apart : Apart st
  known : ∀ c, st.shared.accepted ≤ c → parts c st.shared.log = []
  lt : ∀ fd c, st.shared.conn fd = some c → c < st.shared.accepted
  inj : ∀ fd fd' c, st.shared.conn fd = some c → st.shared.conn fd' = some c → fd = fd'
  order : ∀ c, ∃ o, Chunks.InOrder packMessage (parts c st.shared.log) o ∧
    ∀ fd, st.shared.conn fd = some c → c ∉ dead → Agrees st fd o

theorem framed_init (history : History) : Framed (init history) [] := by
  refine ⟨apart_init history, fun _ _ => rfl, fun fd c hc => (by cases hc),
    fun fd fd' c hc => (by cases hc), fun c => ⟨none, .nil, fun fd hc => (by cases hc)⟩⟩

/-- A thread writes in front or not at all. -/
theorem Heads.eq_of_mem (h : Heads st) {x : Stmt Lock Act} {rest : Code}
    (htodo : st.todo t = x :: rest) (hw : b.isWrite = true) (hb : .act b ∈ st.todo t) :
    x = .act b := by
  have hhead := h t
  rw [htodo] at hb hhead
  rcases List.mem_cons.mp hb with hb | hb
  · exact hb.symm
  · cases hw.symm.trans (hhead b hb)

/-- The open descriptors behind a change. -/
theorem conn_of_change (hc : Change t sh a sh') {fd c : Nat} (h : sh'.conn fd = some c) :
    sh.conn fd = some c ∨ a = .accept ∧ sh'.conn = Function.update sh.conn fd (some c) ∧
      sh.conn fd = none ∧ c = sh.accepted ∧ sh'.accepted = c + 1 := by
  cases hc with
  | @accept n hfree =>
    by_cases hfd : fd = n
    · subst hfd
      have hself : (sh.accept fd).conn fd = some sh.accepted := Function.update_self ..
      obtain rfl := Option.some.inj (hself.symm.trans h)
      exact Or.inr ⟨rfl, rfl, hfree, rfl, rfl⟩
    · exact Or.inl ((Function.update_of_ne hfd ..).symm.trans h)
  | closeFd n => exact Or.inl (conn_of_close h)
  | closeSocket s => exact Or.inl (conn_of_close h)
  | _ => exact Or.inl h

/-- Only a write hands over a part. -/
theorem parts_of_change (hc : Change t sh a sh') (ha : a.isWrite = false) (c : Nat) :
    parts c sh'.log = parts c sh.log := by
  have hnote : ∀ (sh₀ : Shared) (e : Event), e.part c = none →
      parts c (sh₀.note e).log = parts c sh₀.log := by
    intro sh₀ e he
    rw [Shared.note, parts_append]
    simp [parts, he]
  have hclose : ∀ fd, parts c (sh.close t fd).log = parts c sh.log := by
    intro fd
    unfold Shared.close
    split
    · rfl
    · exact hnote _ _ rfl
  cases hc with
  | start s fd d => exact hnote _ _ rfl
  | storeLogin s u => exact hnote _ _ rfl
  | closeFd fd => exact hclose fd
  | closeSocket s => exact hclose _
  | write => cases ha
  | _ => rfl

/-- The work of the other threads stays. -/
theorem mem_stays {x : Stmt Lock Act} (hs : step st l = some st') (hu : u ≠ l.1)
    (hx : x ∈ st.todo u) : x ∈ st'.todo u := by
  rcases Tasks.step_cases hs with ⟨y, rest, -, -, rfl⟩ | ⟨y, rest, -, rfl⟩ |
      ⟨a, rest, out, -, -, rfl⟩
  · rwa [todo_goOn_of_ne hu]
  · rwa [todo_goOn_of_ne hu]
  · exact List.mem_append_left _ (by rwa [if_neg hu])

/-- Without a turn of a write loop, threads only begin to write. -/
theorem writes_other (h : Heads st) (hs : step st l = some st')
    (hnot : ∀ fd m r rest, st.todo l.1 ≠ .act (.write fd m r) :: rest) {fd : Nat} {m : Message}
    {r : List UInt8} :
    (.act (.write fd m r) ∈ st'.todo u → .act (.write fd m r) ∈ st.todo u ∨ r = packMessage m) ∧
      (.act (.write fd m r) ∈ st.todo u → .act (.write fd m r) ∈ st'.todo u) := by
  constructor
  · intro hm
    rcases mem_after hs hm with hold | ⟨a, rest, out, htodo, hexec, ⟨rfl, hnew⟩ | ⟨-, hw, -⟩⟩
    · exact Or.inl hold
    · obtain ⟨-, ⟨s, m', rfl, he⟩ | ⟨fd', m', rfl, he⟩ | ⟨fd', m', r₁, r₂, rfl, he⟩⟩ :=
        write_next (b := .write fd m r) hexec hnew rfl
      · cases he
        exact Or.inr rfl
      · cases he
        exact Or.inr rfl
      · exact absurd htodo (hnot _ _ _ _)
    · cases hw
  · intro hm
    have hu : u ≠ l.1 := by
      rintro rfl
      cases htodo : st.todo l.1 with
      | nil =>
        rw [htodo] at hm
        cases hm
      | cons x rest =>
        obtain rfl := h.eq_of_mem (b := .write fd m r) htodo rfl hm
        exact hnot fd m r rest htodo
    exact mem_stays hs hu hm

theorem Change.accepted_le (h : Change t sh a sh') : sh.accepted ≤ sh'.accepted := by
  by_cases ha : a = .accept
  · subst ha
    cases h with
    | same => exact Nat.le_refl _
    | accept => exact Nat.le_succ _
  · exact (h.accepted ha).ge

/-- What a step without a turn of a write loop changes. -/
theorem shared_other (hs : step st l = some st')
    (hnot : ∀ fd m r rest, st.todo l.1 ≠ .act (.write fd m r) :: rest) :
    (∀ c, parts c st'.shared.log = parts c st.shared.log) ∧
      st.shared.accepted ≤ st'.shared.accepted ∧
      ∀ fd c, st'.shared.conn fd = some c → st.shared.conn fd = some c ∨
        (∃ rest, st.todo l.1 = .act .accept :: rest) ∧ l.2.fd = some fd ∧
          st'.shared.conn = Function.update st.shared.conn fd (some c) ∧
          c = st.shared.accepted ∧ st'.shared.accepted = c + 1 := by
  rcases Tasks.step_cases hs with ⟨_, _, _, _, rfl⟩ | ⟨_, _, _, rfl⟩ | ⟨a, rest, out, ha, he, rfl⟩
  · exact ⟨fun _ => rfl, Nat.le_refl _, fun _ _ h => Or.inl h⟩
  · exact ⟨fun _ => rfl, Nat.le_refl _, fun _ _ h => Or.inl h⟩
  · have hc := change_of_exec he
    have hw : a.isWrite = false := by
      cases a with
      | write fd m r => exact absurd ha (hnot fd m r rest)
      | _ => rfl
    refine ⟨parts_of_change hc hw, hc.accepted_le, fun fd c h => ?_⟩
    · rcases conn_of_change hc h with h | ⟨rfl, h1, hfree, h2, h3⟩
      · exact Or.inl h
      · refine Or.inr ⟨⟨rest, ha⟩, ?_, h1, h2, h3⟩
        simp only [exec] at he
        split at he
        · obtain rfl := goOn_inj he
          cases hfree.symm.trans h
        · next n hn =>
          split at he
          · obtain rfl := goOn_inj he
            by_cases hfd : fd = n
            · rw [hfd]
              exact hn
            · cases hfree.symm.trans ((Function.update_of_ne hfd ..).symm.trans h)
          · cases he

/-- A step without a turn of a write loop. -/
theorem Framed.other (h : Framed st dead) (hok : KeepsApart st l) (hs : step st l = some st')
    (hnot : ∀ fd m r rest, st.todo l.1 ≠ .act (.write fd m r) :: rest) : Framed st' dead := by
  obtain ⟨hparts, hacc, hconn⟩ := shared_other hs hnot
  have hmain : ∀ {rest : Code}, st.todo l.1 = .act .accept :: rest →
      l.1 = .main ∧ st.todo .main = [.act .accept] := by
    intro rest htodo
    obtain ⟨g, k, hat, -⟩ := h.apart.occupied
    have hl := hat.main_of_role htodo rfl
    obtain ⟨o, hturn, -⟩ := h.apart.turn
    rw [hl] at htodo
    rw [htodo] at hturn
    cases hturn
    exact ⟨hl, htodo⟩
  refine ⟨h.apart.step hok hs, fun c hc => ?_, fun fd c hc => ?_, fun fd fd' c hc hc' => ?_,
    fun c => ?_⟩
  · rw [hparts]
    exact h.known c (hacc.trans hc)
  · rcases hconn fd c hc with hc | ⟨-, -, -, -, hc⟩
    · exact (h.lt fd c hc).trans_le hacc
    · omega
  · rcases hconn fd c hc with hc₀ | ⟨-, -, hupd, he, -⟩
    · rcases hconn fd' c hc' with hc' | ⟨-, -, -, he, -⟩
      · exact h.inj fd fd' c hc₀ hc'
      · exact absurd he (h.lt fd c hc₀).ne
    · by_contra hne
      rw [hupd, Function.update_of_ne (Ne.symm hne)] at hc'
      exact (h.lt fd' c hc').ne he
  · obtain ⟨o, horder, hagrees⟩ := h.order c
    refine ⟨o, (hparts c).symm ▸ horder, fun fd hc hdead => ?_⟩
    rcases hconn fd c hc with hc₀ | ⟨⟨rest, htodo⟩, hfd, -, he, -⟩
    · have hold := hagrees fd hc₀ hdead
      cases o with
      | none =>
        intro u m r hm
        rcases (writes_other h.apart.heads hs hnot).1 hm with hm | rfl
        · exact hold u m r hm
        · exact Or.inr rfl
      | some mr =>
        obtain ⟨u, hm⟩ := hold
        exact ⟨u, (writes_other h.apart.heads hs hnot).2 hm⟩
    · -- a new connection: nothing was handed over yet, and nobody writes to its number
      have hnone : parts c st.shared.log = [] := h.known c he.ge
      rw [hnone] at horder
      obtain rfl : o = none := by
        generalize hcs : ([] : List (Message × List UInt8)) = cs at horder
        cases horder with
        | nil => rfl
        | begin => simp at hcs
        | more => simp at hcs
      obtain ⟨hl, hidle⟩ := hmain htodo
      intro u m r hm
      rcases (writes_other h.apart.heads hs hnot).1 hm with hm | rfl
      · exact absurd ⟨m, r, hm⟩ ((hok fd hl hidle hfd).1 u)
      · exact Or.inr rfl

theorem Framed.mono (h : Framed st dead) {dead' : List Nat} (hd : ∀ c ∈ dead, c ∈ dead') :
    Framed st dead' := by
  refine ⟨h.apart, h.known, h.lt, h.inj, fun c => ?_⟩
  obtain ⟨o, horder, hagrees⟩ := h.order c
  exact ⟨o, horder, fun fd hc hdead => hagrees fd hc fun hm => hdead (hd c hm)⟩

/-! ## A turn of a write loop -/

/-- A write loop goes on, or gives up. -/
inductive Turns (st : State) (l : Tid × Input) (fd : Nat) (m : Message) (rest : List UInt8)
    (tail : Code) : State → Prop
  | done (h : rest = []) : Turns st l fd m rest tail (st.goOn l.1 tail)
  | took {c n : Nat} (hc : st.shared.conn fd = some c) (htake : taking st l = some c)
    (hne : rest ≠ []) : Turns st l fd m rest tail
      ({ st with shared := st.shared.note (.wrote c m (rest.take (n + 1))) }.goOn l.1
        (.act (.write fd m (rest.drop (n + 1))) :: tail))
  | again : Turns st l fd m rest tail (st.goOn l.1 (.act (.write fd m rest) :: tail))
  | failed (h : ∀ c, st.shared.conn fd = some c → failing st l = some c) :
    Turns st l fd m rest tail (st.goOn l.1 tail)

theorem turns_of_step (hs : step st l = some st') {fd : Nat} {m : Message} {rest : List UInt8}
    {tail : Code} (htodo : st.todo l.1 = .act (.write fd m rest) :: tail) :
    Turns st l fd m rest tail st' := by
  rcases Tasks.step_cases hs with ⟨y, p, hy, -⟩ | ⟨y, p, hy, -⟩ | ⟨a, p, out, hy, hexec, rfl⟩
  · cases htodo.symm.trans hy
  · cases htodo.symm.trans hy
  · obtain ⟨ha, rfl⟩ := List.cons.inj (hy.symm.trans htodo)
    obtain rfl := Stmt.act.inj ha
    simp only [exec] at hexec
    split at hexec
    · obtain rfl := goOn_inj hexec
      rw [perform_eq rfl]
      exact .done rfl
    · next x xs c n hc hw =>
      obtain rfl := goOn_inj hexec
      rw [perform_eq rfl]
      refine .took hc ?_ (List.cons_ne_nil x xs)
      simp only [taking, htodo, hw, hc]
    · next x xs c hc hw =>
      obtain rfl := goOn_inj hexec
      rw [perform_eq rfl]
      exact .again
    · next x xs htook hint =>
      obtain rfl := goOn_inj hexec
      rw [perform_eq rfl]
      refine .failed fun c hc => ?_
      have hw : l.2.write = .failed := by
        cases hw : l.2.write with
        | took n => exact (htook c n hc hw).elim
        | interrupted => exact (hint c hc hw).elim
        | failed => rfl
      simp only [failing, htodo, hw, hc]

section Turn

variable {fd : Nat} {m : Message} {rest : List UInt8} {tail nx : Code}

/-- The write loops behind a turn of one. -/
theorem write_mem_turn (h : Heads st) (htodo : st.todo t = .act (.write fd m rest) :: tail)
    (hwork : st'.todo = Function.update st.todo t (nx ++ tail)) {fd' : Nat} {m' : Message}
    {r : List UInt8} : .act (.write fd' m' r) ∈ st'.todo u ↔
      u ≠ t ∧ .act (.write fd' m' r) ∈ st.todo u ∨ u = t ∧ .act (.write fd' m' r) ∈ nx := by
  rw [hwork]
  by_cases hu : u = t
  · subst hu
    have htail : .act (.write fd' m' r) ∉ tail := by
      intro hm
      have hhead := h u
      rw [htodo] at hhead
      cases hhead _ hm
    rw [Function.update_self, List.mem_append, or_iff_left htail]
    constructor
    · exact fun hm => Or.inr ⟨rfl, hm⟩
    · rintro (⟨hne, -⟩ | ⟨-, hm⟩)
      · exact absurd rfl hne
      · exact hm
  · rw [Function.update_of_ne hu]
    constructor
    · exact fun hm => Or.inl ⟨hu, hm⟩
    · rintro (⟨-, hm⟩ | ⟨he, -⟩)
      · exact hm
      · exact absurd he hu

/-- A write loop on another descriptor does not matter. -/
theorem agrees_turn_of_ne (h : Heads st) (htodo : st.todo t = .act (.write fd m rest) :: tail)
    (hwork : st'.todo = Function.update st.todo t (nx ++ tail))
    (hnx : ∀ fd' m' r, .act (.write fd' m' r) ∈ nx → fd' = fd) {fd' : Nat} (hne : fd' ≠ fd)
    {o : Option (Message × List UInt8)} (hold : Agrees st fd' o) : Agrees st' fd' o := by
  cases o with
  | none =>
    intro u m' r hm
    rcases (write_mem_turn h htodo hwork).mp hm with ⟨-, hm⟩ | ⟨-, hm⟩
    · exact hold u m' r hm
    · exact absurd (hnx _ _ _ hm) hne
  | some mr =>
    obtain ⟨u, hm⟩ := hold
    refine ⟨u, (write_mem_turn h htodo hwork).mpr (Or.inl ⟨?_, hm⟩)⟩
    rintro rfl
    cases h.eq_of_mem (b := .write fd' mr.1 mr.2) htodo rfl hm
    exact hne rfl

/-- The one that writes to a descriptor writes what is missing, or begins. -/
theorem Agrees.turn (h : Apart st) (htodo : st.todo t = .act (.write fd m rest) :: tail)
    {o : Option (Message × List UInt8)} (hold : Agrees st fd o) :
    o = none ∧ (rest = [] ∨ rest = packMessage m) ∨ o = some (m, rest) := by
  have hmem : .act (.write fd m rest) ∈ st.todo t := htodo ▸ List.mem_cons_self
  cases o with
  | none => exact Or.inl ⟨rfl, hold t m rest hmem⟩
  | some mr =>
    obtain ⟨u, hm⟩ := hold
    obtain rfl := h.eq_of_writing ⟨_, _, hm⟩ ⟨_, _, hmem⟩
    cases h.heads.eq_of_mem (b := .write fd mr.1 mr.2) htodo rfl hm
    exact Or.inr rfl

/-- Behind a turn of its write loop a descriptor gets what is missing now. -/
theorem agrees_took (h : Apart st) (htodo : st.todo t = .act (.write fd m rest) :: tail)
    {r : List UInt8} (hwork : st'.todo = Function.update st.todo t (.act (.write fd m r) :: tail)) :
    Agrees st' fd (Chunks.missing m r) := by
  have hmem : ∀ {u : Tid} {m' : Message} {r' : List UInt8}, .act (.write fd m' r') ∈ st'.todo u ↔
      u ≠ t ∧ .act (.write fd m' r') ∈ st.todo u ∨
        u = t ∧ .act (.write fd m' r') ∈ ([.act (.write fd m r)] : Code) :=
    write_mem_turn h.heads htodo hwork
  cases r with
  | nil =>
    intro u m' r' hm
    rcases hmem.mp hm with ⟨hu, hm⟩ | ⟨-, hm⟩
    · refine absurd (h.eq_of_writing ⟨_, _, hm⟩ ⟨m, rest, ?_⟩) hu
      exact htodo ▸ List.mem_cons_self
    · cases List.mem_singleton.mp hm
      exact Or.inl rfl
  | cons b bs => exact ⟨t, hmem.mpr (Or.inr ⟨rfl, List.mem_singleton_self _⟩)⟩

/-- A turn of a write loop keeps the frames whole. -/
theorem Framed.turn (h : Framed st dead) (hok : KeepsApart st l) (hs : step st l = some st')
    (htodo : st.todo l.1 = .act (.write fd m rest) :: tail)
    (hfinal : ∀ c, taking st l = some c → c ∉ dead) :
    Framed st' (dead ++ (failing st l).toList) := by
  have hapart' := h.apart.step hok hs
  have hturn := turns_of_step hs htodo
  have hinert : ∀ {nx : Code}, st' = st.goOn l.1 (nx ++ tail) →
      (∀ fd' m' r, .act (.write fd' m' r) ∈ nx → fd' = fd) →
      (∀ c o, st.shared.conn fd = some c → c ∉ dead ++ (failing st l).toList →
        Chunks.InOrder packMessage (parts c st.shared.log) o → Agrees st fd o → Agrees st' fd o) →
      Framed st' (dead ++ (failing st l).toList) := by
    rintro nx rfl hnx hfd
    refine ⟨hapart', h.known, h.lt, h.inj, fun c => ?_⟩
    obtain ⟨o, horder, hagrees⟩ := h.order c
    refine ⟨o, horder, fun fd' hc hdead => ?_⟩
    have hold := hagrees fd' hc fun hm => hdead (List.mem_append_left _ hm)
    by_cases hne : fd' = fd
    · subst hne
      exact hfd c o hc hdead horder hold
    · exact agrees_turn_of_ne h.apart.heads htodo rfl hnx hne hold
  have hnil : ∀ fd' m' r, .act (.write fd' m' r) ∈ ([] : Code) → fd' = fd :=
    fun _ _ _ hm => (by cases hm)
  cases hturn with
  | done hrest =>
    refine hinert rfl hnil fun c o hc hdead horder hold => ?_
    rcases hold.turn h.apart htodo with ⟨rfl, -⟩ | rfl
    · intro u m' r hm
      have hwork : (st.goOn l.1 tail).todo = Function.update st.todo l.1 (([] : Code) ++ tail) := rfl
      rcases (write_mem_turn h.apart.heads htodo hwork).mp hm with ⟨-, hm⟩ | ⟨-, hm⟩
      · exact hold u m' r hm
      · cases hm
    · exact absurd hrest (horder.ne_nil rfl)
  | again =>
    have hsame : st.goOn l.1 (.act (.write fd m rest) :: tail) = st := by
      rw [State.goOn, ← htodo, Function.update_eq_self]
    rw [hsame]
    exact h.mono fun c hm => List.mem_append_left _ hm
  | failed hfail =>
    refine hinert rfl hnil fun c o hc hdead _ _ => ?_
    refine absurd ?_ hdead
    rw [hfail c hc]
    exact List.mem_append_right _ (List.mem_singleton_self c)
  | @took c n hc htake hne =>
    have hlog : ∀ d, parts d (st.shared.note (.wrote c m (rest.take (n + 1)))).log =
        parts d st.shared.log ++ if c = d then [(m, rest.take (n + 1))] else [] := by
      intro d
      rw [Shared.note, parts_append]
      congr 1
      by_cases hd : c = d <;> simp [parts, Event.part, hd]
    have hnx : ∀ fd' m' r,
        .act (.write fd' m' r) ∈ ([.act (.write fd m (rest.drop (n + 1)))] : Code) → fd' = fd := by
      intro fd' m' r hm
      cases List.mem_singleton.mp hm
      rfl
    refine ⟨hapart', fun d hd => ?_, h.lt, h.inj, fun d => ?_⟩
    · have hcd : c ≠ d := fun he => (h.lt fd c hc).not_ge (he ▸ hd)
      exact (hlog d).trans (by rw [if_neg hcd, List.append_nil, h.known d hd])
    obtain ⟨o, horder, hagrees⟩ := h.order d
    by_cases hcd : c = d
    · subst hcd
      have hpart := hlog c
      rw [if_pos rfl] at hpart
      refine ⟨Chunks.missing m (rest.drop (n + 1)), ?_, fun fd' hc' _ => ?_⟩
      · rw [← List.take_append_drop (n + 1) rest] at hne
        refine hpart.symm ▸ ?_
        rcases (hagrees fd hc (hfinal c htake)).turn h.apart htodo with ⟨rfl, hrest⟩ | rfl
        · rw [List.take_append_drop] at hne
          refine .begin horder ?_
          rw [List.take_append_drop]
          exact (hrest.resolve_left hne).symm
        · refine .more ?_
          rw [List.take_append_drop]
          exact horder
      · obtain rfl := h.inj fd' fd c hc' hc
        exact agrees_took h.apart htodo rfl
    · refine ⟨o, ?_, fun fd' hc' hdead => ?_⟩
      · refine ((hlog d).trans ?_).symm ▸ horder
        rw [if_neg hcd, List.append_nil]
      · have hold := hagrees fd' hc' fun hm => hdead (List.mem_append_left _ hm)
        refine agrees_turn_of_ne h.apart.heads htodo rfl hnx ?_ hold
        rintro rfl
        exact hcd (Option.some.inj (hc.symm.trans hc'))

end Turn

/-! ## Runs -/

/-- A step keeps the frames whole. -/
theorem Framed.step (h : Framed st dead) (hok : KeepsApart st l) (hs : Thread.step st l = some st')
    (hfinal : ∀ c, taking st l = some c → c ∉ dead) :
    Framed st' (dead ++ (failing st l).toList) := by
  by_cases hw : ∃ fd m rest tail, st.todo l.1 = .act (.write fd m rest) :: tail
  · obtain ⟨fd, m, rest, tail, htodo⟩ := hw
    exact h.turn hok hs htodo hfinal
  · have hother : Framed st' dead :=
      h.other hok hs fun fd m r rest htodo => hw ⟨fd, m, r, rest, htodo⟩
    exact hother.mono fun c hm => List.mem_append_left _ hm

/-- A run that hands out no number a thread may still send to keeps the frames whole. -/
theorem Framed.run {ls : List (Tid × Input)} (h : Framed st dead)
    (hok : Meets Thread.step KeepsApart st ls) (hfinal : FailuresFinal dead st ls)
    (hrun : run Thread.step st ls = some st') : ∃ dead', Framed st' dead' := by
  induction ls generalizing st dead with
  | nil =>
    obtain rfl := Option.some.inj hrun
    exact ⟨dead, h⟩
  | cons l ls ih =>
    obtain ⟨st₁, hs, hrun⟩ := Option.bind_eq_some_iff.mp hrun
    obtain ⟨hl, hok⟩ := hok
    obtain ⟨hfl, hfinal⟩ := hfinal
    exact ih (h.step hl hs hfl) (hok st₁ hs) (hfinal st₁ hs) hrun

/-- In a run that hands out no number a thread may still send to, every connection gets whole
frames, each finished before the next one begins. -/
theorem frames_whole {history : History} {ls : List (Tid × Input)}
    (hok : Meets Thread.step KeepsApart (init history) ls)
    (hfinal : FailuresFinal [] (init history) ls)
    (hrun : run Thread.step (init history) ls = some st) (c : Nat) :
    (∃ o, Chunks.InOrder packMessage (parts c st.shared.log) o) ∧
      ∃ ms : List Message,
        Chunks.bytes (parts c st.shared.log) <+: (ms.map packMessage).flatten := by
  obtain ⟨dead, hframed⟩ := (framed_init history).run hok hfinal hrun
  obtain ⟨o, horder, -⟩ := hframed.order c
  exact ⟨⟨o, horder⟩, horder.isPrefix⟩

theorem keepsApart_client (s : Slot) (c : Nat) (i : Input) (st : State) :
    KeepsApart st (.client s c, i) := by
  intro fd hl
  cases hl

theorem keepsApart_of_head {x : Stmt Lock Act} {rest : Code} (h : st.todo .main = x :: rest)
    (hx : x ≠ .act .accept) : KeepsApart st (.main, i) := by
  intro fd _ htodo
  rw [h] at htodo
  exact absurd (List.cons.inj htodo).1 hx

/-- The first connection may get any number. -/
theorem keepsApart_init (history : History) (l : Tid × Input) : KeepsApart (init history) l := by
  have hidle : ∀ t b, .act b ∈ (init history).todo t → b = .accept := by
    intro t b hb
    cases t with
    | main =>
      cases List.mem_singleton.mp hb
      rfl
    | client s c => cases hb
  intro fd _ _ _
  constructor
  · rintro t ⟨m, r, hm⟩
    cases hidle t _ hm
  · rintro j (hj | ⟨t, b, hb, hj⟩)
    · cases hj
    · obtain rfl := hidle t b hb
      cases hj

/-- Where no `write` fails, none takes bytes behind a failure. -/
theorem failuresFinal_of_forall {ls : List (Tid × Input)} (h : ∀ l ∈ ls, l.2.write ≠ .failed)
    (st : State) : FailuresFinal [] st ls := by
  induction ls generalizing st with
  | nil => trivial
  | cons l ls ih =>
    have hnone : failing st l = none := by
      unfold failing
      split
      · next hw => exact absurd hw (h l List.mem_cons_self)
      · rfl
    refine ⟨fun c _ hm => (by cases hm), fun st' _ => ?_⟩
    rw [hnone]
    exact ih (fun k hk => h k (List.mem_cons_of_mem _ hk)) st'

/-- The steps of a session that logs in and gets its reply. -/
def loginSession : List (Tid × Input) :=
  connect 4 ++ ((.client 0 0, reads (loginAs "a")) :: works 0 0 12)

theorem meets_loginSession : Meets Thread.step KeepsApart (init fun _ => none) loginSession := by
  have hconnect : Meets Thread.step KeepsApart (init fun _ => none) (connect 4) := by
    refine ⟨keepsApart_init _ _, fun s₁ h₁ => ⟨?_, fun s₂ h₂ => ⟨?_, fun s₃ h₃ => ⟨?_,
      fun s₄ h₄ => ⟨?_, fun _ _ => trivial⟩⟩⟩⟩⟩
    · obtain rfl := Option.some.inj h₁
      exact keepsApart_of_head rfl (by simp)
    · obtain rfl := Option.some.inj h₁
      obtain rfl := Option.some.inj h₂
      exact keepsApart_of_head rfl (by simp)
    · obtain rfl := Option.some.inj h₁
      obtain rfl := Option.some.inj h₂
      obtain rfl := Option.some.inj h₃
      exact keepsApart_of_head rfl (by simp)
    · obtain rfl := Option.some.inj h₁
      obtain rfl := Option.some.inj h₂
      obtain rfl := Option.some.inj h₃
      obtain rfl := Option.some.inj h₄
      exact keepsApart_of_head rfl (by simp)
  have hclient : ∀ l ∈ (.client 0 0, reads (loginAs "a")) :: works 0 0 12,
      ∀ st, KeepsApart st l := by
    intro l hl st
    rcases List.mem_cons.mp hl with rfl | hl
    · exact keepsApart_client 0 0 _ st
    · rw [List.eq_of_mem_replicate hl]
      exact keepsApart_client 0 0 _ st
  exact hconnect.append rfl (meets_of_forall hclient _)

theorem failuresFinal_loginSession (st : State) : FailuresFinal [] st loginSession := by
  refine failuresFinal_of_forall (fun l hl => ?_) st
  have hl : l.2.write = .took maxPayloadLen := by
    simp only [loginSession, connect, works, List.mem_append, List.mem_cons, List.mem_replicate]
      at hl
    rcases hl with (rfl | ⟨-, rfl⟩) | rfl | ⟨-, rfl⟩ <;> rfl
  rw [hl]
  simp

/-- The reply to a login is written whole. -/
theorem frames_whole_login : ∃ st, run Thread.step (init fun _ => none)
    (connect 4 ++ ((.client 0 0, reads (loginAs "a")) :: works 0 0 12)) = some st ∧
      (parts 0 st.shared.log).length = 1 ∧
      ∃ ms : List Message,
        Chunks.bytes (parts 0 st.shared.log) <+: (ms.map packMessage).flatten := by
  have hlogin : WellFormed (loginAs "a") := wellFormed_makeMessage ..
  have hrun : run Thread.step (init fun _ => none)
      (connect 4 ++ ((.client 0 0, reads (loginAs "a")) :: works 0 0 12)) = some _ :=
    run_trans rfl (run_cons_iff.mpr ⟨_, step_recv hlogin (by simp [loginAs]) rfl rfl, rfl⟩)
  exact ⟨_, hrun, rfl, (frames_whole meets_loginSession (failuresFinal_loginSession _) hrun 0).2⟩

/-- A broadcast of the user `a`. -/
def shout : Message := makeMessage 0 .broadcast (Bytes.ascii "a") [] (Bytes.ascii "hhhh")

/-- The end of a frame does not pass for a frame. -/
theorem not_frames_drop {bs : List UInt8} (hlen : headerSize ≤ bs.length)
    (hmax : maxPayloadLen < (announcedLen bs).toNat) :
    ¬ ∃ ms : List Message, bs <+: (ms.map packMessage).flatten := by
  rintro ⟨ms, hms⟩
  cases ms with
  | nil =>
    rw [List.prefix_nil.mp hms] at hlen
    cases hlen
  | cons m ms =>
    have hfront : ((m :: ms).map packMessage).flatten = packHeader m ++
        (m.payload.toList.take (packedLen m).toNat ++ (ms.map packMessage).flatten) := by
      simp [packMessage]
    have htake := List.prefix_iff_eq_take.mp hms
    rw [htake, announcedLen_take hlen, hfront, announcedLen_packHeader] at hmax
    exact (packedLen_le m).not_gt hmax

/-- Without the condition, the rest of a frame reaches the connection that got the number of the
one it was meant for: `b` leaves after the first 4 bytes, and 76 bytes are still to be written. -/
theorem frame_torn : ∃ ls st, run Thread.step (init fun _ => none) ls = some st ∧
    ¬ ∃ ms : List Message,
      Chunks.bytes (parts 2 st.shared.log) <+: (ms.map packMessage).flatten := by
  have hlogin : ∀ name, WellFormed (loginAs name) := fun _ => wellFormed_makeMessage ..
  have hshout : WellFormed shout := wellFormed_makeMessage ..
  refine ⟨connect 4 ++ (connect 5 ++ ((.client 0 0, reads (loginAs "a")) :: (works 0 0 12 ++
    ((.client 1 1, reads (loginAs "b")) :: (works 1 1 12 ++
      ((.client 0 0, reads shout) :: (works 0 0 6 ++
        ((.client 0 0, { noInput with write := .took 3 }) :: ((.client 1 1, noInput) ::
          (works 1 1 21 ++ (connect 5 ++ works 0 0 1))))))))))), _,
    run_trans rfl (run_trans rfl (run_cons_iff.mpr
      ⟨_, step_recv (hlogin _) (by simp [loginAs]) rfl rfl, run_trans rfl (run_cons_iff.mpr
        ⟨_, step_recv (hlogin _) (by simp [loginAs]) rfl rfl, run_trans rfl (run_cons_iff.mpr
          ⟨_, step_recv hshout (by simp [shout]) rfl rfl, run_trans rfl (run_cons_iff.mpr
            ⟨_, rfl, run_cons_iff.mpr ⟨_, step_recv_end rfl,
              run_trans rfl (run_trans rfl rfl)⟩⟩)⟩)⟩)⟩)), ?_⟩
  change ¬ ∃ ms : List Message,
    Chunks.bytes [(shout, ((packMessage shout).drop 4).take (maxPayloadLen + 1))] <+:
      (ms.map packMessage).flatten
  rw [Chunks.bytes_singleton]
  exact not_frames_drop (by decide) (by decide)

end ChatSystem.Thread
