import ChatSystem.Core.Transition
import ChatSystem.Epoll.Input

/-!
# The event loop of the epoll server

Every event the loop handles is one step: one turn of the accepting loop, a
hang-up, a wake-up for reading, a wake-up for writing. The kernel may hand out
any descriptor number that is not open.
-/

namespace ChatSystem.Epoll

open Reassembly Transition

/-- What the event loop is woken up for. -/
inductive Action
  /-- `accept` returns `fd`; a reply to a rejected connection is cut after `sent` bytes. -/
  | accept (fd sent : Nat)
  /-- `EPOLLERR` or `EPOLLHUP`, with bytes still to be read. -/
  | hangup (fd : Nat) (unread : List UInt8)
  /-- `EPOLLIN`. -/
  | readable (fd : Nat) (b : Burst)
  /-- `EPOLLOUT`, with bytes still to be read. -/
  | writable (fd : Nat) (unread : List UInt8)

/-- The descriptor of a wake-up. -/
def Action.fd : Action → Nat
  | .accept fd _ | .hangup fd _ | .readable fd _ | .writable fd _ => fd

/-- A turn of the accepting loop. -/
def Action.isAccept : Action → Bool
  | .accept _ _ => true
  | _ => false

/-- One event: its surroundings, the results of its `write` calls, and the wake-up. -/
structure Label where
  env : Env
  writes : List WriteAnswer
  action : Action

/-- The descriptors of the standard streams, the listening socket and the epoll instance. -/
def reservedFds : Nat := 5

namespace Server

variable (srv : Server) (env : Env)

/-- Prescribe the results of the coming `write` calls. -/
def prescribe (writes : List WriteAnswer) : Server :=
  { srv with kernel := { srv.kernel with script := writes } }

/-- `send_message` on a blocking descriptor that is closed right behind it. -/
def reject (fd sent : Nat) : Server :=
  let c := srv.kernel.accepted
  let err := serverFull env.now
  let kernel := (srv.kernel.accept fd).close fd
  { srv with
    kernel := { kernel with
      wire := Function.update kernel.wire c (kernel.wire c ++ (packMessage err).take sent)
      broken := Function.update kernel.broken c (sent < (packMessage err).length) }
    log := srv.log ++ [.queued (some c) err 0] }

/-- One turn of the accepting loop. -/
def acceptOne (fd sent : Nat) : Server :=
  match srv.findFree with
  | none => srv.reject env fd sent
  | some s =>
    ({ srv with kernel := (srv.kernel.accept fd).register fd }.setClient s
      { Client.zero with fd := fd, inUse := true }).note (.accepted srv.kernel.accepted s)

end Server

/-- One event of the loop. -/
def step (srv : Server) (l : Label) : Option Server :=
  let srv := srv.prescribe l.writes
  match l.action with
  | .accept fd sent =>
    if srv.kernel.conn fd = none ∧ reservedFds ≤ fd then some (srv.acceptOne l.env fd sent)
    else none
  | .hangup fd unread => some (srv.hangup l.env fd unread)
  | .readable fd b => some (srv.handleRead l.env fd b)
  | .writable fd unread => some (srv.handleWrite l.env fd unread)

/-! ## The table of connections -/

/-- Slots in use stand for distinct open connections, and every open connection has
its slot. -/
structure Inv (srv : Server) : Prop where
  idle : ∀ s, (srv.clients s).inUse = false → (srv.clients s).fd = 0
  reserved : ∀ d, d < reservedFds → srv.kernel.conn d = none
  conn_lt : ∀ d c, srv.kernel.conn d = some c → c < srv.kernel.accepted
  conn_inj : ∀ d d' c, srv.kernel.conn d = some c → srv.kernel.conn d' = some c → d = d'
  fd_inj : ∀ i j, (srv.clients i).inUse = true → (srv.clients j).inUse = true →
    (srv.clients i).fd = (srv.clients j).fd → i = j
  holds : ∀ s, (srv.clients s).inUse = true → ∃ fd c r, Holds srv s fd c r
  owned : ∀ d c, srv.kernel.conn d = some c → ∃ s, (srv.clients s).inUse = true ∧
    (srv.clients s).fd = d

/-- A slot was filled with a new connection. -/
structure Admitted (a b : Server) (s : Slot) (fd : Nat) : Prop where
  free : (a.clients s).inUse = false
  fresh : a.kernel.conn fd = none
  notReserved : reservedFds ≤ fd
  elsewhere : ∀ i, i ≠ s → b.clients i = a.clients i
  holds : Holds b s fd a.kernel.accepted []
  conn : b.kernel.conn = Function.update a.kernel.conn fd (some a.kernel.accepted)
  accepted : b.kernel.accepted = a.kernel.accepted + 1
  log : b.log = a.log ++ [.accepted a.kernel.accepted s]

/-- A new connection was turned away. -/
structure Rejected (a b : Server) : Prop where
  clients : b.clients = a.clients
  conn : b.kernel.conn = a.kernel.conn
  accepted : b.kernel.accepted = a.kernel.accepted + 1
  inputLog : b.inputLog = a.inputLog

variable {srv t : Server}

theorem findByFd_eq_some {fd : Nat} {s : Slot} (h : srv.findByFd fd = some s) :
    (srv.clients s).inUse = true ∧ (srv.clients s).fd = fd := by
  simpa using firstSlot_eq_some h

/-- The slot found for a descriptor holds its connection. -/
theorem Inv.holds_of_findByFd (h : Inv srv) {fd : Nat} {s : Slot}
    (hfind : srv.findByFd fd = some s) : ∃ c r, Holds srv s fd c r := by
  obtain ⟨hu, hfd⟩ := findByFd_eq_some hfind
  obtain ⟨fd', c, r, hh⟩ := h.holds s hu
  obtain rfl := hh.fd_eq.symm.trans hfd
  exact ⟨c, r, hh⟩

theorem acceptOne_cases (srv : Server) (env : Env) {fd : Nat} (sent : Nat)
    (hfresh : srv.kernel.conn fd = none) (hfd : reservedFds ≤ fd) :
    (∃ s, Admitted srv (srv.acceptOne env fd sent) s fd) ∨
      Rejected srv (srv.acceptOne env fd sent) := by
  rw [Server.acceptOne]
  cases hfree : srv.findFree with
  | none =>
    refine Or.inr ⟨rfl, ?_, rfl, ?_⟩
    · change Function.update (Function.update srv.kernel.conn fd _) fd none = _
      rw [Function.update_idem, ← hfresh, Function.update_eq_self]
    · exact List.filter_append .. |>.trans (List.append_nil _)
  | some s =>
    have hzero : Client.zero.BufOk := ⟨List.length_replicate, Int.le_refl 0, by decide⟩
    refine Or.inl ⟨s, ?_, hfresh, hfd, fun i hi => Function.update_of_ne hi _ _,
      ⟨?_, ?_, Function.update_self _ _ _, ?_, ?_⟩, rfl, rfl, rfl⟩
    · simpa using firstSlot_eq_some hfree
    all_goals simp only [Server.note, Server.setClient, Function.update_self]
    · exact ⟨hzero.size, hzero.nonneg, hzero.le⟩
    · rfl

theorem quiet_prescribe (srv : Server) (writes : List WriteAnswer) :
    Quiet srv (srv.prescribe writes) :=
  (OutputOnly.setKernel srv (k := { srv.kernel with script := writes }) rfl rfl).toQuiet

theorem Inv.prescribe (h : Inv srv) (writes : List WriteAnswer) : Inv (srv.prescribe writes) :=
  ⟨h.idle, h.reserved, h.conn_lt, h.conn_inj, h.fd_inj, fun s hs => by
    obtain ⟨fd, c, r, hh⟩ := h.holds s hs
    exact ⟨fd, c, r, hh.quiet (quiet_prescribe srv writes)⟩, h.owned⟩

/-- What one event can do to the connections and their input: it concerns its own descriptor. -/
theorem step_at (h : Inv srv) {l : Label} (hs : step srv l = some t) :
    Quiet srv t ∨
    (∃ s c r data ending, l.action.isAccept = false ∧ Holds srv s l.action.fd c r ∧
      Fed srv t s l.action.fd c r data ending) ∨
    (∃ s, l.action.isAccept = true ∧ Admitted srv t s l.action.fd) ∨ Rejected srv t := by
  have hq := quiet_prescribe srv l.writes
  have hfed : ∀ {s fd c r data ending}, Holds (srv.prescribe l.writes) s fd c r →
      Fed (srv.prescribe l.writes) t s fd c r data ending →
      Holds srv s fd c r ∧ Fed srv t s fd c r data ending :=
    fun hh hf => ⟨⟨hh.inUse, hh.fd_eq, hh.conn, hh.bufOk, hh.received⟩,
      (hq.elsewhere _ _).trans hf.elsewhere, hf.outcome, hf.log⟩
  have hinv := h.prescribe l.writes
  rw [step] at hs
  cases hact : l.action with
  | accept fd sent =>
    simp only [hact] at hs
    split at hs
    · next hfresh =>
      obtain rfl := Option.some.inj hs
      rcases acceptOne_cases _ l.env sent hfresh.1 hfresh.2 with ⟨s, ha⟩ | hr
      · exact Or.inr (Or.inr (Or.inl ⟨s, rfl, ha.free, ha.fresh, ha.notReserved, ha.elsewhere,
          ha.holds, ha.conn, ha.accepted, ha.log⟩))
      · exact Or.inr (Or.inr (Or.inr ⟨hr.clients, hr.conn, hr.accepted, hr.inputLog⟩))
    · cases hs
  | hangup fd unread =>
    simp only [hact] at hs
    obtain rfl := Option.some.inj hs
    cases hfind : (srv.prescribe l.writes).findByFd fd with
    | none =>
      rw [Server.hangup, hfind]
      exact Or.inl hq
    | some s =>
      obtain ⟨c, r, hh⟩ := hinv.holds_of_findByFd hfind
      exact Or.inr (Or.inl ⟨_, _, _, _, _, rfl, hfed hh (hh.hangup hfind l.env unread)⟩)
  | readable fd b =>
    simp only [hact] at hs
    obtain rfl := Option.some.inj hs
    cases hfind : (srv.prescribe l.writes).findByFd fd with
    | none =>
      rw [Server.handleRead, hfind]
      exact Or.inl hq
    | some s =>
      obtain ⟨c, r, hh⟩ := hinv.holds_of_findByFd hfind
      exact Or.inr (Or.inl ⟨_, _, _, _, _, rfl, hfed hh (hh.handleRead hfind l.env b)⟩)
  | writable fd unread =>
    simp only [hact] at hs
    obtain rfl := Option.some.inj hs
    cases hfind : (srv.prescribe l.writes).findByFd fd with
    | none =>
      rw [Server.handleWrite, hfind]
      exact Or.inl hq
    | some s =>
      obtain ⟨c, r, hh⟩ := hinv.holds_of_findByFd hfind
      rcases hh.handleWrite hfind l.env unread with hquiet | hf
      · exact Or.inl (hq.trans hquiet)
      · exact Or.inr (Or.inl ⟨_, _, _, _, _, rfl, hfed hh hf⟩)

/-- What one event can do, whatever its descriptor. -/
theorem step_cases (h : Inv srv) {l : Label} (hs : step srv l = some t) :
    Quiet srv t ∨
    (∃ s fd c r data ending, Holds srv s fd c r ∧ Fed srv t s fd c r data ending) ∨
    (∃ s fd, Admitted srv t s fd) ∨ Rejected srv t := by
  rcases step_at h hs with hq | ⟨s, c, r, data, ending, -, hh, hf⟩ | ⟨s, -, ha⟩ | hr
  · exact Or.inl hq
  · exact Or.inr (Or.inl ⟨s, _, c, r, data, ending, hh, hf⟩)
  · exact Or.inr (Or.inr (Or.inl ⟨s, _, ha⟩))
  · exact Or.inr (Or.inr (Or.inr hr))

theorem inv_init (history : History) : Inv (Server.init history) := by
  refine ⟨fun _ _ => rfl, fun _ _ => rfl, fun _ _ hc => ?_, fun _ _ _ hc => ?_, fun _ _ hu => ?_,
    fun _ hu => ?_, fun _ _ hc => ?_⟩
  · cases hc
  · cases hc
  · cases hu
  · cases hu
  · cases hc

/-- Another slot in use keeps its connection and leftover. -/
theorem Elsewhere.holds {s i : Slot} {fd d c : Nat} {r : List UInt8} (h : Elsewhere s fd srv t)
    (hi : i ≠ s) (hd : d ≠ fd) : Holds srv i d c r ↔ Holds t i d c r := by
  have hrbuf : (t.clients i).received = (srv.clients i).received := by
    rw [Client.received, h.rbuf i hi, h.rbufLen i hi, Client.received]
  have hok : (t.clients i).BufOk ↔ (srv.clients i).BufOk := by
    constructor
    · rintro ⟨h1, h2, h3⟩
      exact ⟨h.rbuf i hi ▸ h1, h.rbufLen i hi ▸ h2, h.rbufLen i hi ▸ h3⟩
    · rintro ⟨h1, h2, h3⟩
      exact ⟨h.rbuf i hi ▸ h1, h.rbufLen i hi ▸ h2, h.rbufLen i hi ▸ h3⟩
  constructor
  · rintro ⟨h1, h2, h3, h4, h5⟩
    exact ⟨(h.inUse i hi).trans h1, (h.fd_eq i hi).trans h2, (h.conn d hd).trans h3, hok.mpr h4,
      hrbuf.trans h5⟩
  · rintro ⟨h1, h2, h3, h4, h5⟩
    exact ⟨(h.inUse i hi).symm.trans h1, (h.fd_eq i hi).symm.trans h2, (h.conn d hd).symm.trans h3,
      hok.mp h4, hrbuf.symm.trans h5⟩

/-- The invariant only looks at the descriptors in use, apart from the buffers. -/
theorem Inv.of_eq (h : Inv srv) (hfd : ∀ i, (t.clients i).fd = (srv.clients i).fd)
    (hu : ∀ i, (t.clients i).inUse = (srv.clients i).inUse) (hc : t.kernel.conn = srv.kernel.conn)
    (ha : srv.kernel.accepted ≤ t.kernel.accepted)
    (hh : ∀ s, (t.clients s).inUse = true → ∃ fd c r, Holds t s fd c r) : Inv t := by
  refine ⟨fun s hs => ?_, fun d hd => ?_, fun d c hd => ?_, fun d d' c hd hd' => ?_,
    fun i j hi hj he => ?_, hh, fun d c hd => ?_⟩
  · rw [hfd]
    exact h.idle s (hu s ▸ hs)
  · rw [hc]
    exact h.reserved d hd
  · exact Nat.lt_of_lt_of_le (h.conn_lt d c (hc ▸ hd)) ha
  · exact h.conn_inj d d' c (hc ▸ hd) (hc ▸ hd')
  · rw [hfd, hfd] at he
    exact h.fd_inj i j (hu i ▸ hi) (hu j ▸ hj) he
  · obtain ⟨s, hus, hs⟩ := h.owned d c (hc ▸ hd)
    exact ⟨s, (hu s).trans hus, (hfd s).trans hs⟩

theorem Inv.quiet (h : Inv srv) (hq : Quiet srv t) : Inv t :=
  h.of_eq hq.fd hq.inUse hq.conn hq.accepted.ge fun s hs => by
    obtain ⟨fd, c, r, hh⟩ := h.holds s (hq.inUse s ▸ hs)
    exact ⟨fd, c, r, hh.quiet hq⟩

theorem Inv.rejected (h : Inv srv) (hr : Rejected srv t) : Inv t :=
  h.of_eq (fun i => by rw [hr.clients]) (fun i => by rw [hr.clients]) hr.conn
    (by rw [hr.accepted]; exact Nat.le_succ _) fun s hs => by
      obtain ⟨fd, c, r, hh⟩ := h.holds s (by rw [← hr.clients]; exact hs)
      exact ⟨fd, c, r, by rw [hr.clients]; exact hh.inUse, by rw [hr.clients]; exact hh.fd_eq,
        by rw [hr.conn]; exact hh.conn, by rw [hr.clients]; exact hh.bufOk,
        by rw [hr.clients]; exact hh.received⟩

/-- Slots in use for different connections have different descriptors. -/
theorem Inv.fd_ne (h : Inv srv) {s i : Slot} {fd c d c' : Nat} {r r' : List UInt8}
    (hs : Holds srv s fd c r) (hi : Holds srv i d c' r') (hne : i ≠ s) : d ≠ fd := by
  intro he
  exact hne (h.fd_inj i s hi.inUse hs.inUse (by rw [hi.fd_eq, hs.fd_eq, he]))

theorem Inv.fed (h : Inv srv) {s : Slot} {fd c : Nat} {r data : List UInt8} {ending : Ending}
    (hs : Holds srv s fd c r) (hf : Fed srv t s fd c r data ending) : Inv t := by
  have he := hf.elsewhere
  have hothers : ∀ i, i ≠ s → (t.clients i).inUse = true → ∃ d c' r', d ≠ fd ∧ Holds t i d c' r' :=
    fun i hi hu => by
      obtain ⟨d, c', r', hh⟩ := h.holds i (he.inUse i hi ▸ hu)
      have hd := h.fd_ne hs hh hi
      exact ⟨d, c', r', hd, (he.holds hi hd).mp hh⟩
  have hout := hf.outcome
  cases hleft : (receiver.feed r ⟨data, ending.isOver⟩).2 with
  | some r' =>
    rw [hleft] at hout
    have hout : Holds t s fd c r' := hout
    have hall : ∀ i, (t.clients i).fd = (srv.clients i).fd ∧
        (t.clients i).inUse = (srv.clients i).inUse := by
      intro i
      by_cases hi : i = s
      · subst hi
        exact ⟨hout.fd_eq.trans hs.fd_eq.symm, hout.inUse.trans hs.inUse.symm⟩
      · exact ⟨he.fd_eq i hi, he.inUse i hi⟩
    refine h.of_eq (fun i => (hall i).1) (fun i => (hall i).2) ?_ he.accepted.ge fun i hu => ?_
    · funext d
      by_cases hd : d = fd
      · rw [hd, hout.conn, hs.conn]
      · exact he.conn d hd
    · by_cases hi : i = s
      · exact ⟨fd, c, r', hi ▸ hout⟩
      · obtain ⟨d, c', r'', -, hh⟩ := hothers i hi hu
        exact ⟨d, c', r'', hh⟩
  | none =>
    rw [hleft] at hout
    have hout : Freed t s fd := hout
    have hne : ∀ i, (t.clients i).inUse = true → i ≠ s := by
      rintro i hu rfl
      rw [hout.inUse] at hu
      cases hu
    have hconn : ∀ d c', t.kernel.conn d = some c' → d ≠ fd ∧ srv.kernel.conn d = some c' := by
      intro d c' hd
      have hdne : d ≠ fd := by
        rintro rfl
        rw [hout.conn] at hd
        cases hd
      exact ⟨hdne, he.conn d hdne ▸ hd⟩
    refine ⟨fun i hu => ?_, fun d hd => ?_, fun d c' hd => ?_, fun d d' c' hd hd' => ?_,
      fun i j hi hj hfd => ?_, fun i hu => ?_, fun d c' hd => ?_⟩
    · by_cases hi : i = s
      · rw [hi, hout.fd_eq]
      · rw [he.fd_eq i hi]
        exact h.idle i (he.inUse i hi ▸ hu)
    · by_cases hd' : d = fd
      · rw [hd', hout.conn]
      · rw [he.conn d hd', h.reserved d hd]
    · rw [he.accepted]
      exact h.conn_lt d c' (hconn d c' hd).2
    · exact h.conn_inj d d' c' (hconn d c' hd).2 (hconn d' c' hd').2
    · rw [he.fd_eq i (hne i hi), he.fd_eq j (hne j hj)] at hfd
      exact h.fd_inj i j (he.inUse i (hne i hi) ▸ hi) (he.inUse j (hne j hj) ▸ hj) hfd
    · obtain ⟨d, c', r', -, hh⟩ := hothers i (hne i hu) hu
      exact ⟨d, c', r', hh⟩
    · obtain ⟨hdne, hd⟩ := hconn d c' hd
      obtain ⟨i, hu, hfd⟩ := h.owned d c' hd
      have hi : i ≠ s := by
        rintro rfl
        exact hdne (hfd.symm.trans hs.fd_eq)
      exact ⟨i, (he.inUse i hi).trans hu, (he.fd_eq i hi).trans hfd⟩

/-- No slot holds a descriptor that is not open. -/
theorem Inv.fd_ne_of_fresh (h : Inv srv) {fd : Nat} (hfresh : srv.kernel.conn fd = none)
    (hfd : reservedFds ≤ fd) (i : Slot) : (srv.clients i).fd ≠ fd := by
  intro he
  cases hu : (srv.clients i).inUse with
  | true =>
    obtain ⟨d, c, r, hh⟩ := h.holds i hu
    have hopen := hh.conn
    rw [← hh.fd_eq, he, hfresh] at hopen
    cases hopen
  | false =>
    rw [h.idle i hu] at he
    rw [← he] at hfd
    exact absurd hfd (by decide)

theorem Inv.admitted (h : Inv srv) {s : Slot} {fd : Nat} (ha : Admitted srv t s fd) : Inv t := by
  have hself := ha.holds
  have hconn : ∀ d, d ≠ fd → t.kernel.conn d = srv.kernel.conn d := fun d hd => by
    rw [ha.conn, Function.update_of_ne hd]
  have hopen : ∀ i, i ≠ s → (t.clients i).inUse = true → (srv.clients i).inUse = true ∧
      (srv.clients i).fd ≠ fd := by
    intro i hi hu
    rw [ha.elsewhere i hi] at hu
    exact ⟨hu, h.fd_ne_of_fresh ha.fresh ha.notReserved i⟩
  refine ⟨fun i hu => ?_, fun d hd => ?_, fun d c hd => ?_, fun d d' c hd hd' => ?_,
    fun i j hi hj hfd => ?_, fun i hu => ?_, fun d c hd => ?_⟩
  · by_cases hi : i = s
    · subst hi
      rw [hself.inUse] at hu
      cases hu
    · rw [ha.elsewhere i hi] at hu ⊢
      exact h.idle i hu
  · rw [hconn d (Nat.ne_of_lt (Nat.lt_of_lt_of_le hd ha.notReserved)), h.reserved d hd]
  · rw [ha.accepted]
    by_cases hd' : d = fd
    · rw [hd', hself.conn] at hd
      exact Nat.lt_succ_of_le (Option.some.inj hd).ge
    · exact Nat.lt_succ_of_lt (h.conn_lt d c (hconn d hd' ▸ hd))
  · by_cases h1 : d = fd <;> by_cases h2 : d' = fd
    · exact h1.trans h2.symm
    · rw [h1, hself.conn] at hd
      have := h.conn_lt d' c (hconn d' h2 ▸ hd')
      exact absurd this (by rw [← Option.some.inj hd]; exact Nat.lt_irrefl _)
    · rw [h2, hself.conn] at hd'
      have := h.conn_lt d c (hconn d h1 ▸ hd)
      exact absurd this (by rw [← Option.some.inj hd']; exact Nat.lt_irrefl _)
    · exact h.conn_inj d d' c (hconn d h1 ▸ hd) (hconn d' h2 ▸ hd')
  · by_cases h1 : i = s <;> by_cases h2 : j = s
    · exact h1.trans h2.symm
    · rw [h1, hself.fd_eq, ha.elsewhere j h2] at hfd
      exact absurd hfd.symm (hopen j h2 hj).2
    · rw [h2, hself.fd_eq, ha.elsewhere i h1] at hfd
      exact absurd hfd (hopen i h1 hi).2
    · rw [ha.elsewhere i h1, ha.elsewhere j h2] at hfd
      exact h.fd_inj i j (hopen i h1 hi).1 (hopen j h2 hj).1 hfd
  · by_cases hi : i = s
    · exact ⟨fd, _, [], hi ▸ hself⟩
    · obtain ⟨hu', hne⟩ := hopen i hi hu
      obtain ⟨d, c, r, hh⟩ := h.holds i hu'
      rw [hh.fd_eq] at hne
      have he := ha.elsewhere i hi
      exact ⟨d, c, r, by rw [he]; exact hh.inUse, by rw [he]; exact hh.fd_eq,
        by rw [hconn d hne]; exact hh.conn, by rw [he]; exact hh.bufOk,
        by rw [he]; exact hh.received⟩
  · by_cases hd' : d = fd
    · exact ⟨s, hself.inUse, hself.fd_eq.trans hd'.symm⟩
    · obtain ⟨i, hu, hfd⟩ := h.owned d c (hconn d hd' ▸ hd)
      have hi : i ≠ s := by
        rintro rfl
        rw [ha.free] at hu
        cases hu
      exact ⟨i, by rw [ha.elsewhere i hi]; exact hu, by rw [ha.elsewhere i hi]; exact hfd⟩

/-- The table of connections is in order in every reachable state. -/
theorem Inv.step (h : Inv srv) {l : Label} (hs : step srv l = some t) : Inv t := by
  rcases step_cases h hs with hq | ⟨s, fd, c, r, data, ending, hh, hf⟩ | ⟨s, fd, ha⟩ | hr
  · exact h.quiet hq
  · exact h.fed hh hf
  · exact h.admitted ha
  · exact h.rejected hr

theorem inv_of_reachable {history : History} (h : Reachable step (Server.init history) srv) :
    Inv srv :=
  h.invariant (inv_init history) fun _ _ _ hi hs => hi.step hs

/-- The search by descriptor finds the slot that holds its connection. -/
theorem Inv.findByFd (h : Inv srv) {s : Slot} {fd c : Nat} {r : List UInt8}
    (hs : Holds srv s fd c r) : srv.findByFd fd = some s := by
  cases hfind : srv.findByFd fd with
  | none =>
    have := firstSlot_eq_none hfind s
    simp [hs.inUse, hs.fd_eq] at this
  | some i =>
    obtain ⟨hu, hfd⟩ := findByFd_eq_some hfind
    rw [h.fd_inj i s hu hs.inUse (hfd.trans hs.fd_eq.symm)]

/-- A single client that connects and sends one burst. -/
def oneBurst (env : Env) (b : Burst) : List Label :=
  [⟨env, [], .accept 5 0⟩, ⟨env, [], .readable 5 b⟩]

/-- The first client gets a slot. -/
theorem admitted_init (history : History) (env : Env) : ∃ s, Admitted
    ((Server.init history).prescribe []) (((Server.init history).prescribe []).acceptOne env 5 0)
    s 5 := by
  rcases @acceptOne_cases ((Server.init history).prescribe []) env 5 0 rfl
    (Nat.le_refl _) with h | hr
  · exact h
  · have hu : (((Server.init history).prescribe []).acceptOne env 5 0).clients 0 =
        (Server.init history).clients 0 := congrFun hr.clients 0
    have : true = false := congrArg Client.inUse hu
    cases this

/-- The run of a single client feeds its burst to an empty receiver. -/
theorem run_oneBurst (history : History) (env : Env) (b : Burst) :
    ∃ a srv s, run step (Server.init history) (oneBurst env b) = some srv ∧
      a.inputLog = [.accepted 0 s] ∧ Fed a srv s 5 0 [] b.data (.read b.ending) := by
  have hinv := (inv_init history).prescribe []
  obtain ⟨s, had⟩ := admitted_init history env
  obtain ⟨a, ha⟩ : ∃ a, a = ((Server.init history).prescribe []).acceptOne env 5 0 := ⟨_, rfl⟩
  rw [← ha] at had
  have hquiet := quiet_prescribe a []
  have hold := had.holds.quiet hquiet
  refine ⟨a.prescribe [], (a.prescribe []).handleRead env 5 b, s, by rw [ha]; rfl, ?_, ?_⟩
  · rw [hquiet.inputLog, Server.inputLog, had.log]
    rfl
  · exact hold.handleRead (((hinv.admitted had).prescribe []).findByFd hold) env b

end ChatSystem.Epoll
