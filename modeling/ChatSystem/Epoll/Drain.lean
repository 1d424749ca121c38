import ChatSystem.Epoll.Arming
import ChatSystem.Epoll.Streams

/-!
# The output gets out

A wake-up for writing, if nothing fails, moves as many pending bytes to the socket as it has room
for, and does nothing else. So what is queued reaches its client as soon as the socket has taken
as many bytes as are pending, and the loop is woken up until then.
-/

namespace ChatSystem.Epoll

open Channel Chat Transition

/-- The bytes the coming writes take before the first that does not. -/
def roomIn : List WriteAnswer → Nat
  | .took n :: as => n + 1 + roomIn as
  | _ => 0

/-- The bytes the socket of a descriptor takes at some wake-ups. -/
def roomFor (fd : Nat) (ls : List Label) : Nat :=
  ((ls.filter fun l => l.action.fd = fd).map fun l => roomIn l.writes).sum

/-- A wake-up for writing at which nothing fails. -/
structure Flushes (srv : Server) (l : Label) : Prop where
  writable : ∃ fd unread, l.action = .writable fd unread
  sound : ∀ c, srv.kernel.conn l.action.fd = some c → srv.kernel.broken c = false
  answers : .failed ∉ l.writes

/-- Some room was used for pending bytes, and nothing else was done. -/
structure Flushed (room : Nat → Nat) (a b : Server) : Prop extends OutputOnly a b where
  log : b.log = a.log
  broken : b.kernel.broken = a.kernel.broken
  pending : ∀ s, (a.clients s).inUse = true → (b.clients s).sbuf.pending =
    (a.clients s).sbuf.pending.drop (room (a.clients s).fd)

variable {srv t a b : Server} {s : Slot} {l : Label} {ls : List Label} {history : History}
  {room room' : Nat → Nat}

/-! ## One write loop -/

/-- A write loop fills the room there is. -/
theorem sent_writeLoop (as : List WriteAnswer) (d : List UInt8) :
    (writeLoop as d).2.1 = min (roomIn as) d.length := by
  induction as, d using writeLoop.induct with
  | case1 as => simp [writeLoop]
  | case2 b d => simp [writeLoop, roomIn]
  | case3 as b d => simp [writeLoop, roomIn]
  | case4 as b d => simp [writeLoop, roomIn]
  | case5 n as b d stop sent as' hrec ih =>
    simp only [hrec, List.length_drop] at ih
    simp only [writeLoop, hrec, roomIn, List.length_cons]
    omega

theorem writeLoop_ne_failed {as : List WriteAnswer} (h : .failed ∉ as) (d : List UInt8) :
    (writeLoop as d).1 ≠ .failed := by
  induction as, d using writeLoop.induct with
  | case1 as => simp [writeLoop]
  | case2 b d => simp [writeLoop]
  | case3 as b d => simp [writeLoop]
  | case4 as b d => simp at h
  | case5 n as b d stop sent as' hrec ih =>
    have htail := ih fun hm => h (List.mem_cons_of_mem _ hm)
    rw [hrec] at htail
    simp only [writeLoop, hrec]
    exact htail

/-- On a sound connection no write fails, so the room is filled. -/
theorem Kernel.writeAll_sound {k : Kernel} {fd c : Nat} (hc : k.conn fd = some c)
    (hb : k.broken c = false) (hscript : .failed ∉ k.script) (d : List UInt8) :
    (k.writeAll fd d).1 ≠ .failed ∧ (k.writeAll fd d).2.1 = min (roomIn k.script) d.length ∧
      (k.writeAll fd d).2.2.broken = k.broken := by
  unfold writeAll
  split
  · next hd =>
    obtain rfl := List.isEmpty_iff.mp hd
    exact ⟨by simp, by simp, rfl⟩
  · have hne := writeLoop_ne_failed hscript d
    simp only [hc, hb, Bool.false_eq_true, if_false]
    refine ⟨hne, sent_writeLoop k.script d, ?_⟩
    rw [show decide ((writeLoop k.script d).1 = .failed) = k.broken c by simp [hne, hb],
      Function.update_eq_self]

/-! ## One wake-up -/

theorem Flushed.refl (a : Server) : Flushed (fun _ => 0) a a :=
  ⟨OutputOnly.refl a, rfl, rfl, fun _ _ => rfl⟩

theorem Flushed.trans {c : Server} (h : Flushed room a b) (h' : Flushed room' b c) :
    Flushed (fun fd => room fd + room' fd) a c := by
  refine ⟨h.toOutputOnly.trans h'.toOutputOnly, h'.log.trans h.log, h'.broken.trans h.broken,
    fun s hs => ?_⟩
  rw [h'.pending s ((h.inUse s).trans hs), h.pending s hs, h.fd, List.drop_drop]

theorem Flushed.epmod (h : Flushed room a b) (fd : Nat) (out : Bool) :
    Flushed room a { b with kernel := b.kernel.epmod fd out } :=
  ⟨h.toOutputOnly.trans (OutputOnly.setKernel b (Kernel.epmod_conn ..)
    (Kernel.epmod_accepted ..)), h.log, (Kernel.epmod_broken ..).trans h.broken, h.pending⟩

/-- The flush of a sound connection fills the room of its socket. -/
theorem flushed_sbFlush (hinv : Inv a) (hbuf : ∀ i, (a.clients i).sbuf.Ok) {fd c : Nat}
    {r : List UInt8} (hh : Holds a s fd c r) (hb : a.kernel.broken c = false)
    (hscript : .failed ∉ a.kernel.script) : (a.sbFlush s fd).1 ≠ .failed ∧
      Flushed (fun d => if d = fd then roomIn a.kernel.script else 0) a (a.sbFlush s fd).2 := by
  obtain ⟨hstop, hsent, hbroken⟩ :=
    Kernel.writeAll_sound hh.conn hb hscript (a.clients s).sbuf.pending
  obtain ⟨hkernel, hlog, hothers, -, hself⟩ := sbFlush_spec (hbuf s) fd
  refine ⟨hstop, outputOnly_sbFlush a s fd, hlog, by rw [hkernel, hbroken], fun i hi => ?_⟩
  by_cases his : i = s
  · rw [his, hself, hsent, hh.fd_eq, if_pos rfl, List.drop_eq_drop_iff]
    omega
  · have hne : (a.clients i).fd ≠ fd := fun he =>
      his (hinv.fd_inj i s hi hh.inUse (he.trans hh.fd_eq.symm))
    rw [hothers i his, if_neg hne]
    rfl

/-- `handle_write` flushes the slot of its descriptor, if there is one. -/
theorem flushed_handleWrite (hinv : Inv a) (hbuf : ∀ i, (a.clients i).sbuf.Ok) {fd : Nat}
    (hsound : ∀ c, a.kernel.conn fd = some c → a.kernel.broken c = false)
    (hscript : .failed ∉ a.kernel.script) (env : Env) (unread : List UInt8) :
    Flushed (fun d => if d = fd then roomIn a.kernel.script else 0) a
      (a.handleWrite env fd unread) := by
  rw [Server.handleWrite]
  cases hfind : a.findByFd fd with
  | none =>
    refine ⟨OutputOnly.refl a, rfl, rfl, fun i hi => ?_⟩
    have hne : (a.clients i).fd ≠ fd := by
      have hno := firstSlot_eq_none hfind i
      simpa [hi] using hno
    rw [if_neg hne]
    rfl
  | some s =>
    obtain ⟨c, r, hh⟩ := hinv.holds_of_findByFd hfind
    obtain ⟨hstop, hflushed⟩ := flushed_sbFlush hinv hbuf hh (hsound c hh.conn) hscript
    obtain ⟨⟨stop, b⟩, hflush⟩ : ∃ x, a.sbFlush s fd = x := ⟨_, rfl⟩
    rw [hflush] at hstop hflushed
    simp only [hflush]
    cases stop with
    | failed => exact absurd rfl hstop
    | again => exact hflushed
    | done => exact hflushed.epmod fd false

/-- A wake-up for writing fills the room of its socket. -/
theorem flushed_step (hinv : Inv srv) (hbuf : ∀ i, (srv.clients i).sbuf.Ok) (hf : Flushes srv l)
    (hs : step srv l = some t) : Flushed (fun fd => roomFor fd [l]) srv t := by
  obtain ⟨⟨fd, unread, hact⟩, hsound, hanswers⟩ := hf
  have hroom : ∀ d, roomFor d [l] = if d = fd then roomIn l.writes else 0 := by
    intro d
    by_cases hd : d = fd
    · simp [roomFor, hact, Action.fd, hd]
    · simp [roomFor, hact, Action.fd, hd, Ne.symm hd]
  have hout : OutputOnly srv (srv.prescribe l.writes) :=
    OutputOnly.setKernel srv (k := { srv.kernel with script := l.writes }) rfl rfl
  rw [step] at hs
  simp only [hact] at hs
  obtain rfl := Option.some.inj hs
  obtain ⟨h, hlog, hbroken, hpending⟩ := flushed_handleWrite (hinv.prescribe l.writes) hbuf
    (fun c hc => hsound c (by rw [hact]; exact hc)) hanswers l.env unread
  refine ⟨hout.trans h, hlog, hbroken, fun i hi => ?_⟩
  rw [hroom]
  exact hpending i hi

/-! ## Runs of wake-ups -/

theorem roomFor_cons (fd : Nat) (l : Label) (ls : List Label) :
    roomFor fd (l :: ls) = roomFor fd [l] + roomFor fd ls := by
  by_cases h : l.action.fd = fd <;> simp [roomFor, h]

/-- Wake-ups for writing fill the room of their sockets. -/
theorem flushed_run (h : Reachable step (Server.init history) srv)
    (hw : Meets step Flushes srv ls) (hrun : run step srv ls = some t) :
    Flushed (fun fd => roomFor fd ls) srv t := by
  induction ls generalizing srv with
  | nil =>
    obtain rfl := Option.some.inj hrun
    exact Flushed.refl srv
  | cons l ls ih =>
    obtain ⟨srv₁, hs, hrest⟩ := run_cons_iff.mp hrun
    have hstep := flushed_step (inv_of_reachable h) (armed_of_reachable h).buf hw.1 hs
    have hall := hstep.trans (ih (h.snoc hs) (hw.2 srv₁ hs) hrest)
    simp only [roomFor_cons _ l ls]
    exact hall

/-- Wake-ups for writing are never refused, and none fails as long as all connections are sound. -/
theorem exists_flushed (h : Reachable step (Server.init history) srv)
    (hsound : ∀ fd c, srv.kernel.conn fd = some c → srv.kernel.broken c = false)
    (hls : ∀ l ∈ ls, (∃ fd unread, l.action = .writable fd unread) ∧ .failed ∉ l.writes) :
    ∃ t, Meets step Flushes srv ls ∧ run step srv ls = some t := by
  induction ls generalizing srv with
  | nil => exact ⟨srv, trivial, rfl⟩
  | cons l ls ih =>
    obtain ⟨⟨fd, unread, hact⟩, hanswers⟩ := hls l List.mem_cons_self
    have hf : Flushes srv l := ⟨⟨fd, unread, hact⟩, fun c => hsound _ c, hanswers⟩
    obtain ⟨srv₁, hs⟩ : ∃ srv₁, step srv l = some srv₁ := by
      rw [step]
      simp only [hact]
      exact ⟨_, rfl⟩
    have hone := flushed_step (inv_of_reachable h) (armed_of_reachable h).buf hf hs
    obtain ⟨t, hmeets, hrun⟩ := ih (h.snoc hs) (fun fd c hc => by
      rw [hone.broken]
      rw [hone.conn] at hc
      exact hsound fd c hc) fun k hk => hls k (List.mem_cons_of_mem _ hk)
    refine ⟨t, ⟨hf, fun s hs' => ?_⟩, run_cons_iff.mpr ⟨srv₁, hs, hrun⟩⟩
    obtain rfl := Option.some.inj (hs.symm.trans hs')
    exact hmeets

/-- The room of one wake-up counts. -/
theorem roomIn_le_roomFor (hl : l ∈ ls) : roomIn l.writes ≤ roomFor l.action.fd ls := by
  induction ls with
  | nil => cases hl
  | cons k ls ih =>
    rw [roomFor_cons]
    rcases List.mem_cons.mp hl with rfl | hl
    · simp [roomFor]
    · exact (ih hl).trans (Nat.le_add_left _ _)

/-- One wake-up for every slot, with room for a full buffer. -/
def flushAll (srv : Server) (env : Env) : List Label :=
  (List.finRange maxClients).map fun s =>
    ⟨env, [.took sbufSize], .writable (srv.clients s).fd []⟩

theorem SendBuf.Ok.length_pending_le {sb : SendBuf} (h : sb.Ok) : sb.pending.length ≤ sbufSize := by
  rw [h.length_pending]
  exact (Nat.sub_le _ _).trans h.tail_le

theorem Flushed.room_eq (h : Flushed room a b) : b.room = a.room := by
  have hconn : b.connOf = a.connOf := funext h.connOf
  simp only [Server.room, h.table, hconn, h.accepted, h.history]

end ChatSystem.Epoll
