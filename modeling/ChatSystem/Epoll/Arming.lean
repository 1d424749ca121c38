import ChatSystem.Epoll.Slots

/-!
# Wake-ups for pending output

Under edge triggering the pending bytes of a slot are only written if `EPOLLOUT` is in the
interest set of its descriptor. `slot_send` arms it behind its last write, `handle_write`
disarms it once the buffer is empty, and no other operation touches either side.
-/

namespace ChatSystem.Epoll

open Transition

/-- The registrations of the slots in use follow their send buffers. -/
structure Armed (srv : Server) : Prop where
  idle : ∀ s, (srv.clients s).inUse = false → (srv.clients s).fd = 0
  pos : ∀ s, (srv.clients s).inUse = true → (srv.clients s).fd ≠ 0
  fd_inj : ∀ i j, (srv.clients i).inUse = true → (srv.clients j).inUse = true →
    (srv.clients i).fd = (srv.clients j).fd → i = j
  buf : ∀ s, (srv.clients s).sbuf.Ok
  registered : ∀ s, (srv.clients s).inUse = true →
    srv.kernel.interest (srv.clients s).fd = some (!sbEmpty (srv.clients s).sbuf)

variable {srv t a b : Server} {s : Slot}

theorem Kernel.interest_epmod {k : Kernel} {fd : Nat} {c : Bool} (h : k.interest fd = some c)
    (out : Bool) : (k.epmod fd out).interest = Function.update k.interest fd (some out) := by
  rw [epmod, h]

theorem Kernel.interest_epmod_of_ne (k : Kernel) {fd d : Nat} (h : d ≠ fd) (out : Bool) :
    (k.epmod fd out).interest d = k.interest d := by
  unfold epmod
  split
  · rfl
  · exact Function.update_of_ne h _ _

theorem SendBuf.Ok.sbEmpty_eq_false {sb : SendBuf} (h : sb.Ok) (hne : sb.pending ≠ []) :
    sbEmpty sb = false := by
  rw [← Bool.not_eq_true, h.sbEmpty_iff]
  exact hne

/-- Slots in use differ from every other slot in their descriptors. -/
theorem Armed.fd_ne (h : Armed srv) {i : Slot} (hi : (srv.clients i).inUse = true) (his : i ≠ s) :
    (srv.clients i).fd ≠ (srv.clients s).fd := by
  intro he
  cases hs : (srv.clients s).inUse with
  | true => exact his (h.fd_inj i s hi hs he)
  | false => exact h.pos i hi (he.trans (h.idle s hs))

theorem Armed.same (h : Armed a) (hfd : ∀ i, (b.clients i).fd = (a.clients i).fd)
    (hu : ∀ i, (b.clients i).inUse = (a.clients i).inUse)
    (hbuf : ∀ i, (b.clients i).sbuf = (a.clients i).sbuf)
    (hinterest : b.kernel.interest = a.kernel.interest) : Armed b := by
  refine ⟨fun i hi => ?_, fun i hi => ?_, fun i j hi hj he => ?_, fun i => ?_, fun i hi => ?_⟩
  · rw [hfd]
    exact h.idle i (hu i ▸ hi)
  · rw [hfd]
    exact h.pos i (hu i ▸ hi)
  · rw [hfd, hfd] at he
    exact h.fd_inj i j (hu i ▸ hi) (hu j ▸ hj) he
  · rw [hbuf]
    exact h.buf i
  · rw [hfd, hbuf, hinterest]
    exact h.registered i (hu i ▸ hi)

/-- A change of the buffer and the registration of one slot. -/
theorem Armed.change (h : Armed a) (hfd : ∀ i, (b.clients i).fd = (a.clients i).fd)
    (hu : ∀ i, (b.clients i).inUse = (a.clients i).inUse)
    (hother : ∀ i, i ≠ s → (b.clients i).sbuf = (a.clients i).sbuf)
    (hinterest : ∀ d, d ≠ (a.clients s).fd → b.kernel.interest d = a.kernel.interest d)
    (hbuf : (b.clients s).sbuf.Ok)
    (hself : (a.clients s).inUse = true →
      b.kernel.interest (a.clients s).fd = some (!sbEmpty (b.clients s).sbuf)) : Armed b := by
  refine ⟨fun i hi => ?_, fun i hi => ?_, fun i j hi hj he => ?_, fun i => ?_, fun i hi => ?_⟩
  · rw [hfd]
    exact h.idle i (hu i ▸ hi)
  · rw [hfd]
    exact h.pos i (hu i ▸ hi)
  · rw [hfd, hfd] at he
    exact h.fd_inj i j (hu i ▸ hi) (hu j ▸ hj) he
  · by_cases his : i = s
    · exact his ▸ hbuf
    · rw [hother i his]
      exact h.buf i
  · rw [hu] at hi
    rw [hfd]
    by_cases his : i = s
    · subst his
      exact hself hi
    · rw [hother i his, hinterest _ (h.fd_ne hi his)]
      exact h.registered i hi

/-! ## Queueing -/

/-- What `slot_send` does to a buffer and its registration: neither changes, or bytes were
queued and re-registering with `EPOLLOUT` was its last operation. -/
theorem slotSend_arms (hbuf : (a.clients s).sbuf.Ok) (m : Message) :
    (((a.slotSend s m).clients s).sbuf = (a.clients s).sbuf ∧
      (a.slotSend s m).kernel.interest = a.kernel.interest) ∨
    (sbEmpty ((a.slotSend s m).clients s).sbuf = false ∧
      ∃ k, k.interest = a.kernel.interest ∧
        (a.slotSend s m).kernel = k.epmod (a.clients s).fd true ∧
        (sbEmpty (a.clients s).sbuf = true → ∃ sent,
          a.kernel.writeAll (a.clients s).fd (packMessage m) = (.again, sent, k))) := by
  cases he : sbEmpty (a.clients s).sbuf with
  | true =>
    obtain ⟨-, -, -, -, hok, hpending⟩ := slotSend_direct m hbuf he
    have hle := Kernel.writeAll_le a.kernel (a.clients s).fd (packMessage m)
    have hframe := (Kernel.writeAll_frame a.kernel (a.clients s).fd (packMessage m)).2.1
    have hslot := slotSend_of_empty m he
    obtain ⟨⟨stop, sent, k⟩, hw⟩ :
        ∃ x, a.kernel.writeAll (a.clients s).fd (packMessage m) = x := ⟨_, rfl⟩
    simp only [hw] at hslot hpending hle hframe
    cases stop with
    | done => exact Or.inl ⟨by rw [hslot]; rfl, by rw [hslot]; exact hframe⟩
    | failed => exact Or.inl ⟨by rw [hslot]; rfl, by rw [hslot]; exact hframe⟩
    | again =>
      refine Or.inr ⟨hok.sbEmpty_eq_false ?_, k, hframe, by rw [hslot]; rfl, fun _ => ⟨sent, hw⟩⟩
      rw [hpending, if_pos rfl]
      intro hnil
      have hlen := congrArg List.length hnil
      rw [List.length_drop, List.length_nil] at hlen
      have hdone := hle.2.mpr (by omega)
      cases hdone
  | false =>
    right
    have hslot : a.slotSend s m =
        (a.note (.queued (a.connOf s) m (a.clients s).sbuf.pending.length)).pushAndArm s
          (packMessage m) := slotSend_of_nonempty m he
    obtain ⟨p1, -, p3⟩ := hbuf.push (packMessage m)
    refine ⟨?_, a.kernel, rfl, by rw [hslot]; rfl, fun h => by cases h⟩
    rw [hslot, Server.sbuf_pushAndArm]
    refine p1.sbEmpty_eq_false ?_
    have hne : (a.clients s).sbuf.pending ≠ [] := fun hn => by
      rw [hbuf.sbEmpty_iff.mpr hn] at he
      cases he
    change (sbPush (a.clients s).sbuf (packMessage m)).2.pending ≠ []
    rw [p3]
    split
    · exact fun hn => hne (List.append_eq_nil_iff.mp hn).1
    · exact hne

theorem Armed.slotSend (h : Armed a) (s : Slot) (m : Message) : Armed (a.slotSend s m) := by
  have hfr := OutputOnly.slotSend a s m
  have hother : ∀ i, i ≠ s → ((a.slotSend s m).clients i).sbuf = (a.clients i).sbuf :=
    fun i hi => sbuf_slotSend_of_ne a hi m
  rcases slotSend_arms (h.buf s) m with ⟨hb, hi⟩ | ⟨hne, k, hk, hkernel, -⟩
  · refine h.same hfr.fd hfr.inUse (fun i => ?_) hi
    by_cases his : i = s
    · exact his ▸ hb
    · exact hother i his
  · refine h.change (s := s) hfr.fd hfr.inUse hother (fun d hd => ?_) ?_ fun hu => ?_
    · rw [hkernel, Kernel.interest_epmod_of_ne k hd, hk]
    · exact sbufOk_slotSend (h.buf s) m
    · rw [hkernel, Kernel.interest_epmod (by rw [hk]; exact h.registered s hu),
        Function.update_self, hne]
      rfl

/-! ## Flushing -/

/-- A flush that ends early leaves bytes pending, of those that were. -/
theorem sbFlush_nonempty (hbuf : (a.clients s).sbuf.Ok) {fd : Nat} {stop : Stop}
    (hflush : a.sbFlush s fd = (stop, b)) (hstop : stop ≠ .done) :
    sbEmpty (a.clients s).sbuf = false ∧ sbEmpty (b.clients s).sbuf = false := by
  obtain ⟨-, -, -, hok, hpending⟩ := sbFlush_spec hbuf fd
  obtain ⟨hle, hdone⟩ := Kernel.writeAll_le a.kernel fd (a.clients s).sbuf.pending
  have hne : (a.kernel.writeAll fd (a.clients s).sbuf.pending).1 ≠ .done := by
    intro h
    exact hstop (h ▸ (congrArg Prod.fst hflush).symm)
  rw [hflush] at hok hpending
  have hlt := lt_of_le_of_ne hle fun h => hne (hdone.mpr h)
  constructor
  · apply hbuf.sbEmpty_eq_false
    intro hn
    rw [hn, List.length_nil] at hlt
    exact Nat.not_lt_zero _ hlt
  · apply hok.sbEmpty_eq_false
    rw [hpending]
    intro hn
    have hlen := congrArg List.length hn
    rw [List.length_drop, List.length_nil] at hlen
    omega

/-- A flush that is done leaves the buffer empty. -/
theorem sbFlush_empty (hbuf : (a.clients s).sbuf.Ok) {fd : Nat}
    (hflush : a.sbFlush s fd = (.done, b)) : sbEmpty (b.clients s).sbuf = true := by
  obtain ⟨-, -, -, hok, hpending⟩ := sbFlush_spec hbuf fd
  have hdone := (Kernel.writeAll_le a.kernel fd (a.clients s).sbuf.pending).2.mp
    (congrArg Prod.fst hflush)
  rw [hflush] at hok hpending
  rw [hok.sbEmpty_iff, hpending, hdone, List.drop_length]

theorem Armed.flush (h : Armed a) {fd : Nat} {stop : Stop} (hfind : a.findByFd fd = some s)
    (hflush : a.sbFlush s fd = (stop, b)) :
    Armed (if stop = .done then { b with kernel := b.kernel.epmod fd false } else b) := by
  obtain ⟨hu, rfl⟩ := findByFd_eq_some hfind
  have hfr := outputOnly_sbFlush a s (a.clients s).fd
  obtain ⟨hkernel, -, hother, hok, -⟩ := sbFlush_spec (h.buf s) (a.clients s).fd
  have hframe := (Kernel.writeAll_frame a.kernel (a.clients s).fd
    (a.clients s).sbuf.pending).2.1
  rw [← hkernel, hflush] at hframe
  have hreg := h.registered s hu
  rw [hflush] at hfr hother hok
  split
  · next hdone =>
    subst hdone
    refine @Armed.change a { b with kernel := _ } s h hfr.fd hfr.inUse hother (fun d hd => ?_) hok
      fun _ => ?_
    · change (b.kernel.epmod _ _).interest d = _
      rw [Kernel.interest_epmod_of_ne _ hd, hframe]
    · change (b.kernel.epmod _ _).interest _ = some (!sbEmpty (b.clients s).sbuf)
      rw [Kernel.interest_epmod (by rw [hframe]; exact hreg), Function.update_self,
        sbFlush_empty (h.buf s) hflush]
      rfl
  · next hstop =>
    obtain ⟨hbefore, hafter⟩ := sbFlush_nonempty (h.buf s) hflush hstop
    refine h.change (s := s) hfr.fd hfr.inUse hother (fun d _ => by rw [hframe]) hok fun _ => ?_
    rw [hframe, hreg, hbefore, hafter]

/-! ## Filling and releasing slots -/

theorem Armed.release (h : Armed a) (s : Slot) : Armed (a.release s) := by
  have hclients := Server.clients_release a s
  have hopen : ∀ i, ((a.release s).clients i).inUse = true →
      i ≠ s ∧ (a.release s).clients i = a.clients i := by
    intro i hi
    by_cases his : i = s
    · subst his
      rw [hclients, Function.update_self] at hi
      cases hi
    · exact ⟨his, by rw [hclients, Function.update_of_ne his]⟩
  refine ⟨fun i hi => ?_, fun i hi => ?_, fun i j hi hj he => ?_, fun i => ?_, fun i hi => ?_⟩
  · by_cases his : i = s
    · subst his
      rw [hclients, Function.update_self]
      rfl
    · rw [hclients, Function.update_of_ne his] at hi ⊢
      exact h.idle i hi
  · obtain ⟨-, hc⟩ := hopen i hi
    rw [hc] at hi ⊢
    exact h.pos i hi
  · obtain ⟨-, hci⟩ := hopen i hi
    obtain ⟨-, hcj⟩ := hopen j hj
    rw [hci] at hi he
    rw [hcj] at hj he
    exact h.fd_inj i j hi hj he
  · rw [hclients]
    by_cases his : i = s
    · subst his
      rw [Function.update_self]
      exact SendBuf.ok_zero
    · rw [Function.update_of_ne his]
      exact h.buf i
  · obtain ⟨his, hc⟩ := hopen i hi
    rw [hc] at hi ⊢
    change Function.update a.kernel.interest (a.clients s).fd none (a.clients i).fd = _
    rw [Function.update_of_ne (h.fd_ne hi his)]
    exact h.registered i hi

theorem Armed.setClient (h : Armed a) {c : Client} (hfd : c.fd = (a.clients s).fd)
    (hu : c.inUse = (a.clients s).inUse) (hbuf : c.sbuf = (a.clients s).sbuf) :
    Armed (a.setClient s c) := by
  have hs := @sameOutput_setClient a s c hfd hbuf
  refine h.same hs.fd (fun i => ?_) hs.sbuf rfl
  by_cases his : i = s
  · subst his
    simp only [Server.setClient, Function.update_self, hu]
  · simp only [Server.setClient, Function.update_of_ne his]

theorem armed_handled : Handled Armed where
  note _ h := h.same (fun _ => rfl) (fun _ => rfl) (fun _ => rfl) rfl
  input hc h := h.setClient hc.fd hc.inUse hc.sbuf
  save _ h := h.same (fun _ => rfl) (fun _ => rfl) (fun _ => rfl) rfl
  send s m h := h.slotSend s m
  login _ _ _ h := h.setClient rfl rfl rfl
  clear _ h := h.setClient rfl rfl rfl
  status _ _ h := h.setClient rfl rfl rfl
  release s _ h := h.release s
  flush hfind hflush h := h.flush hfind hflush

/-- A new connection is registered for reading and has nothing pending. -/
theorem Armed.acceptOne (h : Armed a) (hinv : Inv a) (env : Env) {fd : Nat} (sent : Nat)
    (hfresh : a.kernel.conn fd = none) (hfd : reservedFds ≤ fd) :
    Armed (a.acceptOne env fd sent) := by
  have hne : ∀ i, (a.clients i).inUse = true → (a.clients i).fd ≠ fd := by
    rintro i hi rfl
    obtain ⟨d, c, r, hh⟩ := hinv.holds i hi
    have hconn := hh.conn
    rw [← hh.fd_eq, hfresh] at hconn
    cases hconn
  unfold Server.acceptOne
  split
  · refine ⟨h.idle, h.pos, h.fd_inj, h.buf, fun i hi => ?_⟩
    change Function.update a.kernel.interest fd none (a.clients i).fd = _
    rw [Function.update_of_ne (hne i hi)]
    exact h.registered i hi
  · next s hfree =>
    obtain ⟨t, ht⟩ : ∃ t, t = ({ a with kernel := (a.kernel.accept fd).register fd }.setClient s
      { Client.zero with fd := fd, inUse := true }).note (.accepted a.kernel.accepted s) := ⟨_, rfl⟩
    rw [← ht]
    have hself : t.clients s = { Client.zero with fd := fd, inUse := true } := by
      rw [ht]
      exact Function.update_self _ _ _
    have hothers : ∀ i, i ≠ s → t.clients i = a.clients i := fun i hi => by
      rw [ht]
      exact Function.update_of_ne hi _ _
    have hinterest : t.kernel.interest = Function.update a.kernel.interest fd (some false) := by
      rw [ht]
      rfl
    have hpos : fd ≠ 0 := by
      rintro rfl
      exact absurd hfd (by decide)
    refine ⟨fun i hi => ?_, fun i hi => ?_, fun i j hi hj he => ?_, fun i => ?_, fun i hi => ?_⟩
    · by_cases his : i = s
      · rw [his, hself] at hi
        cases hi
      · rw [hothers i his] at hi ⊢
        exact h.idle i hi
    · by_cases his : i = s
      · rw [his, hself]
        exact hpos
      · rw [hothers i his] at hi ⊢
        exact h.pos i hi
    · by_cases his : i = s <;> by_cases hjs : j = s
      · exact his.trans hjs.symm
      · rw [his, hself, hothers j hjs] at he
        rw [hothers j hjs] at hj
        exact absurd he.symm (hne j hj)
      · rw [hjs, hself, hothers i his] at he
        rw [hothers i his] at hi
        exact absurd he (hne i hi)
      · rw [hothers i his] at hi he
        rw [hothers j hjs] at hj he
        exact h.fd_inj i j hi hj he
    · by_cases his : i = s
      · rw [his, hself]
        exact SendBuf.ok_zero
      · rw [hothers i his]
        exact h.buf i
    · rw [hinterest]
      by_cases his : i = s
      · rw [his, hself, Function.update_self]
        rfl
      · rw [hothers i his] at hi ⊢
        rw [Function.update_of_ne (hne i hi)]
        exact h.registered i hi

theorem armed_of_reachable {history : History}
    (h : Reachable step (Server.init history) srv) : Armed srv := by
  refine (h.invariant (I := fun srv => Inv srv ∧ Armed srv) ⟨inv_init history, ?_⟩
    fun a l b ha hs => ⟨ha.1.step hs, ?_⟩).2
  · refine ⟨fun _ _ => rfl, fun _ hu => ?_, fun _ _ hu => ?_, fun _ => SendBuf.ok_zero,
      fun _ hu => ?_⟩
    · cases hu
    · cases hu
    · cases hu
  · have hp : Armed (a.prescribe l.writes) :=
      ha.2.same (fun _ => rfl) (fun _ => rfl) (fun _ => rfl) rfl
    refine armed_handled.step hp (fun fd sent hfresh hfd => ?_) hs
    exact hp.acceptOne (ha.1.prescribe l.writes) l.env sent hfresh hfd

/-- No output is stranded: between two events every slot in use is registered, with `EPOLLOUT`
exactly if its send buffer is not empty; and a call that makes a buffer non-empty ends its
writes with `EAGAIN` and re-registers the descriptor with `EPOLLOUT` behind them. -/
theorem output_armed {history : History} (h : Reachable step (Server.init history) srv) :
    (∀ s, (srv.clients s).inUse = true →
      srv.kernel.interest (srv.clients s).fd = some (!sbEmpty (srv.clients s).sbuf)) ∧
    ∀ (a : Server) (s : Slot) (m : Message), sbEmpty (a.clients s).sbuf = true →
      sbEmpty ((a.slotSend s m).clients s).sbuf = false →
        ∃ sent k, a.kernel.writeAll (a.clients s).fd (packMessage m) = (.again, sent, k) ∧
          (a.slotSend s m).kernel = k.epmod (a.clients s).fd true := by
  refine ⟨(armed_of_reachable h).registered, fun a s m he hne => ?_⟩
  have hslot := slotSend_of_empty m he
  obtain ⟨⟨stop, sent, k⟩, hw⟩ :
      ∃ x, a.kernel.writeAll (a.clients s).fd (packMessage m) = x := ⟨_, rfl⟩
  simp only [hw] at hslot
  cases stop with
  | again => exact ⟨sent, k, hw, by rw [hslot]; rfl⟩
  | done =>
    rw [hslot] at hne
    exact absurd (hne.symm.trans he) Bool.false_ne_true
  | failed =>
    rw [hslot] at hne
    exact absurd (hne.symm.trans he) Bool.false_ne_true

/-- New connections are registered for reading only. -/
theorem output_armed_twoConnects : ∃ srv, run step (Server.init fun _ => none) twoConnects =
    some srv ∧ srv.kernel.interest 6 = some false := by
  have hrun : run step (Server.init fun _ => none) twoConnects = some _ := rfl
  exact ⟨_, hrun, (output_armed ⟨twoConnects, hrun⟩).1 1 rfl⟩

end ChatSystem.Epoll
