import ChatSystem.Epoll.Framing
import ChatSystem.Epoll.Slots

/-!
# Released slots of the epoll server

`disconnect_client` clears its slot. The handlers return behind it, except where the
release happens inside `process_message`: the processing loop then goes on with the
slot. A slot not in use is entirely zero between two events as long as no logout is
processed.
-/

namespace ChatSystem.Epoll

open Transition

/-- Every slot that is not in use is entirely zero. -/
def Cleared (srv : Server) : Prop := ∀ s, (srv.clients s).inUse = false → srv.clients s = .zero

/-- The processing loop of `handle_read` reaches `a` while the event `l` is handled for `s`. -/
def Looped (srv : Server) (l : Label) (s : Slot) (a : Server) : Prop :=
  ∃ fd b, l.action = .readable fd b ∧ (srv.prescribe l.writes).findByFd fd = some s ∧
    (readLoop ((srv.prescribe l.writes).clients s) b.data b.sizes).1 = false ∧
    b.ending = .again ∧ Turn l.env s ((srv.prescribe l.writes).filled s b) a

/-- When the loop is back from `process_message` and updates its slot, the slot has not been
released. -/
def KeepsOff (srv : Server) (l : Label) : Prop :=
  ∀ s a, Looped srv l s a → a.Complete s →
    ((a.dispatch l.env s (a.front s)).clients s).inUse = true

/-- No frame that a wake-up completes in the accumulation buffer is a logout. -/
def NoLogout (srv : Server) (l : Label) : Prop :=
  ∀ fd b s, l.action = .readable fd b → srv.findByFd fd = some s → b.ending = .again →
    ((srv.clients s).received ++ b.data).length < rbufSize →
    ∀ f ∈ (frameFormat.cut ((srv.clients s).received ++ b.data)).1, isLogout f = false

variable {srv t a b : Server} {env : Env} {s : Slot}

/-! ## Free slots are left alone -/

/-- The slots that are free in the first state are the same in the second. -/
def LeavesFree (a b : Server) : Prop :=
  ∀ i, (a.clients i).inUse = false → b.clients i = a.clients i

theorem LeavesFree.refl (a : Server) : LeavesFree a a := fun _ _ => rfl

theorem LeavesFree.trans {c : Server} (h : LeavesFree a b) (k : LeavesFree b c) :
    LeavesFree a c := by
  intro i hi
  have hab := h i hi
  rw [← hab] at hi
  exact (k i hi).trans hab

/-- A slot that was in use may change. -/
theorem LeavesFree.trans_of_ne {c : Server} (h : LeavesFree a b) (hs : (a.clients s).inUse = true)
    (k : ∀ i, i ≠ s → c.clients i = b.clients i) : LeavesFree a c := by
  intro i hi
  rw [← h i hi]
  apply k
  rintro rfl
  rw [hs] at hi
  cases hi

theorem LeavesFree.setClient (h : LeavesFree a b) (hs : (a.clients s).inUse = true) (c : Client) :
    LeavesFree a (b.setClient s c) :=
  h.trans_of_ne hs fun _ hi => Function.update_of_ne hi _ _

theorem Client.eq_of_sameButInput {c d : Client} (h : SameButInput c d) (hr : d.rbuf = c.rbuf)
    (hl : d.rbufLen = c.rbufLen) : d = c := by
  obtain ⟨he, hfd, hu, hs⟩ := h
  cases c
  cases d
  simp only at he hfd hu hs hr hl
  subst he hfd hu hs hr hl
  rfl

/-- `slot_send` to a slot does not touch the other slots. -/
theorem clients_slotSend_of_ne (a : Server) {s i : Slot} (hi : i ≠ s) (m : Message) :
    (a.slotSend s m).clients i = a.clients i := by
  have ho := OutputOnly.slotSend a s m
  exact Client.eq_of_sameButInput ⟨ho.entry i, ho.fd i, ho.inUse i, sbuf_slotSend_of_ne a hi m⟩
    (ho.rbuf i) (ho.rbufLen i)

theorem leavesFree_slotSend (hs : (a.clients s).inUse = true) (m : Message) :
    LeavesFree a (a.slotSend s m) :=
  (LeavesFree.refl a).trans_of_ne hs fun _ hi => clients_slotSend_of_ne a hi m

/-- The loop over the logged-in slots only sends to slots in use. -/
theorem leavesFree_sendOthers (h : LoginOk a) (skip : Slot) (m : Message) :
    LeavesFree a (a.sendOthers skip m) := by
  have hall : ∀ (is : List Slot) (b : Server), LoginOk b → LeavesFree b (is.foldl
      (fun srv i => if i ≠ skip ∧ (srv.clients i).active then srv.slotSend i m else srv) b) := by
    intro is
    induction is with
    | nil => exact fun b _ => .refl b
    | cons i is ih =>
      intro b hb
      rw [List.foldl_cons]
      split
      · next hi =>
        exact (leavesFree_slotSend (hb.active i hi.2) m).trans
          (ih _ (hb.output (OutputOnly.slotSend b i m)))
      · exact ih b hb
  exact hall _ a h

theorem leavesFree_disconnectClient (h : LoginOk a) (env : Env) (s : Slot) :
    LeavesFree a (a.disconnectClient env s) := by
  cases hu : (a.clients s).inUse with
  | false =>
    rw [disconnectClient_of_not_inUse hu]
    exact .refl a
  | true =>
    unfold Server.disconnectClient
    rw [if_neg (by simpa using hu)]
    simp only
    split
    · have hn : LoginOk (a.note (.closed (a.connOf s))) := ⟨h.active, h.status⟩
      have hsend := leavesFree_sendOthers hn s (notice env.now
        (disconnectedNote (a.clients s).name))
      exact LeavesFree.setClient (a := a) hsend hu _
    · exact LeavesFree.setClient (.refl a) hu _

theorem leavesFree_send (h : LeavesFree a b) (hs : (b.clients s).inUse = true) (m : Message) :
    LeavesFree a (b.slotSend s m) :=
  h.trans (leavesFree_slotSend hs m)

/-- `process_message` for a slot in use touches slots in use only. -/
theorem leavesFree_processMessage (h : LoginOk a) (hu : (a.clients s).inUse = true) (env : Env)
    (m : Message) : LeavesFree a (a.processMessage env s m) := by
  obtain ⟨n, hn⟩ : ∃ n, n = a.note (.processed (a.connOf s) m) := ⟨_, rfl⟩
  have hlogin : LoginOk n := hn ▸ ⟨h.active, h.status⟩
  have hnu : (n.clients s).inUse = true := hn ▸ hu
  have hset : ∀ e, ((n.setEntry s e).clients s).inUse = true := fun e =>
    ((Quiet.setEntry n s e).inUse s).trans hnu
  apply LeavesFree.trans (b := n) (fun _ _ => by rw [hn]; rfl)
  rw [Server.processMessage, ← hn]
  split
  · unfold Server.login
    split
    · exact leavesFree_slotSend hnu _
    · split
      · exact leavesFree_slotSend hnu _
      · split
        · exact leavesFree_slotSend hnu _
        · exact leavesFree_send ((LeavesFree.refl n).setClient hnu _) (hset _) _
  · have hclear := loginOk_handled.clear s hlogin
    have hnote := leavesFree_sendOthers hclear s (notice env.now (leftNote (n.clients s).name))
    have hafter := loginOk_handled.sendOthers s (notice env.now (leftNote (n.clients s).name)) hclear
    exact (((LeavesFree.refl n).setClient hnu _).trans hnote).trans
      (leavesFree_disconnectClient hafter env s)
  · unfold Server.broadcast
    split
    · exact leavesFree_slotSend hnu _
    · have hsave : LoginOk { n with history := n.history.save env.host m [] } :=
        loginOk_handled.save _ hlogin
      have hall := leavesFree_sendOthers hsave s m
      exact leavesFree_send hall (((OutputOnly.sendOthers _ s m).inUse s).trans hnu) _
  · unfold Server.priv
    split
    · exact leavesFree_slotSend hnu _
    · split
      · exact leavesFree_slotSend hnu _
      · next t ht =>
        have hsave := loginOk_handled.save (n.history.save env.host m m.receiverStr) hlogin
        have hactive : (n.clients t).active = true :=
          (Bool.and_eq_true_iff.mp (findName_eq_some ht)).1
        exact leavesFree_send (leavesFree_slotSend (hsave.active t hactive) m)
          (((OutputOnly.slotSend _ t m).inUse s).trans hnu) _
  · exact leavesFree_slotSend hnu _
  · exact leavesFree_slotSend hnu _
  · exact leavesFree_send ((LeavesFree.refl n).setClient hnu _) (hset _) _
  · exact leavesFree_slotSend hnu _

/-! ## The processing loop -/

/-- The processing loop touches slots in use only. -/
theorem Turn.leavesFree (h : Turn env s srv a) (hl : LoginOk srv)
    (hu : (srv.clients s).inUse = true) : LeavesFree srv a := by
  induction h with
  | first => exact .refl srv
  | @next a ht hc ih =>
    have hau := ht.inUse_of_complete hu hc
    have hdis : LeavesFree a (a.dispatch env s (a.front s)) := by
      unfold Server.dispatch
      split
      · exact leavesFree_processMessage (loginOk_handled.turn hu hl ht) hau env _
      · exact .refl a
    exact ih.trans (hdis.setClient hau _)

/-- From each of its turns the loop goes on to the same end. -/
theorem Turn.parseLoop_eq (h : Turn env s srv a) : parseLoop env s srv = parseLoop env s a := by
  induction h with
  | first => rfl
  | @next a _ hc ih =>
    obtain ⟨h1, h2, h3⟩ := hc
    have hlen : (announcedLen (a.clients s).rbuf).toNat ≤ maxPayloadLen :=
      Nat.le_of_add_le_add_left h2
    rw [ih, parseLoop, dif_neg (Int.not_lt.mpr h1)]
    simp only
    rw [if_neg (Nat.not_lt.mpr hlen)]
    exact if_neg (Int.not_lt.mpr h3)

/-- A slot released inside `process_message` ends up with a negative fill level. -/
theorem rbufLen_neg_of_released (hu : (a.clients s).inUse = true)
    (hr : ((a.dispatch env s (a.front s)).clients s).inUse = false) :
    (((a.dispatch env s (a.front s)).consume s (a.total s)).clients s).rbufLen < 0 := by
  have hzero : ((a.dispatch env s (a.front s)).clients s).rbufLen = 0 := by
    unfold Server.dispatch at hr ⊢
    split at hr
    · rcases inUse_processMessage hu env _ with hi | hz
      · rw [hi] at hr
        cases hr
      · exact hz
    · rw [hu] at hr
      cases hr
  have htotal : 0 < a.total s := Nat.lt_of_lt_of_le (by decide) (Nat.le_add_right headerSize _)
  rw [Server.rbufLen_consume, hzero]
  omega

theorem clients_disconnectClient (hu : (a.clients s).inUse = true) (env : Env) :
    (a.disconnectClient env s).clients s = .zero := by
  obtain ⟨b, -, hb⟩ := disconnectClient_eq hu env
  rw [hb, Server.clients_release, Function.update_self]

/-- If the loop never goes on behind a release, its slot stays in use or ends up cleared. -/
theorem clients_parseLoop (hu : (srv.clients s).inUse = true)
    (hk : ∀ a, Turn env s srv a → a.Complete s →
      ((a.dispatch env s (a.front s)).clients s).inUse = true) :
    ((parseLoop env s srv).clients s).inUse = true ∨ (parseLoop env s srv).clients s = .zero := by
  obtain ⟨a, hturn, -, hend⟩ := parseLoop_cases env s srv
  have hau : (a.clients s).inUse = true := by
    cases hturn with
    | first => exact hu
    | @next a ht hc =>
      rw [Server.inUse_consume]
      exact hk a ht hc
  rcases hend with he | he
  · rw [he]
    exact Or.inl hau
  · rw [he]
    exact Or.inr (clients_disconnectClient hau env)

/-- If it goes on behind a release, the slot is not in use and not cleared. -/
theorem Turn.clients_of_released (h : Turn env s srv a) (hu : (srv.clients s).inUse = true)
    (hc : a.Complete s) (hr : ((a.dispatch env s (a.front s)).clients s).inUse = false) :
    ((parseLoop env s srv).clients s).inUse = false ∧ (parseLoop env s srv).clients s ≠ .zero := by
  have hneg := rbufLen_neg_of_released (h.inUse_of_complete hu hc) hr
  have hstop : ((a.dispatch env s (a.front s)).consume s (a.total s)) = parseLoop env s srv := by
    rw [(Turn.next h hc).parseLoop_eq]
    exact (parseLoop_of_lt (Int.lt_trans hneg (by decide))).symm
  rw [hstop] at hneg
  rw [← hstop, Server.inUse_consume, hstop]
  refine ⟨hr, fun hz => ?_⟩
  rw [hz] at hneg
  exact absurd hneg (Int.lt_irrefl 0)

/-! ## Events -/

theorem leavesFree_filled (hu : (srv.clients s).inUse = true) (b : Burst) :
    LeavesFree srv (srv.filled s b) :=
  LeavesFree.setClient (b := srv.note _) (.refl srv) hu _

/-- Apart from accepting, an event touches slots in use only. -/
theorem leavesFree_handleRead (h : LoginOk srv) (env : Env) (fd : Nat) (b : Burst) :
    LeavesFree srv (srv.handleRead env fd b) := by
  unfold Server.handleRead
  split
  · exact .refl srv
  · next s hs =>
    have hu := (findByFd_eq_some hs).1
    have hfill := leavesFree_filled hu b
    have hlogin := loginOk_handled.filled s b h
    have hclose := hfill.trans (leavesFree_disconnectClient hlogin env s)
    change LeavesFree srv (if (readLoop (srv.clients s) b.data b.sizes).1 then
      (srv.filled s b).disconnectClient env s else (srv.filled s b).endRead env s b.ending)
    split
    · exact hclose
    · unfold Server.endRead
      split
      · have hfu : ((srv.filled s b).clients s).inUse = true := by
          rw [Server.inUse_filled]
          exact hu
        obtain ⟨a, hturn, -, he⟩ := parseLoop_cases env s (srv.filled s b)
        have ha := hfill.trans (hturn.leavesFree hlogin hfu)
        rcases he with he | he
        · rw [he]
          exact ha
        · rw [he]
          exact ha.trans (leavesFree_disconnectClient (loginOk_handled.turn hfu hlogin hturn) env s)
      · exact hclose

theorem leavesFree_handleWrite (h : LoginOk srv) (env : Env) (fd : Nat) (unread : List UInt8) :
    LeavesFree srv (srv.handleWrite env fd unread) := by
  unfold Server.handleWrite
  split
  · exact .refl srv
  · next s hs =>
    have hflush : LeavesFree srv (srv.sbFlush s fd).2 :=
      (LeavesFree.refl srv).setClient (findByFd_eq_some hs).1 _
    have hlogin := h.output (outputOnly_sbFlush srv s fd)
    split
    · next b hb =>
      rw [hb] at hflush hlogin
      exact hflush.trans (leavesFree_disconnectClient (a := b.note _)
        ⟨hlogin.active, hlogin.status⟩ env s)
    · next b hb =>
      rw [hb] at hflush
      exact hflush
    · next b hb =>
      rw [hb] at hflush
      exact hflush

/-- Every slot that was in use still is, or has been cleared. -/
def KeepsOrClears (a b : Server) : Prop :=
  ∀ i, (a.clients i).inUse = true → (b.clients i).inUse = true ∨ b.clients i = .zero

theorem Cleared.of_keepsOrClears (h : Cleared srv) (hf : LeavesFree srv t)
    (hk : KeepsOrClears srv t) : Cleared t := by
  intro i hi
  cases hu : (srv.clients i).inUse with
  | false => exact (hf i hu).trans (h i hu)
  | true => exact (hk i hu).resolve_left (Bool.eq_false_iff.mp hi)

theorem keepsOrClears_disconnectClient (a : Server) (env : Env) (s : Slot) :
    KeepsOrClears a (a.disconnectClient env s) := by
  intro i hi
  by_cases his : i = s
  · subst his
    exact Or.inr (clients_disconnectClient hi env)
  · cases hu : (a.clients s).inUse with
    | false =>
      rw [disconnectClient_of_not_inUse hu]
      exact Or.inl hi
    | true =>
      obtain ⟨b, hb, he⟩ := disconnectClient_eq hu env
      rw [he, Server.clients_release, Function.update_of_ne his]
      exact Or.inl ((hb.inUse i).trans hi)

theorem Cleared.note (h : Cleared a) (e : Event) : Cleared (a.note e) := h

theorem Cleared.disconnectClient (h : Cleared a) (hl : LoginOk a) (env : Env) (s : Slot) :
    Cleared (a.disconnectClient env s) :=
  h.of_keepsOrClears (leavesFree_disconnectClient hl env s) (keepsOrClears_disconnectClient a env s)

/-- The state after a wake-up for reading. -/
theorem handleRead_eq {fd : Nat} (hfind : srv.findByFd fd = some s) (env : Env) (b : Burst) :
    srv.handleRead env fd b =
      if (readLoop (srv.clients s) b.data b.sizes).1 = false ∧ b.ending = .again then
        parseLoop env s (srv.filled s b)
      else (srv.filled s b).disconnectClient env s := by
  rw [Server.handleRead]
  simp only [hfind]
  change (if (readLoop (srv.clients s) b.data b.sizes).1 then (srv.filled s b).disconnectClient env s
    else (srv.filled s b).endRead env s b.ending) = _
  cases (readLoop (srv.clients s) b.data b.sizes).1 with
  | true => rw [if_pos rfl, if_neg (fun h => Bool.noConfusion h.1)]
  | false =>
    rw [if_neg Bool.false_ne_true]
    cases b.ending with
    | again => rw [if_pos ⟨rfl, rfl⟩, Server.endRead]
    | eof => exact (if_neg fun h => by cases h.2).symm
    | failed => exact (if_neg fun h => by cases h.2).symm

/-- A wake-up for reading whose loop never goes on behind a release. -/
theorem keepsOrClears_handleRead (hinv : Inv srv) {fd : Nat} {env : Env} {b : Burst}
    (hk : ∀ s a, srv.findByFd fd = some s → (readLoop (srv.clients s) b.data b.sizes).1 = false →
      b.ending = .again → Turn env s (srv.filled s b) a → a.Complete s →
      ((a.dispatch env s (a.front s)).clients s).inUse = true) :
    KeepsOrClears srv (srv.handleRead env fd b) := by
  cases hfind : srv.findByFd fd with
  | none =>
    rw [Server.handleRead, hfind]
    exact fun _ hi => Or.inl hi
  | some s =>
    intro i hi
    by_cases his : i = s
    · subst his
      have hfu : ((srv.filled i b).clients i).inUse = true := by
        rw [Server.inUse_filled]
        exact hi
      rw [handleRead_eq hfind]
      split
      · next hb => exact clients_parseLoop hfu fun a ha hc => hk i a hfind hb.1 hb.2 ha hc
      · exact Or.inr (clients_disconnectClient hfu env)
    · obtain ⟨c, r, hh⟩ := hinv.holds_of_findByFd hfind
      rw [(hh.handleRead hfind env b).elsewhere.inUse i his]
      exact Or.inl hi

theorem keepsOrClears_handleWrite (srv : Server) (env : Env) (fd : Nat) (unread : List UInt8) :
    KeepsOrClears srv (srv.handleWrite env fd unread) := by
  unfold Server.handleWrite
  split
  · exact fun _ hi => Or.inl hi
  · next s hs =>
    have hflush : ∀ i, (srv.clients i).inUse = true →
        ((srv.sbFlush s fd).2.clients i).inUse = true := fun i hi =>
      ((outputOnly_sbFlush srv s fd).inUse i).trans hi
    split
    · next b hb =>
      rw [hb] at hflush
      exact fun i hi => keepsOrClears_disconnectClient (b.note _) env s i (hflush i hi)
    · next b hb =>
      rw [hb] at hflush
      exact fun i hi => Or.inl (hflush i hi)
    · next b hb =>
      rw [hb] at hflush
      exact fun i hi => Or.inl (hflush i hi)

theorem Cleared.acceptOne (h : Cleared srv) (env : Env) (fd sent : Nat) :
    Cleared (srv.acceptOne env fd sent) := by
  unfold Server.acceptOne
  split
  · exact h
  · next s _ =>
    intro i hi
    by_cases his : i = s
    · subst his
      simp only [Server.note, Server.setClient, Function.update_self] at hi
      cases hi
    · simp only [Server.note, Server.setClient, Function.update_of_ne his] at hi ⊢
      exact h i hi

/-- One event keeps the free slots cleared if its loop never goes on behind a release. -/
theorem Cleared.step (h : Cleared srv) (hinv : Inv srv) (hl : LoginOk srv) {l : Label}
    (hk : KeepsOff srv l) (hs : step srv l = some t) : Cleared t := by
  have hpre : LoginOk (srv.prescribe l.writes) := ⟨hl.active, hl.status⟩
  have hcleared : Cleared (srv.prescribe l.writes) := h
  rw [Epoll.step] at hs
  cases hact : l.action with
  | accept fd sent =>
    simp only [hact] at hs
    split at hs
    · obtain rfl := Option.some.inj hs
      exact hcleared.acceptOne l.env fd sent
    · cases hs
  | hangup fd unread =>
    simp only [hact] at hs
    obtain rfl := Option.some.inj hs
    unfold Server.hangup
    split
    · exact hcleared
    · next s _ => exact (hcleared.note _).disconnectClient (loginOk_handled.note rfl hpre) l.env s
  | readable fd b =>
    simp only [hact] at hs
    obtain rfl := Option.some.inj hs
    refine hcleared.of_keepsOrClears (leavesFree_handleRead hpre l.env fd b)
      (keepsOrClears_handleRead (hinv.prescribe l.writes) fun s a hfind hroom hend ha hc => ?_)
    exact hk s a ⟨fd, b, hact, hfind, hroom, hend, ha⟩ hc
  | writable fd unread =>
    simp only [hact] at hs
    obtain rfl := Option.some.inj hs
    exact hcleared.of_keepsOrClears (leavesFree_handleWrite hpre l.env fd unread)
      (keepsOrClears_handleWrite _ l.env fd unread)

/-- Going on behind a release leaves a slot that is not in use and not zero. -/
theorem not_cleared_of_not_keepsOff {l : Label} (hk : ¬ KeepsOff srv l)
    (hs : step srv l = some t) : ¬ Cleared t := by
  unfold KeepsOff at hk
  push Not at hk
  obtain ⟨s, a, ⟨fd, b, hact, hfind, hroom, hend, hturn⟩, hc, hr⟩ := hk
  have hu : (((srv.prescribe l.writes).filled s b).clients s).inUse = true := by
    rw [Server.inUse_filled]
    exact (findByFd_eq_some hfind).1
  obtain ⟨hfree, hne⟩ := hturn.clients_of_released hu hc (Bool.eq_false_iff.mpr hr)
  rw [step] at hs
  simp only [hact] at hs
  obtain rfl := Option.some.inj hs
  rw [handleRead_eq hfind, if_pos ⟨hroom, hend⟩]
  exact fun hcleared => hne (hcleared s hfree)

/-! ## The frames that end a session -/

/-- The first turn, or a turn behind the first frame. -/
theorem Turn.head_cases (h : Turn env s srv a) : a = srv ∨ srv.Complete s ∧
    Turn env s ((srv.dispatch env s (srv.front s)).consume s (srv.total s)) a := by
  induction h with
  | first => exact Or.inl rfl
  | @next a ht hc ih =>
    right
    rcases ih with rfl | ⟨h1, h2⟩
    · exact ⟨hc, .first⟩
    · exact ⟨h1, .next h2 hc⟩

theorem Turn.cons (hc : srv.Complete s)
    (h : Turn env s ((srv.dispatch env s (srv.front s)).consume s (srv.total s)) a) :
    Turn env s srv a := by
  induction h with
  | first => exact .next .first hc
  | next _ hc' ih => exact .next ih hc'

/-- A complete frame is at the front of the accumulated bytes. -/
theorem Holds.front_of_complete {fd c : Nat} {r : List UInt8} (h : Holds srv s fd c r)
    (hc : srv.Complete s) : ∃ f t, frameFormat.front r = .frame f t := by
  obtain ⟨h1, h2, h3⟩ := hc
  have hlen := h.rbufLen_eq
  rw [Server.total, h.announcedLen_rbuf (by omega)] at h2 h3
  refine ⟨r.take (headerSize + (announcedLen r).toNat), r.drop (headerSize + (announcedLen r).toNat),
    ?_⟩
  rw [front_eq, if_neg (by omega), if_neg (by omega), if_neg (by omega)]

/-- The loop never goes on behind a release exactly if the accumulated frames are no logouts. -/
theorem Holds.keepsOff_iff {fd c : Nat} {r : List UInt8} (h : Holds srv s fd c r) (env : Env) :
    (∀ a, Turn env s srv a → a.Complete s →
        ((a.dispatch env s (a.front s)).clients s).inUse = true) ↔
      ∀ f ∈ (frameFormat.cut r).1, isLogout f = false := by
  induction r using frameFormat.stream_induction generalizing srv with
  | frame f t hf ih =>
    obtain ⟨m, hm⟩ := exists_unpack_of_isFrame hf
    obtain ⟨hc, htotal, hfront⟩ := h.complete_append hf
    have hdis : srv.dispatch env s (srv.front s) = srv.processMessage env s m := by
      rw [hfront, Server.dispatch, hm]
    rw [Framing.cut_append hf, List.forall_mem_cons]
    by_cases hout : m.kind = some .logout
    · have hlast : isLogout f = true := by
        simp [isLogout, hm, hout]
      constructor
      · intro hall
        have hu := hall srv .first hc
        rw [hdis, (h.logout env hout).2.1.inUse] at hu
        cases hu
      · rintro ⟨hf', -⟩
        rw [hlast] at hf'
        cases hf'
    · have hlast : isLogout f = false := by
        simp [isLogout, hm, hout]
      have hq := quiet_processMessage srv env s hout
      rw [h.connOf] at hq
      have hold := (h.note (.processed (some c) m)).quiet hq
      have hnext : (srv.dispatch env s (srv.front s)).consume s (srv.total s) =
          (srv.processMessage env s m).consume s f.length := by
        rw [hdis, htotal]
      rw [← ih hold.consume, ← hnext]
      constructor
      · exact fun hall => ⟨hlast, fun a ha => hall a (ha.cons hc)⟩
      · rintro ⟨-, hall⟩ a ha hac
        rcases ha.head_cases with rfl | ⟨-, ha⟩
        · rw [hdis]
          exact hold.inUse
        · exact hall a ha hac
  | rest r hr =>
    rw [Framing.cut_of_not_frame hr]
    refine ⟨fun _ f hf => absurd hf List.not_mem_nil, fun _ a ha hac => ?_⟩
    rcases ha.head_cases with rfl | ⟨hc, -⟩
    · obtain ⟨f, t, hft⟩ := h.front_of_complete hac
      exact absurd hft (hr f t)
    · obtain ⟨f, t, hft⟩ := h.front_of_complete hc
      exact absurd hft (hr f t)

/-- Of an event, in terms of what is accumulated and what arrives. -/
theorem keepsOff_iff_noLogout (hinv : Inv srv) (l : Label) : KeepsOff srv l ↔ NoLogout srv l := by
  have hp := hinv.prescribe l.writes
  have hone : ∀ fd b s, (srv.prescribe l.writes).findByFd fd = some s →
      (readLoop ((srv.prescribe l.writes).clients s) b.data b.sizes).1 = false →
      ((∀ a, Turn l.env s ((srv.prescribe l.writes).filled s b) a → a.Complete s →
        ((a.dispatch l.env s (a.front s)).clients s).inUse = true) ↔
      ∀ f ∈ (frameFormat.cut ((srv.clients s).received ++ b.data)).1, isLogout f = false) := by
    intro fd b s hfind hroom
    obtain ⟨c, r, hh⟩ := hp.holds_of_findByFd hfind
    have hold := hh.filled b hroom
    rw [← hh.received] at hold
    exact hold.keepsOff_iff l.env
  have hroom : ∀ fd (b : Burst) s, (srv.prescribe l.writes).findByFd fd = some s →
      ((readLoop ((srv.prescribe l.writes).clients s) b.data b.sizes).1 = false ↔
        ((srv.clients s).received ++ b.data).length < rbufSize) := by
    intro fd b s hfind
    obtain ⟨c, r, hh⟩ := hp.holds_of_findByFd hfind
    have hfull := (readLoop_spec hh.bufOk b.data b.sizes).2.1
    rw [← Bool.not_eq_true, hfull, Nat.not_le]
    rfl
  constructor
  · intro hk fd b s hact hfind hend hlen
    have hr := (hroom fd b s hfind).mpr hlen
    exact (hone fd b s hfind hr).mp fun a ha => hk s a ⟨fd, b, hact, hfind, hr, hend, ha⟩
  · rintro hn s a ⟨fd, b, hact, hfind, hr, hend, ha⟩
    exact (hone fd b s hfind hr).mpr (hn fd b s hact hfind hend ((hroom fd b s hfind).mp hr)) a ha

/-! ## Runs -/

theorem loginOk_init (history : History) : LoginOk (Server.init history) :=
  loginOk_of_reachable (⟨[], rfl⟩ : Reachable step (Server.init history) (Server.init history))

theorem LoginOk.step (h : LoginOk srv) {l : Label} (hs : step srv l = some t) : LoginOk t := by
  have hp : LoginOk (srv.prescribe l.writes) := ⟨h.active, h.status⟩
  exact loginOk_handled.step hp (fun fd sent _ _ => hp.acceptOne l.env fd sent) hs

/-- The free slots are zero between the events of a run exactly if no event goes on behind a
release. -/
theorem cleared_iff_keepsOff {history : History} {ls : List Label}
    (hrun : run step (Server.init history) ls = some t) :
    (∀ ks a, ks <+: ls → run step (Server.init history) ks = some a → Cleared a) ↔
      Meets step KeepsOff (Server.init history) ls := by
  refine forall_prefix_iff_meets (I := fun a => (Inv a ∧ LoginOk a) ∧ Cleared a)
    (fun a h => h.2) ?_ ?_ ⟨⟨inv_init history, loginOk_init history⟩, fun _ _ => rfl⟩ hrun
  · rintro a l b hk ⟨⟨hinv, hlogin⟩, hc⟩ hs
    exact ⟨⟨hinv.step hs, hlogin.step hs⟩, hc.step hinv hlogin hk hs⟩
  · rintro a l b - hk hs
    exact not_cleared_of_not_keepsOff hk hs

theorem meets_keepsOff_iff (history : History) (ls : List Label) :
    Meets step KeepsOff (Server.init history) ls ↔ Meets step NoLogout (Server.init history) ls :=
  meets_congr (I := Inv) (fun _ _ _ h hs => h.step hs) (fun _ l h => keepsOff_iff_noLogout h l)
    (inv_init history) ls

/-- In a run of the event loop `handle_read` never touches a slot it has released, and every
slot not in use is entirely zero between two events, exactly if no wake-up completes a logout
frame. -/
theorem released_untouched_iff {history : History} {ls : List Label}
    (hrun : run step (Server.init history) ls = some t) :
    (Meets step KeepsOff (Server.init history) ls ∧
        ∀ ks a, ks <+: ls → run step (Server.init history) ks = some a → Cleared a) ↔
      Meets step NoLogout (Server.init history) ls := by
  rw [cleared_iff_keepsOff hrun, and_self, meets_keepsOff_iff]

/-- A first client and its burst: the condition is about the frames of the burst. -/
theorem meets_noLogout_oneBurst_iff (history : History) (env : Env) (b : Burst) :
    Meets step NoLogout (Server.init history) (oneBurst env b) ↔
      (b.ending = .again → b.data.length < rbufSize →
        ∀ f ∈ (frameFormat.cut b.data).1, isLogout f = false) := by
  obtain ⟨s, hs⟩ := admitted_init history env
  have hold := hs.holds
  have hinv := ((inv_init history).prescribe []).admitted hs
  have hfind := hinv.findByFd hold
  constructor
  · rintro ⟨-, hmeets⟩ hend hlen
    have h := (hmeets _ rfl).1 5 b s rfl hfind hend
    rw [hold.received] at h
    exact h hlen
  · intro h
    unfold oneBurst
    constructor
    · intro fd d i hact
      cases hact
    intro a ha
    obtain rfl := Option.some.inj ha
    refine ⟨?_, fun _ _ => trivial⟩
    intro fd d i hact hfind' hend hlen
    obtain ⟨rfl, rfl⟩ := Action.readable.inj hact
    obtain rfl := Option.some.inj (hfind.symm.trans hfind')
    rw [hold.received] at hlen ⊢
    exact h hend hlen

theorem cut_packMessage (m : Message) : frameFormat.cut (packMessage m) = ([packMessage m], []) := by
  have h := Framing.cut_append (isFrame_packMessage m) []
  rwa [List.append_nil, Framing.cut_nil] at h

/-- A client that asks for the user list leaves the free slots zero. -/
theorem released_untouched_list : ∃ t, run step (Server.init fun _ => none)
      (oneBurst ⟨0, none, ⟨fun _ => [], fun _ => true⟩⟩ ⟨packMessage listRequest, [], .again⟩) =
        some t ∧
    Meets step KeepsOff (Server.init fun _ => none)
      (oneBurst ⟨0, none, ⟨fun _ => [], fun _ => true⟩⟩ ⟨packMessage listRequest, [], .again⟩) ∧
    Cleared t := by
  obtain ⟨-, t, -, hrun, -, -⟩ := run_oneBurst (fun _ => none)
    ⟨0, none, ⟨fun _ => [], fun _ => true⟩⟩ ⟨packMessage listRequest, [], .again⟩
  obtain ⟨hkeeps, hcleared⟩ := (released_untouched_iff hrun).mpr
    ((meets_noLogout_oneBurst_iff _ _ _).mpr fun _ _ f hf => by
      rw [cut_packMessage, List.mem_singleton] at hf
      rw [hf, isLogout, unpack_pack]
      rfl)
  exact ⟨t, hrun, hkeeps, hcleared _ t List.prefix_rfl hrun⟩

/-- A client that logs out leaves a slot that is not in use and not zero, and `handle_read`
touches the slot behind its release. -/
theorem released_touched_logout : ∃ t, run step (Server.init fun _ => none)
      (oneBurst ⟨0, none, ⟨fun _ => [], fun _ => true⟩⟩ ⟨packMessage logoutRequest, [], .again⟩) =
        some t ∧
    ¬ (Meets step KeepsOff (Server.init fun _ => none)
        (oneBurst ⟨0, none, ⟨fun _ => [], fun _ => true⟩⟩ ⟨packMessage logoutRequest, [], .again⟩) ∧
      ∀ ks a, ks <+: oneBurst ⟨0, none, ⟨fun _ => [], fun _ => true⟩⟩
          ⟨packMessage logoutRequest, [], .again⟩ →
        run step (Server.init fun _ => none) ks = some a → Cleared a) := by
  obtain ⟨-, t, -, hrun, -, -⟩ := run_oneBurst (fun _ => none)
    ⟨0, none, ⟨fun _ => [], fun _ => true⟩⟩ ⟨packMessage logoutRequest, [], .again⟩
  refine ⟨t, hrun, ?_⟩
  rintro ⟨hkeeps, -⟩
  have hall := (meets_noLogout_oneBurst_iff _ _ _).mp ((meets_keepsOff_iff _ _).mp hkeeps) rfl
    (by rw [length_packMessage]; decide) (packMessage logoutRequest) (by simp [cut_packMessage])
  rw [isLogout, unpack_pack] at hall
  cases hall

end ChatSystem.Epoll
