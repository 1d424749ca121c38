import ChatSystem.Epoll.Output

/-!
# The slot table of the epoll server

The conditions on the client table that hold whenever the event loop waits: logged-in slots
are in use, slots in use have their own descriptors, the buffers are inside their bounds, and
the accumulated bytes are the front of one frame at most.
-/

namespace ChatSystem.Epoll

open Reassembly Transition

/-- The accumulation buffer is neither full nor holds a complete or refused frame. -/
structure Client.Waiting (c : Client) : Prop where
  nonneg : 0 ≤ c.rbufLen
  lt : c.rbufLen < rbufSize
  short : c.rbufLen < headerSize ∨ (announcedLen c.rbuf).toNat ≤ maxPayloadLen ∧
    c.rbufLen < headerSize + (announcedLen c.rbuf).toNat

/-- The table of slots at the top of the event loop. -/
structure SlotTable (srv : Server) : Prop where
  active : ∀ s, (srv.clients s).active = true → (srv.clients s).inUse = true
  status : ∀ s, (srv.clients s).status ∈ [statusAvailable, statusBusy, statusAway]
  head_le : ∀ s, (srv.clients s).sbuf.head ≤ (srv.clients s).sbuf.tail
  tail_le : ∀ s, (srv.clients s).sbuf.tail ≤ sbufSize
  waiting : ∀ s, (srv.clients s).inUse = true → (srv.clients s).Waiting
  fd_inj : ∀ i j, (srv.clients i).inUse = true → (srv.clients j).inUse = true →
    (srv.clients i).fd = (srv.clients j).fd → i = j

variable {srv t : Server}

/-! ## Login data -/

/-- Logged-in slots are in use, and every status is one of the three. -/
structure LoginOk (srv : Server) : Prop where
  active : ∀ s, (srv.clients s).active = true → (srv.clients s).inUse = true
  status : ∀ s, (srv.clients s).status ∈ [statusAvailable, statusBusy, statusAway]

theorem scanStatus_mem (payload : List UInt8) :
    scanStatus payload ∈ [statusAvailable, statusBusy, statusAway] := by
  unfold scanStatus
  split
  · simp
  · split <;> simp

/-- Login data are kept if each slot keeps its entry and its use, but for one slot that is in
use or ends up inactive. -/
theorem LoginOk.update (h : LoginOk srv) {s : Slot} {c : Client}
    (hclients : t.clients = Function.update srv.clients s c)
    (ha : c.active = true → c.inUse = true)
    (hs : c.status ∈ [statusAvailable, statusBusy, statusAway]) : LoginOk t := by
  constructor
  · intro i hi
    rw [hclients] at hi ⊢
    by_cases his : i = s
    · subst his
      rw [Function.update_self] at hi ⊢
      exact ha hi
    · rw [Function.update_of_ne his] at hi ⊢
      exact h.active i hi
  · intro i
    rw [hclients]
    by_cases his : i = s
    · subst his
      rw [Function.update_self]
      exact hs
    · rw [Function.update_of_ne his]
      exact h.status i

theorem LoginOk.output (h : LoginOk srv) (ho : OutputOnly srv t) : LoginOk t := by
  constructor
  · intro i hi
    rw [ho.inUse]
    rw [ho.entry] at hi
    exact h.active i hi
  · intro i
    rw [ho.entry]
    exact h.status i

theorem loginOk_handled : Handled LoginOk where
  note _ h := ⟨h.active, h.status⟩
  input := by
    intro a s c hc h
    refine h.update rfl ?_ ?_
    · rw [hc.entry, hc.inUse]
      exact h.active s
    · rw [hc.entry]
      exact h.status s
  save _ h := ⟨h.active, h.status⟩
  send s m h := h.output (OutputOnly.slotSend _ s m)
  login hu _ _ h := h.update rfl (fun _ => hu) (by simp [Entry.login, Entry.activate])
  clear s h := h.update rfl (fun ha => by cases ha) (h.status s)
  status s payload h := h.update rfl (h.active s) (scanStatus_mem payload)
  release _ _ h := h.update rfl (fun ha => by cases ha) (by simp [Client.zero, Entry.zero])
  flush := by
    intro a b s fd stop _ hflush h
    have hb : LoginOk b := by
      have := h.output (outputOnly_sbFlush a s fd)
      rwa [hflush] at this
    split
    · exact ⟨hb.active, hb.status⟩
    · exact hb

theorem LoginOk.acceptOne (h : LoginOk srv) (env : Env) (fd sent : Nat) :
    LoginOk (srv.acceptOne env fd sent) := by
  unfold Server.acceptOne
  split
  · exact ⟨h.active, h.status⟩
  · exact h.update rfl (fun _ => rfl) (by simp [Client.zero, Entry.zero])

theorem loginOk_of_reachable {history : History}
    (h : Reachable step (Server.init history) srv) : LoginOk srv := by
  refine h.invariant ⟨fun _ ha => ?_, fun _ => ?_⟩ fun a l b ha hs => ?_
  · cases ha
  · simp [Server.init, Client.zero, Entry.zero]
  · have hp : LoginOk (a.prescribe l.writes) := ⟨ha.active, ha.status⟩
    exact loginOk_handled.step hp (fun fd sent _ _ => hp.acceptOne l.env fd sent) hs

/-! ## Accumulated bytes -/

/-- Every slot in use has received the front of one frame at most. -/
def InputWaits (srv : Server) : Prop :=
  ∀ s, (srv.clients s).inUse = true → ∃ fd c r, Holds srv s fd c r ∧
    frameFormat.front r = .short ∧ r.length < rbufSize

theorem Holds.waiting {s : Slot} {fd c : Nat} {r : List UInt8} (h : Holds srv s fd c r)
    (hr : frameFormat.front r = .short) (hlt : r.length < rbufSize) : (srv.clients s).Waiting := by
  have hlen := h.rbufLen_eq
  refine ⟨by omega, by omega, ?_⟩
  rw [front_eq] at hr
  split at hr
  · left
    omega
  · next hh =>
    right
    rw [h.announcedLen_rbuf (Nat.not_lt.mp hh)]
    split at hr
    · cases hr
    · next hp =>
      split at hr
      · exact ⟨Nat.not_lt.mp hp, by omega⟩
      · cases hr

/-- One event leaves at most the front of a frame in every buffer. -/
theorem InputWaits.step (h : InputWaits srv) (hinv : Inv srv) {l : Label}
    (hs : step srv l = some t) : InputWaits t := by
  rcases step_cases hinv hs with hq | ⟨s, fd, c, r, data, ending, hh, hf⟩ | ⟨s, fd, ha⟩ | hr
  · intro i hu
    obtain ⟨fd, c, r, hh, hr⟩ := h i (hq.inUse i ▸ hu)
    exact ⟨fd, c, r, hh.quiet hq, hr⟩
  · intro i hu
    by_cases his : i = s
    · subst his
      have hout := hf.outcome
      cases hleft : (receiver.feed r ⟨data, ending.isOver⟩).2 with
      | none =>
        rw [hleft] at hout
        exact absurd hu (by rw [(show Freed t i fd from hout).inUse]; exact Bool.false_ne_true)
      | some r' =>
        rw [hleft] at hout
        exact ⟨fd, c, r', hout, leftover_of_feed hleft⟩
    · obtain ⟨fd', c', r', hh', hr'⟩ := h i (hf.elsewhere.inUse i his ▸ hu)
      exact ⟨fd', c', r', (hf.elsewhere.holds his (hinv.fd_ne hh hh' his)).mp hh', hr'⟩
  · intro i hu
    by_cases his : i = s
    · subst his
      exact ⟨fd, _, [], ha.holds, Framing.front_eq_short_of_lt frameFormat.header_pos, by decide⟩
    · rw [ha.elsewhere i his] at hu
      obtain ⟨d, c, r, hh, hr⟩ := h i hu
      have hd : d ≠ fd := by
        rintro rfl
        have hconn := hh.conn
        rw [ha.fresh] at hconn
        cases hconn
      refine ⟨d, c, r, ?_, hr⟩
      rw [← ha.elsewhere i his] at hu
      exact ⟨hu, by rw [ha.elsewhere i his]; exact hh.fd_eq,
        by rw [ha.conn, Function.update_of_ne hd]; exact hh.conn,
        by rw [ha.elsewhere i his]; exact hh.bufOk, by rw [ha.elsewhere i his]; exact hh.received⟩
  · intro i hu
    rw [hr.clients] at hu
    obtain ⟨d, c, r, hh, hw⟩ := h i hu
    exact ⟨d, c, r, ⟨by rw [hr.clients]; exact hh.inUse, by rw [hr.clients]; exact hh.fd_eq,
      by rw [hr.conn]; exact hh.conn, by rw [hr.clients]; exact hh.bufOk,
      by rw [hr.clients]; exact hh.received⟩, hw⟩

theorem inputWaits_of_reachable {history : History}
    (h : Reachable step (Server.init history) srv) : InputWaits srv := by
  refine (h.invariant (I := fun srv => Inv srv ∧ InputWaits srv) ⟨inv_init history, ?_⟩
    fun a l b ha hs => ⟨ha.1.step hs, ha.2.step ha.1 hs⟩).2
  intro s hu
  cases hu

/-! ## Output -/

/-- Without further calls, the events alone. -/
theorem reachable_opStep {history : History} (h : Reachable step (Server.init history) srv) :
    Reachable opStep (Server.init history) srv := by
  refine h.invariant (I := Reachable opStep (Server.init history)) (Reachable.refl _) ?_
  intro a l b ha hs
  exact ha.snoc (l := .event l) hs

/-- In every run of the event loop the slot table is in order between two events, and
`process_message` is only called on slots in use. -/
theorem slot_table {history : History} (h : Reachable step (Server.init history) srv) :
    SlotTable srv ∧
      ∀ l a s m, Called srv l a s m → (a.clients s).inUse = true := by
  have hlogin := loginOk_of_reachable h
  have hout := outputOk_of_reachable (reachable_opStep h)
  refine ⟨⟨hlogin.active, hlogin.status, fun s => (hout.buf s).head_le,
    fun s => (hout.buf s).tail_le, fun s hu => ?_, (inv_of_reachable h).fd_inj⟩,
    fun l a s m hcall => hcall.inUse⟩
  obtain ⟨fd, c, r, hh, hr, hlt⟩ := inputWaits_of_reachable h s hu
  exact hh.waiting hr hlt

/-- Two connections accepted one after the other. -/
def twoConnects : List Label :=
  [⟨⟨0, none, ⟨fun _ => [], fun _ => true⟩⟩, [], .accept 5 0⟩,
    ⟨⟨0, none, ⟨fun _ => [], fun _ => true⟩⟩, [], .accept 6 0⟩]

/-- They have their own slots and descriptors. -/
theorem slot_table_twoConnects : ∃ srv, run step (Server.init fun _ => none) twoConnects =
    some srv ∧ SlotTable srv := by
  have hrun : run step (Server.init fun _ => none) twoConnects = some _ := rfl
  exact ⟨_, hrun, (slot_table ⟨twoConnects, hrun⟩).1⟩

end ChatSystem.Epoll
