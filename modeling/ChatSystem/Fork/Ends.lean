import ChatSystem.Fork.Descriptors
import ChatSystem.Fork.Traffic

/-!
# The connections of the slots

`pipe_send` to a slot writes to the pipe the slot was filled with last. No two slots lead to
one connection, and the slot that is read for a connection leads to it.
-/

namespace ChatSystem.Fork

open Bytes Tasks Transition

/-- The connection `pipe_send` to a slot writes to. -/
def Shared.writeEnd (sh : Shared) (s : Slot) : Option Nat :=
  match sh.fd (sh.clients s).toChild.2 with
  | some (.toWrite c) => some c
  | _ => none

/-- Slots lead to different connections, and a slot with a pid to the one it is linked to. -/
structure Distinct (sh : Shared) : Prop where
  inj : ∀ i j c, sh.writeEnd i = some c → sh.writeEnd j = some c → i = j
  lt : ∀ j c, sh.writeEnd j = some c → c < sh.accepted
  same : ∀ s, (sh.clients s).pid ≠ 0 → sh.writeEnd s = sh.connOf s

/-- What the parent knows of the connection it is busy with. -/
def Leading : Act → Shared → Prop
  | .findFreeSlot _ c _, sh => ∀ j, sh.writeEnd j ≠ some c
  | .pipes _ _ c, sh => ∀ j, sh.writeEnd j ≠ some c
  | .recv s fd, sh => sh.writeEnd s = sh.readEnd fd
  | .route s c _, sh => sh.writeEnd s = some c
  | _, _ => True

variable {t : Tid} {a b : Act} {i : Input} {sh sh' : Shared} {out : Outcome Empty Tid Act Shared}
  {s : Slot} {c : Nat} {m : Message}

theorem writeEnd_eq_some :
    sh.writeEnd s = some c ↔ sh.fd (sh.clients s).toChild.2 = some (.toWrite c) := by
  unfold Shared.writeEnd
  split
  · next d hd =>
    rw [hd]
    simp
  · next hne =>
    constructor
    · intro h
      cases h
    · intro h
      exact absurd h (hne c)

/-- `pipe_send` writes to the pipe of the slot's connection. -/
theorem sending_eq (sh : Shared) (s : Slot) (m : Message) : sh.sending s m =
    match sh.writeEnd s with
    | some c => if sh.closed c then [] else [(.toChild c, m)]
    | none => [] := by
  unfold Shared.sending Shared.writeEnd
  cases sh.fd (sh.clients s).toChild.2 with
  | none => rfl
  | some r => cases r <;> rfl

/-! ## Changes -/

/-- A slot that keeps its descriptors keeps its connection. -/
theorem writeEnd_stays (hW : Writable sh) (hc : Change sh a sh') (hpre : Setup a sh) {j : Slot}
    (hj : (sh'.clients j).toChild = (sh.clients j).toChild) : sh'.writeEnd j = sh.writeEnd j := by
  obtain ⟨r, hr, hw⟩ := hW j
  have hlasting : r.lasting = true := by
    cases r with
    | own | toWrite => rfl
    | _ => cases hw
  rw [Shared.writeEnd, Shared.writeEnd, hj, hr, fd_stays hc hpre hr hlasting]

theorem writeEnd_of_change (hW : Writable sh) (hc : Change sh a sh') (hpre : Setup a sh)
    (hp : ∀ s fd c, a ≠ .pipes s fd c) (j : Slot) : sh'.writeEnd j = sh.writeEnd j :=
  writeEnd_stays hW hc hpre (pairs_of_change hc hp j).1

/-- `pipe` leads a slot to the new connection, or fails. -/
theorem writeEnd_pipes {fd : Nat} (hW : Writable sh) (hc : Change sh (.pipes s fd c) sh')
    (hpre : Setup (.pipes s fd c) sh) : (∀ j, sh'.writeEnd j = sh.writeEnd j) ∨
      sh'.writeEnd s = some c ∧ ∀ j, j ≠ s → sh'.writeEnd j = sh.writeEnd j := by
  cases hc with
  | quiet h =>
    refine Or.inl fun j => ?_
    rw [Shared.writeEnd, Shared.writeEnd, h.clients, h.fd]
  | @openTo _ _ _ p hp =>
    refine Or.inr ⟨?_, fun j hj => writeEnd_stays hW (.openTo hp) hpre ?_⟩
    · rw [writeEnd_eq_some, toChild_openTo]
      exact Function.update_self ..
    · rw [clients_openTo_of_ne sh hj]
  | @openBoth _ _ _ p q hp hq =>
    refine Or.inr ⟨?_, fun j hj => writeEnd_stays hW (.openBoth hp hq) hpre ?_⟩
    · rw [writeEnd_eq_some, (pairs_openFrom _ s c q).1, toChild_openTo]
      exact fd_openFrom hq (Function.update_self ..)
    · rw [clients_openFrom_of_ne _ hj, clients_openTo_of_ne sh hj]

theorem accepted_of_change (hc : Change sh a sh') : sh.accepted ≤ sh'.accepted := by
  cases hc with
  | quiet h => exact h.accepted.ge
  | accept => exact Nat.le_succ _
  | reap hpid => exact (async_reap hpid).accepted.ge
  | _ => exact Nat.le_refl _

/-- The read end of a slot with a pid stays open. -/
theorem connOf_stays (hL : Linked sh) (hc : Change sh a sh') (hpre : Setup a sh)
    (hs : (sh.clients s).pid ≠ 0) (hfrom : (sh'.clients s).fromChild = (sh.clients s).fromChild) :
    sh'.connOf s = sh.connOf s := by
  obtain ⟨c, hconn, -⟩ := hL.holder s hs
  rw [hconn, connOf_eq_some, hfrom]
  exact fd_stays hc hpre (connOf_eq_some.mp hconn) rfl

theorem Distinct.keeps (hD : Distinct sh) (hL : Linked sh) (hW : Writable sh)
    (hc : Change sh a sh') (hpre : Setup a sh) (hw : Wired a sh) (hlead : Leading a sh) :
    Distinct sh' := by
  have hle := accepted_of_change hc
  have hsame : ∀ s, (sh'.clients s).pid ≠ 0 → sh'.writeEnd s = sh'.connOf s := by
    intro s hs
    obtain ⟨hto, hfrom, hpid⟩ := used_of_change hc hpre hs
    rcases hpid with hpid | ⟨k, fd, rfl, rfl⟩
    · rw [writeEnd_stays hW hc hpre hto, connOf_stays hL hc hpre hpid hfrom]
      exact hD.same s hpid
    · have hread : sh'.connOf k.slot = some k.conn := by
        rw [connOf_eq_some, hfrom]
        exact fd_stays hc hpre hpre.2.2.1.fromRead rfl
      rw [hread, writeEnd_stays hW hc hpre hto, writeEnd_eq_some]
      exact hw
  have hold : (∀ j, sh'.writeEnd j = sh.writeEnd j) → Distinct sh' := by
    intro hend
    refine ⟨fun i j c hi hj => ?_, fun j c hj => ?_, hsame⟩
    · rw [hend] at hi hj
      exact hD.inj i j c hi hj
    · rw [hend] at hj
      exact (hD.lt j c hj).trans_le hle
  by_cases hp : ∃ s fd c, a = .pipes s fd c
  · obtain ⟨s, fd, c, rfl⟩ := hp
    rcases writeEnd_pipes hW hc hpre with hend | ⟨hself, hother⟩
    · exact hold hend
    · -- the new connection is no slot's yet
      have hnew : ∀ j, sh'.writeEnd j = some c → j = s := by
        intro j hj
        by_contra hne
        rw [hother j hne] at hj
        exact hlead j hj
      have hback : ∀ j d, d ≠ c → sh'.writeEnd j = some d → sh.writeEnd j = some d := by
        intro j d hd hj
        have hne : j ≠ s := by
          rintro rfl
          rw [hself] at hj
          exact hd (Option.some.inj hj).symm
        rw [← hother j hne]
        exact hj
      refine ⟨fun i j d hi hj => ?_, fun j d hj => ?_, hsame⟩
      · by_cases hd : d = c
        · subst hd
          exact (hnew i hi).trans (hnew j hj).symm
        · exact hD.inj i j d (hback i d hd hi) (hback j d hd hj)
      · by_cases hd : d = c
        · subst hd
          exact hpre.1.lt.trans_le hle
        · exact (hD.lt j d (hback j d hd hj)).trans_le hle
  · exact hold (writeEnd_of_change hW hc hpre fun s fd c he => hp ⟨s, fd, c, he⟩)

/-! ## The outline -/

theorem Async.toChild (h : Async sh sh') (s : Slot) :
    (sh'.clients s).toChild = (sh.clients s).toChild := by
  rcases h.client s with he | he <;> rw [he]

theorem Async.writeEnd (h : Async sh sh') (s : Slot) : sh'.writeEnd s = sh.writeEnd s := by
  rw [Shared.writeEnd, Shared.writeEnd, h.fd, h.toChild]

theorem Async.leading (h : Async sh sh') (hb : Leading b sh) : Leading b sh' := by
  cases b with
  | findFreeSlot fd c slots => exact fun j => by rw [h.writeEnd]; exact hb j
  | pipes s fd c => exact fun j => by rw [h.writeEnd]; exact hb j
  | recv s fd =>
    change sh'.writeEnd s = sh'.readEnd fd
    rw [h.writeEnd, Shared.readEnd, h.fd]
    exact hb
  | route s c m => exact (h.writeEnd s).trans hb
  | _ => trivial

theorem leading_of_other (b : Act) (s : Shared) (hb : b.owner ≠ .parent) : Leading b s := by
  cases b with
  | bridge | fromClient | farewell | forward | fromParent | exit | reap => trivial
  | _ => exact absurd rfl hb

theorem leading_route (sh sh' : Shared) (s : Slot) (m : Message) :
    ∀ b ∈ sh.route s m, Leading b sh' := by
  unfold Shared.route
  split
  · unfold Shared.login
    split <;> simp [Leading]
  · simp [Shared.logout, Leading]
  · unfold Shared.broadcast
    split <;> simp [Leading]
  · unfold Shared.priv
    split <;> simp [Leading]
  all_goals simp [Leading]

/-- A connection that is accepted is no slot's, and the one that is read is its slot's. -/
theorem leading_next (h : exec t a i sh = some out) (hD : Distinct sh) (hW : Writable sh)
    (hlead : Leading a sh) : Outlined Leading out.shared out.next := by
  cases a <;> simp only [exec] at h
  case accept =>
    split at h
    · obtain rfl := goOn_inj h
      exact outlined_nil _
    · split at h
      · next fd _ hfree =>
        obtain rfl := goOn_inj h
        refine outlined_singleton fun j hj => ?_
        have hstays := writeEnd_stays hW (.accept hfree) trivial (j := j) rfl
        exact absurd (hD.lt j _ (hstays.symm.trans hj)) (Nat.lt_irrefl _)
      · cases h
  case findFreeSlot fd c slots =>
    split at h
    · obtain rfl := goOn_inj h
      exact outlined_singleton trivial
    · split at h <;> obtain rfl := goOn_inj h
      · exact outlined_singleton hlead
      · exact outlined_singleton hlead
  case check slots rfds =>
    split at h
    · obtain rfl := goOn_inj h
      exact outlined_singleton trivial
    · split at h
      · next hs =>
        obtain rfl := goOn_inj h
        exact outlined_cons (hD.same _ hs.1.ne') (by simp [Leading])
      · obtain rfl := goOn_inj h
        exact outlined_singleton trivial
  case recv s fd =>
    split at h
    · cases h
    · next c hc =>
      split at h
      · cases h
      · obtain rfl := goOn_inj h
        exact outlined_singleton (hlead.trans hc)
      · obtain rfl := goOn_inj h
        exact outlined_singleton trivial
  case route s c m =>
    obtain rfl := goOn_inj h
    exact outlined_of_trivial fun b hb s' => leading_route sh s' s m b hb
  all_goals
    repeat' split at h
    all_goals cases h
    all_goals exact outlined_of_trivial (by simp [Leading, mainLoop])

/-- The parent knows the connections of the slots, and the other processes respect it. -/
theorem leadings : Outline (fun a sh => (Setup a sh ∧ Wired a sh) ∧ Leading a sh) (fun _ _ => True)
    (fun a b => a.owner ≠ b.owner) exec fun sh => Linked sh ∧ Writable sh ∧ Distinct sh where
  keeps := by
    rintro t a i sh out h ⟨hL, hW, hD⟩ ⟨⟨hset, hw⟩, hlead⟩ -
    have hc := change_of_exec h
    exact ⟨hL.keeps hc hset, hW.keeps hc hset, hD.keeps hL hW hc hset hw hlead⟩
  next := by
    rintro t a i sh out h ⟨hL, hW, hD⟩ ⟨⟨hset, hw⟩, hlead⟩ -
    exact outlined_and.mpr ⟨outlined_and.mpr ⟨setup_next h hL hset, wired_next h hw⟩,
      leading_next h hD hW hlead⟩
  spawn := by
    intro t a i sh out t' p h hp b hb s
    obtain ⟨s', fd, c, pid, -, -, rfl, -⟩ := spawn_eq_some h hp
    have hset := setup_bridge _ b hb s
    obtain rfl := eq_of_mem_code hb
    exact ⟨⟨hset, trivial⟩, trivial⟩
  frame h _ _ _ hb hapart :=
    ⟨⟨frame_of_async setup_of_other Async.setup h hb.1.1 hapart,
      frame_of_async wired_of_other Async.wired h hb.1.2 hapart⟩,
      frame_of_async leading_of_other Async.leading h hb.2 hapart⟩

variable {st st' : State} {l : Tid × Input} {history : History}

/-- The acts ahead and the connections of the slots. -/
structure InEnds (st : State) : Prop where
  owned : Owned st
  linked : Linked st.shared
  writable : Writable st.shared
  distinct : Distinct st.shared
  outlined : ∀ t, Outlined (fun a sh => (Setup a sh ∧ Wired a sh) ∧ Leading a sh) st.shared
    (st.todo t)

theorem inEnds_init (history : History) : InEnds (init history) := by
  have h := inLinks_init history
  refine ⟨h.owned, h.linked, fun s => ⟨.own, rfl, trivial⟩, ⟨fun i j c hi => ?_, fun j c hj => ?_,
    fun s hs => absurd rfl hs⟩, fun t => ?_⟩
  · cases hi
  · cases hj
  · cases t with
    | parent => exact outlined_singleton ⟨⟨trivial, trivial⟩, trivial⟩
    | sigchld => exact outlined_singleton ⟨⟨trivial, trivial⟩, trivial⟩
    | child k => exact outlined_nil _

theorem InEnds.step (h : InEnds st) (hs : Fork.step st l = some st') : InEnds st' := by
  obtain ⟨⟨hL, hW, hD⟩, hout⟩ := leadings.step ⟨h.linked, h.writable, h.distinct⟩ h.outlined
    (fun hne ha hb => h.owned.apart hne ha hb) (fun _ _ _ => trivial) hs
  exact ⟨h.owned.step hs, hL, hW, hD, hout⟩

end ChatSystem.Fork
