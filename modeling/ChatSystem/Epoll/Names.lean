import ChatSystem.Epoll.Calls

/-!
# Names in the epoll server

Only `process_message` and the filling and releasing of slots write login data,
so the names stay valid and distinct in every run of the event loop.
-/

namespace ChatSystem.Epoll

open Transition

variable {srv t : Server} {env : Env}

theorem Server.table_setClient (srv : Server) (s : Slot) (c : Client) :
    (srv.setClient s c).table = Function.update srv.table s c.toEntry := by
  funext i
  by_cases hi : i = s
  · subst hi
    simp only [table, setClient, Function.update_self]
  · simp only [table, setClient, Function.update_of_ne hi]

/-- Overwriting a slot with the same login data. -/
theorem Server.table_setClient_eq {s : Slot} {c : Client}
    (h : c.toEntry = (srv.clients s).toEntry) : (srv.setClient s c).table = srv.table := by
  rw [table_setClient, h]
  exact Function.update_eq_self s srv.table

theorem namesOk_handled : Handled fun srv => NamesOk srv.table where
  note _ h := h
  input hc h := (Server.table_setClient_eq hc.entry).symm ▸ h
  save _ h := h
  send s m h := (Server.table_slotSend _ s m).symm ▸ h
  login := by
    intro a s payload u p _ hscan hfree h
    rw [Server.table_setEntry]
    exact h.update (h.admissible_login (validName_of_scanLogin hscan) hfree s)
  clear := by
    intro a s h
    rw [Server.table_setEntry]
    exact h.update (admissible_of_inactive (Entry.terminated_zero_name _) rfl)
  status := by
    intro a s payload h
    rw [Server.table_setEntry]
    exact h.update ((h.admissible s).setStatus _)
  release := by
    intro a s _ h
    rw [Server.table_release]
    exact h.update (admissible_of_inactive rfl rfl)
  flush := by
    intro a b s fd stop _ hflush h
    have hb : b.table = a.table := by
      have := (outputOnly_sbFlush a s fd).table
      rwa [hflush] at this
    split <;> exact hb.symm ▸ h

theorem namesOk_acceptOne (h : NamesOk srv.table) (env : Env) (fd sent : Nat) :
    NamesOk (srv.acceptOne env fd sent).table := by
  unfold Server.acceptOne
  split
  · exact h
  · next s hs =>
    rw [Server.table_note, Server.table_setClient]
    exact h.update (admissible_of_inactive rfl rfl)

/-- One event keeps the names valid and distinct. -/
theorem namesOk_step (h : NamesOk srv.table) {l : Label} (hs : step srv l = some t) :
    NamesOk t.table :=
  namesOk_handled.step (show NamesOk (srv.prescribe l.writes).table from h)
    (fun fd sent _ _ => @namesOk_acceptOne (srv.prescribe l.writes) h l.env fd sent) hs

/-- In every run of the event loop the names of the table are valid and distinct. -/
theorem namesOk_of_reachable {history : History}
    (h : Reachable step (Server.init history) srv) : NamesOk srv.table :=
  h.invariant (I := fun srv => NamesOk srv.table) namesOk_zero
    fun _ _ _ hi hs => namesOk_step hi hs

end ChatSystem.Epoll
