import ChatSystem.Epoll.Names
import ChatSystem.Fork.Slots
import ChatSystem.Server.UserList
import ChatSystem.Thread.Names

/-!
# The tables of the chat servers

What the writes to single entries keep holds of every entry of every table a chat server
can reach.
-/

namespace ChatSystem

open Bytes Transition

/-- A table of one of the chat servers: between two events of the event loop, in front of
a message, or between any two steps of the threads or processes. -/
inductive Served : (Slot → Entry) → Prop
  | epoll {history : History} {srv : Epoll.Server}
    (h : Reachable Epoll.step (Epoll.Server.init history) srv) : Served srv.table
  | called {history : History} {srv a : Epoll.Server} {l : Epoll.Label} {s : Slot} {m : Message}
    (h : Reachable Epoll.step (Epoll.Server.init history) srv) (hc : Epoll.Called srv l a s m) :
    Served a.table
  | thread {history : History} {st : Thread.State}
    (h : Reachable Thread.step (Thread.init history) st) : Served st.shared.table
  | fork {history : History} {st : Fork.State}
    (h : Reachable Fork.step (Fork.init history) st) : Served st.shared.table

/-- Every entry of a table has a property. -/
def Every (P : Entry → Prop) (table : Slot → Entry) : Prop := ∀ s, P (table s)

namespace EntryRules

variable {P : Entry → Prop} (hP : EntryRules P) {table : Slot → Entry}

theorem every_update (h : Every P table) {s : Slot} {e : Entry} (he : P e) :
    Every P (Function.update table s e) :=
  (Function.forall_update_iff table fun _ => P).mpr ⟨he, fun j _ => h j⟩

include hP

theorem login {e : Entry} (h : P e) (u : List UInt8) : P (e.login u) :=
  hP.activate (hP.setName u h)

/-! ## The epoll server -/

theorem handled : Epoll.Handled fun srv => Every P srv.table where
  note _ h := h
  input hc h := (Epoll.Server.table_setClient_eq hc.entry).symm ▸ h
  save _ h := h
  send s m h := (Epoll.Server.table_slotSend _ s m).symm ▸ h
  login := by
    intro a s payload u p _ _ _ h
    rw [Epoll.Server.table_setEntry]
    exact every_update h (hP.login (h s) u)
  clear := by
    intro a s h
    rw [Epoll.Server.table_setEntry]
    exact every_update h (hP.clear (h s))
  status := by
    intro a s payload h
    rw [Epoll.Server.table_setEntry]
    exact every_update h (hP.setStatus payload (h s))
  release := by
    intro a s _ h
    rw [Epoll.Server.table_release]
    exact every_update h hP.zero
  flush := by
    intro a b s fd stop _ hflush h
    have hb : b.table = a.table := by
      have hout := (Epoll.outputOnly_sbFlush a s fd).table
      rwa [hflush] at hout
    split <;> exact hb.symm ▸ h

theorem every_acceptOne {srv : Epoll.Server} (h : Every P srv.table) (env : Env) (fd sent : Nat) :
    Every P (srv.acceptOne env fd sent).table := by
  unfold Epoll.Server.acceptOne
  split
  · exact h
  · rw [Epoll.Server.table_note, Epoll.Server.table_setClient]
    exact every_update h hP.zero

theorem every_epoll {history : History} {srv : Epoll.Server}
    (h : Reachable Epoll.step (Epoll.Server.init history) srv) : Every P srv.table := by
  apply h.invariant (I := fun srv => Every P srv.table)
  · exact fun _ => hP.zero
  · intro srv l t hi hs
    have hpre : Every P (srv.prescribe l.writes).table := hi
    exact hP.handled.step hpre (fun fd sent _ _ => hP.every_acceptOne hpre l.env fd sent) hs

/-! ## The thread server -/

theorem every_thread_exec {t : Thread.Tid} {a : Thread.Act} {i : Thread.Input}
    {sh : Thread.Shared} {out : Tasks.Outcome Thread.Lock Thread.Tid Thread.Act Thread.Shared}
    (h : Thread.exec t a i sh = some out) (hall : Every P sh.table) :
    Every P out.shared.table := by
  have hchange := Thread.change_of_exec h
  generalize hsh : out.shared = sh' at hchange
  cases hchange with
  | same => exact hall
  | accept => exact hall
  | start => exact hall
  | write => exact hall
  | saveHistory => exact hall
  | closeFd fd => exact (Thread.table_close sh t fd).symm ▸ hall
  | closeSocket s => exact (Thread.table_close sh t _).symm ▸ hall
  | abandon s =>
    rw [Thread.Shared.abandon, Thread.table_setClient]
    exact every_update hall (hall s)
  | @fill s =>
    rw [Thread.Shared.fill, Thread.table_setClient]
    exact every_update hall (hP.setStatus [] (hP.clear (hall s)))
  | storeLogin s u =>
    rw [Thread.table_note, Thread.Shared.setEntry, Thread.table_setClient]
    exact every_update hall (hP.login (hall s) u)
  | clear s =>
    rw [Thread.Shared.setEntry, Thread.table_setClient]
    exact every_update hall (hP.clear (hall s))
  | setStatus s m =>
    rw [← hsh]
    obtain rfl := Thread.goOn_inj h
    rw [Thread.Shared.setEntry, Thread.table_setClient]
    exact every_update hall (hP.setStatus _ (hall s))
  | cleanup s =>
    rw [Thread.Shared.release, Thread.table_setClient]
    exact every_update hall (hP.clear (hall s))

theorem every_thread {history : History} {st : Thread.State}
    (h : Reachable Thread.step (Thread.init history) st) : Every P st.shared.table := by
  apply h.invariant (I := fun st => Every P st.shared.table)
  · exact fun _ => hP.zero
  · intro st l st' hi hs
    exact Tasks.step_shared (P := fun sh => Every P sh.table)
      (fun _ _ _ _ _ he hall => hP.every_thread_exec he hall) hs hi

/-! ## The fork server -/

omit hP in
theorem every_fork_openTo {sh : Fork.Shared} (h : Every P sh.table) (s : Slot) (c : Nat)
    (p : Nat × Nat) : Every P (sh.openTo s c p).table := by
  rw [Fork.Shared.openTo, Fork.table_setClient]
  exact every_update h (h s)

theorem every_fork_release {sh : Fork.Shared} (h : Every P sh.table) (s : Slot) :
    Every P (sh.release s).table := by
  change Every P (Fork.Shared.table (sh.setClient s _))
  rw [Fork.table_setClient]
  exact every_update h (hP.clear (h s))

theorem every_fork_exec {t : Fork.Tid} {a : Fork.Act} {i : Fork.Input}
    {sh : Fork.Shared} {out : Tasks.Outcome Empty Fork.Tid Fork.Act Fork.Shared}
    (h : Fork.exec t a i sh = some out) (hall : Every P sh.table) :
    Every P out.shared.table := by
  have hchange := Fork.change_of_exec h
  generalize hsh : out.shared = sh' at hchange
  cases hchange with
  | quiet hq =>
    have htable : sh'.table = sh.table := by
      ext1 j
      rw [Fork.Shared.table, hq.clients]
      rfl
    rw [htable]
    exact hall
  | accept => exact hall
  | start => exact hall
  | closeEnds => exact hall
  | closeFd => exact hall
  | recv => exact hall
  | route => exact hall
  | forward => exact hall
  | exit => exact hall
  | @openTo s fd c p => exact every_fork_openTo hall s c p
  | @openBoth s fd c p q =>
    have hto := every_fork_openTo hall s c p
    rw [Fork.Shared.openFrom, Fork.table_setClient]
    exact every_update hto (hto s)
  | storePid k fd =>
    rw [Fork.Shared.storePid, Fork.table_setClient]
    exact every_update hall (hall k.slot)
  | drop s => exact hP.every_fork_release hall s
  | reap =>
    unfold Fork.Shared.reap
    simp only
    split
    · exact hall
    · next s _ =>
      have hall' : Every P { sh with proc := _ }.table := hall
      exact hP.every_fork_release hall' s
  | storeName s u =>
    rw [Fork.Shared.setEntry, Fork.table_setClient]
    exact every_update hall (hP.setName u (hall s))
  | activate s u =>
    rw [Fork.Shared.setEntry, Fork.table_setClient]
    exact every_update hall (hP.activate (hall s))
  | clear s =>
    rw [Fork.Shared.setEntry, Fork.table_setClient]
    exact every_update hall (hP.clear (hall s))
  | setStatus s m =>
    rw [← hsh]
    obtain rfl := Fork.goOn_inj h
    rw [Fork.Shared.setEntry, Fork.table_setClient]
    exact every_update hall (hP.setStatus _ (hall s))

theorem every_fork {history : History} {st : Fork.State}
    (h : Reachable Fork.step (Fork.init history) st) : Every P st.shared.table := by
  apply h.invariant (I := fun st => Every P st.shared.table)
  · exact fun _ => hP.zero
  · intro st l st' hi hs
    exact Tasks.step_shared (P := fun sh => Every P sh.table)
      (fun _ _ _ _ _ he hall => hP.every_fork_exec he hall) hs hi

/-! ## All of them -/

/-- Every entry of every served table has the property. -/
theorem served (h : Served table) : Every P table := by
  cases h with
  | epoll h => exact hP.every_epoll h
  | @called history srv a l s m h hc =>
    have hall : Every P srv.table := hP.every_epoll h
    exact hP.handled.called (show Every P (srv.prescribe l.writes).table from hall) hc
  | thread h => exact hP.every_thread h
  | fork h => exact hP.every_fork h

end EntryRules

/-- In every reachable table of the chat servers the user list is the list of all active named
users with their statuses, whole and in slot order. -/
theorem user_list_complete {table : Slot → Entry} (h : Served table) (now : UInt64) (m : Message) :
    (∀ s, (table s).status ≤ 2) ∧
      (userList now m table).payloadStr =
        (ascii ", ").intercalate
          (((List.finRange maxClients).filter fun s =>
            (table s).active && !(table s).name.isEmpty).map fun s =>
              (table s).name ++ ascii "(" ++ statusName (table s).status ++ ascii ")") := by
  have hall : Every Entry.Listable table := entryRules_listable.served h
  refine ⟨fun s => (hall s).status_le, ?_⟩
  rw [payloadStr_userList now m hall, shownEntries, List.filter_map, List.map_map]
  rfl

/-- One user, in the thread server. -/
theorem user_list_complete_login : ∃ st,
    run Thread.step (Thread.init fun _ => none)
      (Thread.connect 4 ++ ((.client 0 0, Thread.reads (Thread.loginAs "a")) ::
        Thread.works 0 0 12)) = some st ∧
    (userList 0 (Thread.loginAs "a") st.shared.table).payloadStr = ascii "a(available)" := by
  have hlogin : WellFormed (Thread.loginAs "a") := wellFormed_makeMessage ..
  have hrun : run Thread.step (Thread.init fun _ => none)
      (Thread.connect 4 ++ ((.client 0 0, Thread.reads (Thread.loginAs "a")) ::
        Thread.works 0 0 12)) = some _ :=
    run_trans rfl
      (run_cons_iff.mpr ⟨_, Thread.step_recv hlogin (by simp [Thread.loginAs]) rfl rfl, rfl⟩)
  exact ⟨_, hrun, (user_list_complete (.thread ⟨_, hrun⟩) 0 (Thread.loginAs "a")).2⟩

end ChatSystem
