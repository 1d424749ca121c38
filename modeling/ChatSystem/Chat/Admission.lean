import ChatSystem.Chat.Secrecy

/-!
# Who is online has logged in

A connection is online under a name only behind a login of its own with that name, which was
validated.
-/

namespace ChatSystem.Chat

open Bytes Reactive

/-- A login of a connection under a name, with a password that is validated. -/
def Event.LogsIn (e : Event) (c : Nat) (u p : List UInt8) : Prop :=
  ∃ m env, e = .request c m env ∧ m.val.kind = some .login ∧
    scanLogin m.val.payload.toList = some (u, p) ∧ validate env.disc env.now u p = true

variable {fl : Flavour} {room : Room} {s : Slot} {c d : Nat} {env : Env} {m : Message}
  {u : List UInt8} {history : History} {es : List Event}

theorem loggedIn_setEntry {e : Entry} (h : LoggedInAs (room.setEntry s e) c u) :
    LoggedInAs room c u ∨ room.conn s = some c ∧ e.active = true ∧ e.name = u := by
  obtain ⟨t, hc, ha, hn⟩ := h
  rw [table_setEntry] at ha hn
  by_cases ht : t = s
  · subst ht
    rw [Function.update_self] at ha hn
    exact Or.inr ⟨hc, ha, hn⟩
  · rw [Function.update_of_ne ht] at ha hn
    exact Or.inl ⟨t, hc, ha, hn⟩

/-- A released slot stands for nobody. -/
theorem loggedIn_release (h : LoggedInAs (room.release fl s) c u) : LoggedInAs room c u := by
  obtain ⟨t, hc, ha, hn⟩ := h
  rw [conn_release] at hc
  rw [table_release] at ha hn
  by_cases ht : t = s
  · subst ht
    rw [Function.update_self] at hc
    cases hc
  · rw [Function.update_of_ne ht] at hc ha hn
    exact ⟨t, hc, ha, hn⟩

/-- Of the routers, only a validated login lets somebody in. -/
theorem loggedIn_route (hok : Tidy room) (hs : room.conn s = some d)
    (h : LoggedInAs (room.route fl env s m).1 c u) : LoggedInAs room c u ∨
      c = d ∧ m.kind = some .login ∧ ∃ p, scanLogin m.payload.toList = some (u, p) ∧
        validate env.disc env.now u p = true := by
  unfold Room.route at h
  split at h
  · next hkind =>
    unfold Room.login at h
    split at h
    · exact Or.inl h
    · next v p hscan =>
      split at h
      · exact Or.inl h
      · split at h
        · exact Or.inl h
        · next hvalid =>
          rcases loggedIn_setEntry h with h | ⟨hc, -, hn⟩
          · exact Or.inl h
          · have hname : ((room.table s).login v).name = v :=
              Entry.name_setName (hok.names.terminated s) (validName_of_scanLogin hscan)
            obtain rfl : v = u := hname.symm.trans hn
            exact Or.inr ⟨Option.some.inj (hc.symm.trans hs), hkind, p, hscan, by simpa using hvalid⟩
  · cases fl with
    | fork =>
      refine Or.inl ((loggedIn_setEntry h).resolve_right ?_)
      rintro ⟨-, ha, -⟩
      cases ha
    | thread => exact Or.inl (loggedIn_release h)
    | epoll => exact Or.inl (loggedIn_release h)
  · unfold Room.broadcast at h
    split at h <;> exact Or.inl h
  · unfold Room.priv at h
    split at h
    · exact Or.inl h
    · split at h <;> exact Or.inl h
  · exact Or.inl h
  · exact Or.inl h
  · rcases loggedIn_setEntry h with h | ⟨hc, ha, hn⟩
    · exact Or.inl h
    · exact Or.inl ⟨s, hc, ha, hn⟩
  · exact Or.inl h

/-- So it is for all events. -/
theorem loggedIn_serve (hok : Tidy room) {e : Event} (h : LoggedInAs (serve fl room e).1 c u) :
    LoggedInAs room c u ∨ ∃ p, e.LogsIn c u p := by
  cases e with
  | connect env =>
    change LoggedInAs (room.connect fl env).1 c u at h
    unfold Room.connect at h
    split at h
    · exact Or.inl h
    · next s hfree =>
      have hs : room.conn s = none := by simpa using firstSlot_eq_some hfree
      obtain ⟨t, hc, ha, hn⟩ := h
      rw [conn_fill] at hc
      rw [table_fill] at ha hn
      by_cases ht : t = s
      · subst ht
        rw [Function.update_self, (hok.filled_spec hs fl).2.1] at ha
        cases ha
      · rw [Function.update_of_ne ht] at hc ha hn
        exact Or.inl ⟨t, hc, ha, hn⟩
  | request d m env =>
    change LoggedInAs (room.request fl d m.val env).1 c u at h
    unfold Room.request at h
    split at h
    · exact Or.inl h
    · next s hs =>
      rcases loggedIn_route hok (conn_of_slotOf hs) h with h | ⟨rfl, hkind, p, hscan, hvalid⟩
      · exact Or.inl h
      · exact Or.inr ⟨p, m, env, rfl, hkind, hscan, hvalid⟩
  | close d how =>
    change LoggedInAs (room.close fl d how).1 c u at h
    unfold Room.close at h
    split at h
    · exact Or.inl h
    · exact Or.inl (loggedIn_release h)

/-- Who is online behind some events has logged in among them. -/
theorem exists_login (h : LoggedInAs (roomAfter fl history es) c u) :
    ∃ e ∈ es, ∃ p, e.LogsIn c u p := by
  induction es using List.reverseRecOn with
  | nil =>
    obtain ⟨s, hc, -, -⟩ := h
    cases hc
  | append_singleton es e ih =>
    have hafter : roomAfter fl history (es ++ [e]) = (serve fl (roomAfter fl history es) e).1 :=
      after_append es [e]
    rw [hafter] at h
    rcases loggedIn_serve (tidy_roomAfter fl history es) h with h | ⟨p, hp⟩
    · obtain ⟨e', he', hp⟩ := ih h
      exact ⟨e', List.mem_append_left _ he', hp⟩
    · exact ⟨e, List.mem_append_right _ (List.mem_singleton_self _), p, hp⟩

end ChatSystem.Chat
