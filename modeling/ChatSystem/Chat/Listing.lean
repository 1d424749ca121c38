import Mathlib.Data.Set.Basic
import ChatSystem.Chat.Tables

/-!
# Reading a user list

Nothing in a user list is escaped. Where no name contains the text that ends an item, the list
tells who is online and with which status; where a name does, two tables give the same list.
-/

namespace ChatSystem

open Bytes Join Transition

/-- The users of a table, with their statuses. -/
def users (table : Slot → Entry) : Set (List UInt8 × Nat) :=
  {u | ∃ s, (table s).active = true ∧ u = ((table s).name, (table s).status)}

/-- A user list of entries in any order. -/
def listed (entries : List Entry) : List UInt8 := (ascii ", ").intercalate (entries.map Entry.item)

/-- What follows a name in a user list, in front of another item. -/
def closer (status : Nat) : List UInt8 := ascii "(" ++ statusName status ++ ascii "), "

/-- The closers of the three statuses. -/
def closers : List (List UInt8) := [closer statusAvailable, closer statusBusy, closer statusAway]

/-- Every active user has a name, and none of the names ends an item. -/
structure PlainNames (table : Slot → Entry) : Prop where
  ne_nil : ∀ s, (table s).active = true → (table s).name ≠ []
  no_closer : ∀ s, (table s).active = true → Open closers (table s).name

/-! ## Closers -/

theorem closers_mark : Closers 40 closers where
  head := by
    intro c hc
    simp only [closers, List.mem_cons, List.not_mem_nil, or_false] at hc
    rcases hc with rfl | rfl | rfl <;> exact ⟨_, rfl, by decide⟩
  apart := by
    intro c hc d hd
    simp only [closers, List.mem_cons, List.not_mem_nil, or_false] at hc hd
    rcases hc with rfl | rfl | rfl <;> rcases hd with rfl | rfl | rfl <;> decide

theorem closer_mem {status : Nat} (h : status ≤ statusAway) : closer status ∈ closers := by
  have hs : status = statusAvailable ∨ status = statusBusy ∨ status = statusAway := by
    simp only [statusAvailable, statusBusy, statusAway] at h ⊢
    omega
  rcases hs with rfl | rfl | rfl <;> simp [closers]

/-- A closer tells its status. -/
theorem idxOf_closer {status : Nat} (h : status ≤ statusAway) :
    closers.idxOf (closer status) = status := by
  have hs : status = statusAvailable ∨ status = statusBusy ∨ status = statusAway := by
    simp only [statusAvailable, statusBusy, statusAway] at h ⊢
    omega
  rcases hs with rfl | rfl | rfl <;> decide

/-- An item with the separator behind it. -/
theorem Entry.item_append (e : Entry) : e.item ++ ascii ", " = e.name ++ closer e.status := by
  have hclose : ascii "), " = ascii ")" ++ ascii ", " := rfl
  simp only [Entry.item, closer, hclose, List.append_assoc]

/-! ## Reading back -/

theorem Entry.item_ne_nil (e : Entry) : e.item ≠ [] := by
  simp [Entry.item, ascii]

theorem eq_nil_of_listed {es : List Entry} (h : listed es = []) : es = [] := by
  cases es with
  | nil => rfl
  | cons e es =>
    cases es with
    | nil => exact absurd (List.intercalate_singleton.symm.trans h) e.item_ne_nil
    | cons e' es =>
      rw [listed, List.map_cons, List.map_cons, List.intercalate_cons_cons] at h
      exact absurd (List.append_eq_nil_iff.mp (List.append_eq_nil_iff.mp h).1).1 e.item_ne_nil

/-- With a separator behind it, a list is a row of names and closers. -/
theorem listed_append {es : List Entry} (h : es ≠ []) : listed es ++ ascii ", " =
    ((es.map fun e => (e.name, closer e.status)).map fun p => p.1 ++ p.2).flatten := by
  rw [listed, intercalate_append_sep _ (by simpa using h), List.map_map, List.map_map]
  congr 2
  ext1 e
  exact e.item_append

/-- The closers tell the statuses. -/
theorem map_status_eq {es : List Entry} (h : ∀ e ∈ es, e.Listable ∧ Open closers e.name) :
    es.map (fun e => (e.name, e.status)) =
      (es.map fun e => (e.name, closer e.status)).map fun p => (p.1, closers.idxOf p.2) := by
  rw [List.map_map]
  apply List.map_congr_left
  intro e hm
  rw [Function.comp_apply, idxOf_closer (h e hm).1.status_le]

/-- A list without closers in its names is read back item by item. -/
theorem listed_inj {es es' : List Entry}
    (h : ∀ e ∈ es, e.Listable ∧ Open closers e.name)
    (h' : ∀ e ∈ es', e.Listable ∧ Open closers e.name) (he : listed es = listed es') :
    es.map (fun e => (e.name, e.status)) = es'.map fun e => (e.name, e.status) := by
  by_cases hes : es = []
  · subst hes
    rw [eq_nil_of_listed he.symm]
  · have hes' : es' ≠ [] := by
      rintro rfl
      exact hes (eq_nil_of_listed he)
    have hpairs : es.map (fun e => (e.name, closer e.status)) =
        es'.map fun e => (e.name, closer e.status) := by
      apply closers_mark.flatten_inj
      · intro p hp
        obtain ⟨e, hm, rfl⟩ := List.mem_map.mp hp
        exact ⟨(h e hm).2, closer_mem (h e hm).1.status_le⟩
      · intro p hp
        obtain ⟨e, hm, rfl⟩ := List.mem_map.mp hp
        exact ⟨(h' e hm).2, closer_mem (h' e hm).1.status_le⟩
      · rw [← listed_append hes, ← listed_append hes', he]
    rw [map_status_eq h, map_status_eq h', hpairs]

/-- The entries of a list are the users, where everybody has a name. -/
theorem users_eq {table : Slot → Entry} (h : PlainNames table) {es : List Entry}
    (hes : es.Perm (shownEntries table)) :
    users table = {u | u ∈ es.map fun e => (e.name, e.status)} := by
  ext u
  simp only [users, Set.mem_ofPred_eq, List.mem_map]
  constructor
  · rintro ⟨s, hact, rfl⟩
    refine ⟨table s, hes.mem_iff.mpr ?_, rfl⟩
    rw [shownEntries, List.mem_filter]
    refine ⟨List.mem_map_of_mem (List.mem_finRange s), ?_⟩
    simp [Entry.shown, hact, h.ne_nil s hact]
  · rintro ⟨e, he, rfl⟩
    obtain ⟨hm, hshown⟩ := List.mem_filter.mp (hes.mem_iff.mp he)
    obtain ⟨s, -, rfl⟩ := List.mem_map.mp hm
    rw [Entry.shown, Bool.and_eq_true] at hshown
    exact ⟨s, hshown.1, rfl⟩

/-- What a list of a served table can be read from. -/
theorem PlainNames.entries {table : Slot → Entry} (h : PlainNames table) (hs : Served table)
    {es : List Entry} (hes : es.Perm (shownEntries table)) :
    ∀ e ∈ es, e.Listable ∧ Open closers e.name := by
  intro e he
  obtain ⟨hm, hshown⟩ := List.mem_filter.mp (hes.mem_iff.mp he)
  obtain ⟨s, -, rfl⟩ := List.mem_map.mp hm
  rw [Entry.shown, Bool.and_eq_true] at hshown
  exact ⟨entryRules_listable.served hs s, h.no_closer s hshown.1⟩

/-- Tables of the chat servers with different users give different user lists, in whatever order
the entries stand, as long as everybody has a name and no name contains an end of an item. -/
theorem user_list_unambiguous {table table' : Slot → Entry} (h : Served table)
    (h' : Served table') (hp : PlainNames table) (hp' : PlainNames table')
    (hne : users table ≠ users table') (now : UInt64) (m : Message) :
    (userList now m table).payloadStr = listed (shownEntries table) ∧
      (userList now m table').payloadStr = listed (shownEntries table') ∧
      ∀ es es' : List Entry, es.Perm (shownEntries table) → es'.Perm (shownEntries table') →
        listed es ≠ listed es' := by
  refine ⟨payloadStr_userList now m (entryRules_listable.served h),
    payloadStr_userList now m (entryRules_listable.served h'), fun es es' hes hes' he => hne ?_⟩
  rw [users_eq hp hes, users_eq hp' hes', listed_inj (hp.entries h hes) (hp'.entries h' hes') he]

/-- A short name is plain. -/
theorem plainNames_of_short {table : Slot → Entry} (h : ((List.finRange maxClients).all fun s =>
    !(table s).active || (0 < (table s).name.length && (table s).name.length < 8)) = true) :
    PlainNames table := by
  have hshort : ∀ s, (table s).active = true →
      0 < (table s).name.length ∧ (table s).name.length < 8 := by
    intro s hact
    have hs := List.all_eq_true.mp h s (List.mem_finRange s)
    simpa [hact] using hs
  refine ⟨fun s hact => List.length_pos_iff.mp (hshort s hact).1, fun s hact c hc hin => ?_⟩
  have hlong : ∀ c ∈ closers, 8 ≤ c.length := by decide
  have hle := (hlong c hc).trans hin.length_le
  exact absurd (hshort s hact).2 (Nat.not_lt.mpr hle)

/-! ## Two sessions -/

/-- A user of one table that the other one does not have. -/
theorem users_ne {table table' : Slot → Entry} (i : Slot) (hact : (table' i).active = true)
    (hno : ((List.finRange maxClients).all fun s =>
      !(table s).active || (table s).name != (table' i).name) = true) :
    users table ≠ users table' := by
  intro he
  have hmem : ((table' i).name, (table' i).status) ∈ users table := by
    rw [he]
    exact ⟨i, hact, rfl⟩
  obtain ⟨s, hs, hpair⟩ := hmem
  have hother := List.all_eq_true.mp hno s (List.mem_finRange s)
  rw [hs, (Prod.mk.inj hpair).1] at hother
  simp at hother

/-- The thread server with one user. -/
def threadUser (name : String) : List (Thread.Tid × Thread.Input) :=
  Thread.connect 4 ++ ((.client 0 0, Thread.reads (Thread.loginAs name)) :: Thread.works 0 0 12)

/-- The thread server with two users. -/
def threadUsers (name name' : String) : List (Thread.Tid × Thread.Input) :=
  Thread.connect 4 ++ (Thread.connect 5 ++
    ((.client 0 0, Thread.reads (Thread.loginAs name)) :: (Thread.works 0 0 12 ++
      ((.client 1 1, Thread.reads (Thread.loginAs name')) :: Thread.works 1 1 12))))

/-- One user, or two. -/
theorem user_list_unambiguous_logins : ∃ st st',
    run Thread.step (Thread.init fun _ => none) (threadUser "a") = some st ∧
      run Thread.step (Thread.init fun _ => none) (threadUsers "a" "b") = some st' ∧
      ∀ es es' : List Entry, es.Perm (shownEntries st.shared.table) →
        es'.Perm (shownEntries st'.shared.table) → listed es ≠ listed es' := by
  have hlogin : ∀ name, WellFormed (Thread.loginAs name) := fun _ => wellFormed_makeMessage ..
  have hone : run Thread.step (Thread.init fun _ => none) (threadUser "a") = some _ :=
    run_trans rfl
      (run_cons_iff.mpr ⟨_, Thread.step_recv (hlogin _) (by simp [Thread.loginAs]) rfl rfl, rfl⟩)
  have htwo : run Thread.step (Thread.init fun _ => none) (threadUsers "a" "b") = some _ :=
    run_trans rfl (run_trans rfl (run_cons_iff.mpr
      ⟨_, Thread.step_recv (hlogin _) (by simp [Thread.loginAs]) rfl rfl, run_trans rfl
        (run_cons_iff.mpr
          ⟨_, Thread.step_recv (hlogin _) (by simp [Thread.loginAs]) rfl rfl, rfl⟩)⟩))
  exact ⟨_, _, hone, htwo, (user_list_unambiguous (.thread ⟨_, hone⟩) (.thread ⟨_, htwo⟩)
    (plainNames_of_short rfl) (plainNames_of_short rfl) (users_ne 1 rfl rfl) 0
    (Thread.loginAs "c")).2.2⟩

/-- One user with a comma in the name looks like two; and a user of the fork server whose name
the handler has cleared is not listed. -/
theorem user_list_ambiguous :
    (∃ st st', run Thread.step (Thread.init fun _ => none) (threadUser "a(available), b") = some st ∧
      run Thread.step (Thread.init fun _ => none) (threadUsers "a" "b") = some st' ∧
      users st.shared.table ≠ users st'.shared.table ∧
      (userList 0 (Thread.loginAs "c") st.shared.table).payloadStr =
        (userList 0 (Thread.loginAs "c") st'.shared.table).payloadStr) ∧
    ∃ st, Reachable Fork.step (Fork.init fun _ => none) st ∧
      users st.shared.table ≠ users (Fork.init fun _ => none).shared.table ∧
      (userList 0 (Thread.loginAs "c") st.shared.table).payloadStr =
        (userList 0 (Thread.loginAs "c") (Fork.init fun _ => none).shared.table).payloadStr := by
  have hlogin : ∀ name, WellFormed (Thread.loginAs name) := fun _ => wellFormed_makeMessage ..
  have hone : run Thread.step (Thread.init fun _ => none) (threadUser "a(available), b") = some _ :=
    run_trans rfl
      (run_cons_iff.mpr ⟨_, Thread.step_recv (hlogin _) (by simp [Thread.loginAs]) rfl rfl, rfl⟩)
  have htwo : run Thread.step (Thread.init fun _ => none) (threadUsers "a" "b") = some _ :=
    run_trans rfl (run_trans rfl (run_cons_iff.mpr
      ⟨_, Thread.step_recv (hlogin _) (by simp [Thread.loginAs]) rfl rfl, run_trans rfl
        (run_cons_iff.mpr
          ⟨_, Thread.step_recv (hlogin _) (by simp [Thread.loginAs]) rfl rfl, rfl⟩)⟩))
  have hghost : run Fork.step (Fork.init fun _ => none) (Fork.connect 0 4 100 ++
      (Fork.works ⟨0, 0, 100⟩ 1 ++ ((.child ⟨0, 0, 100⟩, Fork.reads (Fork.loginAs "a")) ::
        (Fork.works ⟨0, 0, 100⟩ 2 ++ (Fork.parents 13 ++ ((.parent, Fork.noInput) ::
          (Fork.parents 4 ++ ((.child ⟨0, 0, 100⟩, Fork.noInput) :: (Fork.works ⟨0, 0, 100⟩ 3 ++
            ((.sigchld, { Fork.noInput with pid := some 100 }) :: Fork.parents 1)))))))))) =
        some _ :=
    run_trans rfl (run_trans rfl (run_cons_iff.mpr ⟨_, Fork.step_fromClient (hlogin "a") rfl,
      run_trans rfl (run_trans rfl (run_cons_iff.mpr ⟨_, Fork.step_recv (hlogin "a") rfl rfl
        (List.append_nil _).symm, run_trans rfl (run_cons_iff.mpr
          ⟨_, Fork.step_fromClient_end rfl, rfl⟩)⟩))⟩))
  refine ⟨⟨_, _, hone, htwo, ?_, ?_⟩, _, ⟨_, hghost⟩, ?_, ?_⟩
  · exact users_ne 0 rfl rfl
  · rfl
  · exact (users_ne 0 rfl rfl).symm
  · rfl

end ChatSystem
