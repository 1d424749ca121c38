import ChatSystem.Chat.Room

/-!
# Invariants between events

Slots in use stand for distinct connections, only a slot in use is active, and the table of
names is good. Every event of every server keeps this.
-/

namespace ChatSystem.Chat

open Bytes Reactive

/-- What holds between two events. -/
structure Tidy (room : Room) : Prop where
  names : NamesOk room.table
  blank : ∀ s, (room.table s).active = false → (room.table s).username = zeros maxUsernameLen
  held : ∀ s, room.conn s = none → (room.table s).active = false
  bound : ∀ s c, room.conn s = some c → c < room.accepted
  apart : ∀ s s' c, room.conn s = some c → room.conn s' = some c → s = s'

variable {fl : Flavour} {room : Room} {s : Slot} {c : Nat} {env : Env} {m : Message}

/-! ## Frame -/

section Frame

variable (room : Room) (s : Slot) (e : Entry)

@[simp] theorem table_setEntry :
    (room.setEntry s e).table = Function.update room.table s e := rfl

@[simp] theorem conn_setEntry : (room.setEntry s e).conn = room.conn := rfl

@[simp] theorem accepted_setEntry : (room.setEntry s e).accepted = room.accepted := rfl

@[simp] theorem history_setEntry : (room.setEntry s e).history = room.history := rfl

@[simp] theorem table_save (env : Env) (m : Message) (receiver : List UInt8) :
    (room.save env m receiver).table = room.table := rfl

@[simp] theorem conn_save (env : Env) (m : Message) (receiver : List UInt8) :
    (room.save env m receiver).conn = room.conn := rfl

@[simp] theorem table_release (fl : Flavour) :
    (room.release fl s).table = Function.update room.table s (fl.released (room.table s)) := rfl

@[simp] theorem conn_release (fl : Flavour) :
    (room.release fl s).conn = Function.update room.conn s none := rfl

@[simp] theorem table_fill (fl : Flavour) :
    (room.fill fl s).table = Function.update room.table s (fl.filled (room.table s)) := rfl

@[simp] theorem conn_fill (fl : Flavour) :
    (room.fill fl s).conn = Function.update room.conn s (some room.accepted) := rfl

@[simp] theorem history_release (fl : Flavour) : (room.release fl s).history = room.history := rfl

@[simp] theorem accepted_release (fl : Flavour) :
    (room.release fl s).accepted = room.accepted := rfl

end Frame

/-- The routers change the login data of one slot, or add to the history. -/
inductive Routed (fl : Flavour) (room : Room) (env : Env) (s : Slot) (m : Message) : Room → Prop
  | same : Routed fl room env s m room
  | login {u p : List UInt8} (hscan : scanLogin m.payload.toList = some (u, p))
      (hfree : room.taken fl s u = false) :
      Routed fl room env s m (room.setEntry s ((room.table s).login u))
  | clear : Routed fl room env s m (room.setEntry s (room.table s).clear)
  | release : Routed fl room env s m (room.release fl s)
  | status (n : Nat) : Routed fl room env s m (room.setEntry s ((room.table s).setStatus n))
  | save (receiver : List UInt8) (hactive : (room.table s).active = true) :
      Routed fl room env s m (room.save env m receiver)

theorem routed (fl : Flavour) (room : Room) (env : Env) (s : Slot) (m : Message) :
    Routed fl room env s m (room.route fl env s m).1 := by
  unfold Room.route
  split
  · unfold Room.login
    split
    · exact .same
    · next u p hscan =>
      split
      · exact .same
      · next hfree =>
        split
        · exact .same
        · exact .login hscan (by simpa using hfree)
  · cases fl with
    | fork => exact .clear
    | thread => exact .release
    | epoll => exact .release
  · unfold Room.broadcast
    split
    · exact .same
    · next h => exact .save [] (by simpa using h)
  · unfold Room.priv
    split
    · exact .same
    · next h =>
      split
      · exact .same
      · exact .save m.receiverStr (by simpa using h)
  · exact .same
  · exact .same
  · exact .status _
  · exact .same

/-- A router leaves the connections alone, but for a logout. -/
theorem conn_route (h : m.kind ≠ some .logout) :
    (room.route fl env s m).1.conn = room.conn := by
  unfold Room.route
  split
  · unfold Room.login
    split
    · rfl
    · split
      · rfl
      · split <;> rfl
  · next hm => exact absurd hm h
  · unfold Room.broadcast
    split <;> rfl
  · unfold Room.priv
    split
    · rfl
    · split <;> rfl
  all_goals rfl

/-! ## Slots -/

/-- The slot of a connection is in use for it. -/
theorem conn_of_slotOf (h : room.slotOf c = some s) : room.conn s = some c := by
  simpa using firstSlot_eq_some h

theorem conn_ne_of_slotOf (h : room.slotOf c = none) (s : Slot) : room.conn s ≠ some c := by
  simpa using firstSlot_eq_none h s

theorem Tidy.slotOf_eq (h : Tidy room) (hs : room.conn s = some c) : room.slotOf c = some s := by
  cases ho : room.slotOf c with
  | none => exact absurd hs (conn_ne_of_slotOf ho s)
  | some t => rw [h.apart t s c (conn_of_slotOf ho) hs]

/-- An active slot has a connection. -/
theorem Tidy.conn_of_active (h : Tidy room) (hs : (room.table s).active = true) :
    ∃ c, room.conn s = some c := by
  cases hc : room.conn s with
  | none =>
    rw [h.held s hc] at hs
    cases hs
  | some c => exact ⟨c, rfl⟩

theorem mem_others {t : Slot} :
    t ∈ room.others s ↔ t ≠ s ∧ (room.table t).active = true := by
  simp [Room.others]

/-- An inactive slot has no name. -/
theorem Tidy.name_of_inactive (h : Tidy room) (hs : (room.table s).active = false) :
    (room.table s).name = [] := by
  rw [Entry.name, h.blank s hs, cstr_zeros]

/-! ## Preservation -/

theorem tidy_init (history : History) : Tidy (.init history) := by
  constructor
  · exact namesOk_zero
  · exact fun _ _ => rfl
  · exact fun _ _ => rfl
  · intro s c h
    cases h
  · intro s s' c h
    cases h

/-- No other active slot holds a name that is not taken. -/
theorem Tidy.free_of_not_taken (h : Tidy room) {u : List UInt8} (hu : ValidName u)
    (hfree : room.taken fl s u = false) {t : Slot} (ht : t ≠ s)
    (ha : (room.table t).active = true) : (room.table t).name ≠ u := by
  intro hn
  have hholds : (room.table t).holds u = true := (Entry.holds_iff hu).mpr ⟨ha, hn⟩
  cases hfind : findName room.table u with
  | none =>
    rw [findName_eq_none hfind t] at hholds
    cases hholds
  | some k =>
    obtain ⟨hk, hkn⟩ := (Entry.holds_iff hu).mp (findName_eq_some hfind)
    obtain rfl : t = k := h.names.unique t k ha hk (hn.trans hkn.symm)
    cases fl <;> simp [Room.taken, hfind, ht] at hfree

/-- Overwriting the login data of a slot in use. -/
theorem Tidy.setEntry (h : Tidy room) {e : Entry} (hc : (room.conn s).isSome ∨ e.active = false)
    (hok : Admissible room.table s e)
    (hblank : e.active = false → e.username = zeros maxUsernameLen) :
    Tidy (room.setEntry s e) := by
  refine ⟨h.names.update hok, ?_, ?_, h.bound, h.apart⟩
  · intro i hi
    by_cases his : i = s
    · subst his
      rw [table_setEntry, Function.update_self] at hi ⊢
      exact hblank hi
    · rw [table_setEntry, Function.update_of_ne his] at hi ⊢
      exact h.blank i hi
  · intro i hi
    by_cases his : i = s
    · subst his
      rw [table_setEntry, Function.update_self]
      rw [conn_setEntry] at hi
      rcases hc with hc | hc
      · simp [hi] at hc
      · exact hc
    · rw [table_setEntry, Function.update_of_ne his]
      exact h.held i hi

theorem Tidy.clear (h : Tidy room) (s : Slot) :
    Tidy (room.setEntry s (room.table s).clear) :=
  h.setEntry (Or.inr rfl) (admissible_of_inactive rfl rfl) fun _ => rfl

theorem Tidy.login (h : Tidy room) (hc : room.conn s = some c) {u : List UInt8}
    (hu : ValidName u) (hfree : room.taken fl s u = false) :
    Tidy (room.setEntry s ((room.table s).login u)) := by
  have ht := h.names.terminated s
  have hname : ((room.table s).login u).name = u := Entry.name_setName ht hu
  apply h.setEntry
  · exact Or.inl (by rw [hc]; rfl)
  · refine ⟨Entry.terminated_setName ht u, fun _ => hname.symm ▸ hu, fun _ t hts ha => ?_⟩
    rw [hname]
    exact h.free_of_not_taken hu hfree hts ha
  · intro hf
    cases hf

theorem Tidy.setStatus (h : Tidy room) (hc : room.conn s = some c) (n : Nat) :
    Tidy (room.setEntry s ((room.table s).setStatus n)) :=
  h.setEntry (Or.inl (by rw [hc]; rfl)) ((h.names.admissible s).setStatus n) (h.blank s)

theorem Tidy.save (h : Tidy room) (env : Env) (m : Message) (receiver : List UInt8) :
    Tidy (room.save env m receiver) :=
  ⟨h.names, h.blank, h.held, h.bound, h.apart⟩

/-- A released slot is inactive and has no name. -/
theorem released_spec (fl : Flavour) (e : Entry) : (fl.released e).Terminated ∧
    (fl.released e).active = false ∧ (fl.released e).username = zeros maxUsernameLen := by
  cases fl <;> exact ⟨rfl, rfl, rfl⟩

theorem Tidy.release (h : Tidy room) (fl : Flavour) (s : Slot) : Tidy (room.release fl s) := by
  obtain ⟨h₁, h₂, h₃⟩ := released_spec fl (room.table s)
  have hset : Tidy (room.setEntry s (fl.released (room.table s))) :=
    h.setEntry (Or.inr h₂) (admissible_of_inactive h₁ h₂) fun _ => h₃
  have hconn : ∀ i c, (room.release fl s).conn i = some c → room.conn i = some c := by
    intro i c hi
    by_cases his : i = s
    · rw [conn_release, his, Function.update_self] at hi
      cases hi
    · rwa [conn_release, Function.update_of_ne his] at hi
  refine ⟨hset.names, hset.blank, ?_, ?_, ?_⟩
  · intro i hi
    by_cases his : i = s
    · rw [table_release, his, Function.update_self]
      exact h₂
    · rw [conn_release, Function.update_of_ne his] at hi
      exact hset.held i hi
  · exact fun i c hi => h.bound i c (hconn i c hi)
  · exact fun i j c hi hj => h.apart i j c (hconn i c hi) (hconn j c hj)

/-- A slot without a connection is filled with a blank name. -/
theorem Tidy.filled_spec (h : Tidy room) (hs : room.conn s = none) (fl : Flavour) :
    (fl.filled (room.table s)).Terminated ∧ (fl.filled (room.table s)).active = false ∧
      (fl.filled (room.table s)).username = zeros maxUsernameLen := by
  cases fl with
  | fork => exact ⟨h.names.terminated s, h.held s hs, h.blank s (h.held s hs)⟩
  | thread => exact ⟨rfl, rfl, rfl⟩
  | epoll => exact ⟨rfl, rfl, rfl⟩

theorem Tidy.fill (h : Tidy room) (hs : room.conn s = none) (fl : Flavour) :
    Tidy (room.fill fl s) := by
  obtain ⟨h₁, h₂, h₃⟩ := h.filled_spec hs fl
  have hset : Tidy (room.setEntry s (fl.filled (room.table s))) :=
    h.setEntry (Or.inr h₂) (admissible_of_inactive h₁ h₂) fun _ => h₃
  have hconn : ∀ i c, (room.fill fl s).conn i = some c →
      i = s ∧ c = room.accepted ∨ i ≠ s ∧ room.conn i = some c := by
    intro i c hi
    by_cases his : i = s
    · rw [conn_fill, his, Function.update_self] at hi
      exact Or.inl ⟨his, (Option.some.inj hi).symm⟩
    · rw [conn_fill, Function.update_of_ne his] at hi
      exact Or.inr ⟨his, hi⟩
  refine ⟨hset.names, hset.blank, ?_, ?_, ?_⟩
  · intro i hi
    by_cases his : i = s
    · rw [conn_fill, his, Function.update_self] at hi
      cases hi
    · rw [conn_fill, Function.update_of_ne his] at hi
      exact hset.held i hi
  · intro i c hi
    rcases hconn i c hi with ⟨-, rfl⟩ | ⟨-, hi⟩
    · exact Nat.lt_succ_self _
    · exact Nat.lt_succ_of_lt (h.bound i c hi)
  · intro i j c hi hj
    rcases hconn i c hi with ⟨his, hci⟩ | ⟨-, hi'⟩ <;>
      rcases hconn j c hj with ⟨hjs, hcj⟩ | ⟨-, hj'⟩
    · exact his.trans hjs.symm
    · exact absurd (hci ▸ h.bound j c hj') (Nat.lt_irrefl _)
    · exact absurd (hcj ▸ h.bound i c hi') (Nat.lt_irrefl _)
    · exact h.apart i j c hi' hj'

theorem Tidy.connect (h : Tidy room) (fl : Flavour) (env : Env) :
    Tidy (room.connect fl env).1 := by
  unfold Room.connect
  split
  · exact ⟨h.names, h.blank, h.held, fun i c hi => Nat.lt_succ_of_lt (h.bound i c hi), h.apart⟩
  · next s hs => exact h.fill (by simpa using firstSlot_eq_some hs) fl

theorem Tidy.route (h : Tidy room) (hc : room.conn s = some c) (fl : Flavour) (env : Env)
    (m : Message) : Tidy (room.route fl env s m).1 := by
  obtain ⟨r, hr⟩ : ∃ r, (room.route fl env s m).1 = r := ⟨_, rfl⟩
  have hrouted := routed fl room env s m
  rw [hr] at hrouted ⊢
  cases hrouted with
  | same => exact h
  | login hscan hfree => exact h.login hc (validName_of_scanLogin hscan) hfree
  | clear => exact h.clear s
  | release => exact h.release fl s
  | status n => exact h.setStatus hc n
  | save receiver _ => exact h.save env m receiver

theorem Tidy.serve (h : Tidy room) (fl : Flavour) (e : Event) :
    Tidy (serve fl room e).1 := by
  cases e with
  | connect env => exact h.connect fl env
  | request c m env =>
    change Tidy (room.request fl c m.val env).1
    unfold Room.request
    split
    · exact h
    · next s hs => exact h.route (conn_of_slotOf hs) fl env m.val
  | close c how =>
    change Tidy (room.close fl c how).1
    unfold Room.close
    split
    · exact h
    · exact h.release fl _

/-- The invariants hold behind every list of events. -/
theorem tidy_roomAfter (fl : Flavour) (history : History) (es : List Event) :
    Tidy (roomAfter fl history es) :=
  after_invariant (fun _ e h _ => h.serve fl e) (tidy_init history) (along_trivial ..)

end ChatSystem.Chat
