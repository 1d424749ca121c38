import ChatSystem.Server.Replies

/-!
# The table of names

What the login data of a server is for: every active slot holds a valid name,
and no two active slots hold the same one. A write to one slot keeps this if
the slot ends up inactive or with a valid name no other active slot holds.
-/

namespace ChatSystem

/-- Active slots hold valid, distinct, terminated names. -/
structure NamesOk (table : Slot → Entry) : Prop where
  terminated : ∀ i, (table i).Terminated
  valid : ∀ i, (table i).active = true → ValidName (table i).name
  unique : ∀ i j, (table i).active = true → (table j).active = true →
    (table i).name = (table j).name → i = j

/-- An entry that may stand in slot `s` of a table. -/
structure Admissible (table : Slot → Entry) (s : Slot) (e : Entry) : Prop where
  terminated : e.Terminated
  valid : e.active = true → ValidName e.name
  unique : e.active = true → ∀ j, j ≠ s → (table j).active = true → (table j).name ≠ e.name

theorem namesOk_zero : NamesOk fun _ => Entry.zero :=
  ⟨fun _ => rfl, fun _ h => (Bool.false_ne_true h).elim, fun _ _ h => (Bool.false_ne_true h).elim⟩

/-- An entry of a good table is admissible in its own slot. -/
theorem NamesOk.admissible {table : Slot → Entry} (h : NamesOk table) (s : Slot) :
    Admissible table s (table s) :=
  ⟨h.terminated s, h.valid s, fun hs j hj ha hn => hj (h.unique j s ha hs hn)⟩

/-- Writing an admissible entry keeps a table good. -/
theorem NamesOk.update {table : Slot → Entry} (h : NamesOk table) {s : Slot} {e : Entry}
    (he : Admissible table s e) : NamesOk (Function.update table s e) := by
  refine ⟨fun i => ?_, fun i hi => ?_, fun i j hi hj hn => ?_⟩
  · by_cases his : i = s
    · subst his
      rw [Function.update_self]
      exact he.terminated
    · rw [Function.update_of_ne his]
      exact h.terminated i
  · by_cases his : i = s
    · subst his
      rw [Function.update_self] at hi ⊢
      exact he.valid hi
    · rw [Function.update_of_ne his] at hi ⊢
      exact h.valid i hi
  · by_cases his : i = s <;> by_cases hjs : j = s
    · exact his.trans hjs.symm
    · subst his
      rw [Function.update_self] at hi hn
      rw [Function.update_of_ne hjs] at hj hn
      exact absurd hn.symm (he.unique hi j hjs hj)
    · subst hjs
      rw [Function.update_self] at hj hn
      rw [Function.update_of_ne his] at hi hn
      exact absurd hn (he.unique hj i his hi)
    · rw [Function.update_of_ne his] at hi hn
      rw [Function.update_of_ne hjs] at hj hn
      exact h.unique i j hi hj hn

/-- An inactive terminated entry may stand anywhere. -/
theorem admissible_of_inactive {table : Slot → Entry} {s : Slot} {e : Entry} (ht : e.Terminated)
    (ha : e.active = false) : Admissible table s e :=
  ⟨ht, fun h => absurd h (by simp [ha]), fun h => absurd h (by simp [ha])⟩

/-- Admissibility does not look at the status. -/
theorem Admissible.setStatus {table : Slot → Entry} {s : Slot} {e : Entry}
    (h : Admissible table s e) (status : Nat) : Admissible table s (e.setStatus status) :=
  ⟨h.terminated, h.valid, h.unique⟩

/-- An entry under a valid name that no active slot holds may stand anywhere. -/
theorem admissible_of_free {table : Slot → Entry} {s : Slot} {e : Entry} (ht : e.Terminated)
    (hu : ValidName e.name) (hfree : findName table e.name = none) : Admissible table s e := by
  refine ⟨ht, fun _ => hu, fun _ j _ hj hn => ?_⟩
  have := findName_eq_none hfree j
  rw [(Entry.holds_iff hu).mpr ⟨hj, hn⟩] at this
  cases this

/-- The entry of a successful login may be stored. -/
theorem NamesOk.admissible_login {table : Slot → Entry} (h : NamesOk table) {u : List UInt8}
    (hu : ValidName u) (hfree : findName table u = none) (s : Slot) :
    Admissible table s ((table s).login u) := by
  have hname : ((table s).login u).name = u := Entry.name_setName (h.terminated s) hu
  rw [← hname] at hu hfree
  exact admissible_of_free (Entry.terminated_setName (h.terminated s) u) hu hfree

end ChatSystem
