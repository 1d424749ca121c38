import Mathlib.Data.List.Nodup

/-!
# Calls that take effect at once

Many callers talk to one service: a call is asked, takes effect, and is answered. The calls in
the order of their effects explain what the callers see: they are answered as if they had been
made one after the other, and no call comes behind one that was asked after its answer.
-/

namespace Linear

variable {C O A : Type*}

/-- What a caller sees of its call. -/
inductive Seen (C O A : Type*)
  | asked (c : C) (o : O)
  | answered (c : C) (a : A)

/-- What happens to a call. -/
inductive Tick (C O A : Type*)
  | asks (c : C) (o : O)
  | acts (c : C) (o : O) (a : A)
  | ends (c : C) (a : A)

/-- Whose call it happens to. -/
def Tick.caller : Tick C O A → C
  | .asks c _ | .acts c _ _ | .ends c _ => c

/-- What a tick shows. -/
def Tick.seen : Tick C O A → Option (Seen C O A)
  | .asks c o => some (.asked c o)
  | .acts _ _ _ => none
  | .ends c a => some (.answered c a)

/-- The effect of a tick. -/
def Tick.effect : Tick C O A → Option (C × O × A)
  | .acts c o a => some (c, o, a)
  | _ => none

/-- What the callers see. -/
def seen (ticks : List (Tick C O A)) : List (Seen C O A) := ticks.filterMap Tick.seen

/-- The calls in the order of their effects. -/
def effects (ticks : List (Tick C O A)) : List (C × O × A) := ticks.filterMap Tick.effect

/-- Calls made one after the other explain what is seen: they are legal, each was asked, each
answer is that of one of them, and a call that was answered when another was asked comes before
it. -/
structure Explains (legal : List (O × A) → Prop) (h : List (Seen C O A))
    (calls : List (C × O × A)) : Prop where
  legal : legal (calls.map Prod.snd)
  nodup : (calls.map Prod.fst).Nodup
  asked : ∀ x ∈ calls, .asked x.1 x.2.1 ∈ h
  answered : ∀ c a, .answered c a ∈ h → ∃ o, (c, o, a) ∈ calls
  order : ∀ c a d o, [.answered c a, .asked d o].Sublist h → d ∈ calls.map Prod.fst →
    [c, d].Sublist (calls.map Prod.fst)

/-- Every caller asks once, its call takes effect once behind that, and is answered behind that. -/
inductive Orderly : List (Tick C O A) → Prop
  | nil : Orderly []
  | asks {ticks : List (Tick C O A)} {c : C} {o : O} (h : Orderly ticks)
    (hnew : ∀ o', .asks c o' ∉ ticks) : Orderly (ticks ++ [.asks c o])
  | acts {ticks : List (Tick C O A)} {c : C} {o : O} {a : A} (h : Orderly ticks)
    (hasked : .asks c o ∈ ticks) (hnew : ∀ o' a', .acts c o' a' ∉ ticks) :
    Orderly (ticks ++ [.acts c o a])
  | ends {ticks : List (Tick C O A)} {c : C} {o : O} {a : A} (h : Orderly ticks)
    (hacts : .acts c o a ∈ ticks) : Orderly (ticks ++ [.ends c a])

variable {ticks : List (Tick C O A)} {t : Tick C O A} {c : C} {o : O} {a : A}

theorem seen_append_singleton (ticks : List (Tick C O A)) (t : Tick C O A) :
    seen (ticks ++ [t]) = seen ticks ++ t.seen.toList := by
  rw [seen, List.filterMap_append]
  cases h : t.seen <;> simp [seen, h]

theorem effects_append_singleton (ticks : List (Tick C O A)) (t : Tick C O A) :
    effects (ticks ++ [t]) = effects ticks ++ t.effect.toList := by
  rw [effects, List.filterMap_append]
  cases h : t.effect <;> simp [effects, h]

theorem mem_effects : (c, o, a) ∈ effects ticks ↔ .acts c o a ∈ ticks := by
  rw [effects, List.mem_filterMap]
  constructor
  · rintro ⟨t, ht, he⟩
    cases t with
    | asks => cases he
    | acts =>
      cases he
      exact ht
    | ends => cases he
  · exact fun h => ⟨_, h, rfl⟩

theorem asked_mem_seen : .asked c o ∈ seen ticks ↔ .asks c o ∈ ticks := by
  rw [seen, List.mem_filterMap]
  constructor
  · rintro ⟨t, ht, he⟩
    cases t with
    | asks =>
      cases he
      exact ht
    | acts => cases he
    | ends => cases he
  · exact fun h => ⟨_, h, rfl⟩

theorem answered_mem_seen : .answered c a ∈ seen ticks ↔ .ends c a ∈ ticks := by
  rw [seen, List.mem_filterMap]
  constructor
  · rintro ⟨t, ht, he⟩
    cases t with
    | asks => cases he
    | acts => cases he
    | ends =>
      cases he
      exact ht
  · exact fun h => ⟨_, h, rfl⟩

/-- What took effect was asked. -/
theorem Orderly.asked (h : Orderly ticks) (ha : .acts c o a ∈ ticks) : .asks c o ∈ ticks := by
  induction h with
  | nil => cases ha
  | asks h hnew ih =>
    rcases List.mem_append.mp ha with ha | ha
    · exact List.mem_append_left _ (ih ha)
    · cases List.mem_singleton.mp ha
  | acts h hasked hnew ih =>
    rcases List.mem_append.mp ha with ha | ha
    · exact List.mem_append_left _ (ih ha)
    · cases List.mem_singleton.mp ha
      exact List.mem_append_left _ hasked
  | ends h hacts ih =>
    rcases List.mem_append.mp ha with ha | ha
    · exact List.mem_append_left _ (ih ha)
    · cases List.mem_singleton.mp ha

/-- What is answered took effect. -/
theorem Orderly.acted (h : Orderly ticks) (he : .ends c a ∈ ticks) :
    ∃ o, .acts c o a ∈ ticks := by
  induction h with
  | nil => cases he
  | asks h hnew ih =>
    rcases List.mem_append.mp he with he | he
    · obtain ⟨o, ho⟩ := ih he
      exact ⟨o, List.mem_append_left _ ho⟩
    · cases List.mem_singleton.mp he
  | acts h hasked hnew ih =>
    rcases List.mem_append.mp he with he | he
    · obtain ⟨o, ho⟩ := ih he
      exact ⟨o, List.mem_append_left _ ho⟩
    · cases List.mem_singleton.mp he
  | ends h hacts ih =>
    rcases List.mem_append.mp he with he | he
    · obtain ⟨o, ho⟩ := ih he
      exact ⟨o, List.mem_append_left _ ho⟩
    · cases List.mem_singleton.mp he
      exact ⟨_, List.mem_append_left _ hacts⟩

/-- Nobody asks twice. -/
theorem Orderly.asked_unique (h : Orderly ticks) {o' : O} (ho : .asks c o ∈ ticks)
    (ho' : .asks c o' ∈ ticks) : o = o' := by
  induction h with
  | nil => cases ho
  | asks h hnew ih =>
    rcases List.mem_append.mp ho with hold | hlast <;>
      rcases List.mem_append.mp ho' with hold' | hlast'
    · exact ih hold hold'
    · cases List.mem_singleton.mp hlast'
      exact absurd hold (hnew o)
    · cases List.mem_singleton.mp hlast
      exact absurd hold' (hnew o')
    · cases List.mem_singleton.mp hlast
      cases List.mem_singleton.mp hlast'
      rfl
  | acts h hasked hnew ih => exact ih (by simpa using ho) (by simpa using ho')
  | ends h hacts ih => exact ih (by simpa using ho) (by simpa using ho')

/-- No call takes effect twice. -/
theorem Orderly.nodup (h : Orderly ticks) : ((effects ticks).map Prod.fst).Nodup := by
  induction h with
  | nil => exact List.nodup_nil
  | asks h hnew ih =>
    rw [effects_append_singleton]
    simpa [Tick.effect] using ih
  | @acts ticks c o a h hasked hnew ih =>
    have hfresh : ∀ x ∈ effects ticks, x.1 ≠ c := by
      rintro ⟨d, o', a'⟩ hx rfl
      exact hnew o' a' (mem_effects.mp hx)
    rw [effects_append_singleton, List.map_append, List.nodup_append]
    refine ⟨ih, List.nodup_singleton _, fun d hd e he => ?_⟩
    obtain ⟨x, hx, rfl⟩ := List.mem_map.mp hd
    obtain rfl := List.mem_singleton.mp he
    exact hfresh x hx
  | ends h hacts ih =>
    rw [effects_append_singleton]
    simpa [Tick.effect] using ih

/-- Of two elements in order, the second is the new one or both are old. -/
theorem pair_sublist_snoc {α : Type*} {x y z : α} {xs : List α}
    (h : [x, y].Sublist (xs ++ [z])) : [x, y].Sublist xs ∨ x ∈ xs ∧ y = z := by
  obtain ⟨ys, zs, he, hys, hzs⟩ := List.sublist_append_iff.mp h
  rcases List.sublist_singleton.mp hzs with rfl | rfl
  · left
    rwa [he, List.append_nil]
  · right
    cases ys with
    | nil => cases he
    | cons w ys =>
      obtain ⟨rfl, hrest⟩ := List.cons.inj he
      cases ys with
      | nil => exact ⟨List.singleton_sublist.mp hys, (List.cons.inj hrest).1⟩
      | cons v ys => exact absurd (List.cons.inj hrest).2 (by simp)

/-- A call that is answered took effect before one that is asked behind that. -/
theorem Orderly.order (h : Orderly ticks) {d : C} {p : O}
    (hseen : [.answered c a, .asked d p].Sublist (seen ticks))
    (hd : d ∈ (effects ticks).map Prod.fst) : [c, d].Sublist ((effects ticks).map Prod.fst) := by
  induction h with
  | nil => cases hd
  | @asks ticks e q h hnew ih =>
    rw [effects_append_singleton] at hd ⊢
    rw [seen_append_singleton] at hseen
    have hold : d ∈ (effects ticks).map Prod.fst := by simpa [Tick.effect] using hd
    rcases pair_sublist_snoc hseen with hseen | ⟨-, hlast⟩
    · simpa [Tick.effect] using ih hseen hold
    · -- the call asked last has not taken effect
      cases hlast
      obtain ⟨⟨d, o', a'⟩, hx, rfl⟩ := List.mem_map.mp hold
      exact absurd (h.asked (mem_effects.mp hx)) (hnew o')
  | @acts ticks e q b h hasked hnew ih =>
    rw [effects_append_singleton] at hd ⊢
    rw [seen_append_singleton] at hseen
    have hold : [.answered c a, .asked d p].Sublist (seen ticks) := by
      simpa [Tick.seen] using hseen
    rw [List.map_append] at hd ⊢
    rcases List.mem_append.mp hd with hd | hd
    · exact (ih hold hd).trans (List.sublist_append_left _ _)
    · obtain rfl : d = e := List.mem_singleton.mp hd
      obtain ⟨o', ho⟩ := h.acted (answered_mem_seen.mp (hold.subset List.mem_cons_self))
      have hc : [c].Sublist ((effects ticks).map Prod.fst) :=
        List.singleton_sublist.mpr (List.mem_map.mpr ⟨_, mem_effects.mpr ho, rfl⟩)
      exact hc.append (List.Sublist.refl [d])
  | @ends ticks e q b h hacts ih =>
    rw [effects_append_singleton] at hd ⊢
    rw [seen_append_singleton] at hseen
    have hold : d ∈ (effects ticks).map Prod.fst := by simpa [Tick.effect] using hd
    rcases pair_sublist_snoc hseen with hseen | ⟨-, hlast⟩
    · simpa [Tick.effect] using ih hseen hold
    · cases hlast

/-- Of two callers in order, the calls are in order. -/
theorem exists_split {calls : List (C × A)} {c d : C}
    (h : [c, d].Sublist (calls.map Prod.fst)) :
    ∃ before a between b after,
      calls = before ++ (c, a) :: (between ++ (d, b) :: after) := by
  obtain ⟨pair, hpair, he⟩ := List.sublist_map_iff.mp h
  obtain ⟨x, rest, rfl, rfl, hrest⟩ := List.map_eq_cons_iff.mp he.symm
  obtain ⟨y, rest', rfl, rfl, hrest'⟩ := List.map_eq_cons_iff.mp hrest
  obtain ⟨front, back, rfl, hx, hy⟩ := List.cons_sublist_iff.mp hpair
  obtain ⟨before, between, rfl⟩ := List.append_of_mem hx
  obtain ⟨between', after, rfl⟩ :=
    List.append_of_mem (hy.subset List.mem_cons_self)
  exact ⟨before, x.2, between ++ between', y.2, after, by simp⟩

/-- The order of the effects explains what is seen. -/
theorem Orderly.explains (h : Orderly ticks) {legal : List (O × A) → Prop}
    (hlegal : legal ((effects ticks).map Prod.snd)) :
    Explains legal (seen ticks) (effects ticks) where
  legal := hlegal
  nodup := h.nodup
  asked _ hx := asked_mem_seen.mpr (h.asked (mem_effects.mp hx))
  answered c a ha := by
    obtain ⟨o, ho⟩ := h.acted (answered_mem_seen.mp ha)
    exact ⟨o, mem_effects.mpr ho⟩
  order c a d o hseen hd := h.order hseen hd

end Linear
