import Mathlib.Data.Set.Card
import Mathlib.Logic.Function.Basic

/-!
# Bounded maps in an array of slots

A map of at most `n` keys is kept in an array of `n` slots: a key is searched from the
front, an absent key takes the first free slot, and a full array refuses it. As long as no
key stands in two slots, this is a map with last-write-wins.
-/

namespace SlotMap

variable {n : Nat} {K V : Type*} [DecidableEq K]

/-- The slots, each free or with a key and its value. -/
abbrev Slots (n : Nat) (K V : Type*) := Fin n → Option (K × V)

/-- The first slot that passes a test. -/
def first (p : Fin n → Bool) : Option (Fin n) := (List.finRange n).find? p

/-- The slot of a key. -/
def find (t : Slots n K V) (k : K) : Option (Fin n) :=
  first fun i => (t i).any fun e => e.1 = k

/-- The first free slot. -/
def free (t : Slots n K V) : Option (Fin n) := first fun i => (t i).isNone

/-- The value of a key. -/
def get (t : Slots n K V) (k : K) : Option V := (find t k).bind fun i => (t i).map Prod.snd

/-- Store a value under a key, in its slot or in the first free one. -/
def put (t : Slots n K V) (k : K) (v : V) : Option (Slots n K V) :=
  ((find t k).orElse fun _ => free t).map fun i => Function.update t i (some (k, v))

/-- No key stands in two slots. -/
def Distinct (t : Slots n K V) : Prop :=
  ∀ i j k v w, t i = some (k, v) → t j = some (k, w) → i = j

/-- The keys that are present. -/
def keys (m : K → Option V) : Set K := { k | m k ≠ none }

theorem first_eq_some {p : Fin n → Bool} {i : Fin n} (h : first p = some i) : p i = true :=
  List.find?_some h

theorem first_eq_none {p : Fin n → Bool} : first p = none ↔ ∀ i, p i = false := by
  rw [first, List.find?_eq_none]
  constructor
  · intro h i
    simpa using h i (List.mem_finRange i)
  · intro h i _
    simp [h i]

omit [DecidableEq K] in
/-- The empty array holds no key. -/
theorem distinct_empty : Distinct (fun _ => none : Slots n K V) := by
  intro i j k v w h
  cases h

variable {t t' : Slots n K V} {k : K} {v : V}

theorem find_eq_some {i : Fin n} (h : find t k = some i) : ∃ v, t i = some (k, v) := by
  have hi := first_eq_some h
  cases ht : t i with
  | none =>
    rw [ht] at hi
    cases hi
  | some e =>
    rw [ht] at hi
    obtain ⟨k', v⟩ := e
    obtain rfl : k' = k := by simpa using hi
    exact ⟨v, rfl⟩

theorem find_eq_none : find t k = none ↔ ∀ i v, t i ≠ some (k, v) := by
  rw [find, first_eq_none]
  constructor
  · intro h i v hi
    have := h i
    rw [hi] at this
    simp at this
  · intro h i
    cases ht : t i with
    | none => rfl
    | some e =>
      obtain ⟨k', v⟩ := e
      have hne : k' ≠ k := by
        rintro rfl
        exact h i v ht
      simpa using hne

/-- The search finds the slot of a key. -/
theorem Distinct.find_eq (h : Distinct t) {i : Fin n} (hi : t i = some (k, v)) :
    find t k = some i := by
  cases hf : find t k with
  | none => exact absurd hi (find_eq_none.mp hf i v)
  | some j =>
    obtain ⟨w, hj⟩ := find_eq_some hf
    rw [h j i k w v hj hi]

theorem Distinct.get_eq_some (h : Distinct t) :
    get t k = some v ↔ ∃ i, t i = some (k, v) := by
  constructor
  · intro hg
    obtain ⟨i, hi, hv⟩ := Option.bind_eq_some_iff.mp hg
    obtain ⟨w, hw⟩ := find_eq_some hi
    rw [hw] at hv
    obtain rfl := Option.some.inj hv
    exact ⟨i, hw⟩
  · rintro ⟨i, hi⟩
    rw [get, h.find_eq hi, Option.bind_some, hi]
    rfl

theorem get_eq_none : get t k = none ↔ ∀ i v, t i ≠ some (k, v) := by
  rw [← find_eq_none]
  constructor
  · intro hg
    cases hf : find t k with
    | none => rfl
    | some i =>
      obtain ⟨v, hv⟩ := find_eq_some hf
      rw [get, hf, Option.bind_some, hv] at hg
      cases hg
  · intro hf
    rw [get, hf]
    rfl

/-- A key is stored in a slot that was its own or free. -/
theorem put_eq_some (h : put t k v = some t') : ∃ i, t' = Function.update t i (some (k, v)) ∧
    ((∃ w, t i = some (k, w)) ∨ t i = none ∧ find t k = none) := by
  obtain ⟨i, hi, rfl⟩ := Option.map_eq_some_iff.mp h
  refine ⟨i, rfl, ?_⟩
  cases hf : find t k with
  | some j =>
    rw [hf] at hi
    obtain rfl := Option.some.inj hi
    exact Or.inl (find_eq_some hf)
  | none =>
    rw [hf] at hi
    exact Or.inr ⟨by simpa using first_eq_some hi, rfl⟩

theorem Distinct.put (h : Distinct t) (hput : put t k v = some t') : Distinct t' := by
  obtain ⟨i, rfl, hslot⟩ := put_eq_some hput
  have hother : ∀ j w, j ≠ i → t j ≠ some (k, w) := by
    intro j w hj ht
    rcases hslot with ⟨w', hi⟩ | ⟨-, hnone⟩
    · exact hj (h j i k w w' ht hi)
    · exact find_eq_none.mp hnone j w ht
  intro a b k' x y ha hb
  by_cases hai : a = i <;> by_cases hbi : b = i
  · rw [hai, hbi]
  · rw [hai, Function.update_self] at ha
    rw [Function.update_of_ne hbi] at hb
    obtain ⟨rfl, -⟩ := Prod.mk.inj (Option.some.inj ha)
    exact absurd hb (hother b y hbi)
  · rw [hbi, Function.update_self] at hb
    rw [Function.update_of_ne hai] at ha
    obtain ⟨rfl, -⟩ := Prod.mk.inj (Option.some.inj hb)
    exact absurd ha (hother a x hai)
  · rw [Function.update_of_ne hai] at ha
    rw [Function.update_of_ne hbi] at hb
    exact h a b k' x y ha hb

/-- Storing is an update of the map: the last write wins. -/
theorem Distinct.get_put (h : Distinct t) (hput : SlotMap.put t k v = some t') :
    get t' = Function.update (get t) k (some v) := by
  have h' := h.put hput
  obtain ⟨i, rfl, hslot⟩ := put_eq_some hput
  ext k' w
  rw [h'.get_eq_some]
  by_cases hk : k' = k
  · subst hk
    rw [Function.update_self]
    constructor
    · rintro ⟨j, hj⟩
      have hji : j = i := h' j i k' w v hj (Function.update_self ..)
      rw [hji, Function.update_self] at hj
      exact congrArg some (Prod.mk.inj (Option.some.inj hj)).2
    · intro hw
      exact ⟨i, by rw [Function.update_self, Option.some.inj hw]⟩
  · rw [Function.update_of_ne hk, h.get_eq_some]
    constructor
    · rintro ⟨j, hj⟩
      refine ⟨j, ?_⟩
      by_cases hji : j = i
      · rw [hji, Function.update_self] at hj
        exact absurd (Prod.mk.inj (Option.some.inj hj)).1.symm hk
      · rwa [Function.update_of_ne hji] at hj
    · rintro ⟨j, hj⟩
      refine ⟨j, ?_⟩
      have hji : j ≠ i := by
        rintro rfl
        rcases hslot with ⟨w', hi⟩ | ⟨hnone, -⟩
        · rw [hi] at hj
          exact hk (Prod.mk.inj (Option.some.inj hj)).1.symm
        · rw [hnone] at hj
          cases hj
      rwa [Function.update_of_ne hji]

/-- The array is full exactly if as many keys are present as there are slots. -/
theorem Distinct.full_iff (h : Distinct t) :
    (∀ i, (t i).isSome) ↔ (keys (get t)).ncard = n := by
  have hcard : { i | (t i).isSome = true }.ncard = (keys (get t)).ncard := by
    refine Set.ncard_congr (fun i hi => ((t i).get hi).1) ?_ ?_ ?_
    · intro i hi hnone
      exact get_eq_none.mp hnone i ((t i).get hi).2 (Option.some_get hi).symm
    · intro i j hi hj he
      obtain ⟨⟨k, v⟩, hv⟩ := Option.isSome_iff_exists.mp hi
      obtain ⟨⟨k', w⟩, hw⟩ := Option.isSome_iff_exists.mp hj
      simp only [hv, hw, Option.get_some] at he
      exact h i j k v w hv (he ▸ hw)
    · intro k hk
      obtain ⟨v, hv⟩ := Option.ne_none_iff_exists'.mp hk
      obtain ⟨i, hi⟩ := h.get_eq_some.mp hv
      exact ⟨i, by simp [hi], by simp [hi]⟩
  rw [← hcard]
  constructor
  · intro hall
    have : { i | (t i).isSome = true } = Set.univ := Set.eq_univ_of_forall hall
    rw [this, Set.ncard_univ, Nat.card_fin]
  · intro hn i
    have huniv : { i | (t i).isSome = true } = Set.univ := by
      refine Set.eq_of_subset_of_ncard_le (Set.subset_univ _) ?_
      rw [hn, Set.ncard_univ, Nat.card_fin]
    exact Set.eq_univ_iff_forall.mp huniv i

/-- Storing fails exactly for an absent key in a full array. -/
theorem Distinct.put_eq_none (h : Distinct t) :
    SlotMap.put t k v = none ↔ get t k = none ∧ (keys (get t)).ncard = n := by
  rw [← h.full_iff, get_eq_none, ← find_eq_none, SlotMap.put, Option.map_eq_none_iff]
  constructor
  · intro hnone
    cases hf : find t k with
    | some i =>
      rw [hf] at hnone
      cases hnone
    | none =>
      rw [hf] at hnone
      refine ⟨rfl, fun i => ?_⟩
      have := first_eq_none.mp hnone i
      cases ht : t i with
      | none =>
        rw [ht] at this
        cases this
      | some e => rfl
  · rintro ⟨hf, hall⟩
    rw [hf]
    refine first_eq_none.mpr fun i => ?_
    obtain ⟨e, he⟩ := Option.isSome_iff_exists.mp (hall i)
    rw [he]
    rfl

end SlotMap
