import Mathlib.Algebra.BigOperators.Finprod
import Mathlib.Algebra.Order.BigOperators.Group.Finset
import ChatSystem.Core.Transition

/-!
# Work that is paid for

Work that lowers a measure ends, and where it can be done as long as the system does not rest, it
ends at rest. A measure may add up what is at the places of an unbounded state of which only
finitely many hold something.
-/

namespace Budget

section Runs

variable {σ ℓ : Type*} {step : σ → ℓ → Option σ} {works : σ → ℓ → Prop} {I : σ → Prop}
  {measure : σ → Nat}

/-- A schedule of work takes no more steps than the measure says. -/
theorem length_le (hkeep : ∀ s l s', I s → works s l → step s l = some s' → I s')
    (hless : ∀ s l s', I s → works s l → step s l = some s' → measure s' < measure s) {s t : σ}
    {ls : List ℓ} (hs : I s) (hw : Transition.Meets step works s ls)
    (hrun : Transition.run step s ls = some t) : ls.length + measure t ≤ measure s := by
  induction ls generalizing s with
  | nil =>
    obtain rfl := Option.some.inj hrun
    exact (Nat.zero_add _).le
  | cons l ls ih =>
    obtain ⟨s', hstep, hrest⟩ := Transition.run_cons_iff.mp hrun
    have hle := ih (hkeep s l s' hs hw.1 hstep) (hw.2 s' hstep) hrest
    have hlt := hless s l s' hs hw.1 hstep
    rw [List.length_cons]
    omega

/-- Where work can be done as long as the system does not rest, a schedule of work ends at rest. -/
theorem exists_rest (rests : σ → Prop)
    (hkeep : ∀ s l s', I s → works s l → step s l = some s' → I s')
    (hless : ∀ s l s', I s → works s l → step s l = some s' → measure s' < measure s)
    (hgo : ∀ s, I s → ¬ rests s → ∃ l, works s l ∧ (step s l).isSome) {s : σ}
    (hs : I s) : ∃ ls t, Transition.Meets step works s ls ∧ Transition.run step s ls = some t ∧
      I t ∧ rests t := by
  generalize hn : measure s = n
  induction n using Nat.strong_induction_on generalizing s with
  | _ n ih =>
    by_cases hrest : rests s
    · exact ⟨[], s, trivial, rfl, hs, hrest⟩
    · obtain ⟨l, hw, hsome⟩ := hgo s hs hrest
      obtain ⟨s', hstep⟩ := Option.isSome_iff_exists.mp hsome
      have hlt := hless s l s' hs hw hstep
      obtain ⟨ls, t, hmeets, hrun, ht, hend⟩ := ih _ (hn ▸ hlt) (hkeep s l s' hs hw hstep) rfl
      refine ⟨l :: ls, t, ⟨hw, fun s₁ hs₁ => ?_⟩, Transition.run_cons_iff.mpr ⟨s', hstep, hrun⟩,
        ht, hend⟩
      obtain rfl := Option.some.inj (hstep.symm.trans hs₁)
      exact hmeets

end Runs

section Places

variable {α : Type*} {f g : α → Nat}

/-- What is at all places together. -/
noncomputable def total (f : α → Nat) : Nat := ∑ᶠ a, f a

theorem total_eq_sum {s : Finset α} (hs : f.support ⊆ s) : total f = ∑ a ∈ s, f a :=
  finsum_eq_sum_of_support_subset f hs

/-- Nothing is added but at some places. -/
theorem finite_support {s : Finset α} (hf : f.support.Finite) (h : ∀ a, a ∉ s → g a ≤ f a) :
    g.support.Finite := by
  refine (hf.union s.finite_toSet).subset fun a ha => ?_
  by_cases hs : a ∈ s
  · exact Or.inr hs
  · refine Or.inl fun hzero => ha ?_
    have hle := h a hs
    omega

/-- The total changes by what changes at some places, if nothing is added elsewhere. -/
theorem total_add_le [DecidableEq α] {s : Finset α} (hf : f.support.Finite)
    (h : ∀ a, a ∉ s → g a ≤ f a) :
    total g + ∑ a ∈ s, f a ≤ total f + ∑ a ∈ s, g a := by
  have hg := finite_support hf h
  have hfs : f.support ⊆ (hf.toFinset ∪ hg.toFinset ∪ s : Finset α) := by
    intro a ha
    simp [Function.mem_support.mp ha]
  have hgs : g.support ⊆ (hf.toFinset ∪ hg.toFinset ∪ s : Finset α) := by
    intro a ha
    simp [Function.mem_support.mp ha]
  have hsub : s ⊆ hf.toFinset ∪ hg.toFinset ∪ s := Finset.subset_union_right
  have hrest : ∑ a ∈ (hf.toFinset ∪ hg.toFinset ∪ s) \ s, g a ≤
      ∑ a ∈ (hf.toFinset ∪ hg.toFinset ∪ s) \ s, f a :=
    Finset.sum_le_sum fun a ha => h a (Finset.mem_sdiff.mp ha).2
  have hfsplit := Finset.sum_sdiff (f := f) hsub
  have hgsplit := Finset.sum_sdiff (f := g) hsub
  rw [total_eq_sum hfs, total_eq_sum hgs]
  omega

/-- The total behind a change at one place. -/
theorem total_add_le_of_ne [DecidableEq α] {a : α} (hf : f.support.Finite)
    (h : ∀ b, b ≠ a → g b ≤ f b) : total g + f a ≤ total f + g a := by
  have hle := total_add_le (s := {a}) (g := g) hf fun b hb => h b (by simpa using hb)
  rwa [Finset.sum_singleton, Finset.sum_singleton] at hle

end Places

end Budget
