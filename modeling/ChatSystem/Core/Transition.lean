import Mathlib.Data.List.Basic

/-!
# Runs of a partial step function

A system is a step function that refuses the labels its state does not allow.
A run is a list of labels. Invariants are proved for one step and hold along
every run, also for the runs whose steps all meet a side condition.
-/

namespace Transition

variable {σ ℓ : Type*} (step : σ → ℓ → Option σ)

/-- Execute the labels one after the other, refusing the run at the first refused label. -/
def run : σ → List ℓ → Option σ
  | s, [] => some s
  | s, l :: ls => (step s l).bind fun s' => run s' ls

/-- Every step of the run meets `ok` in the state it starts from. -/
def Meets (ok : σ → ℓ → Prop) : σ → List ℓ → Prop
  | _, [] => True
  | s, l :: ls => ok s l ∧ ∀ s', step s l = some s' → Meets ok s' ls

/-- What the steps of a run give, one after the other. -/
def collect {β : Type*} (f : σ → ℓ → List β) : σ → List ℓ → List β
  | _, [] => []
  | s, l :: ls => f s l ++ (step s l).elim [] fun s' => collect f s' ls

/-- Some run leads from the initial state to `s`. -/
def Reachable (init s : σ) : Prop := ∃ ls, run step init ls = some s

variable {step}

@[simp] theorem run_nil (s : σ) : run step s [] = some s := rfl

theorem run_cons_iff {s t : σ} {l : ℓ} {ls : List ℓ} :
    run step s (l :: ls) = some t ↔ ∃ s', step s l = some s' ∧ run step s' ls = some t := by
  simp only [run, Option.bind_eq_some_iff]

theorem collect_cons {β : Type*} {f : σ → ℓ → List β} {s s' : σ} {l : ℓ} {ls : List ℓ}
    (h : step s l = some s') : collect step f s (l :: ls) = f s l ++ collect step f s' ls := by
  rw [collect, h, Option.elim_some]

theorem mem_collect {β : Type*} {f : σ → ℓ → List β} {s : σ} {ls : List ℓ} {x : β}
    (h : x ∈ collect step f s ls) : ∃ t l, l ∈ ls ∧ x ∈ f t l := by
  induction ls generalizing s with
  | nil => cases h
  | cons l ls ih =>
    rw [collect, List.mem_append] at h
    rcases h with h | h
    · exact ⟨s, l, List.mem_cons_self, h⟩
    · cases hs : step s l with
      | none =>
        rw [hs] at h
        cases h
      | some s' =>
        rw [hs] at h
        obtain ⟨t, k, hk, hx⟩ := ih h
        exact ⟨t, k, List.mem_cons_of_mem _ hk, hx⟩

theorem run_append (s : σ) (ks ls : List ℓ) :
    run step s (ks ++ ls) = (run step s ks).bind fun s' => run step s' ls := by
  induction ks generalizing s with
  | nil => rfl
  | cons k ks ih =>
    simp only [List.cons_append, run]
    cases step s k with
    | none => rfl
    | some s' => exact ih s'

/-- Runs compose. -/
theorem run_trans {s t u : σ} {ks ls : List ℓ} (hk : run step s ks = some t)
    (hl : run step t ls = some u) : run step s (ks ++ ls) = some u := by
  rw [run_append, hk]
  exact hl

theorem Meets.append {ok : σ → ℓ → Prop} {s t : σ} {ks ls : List ℓ} (hk : Meets step ok s ks)
    (hrun : run step s ks = some t) (hl : Meets step ok t ls) : Meets step ok s (ks ++ ls) := by
  induction ks generalizing s with
  | nil =>
    rw [run_nil, Option.some.injEq] at hrun
    exact hrun ▸ hl
  | cons k ks ih =>
    refine ⟨hk.1, fun s' hs => ?_⟩
    obtain ⟨s'', hs'', hrest⟩ := run_cons_iff.mp hrun
    obtain rfl := Option.some.inj (hs''.symm.trans hs)
    exact ih (hk.2 s'' hs'') hrest

/-- A condition met by every label in every state is met by every run. -/
theorem meets_of_forall {ok : σ → ℓ → Prop} {ls : List ℓ} (h : ∀ l ∈ ls, ∀ s, ok s l) (s : σ) :
    Meets step ok s ls := by
  induction ls generalizing s with
  | nil => trivial
  | cons l ls ih =>
    exact ⟨h l List.mem_cons_self s, fun s' _ => ih (fun k hk => h k (List.mem_cons_of_mem _ hk)) s'⟩

theorem Meets.and {ok ok' : σ → ℓ → Prop} {s : σ} {ls : List ℓ} (h : Meets step ok s ls)
    (h' : Meets step ok' s ls) : Meets step (fun s l => ok s l ∧ ok' s l) s ls := by
  induction ls generalizing s with
  | nil => trivial
  | cons l ls ih => exact ⟨⟨h.1, h'.1⟩, fun s' hs => ih (h.2 s' hs) (h'.2 s' hs)⟩

/-- Side conditions that agree where the invariant holds are met by the same runs. -/
theorem meets_congr {ok ok' : σ → ℓ → Prop} {I : σ → Prop}
    (hinv : ∀ s l s', I s → step s l = some s' → I s') (h : ∀ s l, I s → (ok s l ↔ ok' s l))
    {s : σ} (hs : I s) (ls : List ℓ) : Meets step ok s ls ↔ Meets step ok' s ls := by
  induction ls generalizing s with
  | nil => exact Iff.rfl
  | cons l ls ih =>
    apply and_congr (h s l hs)
    apply forall_congr'
    intro s'
    apply forall_congr'
    intro hl
    exact ih (hinv s l s' hs hl)

theorem Reachable.refl (init : σ) : Reachable step init init := ⟨[], rfl⟩

/-- One more step keeps a state reachable. -/
theorem Reachable.snoc {init s s' : σ} (h : Reachable step init s) {l : ℓ}
    (hl : step s l = some s') : Reachable step init s' := by
  obtain ⟨ls, hls⟩ := h
  exact ⟨ls ++ [l], by simp [run_append, hls, run, hl]⟩

/-- A property kept by every step that meets `ok` holds after every run that meets `ok`. -/
theorem run_invariant_of_meets {ok : σ → ℓ → Prop} {I : σ → Prop}
    (hstep : ∀ s l s', ok s l → I s → step s l = some s' → I s')
    {s t : σ} {ls : List ℓ} (hok : Meets step ok s ls) (hs : I s)
    (hrun : run step s ls = some t) : I t := by
  induction ls generalizing s with
  | nil =>
    rw [run_nil, Option.some.injEq] at hrun
    exact hrun ▸ hs
  | cons l ls ih =>
    obtain ⟨s', hl, hrest⟩ := run_cons_iff.mp hrun
    exact ih (hok.2 s' hl) (hstep s l s' hok.1 hs hl) hrest

/-- A side condition whose first violation breaks `P` at once holds along a run exactly if `P`
holds after every part of the run. -/
theorem forall_prefix_iff_meets {ok : σ → ℓ → Prop} {I P : σ → Prop} (hP : ∀ s, I s → P s)
    (hstep : ∀ s l s', ok s l → I s → step s l = some s' → I s')
    (hbreak : ∀ s l s', I s → ¬ ok s l → step s l = some s' → ¬ P s')
    {s t : σ} {ls : List ℓ} (hs : I s) (hrun : run step s ls = some t) :
    (∀ ks s', ks <+: ls → run step s ks = some s' → P s') ↔ Meets step ok s ls := by
  induction ls generalizing s with
  | nil =>
    constructor
    · exact fun _ => trivial
    · intro _ ks s' hks hrun'
      obtain rfl := List.prefix_nil.mp hks
      obtain rfl := Option.some.inj hrun'
      exact hP s hs
  | cons l ls ih =>
    obtain ⟨s₁, hs₁, hrest⟩ := run_cons_iff.mp hrun
    constructor
    · intro hall
      have hl : ok s l := by
        by_contra hl
        exact hbreak s l s₁ hs hl hs₁
          (hall [l] s₁ (List.prefix_append [l] ls) (run_cons_iff.mpr ⟨s₁, hs₁, rfl⟩))
      refine ⟨hl, fun s' hs' => ?_⟩
      obtain rfl := Option.some.inj (hs₁.symm.trans hs')
      refine (ih (hstep s l s₁ hl hs hs₁) hrest).mp fun ks s' hks hrun' => ?_
      exact hall (l :: ks) s' ((List.prefix_cons_inj l).mpr hks)
        (run_cons_iff.mpr ⟨s₁, hs₁, hrun'⟩)
    · rintro ⟨hl, hmeets⟩ ks s' hks hrun'
      cases ks with
      | nil =>
        obtain rfl := Option.some.inj hrun'
        exact hP s hs
      | cons k ks =>
        obtain ⟨rfl, hks'⟩ := List.cons_prefix_cons.mp hks
        obtain ⟨s', hs', hrest'⟩ := run_cons_iff.mp hrun'
        obtain rfl := Option.some.inj (hs₁.symm.trans hs')
        exact (ih (hstep s k s₁ hl hs hs₁) hrest).mpr (hmeets s₁ hs₁) ks _ hks' hrest'

/-- A property kept by every step holds after every run. -/
theorem run_invariant {I : σ → Prop} (hstep : ∀ s l s', I s → step s l = some s' → I s')
    {s t : σ} {ls : List ℓ} (hs : I s) (hrun : run step s ls = some t) : I t := by
  induction ls generalizing s with
  | nil =>
    rw [run_nil, Option.some.injEq] at hrun
    exact hrun ▸ hs
  | cons l ls ih =>
    obtain ⟨s', hl, hrest⟩ := run_cons_iff.mp hrun
    exact ih (hstep s l s' hs hl) hrest

/-- A side condition that keeps `G` and whose first violation leads to `B` for good holds along
the runs that end in `G`, and fails along those that end in `B`. -/
theorem meets_or_broken {ok : σ → ℓ → Prop} {I G B : σ → Prop}
    (hinv : ∀ s l s', I s → step s l = some s' → I s')
    (hkeep : ∀ s l s', I s → G s → ok s l → step s l = some s' → G s')
    (hbreak : ∀ s l s', I s → ¬ ok s l → step s l = some s' → B s')
    (hstay : ∀ s l s', I s → B s → step s l = some s' → B s')
    {s t : σ} {ls : List ℓ} (hs : I s) (hg : G s) (hrun : run step s ls = some t) :
    Meets step ok s ls ∧ G t ∨ ¬ Meets step ok s ls ∧ B t := by
  induction ls generalizing s with
  | nil =>
    obtain rfl := Option.some.inj hrun
    exact Or.inl ⟨trivial, hg⟩
  | cons l ls ih =>
    obtain ⟨s₁, hs₁, hrest⟩ := run_cons_iff.mp hrun
    have hi := hinv s l s₁ hs hs₁
    by_cases hl : ok s l
    · rcases ih hi (hkeep s l s₁ hs hg hl hs₁) hrest with ⟨hm, ht⟩ | ⟨hm, ht⟩
      · refine Or.inl ⟨⟨hl, fun s' hs' => ?_⟩, ht⟩
        obtain rfl := Option.some.inj (hs₁.symm.trans hs')
        exact hm
      · exact Or.inr ⟨fun h => hm (h.2 s₁ hs₁), ht⟩
    · refine Or.inr ⟨fun h => hl h.1, ?_⟩
      have hb := hbreak s l s₁ hs hl hs₁
      exact (run_invariant (I := fun s => I s ∧ B s)
        (fun s l s' h hs => ⟨hinv s l s' h.1 hs, hstay s l s' h.1 h.2 hs⟩) ⟨hi, hb⟩ hrest).2

/-- Check a side condition along a run. -/
def check (step : σ → ℓ → Option σ) (ok : σ → ℓ → Bool) : σ → List ℓ → Bool
  | _, [] => true
  | s, l :: ls => ok s l && (step s l).all fun s' => check step ok s' ls

theorem meets_of_check {ok : σ → ℓ → Prop} {test : σ → ℓ → Bool}
    (htest : ∀ s l, test s l = true → ok s l) {s : σ} {ls : List ℓ}
    (h : check step test s ls = true) : Meets step ok s ls := by
  induction ls generalizing s with
  | nil => trivial
  | cons l ls ih =>
    rw [check, Bool.and_eq_true] at h
    refine ⟨htest s l h.1, fun s' hs' => ih ?_⟩
    rw [hs'] at h
    exact h.2

/-- An inductive invariant holds in every reachable state. -/
theorem Reachable.invariant {init s : σ} {I : σ → Prop} (h : Reachable step init s) (hi : I init)
    (hstep : ∀ s l s', I s → step s l = some s' → I s') : I s := by
  obtain ⟨ls, hls⟩ := h
  exact run_invariant hstep hi hls

end Transition
