import ChatSystem.Core.Reactive
import ChatSystem.Core.Transition

/-!
# Systems that do what a handler does

A system that keeps records is read as a handler: its state stands for a state of the handler,
its records for the events taken in and the items put out. A change of the system matches any
number of events. Steps that are matched one by one make runs that are matched.
-/

namespace Simulation

open Transition Reactive

variable {σ τ ε ω α β ℓ : Type*}

/-- How a system is read as a handler. -/
structure Reading (σ τ ε ω α β : Type*) where
  handle : τ → ε → τ × List ω
  /-- The state of the handler. -/
  state : σ → τ
  /-- What the system has recorded of its input, and what shows of an event there. -/
  heard : σ → List β
  hear : ε → Option β
  /-- What the system has recorded of its output, and what shows of an item there. -/
  said : σ → List α
  say : ω → Option α

namespace Reading

variable (V : Reading σ τ ε ω α β)

/-- A change of the system is what the handler does with some events. -/
structure Matches (a b : σ) (es : List ε) : Prop where
  state : V.state b = after V.handle (V.state a) es
  heard : V.heard b = V.heard a ++ es.filterMap V.hear
  said : V.said b = V.said a ++ (outputs V.handle (V.state a) es).filterMap V.say

variable {V} {a b c : σ} {e : ε} {es ds : List ε}

/-- A change that does not show matches no event. -/
theorem Matches.of_same (hstate : V.state b = V.state a) (hheard : V.heard b = V.heard a)
    (hsaid : V.said b = V.said a) : V.Matches a b [] :=
  ⟨hstate, by rw [hheard]; simp, by rw [hsaid]; simp⟩

theorem Matches.refl (a : σ) : V.Matches a a [] := .of_same rfl rfl rfl

/-- A change that matches one event. -/
theorem Matches.of_event (hstate : V.state b = (V.handle (V.state a) e).1)
    (hheard : V.heard b = V.heard a ++ (V.hear e).toList)
    (hsaid : V.said b = V.said a ++ (V.handle (V.state a) e).2.filterMap V.say) :
    V.Matches a b [e] := by
  refine ⟨hstate, ?_, ?_⟩
  · rw [hheard]
    cases he : V.hear e with
    | none => simp [he]
    | some x => simp [he]
  · rw [hsaid]
    simp

/-- Changes one after the other match the events one after the other. -/
theorem Matches.trans (h : V.Matches a b ds) (k : V.Matches b c es) :
    V.Matches a c (ds ++ es) := by
  refine ⟨?_, ?_, ?_⟩
  · rw [k.state, h.state, after_append]
  · rw [k.heard, h.heard, List.filterMap_append, List.append_assoc]
  · rw [k.said, h.said, h.state, outputs_append, List.filterMap_append, List.append_assoc]

/-- A run whose steps match events is matched by these events, each step by its own. -/
theorem matches_run {step : σ → ℓ → Option σ} {I : σ → Prop} {Q : ℓ → ε → Prop}
    (hinv : ∀ s l s', I s → step s l = some s' → I s')
    (hstep : ∀ s l s', I s → step s l = some s' →
      ∃ es, (∀ e ∈ es, Q l e) ∧ V.Matches s s' es)
    {s t : σ} {ls : List ℓ} (hs : I s) (hrun : run step s ls = some t) :
    ∃ ess, List.Forall₂ (fun l es => ∀ e ∈ es, Q l e) ls ess ∧ V.Matches s t ess.flatten := by
  induction ls generalizing s with
  | nil =>
    obtain rfl := Option.some.inj hrun
    exact ⟨[], .nil, .refl s⟩
  | cons l ls ih =>
    obtain ⟨s₁, hs₁, hrest⟩ := run_cons_iff.mp hrun
    obtain ⟨es, hq, hes⟩ := hstep s l s₁ hs hs₁
    obtain ⟨ess, hall, hess⟩ := ih (hinv s l s₁ hs hs₁) hrest
    exact ⟨es :: ess, .cons hq hall, hes.trans hess⟩

end Reading

/-- An event of a run is that of one of its steps. -/
theorem exists_of_mem_flatten {Q : ℓ → ε → Prop} {ls : List ℓ} {ess : List (List ε)} {e : ε}
    (h : List.Forall₂ (fun l es => ∀ e ∈ es, Q l e) ls ess) (he : e ∈ ess.flatten) :
    ∃ l ∈ ls, Q l e := by
  induction h with
  | nil => cases he
  | cons hq _ ih =>
    rcases List.mem_append.mp he with he | he
    · exact ⟨_, List.mem_cons_self, hq _ he⟩
    · obtain ⟨l, hl, hq⟩ := ih he
      exact ⟨l, List.mem_cons_of_mem _ hl, hq⟩

end Simulation
