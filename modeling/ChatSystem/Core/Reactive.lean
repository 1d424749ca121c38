import Mathlib.Data.List.Basic
import Mathlib.Data.List.Forall2

/-!
# Event handlers

A deterministic handler takes one event after the other and puts out a list of items for
each. A condition on events may hold along a run; relations between two runs are proved for
one event each, together with what an observer sees of the output, and hold for whole runs.
-/

namespace Reactive

variable {σ τ ε δ ω ω' α : Type*}

/-- The state behind a list of events. -/
def after (f : σ → ε → σ × List ω) (s : σ) (es : List ε) : σ := es.foldl (fun s e => (f s e).1) s

/-- The output for a list of events. -/
def outputs (f : σ → ε → σ × List ω) : σ → List ε → List ω
  | _, [] => []
  | s, e :: es => (f s e).2 ++ outputs f (f s e).1 es

/-- Every event meets `ok` in the state it is handled in. -/
def Along (f : σ → ε → σ × List ω) (ok : σ → ε → Prop) : σ → List ε → Prop
  | _, [] => True
  | s, e :: es => ok s e ∧ Along f ok (f s e).1 es

variable {f : σ → ε → σ × List ω} {g : τ → δ → τ × List ω'} {s : σ} {t : τ} {e : ε} {es : List ε}
  {ds : List δ} {ok ok' : σ → ε → Prop}

@[simp] theorem after_nil : after f s [] = s := rfl

@[simp] theorem after_cons : after f s (e :: es) = after f (f s e).1 es := rfl

@[simp] theorem outputs_nil : outputs f s [] = [] := rfl

@[simp] theorem outputs_cons : outputs f s (e :: es) = (f s e).2 ++ outputs f (f s e).1 es := rfl

theorem after_append (ds es : List ε) : after f s (ds ++ es) = after f (after f s ds) es :=
  List.foldl_append

theorem outputs_append (ds es : List ε) :
    outputs f s (ds ++ es) = outputs f s ds ++ outputs f (after f s ds) es := by
  induction ds generalizing s with
  | nil => rfl
  | cons d ds ih =>
    simp only [List.cons_append, outputs_cons, after_cons, ih, List.append_assoc]

/-- A condition holds along a run exactly if it holds wherever the run is cut. -/
theorem along_iff : Along f ok s es ↔
    ∀ past e future, es = past ++ e :: future → ok (after f s past) e := by
  induction es generalizing s with
  | nil =>
    constructor
    · intro _ past e future h
      simp at h
    · exact fun _ => trivial
  | cons e es ih =>
    constructor
    · rintro ⟨he, hes⟩ past e' future h
      cases past with
      | nil =>
        obtain ⟨rfl, -⟩ := List.cons.inj h
        exact he
      | cons d past =>
        obtain ⟨rfl, hrest⟩ := List.cons.inj h
        exact ih.mp hes past e' future hrest
    · intro h
      constructor
      · exact h [] e es rfl
      · apply ih.mpr
        intro past e' future hes
        exact h (e :: past) e' future (by rw [hes]; rfl)

theorem Along.mono (h : Along f ok s es) (himp : ∀ s e, ok s e → ok' s e) : Along f ok' s es := by
  rw [along_iff] at h ⊢
  exact fun past e future hes => himp _ _ (h past e future hes)

theorem Along.and (h : Along f ok s es) (h' : Along f ok' s es) :
    Along f (fun s e => ok s e ∧ ok' s e) s es := by
  rw [along_iff] at h h' ⊢
  exact fun past e future hes => ⟨h past e future hes, h' past e future hes⟩

/-- The condition holds along the part of a run before an event. -/
theorem Along.past {past future : List ε} (h : Along f ok s (past ++ future)) :
    Along f ok s past := by
  rw [along_iff] at h ⊢
  intro past' e future' hes
  exact h past' e (future' ++ future) (by rw [hes]; simp)

theorem along_trivial (f : σ → ε → σ × List ω) (s : σ) (es : List ε) :
    Along f (fun _ _ => True) s es :=
  along_iff.mpr fun _ _ _ _ => trivial

/-- What holds at the start and behind every event holds in front of every event. -/
theorem Along.before {I : σ → Prop} (hs : I s) (h : Along f (fun s e => I (f s e).1) s es) :
    Along f (fun s e => I s ∧ I (f s e).1) s es := by
  induction es generalizing s with
  | nil => trivial
  | cons e es ih => exact ⟨⟨hs, h.1⟩, ih h.1 h.2⟩

/-- What every handled event keeps holds behind the run. -/
theorem after_invariant {I : σ → Prop} (hstep : ∀ s e, I s → ok s e → I (f s e).1)
    (hs : I s) (hok : Along f ok s es) : I (after f s es) := by
  induction es generalizing s with
  | nil => exact hs
  | cons e es ih => exact ih (hstep s e hs hok.1) hok.2

/-- Conditions that are equivalent in the states of an invariant hold along the same runs. -/
theorem along_congr {I : σ → Prop} (hinv : ∀ s e, I s → I (f s e).1)
    (hiff : ∀ s e, I s → (ok s e ↔ ok' s e)) (hs : I s) : Along f ok s es ↔ Along f ok' s es := by
  induction es generalizing s with
  | nil => exact Iff.rfl
  | cons e es ih => exact and_congr (hiff s e hs) (ih (hinv s e hs))

/-- A relation of two handlers that every event keeps holds behind every run. -/
theorem after_rel {g : τ → ε → τ × List ω'} {R : σ → τ → Prop}
    (hstep : ∀ s t e, R s t → R (f s e).1 (g t e).1) (hs : R s t) (es : List ε) :
    R (after f s es) (after g t es) := by
  induction es generalizing s t with
  | nil => exact hs
  | cons e es ih => exact ih (hstep s t e hs)

/-- A relation of two handlers and one of their outputs that every event keeps hold of whole
runs. -/
theorem run_rel {g : τ → ε → τ × List ω'} {R : σ → τ → Prop} {Q : List ω → List ω' → Prop}
    (hnil : Q [] []) (happend : ∀ a b c d, Q a b → Q c d → Q (a ++ c) (b ++ d))
    (hstep : ∀ s t e, R s t → R (f s e).1 (g t e).1 ∧ Q (f s e).2 (g t e).2)
    (hs : R s t) (es : List ε) :
    R (after f s es) (after g t es) ∧ Q (outputs f s es) (outputs g t es) := by
  induction es generalizing s t with
  | nil => exact ⟨hs, hnil⟩
  | cons e es ih =>
    obtain ⟨hr, hq⟩ := hstep s t e hs
    obtain ⟨hr', hq'⟩ := ih hr
    exact ⟨hr', happend _ _ _ _ hq hq'⟩

/-- A relation that kept events keep on both sides and the others, unseen, on the first side
alone. -/
theorem rel_of_filter {g : τ → ε → τ × List ω} {R : σ → τ → Prop} {keep : ε → Bool}
    {v : ω → Option α}
    (hkept : ∀ s t e, R s t → ok s e → keep e = true →
      R (f s e).1 (g t e).1 ∧ (f s e).2.filterMap v = (g t e).2.filterMap v)
    (hdropped : ∀ s t e, R s t → ok s e → keep e = false →
      R (f s e).1 t ∧ (f s e).2.filterMap v = [])
    (hs : R s t) (hok : Along f ok s es) :
    R (after f s es) (after g t (es.filter keep)) ∧
      (outputs f s es).filterMap v = (outputs g t (es.filter keep)).filterMap v := by
  induction es generalizing s t with
  | nil => exact ⟨hs, rfl⟩
  | cons e es ih =>
    cases he : keep e with
    | true =>
      obtain ⟨h₁, h₂⟩ := hkept s t e hs hok.1 he
      obtain ⟨h₃, h₄⟩ := ih h₁ hok.2
      rw [List.filter_cons_of_pos he]
      refine ⟨h₃, ?_⟩
      simp only [outputs_cons, List.filterMap_append, h₂, h₄]
    | false =>
      obtain ⟨h₁, h₂⟩ := hdropped s t e hs hok.1 he
      obtain ⟨h₃, h₄⟩ := ih h₁ hok.2
      rw [List.filter_cons_of_neg (by simp [he])]
      refine ⟨h₃, ?_⟩
      simp only [outputs_cons, List.filterMap_append, h₂, h₄, List.nil_append]

end Reactive
