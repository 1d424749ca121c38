import Mathlib.Data.List.Infix
import Mathlib.Data.List.Basic
import Mathlib.Algebra.Order.BigOperators.Group.List
import Mathlib.Algebra.Order.Ring.Nat

/-!
# Joined texts

Texts joined with a separator, and texts that each end with one of a few closers. A closer
starts with a mark that does not occur in it again, and no closer is the front of another;
then the texts can be read back if no closer occurs in them.
-/

namespace Join

variable {α : Type*}

/-- One more item behind a joined list. -/
theorem intercalate_concat (sep : List α) (items : List (List α)) (x : List α) :
    sep.intercalate (items ++ [x]) =
      (if items.isEmpty then [] else sep.intercalate items ++ sep) ++ x := by
  induction items with
  | nil => simp [List.intercalate_singleton]
  | cons y items ih =>
    cases items with
    | nil => simp [List.intercalate_singleton, List.intercalate_cons_cons]
    | cons z items =>
      rw [List.cons_append, List.cons_append, List.intercalate_cons_cons, ← List.cons_append, ih]
      simp [List.intercalate_cons_cons]

/-- With the separator behind the last item too, every item ends with it. -/
theorem intercalate_append_sep (sep : List α) {items : List (List α)} (h : items ≠ []) :
    sep.intercalate items ++ sep = (items.map (· ++ sep)).flatten := by
  induction items with
  | nil => exact absurd rfl h
  | cons y items ih =>
    cases items with
    | nil => simp [List.intercalate_singleton]
    | cons z items =>
      rw [List.intercalate_cons_cons, List.map_cons, List.flatten_cons, ← ih (List.cons_ne_nil z items)]
      simp

/-- What a joined list is made of. -/
theorem mem_intercalate {sep : List α} {items : List (List α)} {a : α}
    (h : a ∈ sep.intercalate items) : a ∈ sep ∨ ∃ x ∈ items, a ∈ x := by
  induction items with
  | nil => cases h
  | cons y items ih =>
    cases items with
    | nil =>
      rw [List.intercalate_singleton] at h
      exact Or.inr ⟨y, List.mem_cons_self, h⟩
    | cons z items =>
      rw [List.intercalate_cons_cons, List.mem_append, List.mem_append] at h
      rcases h with (h | h) | h
      · exact Or.inr ⟨y, List.mem_cons_self, h⟩
      · exact Or.inl h
      · rcases ih h with hsep | ⟨x, hx, ha⟩
        · exact Or.inl hsep
        · exact Or.inr ⟨x, List.mem_cons_of_mem _ hx, ha⟩

theorem length_intercalate_le {sep : List α} {items : List (List α)} {n : Nat}
    (h : ∀ x ∈ items, x.length + sep.length ≤ n) :
    (sep.intercalate items).length ≤ n * items.length := by
  cases hitems : items with
  | nil => simp
  | cons y ys =>
    rw [← hitems]
    have hne : items ≠ [] := by simp [hitems]
    have hsum : (sep.intercalate items ++ sep).length ≤ n * items.length := by
      rw [intercalate_append_sep sep hne, List.length_flatten, List.map_map, Nat.mul_comm,
        ← List.length_map (f := List.length ∘ (· ++ sep))]
      apply List.sum_le_card_nsmul
      intro k hk
      obtain ⟨x, hx, rfl⟩ := List.mem_map.mp hk
      rw [Function.comp_apply, List.length_append]
      exact h x hx
    rw [List.length_append] at hsum
    omega

/-! ## Closers -/

/-- A family of closers that can be told apart. -/
structure Closers (mark : α) (ends : List (List α)) : Prop where
  head : ∀ c ∈ ends, ∃ t, c = mark :: t ∧ mark ∉ t
  apart : ∀ c ∈ ends, ∀ d ∈ ends, c <+: d → c = d

/-- No closer occurs in a text. -/
def Open (ends : List (List α)) (x : List α) : Prop := ∀ c ∈ ends, ¬ c <:+: x

variable {mark : α} {ends : List (List α)} {x y c d r s : List α}

/-- An earlier closer would occur in the longer text. -/
theorem Closers.length_le (h : Closers mark ends) (hy : Open ends y) (hc : c ∈ ends)
    (hd : d ∈ ends) (he : x ++ c ++ r = y ++ d ++ s) : y.length ≤ x.length := by
  by_contra hlt
  rw [Nat.not_le] at hlt
  obtain ⟨t, rfl, ht⟩ := h.head c hc
  obtain ⟨u, rfl, -⟩ := h.head d hd
  rw [List.append_assoc, List.append_assoc] at he
  obtain ⟨z, rfl⟩ : x <+: y :=
    List.prefix_of_prefix_length_le ⟨_, he⟩ (List.prefix_append _ _) hlt.le
  rw [List.append_assoc, List.append_cancel_left_eq] at he
  -- the mark of the closer behind `y` cannot stand inside the closer behind `x`
  have hfits : (mark :: t).length ≤ z.length := by
    by_contra hover
    rw [Nat.not_le] at hover
    have hpre : z <+: mark :: t :=
      List.prefix_of_prefix_length_le ⟨_, he.symm⟩ (List.prefix_append _ _) hover.le
    obtain ⟨w, hw⟩ := hpre
    cases z with
    | nil =>
      rw [List.append_nil] at hlt
      exact Nat.lt_irrefl _ hlt
    | cons b z =>
      rw [List.cons_append, List.cons.injEq] at hw
      rw [← hw.2, ← hw.1, List.cons_append, List.cons_append, List.cons.injEq,
        List.append_assoc, List.append_cancel_left_eq] at he
      cases w with
      | nil =>
        rw [← hw.2, List.append_nil] at hover
        simp at hover
      | cons b' w =>
        have hb : b' = mark := (List.cons.inj he.2).1.trans hw.1
        apply ht
        rw [← hw.2, hb]
        simp
  obtain ⟨w, rfl⟩ : mark :: t <+: z :=
    List.prefix_of_prefix_length_le (List.prefix_append _ _) ⟨_, he.symm⟩ hfits
  exact hy _ hc ⟨x, w, by simp⟩

/-- The first closer of a text can be found. -/
theorem Closers.append_inj (h : Closers mark ends) (hx : Open ends x) (hy : Open ends y)
    (hc : c ∈ ends) (hd : d ∈ ends) (he : x ++ c ++ r = y ++ d ++ s) :
    x = y ∧ c = d ∧ r = s := by
  have hlen : x.length = y.length :=
    Nat.le_antisymm (h.length_le hx hd hc he.symm) (h.length_le hy hc hd he)
  rw [List.append_assoc, List.append_assoc] at he
  obtain ⟨rfl, hrest⟩ := List.append_inj he hlen
  have hcd : c = d := by
    rcases List.prefix_or_prefix_of_prefix ⟨r, hrest⟩ (List.prefix_append d s) with hpre | hpre
    · exact h.apart c hc d hd hpre
    · exact (h.apart d hd c hc hpre).symm
  subst hcd
  exact ⟨rfl, rfl, List.append_cancel_left hrest⟩

/-- Texts with their closers can be read back one by one. -/
theorem Closers.flatten_inj (h : Closers mark ends) {ps qs : List (List α × List α)}
    (hps : ∀ p ∈ ps, Open ends p.1 ∧ p.2 ∈ ends) (hqs : ∀ q ∈ qs, Open ends q.1 ∧ q.2 ∈ ends)
    (he : (ps.map fun p => p.1 ++ p.2).flatten = (qs.map fun q => q.1 ++ q.2).flatten) :
    ps = qs := by
  have hne : ∀ p : List α × List α, p.2 ∈ ends → p.1 ++ p.2 ≠ [] := by
    intro p hp
    obtain ⟨t, ht, -⟩ := h.head p.2 hp
    rw [ht]
    simp
  induction ps generalizing qs with
  | nil =>
    cases qs with
    | nil => rfl
    | cons q qs =>
      have hnil := List.append_eq_nil_iff.mp (List.flatten_cons.symm.trans he.symm)
      exact absurd hnil.1 (hne q (hqs q List.mem_cons_self).2)
  | cons p ps ih =>
    cases qs with
    | nil =>
      have hnil := List.append_eq_nil_iff.mp (List.flatten_cons.symm.trans he)
      exact absurd hnil.1 (hne p (hps p List.mem_cons_self).2)
    | cons q qs =>
      rw [List.map_cons, List.map_cons, List.flatten_cons, List.flatten_cons] at he
      obtain ⟨hp, hp'⟩ := hps p List.mem_cons_self
      obtain ⟨hq, hq'⟩ := hqs q List.mem_cons_self
      obtain ⟨h1, h2, h3⟩ := h.append_inj hp hq hp' hq' he
      rw [ih (fun p hm => hps p (List.mem_cons_of_mem _ hm))
        (fun q hm => hqs q (List.mem_cons_of_mem _ hm)) h3]
      exact congrArg (· :: qs) (Prod.ext h1 h2)

/-- A single closing element. -/
theorem closers_singleton (a : α) : Closers a [[a]] := by
  refine ⟨fun c hc => ?_, fun c hc d hd _ => ?_⟩
  · exact ⟨[], List.mem_singleton.mp hc, List.not_mem_nil⟩
  · rw [List.mem_singleton.mp hc, List.mem_singleton.mp hd]

theorem open_singleton {a : α} (h : a ∉ x) : Open [[a]] x := by
  intro c hc hin
  rw [List.mem_singleton.mp hc] at hin
  exact h (hin.subset (List.mem_singleton.mpr rfl))

/-- The front of a list up to the first occurrence of an element. -/
theorem append_cons_inj {a : α} (hx : a ∉ x) (hy : a ∉ y) (he : x ++ a :: r = y ++ a :: s) :
    x = y ∧ r = s := by
  rw [List.append_cons x a r, List.append_cons y a s] at he
  obtain ⟨hxy, -, hrs⟩ := (closers_singleton a).append_inj (open_singleton hx) (open_singleton hy)
    (List.mem_singleton.mpr rfl) (List.mem_singleton.mpr rfl) he
  exact ⟨hxy, hrs⟩

end Join
