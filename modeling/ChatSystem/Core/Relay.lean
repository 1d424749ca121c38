import Mathlib.Data.List.Nodup

/-!
# Relayed posts

A hub hands items over to its receivers: copies of the last post, or anything else. If a post
is copied at most once to a receiver, all receivers get the posts in one order.
-/

namespace Relay

variable {π κ μ : Type*}

/-- What a hub does: it takes a post, copies the last one to a receiver, or hands over another
item. -/
inductive Item (κ μ : Type*)
  | post
  | copy (c : κ) (m : μ)
  | other (c : κ) (m : μ)

/-- The number of posts. -/
def posts : List (Item κ μ) → Nat
  | [] => 0
  | .post :: xs => posts xs + 1
  | _ :: xs => posts xs

/-- What a receiver gets behind `n` posts, a copy with the number of its post. -/
def inbox [DecidableEq κ] (c : κ) : Nat → List (Item κ μ) → List (Option Nat × μ)
  | _, [] => []
  | n, .post :: xs => inbox c (n + 1) xs
  | n, .copy d m :: xs => (if d = c then [(some (n - 1), m)] else []) ++ inbox c n xs
  | n, .other d m :: xs => (if d = c then [(none, m)] else []) ++ inbox c n xs

/-- The numbers of the posts a receiver gets copies of. -/
def numbers (box : List (Option Nat × μ)) : List Nat := box.filterMap Prod.fst

/-- A transcript in which each copy is one of the last post, for a receiver that has none yet;
with the last post and its receivers so far. -/
inductive Orderly (Reaches : π → κ → μ → Prop) :
    List π → List (Item κ μ) → Option (π × List κ) → Prop
  | nil : Orderly Reaches [] [] none
  | post {ps : List π} {xs : List (Item κ μ)} {o : Option (π × List κ)} (p : π)
    (h : Orderly Reaches ps xs o) : Orderly Reaches (ps ++ [p]) (xs ++ [.post]) (some (p, []))
  | copy {ps : List π} {xs : List (Item κ μ)} {p : π} {ds : List κ} {c : κ} {m : μ}
    (h : Orderly Reaches ps xs (some (p, ds))) (hreach : Reaches p c m) (hnew : c ∉ ds) :
    Orderly Reaches ps (xs ++ [.copy c m]) (some (p, ds ++ [c]))
  | other {ps : List π} {xs : List (Item κ μ)} {o : Option (π × List κ)} (c : κ) (m : μ)
    (h : Orderly Reaches ps xs o) : Orderly Reaches ps (xs ++ [.other c m]) o

/-- Receivers get copies of posts that reach them, each once and in the order of the posts. -/
structure Ordered (Reaches : π → κ → μ → Prop) (ps : List π)
    (box : κ → List (Option Nat × μ)) : Prop where
  reach : ∀ c n m, (some n, m) ∈ box c → ∃ p, ps[n]? = some p ∧ Reaches p c m
  increasing : ∀ c, (numbers (box c)).Pairwise (· < ·)

@[simp] theorem posts_append (xs ys : List (Item κ μ)) : posts (xs ++ ys) = posts xs + posts ys := by
  induction xs with
  | nil => simp [posts]
  | cons x xs ih =>
    cases x with
    | post =>
      simp only [List.cons_append, posts, ih]
      omega
    | copy c m => exact ih
    | other c m => exact ih

@[simp] theorem numbers_append (xs ys : List (Option Nat × μ)) :
    numbers (xs ++ ys) = numbers xs ++ numbers ys := List.filterMap_append ..

theorem mem_numbers {box : List (Option Nat × μ)} {n : Nat} :
    n ∈ numbers box ↔ ∃ m, (some n, m) ∈ box := by
  simp only [numbers, List.mem_filterMap, Prod.exists]
  constructor
  · rintro ⟨o, m, hm, rfl⟩
    exact ⟨m, hm⟩
  · rintro ⟨m, hm⟩
    exact ⟨some n, m, hm, rfl⟩

section Transcript

variable {Reaches : π → κ → μ → Prop} {ps : List π} {xs ys : List (Item κ μ)}
  {o : Option (π × List κ)}

theorem Orderly.posts_eq (h : Orderly Reaches ps xs o) : posts xs = ps.length := by
  induction h with
  | nil => rfl
  | post p h ih => simp [posts, ih]
  | copy h hreach hnew ih => simpa [posts] using ih
  | other c m h ih => simpa [posts] using ih

/-- The last post is the one that is copied. -/
theorem Orderly.getLast (h : Orderly Reaches ps xs o) {p : π} {ds : List κ}
    (ho : o = some (p, ds)) : ps[ps.length - 1]? = some p ∧ 0 < ps.length := by
  induction h generalizing ds with
  | nil => cases ho
  | post q h ih =>
    cases ho
    simp
  | copy h hreach hnew ih =>
    cases ho
    exact ih rfl
  | other c m h ih => exact ih ho

/-- Items that are no copies do not matter. -/
theorem Orderly.others (h : Orderly Reaches ps xs o)
    (hys : ∀ y ∈ ys, ∃ c m, y = .other c m) : Orderly Reaches ps (xs ++ ys) o := by
  induction ys generalizing xs with
  | nil => simpa using h
  | cons y ys ih =>
    obtain ⟨c, m, rfl⟩ := hys y List.mem_cons_self
    rw [List.append_cons]
    exact ih (h.other c m) fun z hz => hys z (List.mem_cons_of_mem _ hz)

variable [DecidableEq κ]

theorem inbox_append (c : κ) (n : Nat) (xs ys : List (Item κ μ)) :
    inbox c n (xs ++ ys) = inbox c n xs ++ inbox c (n + posts xs) ys := by
  induction xs generalizing n with
  | nil => rfl
  | cons x xs ih =>
    cases x with
    | post =>
      simp only [List.cons_append, inbox, posts, ih]
      rw [Nat.add_right_comm, Nat.add_assoc]
    | copy d m => simp only [List.cons_append, inbox, posts, ih, List.append_assoc]
    | other d m => simp only [List.cons_append, inbox, posts, ih, List.append_assoc]

/-- What is no copy was handed over as such. -/
theorem mem_of_inbox {c : κ} {m : μ} {n : Nat} (h : (none, m) ∈ inbox c n xs) :
    .other c m ∈ xs := by
  induction xs generalizing n with
  | nil => cases h
  | cons x xs ih =>
    cases x with
    | post => exact List.mem_cons_of_mem _ (ih h)
    | copy d k =>
      rcases List.mem_append.mp h with h | h
      · split at h <;> simp at h
      · exact List.mem_cons_of_mem _ (ih h)
    | other d k =>
      rcases List.mem_append.mp h with h | h
      · split at h
        · next hd =>
          obtain rfl : m = k := by simpa using h
          rw [hd]
          exact List.mem_cons_self
        · cases h
      · exact List.mem_cons_of_mem _ (ih h)

/-- Every copy is one of a post that reaches its receiver. -/
theorem Orderly.reach (h : Orderly Reaches ps xs o) {c : κ} {n : Nat} {m : μ}
    (hm : (some n, m) ∈ inbox c 0 xs) : ∃ p, ps[n]? = some p ∧ Reaches p c m := by
  induction h with
  | nil => cases hm
  | post q h ih =>
    rw [inbox_append, inbox, inbox, List.append_nil] at hm
    obtain ⟨p, hp, hr⟩ := ih hm
    refine ⟨p, ?_, hr⟩
    rw [List.getElem?_append_left (List.getElem?_eq_some_iff.mp hp).1]
    exact hp
  | @copy ps xs p ds d m' h hreach hnew ih =>
    rw [inbox_append, List.mem_append] at hm
    rcases hm with hm | hm
    · exact ih hm
    · by_cases hd : d = c
      · rw [inbox, inbox, if_pos hd, List.append_nil, List.mem_singleton, Prod.mk.injEq,
          Option.some.injEq] at hm
        obtain ⟨rfl, rfl⟩ := hm
        rw [Nat.zero_add, h.posts_eq]
        exact ⟨p, (h.getLast rfl).1, hd ▸ hreach⟩
      · simp [inbox, hd] at hm
  | other d m' h ih =>
    rw [inbox_append, List.mem_append] at hm
    rcases hm with hm | hm
    · exact ih hm
    · by_cases hd : d = c <;> simp [inbox, hd] at hm

theorem Orderly.lt (h : Orderly Reaches ps xs o) {c : κ} {n : Nat}
    (hn : n ∈ numbers (inbox c 0 xs)) : n < ps.length := by
  obtain ⟨m, hm⟩ := mem_numbers.mp hn
  obtain ⟨p, hp, -⟩ := h.reach hm
  exact (List.getElem?_eq_some_iff.mp hp).1

/-- The receivers of the last post are known. -/
theorem Orderly.served (h : Orderly Reaches ps xs o) {p : π} {ds : List κ}
    (ho : o = some (p, ds)) {c : κ} (hn : ps.length - 1 ∈ numbers (inbox c 0 xs)) : c ∈ ds := by
  induction h generalizing ds with
  | nil => cases ho
  | post q h ih =>
    rw [inbox_append, inbox, inbox, List.append_nil, List.length_append, List.length_singleton,
      Nat.add_sub_cancel] at hn
    exact absurd (h.lt hn) (Nat.lt_irrefl _)
  | @copy ps xs p ds d m h hreach hnew ih =>
    cases ho
    rw [inbox_append, numbers_append, List.mem_append] at hn
    rcases hn with hn | hn
    · exact List.mem_append_left _ (ih rfl hn)
    · by_cases hd : d = c
      · exact List.mem_append_right _ (List.mem_singleton.mpr hd.symm)
      · simp [inbox, numbers, hd] at hn
  | @other ps xs o d m h ih =>
    rw [inbox_append, numbers_append, List.mem_append] at hn
    rcases hn with hn | hn
    · exact ih ho hn
    · by_cases hd : d = c <;> simp [inbox, numbers, hd] at hn

/-- Receivers get copies in the order of the posts. -/
theorem Orderly.increasing (h : Orderly Reaches ps xs o) (c : κ) :
    (numbers (inbox c 0 xs)).Pairwise (· < ·) := by
  induction h with
  | nil => exact List.Pairwise.nil
  | post q h ih =>
    rw [inbox_append, inbox, inbox, List.append_nil]
    exact ih
  | @copy ps xs p ds d m h hreach hnew ih =>
    rw [inbox_append, numbers_append]
    by_cases hd : d = c
    · subst hd
      have hlast : numbers (inbox d (0 + posts xs) [.copy d m]) = [ps.length - 1] := by
        rw [inbox, inbox, if_pos rfl, Nat.zero_add, h.posts_eq]
        rfl
      rw [hlast, List.pairwise_append]
      refine ⟨ih, List.pairwise_singleton _ _, fun n hn k hk => ?_⟩
      obtain rfl := List.mem_singleton.mp hk
      have hlt := h.lt hn
      have hne : n ≠ ps.length - 1 := fun he => hnew (h.served rfl (he ▸ hn))
      omega
    · rw [inbox, inbox, if_neg hd]
      simpa [numbers] using ih
  | @other ps xs o d m h ih =>
    rw [inbox_append, numbers_append]
    have hnone : numbers (inbox c (0 + posts xs) [.other d m]) = [] := by
      by_cases hd : d = c <;> simp [inbox, numbers, hd]
    rw [hnone, List.append_nil]
    exact ih

/-- An orderly hub keeps the posts in order. -/
theorem Orderly.ordered (h : Orderly Reaches ps xs o) :
    Ordered Reaches ps fun c => inbox c 0 xs :=
  ⟨fun _ _ _ hm => h.reach hm, h.increasing⟩

end Transcript

section Ordered

variable {Reaches : π → κ → μ → Prop} {ps : List π} {box : κ → List (Option Nat × μ)}

/-- A post reaches a receiver at most once. -/
theorem Ordered.once (h : Ordered Reaches ps box) (c : κ) : (numbers (box c)).Nodup :=
  (h.increasing c).imp Nat.ne_of_lt

/-- Two receivers get the posts that both get in the same order. -/
theorem Ordered.agree (h : Ordered Reaches ps box) {c d : κ} {n k : Nat}
    (hc : [n, k].Sublist (numbers (box c))) (hn : n ∈ numbers (box d))
    (hk : k ∈ numbers (box d)) : [n, k].Sublist (numbers (box d)) := by
  have hlt : n < k := by
    have hpair := (h.increasing c).sublist hc
    simpa using hpair
  obtain ⟨as, bs, hd⟩ := List.append_of_mem hn
  have hinc := h.increasing d
  rw [hd, List.pairwise_append] at hinc
  rw [hd, List.mem_append, List.mem_cons] at hk
  rcases hk with hk | rfl | hk
  · exact absurd (hinc.2.2 k hk n List.mem_cons_self) (Nat.lt_asymm hlt)
  · exact absurd hlt (Nat.lt_irrefl _)
  · rw [hd]
    exact ((List.singleton_sublist.mpr hk).cons_cons n).trans (List.sublist_append_right _ _)

/-- Increasing positions select a sublist. -/
theorem filterMap_getElem_sublist {ns : List Nat} (hns : ns.Pairwise (· < ·)) {k : Nat}
    (hk : ∀ n ∈ ns, k ≤ n) (ps : List π) :
    (ns.filterMap fun n => ps[n - k]?).Sublist ps := by
  induction ps generalizing ns k with
  | nil => simp
  | cons p ps ih =>
    have hlater : ∀ {ns : List Nat}, ns.Pairwise (· < ·) → (∀ n ∈ ns, k + 1 ≤ n) →
        (ns.filterMap fun n => (p :: ps)[n - k]?).Sublist ps := by
      intro ns hns hlt
      have hshift : ∀ n ∈ ns, (p :: ps)[n - k]? = ps[n - (k + 1)]? := by
        intro n hn
        have hle := hlt n hn
        rw [show n - k = n - (k + 1) + 1 by omega, List.getElem?_cons_succ]
      rw [List.filterMap_congr hshift]
      exact ih hns hlt
    cases ns with
    | nil => simp
    | cons n ns =>
      obtain ⟨hn, hns'⟩ := List.pairwise_cons.mp hns
      by_cases hnk : n = k
      · subst hnk
        rw [List.filterMap_cons, Nat.sub_self, List.getElem?_cons_zero]
        exact (hlater hns' hn).cons_cons p
      · have hlt : k + 1 ≤ n := by
          have hle := hk n List.mem_cons_self
          omega
        refine (hlater hns fun j hj => ?_).cons p
        rcases List.mem_cons.mp hj with rfl | hj
        · exact hlt
        · exact Nat.le_trans hlt (Nat.le_of_lt (hn j hj))

/-- The posts a receiver gets copies of are in the order of all posts. -/
theorem Ordered.sublist (h : Ordered Reaches ps box) (c : κ) :
    ((numbers (box c)).filterMap fun n => ps[n]?).Sublist ps :=
  filterMap_getElem_sublist (h.increasing c) (fun n _ => Nat.zero_le n) ps

end Ordered

end Relay
