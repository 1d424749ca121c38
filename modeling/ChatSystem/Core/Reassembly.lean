import Mathlib.Data.List.Induction
import ChatSystem.Core.Framing

/-!
# Reassembly in a bounded buffer

A receiver that appends everything available to what it has left over, and only
then cuts frames off. It gives up when the buffer is full or the input is over,
stops at a refused header, and ends the session at a last frame. What it hands
on is compared with the frames of the whole stream.
-/

/-- A framing, the fill level at which the buffer is given up, and the frames that
end a session. -/
structure Reassembly (α : Type*) where
  framing : Framing α
  capacity : Nat
  last : List α → Bool

namespace Reassembly

variable {α : Type*}

/-- What is available at once, and whether the input is over behind it. -/
structure Arrival (α : Type*) where
  data : List α
  isOver : Bool

/-- The stream a list of arrivals stands for. -/
def stream (as : List (Arrival α)) : List α := (as.map Arrival.data).flatten

variable (R : Reassembly α)

/-- Frames through the first one that ends the session, and whether there is one. -/
def through : List (List α) → List (List α) × Bool
  | [] => ([], false)
  | f :: fs => if R.last f then ([f], true) else (f :: (through fs).1, (through fs).2)

/-- Receive one arrival on top of a leftover: the frames handed on, and the new
leftover unless the receiver closes. -/
def feed (r : List α) (a : Arrival α) : List (List α) × Option (List α) :=
  if a.isOver ∨ R.capacity ≤ (r ++ a.data).length then ([], none)
  else
    let (fs, rest) := R.framing.cut (r ++ a.data)
    let (fs, ended) := R.through fs
    (fs, if ended || (R.framing.front rest).isRefused then none else some rest)

/-- Receive arrivals one after the other, until the receiver closes. -/
def feedAll : List α → List (Arrival α) → List (List α) × Option (List α)
  | r, [] => ([], some r)
  | r, a :: as =>
    match R.feed r a with
    | (fs, none) => (fs, none)
    | (fs, some r) => (fs ++ (feedAll r as).1, (feedAll r as).2)

/-- Nothing arrives at a closed receiver. -/
def Live (as : List (Arrival α)) : Prop :=
  ∀ p a q, as = p ++ a :: q → (R.feedAll [] p).2.isSome

/-- Until the session ends, every arrival leaves the buffer below its capacity. -/
def Fits (as : List (Arrival α)) : Prop :=
  ∀ p a q, as = p ++ a :: q → (R.through (R.framing.cut (stream p)).1).2 = false →
    (R.framing.cut (stream p)).2.length + a.data.length < R.capacity

/-- Until the session ends, an arrival that makes the receiver give up leaves no
complete frame in the buffer. -/
def Drained (as : List (Arrival α)) : Prop :=
  ∀ p a q, as = p ++ a :: q → (R.through (R.framing.cut (stream p)).1).2 = false →
    (a.isOver ∨ R.capacity ≤ (R.framing.cut (stream p)).2.length + a.data.length) →
      ∀ f t, R.framing.front ((R.framing.cut (stream p)).2 ++ a.data) ≠ .frame f t

variable {R}

@[simp] theorem stream_nil : stream ([] : List (Arrival α)) = [] := rfl

@[simp] theorem stream_append_singleton (as : List (Arrival α)) (a : Arrival α) :
    stream (as ++ [a]) = stream as ++ a.data := by
  simp [stream]

/-! ## Sessions -/

/-- Without a last frame, everything is let through. -/
theorem through_of_not {fs : List (List α)} (h : (R.through fs).2 = false) :
    (R.through fs).1 = fs := by
  induction fs with
  | nil => rfl
  | cons f fs ih =>
    rw [through] at h ⊢
    split at h
    · cases h
    · rw [if_neg ‹_›, ih h]

/-- Frames without a last one do not matter for what is let through behind them. -/
theorem through_append {fs : List (List α)} (h : (R.through fs).2 = false)
    (gs : List (List α)) :
    R.through (fs ++ gs) = (fs ++ (R.through gs).1, (R.through gs).2) := by
  induction fs with
  | nil => rfl
  | cons f fs ih =>
    rw [through] at h
    split at h
    · cases h
    · rw [List.cons_append, through, if_neg ‹_›, ih h]
      rfl

/-- What is let through is a fixed point. -/
theorem through_through (fs : List (List α)) : R.through (R.through fs).1 = R.through fs := by
  induction fs with
  | nil => rfl
  | cons f fs ih =>
    by_cases h : R.last f = true
    · simp only [through, if_pos h]
    · simp only [through, if_neg h, ih]

theorem through_subset {fs : List (List α)} {f : List α} (h : f ∈ (R.through fs).1) : f ∈ fs := by
  induction fs with
  | nil => exact h
  | cons g fs ih =>
    rw [through] at h
    split at h
    · rw [List.mem_singleton.mp h]
      exact List.mem_cons_self
    · rcases List.mem_cons.mp h with rfl | h
      · exact List.mem_cons_self
      · exact List.mem_cons_of_mem _ (ih h)

theorem through_isPrefix (fs : List (List α)) : (R.through fs).1 <+: fs := by
  induction fs with
  | nil => exact List.prefix_rfl
  | cons f fs ih =>
    rw [through]
    split
    · exact ⟨fs, rfl⟩
    · exact (List.prefix_cons_inj f).mpr ih

theorem through_cons_ne_nil (f : List α) (fs : List (List α)) : (R.through (f :: fs)).1 ≠ [] := by
  rw [through]
  split <;> simp

/-! ## Receiving -/

theorem feedAll_append_singleton (r : List α) (as : List (Arrival α)) (a : Arrival α) :
    R.feedAll r (as ++ [a]) =
      match R.feedAll r as with
      | (fs, none) => (fs, none)
      | (fs, some r) => (fs ++ (R.feed r a).1, (R.feed r a).2) := by
  induction as generalizing r with
  | nil =>
    simp only [List.nil_append, feedAll, List.nil_append]
    rcases R.feed r a with ⟨fs, _ | r'⟩
    · rfl
    · simp only [List.append_nil]
  | cons b as ih =>
    simp only [List.cons_append, feedAll]
    rcases R.feed r b with ⟨fs, _ | r'⟩
    · rfl
    · simp only [ih]
      rcases R.feedAll r' as with ⟨gs, _ | r''⟩
      · rfl
      · simp only [List.append_assoc]

/-- What a receiver keeps is below its capacity and the front of a frame at most. -/
theorem leftover_of_feed {r r' : List α} {a : Arrival α} (h : (R.feed r a).2 = some r') :
    R.framing.front r' = .short ∧ r'.length < R.capacity := by
  unfold feed at h
  split at h
  · cases h
  · next hroom =>
    simp only at h
    split at h
    · cases h
    · next hgo =>
      obtain rfl := Option.some.inj h
      simp only [Bool.or_eq_true, not_or, Bool.not_eq_true] at hgo
      constructor
      · cases hfront : R.framing.front (R.framing.cut (r ++ a.data)).2 with
        | frame f t => exact absurd hfront (Framing.front_cut _ f t)
        | short => rfl
        | refused =>
          rw [hfront] at hgo
          cases hgo.2
      · have hlen := congrArg List.length (Framing.flatten_cut (F := R.framing) (r ++ a.data))
        rw [List.length_append] at hlen
        rw [not_or, Nat.not_le] at hroom
        omega

/-- An open receiver has handed on the frames of its stream, none of them a last
one, and keeps the rest, which is no refused header. -/
theorem feedAll_open {as : List (Arrival α)} {fs : List (List α)} {r : List α}
    (h : R.feedAll [] as = (fs, some r)) :
    R.framing.cut (stream as) = (fs, r) ∧ (R.through fs).2 = false ∧
      (R.framing.front r).isRefused = false := by
  induction as using List.reverseRecOn generalizing fs r with
  | nil =>
    obtain ⟨rfl, he⟩ := Prod.mk.inj h
    obtain rfl := Option.some.inj he
    have hf : R.framing.front [] = .short := Framing.front_eq_short_of_lt R.framing.header_pos
    exact ⟨Framing.cut_nil, rfl, by rw [hf]; rfl⟩
  | append_singleton as a ih =>
    rw [feedAll_append_singleton] at h
    split at h
    · cases h
    · next fs' r' hopen =>
      obtain ⟨h1, h2, -⟩ := ih hopen
      obtain ⟨rfl, he⟩ := Prod.mk.inj h
      unfold feed at he
      split at he
      · cases he
      · next hroom =>
        simp only at he
        split at he
        · cases he
        · next hgo =>
          obtain rfl := Option.some.inj he
          simp only [Bool.or_eq_true, not_or, Bool.not_eq_true] at hgo
          obtain ⟨hend, href⟩ := hgo
          have hfeed : (R.feed r' a).1 = (R.framing.cut (r' ++ a.data)).1 := by
            rw [feed, if_neg hroom]
            exact through_of_not hend
          rw [stream_append_singleton, Framing.cut_append_stream, h1, hfeed]
          exact ⟨rfl, by rw [through_append h2, hend], href⟩

theorem Live.of_append {as : List (Arrival α)} {a : Arrival α} (h : R.Live (as ++ [a])) :
    ∃ fs r, R.feedAll [] as = (fs, some r) ∧ R.feedAll [] (as ++ [a]) =
      (fs ++ (R.feed r a).1, (R.feed r a).2) := by
  obtain ⟨r, hr⟩ := Option.isSome_iff_exists.mp (h as a [] rfl)
  refine ⟨(R.feedAll [] as).1, r, Prod.ext rfl hr, ?_⟩
  rw [feedAll_append_singleton]
  split
  · next h' => rw [h'] at hr; cases hr
  · next h' => rw [h'] at hr; rw [h', Option.some.inj hr]

theorem live_nil : R.Live [] := fun p a q h => by simp at h

/-- One more arrival at an open receiver. -/
theorem Live.append {as : List (Arrival α)} (h : R.Live as) {r : List α}
    (hopen : (R.feedAll [] as).2 = some r) (a : Arrival α) : R.Live (as ++ [a]) := by
  intro p b q hp
  rcases List.eq_nil_or_concat q with rfl | ⟨q', b', rfl⟩
  · obtain ⟨rfl, -⟩ := List.append_inj' hp rfl
    rw [hopen]
    rfl
  · rw [List.concat_eq_append, ← List.cons_append, ← List.append_assoc] at hp
    exact h p b q' (List.append_inj' hp rfl).1

/-- An arrival that is not the last one leaves the receiver open. -/
theorem Live.eq_nil {as p q : List (Arrival α)} {a : Arrival α} (h : R.Live as)
    (has : as = p ++ a :: q) (hc : (R.feedAll [] (p ++ [a])).2 = none) : q = [] := by
  cases q with
  | nil => rfl
  | cons b q =>
    have := h (p ++ [a]) b q (by simpa using has)
    rw [hc] at this
    cases this

/-- A receiver that does not give up hands on what its stream lets through. -/
theorem feed_of_room {as : List (Arrival α)} {fs : List (List α)} {r : List α}
    (hopen : R.feedAll [] as = (fs, some r)) {a : Arrival α}
    (hroom : ¬ (a.isOver ∨ R.capacity ≤ (r ++ a.data).length)) :
    fs ++ (R.feed r a).1 = (R.through (R.framing.cut (stream as ++ a.data)).1).1 ∧
      ((R.feed r a).2 = none → (R.through (R.framing.cut (stream as ++ a.data)).1).2 = true ∨
        (R.framing.front (R.framing.cut (stream as ++ a.data)).2).isRefused = true) := by
  obtain ⟨h1, h2, -⟩ := feedAll_open hopen
  rw [Framing.cut_append_stream, h1, through_append h2, feed, if_neg hroom]
  refine ⟨rfl, fun h => ?_⟩
  simp only at h
  split at h
  · next h' => simpa using h'
  · cases h

/-- A receiver that gives up hands on nothing more. -/
theorem feed_of_full {r : List α} {a : Arrival α}
    (hfull : a.isOver ∨ R.capacity ≤ (r ++ a.data).length) : R.feed r a = ([], none) := by
  rw [feed, if_pos hfull]

/-! ## Comparison with the whole stream -/

/-- Whatever happens, the receiver hands on the first frames its stream lets through. -/
theorem Live.isPrefix {as : List (Arrival α)} (h : R.Live as) :
    (R.feedAll [] as).1 <+: (R.through (R.framing.cut (stream as)).1).1 := by
  rcases List.eq_nil_or_concat as with rfl | ⟨p, a, has⟩
  · exact List.nil_prefix
  · rw [List.concat_eq_append] at has
    subst has
    obtain ⟨fs, r, hopen, hfeed⟩ := h.of_append
    obtain ⟨hcut, hno, -⟩ := feedAll_open hopen
    rw [hfeed, stream_append_singleton]
    by_cases hgive : a.isOver ∨ R.capacity ≤ (r ++ a.data).length
    · rw [feed_of_full hgive, Framing.cut_append_stream, hcut, through_append hno, List.append_nil]
      exact List.prefix_append _ _
    · exact (feed_of_room hopen hgive).1 ▸ List.prefix_rfl

/-- On a stream of legal frames whose input is never over, the receiver hands on what
the stream lets through and does not close before the session ends, exactly if every
arrival up to there fits the buffer. -/
theorem agrees_iff_fits {as : List (Arrival α)} (hlive : R.Live as)
    (hover : ∀ a ∈ as, a.isOver = false)
    (hlegal : (R.framing.front (R.framing.cut (stream as)).2).isRefused = false) :
    ((R.feedAll [] as).1 = (R.through (R.framing.cut (stream as)).1).1 ∧
      ((R.feedAll [] as).2 = none → (R.through (R.framing.cut (stream as)).1).2 = true)) ↔
    R.Fits as := by
  constructor
  · rintro ⟨h1, h2⟩ p a q has hnot
    refine Nat.not_le.mp fun hfull => ?_
    have hlive' : R.Live (p ++ [a]) := fun p' a' q' h =>
      hlive p' a' (q' ++ q) (by rw [has, ← List.singleton_append, ← List.append_assoc, h]; simp)
    obtain ⟨fs, r, hopen, hfeed⟩ := hlive'.of_append
    obtain ⟨hcut, hno, -⟩ := feedAll_open hopen
    rw [hcut] at hfull
    have hclosed : R.feed r a = ([], none) :=
      feed_of_full (Or.inr (by rwa [List.length_append]))
    rw [hclosed, List.append_nil] at hfeed
    obtain rfl := hlive.eq_nil has (by rw [hfeed])
    rw [has, hfeed] at h1 h2
    have hend := h2 rfl
    rw [← through_through, ← h1, hno] at hend
    cases hend
  · intro hfits
    rcases List.eq_nil_or_concat as with rfl | ⟨p, a, has⟩
    · simp [feedAll, through]
    · rw [List.concat_eq_append] at has
      subst has
      obtain ⟨fs, r, hopen, hfeed⟩ := hlive.of_append
      obtain ⟨hcut, hno, -⟩ := feedAll_open hopen
      have hroom : ¬ (a.isOver ∨ R.capacity ≤ (r ++ a.data).length) := by
        have := hfits p a [] rfl (by rwa [hcut])
        rw [hcut] at this
        rw [hover a (by simp), List.length_append]
        simp only [Bool.false_eq_true, false_or]
        exact Nat.not_le.mpr this
      obtain ⟨h1, h2⟩ := feed_of_room hopen hroom
      rw [hfeed, stream_append_singleton]
      refine ⟨h1, fun h => (h2 h).resolve_right ?_⟩
      rw [stream_append_singleton] at hlegal
      rw [hlegal]
      exact Bool.false_ne_true

/-- A receiver that closed has handed on what its stream lets through, exactly if it
never gave up with a complete frame in the buffer. -/
theorem complete_iff_drained {as : List (Arrival α)} (hlive : R.Live as) :
    ((R.feedAll [] as).2 = none →
      (R.feedAll [] as).1 = (R.through (R.framing.cut (stream as)).1).1) ↔ R.Drained as := by
  constructor
  · intro h p a q has hnot hgive f t hfront
    have hlive' : R.Live (p ++ [a]) := fun p' a' q' h =>
      hlive p' a' (q' ++ q) (by rw [has, ← List.singleton_append, ← List.append_assoc, h]; simp)
    obtain ⟨fs, r, hopen, hfeed⟩ := hlive'.of_append
    obtain ⟨hcut, hno, -⟩ := feedAll_open hopen
    rw [hcut] at hgive hfront
    have hclosed : R.feed r a = ([], none) := feed_of_full (by rwa [List.length_append])
    rw [hclosed, List.append_nil] at hfeed
    obtain rfl := hlive.eq_nil has (by rw [hfeed])
    rw [has, hfeed, stream_append_singleton, Framing.cut_append_stream, hcut, through_append hno,
      Framing.cut_of_frame hfront] at h
    exact through_cons_ne_nil f _ (List.self_eq_append_right.mp (h rfl))
  · intro hdrained hclosed
    rcases List.eq_nil_or_concat as with rfl | ⟨p, a, has⟩
    · cases hclosed
    · rw [List.concat_eq_append] at has
      subst has
      obtain ⟨fs, r, hopen, hfeed⟩ := hlive.of_append
      obtain ⟨hcut, hno, -⟩ := feedAll_open hopen
      rw [hfeed, stream_append_singleton]
      by_cases hgive : a.isOver ∨ R.capacity ≤ (r ++ a.data).length
      · have hnone := hdrained p a [] rfl (by rwa [hcut]) (by rwa [hcut, ← List.length_append])
        rw [hcut] at hnone
        rw [feed_of_full hgive, Framing.cut_append_stream, hcut, Framing.cut_of_not_frame hnone,
          through_append hno]
        rfl
      · exact (feed_of_room hopen hgive).1

end Reassembly
