import Mathlib.Data.List.Basic

/-!
# Length-prefixed framing

A frame is a header of fixed size followed by as many elements as the header
announces; a header may also be refused. Cutting a stream into frames depends
on the stream only: a stream fed in pieces, each piece appended to what the
previous ones left over, gives the same frames as the whole stream at once. A
framing that takes more headers goes on where a stricter one stops.
-/

/-- A framing: the header size and the body length a header announces, if legal. -/
structure Framing (α : Type*) where
  /-- Number of elements of a header. -/
  header : Nat
  /-- A header is never empty, so that every frame consumes something. -/
  header_pos : 0 < header
  /-- The body length a header announces; `none` refuses the header. -/
  bodyLen : List α → Option Nat

namespace Framing

variable {α : Type*}

/-- What the front of a stream holds. -/
inductive Front (α : Type*)
  /-- Not enough elements for a complete frame. -/
  | short
  /-- A complete header that is refused. -/
  | refused
  /-- A complete frame and the stream behind it. -/
  | frame (f rest : List α)
  deriving DecidableEq, Repr

/-- Whether the front is a refused header. -/
def Front.isRefused : Front α → Bool
  | .refused => true
  | _ => false

variable (F : Framing α)

/-- Look at the front of a stream. -/
def front (s : List α) : Front α :=
  if s.length < F.header then .short
  else match F.bodyLen (s.take F.header) with
    | none => .refused
    | some n =>
      if s.length < F.header + n then .short
      else .frame (s.take (F.header + n)) (s.drop (F.header + n))

/-- A list that is exactly one legal frame. -/
def IsFrame (f : List α) : Prop :=
  F.header ≤ f.length ∧ ∃ n, F.bodyLen (f.take F.header) = some n ∧ f.length = F.header + n

variable {F}

theorem front_eq_short_of_lt {s : List α} (h : s.length < F.header) : F.front s = .short := by
  simp only [front, if_pos h]

/-- The front of a stream that starts with a legal frame. -/
theorem front_append {f : List α} (hf : F.IsFrame f) (t : List α) :
    F.front (f ++ t) = .frame f t := by
  obtain ⟨hh, n, hn, hl⟩ := hf
  have hlen : ¬ (f ++ t).length < F.header := by
    simp only [List.length_append]
    omega
  have htake : (f ++ t).take F.header = f.take F.header := List.take_append_of_le_length hh
  have hlen' : ¬ (f ++ t).length < f.length := by
    simp only [List.length_append]
    omega
  simp only [front, if_neg hlen, htake, hn, ← hl, if_neg hlen', List.take_left, List.drop_left]

/-- A complete front is a legal frame, and it is split off the stream. -/
theorem front_eq_frame {s f t : List α} (h : F.front s = .frame f t) :
    F.IsFrame f ∧ s = f ++ t := by
  simp only [front] at h
  split at h
  · cases h
  · next hs =>
    split at h
    · cases h
    · next n hn =>
      split at h
      · cases h
      · next hs' =>
        obtain ⟨rfl, rfl⟩ := Front.frame.inj h
        have hl : (s.take (F.header + n)).length = F.header + n := by
          simp only [List.length_take]
          omega
        refine ⟨⟨by omega, n, ?_, hl⟩, (List.take_append_drop _ s).symm⟩
        rwa [List.take_take, Nat.min_eq_left (Nat.le_add_right _ _)]

/-- A refused header stays refused however the stream goes on. -/
theorem front_append_refused {s : List α} (h : F.front s = .refused) (t : List α) :
    F.front (s ++ t) = .refused := by
  simp only [front] at h
  split at h
  · cases h
  · next hs =>
    split at h
    · next hn =>
      have hlen : ¬ (s ++ t).length < F.header := by
        simp only [List.length_append]
        omega
      simp only [front, if_neg hlen, List.take_append_of_le_length (Nat.not_lt.mp hs), hn]
    · split at h <;> cases h

theorem IsFrame.length_pos {f : List α} (h : F.IsFrame f) : 0 < f.length :=
  Nat.lt_of_lt_of_le F.header_pos h.1

/-- Induction along the frames at the front of a stream. -/
@[elab_as_elim]
theorem stream_induction (F : Framing α) {P : List α → Prop}
    (frame : ∀ f t, F.IsFrame f → P t → P (f ++ t))
    (rest : ∀ s, (∀ f t, F.front s ≠ .frame f t) → P s) (s : List α) : P s := by
  induction hn : s.length using Nat.strongRecOn generalizing s with
  | ind n ih =>
    by_cases h : ∃ f t, F.front s = .frame f t
    · obtain ⟨f, t, h⟩ := h
      obtain ⟨hf, rfl⟩ := front_eq_frame h
      have hpos := hf.length_pos
      simp only [List.length_append] at hn
      exact frame f t hf (ih t.length (by omega) t rfl)
    · exact rest s fun f t hft => h ⟨f, t, hft⟩

variable (F)

/-- Cut a stream into the complete legal frames at its front and the rest. -/
def cut (s : List α) : List (List α) × List α :=
  match h : F.front s with
  | .frame f t =>
    have : t.length < s.length := by
      obtain ⟨hf, rfl⟩ := front_eq_frame h
      simpa only [List.length_append, Nat.lt_add_left_iff_pos] using hf.length_pos
    (f :: (cut t).1, (cut t).2)
  | _ => ([], s)
termination_by s.length

variable {F}

theorem cut_of_frame {s f t : List α} (h : F.front s = .frame f t) :
    F.cut s = (f :: (F.cut t).1, (F.cut t).2) := by
  rw [cut]
  split
  · next f' t' h' =>
    obtain ⟨rfl, rfl⟩ := Front.frame.inj (h.symm.trans h')
    rfl
  · next h' => exact absurd h (h' f t)

theorem cut_of_not_frame {s : List α} (h : ∀ f t, F.front s ≠ .frame f t) : F.cut s = ([], s) := by
  rw [cut]
  split
  · next f t h' => exact absurd h' (h f t)
  · rfl

@[simp] theorem cut_nil : F.cut [] = ([], []) :=
  cut_of_not_frame fun f t h => by
    rw [front_eq_short_of_lt (s := []) F.header_pos] at h
    cases h

/-- Cutting behind a legal frame. -/
theorem cut_append {f : List α} (hf : F.IsFrame f) (t : List α) :
    F.cut (f ++ t) = (f :: (F.cut t).1, (F.cut t).2) :=
  cut_of_frame (front_append hf t)

/-- Frames and rest are the stream. -/
theorem flatten_cut (s : List α) : (F.cut s).1.flatten ++ (F.cut s).2 = s := by
  induction s using F.stream_induction with
  | frame f t hf ih => rw [cut_append hf, List.flatten_cons, List.append_assoc, ih]
  | rest s h => rw [cut_of_not_frame h]; rfl

/-- The rest never starts with a complete legal frame. -/
theorem front_cut (s f t : List α) : F.front (F.cut s).2 ≠ .frame f t := by
  induction s using F.stream_induction with
  | frame f' t' hf ih => rw [cut_append hf]; exact ih
  | rest s h => rw [cut_of_not_frame h]; exact h f t

/-- Every frame cut off is legal. -/
theorem isFrame_of_mem_cut {s f : List α} (hmem : f ∈ (F.cut s).1) : F.IsFrame f := by
  induction s using F.stream_induction with
  | frame f' t' hf ih =>
    rw [cut_append hf, List.mem_cons] at hmem
    rcases hmem with rfl | hmem
    · exact hf
    · exact ih hmem
  | rest s h => rw [cut_of_not_frame h] at hmem; cases hmem

/-- Appending to a stream cuts the same frames first, then goes on with the rest. -/
theorem cut_append_stream (s t : List α) :
    F.cut (s ++ t) = ((F.cut s).1 ++ (F.cut ((F.cut s).2 ++ t)).1,
      (F.cut ((F.cut s).2 ++ t)).2) := by
  induction s using F.stream_induction with
  | frame f t' hf ih =>
    rw [cut_append hf, List.append_assoc, cut_append hf, ih]
    rfl
  | rest s h => rw [cut_of_not_frame h]; rfl

/-- A list of legal frames is cut back into itself. -/
theorem cut_flatten {fs : List (List α)} (hfs : ∀ f ∈ fs, F.IsFrame f) (t : List α) :
    F.cut (fs.flatten ++ t) = (fs ++ (F.cut t).1, (F.cut t).2) := by
  induction fs with
  | nil => rfl
  | cons f fs ih =>
    rw [List.flatten_cons, List.append_assoc, cut_append (hfs f List.mem_cons_self),
      ih fun g hg => hfs g (List.mem_cons_of_mem _ hg)]
    rfl

/-- The front of a list of legal frames is cut into a front of the list. -/
theorem cut_isPrefix {s : List α} {fs : List (List α)} (hfs : ∀ f ∈ fs, F.IsFrame f)
    (h : s <+: fs.flatten) : (F.cut s).1 <+: fs := by
  obtain ⟨t, ht⟩ := h
  have hcut := cut_flatten hfs []
  rw [List.append_nil, ← ht, cut_append_stream, cut_nil, List.append_nil] at hcut
  exact ⟨_, congrArg Prod.fst hcut⟩

/-! ## A laxer framing -/

variable {G : Framing α}

/-- `G` takes every header that `F` takes, with the same body. -/
structure Extends (F G : Framing α) : Prop where
  header : F.header = G.header
  bodyLen : ∀ h n, F.bodyLen h = some n → G.bodyLen h = some n

theorem Extends.isFrame (h : F.Extends G) {f : List α} (hf : F.IsFrame f) : G.IsFrame f := by
  obtain ⟨hlen, n, hn, hl⟩ := hf
  exact ⟨h.header ▸ hlen, n, h.header ▸ h.bodyLen _ n hn, h.header ▸ hl⟩

/-- The laxer framing goes on where the stricter one stops. -/
theorem Extends.cut_eq (h : F.Extends G) (s : List α) :
    (G.cut s).1 = (F.cut s).1 ++ (G.cut (F.cut s).2).1 := by
  induction s using F.stream_induction with
  | frame f t hf ih =>
    rw [cut_append hf, cut_append (h.isFrame hf), ih]
    rfl
  | rest s hr => rw [cut_of_not_frame hr, List.nil_append]

/-- Both framings cut the same frames, if the rest of one is no frame for the other. -/
theorem Extends.cut_eq_iff (h : F.Extends G) (s : List α) :
    (F.cut s).1 = (G.cut s).1 ↔ ∀ f t, G.front (F.cut s).2 ≠ .frame f t := by
  rw [h.cut_eq s, eq_comm, List.append_right_eq_self]
  constructor
  · intro hnil f t hft
    rw [cut_of_frame hft] at hnil
    cases hnil
  · intro hr
    rw [cut_of_not_frame hr]

/-- A front of a frame that is cut into a frame is all of it. -/
theorem eq_of_isPrefix {f s g t : List α} (hf : F.IsFrame f) (hs : s <+: f)
    (hg : F.front s = .frame g t) : s = f := by
  obtain ⟨hgf, rfl⟩ := front_eq_frame hg
  obtain ⟨u, rfl⟩ := hs
  have hone := front_append hf []
  rw [List.append_nil, List.append_assoc, front_append hgf] at hone
  obtain ⟨hgu, htu⟩ := Front.frame.inj hone
  rw [List.append_assoc, htu, (List.append_eq_nil_iff.mp htu).1]

/-- On a front of frames of the stricter framing both cut the same. -/
theorem Extends.cut_eq_of_prefix (h : F.Extends G) {fs : List (List α)} {s : List α}
    (hfs : ∀ f ∈ fs, F.IsFrame f) (hs : s <+: fs.flatten) : (F.cut s).1 = (G.cut s).1 := by
  induction fs generalizing s with
  | nil =>
    rw [List.flatten_nil, List.prefix_nil] at hs
    rw [hs, cut_nil, cut_nil]
  | cons f fs ih =>
    rw [List.flatten_cons] at hs
    have hf := hfs f List.mem_cons_self
    by_cases hsf : f <+: s
    · obtain ⟨t, rfl⟩ := hsf
      have hfs' : ∀ g ∈ fs, F.IsFrame g := fun g hg => hfs g (List.mem_cons_of_mem _ hg)
      rw [cut_append hf, cut_append (h.isFrame hf),
        ih hfs' ((List.prefix_append_right_inj f).mp hs)]
    · -- The stream ends inside the frame.
      have hcut := (List.prefix_or_prefix_of_prefix hs (List.prefix_append f _)).resolve_right hsf
      have hall : s ≠ f := fun he => hsf (he ▸ List.prefix_rfl)
      rw [cut_of_not_frame fun g t hg => hall (eq_of_isPrefix hf hcut hg),
        cut_of_not_frame fun g t hg => hall (eq_of_isPrefix (h.isFrame hf) hcut hg)]

end Framing
