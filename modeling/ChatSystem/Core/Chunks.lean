import Mathlib.Data.List.Basic

/-!
# Streams written frame by frame

A writer packs an item into a frame and hands the frame over in parts. A stream of parts is
in order if every frame is finished before the next one begins. Its bytes are then those of
whole frames, but for the end of the last one.
-/

namespace Chunks

variable {α β : Type*}

/-- The item whose frame still misses something. -/
def missing (a : α) : List β → Option (α × List β)
  | [] => none
  | b :: bs => some (a, b :: bs)

/-- Parts of frames in order, and what the last frame still misses. -/
inductive InOrder (pack : α → List β) : List (α × List β) → Option (α × List β) → Prop
  | nil : InOrder pack [] none
  | begin {cs : List (α × List β)} {a : α} {p rest : List β} (h : InOrder pack cs none)
    (hp : pack a = p ++ rest) : InOrder pack (cs ++ [(a, p)]) (missing a rest)
  | more {cs : List (α × List β)} {a : α} {p rest : List β}
    (h : InOrder pack cs (some (a, p ++ rest))) :
    InOrder pack (cs ++ [(a, p)]) (missing a rest)

/-- The bytes of a list of parts. -/
def bytes (cs : List (α × List β)) : List β := (cs.map Prod.snd).flatten

@[simp] theorem bytes_nil : bytes ([] : List (α × List β)) = [] := rfl

@[simp] theorem bytes_append (cs ds : List (α × List β)) :
    bytes (cs ++ ds) = bytes cs ++ bytes ds := by
  simp [bytes]

@[simp] theorem bytes_singleton (a : α) (p : List β) : bytes [(a, p)] = p := by
  simp [bytes]

variable {pack : α → List β} {cs : List (α × List β)} {o : Option (α × List β)}

/-- What is missing completes the bytes to whole frames. -/
theorem InOrder.complete (h : InOrder pack cs o) :
    ∃ as : List α, bytes cs ++ (o.map Prod.snd).getD [] = (as.map pack).flatten := by
  have hmissing : ∀ (a : α) (rest : List β), ((missing a rest).map Prod.snd).getD [] = rest := by
    intro a rest
    cases rest <;> rfl
  induction h with
  | nil => exact ⟨[], rfl⟩
  | @begin cs a p rest h hp ih =>
    obtain ⟨as, has⟩ := ih
    refine ⟨as ++ [a], ?_⟩
    rw [Option.map_none, Option.getD_none, List.append_nil] at has
    rw [hmissing, bytes_append, bytes_singleton, has, List.append_assoc, ← hp]
    simp
  | @more cs a p rest h ih =>
    obtain ⟨as, has⟩ := ih
    refine ⟨as, ?_⟩
    rw [hmissing, bytes_append, bytes_singleton, List.append_assoc]
    exact has

/-- The bytes of parts in order are the front of whole frames. -/
theorem InOrder.isPrefix (h : InOrder pack cs o) :
    ∃ as : List α, bytes cs <+: (as.map pack).flatten := by
  obtain ⟨as, has⟩ := h.complete
  exact ⟨as, _, has⟩

theorem InOrder.ne_nil (h : InOrder pack cs o) {a : α} {rest : List β} (ho : o = some (a, rest)) :
    rest ≠ [] := by
  rintro rfl
  cases h with
  | nil => cases ho
  | @begin _ _ _ rest => cases rest <;> simp [missing] at ho
  | @more _ _ _ rest => cases rest <;> simp [missing] at ho

end Chunks
