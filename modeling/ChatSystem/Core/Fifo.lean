import Mathlib.Data.List.Basic

/-!
# Bounded queues

A queue with its past: what was ever put in and what was taken out of that. The items of the
queue are the difference, and there is never more than the capacity of them.
-/

/-- A queue of at most `cap` items. -/
structure Fifo (α : Type*) (cap : Nat) where
  put : List α
  taken : List α
  isPrefix : taken <+: put
  fits : put.length ≤ taken.length + cap

namespace Fifo

variable {α : Type*} {cap : Nat}

/-- What was put in and not taken out. -/
def items (q : Fifo α cap) : List α := q.put.drop q.taken.length

/-- The queue in front of its first item. -/
def empty : Fifo α cap := ⟨[], [], List.prefix_refl [], Nat.zero_le _⟩

theorem taken_append_items (q : Fifo α cap) : q.taken ++ q.items = q.put :=
  List.prefix_iff_eq_append.mp q.isPrefix

theorem length_items (q : Fifo α cap) : q.taken.length + q.items.length = q.put.length := by
  rw [← q.taken_append_items, List.length_append]

@[simp] theorem items_empty : (empty : Fifo α cap).items = [] := rfl

/-- Put items in, if there is room for all of them. -/
def push (q : Fifo α cap) (xs : List α) : Option (Fifo α cap) :=
  if h : q.items.length + xs.length ≤ cap then
    some {
      put := q.put ++ xs
      taken := q.taken
      isPrefix := q.isPrefix.trans (List.prefix_append q.put xs)
      fits := by
        have hlen := q.length_items
        rw [List.length_append]
        omega }
  else none

/-- Take the first `n` items out, or all there are. -/
def pop (q : Fifo α cap) (n : Nat) : Fifo α cap where
  put := q.put
  taken := q.taken ++ q.items.take n
  isPrefix := by
    rw [← q.taken_append_items]
    exact (List.prefix_append_right_inj _).mpr (List.take_prefix n q.items)
  fits := by
    have hfits := q.fits
    rw [List.length_append]
    omega

/-- A push is refused exactly if the items would exceed the capacity. -/
theorem push_eq_none_iff {q : Fifo α cap} {xs : List α} :
    q.push xs = none ↔ cap < q.items.length + xs.length := by
  rw [push]
  split
  · exact iff_of_false nofun (by omega)
  · exact iff_of_true rfl (by omega)

/-- A push appends to what was put in, and to the items. -/
theorem push_eq_some {q q' : Fifo α cap} {xs : List α} (h : q.push xs = some q') :
    q'.put = q.put ++ xs ∧ q'.taken = q.taken ∧ q'.items = q.items ++ xs := by
  rw [push] at h
  split at h
  · obtain rfl := Option.some.inj h
    exact ⟨rfl, rfl, List.drop_append_of_le_length q.isPrefix.length_le⟩
  · cases h

theorem put_pop (q : Fifo α cap) (n : Nat) : (q.pop n).put = q.put := rfl

theorem taken_pop (q : Fifo α cap) (n : Nat) : (q.pop n).taken = q.taken ++ q.items.take n := rfl

theorem items_pop (q : Fifo α cap) (n : Nat) : (q.pop n).items = q.items.drop n := by
  have hput : (q.pop n).taken ++ (q.pop n).items = (q.pop n).taken ++ q.items.drop n := by
    rw [taken_append_items, taken_pop, put_pop, List.append_assoc, List.take_append_drop,
      taken_append_items]
  exact List.append_cancel_left hput

end Fifo
