import ChatSystem.Core.Relay
import ChatSystem.Server.Replies

/-!
# Broadcasts of a server

A broadcast is routed from the slot of its sender to the other slots that are active then.
-/

namespace ChatSystem

open Relay

/-- A broadcast that is routed, with the slots that are active and their connections. -/
structure Post where
  slot : Slot
  origin : Option Nat
  message : Message
  active : Slot → Bool
  conn : Slot → Option Nat

/-- A post is meant for the connection of a slot that is active, but not for its origin. -/
def Post.Reaches (p : Post) (c : Nat) (m : Message) : Prop :=
  m = p.message ∧ p.origin ≠ some c ∧ ∃ j, j ≠ p.slot ∧ p.active j = true ∧ p.conn j = some c

/-- The copies a receiver gets of the posts of one sender. -/
def heardFrom (ps : List Post) (o : Nat) (box : List (Option Nat × Message)) : List Message :=
  (((numbers box).filterMap fun n => ps[n]?).filter fun p => p.origin = some o).map Post.message

/-- A broadcast a server makes itself. -/
def IsNotice (m : Message) : Prop := ∃ now note, m = notice now note

/-- All receivers get the posts in one order, each at most once, if it is meant for them, and
those of a sender in the order in which it sent them. The other broadcasts are the server's. -/
structure TotallyOrdered (ps : List Post) (box : Nat → List (Option Nat × Message))
    (sent : Nat → List Message) : Prop where
  reach : ∀ c n m, (some n, m) ∈ box c → ∃ p, ps[n]? = some p ∧ p.Reaches c m
  once : ∀ c, (numbers (box c)).Nodup
  agree : ∀ c d n k, [n, k].Sublist (numbers (box c)) → n ∈ numbers (box d) →
    k ∈ numbers (box d) → [n, k].Sublist (numbers (box d))
  sender : ∀ c o, (heardFrom ps o (box c)).Sublist (sent o)
  notices : ∀ c m, (none, m) ∈ box c → m.kind = some .broadcast → IsNotice m

/-- An item that is handed over, and is no copy; a broadcast among them is the server's. -/
def IsOwn (x : Item Nat Message) : Prop :=
  ∃ c m, x = .other c m ∧ (m.kind = some .broadcast → IsNotice m)

theorem totallyOrdered {ps : List Post} {box : Nat → List (Option Nat × Message)}
    {sent : Nat → List Message} (h : Ordered Post.Reaches ps box)
    (hsent : ∀ o, ((ps.filter fun p => p.origin = some o).map Post.message).Sublist (sent o))
    (hown : ∀ c m, (none, m) ∈ box c → m.kind = some .broadcast → IsNotice m) :
    TotallyOrdered ps box sent where
  reach := h.reach
  once := h.once
  agree _ _ _ _ := h.agree
  sender c o := (((h.sublist c).filter _).map _).trans (hsent o)
  notices := hown

end ChatSystem
