import Mathlib.Logic.Function.Basic
import ChatSystem.Core.Bytes

/-!
# The kernel under the epoll server

Descriptors of accepted connections, the bytes accepted for each connection,
its permanent error if one was reported, and the interest set of the epoll
instance. The results of the coming `write` calls are prescribed; when none is
left the socket has no room.
-/

namespace ChatSystem.Epoll

/-- The result prescribed for one non-blocking `write`. -/
inductive WriteAnswer
  /-- Accept at most `n + 1` bytes. -/
  | took (n : Nat)
  /-- `EAGAIN`. -/
  | again
  /-- A permanent error of the descriptor. -/
  | failed
  deriving DecidableEq, Repr

/-- How a write loop ends. -/
inductive Stop
  | done | again | failed
  deriving DecidableEq, Repr

/-- The kernel side of the server. -/
structure Kernel where
  /-- The connection an open descriptor stands for. -/
  conn : Nat → Option Nat
  /-- The bytes accepted for a connection so far. -/
  wire : Nat → List UInt8
  /-- Whether a connection has a permanent error. -/
  broken : Nat → Bool
  /-- The registration of a descriptor; `some b` has `EPOLLOUT` in its set iff `b`. -/
  interest : Nat → Option Bool
  /-- The results of the coming `write` calls. -/
  script : List WriteAnswer
  /-- The number of connections accepted so far. -/
  accepted : Nat

/-- The kernel before the first connection. -/
def Kernel.init : Kernel := ⟨fun _ => none, fun _ => [], fun _ => false, fun _ => none, [], 0⟩

/-- `while (sent < len) { n = write(..); if (n > 0) .. EAGAIN: stop; error: stop }`:
how it ends, how many bytes were accepted, and the results left over. -/
def writeLoop : List WriteAnswer → List UInt8 → Stop × Nat × List WriteAnswer
  | as, [] => (.done, 0, as)
  | [], _ :: _ => (.again, 0, [])
  | .again :: as, _ :: _ => (.again, 0, as)
  | .failed :: as, _ :: _ => (.failed, 0, as)
  | .took n :: as, _ :: d =>
    let (stop, sent, as) := writeLoop as (d.drop n)
    (stop, min (n + 1) (d.length + 1) + sent, as)

/-- The write loop on a descriptor. With something to write, a closed descriptor or one
with a permanent error fails at once. -/
def Kernel.writeAll (k : Kernel) (fd : Nat) (d : List UInt8) : Stop × Nat × Kernel :=
  if d.isEmpty then (.done, 0, k)
  else match k.conn fd with
  | none => (.failed, 0, k)
  | some c =>
    if k.broken c then (.failed, 0, k)
    else
      let (stop, sent, script) := writeLoop k.script d
      (stop, sent,
        { k with
          wire := Function.update k.wire c (k.wire c ++ d.take sent)
          broken := Function.update k.broken c (stop = .failed)
          script := script })

/-- `epoll_ctl(epfd, EPOLL_CTL_MOD, fd, ..)`; an unregistered descriptor is an error. -/
def Kernel.epmod (k : Kernel) (fd : Nat) (out : Bool) : Kernel :=
  match k.interest fd with
  | none => k
  | some _ => { k with interest := Function.update k.interest fd (some out) }

/-- `epoll_ctl(epfd, EPOLL_CTL_ADD, fd, ..)` for a new connection. -/
def Kernel.register (k : Kernel) (fd : Nat) : Kernel :=
  { k with interest := Function.update k.interest fd (some false) }

/-- `epoll_ctl(epfd, EPOLL_CTL_DEL, fd, NULL); close(fd)`. -/
def Kernel.close (k : Kernel) (fd : Nat) : Kernel :=
  { k with
    conn := Function.update k.conn fd none
    interest := Function.update k.interest fd none }

/-- `accept`: the next connection gets the descriptor `fd`. -/
def Kernel.accept (k : Kernel) (fd : Nat) : Kernel :=
  { k with conn := Function.update k.conn fd (some k.accepted), accepted := k.accepted + 1 }

/-! ## The write loop -/

/-- A write loop accepts a prefix, all of it exactly when it is done. -/
theorem writeLoop_spec (as : List WriteAnswer) (d : List UInt8) :
    (writeLoop as d).2.1 ≤ d.length ∧
      ((writeLoop as d).1 = .done ↔ (writeLoop as d).2.1 = d.length) := by
  induction as, d using writeLoop.induct with
  | case1 as => simp [writeLoop]
  | case2 b d => simp [writeLoop]
  | case3 as b d => simp [writeLoop]
  | case4 as b d => simp [writeLoop]
  | case5 n as b d stop sent as' hrec ih =>
    simp only [hrec, List.length_drop] at ih
    obtain ⟨h1, h2⟩ := ih
    simp only [writeLoop, hrec, List.length_cons]
    refine ⟨by omega, h2.trans ?_⟩
    omega

/-- A write loop changes neither the descriptors nor the registrations. -/
theorem Kernel.writeAll_frame (k : Kernel) (fd : Nat) (d : List UInt8) :
    (k.writeAll fd d).2.2.conn = k.conn ∧ (k.writeAll fd d).2.2.interest = k.interest ∧
      (k.writeAll fd d).2.2.accepted = k.accepted := by
  unfold writeAll
  split
  · exact ⟨rfl, rfl, rfl⟩
  · split
    · exact ⟨rfl, rfl, rfl⟩
    · split <;> exact ⟨rfl, rfl, rfl⟩

/-- A write loop on another connection's descriptor leaves a connection alone. -/
theorem Kernel.writeAll_other {k : Kernel} {fd c : Nat} (h : k.conn fd ≠ some c)
    (d : List UInt8) : (k.writeAll fd d).2.2.wire c = k.wire c ∧
      (k.writeAll fd d).2.2.broken c = k.broken c := by
  unfold writeAll
  split
  · exact ⟨rfl, rfl⟩
  · split
    · exact ⟨rfl, rfl⟩
    · next c' hc' =>
      have hne : c ≠ c' := fun he => h (he ▸ hc')
      split
      · exact ⟨rfl, rfl⟩
      · exact ⟨Function.update_of_ne hne _ _, Function.update_of_ne hne _ _⟩

/-- A write loop gets a prefix accepted, all of it exactly when it is done. -/
theorem Kernel.writeAll_le (k : Kernel) (fd : Nat) (d : List UInt8) :
    (k.writeAll fd d).2.1 ≤ d.length ∧
      ((k.writeAll fd d).1 = .done ↔ (k.writeAll fd d).2.1 = d.length) := by
  unfold writeAll
  split
  · next hd =>
    obtain rfl := List.isEmpty_iff.mp hd
    simp
  · next hd =>
    have hpos : 0 ≠ d.length := by
      rw [List.isEmpty_iff] at hd
      exact fun h => hd (List.length_eq_zero_iff.mp h.symm)
    have hfailed : (Stop.failed = .done ↔ 0 = d.length) :=
      iff_of_false (fun h => by cases h) hpos
    split
    · exact ⟨Nat.zero_le _, hfailed⟩
    · split
      · exact ⟨Nat.zero_le _, hfailed⟩
      · exact writeLoop_spec k.script d

/-- What a write loop accepts goes to the connection of the descriptor: nothing behind a
permanent error, and without one afterwards the loop did not fail. -/
theorem Kernel.writeAll_spec {k : Kernel} {fd c : Nat} (hc : k.conn fd = some c)
    (d : List UInt8) :
    (k.writeAll fd d).2.2.wire c = k.wire c ++ d.take (k.writeAll fd d).2.1 ∧
      (k.broken c = true → (k.writeAll fd d).2.1 = 0) ∧
      ((k.writeAll fd d).2.2.broken c = false →
        k.broken c = false ∧ (k.writeAll fd d).1 ≠ .failed) := by
  unfold writeAll
  split
  · exact ⟨by simp, fun _ => rfl, fun h => ⟨h, by simp⟩⟩
  · simp only [hc]
    split
    · next hb =>
      refine ⟨by simp, fun _ => rfl, fun h => ?_⟩
      rw [hb] at h
      cases h
    · next hb =>
      simp only [Function.update_self]
      exact ⟨trivial, fun h => absurd h hb, fun h => ⟨by simpa using hb, by simpa using h⟩⟩

@[simp] theorem Kernel.epmod_conn (k : Kernel) (fd : Nat) (out : Bool) :
    (k.epmod fd out).conn = k.conn := by
  unfold epmod
  split <;> rfl

@[simp] theorem Kernel.epmod_wire (k : Kernel) (fd : Nat) (out : Bool) :
    (k.epmod fd out).wire = k.wire := by
  unfold epmod
  split <;> rfl

@[simp] theorem Kernel.epmod_broken (k : Kernel) (fd : Nat) (out : Bool) :
    (k.epmod fd out).broken = k.broken := by
  unfold epmod
  split <;> rfl

@[simp] theorem Kernel.epmod_accepted (k : Kernel) (fd : Nat) (out : Bool) :
    (k.epmod fd out).accepted = k.accepted := by
  unfold epmod
  split <;> rfl

end ChatSystem.Epoll
