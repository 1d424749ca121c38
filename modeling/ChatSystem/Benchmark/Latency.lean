import Mathlib.Data.Fintype.Defs
import Mathlib.Logic.Function.Basic
import ChatSystem.Core.Transition

/-!
# Latencies of the load clients

Each load client sends its broadcasts from one thread and reads its socket in another; the
two share the list of send times under a lock. The server acknowledges the broadcasts of a
client in order and relays them to the other clients, at any time behind the send.
-/

namespace ChatSystem.Benchmark

open Transition

/-- A frame on the socket of a load client. -/
inductive Reply (n : Nat)
  /-- The ACK of the client's own broadcast `k`. -/
  | ack (k : Nat)
  /-- Broadcast `k` of the client `j`. -/
  | relay (j : Fin n) (k : Nat)
  deriving DecidableEq, Repr

/-- An entry of `_pending`: the clock at the append, by the number of the send. -/
structure Stamp where
  send : Nat
  clock : Int
  deriving DecidableEq, Repr

/-- An entry of `lats`, by the send whose stamp it uses and the frame at which it was taken. -/
structure Latency (n : Nat) where
  send : Nat
  taken : Reply n
  ms : Int
  deriving DecidableEq, Repr

/-- A `Client` of the script with its socket. -/
structure LoadClient (n : Nat) where
  pending : List Stamp
  lats : List (Latency n)
  /-- The turns of `_send` that have appended their stamp, and those that have sent. -/
  noted : Nat
  sent : Nat
  /-- `sendall` has raised. -/
  stopped : Bool
  /-- Frames on their way to `recv`, the broadcasts acknowledged, and those relayed from others. -/
  inbox : List (Reply n)
  acked : Nat
  relayed : Fin n → Nat
  /-- `_reader` is between `recv` and the lock, with this frame. -/
  held : Option (Reply n)
  /-- `_reader` has left its loop. -/
  ended : Bool

/-- A client behind its login. -/
def LoadClient.init (n : Nat) : LoadClient n := ⟨[], [], 0, 0, false, [], 0, fun _ => 0, none, false⟩

/-- What happens next, to the client `i`. -/
inductive Happening (n : Nat)
  /-- `_pending.append(time.perf_counter())`. -/
  | note (i : Fin n) (clock : Int)
  /-- `sendall` of the broadcast noted last, or its exception. -/
  | sendall (i : Fin n) (ok : Bool)
  /-- The ACK of the next broadcast reaches the socket. -/
  | ack (i : Fin n)
  /-- The next broadcast of `j` reaches the socket. -/
  | relay (i j : Fin n)
  /-- `recv` returns a frame. -/
  | recv (i : Fin n)
  /-- The locked part of `_reader`. -/
  | record (i : Fin n) (clock : Int)
  /-- `recv` returns `None`. -/
  | timeout (i : Fin n)
  deriving DecidableEq, Repr

variable {n : Nat}

/-- The locked part of `_reader` behind a frame. -/
def LoadClient.record (c : LoadClient n) (r : Reply n) (clock : Int) : LoadClient n :=
  match c.pending with
  | [] => { c with held := none }
  | p :: ps =>
    { c with
      held := none
      pending := ps
      lats := c.lats ++ [⟨p.send, r, (clock - p.clock) * 1000⟩] }

/-- One step of a client, given the number of broadcasts each of them has sent. -/
def LoadClient.step (msgs : Nat) (sent : Fin n → Nat) (c : LoadClient n) :
    Happening n → Option (LoadClient n)
  | .note _ clock =>
    if c.stopped = false ∧ c.noted = c.sent ∧ c.noted < msgs then
      some { c with pending := c.pending ++ [⟨c.noted, clock⟩], noted := c.noted + 1 }
    else none
  | .sendall _ ok =>
    if c.stopped = false ∧ c.sent < c.noted then
      some (if ok then { c with sent := c.sent + 1 } else { c with stopped := true })
    else none
  | .ack _ =>
    if c.acked < c.sent then
      some { c with inbox := c.inbox ++ [.ack c.acked], acked := c.acked + 1 }
    else none
  | .relay i j =>
    if j ≠ i ∧ c.relayed j < sent j then
      some { c with
        inbox := c.inbox ++ [.relay j (c.relayed j)]
        relayed := Function.update c.relayed j (c.relayed j + 1) }
    else none
  | .recv _ =>
    match c.ended, c.held, c.inbox with
    | false, none, r :: rs => some { c with held := some r, inbox := rs }
    | _, _, _ => none
  | .record _ clock => c.held.map fun r => c.record r clock
  | .timeout _ => if c.held = none then some { c with ended := true } else none

/-- The client a happening is about. -/
def Happening.client : Happening n → Fin n
  | .note i _ | .sendall i _ | .ack i | .relay i _ | .recv i | .record i _ | .timeout i => i

/-- One step of the load test with `msgs` broadcasts a client. -/
def loadStep (msgs : Nat) (s : Fin n → LoadClient n) (l : Happening n) :
    Option (Fin n → LoadClient n) :=
  ((s l.client).step msgs (fun j => (s j).sent) l).map (Function.update s l.client)

/-- Every latency of the client was taken at the ACK of its own send. -/
def Paired (c : LoadClient n) : Prop := ∀ e ∈ c.lats, e.taken = .ack e.send

/-- `_reader` does not look at a relayed broadcast while a send is pending. -/
def Undisturbed (s : Fin n → LoadClient n) (l : Happening n) : Prop :=
  ∀ i clock j k, l = .record i clock → (s i).held = some (.relay j k) → (s i).pending = []

/-! ## Clients without disturbance -/

/-- The ACKs among frames. -/
def acksIn (rs : List (Reply n)) : List Nat :=
  rs.filterMap fun
    | .ack k => some k
    | .relay _ _ => none

/-- The sends still to be acknowledged are pending, in the order in which their ACKs arrive. -/
structure InStep (c : LoadClient n) (m : Nat) : Prop where
  le_acked : m ≤ c.acked
  acked_le : c.acked ≤ c.sent
  sent_le : c.sent ≤ c.noted
  pending : c.pending.map Stamp.send = List.range' m (c.noted - m)
  acks : acksIn (c.held.toList ++ c.inbox) = List.range' m (c.acked - m)
  paired : Paired c

variable {c d : LoadClient n} {m : Nat}

theorem acksIn_append (rs ts : List (Reply n)) : acksIn (rs ++ ts) = acksIn rs ++ acksIn ts :=
  List.filterMap_append

theorem range'_succ_sub {a : Nat} (h : m ≤ a) :
    List.range' m (a + 1 - m) = List.range' m (a - m) ++ [a] := by
  rw [Nat.succ_sub h, List.range'_concat, Nat.one_mul, Nat.add_sub_cancel' h]

theorem inStep_init : InStep (LoadClient.init n) 0 :=
  ⟨Nat.le_refl 0, Nat.le_refl 0, Nat.le_refl 0, rfl, rfl, fun _ he => by cases he⟩

theorem record_of_nil (hp : c.pending = []) (r : Reply n) (clock : Int) :
    c.record r clock = { c with held := none } := by
  rw [LoadClient.record, hp]

theorem record_of_cons {p : Stamp} {ps : List Stamp} (hp : c.pending = p :: ps) (r : Reply n)
    (clock : Int) : c.record r clock =
      { c with
        held := none
        pending := ps
        lats := c.lats ++ [⟨p.send, r, (clock - p.clock) * 1000⟩] } := by
  rw [LoadClient.record, hp]

/-- The front of a run of numbers. -/
theorem range'_eq_cons {a k : Nat} {ks : List Nat} (h : List.range' m (a - m) = k :: ks) :
    m < a ∧ k = m ∧ ks = List.range' (m + 1) (a - (m + 1)) := by
  obtain ⟨j, hj⟩ : ∃ j, a - m = j + 1 := by
    cases hj : a - m with
    | zero =>
      rw [hj] at h
      cases h
    | succ j => exact ⟨j, rfl⟩
  rw [hj, List.range'_succ] at h
  obtain ⟨hk, hks⟩ := List.cons.inj h
  refine ⟨by omega, hk.symm, ?_⟩
  rw [← hks, show a - (m + 1) = j by omega]

/-- The locked part takes the stamp of the broadcast whose ACK is held. -/
theorem InStep.record_ack (h : InStep c m) {k : Nat} (hk : c.held = some (.ack k)) (clock : Int) :
    InStep (c.record (.ack k) clock) (m + 1) := by
  have hacks := h.acks
  rw [hk] at hacks
  obtain ⟨hlt, rfl, hrest⟩ := range'_eq_cons hacks.symm
  have hlate := h.acked_le
  have hsent := h.sent_le
  cases hp : c.pending with
  | nil =>
    have hpend := h.pending
    rw [hp] at hpend
    have := congrArg List.length hpend
    rw [List.length_range', List.map_nil, List.length_nil] at this
    omega
  | cons p ps =>
    have hpend := h.pending
    rw [hp] at hpend
    obtain ⟨-, hsend, hps⟩ := range'_eq_cons hpend.symm
    rw [record_of_cons hp]
    refine ⟨hlt, hlate, hsent, hps, hrest, ?_⟩
    intro e he
    rcases List.mem_append.mp he with he | he
    · exact h.paired e he
    · obtain rfl := List.mem_singleton.mp he
      rw [hsend]

/-- Without a pending send a relayed broadcast passes unnoticed. -/
theorem InStep.record_relay (h : InStep c m) {j : Fin n} {k : Nat}
    (hk : c.held = some (.relay j k)) (hp : c.pending = []) (clock : Int) :
    InStep (c.record (.relay j k) clock) m := by
  have hacks := h.acks
  rw [hk] at hacks
  rw [record_of_nil hp]
  exact ⟨h.le_acked, h.acked_le, h.sent_le, h.pending, hacks, h.paired⟩

/-- Every step of a client keeps it in step, if no relayed broadcast meets a pending send. -/
theorem InStep.step (h : InStep c m) {msgs : Nat} {sent : Fin n → Nat} {l : Happening n}
    (hok : ∀ i clock j k, l = .record i clock → c.held = some (.relay j k) → c.pending = [])
    (hs : c.step msgs sent l = some d) : ∃ m', InStep d m' := by
  have hlate := h.acked_le
  have hnoted := h.sent_le
  have hm := h.le_acked
  unfold LoadClient.step at hs
  cases l with
  | note i clock =>
    simp only at hs
    split at hs
    · obtain rfl := Option.some.inj hs
      refine ⟨m, hm, hlate, Nat.le_succ_of_le hnoted, ?_, h.acks, h.paired⟩
      simp only [List.map_append, h.pending, List.map_cons, List.map_nil]
      exact (range'_succ_sub (hm.trans (hlate.trans hnoted))).symm
    · cases hs
  | sendall i ok =>
    simp only at hs
    split at hs
    · next hbusy =>
      obtain rfl := Option.some.inj hs
      cases ok with
      | true => exact ⟨m, hm, Nat.le_succ_of_le hlate, hbusy.2, h.pending, h.acks, h.paired⟩
      | false => exact ⟨m, hm, hlate, hnoted, h.pending, h.acks, h.paired⟩
    · cases hs
  | ack i =>
    simp only at hs
    split at hs
    · next hdue =>
      obtain rfl := Option.some.inj hs
      refine ⟨m, Nat.le_succ_of_le hm, hdue, hnoted, h.pending, ?_, h.paired⟩
      simp only [← List.append_assoc]
      rw [acksIn_append, h.acks]
      exact (range'_succ_sub hm).symm
    · cases hs
  | relay i j =>
    simp only at hs
    split at hs
    · obtain rfl := Option.some.inj hs
      refine ⟨m, hm, hlate, hnoted, h.pending, ?_, h.paired⟩
      simp only [← List.append_assoc]
      rw [acksIn_append, h.acks]
      exact List.append_nil _
    · cases hs
  | recv i =>
    simp only at hs
    split at hs
    · next r rs _ hheld hinbox =>
      obtain rfl := Option.some.inj hs
      refine ⟨m, hm, hlate, hnoted, h.pending, ?_, h.paired⟩
      have hacks := h.acks
      rw [hheld, hinbox] at hacks
      exact hacks
    · cases hs
  | record i clock =>
    simp only [Option.map_eq_some_iff] at hs
    obtain ⟨r, hr, rfl⟩ := hs
    cases r with
    | ack k => exact ⟨m + 1, h.record_ack hr clock⟩
    | relay j k => exact ⟨m, h.record_relay hr (hok i clock j k rfl hr) clock⟩
  | timeout i =>
    simp only at hs
    split at hs
    · obtain rfl := Option.some.inj hs
      exact ⟨m, hm, hlate, hnoted, h.pending, h.acks, h.paired⟩
    · cases hs

/-! ## Disturbed clients -/

/-- Latencies once recorded stay. -/
theorem lats_step {msgs : Nat} {sent : Fin n → Nat} {l : Happening n}
    (hs : c.step msgs sent l = some d) : c.lats <+: d.lats := by
  unfold LoadClient.step at hs
  cases l with
  | record i clock =>
    simp only [Option.map_eq_some_iff] at hs
    obtain ⟨r, -, rfl⟩ := hs
    unfold LoadClient.record
    split
    · exact List.prefix_rfl
    · exact List.prefix_append _ _
  | sendall i ok =>
    simp only at hs
    split at hs
    · obtain rfl := Option.some.inj hs
      split <;> exact List.prefix_rfl
    · cases hs
  | recv i =>
    simp only at hs
    split at hs
    · obtain rfl := Option.some.inj hs
      exact List.prefix_rfl
    · cases hs
  | note i clock | ack i | relay i j | timeout i =>
    simp only at hs
    split at hs
    · obtain rfl := Option.some.inj hs
      exact List.prefix_rfl
    · cases hs

/-- A relayed broadcast that meets a pending send is taken for its ACK. -/
theorem not_paired_of_relay {j : Fin n} {k : Nat} (hp : c.pending ≠ []) (clock : Int) :
    ¬ Paired (c.record (.relay j k) clock) := by
  intro h
  cases hc : c.pending with
  | nil => exact hp hc
  | cons p ps =>
    rw [record_of_cons hc] at h
    have hlast := h ⟨p.send, .relay j k, (clock - p.clock) * 1000⟩ (by simp)
    cases hlast

/-! ## Load tests -/

variable {msgs : Nat} {s t : Fin n → LoadClient n} {l : Happening n}

/-- A step of the test is a step of one client. -/
theorem loadStep_cases (hs : loadStep msgs s l = some t) :
    ∃ d, (s l.client).step msgs (fun j => (s j).sent) l = some d ∧
      t = Function.update s l.client d := by
  obtain ⟨d, hd, ht⟩ := Option.map_eq_some_iff.mp hs
  exact ⟨d, hd, ht.symm⟩

/-- An undisturbed step keeps every client in step. -/
theorem inStep_loadStep (h : ∀ i, ∃ m, InStep (s i) m) (hok : Undisturbed s l)
    (hs : loadStep msgs s l = some t) : ∀ i, ∃ m, InStep (t i) m := by
  obtain ⟨d, hd, rfl⟩ := loadStep_cases hs
  intro i
  by_cases hi : i = l.client
  · subst hi
    rw [Function.update_self]
    obtain ⟨m, hm⟩ := h l.client
    refine hm.step ?_ hd
    rintro i clock j k rfl hheld
    exact hok i clock j k rfl hheld
  · rw [Function.update_of_ne hi]
    exact h i

/-- A disturbed step records a latency at the broadcast of another client. -/
theorem not_paired_loadStep (hok : ¬ Undisturbed s l) (hs : loadStep msgs s l = some t) :
    ∃ i, ¬ Paired (t i) := by
  unfold Undisturbed at hok
  push Not at hok
  obtain ⟨i, clock, j, k, rfl, hheld, hp⟩ := hok
  obtain ⟨d, hd, rfl⟩ := loadStep_cases hs
  obtain ⟨r, hr, rfl⟩ := Option.map_eq_some_iff.mp hd
  obtain rfl := Option.some.inj (hheld.symm.trans hr)
  refine ⟨i, ?_⟩
  change ¬ Paired (Function.update s i _ i)
  rw [Function.update_self]
  exact not_paired_of_relay hp clock

theorem not_paired_stays (h : ∃ i, ¬ Paired (s i)) (hs : loadStep msgs s l = some t) :
    ∃ i, ¬ Paired (t i) := by
  obtain ⟨i, hi⟩ := h
  obtain ⟨d, hd, rfl⟩ := loadStep_cases hs
  refine ⟨i, fun hp => hi ?_⟩
  by_cases hil : i = l.client
  · subst hil
    rw [Function.update_self] at hp
    exact fun e he => hp e ((lats_step hd).subset he)
  · rwa [Function.update_of_ne hil] at hp

/-- In a load test with any number of clients every recorded latency was taken at the ACK of its
own send, exactly if no reader looks at a relayed broadcast while a send is pending. -/
theorem paired_iff_undisturbed {ls : List (Happening n)}
    (hrun : run (loadStep msgs) (fun _ => LoadClient.init n) ls = some t) :
    (∀ i, Paired (t i)) ↔
      Meets (loadStep msgs) Undisturbed (fun _ => LoadClient.init n) ls := by
  have hkeep : ∀ s (l : Happening n) s', True → (∀ i, ∃ m, InStep (s i) m) → Undisturbed s l →
      loadStep msgs s l = some s' → ∀ i, ∃ m, InStep (s' i) m :=
    fun s l s' _ hg hok hs => inStep_loadStep hg hok hs
  have hstay : ∀ s (l : Happening n) s', True → (∃ i, ¬ Paired (s i)) →
      loadStep msgs s l = some s' → ∃ i, ¬ Paired (s' i) :=
    fun s l s' _ hb hs => not_paired_stays hb hs
  have h := meets_or_broken (fun _ _ _ _ _ => trivial) hkeep
    (fun s l s' _ hok hs => not_paired_loadStep hok hs) hstay trivial
    (fun _ => ⟨0, inStep_init⟩) hrun
  rcases h with ⟨hmeets, hgood⟩ | ⟨hmeets, i, hbad⟩
  · refine iff_of_true (fun i => ?_) hmeets
    obtain ⟨m, hm⟩ := hgood i
    exact hm.paired
  · exact iff_of_false (fun hall => hbad (hall i)) hmeets

/-- Test a step for a disturbance. -/
def undisturbedTest (s : Fin n → LoadClient n) : Happening n → Bool
  | .record i _ =>
    match (s i).held with
    | some (.relay _ _) => (s i).pending.isEmpty
    | _ => true
  | _ => true

theorem undisturbed_of_test (s : Fin n → LoadClient n) (l : Happening n)
    (h : undisturbedTest s l = true) : Undisturbed s l := by
  rintro i clock j k rfl hheld
  rw [undisturbedTest, hheld] at h
  exact List.isEmpty_iff.mp h

/-- One broadcast of the first of two clients, acknowledged. -/
def acknowledged : List (Happening 2) :=
  [.note 0 0, .sendall 0 true, .ack 0, .recv 0, .record 0 7]

/-- Its latency is the time to the ACK. -/
theorem paired_acknowledged : ∃ t, run (loadStep 20) (fun _ => LoadClient.init 2) acknowledged =
    some t ∧ (∀ i, Paired (t i)) ∧ (t 0).lats = [⟨0, .ack 0, 7000⟩] :=
  have hrun : run (loadStep 20) (fun _ => LoadClient.init 2) acknowledged = some _ := rfl
  ⟨_, hrun, (paired_iff_undisturbed hrun).mpr (meets_of_check undisturbed_of_test rfl), rfl⟩

/-- The broadcast of the other client arrives before the ACK. -/
def overtaken : List (Happening 2) :=
  [.note 0 0, .sendall 0 true, .note 1 0, .sendall 1 true, .relay 0 1, .recv 0, .record 0 3]

/-- The first latency is the time to the other client's broadcast. -/
theorem not_paired_overtaken : ∃ t, run (loadStep 20) (fun _ => LoadClient.init 2) overtaken =
    some t ∧ (t 0).lats = [⟨0, .relay 1 0, 3000⟩] ∧ ¬ ∀ i, Paired (t i) :=
  have hrun : run (loadStep 20) (fun _ => LoadClient.init 2) overtaken = some _ := rfl
  ⟨_, hrun, rfl, fun h => by
    have hfirst := h 0 ⟨0, .relay 1 0, 3000⟩ (List.mem_singleton.mpr rfl)
    cases hfirst⟩

end ChatSystem.Benchmark
