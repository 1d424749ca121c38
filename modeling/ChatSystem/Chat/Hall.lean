import Mathlib.Data.Set.Card
import Mathlib.Order.Interval.Finset.Nat
import ChatSystem.Chat.Room
import ChatSystem.Server.UserList

/-!
# The hall

What the chat servers are for, without slots: a hall with a limited number of seats. A
connection has a seat or none, and under its seat a name once it is logged in; no two
connections share a name. A message is told to everybody else, to whoever has a name, or to
the connection that asked, and nobody else hears of it.
-/

namespace ChatSystem.Chat

open Bytes

/-- A connection with a seat: its name and its status, once it is logged in. -/
abbrev Guest := Option (List UInt8 × Nat)

/-- What a connection is told: a message, or who is online, in no particular order. -/
inductive Line
  | message (m : Message)
  | online (now : UInt64) (m : Message) (users : Set (List UInt8 × Nat))

/-- What the connections are told. -/
abbrev Talk := Nat → List Line

/-- The connections with a seat, the number of connections so far and the history. -/
@[ext]
structure Hall where
  guest : Nat → Option Guest
  accepted : Nat
  history : History
  known : ∀ c, guest c ≠ none → c < accepted
  apart : ∀ c d u v w, guest c = some (some (u, v)) → guest d = some (some (u, w)) → c = d
  seats_le : {c | guest c ≠ none}.ncard ≤ maxClients

/-- Nobody is told anything. -/
def silence : Talk := fun _ => []

/-- One connection is told something. -/
def only (c : Nat) (l : Line) : Talk := fun d => if d = c then [l] else []

/-- Two things are told, one after the other. -/
def Talk.andThen (t t' : Talk) : Talk := fun d => t d ++ t' d

/-- The name in the notice of a departure that is not a logout: the thread server reads on
behind a name of full length. -/
def Flavour.shownName (fl : Flavour) (name junk : List UInt8) : List UInt8 :=
  match fl with
  | .thread => if name.length = 31 then name ++ cstr junk else name
  | _ => name

namespace Hall

/-- The hall in front of its first event. -/
def empty (history : History) : Hall where
  guest := fun _ => none
  accepted := 0
  history := history
  known := fun _ h => absurd rfl h
  apart := by
    intro c d u v w h
    cases h
  seats_le := by simp

variable (hall : Hall)

/-- The connections with a seat. -/
def seats : Set Nat := {c | hall.guest c ≠ none}

/-- A connection is logged in under a name. -/
def Online (c : Nat) (u : List UInt8) : Prop := ∃ v, hall.guest c = some (some (u, v))

/-- A connection is logged in. -/
def Member (c : Nat) : Prop := ∃ u, hall.Online c u

/-- The names online, with their statuses. -/
def users : Set (List UInt8 × Nat) := {g | ∃ c, hall.guest c = some (some g)}

/-- The name of a connection; empty before its login. -/
def name (c : Nat) : List UInt8 :=
  match hall.guest c with
  | some (some (u, _)) => u
  | _ => []

/-- A name is in use; at the fork server a connection may log in again under its own. -/
def Taken (fl : Flavour) (c : Nat) (u : List UInt8) : Prop :=
  ∃ d, hall.Online d u ∧ (fl = .fork → d ≠ c)

/-- What a guest may be in a seat: not under a name somebody else has. -/
def Admits (c : Nat) (g : Guest) : Prop :=
  ∀ u v, g = some (u, v) → ∀ d, d ≠ c → ¬ hall.Online d u

/-- Nobody sits on a seat of a connection to come. -/
theorem finite_seats : hall.seats.Finite :=
  (Set.finite_Iio hall.accepted).subset hall.known

/-- A new connection takes a free seat. -/
def enter (h : hall.seats.ncard < maxClients) : Hall where
  guest := Function.update hall.guest hall.accepted (some none)
  accepted := hall.accepted + 1
  history := hall.history
  known := by
    intro c hc
    by_cases hca : c = hall.accepted
    · exact hca ▸ Nat.lt_succ_self _
    · rw [Function.update_of_ne hca] at hc
      exact Nat.lt_succ_of_lt (hall.known c hc)
  apart := by
    intro c d u v w hc hd
    rw [Function.update_apply] at hc hd
    split at hc
    · cases hc
    · split at hd
      · cases hd
      · exact hall.apart c d u v w hc hd
  seats_le := by
    refine (Set.ncard_le_ncard (t := insert hall.accepted hall.seats) ?_
      (hall.finite_seats.insert _)).trans ((Set.ncard_insert_le _ _).trans h)
    intro c hc
    by_cases hca : c = hall.accepted
    · exact Or.inl hca
    · exact Or.inr (by rwa [Set.mem_ofPred_eq, Function.update_of_ne hca] at hc)

/-- A new connection finds no seat. -/
def turnAway : Hall :=
  { hall with
    accepted := hall.accepted + 1
    known := fun c hc => Nat.lt_succ_of_lt (hall.known c hc) }

/-- A connection gives up its seat. -/
def leave (c : Nat) : Hall where
  guest := Function.update hall.guest c none
  accepted := hall.accepted
  history := hall.history
  known := by
    intro d hd
    by_cases hdc : d = c
    · rw [hdc, Function.update_self] at hd
      exact absurd rfl hd
    · rw [Function.update_of_ne hdc] at hd
      exact hall.known d hd
  apart := by
    intro d e u v w hd he
    rw [Function.update_apply] at hd he
    split at hd
    · cases hd
    · split at he
      · cases he
      · exact hall.apart d e u v w hd he
  seats_le := by
    refine (Set.ncard_le_ncard (t := hall.seats) ?_ hall.finite_seats).trans hall.seats_le
    intro d hd hnone
    rw [Set.mem_ofPred_eq, Function.update_apply] at hd
    split at hd
    · exact hd rfl
    · exact hd hnone

/-- The guest on a seat changes its name or status. -/
def become (c : Nat) (g : Guest) (hc : hall.guest c ≠ none) (hg : hall.Admits c g) : Hall where
  guest := Function.update hall.guest c (some g)
  accepted := hall.accepted
  history := hall.history
  known := by
    intro d hd
    by_cases hdc : d = c
    · exact hdc ▸ hall.known c hc
    · rw [Function.update_of_ne hdc] at hd
      exact hall.known d hd
  apart := by
    intro d e u v w hd he
    rw [Function.update_apply] at hd he
    split at hd
    · next hdc =>
      split at he
      · next hec => exact hdc.trans hec.symm
      · next hec => exact absurd ⟨w, he⟩ (hg u v (Option.some.inj hd) e hec)
    · next hdc =>
      split at he
      · exact absurd ⟨v, hd⟩ (hg u w (Option.some.inj he) d hdc)
      · exact hall.apart d e u v w hd he
  seats_le := by
    have hseats : {d | Function.update hall.guest c (some g) d ≠ none} = hall.seats := by
      ext d
      by_cases hdc : d = c
      · simp only [hdc, seats, Set.mem_ofPred_eq, Function.update_self, ne_eq, reduceCtorEq,
          not_false_eq_true, true_iff]
        exact hc
      · rw [Set.mem_ofPred_eq, Function.update_of_ne hdc]
        rfl
    rw [hseats]
    exact hall.seats_le

/-- A message is added to the history. -/
def save (env : Env) (m : Message) (receiver : List UInt8) : Hall :=
  { hall with history := hall.history.save env.host m receiver }

theorem admits_none (c : Nat) : hall.Admits c none := by
  intro u v h
  cases h

variable {hall} {c : Nat}

/-- A name that is not taken may be taken. -/
theorem admits_of_not_taken {fl : Flavour} {u : List UInt8} (h : ¬ hall.Taken fl c u) (v : Nat) :
    hall.Admits c (some (u, v)) := by
  intro u' v' he d hd honline
  obtain ⟨rfl, -⟩ := Prod.mk.inj (Option.some.inj he)
  exact h ⟨d, honline, fun _ => hd⟩

/-- A guest may change its status. -/
theorem admits_setStatus {g : Guest} (hc : hall.guest c = some g) (v : Nat) :
    hall.Admits c (g.map fun x => (x.1, v)) := by
  intro u w he d hd honline
  obtain ⟨⟨u', v'⟩, rfl, hu⟩ := Option.map_eq_some_iff.mp he
  obtain ⟨rfl, -⟩ := Prod.mk.inj hu
  obtain ⟨w', hw⟩ := honline
  exact hd (hall.apart d c u' w' v' hw hc)

open Classical in
/-- Everybody else who is logged in is told something. -/
noncomputable def toOthers (hall : Hall) (c : Nat) (m : Message) : Talk :=
  fun d => if d ≠ c ∧ hall.Member d then [.message m] else []

open Classical in
/-- Whoever is logged in under a name is told something. -/
noncomputable def toName (hall : Hall) (u : List UInt8) (m : Message) : Talk :=
  fun d => if hall.Online d u then [.message m] else []

/-- The departure of a logged-out connection is announced. -/
noncomputable def farewell (hall : Hall) (env : Env) (c : Nat) : Talk :=
  hall.toOthers c (notice env.now (leftNote (hall.name c)))

open Classical in
/-- A connection arrives. -/
noncomputable def connect (hall : Hall) (env : Env) : Hall × Talk :=
  if h : hall.seats.ncard < maxClients then (hall.enter h, silence)
  else (hall.turnAway, only hall.accepted (.message (serverFull env.now)))

open Classical in
/-- A connection wants to log in. -/
noncomputable def login (hall : Hall) (fl : Flavour) (env : Env) (c : Nat)
    (hc : hall.guest c ≠ none) (m : Message) : Hall × Talk :=
  match scanLogin m.payload.toList with
  | none => (hall, only c (.message (badLogin env.now)))
  | some (u, p) =>
    if h : hall.Taken fl c u then (hall, only c (.message (alreadyLoggedIn env.now u)))
    else if !validate env.disc env.now u p then
      (hall, only c (.message (invalidCredentials env.now u)))
    else (hall.become c (some (u, statusAvailable)) hc (admits_of_not_taken h _),
      only c (.message (loginSuccessful env.now u)))

/-- A connection logs out; at the fork server it keeps its seat. -/
noncomputable def logout (hall : Hall) (fl : Flavour) (env : Env) (c : Nat)
    (hc : hall.guest c ≠ none) : Hall × Talk :=
  match fl with
  | .fork => (hall.become c none hc (hall.admits_none c), hall.farewell env c)
  | _ => (hall.leave c, hall.farewell env c)

open Classical in
/-- A message for everybody. -/
noncomputable def broadcast (hall : Hall) (env : Env) (c : Nat) (m : Message) : Hall × Talk :=
  if hall.Member c then
    (hall.save env m [], (hall.toOthers c m).andThen (only c (.message (relayed env.now m))))
  else (hall, only c (.message (notAuthenticated env.now)))

open Classical in
/-- A message for one name. -/
noncomputable def priv (hall : Hall) (env : Env) (c : Nat) (m : Message) : Hall × Talk :=
  if hall.Member c then
    if ∃ d, hall.Online d m.receiverStr then
      (hall.save env m m.receiverStr,
        (hall.toName m.receiverStr m).andThen (only c (.message (relayed env.now m))))
    else (hall, only c (.message (userNotOnline env.now m)))
  else (hall, only c (.message (notAuthenticated env.now)))

/-- A request of a connection with a seat. -/
noncomputable def route (hall : Hall) (fl : Flavour) (env : Env) (c : Nat) {g : Guest}
    (hc : hall.guest c = some g) (m : Message) : Hall × Talk :=
  have hseat : hall.guest c ≠ none := by simp [hc]
  match m.kind with
  | some .login => hall.login fl env c hseat m
  | some .logout => hall.logout fl env c hseat
  | some .broadcast => hall.broadcast env c m
  | some .priv => hall.priv env c m
  | some .listUsers => (hall, only c (.online env.now m hall.users))
  | some .historyReq => (hall, only c (.message (historyResponse env.now m hall.history)))
  | some .statusChange =>
    (hall.become c (g.map fun x => (x.1, scanStatus m.payload.toList)) hseat
        (admits_setStatus hc _),
      only c (.message (statusUpdated env.now m)))
  | _ => (hall, only c (.message (unknownType env.now m)))

open Classical in
/-- The notices for a connection that ends. -/
noncomputable def partings (hall : Hall) (fl : Flavour) (how : Leaving) (c : Nat) : Talk :=
  match fl with
  | .fork => if how.reaped then silence else hall.farewell how.env c
  | _ =>
    if hall.Member c then
      hall.toOthers c
        (notice how.env.now (disconnectedNote (fl.shownName (hall.name c) how.junk)))
    else silence

/-- A request; one of a connection without a seat is not heard. -/
noncomputable def request (hall : Hall) (fl : Flavour) (c : Nat) (m : Message) (env : Env) :
    Hall × Talk :=
  match hc : hall.guest c with
  | none => (hall, silence)
  | some _ => hall.route fl env c hc m

/-- The end of a connection. -/
noncomputable def close (hall : Hall) (fl : Flavour) (c : Nat) (how : Leaving) : Hall × Talk :=
  match hall.guest c with
  | none => (hall, silence)
  | some _ => (hall.leave c, hall.partings fl how c)

/-- One event. -/
noncomputable def serve (fl : Flavour) (hall : Hall) : Event → Hall × Talk
  | .connect env => hall.connect env
  | .request c m env => hall.request fl c m.val env
  | .close c how => hall.close fl c how

end Hall

end ChatSystem.Chat
