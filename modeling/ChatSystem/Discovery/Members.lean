import ChatSystem.Chat.Admission
import ChatSystem.Chat.Seating
import ChatSystem.Discovery.Credentials

/-!
# Who is online has registered

The chat servers and the discovery server together: while connections register at the one, the
others ask it about logins. In whatever order this happens, nobody is online under a name that was
not registered with the password of the login.
-/

namespace ChatSystem.Discovery

open Bytes Transition Chat

/-- A chat server asks a discovery server: its exchanges fail, or are answered somewhere in a run.
They leave the registry alone, and are not among the connections of the run. -/
def Asks (ks : List Label) (disc : ChatSystem.Discovery) : Prop :=
  ∃ exchange, disc = some exchange ∧ ∀ req, exchange req = none ∨
    ∃ js d now peer, js <+: ks ∧ run step Server.init js = some d ∧
      exchange req = ask now peer d.registry req

/-- Who is online was asked for a login, with a name and a password that were registered when the
discovery server was asked. -/
def Registered (ks : List Label) (room : Room) (asked : List (Nat × Message)) : Prop :=
  ∀ c u, LoggedInAs room c u → ∃ m p js d ip port, (c, m) ∈ asked ∧ m.kind = some .login ∧
    scanLogin m.payload.toList = some (u, p) ∧ js <+: ks ∧ run step Server.init js = some d ∧
    d.registry.Holds u p ∧ (.register u p ip port, .registered) ∈ d.log

variable {ks : List Label} {d : Server} {u p : List UInt8} {fl : Flavour} {history : History}
  {es : List Chat.Event} {room : Room} {asked sent : List (Nat × Message)}

/-- What a map holds behind some operations was there, or is registered by one of them. -/
theorem Users.mem_of_run {m m' : Users} {log : List (Op × Answer)} {r : Registration}
    (h : m.run (log.map Prod.fst) = (log.map Prod.snd, m')) (hu : m' u = some r) :
    m u = some r ∨ (.register u r.password r.ip r.port, .registered) ∈ log := by
  induction log generalizing m with
  | nil =>
    obtain rfl : m = m' := congrArg Prod.snd h
    exact Or.inl hu
  | cons x log ih =>
    obtain ⟨op, a⟩ := x
    obtain ⟨hanswers, husers⟩ := Prod.mk.inj h
    obtain ⟨hanswer, hlater⟩ := List.cons.inj hanswers
    rcases ih (Prod.ext hlater husers) with hexec | hmem
    · cases op with
      | register v q ip port =>
        simp only [Users.exec] at hexec hanswer
        split at hexec
        · exact Or.inl hexec
        · next hroom =>
          rw [if_neg hroom] at hanswer
          have hexec : Function.update m v (some ⟨q, ip, port⟩) u = some r := hexec
          by_cases huv : u = v
          · subst huv
            rw [Function.update_self] at hexec
            obtain rfl := Option.some.inj hexec
            exact Or.inr (hanswer ▸ List.mem_cons_self)
          · rw [Function.update_of_ne huv] at hexec
            exact Or.inl hexec
      | discover target =>
        simp only [Users.exec] at hexec
        split at hexec <;> exact Or.inl hexec
      | validate v q => exact Or.inl hexec
    · exact Or.inr (List.mem_cons_of_mem _ hmem)

/-- What the registry holds was registered. -/
theorem registered_of_holds (h : Reachable step Server.init d) (hholds : d.registry.Holds u p) :
    ∃ ip port, (.register u p ip port, .registered) ∈ d.log := by
  have href := refines_of_reachable h
  obtain ⟨r, hr, rfl⟩ := href.ok.holds_users.mp hholds
  refine ⟨r.ip, r.port, (Users.mem_of_run href.run hr).resolve_left ?_⟩
  intro hnone
  cases hnone

/-- A login that is validated was asked for where the registry held it. -/
theorem Asks.holds {disc : ChatSystem.Discovery} {payload : List UInt8} {now : UInt64}
    (h : Asks ks disc) (hscan : scanLogin payload = some (u, p))
    (hvalid : validate disc now u p = true) :
    ∃ js d, js <+: ks ∧ run step Server.init js = some d ∧ d.registry.Holds u p := by
  obtain ⟨exchange, rfl, hexchange⟩ := h
  rcases hexchange (validateRequest now u p) with hnone | ⟨js, d, now', peer, hjs, hd, hask⟩
  · simp only [validate, hnone] at hvalid
    cases hvalid
  · refine ⟨js, d, hjs, hd, ?_⟩
    have hok := (refines_of_reachable ⟨js, hd⟩).ok
    have hvalid : validate (some (ask now' peer d.registry)) now u p = true := by
      simp only [validate, hask] at hvalid ⊢
      exact hvalid
    rw [validate_ask hok hscan] at hvalid
    exact of_decide_eq_true hvalid

/-- Nobody is online behind events of a room that asks the discovery server but with a
registration. -/
theorem registered_of_asks (hasks : ∀ e ∈ es, Asks ks e.env.disc)
    (hroom : roomAfter fl history es = room) (hasked : es.filterMap Event.asked = asked) :
    Registered ks room asked := by
  intro c u h
  rw [← hroom] at h
  obtain ⟨e, he, p, m, env, rfl, hkind, hscan, hvalid⟩ := exists_login h
  obtain ⟨js, d, hjs, hd, hholds⟩ := (hasks _ he).holds hscan hvalid
  obtain ⟨ip, port, hlog⟩ := registered_of_holds ⟨js, hd⟩ hholds
  refine ⟨m.val, p, js, d, ip, port, ?_, hkind, hscan, hjs, hd, hholds, hlog⟩
  rw [← hasked]
  exact List.mem_filterMap.mpr ⟨_, he, rfl⟩

/-! ## The servers -/

/-- The events of a shift are in its surroundings. -/
theorem env_of_shift {st : Thread.State} {n : Thread.Shift} {e : Chat.Event}
    (h : e ∈ Thread.eventsOf st n) : e.env = n.env := by
  obtain ⟨s, l, hl, he⟩ := mem_collect h
  obtain ⟨i, -, rfl⟩ := List.mem_map.mp hl
  unfold Thread.eventOf at he
  repeat' split at he
  all_goals
    first
    | obtain rfl := List.mem_singleton.mp he
      rfl
    | cases he

/-- The events of a round are in the surroundings of its steps. -/
theorem env_of_round {st : Fork.State} {n : Fork.Round} {e : Chat.Event}
    (h : e ∈ Fork.eventsOf st n) : ∃ l ∈ n.labels, e.env = l.2.env := by
  obtain ⟨s, l, hl, he⟩ := mem_collect h
  refine ⟨l, hl, ?_⟩
  unfold Fork.eventOf at he
  repeat' split at he
  all_goals
    first
    | obtain rfl := List.mem_singleton.mp he
      rfl
    | cases he

/-- A user registers. -/
def registration : List Label :=
  [.accept 0 somePeer, .recv 0 (some (registerRequest 0 (ascii "a") (ascii "p") 5)), .serve 0 0]

/-- The user logs in at a thread server. -/
def membership (disc : ChatSystem.Discovery) : List Thread.Shift :=
  [⟨.main, { Thread.noInput.env with disc := disc }, [],
      { Thread.noInput with fd := some 4 } :: List.replicate 4 Thread.noInput⟩,
    ⟨.client 0 0, { Thread.noInput.env with disc := disc }, [],
      Thread.reads (Thread.loginAs "a") :: List.replicate 12 Thread.noInput⟩]

/-- A client thread waits for a message. -/
def receives : Thread.Code → Bool
  | .act (.recv _) :: _ => true
  | _ => false

theorem resting_of_receives {p : Thread.Code} (h : receives p = true) : Thread.Resting p := by
  unfold receives at h
  split at h
  · trivial
  · cases h

end ChatSystem.Discovery
