import ChatSystem.Core.Transition
import ChatSystem.Discovery.Registry

/-!
# The discovery server

Each connection has its own thread, which receives one request, visits the registry while
it holds `reg_lock` and sends one reply. The visits are atomic and their order is arbitrary:
in every run they are answered as operations on a bounded map.
-/

namespace ChatSystem.Discovery

open Bytes Transition

/-- `sscanf(payload, "%31[^:]:%63[^:]:%d", u, p, &port)`, if it converts all three fields. -/
def scanRegister (payload : List UInt8) : Option (List UInt8 × List UInt8 × Int) := do
  let (u, rest) ← Scan.untilByte 58 31 (cstr payload)
  let rest ← Scan.literal 58 rest
  let (p, rest) ← Scan.untilByte 58 63 rest
  let rest ← Scan.literal 58 rest
  let (port, _) ← Scan.int rest
  return (u, p, port)

/-- `sscanf(payload, "%31[^:]:%63s", u, p)` on zeroed arrays, whatever it converts. -/
def scanValidate (payload : List UInt8) : List UInt8 × List UInt8 :=
  match Scan.untilByte 58 31 (cstr payload) with
  | none => ([], [])
  | some (u, rest) =>
    match (Scan.literal 58 rest).bind (Scan.word 63) with
    | none => (u, [])
    | some (p, _) => (u, p)

/-- The text `inet_ntop` makes of a peer's address. -/
structure Address where
  text : List UInt8
  field : Field 15 text

/-- What a request asks of the registry, if it gets that far. -/
def operation (peer : Address) (req : Message) : Option Op :=
  match req.kind with
  | some .register =>
    (scanRegister req.payload.toList).map fun x => .register x.1 x.2.1 peer.text x.2.2
  | some .discover => some (.discover ((cstr req.payload.toList).take (maxUsernameLen - 1)))
  | some .validate =>
    some (.validate (scanValidate req.payload.toList).1 (scanValidate req.payload.toList).2)
  | _ => none

/-- The name the discovery server sends under. -/
def discoveryName : List UInt8 := ascii "discovery"

/-- The reply to a request that does not reach the registry. -/
def refusal (now : UInt64) (req : Message) : Message :=
  makeError now discoveryName req.senderStr
    (if req.kind = some .register then ascii "Bad payload: need user:pass:port"
      else ascii "Unknown message type")

/-- The reply to an answered request of a sender. -/
def reply (now : UInt64) (sender : List UInt8) : Answer → Message
  | .registered => makeMessage now .ack discoveryName sender (ascii "Registered OK")
  | .full => makeError now discoveryName sender (ascii "Registry full")
  | .address ip port =>
    makeMessage now .discoverResp discoveryName sender
      ((ip ++ ascii ":" ++ Scan.decimal port).take 63)
  | .unknown => makeError now discoveryName sender (ascii "User not found")
  | .valid true => makeMessage now .ack discoveryName sender (ascii "Valid")
  | .valid false => makeError now discoveryName sender (ascii "Invalid credentials")

/-- What a thread does with its request: the reply, and the registry behind it. -/
def serve (now : UInt64) (peer : Address) (req : Message) (reg : Registry) : Message × Registry :=
  match operation peer req with
  | none => (refusal now req, reg)
  | some op => (reply now req.senderStr (reg.exec op).1, (reg.exec op).2)

/-- How far the thread of a connection is. -/
inductive Phase
  | absent
  | reading (peer : Address)
  | asking (peer : Address) (req : Message)
  | replying (resp : Message)
  | closed

/-- The registry, the threads by connection, and the operations in the order of `reg_lock`
with their answers. -/
structure Server where
  registry : Registry
  phase : Nat → Phase
  log : List (Op × Answer)

/-- The server before its first connection. -/
def Server.init : Server := ⟨.zero, fun _ => .absent, []⟩

/-- One step of `main` or of a thread. -/
inductive Label
  /-- `main` accepts a connection and starts its thread. -/
  | accept (c : Nat) (peer : Address)
  /-- `recv_message` returns a request, or fails. -/
  | recv (c : Nat) (req : Option Message)
  /-- The thread serves its request, at most once under `reg_lock`. -/
  | serve (c : Nat) (now : UInt64)
  /-- `send_message` and `close`. -/
  | send (c : Nat)

/-- A thread enters its next phase. -/
def Server.enter (srv : Server) (c : Nat) (p : Phase) : Server :=
  { srv with phase := Function.update srv.phase c p }

/-- One step of the server. -/
def step (srv : Server) : Label → Option Server
  | .accept c peer =>
    match srv.phase c with
    | .absent => some (srv.enter c (.reading peer))
    | _ => none
  | .recv c req =>
    match srv.phase c, req with
    | .reading peer, some req => some (srv.enter c (.asking peer req))
    | .reading _, none => some (srv.enter c .closed)
    | _, _ => none
  | .serve c now =>
    match srv.phase c with
    | .asking peer req =>
      some ({ srv with
        registry := (serve now peer req srv.registry).2
        log := srv.log ++
          ((operation peer req).map fun op => (op, (srv.registry.exec op).1)).toList }.enter c
        (.replying (serve now peer req srv.registry).1))
    | _ => none
  | .send c =>
    match srv.phase c with
    | .replying _ => some (srv.enter c .closed)
    | _ => none

/-! ## Parsed requests -/

/-- The first conversion of either format stores a name that fits. -/
theorem field_of_untilByte {stop : UInt8} {n : Nat} {s got rest : List UInt8}
    (hs : ∀ b ∈ s, b ≠ 0) (h : Scan.untilByte stop n s = some (got, rest)) :
    Field n got ∧ got ≠ [] ∧ ∀ b ∈ rest, b ≠ 0 := by
  obtain ⟨h1, h2, -, h4⟩ := Scan.untilByte_eq_some h
  rw [h4] at hs
  exact ⟨⟨fun b hb => hs b (List.mem_append_left _ hb), h2⟩, h1,
    fun b hb => hs b (List.mem_append_right _ hb)⟩

theorem forall_of_literal {c : UInt8} {s rest : List UInt8} (hs : ∀ b ∈ s, b ≠ 0)
    (h : Scan.literal c s = some rest) : ∀ b ∈ rest, b ≠ 0 := by
  cases s with
  | nil => cases h
  | cons x s =>
    rw [Scan.literal] at h
    split at h
    · obtain rfl := Option.some.inj h
      exact fun b hb => hs b (List.mem_cons_of_mem _ hb)
    · cases h

theorem parsed_of_scanRegister {payload u p : List UInt8} {port : Int}
    (h : scanRegister payload = some (u, p, port)) (peer : Address) :
    (Op.register u p peer.text port).Parsed := by
  simp only [scanRegister, Option.bind_eq_bind, Option.bind_eq_some_iff, Option.pure_def] at h
  obtain ⟨⟨u', r1⟩, hu, r2, hl, ⟨p', r3⟩, hp, r4, -, ⟨port', r5⟩, -, he⟩ := h
  obtain ⟨rfl, he'⟩ := Prod.mk.inj (Option.some.inj he)
  obtain ⟨rfl, rfl⟩ := Prod.mk.inj he'
  obtain ⟨fu, nu, h1⟩ := field_of_untilByte (fun b => mem_cstr) hu
  obtain ⟨fp, np, -⟩ := field_of_untilByte (forall_of_literal h1 hl) hp
  exact ⟨⟨fu, nu⟩, ⟨fp, np⟩, peer.field⟩

theorem field_scanValidate (payload : List UInt8) :
    Field 31 (scanValidate payload).1 ∧ Field 63 (scanValidate payload).2 := by
  unfold scanValidate
  split
  · exact ⟨field_nil 31, field_nil 63⟩
  · next u rest hu =>
    obtain ⟨fu, -, hrest⟩ := field_of_untilByte (fun b => mem_cstr) hu
    split
    · exact ⟨fu, field_nil 63⟩
    · next p r hp =>
      obtain ⟨r2, hl, hw⟩ := Option.bind_eq_some_iff.mp hp
      obtain ⟨-, hlen, -, hmem⟩ := Scan.word_eq_some hw
      exact ⟨fu, fun b hb => forall_of_literal hrest hl b (hmem b hb), hlen⟩

/-- Whatever a request carries, what is asked of the registry fits its fields. -/
theorem parsed_of_operation {peer : Address} {req : Message} {op : Op}
    (h : operation peer req = some op) : op.Parsed := by
  unfold operation at h
  split at h
  · obtain ⟨⟨u, p, port⟩, hscan, rfl⟩ := Option.map_eq_some_iff.mp h
    exact parsed_of_scanRegister hscan peer
  · obtain rfl := Option.some.inj h
    exact ⟨fun _ => cstr_take_ne, (List.length_take_le _ _).trans (by decide)⟩
  · obtain rfl := Option.some.inj h
    exact field_scanValidate _
  · cases h

/-! ## Runs -/

/-- The registry is in order, and its answers so far are those of the map it stands for. -/
structure Refines (srv : Server) : Prop where
  ok : srv.registry.Ok
  run : Users.run (fun _ => none) (srv.log.map Prod.fst) =
    (srv.log.map Prod.snd, srv.registry.users)

variable {srv t : Server}

theorem refines_init : Refines Server.init := by
  refine ⟨Registry.ok_zero, ?_⟩
  have hnone : (fun _ => none) = Registry.zero.users := by
    ext1 u
    exact (SlotMap.get_eq_none.mpr fun i v hi => by cases hi).symm
  exact congrArg (([], ·)) hnone

/-- One visit to the registry is one operation on the map. -/
theorem Refines.serve (h : Refines srv) (now : UInt64) (peer : Address) (req : Message)
    (ph : Nat → Phase) : Refines
      { registry := (serve now peer req srv.registry).2
        phase := ph
        log := srv.log ++
          ((operation peer req).map fun op => (op, (srv.registry.exec op).1)).toList } := by
  cases hop : operation peer req with
  | none =>
    have hserve : (Discovery.serve now peer req srv.registry).2 = srv.registry := by
      rw [Discovery.serve, hop]
    refine ⟨by rw [hserve]; exact h.ok, ?_⟩
    simp only [hserve, Option.map_none, Option.toList_none, List.append_nil]
    exact h.run
  | some op =>
    have hserve : (Discovery.serve now peer req srv.registry).2 = (srv.registry.exec op).2 := by
      rw [Discovery.serve, hop]
    obtain ⟨hok, hexec⟩ := h.ok.exec (parsed_of_operation hop)
    refine ⟨by rw [hserve]; exact hok, ?_⟩
    simp only [hserve, Option.map_some, Option.toList_some, List.map_append, List.map_cons,
      List.map_nil]
    rw [Users.run_append_singleton, h.run, hexec]

theorem Refines.step (h : Refines srv) {l : Label} (hs : step srv l = some t) : Refines t := by
  cases l with
  | accept c peer =>
    simp only [Discovery.step] at hs
    split at hs
    · obtain rfl := Option.some.inj hs
      exact ⟨h.ok, h.run⟩
    · cases hs
  | recv c req =>
    simp only [Discovery.step] at hs
    split at hs
    · obtain rfl := Option.some.inj hs
      exact ⟨h.ok, h.run⟩
    · obtain rfl := Option.some.inj hs
      exact ⟨h.ok, h.run⟩
    · cases hs
  | serve c now =>
    simp only [Discovery.step] at hs
    split at hs
    · next peer req _ =>
      obtain rfl := Option.some.inj hs
      exact h.serve now peer req _
    · cases hs
  | send c =>
    simp only [Discovery.step] at hs
    split at hs
    · obtain rfl := Option.some.inj hs
      exact ⟨h.ok, h.run⟩
    · cases hs

theorem refines_of_reachable (h : Reachable step Server.init srv) : Refines srv :=
  h.invariant refines_init fun _ _ _ hi hs => hi.step hs

/-- In every interleaving of the connection threads, the registry answers its operations in
the order of `reg_lock` as a map with last-write-wins and capacity 128 does; no two active
records share a name, and an active record shows the current registration of its name and
no byte of an earlier one. -/
theorem registry_refines_map (h : Reachable step Server.init srv) :
    Users.run (fun _ => none) (srv.log.map Prod.fst) =
      (srv.log.map Prod.snd, srv.registry.users) ∧
    (∀ i j, (srv.registry i).active = true → (srv.registry j).active = true →
      cstr (srv.registry i).username.toList = cstr (srv.registry j).username.toList → i = j) ∧
    ∀ i, (srv.registry i).active = true → ∃ u r, srv.registry.users u = some r ∧
      (srv.registry i).port = r.port ∧ (srv.registry i).ShowsOnly u r.password r.ip := by
  have href := refines_of_reachable h
  exact ⟨href.run, fun _ _ => href.ok.name_inj, fun _ => href.ok.users_eq⟩

/-- A user registers a long password and then a short one, and is validated with the latter. -/
def reregistration : List Label :=
  let peer : Address := ⟨[], fun _ hb => (List.not_mem_nil hb).elim, Nat.zero_le _⟩
  let ask (type : MsgType) (payload : String) : Option Message :=
    some (makeMessage 0 type (ascii "a") discoveryName (ascii payload))
  [.accept 0 peer, .accept 1 peer, .recv 0 (ask .register "a:longer:1"), .serve 0 0,
    .recv 1 (ask .register "a:pw:2"), .serve 1 0, .accept 2 peer,
    .recv 2 (ask .validate "a:pw"), .serve 2 0]

/-- The map gives the answers of that run. -/
theorem registry_refines_map_reregistration : ∃ srv,
    run step Server.init reregistration = some srv ∧
      srv.log.map Prod.snd = [.registered, .registered, .valid true] ∧
      (Users.run (fun _ => none) (srv.log.map Prod.fst)).1 = srv.log.map Prod.snd := by
  have hrun : run step Server.init reregistration = some _ := rfl
  exact ⟨_, hrun, rfl, congrArg Prod.fst (registry_refines_map ⟨reregistration, hrun⟩).1⟩

end ChatSystem.Discovery
