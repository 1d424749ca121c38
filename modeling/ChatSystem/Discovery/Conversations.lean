import ChatSystem.Core.Linear
import ChatSystem.Discovery.Server

/-!
# What the clients of the discovery server see

Requests are received, served and answered by threads that know nothing of each other. To the
clients it looks as if one request was served after the other, by a map of users, each between
its reception and its answer. So an acknowledged registration is seen by every later request.
-/

namespace ChatSystem.Discovery

open Bytes Linear Transition

/-- A request along with the address it comes from. -/
abbrev Request := Address × Message

/-- What happens to the request of a connection in one step. -/
def ticksAt (srv : Server) : Label → List (Tick Nat Request Message)
  | .recv c (some req) =>
    match srv.phase c with
    | .reading peer => [.asks c (peer, req)]
    | _ => []
  | .serve c now =>
    match srv.phase c with
    | .asking peer req => [.acts c (peer, req) (serve now peer req srv.registry).1]
    | _ => []
  | .send c =>
    match srv.phase c with
    | .replying resp => [.ends c resp]
    | _ => []
  | _ => []

/-- What happens to the requests in a run. -/
def ticksOf (ls : List Label) : List (Tick Nat Request Message) :=
  collect step ticksAt Server.init ls

/-- What is received and sent in a run. -/
def conversation (ls : List Label) : List (Seen Nat Request Message) := seen (ticksOf ls)

/-- What a map of users answers to a request, and the map behind it. -/
noncomputable def Users.answer (m : Users) (now : UInt64) (q : Request) : Message × Users :=
  match operation q.1 q.2 with
  | none => (refusal now q.2, m)
  | some op => (reply now q.2.senderStr (m.exec op).1, (m.exec op).2)

/-- The map answers requests one after the other, each at some time. -/
def Users.Serves : Users → List (Request × Message) → Users → Prop
  | m, [], m' => m' = m
  | m, (q, resp) :: xs, m' => ∃ now, resp = (m.answer now q).1 ∧ Serves (m.answer now q).2 xs m'

variable {srv t : Server} {ticks : List (Tick Nat Request Message)} {ls : List Label}
  {m m' : Users} {xs ys : List (Request × Message)} {n : List UInt8}

/-! ## The map -/

theorem Users.serves_append :
    m.Serves (xs ++ ys) m' ↔ ∃ m₁, m.Serves xs m₁ ∧ m₁.Serves ys m' := by
  induction xs generalizing m with
  | nil => exact ⟨fun h => ⟨m, rfl, h⟩, fun ⟨m₁, hm, h⟩ => hm ▸ h⟩
  | cons x xs ih =>
    constructor
    · rintro ⟨now, hresp, h⟩
      obtain ⟨m₁, h₁, h₂⟩ := ih.mp h
      exact ⟨m₁, ⟨now, hresp, h₁⟩, h₂⟩
    · rintro ⟨m₁, ⟨now, hresp, h₁⟩, h₂⟩
      exact ⟨now, hresp, ih.mpr ⟨m₁, h₁, h₂⟩⟩

/-- The registry answers as the map it stands for. -/
theorem Registry.Ok.answer {reg : Registry} (h : reg.Ok) (now : UInt64) (peer : Address)
    (req : Message) : reg.users.answer now (peer, req) =
      ((serve now peer req reg).1, (serve now peer req reg).2.users) := by
  rw [Users.answer, serve]
  cases hop : operation peer req with
  | none => rfl
  | some op =>
    obtain ⟨-, hexec⟩ := h.exec (parsed_of_operation hop)
    simp only [hexec]

theorem Registry.Ok.serve {reg : Registry} (h : reg.Ok) (now : UInt64) (peer : Address)
    (req : Message) : (serve now peer req reg).2.Ok := by
  rw [Discovery.serve]
  cases hop : operation peer req with
  | none => exact h
  | some op => exact (h.exec (parsed_of_operation hop)).1

/-! ## Runs -/

/-- How far a thread is says what happened to its request. -/
def Phase.Fits (c : Nat) (ticks : List (Tick Nat Request Message)) : Phase → Prop
  | .absent | .reading _ => ∀ q, .asks c q ∉ ticks
  | .asking peer req => .asks c (peer, req) ∈ ticks ∧ ∀ q a, .acts c q a ∉ ticks
  | .replying resp => ∃ q, .acts c q resp ∈ ticks
  | .closed => True

/-- The threads are as far as what happened says, and the registry stands for the map that answers
the requests served so far. -/
structure Agrees (srv : Server) (ticks : List (Tick Nat Request Message)) : Prop where
  orderly : Orderly ticks
  ok : srv.registry.Ok
  serves : Users.Serves (fun _ => none) ((effects ticks).map Prod.snd) srv.registry.users
  fits : ∀ c, (srv.phase c).Fits c ticks

/-- What happens to other requests does not matter. -/
theorem Phase.Fits.append {c : Nat} {ph : Phase} {more : List (Tick Nat Request Message)}
    (h : ph.Fits c ticks) (hmore : ∀ x ∈ more, x.caller ≠ c) : ph.Fits c (ticks ++ more) := by
  cases ph with
  | absent | reading =>
    intro q hm
    rcases List.mem_append.mp hm with hm | hm
    · exact h q hm
    · exact hmore _ hm rfl
  | asking peer req =>
    refine ⟨List.mem_append_left _ h.1, fun q a hm => ?_⟩
    rcases List.mem_append.mp hm with hm | hm
    · exact h.2 q a hm
    · exact hmore _ hm rfl
  | replying resp =>
    obtain ⟨q, hq⟩ := h
    exact ⟨q, List.mem_append_left _ hq⟩
  | closed => trivial

theorem agrees_init : Agrees Server.init [] := by
  refine ⟨.nil, refines_init.ok, congrArg Prod.snd refines_init.run.symm, fun c q hm => ?_⟩
  cases hm

/-- One thread takes a step. -/
theorem Agrees.turn {c : Nat} {ph : Phase} {more : List (Tick Nat Request Message)}
    (h : Agrees srv ticks) (horderly : Orderly (ticks ++ more)) (ht : t.registry.Ok)
    (hserves : Users.Serves (fun _ => none) ((effects (ticks ++ more)).map Prod.snd)
      t.registry.users)
    (hphase : t.phase = Function.update srv.phase c ph) (hself : ph.Fits c (ticks ++ more))
    (hmore : ∀ x ∈ more, x.caller = c) : Agrees t (ticks ++ more) := by
  refine ⟨horderly, ht, hserves, fun d => ?_⟩
  rw [hphase]
  by_cases hd : d = c
  · subst hd
    rw [Function.update_self]
    exact hself
  · rw [Function.update_of_ne hd]
    exact (h.fits d).append fun x hx he => hd (he.symm.trans (hmore x hx))

/-- A thread enters a phase without serving its request. -/
theorem Agrees.enter {c : Nat} {ph : Phase} {more : List (Tick Nat Request Message)}
    (h : Agrees srv ticks) (horderly : Orderly (ticks ++ more)) (hmore : effects more = [])
    (hself : ph.Fits c (ticks ++ more)) (hcaller : ∀ x ∈ more, x.caller = c) :
    Agrees (srv.enter c ph) (ticks ++ more) := by
  have happend : effects (ticks ++ more) = effects ticks := by
    rw [effects, List.filterMap_append]
    exact (congrArg _ hmore).trans (List.append_nil _)
  exact h.turn horderly h.ok (happend ▸ h.serves) rfl hself hcaller

theorem Agrees.step {l : Label} (h : Agrees srv ticks) (hs : step srv l = some t) :
    Agrees t (ticks ++ ticksAt srv l) := by
  cases l with
  | accept c peer =>
    simp only [Discovery.step] at hs
    split at hs
    · next hc =>
      obtain rfl := Option.some.inj hs
      have hfresh : Phase.Fits c ticks .absent := hc ▸ h.fits c
      have hnil := (List.append_nil ticks).symm
      exact h.enter (hnil ▸ h.orderly) rfl (hnil ▸ hfresh) fun x hx => by cases hx
    · cases hs
  | recv c req =>
    cases req with
    | none =>
      simp only [Discovery.step] at hs
      split at hs
      · next hreq => cases hreq
      · obtain rfl := Option.some.inj hs
        exact h.enter ((List.append_nil ticks).symm ▸ h.orderly) rfl trivial fun x hx => by cases hx
      · cases hs
    | some req =>
      cases hc : srv.phase c with
      | reading peer =>
        simp only [Discovery.step, hc] at hs
        obtain rfl := Option.some.inj hs
        have hfresh : Phase.Fits c ticks (.reading peer) := hc ▸ h.fits c
        rw [show ticksAt srv (.recv c (some req)) = [.asks c (peer, req)] by simp [ticksAt, hc]]
        refine h.enter (h.orderly.asks hfresh) rfl ⟨by simp, fun q a hm => ?_⟩ fun x hx => ?_
        · rcases List.mem_append.mp hm with hm | hm
          · exact hfresh _ (h.orderly.asked hm)
          · cases List.mem_singleton.mp hm
        · rw [List.mem_singleton.mp hx]
          rfl
      | _ =>
        simp only [Discovery.step, hc] at hs
        cases hs
  | serve c now =>
    cases hc : srv.phase c with
    | asking peer req =>
      simp only [Discovery.step, hc] at hs
      obtain rfl := Option.some.inj hs
      obtain ⟨hasked, hnew⟩ : Phase.Fits c ticks (.asking peer req) := hc ▸ h.fits c
      have hanswer := h.ok.answer now peer req
      rw [show ticksAt srv (.serve c now) =
        [.acts c (peer, req) (serve now peer req srv.registry).1] by simp [ticksAt, hc]]
      refine h.turn (h.orderly.acts hasked hnew) ?_ ?_ rfl ⟨(peer, req), ?_⟩
        fun x hx => ?_
      · exact h.ok.serve now peer req
      · rw [effects_append_singleton]
        simp only [Tick.effect, Option.toList_some, List.map_append, List.map_cons, List.map_nil]
        refine Users.serves_append.mpr ⟨_, h.serves, now, ?_, ?_⟩
        · rw [hanswer]
        · rw [hanswer]
          rfl
      · exact List.mem_append_right _ (List.mem_singleton_self _)
      · rw [List.mem_singleton.mp hx]
        rfl
    | _ =>
      simp only [Discovery.step, hc] at hs
      cases hs
  | send c =>
    cases hc : srv.phase c with
    | replying resp =>
      simp only [Discovery.step, hc] at hs
      obtain rfl := Option.some.inj hs
      obtain ⟨q, hacts⟩ : Phase.Fits c ticks (.replying resp) := hc ▸ h.fits c
      rw [show ticksAt srv (.send c) = [.ends c resp] by simp [ticksAt, hc]]
      refine h.enter (h.orderly.ends hacts) rfl trivial fun x hx => ?_
      rw [List.mem_singleton.mp hx]
      rfl
    | _ =>
      simp only [Discovery.step, hc] at hs
      cases hs

/-- What happened in a run is what the threads and the registry say. -/
theorem agrees_of_run (h : Agrees srv ticks) (hrun : run step srv ls = some t) :
    Agrees t (ticks ++ collect step ticksAt srv ls) := by
  induction ls generalizing srv ticks with
  | nil =>
    obtain rfl := Option.some.inj hrun
    rw [collect, List.append_nil]
    exact h
  | cons l ls ih =>
    obtain ⟨srv₁, hs, hrest⟩ := run_cons_iff.mp hrun
    have hall := ih (h.step hs) hrest
    rw [List.append_assoc] at hall
    rw [collect_cons hs]
    exact hall

/-- The order in which the requests are served explains what is received and sent. -/
theorem explains_of_run (h : run step Server.init ls = some srv) :
    Explains (Users.Serves (fun _ => none) · srv.registry.users) (conversation ls)
      (effects (ticksOf ls)) := by
  have hagrees := agrees_of_run agrees_init h
  exact hagrees.orderly.explains hagrees.serves

/-- A connection carries one request. -/
theorem asked_unique (h : run step Server.init ls = some srv) {c : Nat} {q q' : Request}
    (hq : .asked c q ∈ conversation ls) (hq' : .asked c q' ∈ conversation ls) : q = q' :=
  (agrees_of_run agrees_init h).orderly.asked_unique (asked_mem_seen.mp hq) (asked_mem_seen.mp hq')

/-- The discovery server is linearizable: whatever its threads do in between, there is an order of
the requests in which a map of users answers them, one after the other, as the clients are
answered, and a request that was received behind the answer to another one comes behind it. -/
theorem requests_linearizable (h : run step Server.init ls = some srv) :
    ∃ order, Explains (Users.Serves (fun _ => none) · srv.registry.users) (conversation ls)
      order :=
  ⟨_, explains_of_run h⟩

/-- The address of a client. -/
def anAddress : Address := ⟨ascii "10.0.0.7", by simp [ascii], by decide⟩

/-- A request of the client `a`. -/
def requestOf (type : MsgType) (payload : String) : Message :=
  makeMessage 0 type (ascii "a") discoveryName (ascii payload)

/-- A client registers, and another one whose connection was there before asks whether it did. -/
def overlapping : List Label :=
  [.accept 0 anAddress, .accept 1 anAddress, .recv 0 (some (requestOf .register "a:pw:1")),
    .serve 0 0, .send 0, .recv 1 (some (requestOf .validate "a:pw")), .serve 1 0, .send 1]

/-- The order of those two requests. -/
theorem requests_linearizable_overlapping : ∃ srv order,
    run step Server.init overlapping = some srv ∧ (conversation overlapping).length = 4 ∧
      Explains (Users.Serves (fun _ => none) · srv.registry.users) (conversation overlapping)
        order := by
  have hrun : run step Server.init overlapping = some _ := rfl
  obtain ⟨order, h⟩ := requests_linearizable hrun
  exact ⟨_, order, hrun, rfl, h⟩

/-! ## Registrations -/

/-- Requests that do not register a name leave its registration alone. -/
theorem Users.serves_of_others (h : m.Serves xs m')
    (hxs : ∀ x ∈ xs, ∀ p ip port, operation x.1.1 x.1.2 ≠ some (.register n p ip port)) :
    m' n = m n := by
  induction xs generalizing m with
  | nil => exact congrFun h n
  | cons x xs ih =>
    obtain ⟨now, -, hrest⟩ := h
    rw [ih hrest fun y hy => hxs y (List.mem_cons_of_mem _ hy)]
    have hx := hxs x List.mem_cons_self
    rw [Users.answer]
    cases hop : operation x.1.1 x.1.2 with
    | none => rfl
    | some op =>
      rw [hop] at hx
      cases op with
      | register u p ip port =>
        simp only [Users.exec]
        split
        · rfl
        · have hne : n ≠ u := by
            rintro rfl
            exact hx p ip port rfl
          exact Function.update_of_ne hne ..
      | discover target =>
        simp only [Users.exec]
        split <;> rfl
      | validate u p => rfl

/-- A registration is acknowledged if it is stored. -/
theorem Users.answer_register {q : Request} {p ip : List UInt8} {port : Int} {now : UInt64}
    (hop : operation q.1 q.2 = some (.register n p ip port))
    (hstatus : (m.answer now q).1.status = 0) :
    (m.answer now q).2 n = some ⟨p, ip, port⟩ := by
  rw [Users.answer, hop] at hstatus ⊢
  simp only [Users.exec] at hstatus ⊢
  split at hstatus
  · cases hstatus
  · next hroom =>
    rw [if_neg hroom]
    exact Function.update_self ..

/-- An acknowledged registration is seen: if no other connection registers the name, a request
received behind the acknowledgement finds the user at the registered address, and accepts the
registered password and no other, whatever else is going on. -/
theorem registration_seen (h : run step Server.init ls = some srv) {c d : Nat} {q q' : Request}
    {resp resp' : Message} {p ip : List UInt8} {port : Int}
    (hreg : operation q.1 q.2 = some (.register n p ip port))
    (hasked : .asked c q ∈ conversation ls) (hstatus : resp.status = 0)
    (hlater : [.answered c resp, .asked d q'].Sublist (conversation ls))
    (hothers : ∀ e r, .asked e r ∈ conversation ls → e ≠ c → ∀ p' ip' port',
      operation r.1 r.2 ≠ some (.register n p' ip' port'))
    (hanswered : .answered d resp' ∈ conversation ls) :
    (∀ w, operation q'.1 q'.2 = some (.validate n w) → (resp'.status = 0 ↔ w = p)) ∧
    (operation q'.1 q'.2 = some (.discover n) →
      ∃ now, resp' = reply now q'.2.senderStr (.address ip port)) := by
  have hexp := explains_of_run h
  -- both requests are in the order, the registration first
  obtain ⟨q₁, hq₁⟩ := hexp.answered c resp (hlater.subset List.mem_cons_self)
  obtain rfl := asked_unique h hasked (hexp.asked _ hq₁)
  obtain ⟨q₂, hq₂⟩ := hexp.answered d resp' hanswered
  obtain rfl := asked_unique h
    (hlater.subset (List.mem_cons_of_mem _ (List.mem_singleton_self _))) (hexp.asked _ hq₂)
  obtain ⟨before, x, between, y, after, hcalls⟩ :=
    exists_split (hexp.order _ _ _ _ hlater (List.mem_map.mpr ⟨_, hq₂, rfl⟩))
  have hx : (c, x) ∈ effects (ticksOf ls) := by simp [hcalls]
  have hy : (d, y) ∈ effects (ticksOf ls) := by simp [hcalls]
  cases List.inj_on_of_nodup_map hexp.nodup hq₁ hx rfl
  cases List.inj_on_of_nodup_map hexp.nodup hq₂ hy rfl
  -- nobody else registers the name in between
  have hbetween : ∀ z ∈ between.map Prod.snd, ∀ p' ip' port',
      operation z.1.1 z.1.2 ≠ some (.register n p' ip' port') := by
    intro z hz
    obtain ⟨w, hw, rfl⟩ := List.mem_map.mp hz
    refine hothers w.1 w.2.1 (hexp.asked _ (by simp [hcalls, hw])) fun he => ?_
    have hnodup := hexp.nodup
    rw [hcalls, List.map_append, List.map_cons, List.nodup_append, List.nodup_cons] at hnodup
    exact hnodup.2.1.1 (List.mem_map.mpr ⟨w, List.mem_append_left _ hw, he⟩)
  have hserves := hexp.legal
  rw [hcalls, List.map_append, List.map_cons, List.map_append, List.map_cons,
    Users.serves_append] at hserves
  obtain ⟨m₁, -, now₁, hresp, hserves⟩ := hserves
  obtain ⟨m₂, hsame, now₂, hresp', -⟩ := Users.serves_append.mp hserves
  rw [hresp] at hstatus
  have hfound := (Users.serves_of_others hsame hbetween).trans
    (Users.answer_register hreg hstatus)
  refine ⟨fun w hw => ?_, fun hdisc => ⟨now₂, ?_⟩⟩
  · rw [hresp', Users.answer, hw]
    simp only [Users.exec, hfound, Option.any_some]
    by_cases hp : p = w
    · simp [hp, reply, makeMessage]
    · simp [hp, Ne.symm hp, reply, makeError]
  · rw [hresp', Users.answer, hdisc]
    simp only [Users.exec, hfound]

/-- The second client of that run is told so. -/
theorem registration_seen_overlapping : ∃ srv resp,
    run step Server.init overlapping = some srv ∧
      .answered 1 resp ∈ conversation overlapping ∧ resp.status = 0 := by
  have hrun : run step Server.init overlapping = some _ := rfl
  obtain ⟨resp, resp', hconv, hstatus⟩ : ∃ resp resp', conversation overlapping =
      [.asked 0 (anAddress, requestOf .register "a:pw:1"), .answered 0 resp,
        .asked 1 (anAddress, requestOf .validate "a:pw"), .answered 1 resp'] ∧ resp.status = 0 :=
    ⟨_, _, rfl, rfl⟩
  have hothers : ∀ e r, .asked e r ∈ conversation overlapping → e ≠ 0 → ∀ p ip port,
      operation r.1 r.2 ≠ some (.register (ascii "a") p ip port) := by
    intro e r hr he p ip port hop
    rw [hconv] at hr
    simp only [List.mem_cons, Seen.asked.injEq, reduceCtorEq, List.not_mem_nil, or_false,
      false_or] at hr
    rcases hr with ⟨rfl, -⟩ | ⟨-, rfl⟩
    · exact he rfl
    · cases hop
  have hanswered : .answered 1 resp' ∈ conversation overlapping := by simp [hconv]
  have hlater : [.answered 0 resp, .asked 1 (anAddress, requestOf .validate "a:pw")].Sublist
      (conversation overlapping) := by
    rw [hconv]
    exact .cons _ (.cons_cons _ (.cons_cons _ (List.nil_sublist _)))
  have hseen := (registration_seen hrun (q := (anAddress, requestOf .register "a:pw:1")) rfl
    (by simp [hconv]) hstatus hlater hothers hanswered).1 (ascii "pw") rfl
  exact ⟨_, resp', hrun, hanswered, hseen.mpr rfl⟩

end ChatSystem.Discovery
