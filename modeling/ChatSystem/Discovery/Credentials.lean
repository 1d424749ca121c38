import ChatSystem.Discovery.Login

/-!
# Credentials from end to end

A client formats its name and password twice, once to register them and once to log in.
The two payloads are read by different grammars: registering stops a field at a colon,
logging in stops the password at white space. A login is accepted with the password
registered exactly if neither cut changes it.
-/

namespace ChatSystem.Discovery

open Bytes Transition

/-- The request of `register_with_discovery`. -/
def registerRequest (now : UInt64) (u p : List UInt8) (chatPort : Int) : Message :=
  makeMessage now .register u discoveryName
    (snprintf maxPayloadLen (u ++ ascii ":" ++ p ++ ascii ":" ++ Scan.decimal chatPort))

/-- The request of `login_to_chat`. -/
def loginRequest (now : UInt64) (u p : List UInt8) : Message :=
  makeMessage now .login u [] (snprintf maxPayloadLen (u ++ ascii ":" ++ p))

/-- A string of at most `n` bytes without a newline, as a client reads it. -/
structure Typed (n : Nat) (s : List UInt8) : Prop extends Field n s where
  no_newline : (10 : UInt8) ∉ s

/-- The part of a string before its first colon. -/
def beforeColon (s : List UInt8) : List UInt8 := s.takeWhile (· ≠ 58)

/-- The first stretch of a string without white space. -/
def firstWord (s : List UInt8) : List UInt8 :=
  (s.dropWhile Scan.isSpace).takeWhile fun b => !Scan.isSpace b

variable {s t u p q n w payload : List UInt8}

/-! ## Colons -/

theorem colon_notMem_beforeColon (s : List UInt8) : (58 : UInt8) ∉ beforeColon s := by
  intro h
  simpa using List.mem_takeWhile_imp h

theorem forall_ne_colon (h : (58 : UInt8) ∉ s) : ∀ b ∈ s, decide (b ≠ 58) = true := by
  intro b hb
  have hne : b ≠ 58 := by
    rintro rfl
    exact h hb
  simpa using hne

theorem beforeColon_eq_self (h : (58 : UInt8) ∉ s) : beforeColon s = s :=
  List.takeWhile_eq_self_iff.mpr (forall_ne_colon h)

theorem beforeColon_append_of_notMem (h : (58 : UInt8) ∉ s) (t : List UInt8) :
    beforeColon (s ++ 58 :: t) = s := by
  rw [beforeColon, List.takeWhile_append_of_pos (forall_ne_colon h)]
  simp

theorem beforeColon_append (s t : List UInt8) : beforeColon (s ++ 58 :: t) = beforeColon s := by
  by_cases h : (58 : UInt8) ∈ s
  · obtain ⟨a, b, rfl, ha⟩ := List.eq_append_cons_of_mem h
    rw [List.append_assoc, List.cons_append, beforeColon_append_of_notMem ha,
      beforeColon_append_of_notMem ha]
  · rw [beforeColon_append_of_notMem h, beforeColon_eq_self h]

/-- A string with a colon splits at its first one. -/
theorem eq_beforeColon_append (h : (58 : UInt8) ∈ s) : ∃ t, s = beforeColon s ++ 58 :: t := by
  obtain ⟨a, b, rfl, ha⟩ := List.eq_append_cons_of_mem h
  exact ⟨b, by rw [beforeColon_append_of_notMem ha]⟩

/-! ## Words -/

theorem isSpace_of_mem_firstWord {b : UInt8} (h : b ∈ firstWord s) : Scan.isSpace b = false := by
  simpa using List.mem_takeWhile_imp h

theorem length_firstWord_le (s : List UInt8) : (firstWord s).length ≤ s.length :=
  ((List.takeWhile_sublist _).trans (List.dropWhile_sublist _)).length_le

/-- A string without white space is its own first word. -/
theorem firstWord_eq_self (h : ∀ b ∈ s, Scan.isSpace b = false) : firstWord s = s := by
  have hdrop : s.dropWhile Scan.isSpace = s := by
    cases s with
    | nil => rfl
    | cons b s => rw [List.dropWhile_cons_of_neg (by simp [h b List.mem_cons_self])]
  rw [firstWord, hdrop]
  exact List.takeWhile_eq_self_iff.mpr (by simpa using h)

/-- A first word does not stop at a colon. -/
theorem firstWord_ne (hw : w ≠ []) (t : List UInt8) : firstWord (w ++ 58 :: t) ≠ w := by
  intro h
  have hspace : ∀ b ∈ w, Scan.isSpace b = false := by
    intro b hb
    rw [← h] at hb
    exact isSpace_of_mem_firstWord hb
  have hdrop : (w ++ 58 :: t).dropWhile Scan.isSpace = w ++ 58 :: t := by
    cases w with
    | nil => exact absurd rfl hw
    | cons b w => rw [List.cons_append, List.dropWhile_cons_of_neg (by simp [hspace b])]
  have hlen := congrArg List.length h
  rw [firstWord, hdrop, List.takeWhile_append_of_pos (by simpa using hspace)] at hlen
  have hcolon : Scan.isSpace 58 = false := by decide
  simp [hcolon] at hlen

/-- `%<width>s` stores the first word, cut to the width. -/
theorem word_eq (width : Nat) (s : List UInt8) : ((Scan.word width s).map Prod.fst).getD [] =
    (firstWord s).take width := by
  simp only [Scan.word, firstWord]
  split
  · next h =>
    rw [List.isEmpty_iff.mp h]
    rfl
  · rfl

/-- Registering and logging in read the same password, uncut, exactly if it has neither a
colon nor white space. -/
theorem firstWord_eq_beforeColon (hne : beforeColon p ≠ []) :
    firstWord p = beforeColon p ↔ (58 : UInt8) ∉ p ∧ ∀ b ∈ p, Scan.isSpace b = false := by
  constructor
  · intro h
    have hcolon : (58 : UInt8) ∉ p := by
      intro hm
      obtain ⟨t, ht⟩ := eq_beforeColon_append hm
      rw [ht, beforeColon_append_of_notMem (colon_notMem_beforeColon p)] at h
      exact firstWord_ne hne t h
    refine ⟨hcolon, fun b hb => ?_⟩
    rw [beforeColon_eq_self hcolon] at h
    rw [← h] at hb
    exact isSpace_of_mem_firstWord hb
  · rintro ⟨h1, h2⟩
    rw [beforeColon_eq_self h1, firstWord_eq_self h2]

/-! ## The two payloads -/

/-- A short text at the front of a payload is read as it is. -/
theorem payloadStr_snprintf (now : UInt64) (type : MsgType) (sender receiver : List UInt8)
    (hs : ∀ b ∈ s, b ≠ 0) (hlen : s.length ≤ 1000) (t : List UInt8) :
    ∃ t', (makeMessage now type sender receiver (snprintf maxPayloadLen (s ++ t))).payloadStr =
      s ++ t' ∧ (t = [] → t' = []) := by
  have hcut : snprintf maxPayloadLen (s ++ t) = s ++ t.take (1023 - s.length) := by
    rw [snprintf, maxPayloadLen, List.take_append, List.take_of_length_le (by omega)]
  rw [payloadStr_makeMessage, hcut, cstr, List.takeWhile_append_of_pos (by simpa using hs),
    List.take_append, List.take_of_length_le (by rw [maxPayloadLen]; omega)]
  refine ⟨_, rfl, ?_⟩
  rintro rfl
  simp

theorem ne_zero_of_fields (hu : Field 31 u) (hp : Field 63 p) :
    (∀ b ∈ u ++ 58 :: p, b ≠ 0) ∧ (u ++ 58 :: p).length ≤ 95 := by
  constructor
  · intro b hb
    rcases List.mem_append.mp hb with hb | hb
    · exact hu.no_zero b hb
    · rcases List.mem_cons.mp hb with rfl | hb
      · decide
      · exact hp.no_zero b hb
  · have h1 := hu.length_le
    have h2 := hp.length_le
    rw [List.length_append, List.length_cons]
    omega

theorem payloadStr_loginRequest (hu : Field 31 u) (hp : Field 63 p) (now : UInt64) :
    (loginRequest now u p).payloadStr = u ++ 58 :: p := by
  obtain ⟨hno, hlen⟩ := ne_zero_of_fields hu hp
  obtain ⟨t', ht, hnil⟩ := payloadStr_snprintf now .login u [] hno (by omega) []
  rw [hnil rfl, List.append_nil] at ht
  have htext : u ++ ascii ":" ++ p = u ++ 58 :: p := by
    rw [List.append_assoc]
    rfl
  rw [loginRequest, htext]
  exact ht

theorem payloadStr_registerRequest (hu : Field 31 u) (hp : Field 63 p) (now : UInt64)
    (chatPort : Int) :
    ∃ t, (registerRequest now u p chatPort).payloadStr = u ++ 58 :: (p ++ 58 :: t) := by
  obtain ⟨hno, hlen⟩ := ne_zero_of_fields hu hp
  have hno' : ∀ b ∈ u ++ 58 :: p ++ [58], b ≠ 0 := by
    intro b hb
    rcases List.mem_append.mp hb with hb | hb
    · exact hno b hb
    · rw [List.mem_singleton.mp hb]
      decide
  have hlen' : (u ++ 58 :: p ++ [58]).length ≤ 1000 := by
    rw [List.length_append, List.length_singleton]
    omega
  obtain ⟨t, ht, -⟩ := payloadStr_snprintf now .register u discoveryName hno' hlen'
    (Scan.decimal chatPort)
  have htext : u ++ ascii ":" ++ p ++ ascii ":" ++ Scan.decimal chatPort =
      u ++ 58 :: p ++ [58] ++ Scan.decimal chatPort := by
    simp only [List.append_assoc]
    rfl
  refine ⟨t, ?_⟩
  rw [registerRequest, htext, ht]
  simp

/-- What registering stores of a text. -/
theorem scanRegister_split {port : Int} (h : scanRegister payload = some (n, q, port)) :
    (n ≠ [] ∧ (58 : UInt8) ∉ n) ∧ (q ≠ [] ∧ (58 : UInt8) ∉ q) ∧
      ∃ t, cstr payload = n ++ 58 :: (q ++ 58 :: t) := by
  have hliteral : ∀ {s r : List UInt8}, Scan.literal 58 s = some r → s = 58 :: r := by
    intro s r hs
    cases s with
    | nil => cases hs
    | cons b s =>
      rw [Scan.literal] at hs
      split at hs
      · next hb => rw [hb, Option.some.inj hs]
      · cases hs
  simp only [scanRegister, Option.bind_eq_bind, Option.bind_eq_some_iff, Option.pure_def] at h
  obtain ⟨⟨n', r1⟩, hn, r2, h2, ⟨q', r3⟩, hq, r4, h4, ⟨port', r5⟩, -, he⟩ := h
  obtain ⟨rfl, he'⟩ := Prod.mk.inj (Option.some.inj he)
  obtain ⟨rfl, rfl⟩ := Prod.mk.inj he'
  obtain ⟨n1, -, n3, n4⟩ := Scan.untilByte_eq_some hn
  obtain ⟨q1, -, q3, q4⟩ := Scan.untilByte_eq_some hq
  have e2 : r1 = 58 :: r2 := hliteral h2
  have e4 : r3 = 58 :: r4 := hliteral h4
  refine ⟨⟨n1, n3⟩, ⟨q1, q3⟩, r4, ?_⟩
  change cstr payload = n' ++ 58 :: (q' ++ 58 :: r4)
  rw [n4, e2, q4, e4]

/-- What logging in reads of a text. -/
theorem scanLogin_of_split (hne : n ≠ []) (hlen : n.length ≤ 31) (hn : (58 : UInt8) ∉ n)
    (h : cstr payload = n ++ 58 :: s) :
    scanLogin payload = (Scan.word 63 s).map fun x => (n, x.1) := by
  have huntil := Scan.untilByte_append hne hlen hn s
  cases hw : Scan.word 63 s with
  | none => simp [scanLogin, h, huntil, Scan.literal, hw]
  | some x => simp [scanLogin, h, huntil, Scan.literal, hw]

/-! ## The registry between the two requests -/

variable {reg : Registry}

theorem Registry.Ok.holds_users (h : reg.Ok) :
    reg.Holds n q ↔ ∃ r, reg.users n = some r ∧ r.password = q := by
  have hentry : ∀ i r, reg.entries i = some (n, r) ↔ (reg i).active = true ∧
      cstr (reg i).username.toList = n ∧
      (⟨cstr (reg i).password.toList, cstr (reg i).ip.toList, (reg i).port⟩ : Registration) = r := by
    intro i r
    rw [Registry.entries, UserRecord.entry]
    split
    · next hact => simp [hact]
    · next hact => simp [hact]
  constructor
  · rintro ⟨i, hact, hn, hq⟩
    exact ⟨_, h.distinct.get_eq_some.mpr ⟨i, (hentry i _).mpr ⟨hact, hn, rfl⟩⟩, hq⟩
  · rintro ⟨r, hr, hq⟩
    obtain ⟨i, hi⟩ := h.distinct.get_eq_some.mp hr
    obtain ⟨hact, hn, rfl⟩ := (hentry i r).mp hi
    exact ⟨i, hact, hn, hq⟩

theorem Users.run_append (m : Users) (a b : List Op) :
    (m.run (a ++ b)).2 = ((m.run a).2.run b).2 := by
  induction a generalizing m with
  | nil => rfl
  | cons op a ih => exact ih _

/-- Operations that do not register a name leave its registration alone. -/
theorem Users.run_of_others {ops : List Op} (m : Users)
    (h : ∀ op ∈ ops, ∀ p ip port, op ≠ .register n p ip port) : (m.run ops).2 n = m n := by
  induction ops generalizing m with
  | nil => rfl
  | cons op ops ih =>
    have hop := h op List.mem_cons_self
    change ((m.exec op).2.run ops).2 n = m n
    rw [ih _ fun o ho => h o (List.mem_cons_of_mem _ ho)]
    cases op with
    | register u p ip port =>
      simp only [Users.exec]
      split
      · rfl
      · have hne : n ≠ u := by
          rintro rfl
          exact hop p ip port rfl
        exact Function.update_of_ne hne ..
    | discover target =>
      simp only [Users.exec]
      split <;> rfl
    | validate u p => rfl

/-- The log only grows. -/
theorem log_of_run {srv t : Server} {ls : List Label} (h : run step srv ls = some t) :
    ∃ ops, t.log = srv.log ++ ops := by
  refine run_invariant (I := fun x => ∃ ops, x.log = srv.log ++ ops) ?_
    ⟨[], (List.append_nil _).symm⟩ h
  rintro a l b ⟨ops, hops⟩ hs
  cases l with
  | serve c now =>
    simp only [step] at hs
    split at hs
    · obtain rfl := Option.some.inj hs
      exact ⟨_, (congrArg (· ++ _) hops).trans (List.append_assoc ..)⟩
    · cases hs
  | _ =>
    simp only [step] at hs
    repeat' split at hs
    all_goals cases hs
    all_goals exact ⟨ops, hops⟩

/-- A registration stands until its name is registered again. -/
theorem users_of_run {d₁ d₂ : Server} {ls : List Label} (h : Reachable step Server.init d₁)
    (hrun : run step d₁ ls = some d₂)
    (hlater : ∀ ops, d₂.log = d₁.log ++ ops → ∀ x ∈ ops, ∀ p ip port,
      x.1 ≠ .register n p ip port) : d₂.registry.users n = d₁.registry.users n := by
  have h₂ : Reachable step Server.init d₂ := by
    obtain ⟨ks, hks⟩ := h
    exact ⟨ks ++ ls, run_trans hks hrun⟩
  obtain ⟨ops, hops⟩ := log_of_run hrun
  have r₁ : (Users.run (fun _ => none) (d₁.log.map Prod.fst)).2 = d₁.registry.users :=
    congrArg Prod.snd (refines_of_reachable h).run
  have r₂ : (Users.run (fun _ => none) (d₂.log.map Prod.fst)).2 = d₂.registry.users :=
    congrArg Prod.snd (refines_of_reachable h₂).run
  rw [hops, List.map_append, Users.run_append, r₁] at r₂
  rw [← r₂]
  refine Users.run_of_others _ fun op hop => ?_
  obtain ⟨x, hx, rfl⟩ := List.mem_map.mp hop
  exact hlater ops hops x hx

/-- A successful registration stores the name and the password cut at their colons. -/
theorem users_of_register {d₀ d₁ : Server} {c : Nat} {peer : Address} {req : Message}
    {now : UInt64} {resp : Message} (h : Reachable step Server.init d₀)
    (hphase : d₀.phase c = .asking peer req) (hkind : req.kind = some .register)
    (hserve : step d₀ (.serve c now) = some d₁) (hresp : d₁.phase c = .replying resp)
    (hstatus : resp.status = 0) :
    ∃ n q port, scanRegister req.payload.toList = some (n, q, port) ∧
      d₁.registry.users n = some ⟨q, peer.text, port⟩ := by
  simp only [step, hphase] at hserve
  obtain rfl := Option.some.inj hserve
  have hreply : (serve now peer req d₀.registry).1 = resp := by
    have := Function.update_self c (Phase.replying (serve now peer req d₀.registry).1) d₀.phase
    exact Phase.replying.inj (this.symm.trans hresp)
  cases hscan : scanRegister req.payload.toList with
  | none =>
    have hop : operation peer req = none := by
      rw [operation, hkind]
      simp only [hscan, Option.map_none]
    rw [serve, hop] at hreply
    rw [← hreply] at hstatus
    cases hstatus
  | some x =>
    obtain ⟨n, q, port⟩ := x
    have hop : operation peer req = some (.register n q peer.text port) := by
      rw [operation, hkind]
      simp only [hscan, Option.map_some]
    obtain ⟨-, hexec⟩ := (refines_of_reachable h).ok.exec (parsed_of_operation hop)
    refine ⟨n, q, port, rfl, ?_⟩
    have hserve' : serve now peer req d₀.registry =
        (reply now req.senderStr (d₀.registry.exec (.register n q peer.text port)).1,
          (d₀.registry.exec (.register n q peer.text port)).2) := by
      rw [serve, hop]
    rw [hserve'] at hreply
    change (serve now peer req d₀.registry).2.users n = _
    rw [hserve']
    simp only [Users.exec] at hexec
    split at hexec
    · obtain ⟨hfull, -⟩ := Prod.mk.inj hexec
      rw [← hfull] at hreply
      rw [← hreply] at hstatus
      cases hstatus
    · obtain ⟨-, husers⟩ := Prod.mk.inj hexec
      rw [← husers, Function.update_self]

/-! ## The login -/

theorem status_verdict (taken : List UInt8 → Bool) (now : UInt64) :
    (verdict taken reg payload now).status = 0 ↔ (admitted taken reg payload).isSome := by
  have herr : ∀ a b c, ¬ (makeError now a b c).status = 0 := by
    intro a b c h
    change (1 : UInt8) = 0 at h
    exact absurd h (by decide)
  unfold verdict admitted
  cases scanLogin payload with
  | none =>
    simp only [Option.bind_none, Option.isSome_none, Bool.false_eq_true, iff_false]
    exact herr _ _ _
  | some x =>
    obtain ⟨u, p⟩ := x
    simp only [Option.bind_some]
    by_cases ht : taken u = true
    · simp only [ht, if_true, Bool.not_true, Bool.false_eq_true, false_and, if_false,
        Option.isSome_none, iff_false]
      exact herr _ _ _
    · by_cases hh : reg.Holds u p
      · simp only [ht, hh, if_true, Bool.not_false, Bool.false_eq_true, and_self, if_false,
          Option.isSome_some, iff_true]
        rfl
      · simp only [ht, hh, and_false, Bool.false_eq_true, if_false, Option.isSome_none, iff_false]
        exact herr _ _ _

/-- A password is admitted under a registered name if its first word is what was registered. -/
theorem admitted_iff (h : reg.Ok) {r : Registration} (hne : n ≠ []) (hlen : n.length ≤ 31)
    (hn : (58 : UInt8) ∉ n) (hpayload : cstr payload = n ++ 58 :: s) (hr : reg.users n = some r)
    (hpass : r.password ≠ []) (taken : List UInt8 → Bool) :
    (admitted taken reg payload).isSome ↔
      taken n = false ∧ (firstWord s).take 63 = r.password := by
  have hword := word_eq 63 s
  rw [admitted, scanLogin_of_split hne hlen hn hpayload]
  cases hw : Scan.word 63 s with
  | none =>
    rw [hw] at hword
    rw [← hword]
    simpa using fun _ => hpass.symm
  | some x =>
    rw [hw] at hword
    have hx : x.1 = (firstWord s).take 63 := hword
    have hholds : reg.Holds n x.1 ↔ (firstWord s).take 63 = r.password := by
      rw [h.holds_users, hr, hx]
      constructor
      · rintro ⟨r', hr', he⟩
        rw [← he, Option.some.inj hr']
      · intro he
        exact ⟨r, rfl, he.symm⟩
    simp only [Option.map_some, Option.bind_some]
    by_cases ht : taken n = true
    · simp [ht]
    · simp [ht, hholds]

/-- The condition: the right password is cut by neither grammar and the name is free; a wrong
one does not start with the word that registering has stored, or the name is not usable. -/
def Exact (taken : List UInt8 → Bool) (u p q : List UInt8) : Prop :=
  (q = p ∧ taken u = false ∧ (58 : UInt8) ∉ u ∧ (58 : UInt8) ∉ p ∧
      ∀ b ∈ p, Scan.isSpace b = false) ∨
    (q ≠ p ∧ ¬ (taken u = false ∧ (58 : UInt8) ∉ u ∧ firstWord q = beforeColon p))

/-- What a registration of `u` with password `p` makes of a login of `u` with password `q`. -/
theorem admitted_loginRequest (h : reg.Ok) {n w : List UInt8} {port : Int} {ip : List UInt8}
    (hu : Field 31 u) (hp : Field 63 p) (hq : Field 63 q) {now : UInt64} {chatPort : Int}
    (hscan : scanRegister (registerRequest now u p chatPort).payload.toList = some (n, w, port))
    (hr : reg.users n = some ⟨w, ip, port⟩) (taken : List UInt8 → Bool) (now' : UInt64) :
    ((admitted taken reg (loginRequest now' u q).payload.toList).isSome ↔
      taken u = false ∧ (58 : UInt8) ∉ u ∧ firstWord q = beforeColon p) ∧
      ((58 : UInt8) ∉ u → beforeColon p ≠ []) := by
  obtain ⟨⟨hn, hnc⟩, ⟨hw, hwc⟩, t, ht⟩ := scanRegister_split hscan
  obtain ⟨t', ht'⟩ := payloadStr_registerRequest hu hp now chatPort
  have htext : n ++ 58 :: (w ++ 58 :: t) = u ++ 58 :: (p ++ 58 :: t') := ht.symm.trans ht'
  have hlogin : cstr (loginRequest now' u q).payload.toList = u ++ 58 :: q :=
    payloadStr_loginRequest hu hq now'
  have hname : n = beforeColon u := by
    have := congrArg beforeColon htext
    rwa [beforeColon_append_of_notMem hnc, beforeColon_append] at this
  by_cases hcolon : (58 : UInt8) ∈ u
  · -- the name is cut: the password read at the login goes on behind the next colon
    obtain ⟨u₂, hu₂⟩ := eq_beforeColon_append hcolon
    rw [← hname] at hu₂
    have hlen : n.length + u₂.length + 1 ≤ 31 := by
      have := hu.length_le
      rw [hu₂, List.length_append, List.length_cons] at this
      omega
    have hrest : w ++ 58 :: t = u₂ ++ 58 :: (p ++ 58 :: t') := by
      rw [hu₂, List.append_assoc, List.cons_append] at htext
      exact (List.cons.inj (List.append_cancel_left htext)).2
    have hw₂ : w = beforeColon u₂ := by
      have := congrArg beforeColon hrest
      rwa [beforeColon_append_of_notMem hwc, beforeColon_append] at this
    have hsplit : cstr (loginRequest now' u q).payload.toList = n ++ 58 :: (u₂ ++ 58 :: q) := by
      rw [hlogin, hu₂, List.append_assoc, List.cons_append]
    refine ⟨?_, fun hnot => absurd hcolon hnot⟩
    rw [admitted_iff h hn (by omega) hnc hsplit hr hw]
    constructor
    · rintro ⟨-, hword⟩
      obtain ⟨v, hv⟩ := eq_beforeColon_append (s := u₂ ++ 58 :: q) (by simp)
      rw [beforeColon_append, ← hw₂] at hv
      have hwlen : w.length ≤ u₂.length := by
        rw [hw₂]
        exact (List.takeWhile_sublist _).length_le
      have hwhole : (firstWord (u₂ ++ 58 :: q)).length < 63 := by
        have := congrArg List.length hword
        rw [List.length_take] at this
        change min 63 _ = w.length at this
        omega
      rw [List.take_of_length_le (by omega), hv] at hword
      exact absurd hword (firstWord_ne hw v)
    · rintro ⟨-, hnot, -⟩
      exact absurd hcolon hnot
  · have hnu : n = u := by rw [hname, beforeColon_eq_self hcolon]
    subst hnu
    have hrest : w ++ 58 :: t = p ++ 58 :: t' :=
      (List.cons.inj (List.append_cancel_left htext)).2
    have hwp : w = beforeColon p := by
      have := congrArg beforeColon hrest
      rwa [beforeColon_append_of_notMem hwc, beforeColon_append] at this
    have htake : (firstWord q).take 63 = firstWord q :=
      List.take_of_length_le ((length_firstWord_le q).trans hq.length_le)
    rw [admitted_iff h hn hu.length_le hnc hlogin hr hw, htake]
    rw [hwp] at hw ⊢
    refine ⟨?_, fun _ => hw⟩
    constructor
    · rintro ⟨h1, h2⟩
      exact ⟨h1, hcolon, h2⟩
    · rintro ⟨h1, -, h2⟩
      exact ⟨h1, h2⟩

/-- The login is accepted with the right password only, exactly under the condition. -/
theorem exact_iff {taken : List UInt8 → Bool} {accepted : Prop}
    (h : accepted ↔ taken u = false ∧ (58 : UInt8) ∉ u ∧ firstWord q = beforeColon p)
    (hne : (58 : UInt8) ∉ u → beforeColon p ≠ []) :
    (accepted ↔ q = p) ↔ Exact taken u p q := by
  by_cases hq : q = p
  · subst hq
    simp only [iff_true, h, Exact, true_and, ne_eq, not_true_eq_false, false_and, or_false]
    constructor
    · rintro ⟨h1, h2, h3⟩
      obtain ⟨h4, h5⟩ := (firstWord_eq_beforeColon (hne h2)).mp h3
      exact ⟨h1, h2, h4, h5⟩
    · rintro ⟨h1, h2, h4, h5⟩
      exact ⟨h1, h2, (firstWord_eq_beforeColon (hne h2)).mpr ⟨h4, h5⟩⟩
  · simp only [hq, iff_false, h, Exact, false_and, false_or, ne_eq, not_false_eq_true, true_and]

/-- After `register_with_discovery` has succeeded for a name and a password, and before the
registered name is registered again, each chat server that asks the discovery server accepts
a login exactly with that password if and only if the condition holds. -/
theorem credentials_exact_iff {d₀ d₁ d₂ : Server} {ls : List Label} {c : Nat} {peer : Address}
    {now now₁ : UInt64} {chatPort : Int} {resp : Message} (hu : Typed 31 u) (hp : Typed 63 p)
    (hq : Typed 63 q) (hreach : Reachable step Server.init d₀)
    (hasks : d₀.phase c = .asking peer (registerRequest now u p chatPort))
    (hserve : step d₀ (.serve c now₁) = some d₁) (hresp : d₁.phase c = .replying resp)
    (hstatus : resp.status = 0) (hrun : run step d₁ ls = some d₂)
    (hlater : ∀ ops, d₂.log = d₁.log ++ ops → ∀ x ∈ ops, ∀ p' ip port,
      x.1 ≠ .register (beforeColon u) p' ip port) (now₂ now₃ : UInt64) (peer₂ : Address)
    (s : Slot) :
    (∀ (srv : Epoll.Server) (env : Env), env.disc = some (ask now₂ peer₂ d₂.registry) →
      ∃ (srv' : Epoll.Server) (v : Message),
        srv.processMessage env s (loginRequest now₃ u q) = srv'.slotSend s v ∧
        ((v.status = 0 ↔ q = p) ↔ Exact (fun n => (findName srv.table n).isSome) u p q)) ∧
    (∀ (st : Thread.State) (t : Thread.Tid) (i : Thread.Input) (rest : Thread.Code),
      i.env.disc = some (ask now₂ peer₂ d₂.registry) →
      st.todo t = .act (.route s (loginRequest now₃ u q)) :: rest → st.owner .table = none →
      ∃ n st' v, run Thread.step st (List.replicate n (t, i)) = some st' ∧
        st'.todo t = .act (.reply s v) :: rest ∧ ∀ now₄, (((v now₄).status = 0 ↔ q = p) ↔
          Exact (fun n => (findName st.shared.table n).isSome) u p q)) ∧
    ∀ (st : Fork.State) (c' : Nat) (i : Fork.Input) (rest : Fork.Code),
      i.env.disc = some (ask now₂ peer₂ d₂.registry) →
      st.todo .parent = .act (.route s c' (loginRequest now₃ u q)) :: rest →
      ∃ n st' v, run Fork.step st (List.replicate n (.parent, i)) = some st' ∧
        st'.todo .parent = .act (.reply s v) :: rest ∧ ∀ now₄, (((v now₄).status = 0 ↔ q = p) ↔
          Exact (fun n => (findName st.shared.table n).any (· ≠ s)) u p q) := by
  have hreach₁ : Reachable step Server.init d₁ := hreach.snoc hserve
  have hreach₂ : Reachable step Server.init d₂ := by
    obtain ⟨ks, hks⟩ := hreach₁
    exact ⟨ks ++ ls, run_trans hks hrun⟩
  have hok := (refines_of_reachable hreach₂).ok
  obtain ⟨n, w, port, hscan, husers⟩ :=
    users_of_register hreach hasks (kind_makeMessage ..) hserve hresp hstatus
  have hname : n = beforeColon u := by
    obtain ⟨⟨-, hnc⟩, -, t, ht⟩ := scanRegister_split hscan
    obtain ⟨t', ht'⟩ := payloadStr_registerRequest hu.toField hp.toField now chatPort
    have := congrArg beforeColon (ht.symm.trans ht')
    rwa [beforeColon_append_of_notMem hnc, beforeColon_append] at this
  have hlater' := users_of_run hreach₁ hrun hlater
  rw [← hname, husers] at hlater'
  have hexact : ∀ taken now₄, ((verdict taken d₂.registry
      (loginRequest now₃ u q).payload.toList now₄).status = 0 ↔ q = p) ↔ Exact taken u p q := by
    intro taken now₄
    obtain ⟨hiff, hne⟩ := admitted_loginRequest hok hu.toField hp.toField hq.toField hscan
      hlater' taken now₃
    exact exact_iff ((status_verdict taken now₄).trans hiff) hne
  refine ⟨fun srv env hdisc => ?_, fun st t i rest hdisc htodo hlock => ?_,
    fun st c' i rest hdisc htodo => ?_⟩
  · obtain ⟨-, srv', hreply⟩ := settle_epoll hok srv (s := s) (kind_makeMessage ..) hdisc
    exact ⟨srv', _, hreply, hexact _ _⟩
  · obtain ⟨k, st', hrun', htodo', -⟩ :=
      settle_thread hok htodo hlock (kind_makeMessage ..) hdisc
    exact ⟨k, st', _, hrun', htodo', fun now₄ => hexact _ now₄⟩
  · obtain ⟨k, st', hrun', htodo', -⟩ := settle_fork hok htodo (kind_makeMessage ..) hdisc
    exact ⟨k, st', _, hrun', htodo', fun now₄ => hexact _ now₄⟩

theorem field_noAddress : Field 15 [] := field_nil 15

/-- A peer whose address does not matter. -/
def somePeer : Address := ⟨[], field_noAddress⟩

/-- A client registers as `a`; its request has been received. -/
def registering (p : String) : Server :=
  (Server.init.enter 0 (.reading somePeer)).enter 0
    (.asking somePeer (registerRequest 0 (ascii "a") (ascii p) 5))

theorem reachable_registering (p : String) : Reachable step Server.init (registering p) :=
  ⟨[.accept 0 somePeer, .recv 0 (some (registerRequest 0 (ascii "a") (ascii p) 5))], rfl⟩

/-- The reply to that request. -/
def registered (p : String) : Message :=
  (serve 0 somePeer (registerRequest 0 (ascii "a") (ascii p) 5) Registry.zero).1

/-- With a plain password the login is accepted. -/
theorem credentials_exact_iff_plain : ∃ d₁ : Server,
    step (registering "pw") (.serve 0 0) = some d₁ ∧
    ∀ (history : History) (host : Host), ∃ (srv' : Epoll.Server) (v : Message),
      (Epoll.Server.init history).processMessage ⟨0, some (ask 0 somePeer d₁.registry), host⟩ 0
        (loginRequest 0 (ascii "a") (ascii "pw")) = srv'.slotSend 0 v ∧ v.status = 0 := by
  have hserve : step (registering "pw") (.serve 0 0) = some _ := rfl
  have hresp : _ = Phase.replying (registered "pw") := rfl
  have hu : Typed 31 [97] := ⟨⟨by simp, by simp⟩, by simp⟩
  have hp : Typed 63 [112, 119] := ⟨⟨by simp, by simp⟩, by simp⟩
  refine ⟨_, hserve, fun history host => ?_⟩
  obtain ⟨srv', v, hreply, hiff⟩ := (credentials_exact_iff hu hp hp
    (reachable_registering "pw") rfl hserve hresp rfl (run_nil _) (fun ops hops x hx => by
      have hnil : ops = [] := List.append_right_eq_self.mp hops.symm
      rw [hnil] at hx
      cases hx) 0 0 somePeer 0).1 (Epoll.Server.init history) ⟨0, _, host⟩ rfl
  refine ⟨srv', v, hreply, (hiff.mpr (Or.inl ⟨rfl, rfl, ?_⟩)).mpr rfl⟩
  simp [Scan.isSpace]

/-- A password with a blank is registered whole and cut at the login, which is refused. -/
theorem password_with_blank : ∃ d₁ : Server,
    step (registering "x y") (.serve 0 0) = some d₁ ∧
    d₁.phase 0 = .replying (registered "x y") ∧ (registered "x y").status = 0 ∧
    ∀ (history : History) (host : Host), ∃ (srv' : Epoll.Server) (v : Message),
      (Epoll.Server.init history).processMessage ⟨0, some (ask 0 somePeer d₁.registry), host⟩ 0
        (loginRequest 0 (ascii "a") (ascii "x y")) = srv'.slotSend 0 v ∧ v.status ≠ 0 := by
  have hserve : step (registering "x y") (.serve 0 0) = some _ := rfl
  have hresp : _ = Phase.replying (registered "x y") := rfl
  have hu : Field 31 [97] := ⟨by simp, by simp⟩
  have hp : Field 63 [120, 32, 121] := ⟨by simp, by simp⟩
  have hreach := reachable_registering "x y"
  refine ⟨_, hserve, hresp, rfl, fun history host => ?_⟩
  have hok := (refines_of_reachable (hreach.snoc hserve)).ok
  obtain ⟨n, w, port, hscan, husers⟩ :=
    users_of_register hreach rfl (kind_makeMessage ..) hserve hresp rfl
  obtain ⟨-, srv', hreply⟩ := settle_epoll (s := 0)
    (m := loginRequest 0 (ascii "a") (ascii "x y")) hok (Epoll.Server.init history)
    (kind_makeMessage ..)
    (show Env.disc ⟨0, some (ask 0 somePeer _), host⟩ = some (ask 0 somePeer _) from rfl)
  refine ⟨srv', _, hreply, fun h => ?_⟩
  have hword := ((admitted_loginRequest hok hu hp hp hscan husers _ 0).1.mp
    ((status_verdict _ _).mp h)).2.2
  exact absurd hword (by decide)

end ChatSystem.Discovery
