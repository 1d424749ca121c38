import ChatSystem.Discovery.Server
import ChatSystem.Epoll.Process
import ChatSystem.Fork.Slots
import ChatSystem.Thread.Program

/-!
# Logins and the registry

A chat server re-encodes the two fields of a login and has the discovery server compare
them with its records. The login grammar only yields fields that survive the way back, so
that each chat server logs in exactly the users the registry holds with that password.
-/

namespace ChatSystem.Discovery

open Bytes Tasks Transition

/-- The exchange of a chat server with a discovery server that holds `reg` under its lock. -/
def ask (now : UInt64) (peer : Address) (reg : Registry) (req : Message) : Option Message :=
  (unpackMessage (packMessage req)).bind fun req =>
    unpackMessage (packMessage (serve now peer req reg).1)

/-- An active record for exactly this name with exactly this password. -/
def Registry.Holds (reg : Registry) (u p : List UInt8) : Prop :=
  ∃ i, (reg i).active = true ∧ cstr (reg i).username.toList = u ∧
    cstr (reg i).password.toList = p

instance (reg : Registry) (u p : List UInt8) : Decidable (reg.Holds u p) :=
  inferInstanceAs (Decidable (∃ _, _))

/-- The name a login payload is admitted under, by a server where some names are taken. -/
def admitted (taken : List UInt8 → Bool) (reg : Registry) (payload : List UInt8) :
    Option (List UInt8) :=
  (scanLogin payload).bind fun x => if !taken x.1 ∧ reg.Holds x.1 x.2 then some x.1 else none

/-- The reply to that payload. -/
def verdict (taken : List UInt8 → Bool) (reg : Registry) (payload : List UInt8) (now : UInt64) :
    Message :=
  match scanLogin payload with
  | none => badLogin now
  | some (u, p) =>
    if taken u then alreadyLoggedIn now u
    else if reg.Holds u p then loginSuccessful now u
    else invalidCredentials now u

/-- A table behind a login of a slot. -/
def settle (table : Slot → Entry) (s : Slot) : Option (List UInt8) → Slot → Entry
  | none => table
  | some u => Function.update table s ((table s).login u)

/-- A server that stood at table `before` accepts a login payload exactly if the registry
holds its two fields. -/
structure Decides (reg : Registry) (payload : List UInt8) (s : Slot) (before after : Slot → Entry)
    (reply : UInt64 → Message) : Prop where
  accepts : ∀ u p, scanLogin payload = some (u, p) → reg.Holds u p →
    after = Function.update before s ((before s).login u) ∧ reply = (loginSuccessful · u)
  refuses : ∀ u p, scanLogin payload = some (u, p) → ¬ reg.Holds u p →
    after = before ∧ reply = (invalidCredentials · u)
  malformed : scanLogin payload = none → after = before ∧ reply = badLogin

variable {reg : Registry} {payload u p : List UInt8} {now now' : UInt64} {peer : Address}
  {req : Message}

/-! ## The way back -/

/-- The fields of a login. -/
theorem fields_of_scanLogin (h : scanLogin payload = some (u, p)) :
    ValidName u ∧ Field 63 p ∧ p ≠ [] ∧ ∀ b ∈ p, Scan.isSpace b = false := by
  refine ⟨validName_of_scanLogin h, ?_⟩
  simp only [scanLogin, Option.bind_eq_bind, Option.bind_eq_some_iff, Option.pure_def] at h
  obtain ⟨⟨u', r1⟩, hu, r2, hl, ⟨p', r3⟩, hp, he⟩ := h
  obtain ⟨rfl, rfl⟩ := Prod.mk.inj (Option.some.inj he)
  obtain ⟨-, -, h1⟩ := field_of_untilByte (fun b => mem_cstr) hu
  obtain ⟨hne, hlen, hspace, hmem⟩ := Scan.word_eq_some hp
  exact ⟨⟨fun b hb => forall_of_literal h1 hl b (hmem b hb), hlen⟩, hne, hspace⟩

/-- Both grammars read such fields back from `u:p`. -/
theorem scanLogin_append (hu : ValidName u) (hp : Field 63 p) (hne : p ≠ [])
    (hspace : ∀ b ∈ p, Scan.isSpace b = false) {payload : List UInt8}
    (hpayload : cstr payload = u ++ 58 :: p) :
    scanLogin payload = some (u, p) ∧ scanValidate payload = (u, p) := by
  have huntil := Scan.untilByte_append hu.ne_nil hu.length_le hu.no_colon p
  have hword := Scan.word_eq_self hne hp.length_le hspace
  constructor
  · simp [scanLogin, hpayload, huntil, Scan.literal, hword]
  · simp [scanValidate, hpayload, huntil, Scan.literal, hword]

/-- The payload `validate` sends, as the discovery server reads it. -/
theorem cstr_validateRequest (hu : ValidName u) (hp : Field 63 p) (now : UInt64) :
    cstr (validateRequest now u p).payload.toList = u ++ 58 :: p := by
  have hcolon : u ++ ascii ":" ++ p = u ++ 58 :: p := by
    rw [List.append_assoc]
    rfl
  have hno : ∀ b ∈ u ++ 58 :: p, b ≠ 0 := by
    intro b hb
    rcases List.mem_append.mp hb with hb | hb
    · exact hu.no_zero b hb
    · rcases List.mem_cons.mp hb with rfl | hb
      · decide
      · exact hp.no_zero b hb
  have hlen : (u ++ 58 :: p).length ≤ maxPayloadLen - 1 := by
    have h1 := hu.length_le
    have h2 := hp.length_le
    rw [List.length_append, List.length_cons, maxPayloadLen]
    omega
  have hsnp : snprintf maxPayloadLen (u ++ ascii ":" ++ p) = u ++ 58 :: p := by
    rw [hcolon, snprintf, List.take_of_length_le hlen]
  have hstr := payloadStr_makeMessage now .validate u (ascii "discovery")
    (snprintf maxPayloadLen (u ++ ascii ":" ++ p))
  rw [hsnp, cstr_of_forall_ne hno, List.take_of_length_le (hlen.trans (Nat.sub_le ..))] at hstr
  rw [validateRequest, hsnp]
  exact hstr

/-- A payload that is not two fields leaves the name or the password empty. -/
theorem scanValidate_of_none (h : scanLogin payload = none) :
    (scanValidate payload).1 = [] ∨ (scanValidate payload).2 = [] := by
  unfold scanValidate
  split
  · exact Or.inl rfl
  · next u rest hu =>
    split
    · exact Or.inr rfl
    · next p r hp =>
      obtain ⟨r2, hl, hw⟩ := Option.bind_eq_some_iff.mp hp
      simp [scanLogin, hu, hl, hw] at h

/-! ## What the registry says -/

/-- A record that compares equal holds the name and the password. -/
theorem Registry.Ok.holds_iff (h : reg.Ok) (hu : Field 31 u) (hp : Field 63 p) :
    ((findUser reg u).any fun idx => strncmpEq maxPasswordLen (reg idx).password.toList p) = true ↔
      reg.Holds u p := by
  have hpass : ∀ i, strncmpEq maxPasswordLen (reg i).password.toList p = true ↔
      cstr (reg i).password.toList = p := by
    intro i
    rw [strncmpEq_field (show 63 ≤ maxPasswordLen by decide) hp, decide_eq_true_iff]
  have hname : ∀ i, ((reg i).active && strncmpEq maxUsernameLen (reg i).username.toList u) = true ↔
      (reg i).active = true ∧ cstr (reg i).username.toList = u := by
    intro i
    rw [Bool.and_eq_true, strncmpEq_field (show 31 ≤ maxUsernameLen by decide) hu,
      decide_eq_true_iff]
  rw [Option.any_eq_true]
  constructor
  · rintro ⟨i, hi, hcmp⟩
    obtain ⟨hact, hn⟩ := (hname i).mp (SlotMap.first_eq_some hi)
    exact ⟨i, hact, hn, (hpass i).mp hcmp⟩
  · rintro ⟨i, hact, hn, hcmp⟩
    cases hfind : findUser reg u with
    | none =>
      have := SlotMap.first_eq_none.mp hfind i
      rw [(hname i).mpr ⟨hact, hn⟩] at this
      cases this
    | some j =>
      obtain ⟨hact', hn'⟩ := (hname j).mp (SlotMap.first_eq_some hfind)
      obtain rfl := h.name_inj hact hact' (hn.trans hn'.symm)
      exact ⟨i, rfl, (hpass i).mpr hcmp⟩

/-- No record has an empty name or an empty password. -/
theorem Registry.Ok.not_holds (h : reg.Ok) (he : u = [] ∨ p = []) : ¬ reg.Holds u p := by
  rintro ⟨i, hact, hn, hcmp⟩
  obtain ⟨u', p', ip, ⟨⟨hu, hune⟩, ⟨hp, hpne⟩, -⟩, hshow⟩ := h.shows i hact
  rw [hshow.1.cstr_eq hu] at hn
  rw [hshow.2.1.cstr_eq hp] at hcmp
  rcases he with rfl | rfl
  · exact hune hn
  · exact hpne hcmp

/-- The status of the reply to a validation. -/
theorem status_serve_validate (h : reg.Ok) (now : UInt64) (peer : Address)
    (hreq : req.kind = some .validate) :
    (serve now peer req reg).1.status = 0 ↔
      reg.Holds (scanValidate req.payload.toList).1 (scanValidate req.payload.toList).2 := by
  have hop : operation peer req = some (.validate (scanValidate req.payload.toList).1
      (scanValidate req.payload.toList).2) := by
    rw [operation, hreq]
  obtain ⟨fu, fp⟩ := field_scanValidate req.payload.toList
  rw [← h.holds_iff fu fp, serve, hop]
  simp only [Registry.exec]
  cases (findUser reg (scanValidate req.payload.toList).1).any _ with
  | true => exact ⟨fun _ => rfl, fun _ => rfl⟩
  | false =>
    constructor
    · intro h1
      cases h1
    · intro h1
      cases h1

/-- A chat server that asks learns whether the registry holds the fields of the login. -/
theorem validate_ask (h : reg.Ok) (hscan : scanLogin payload = some (u, p)) :
    validate (some (ask now peer reg)) now' u p = decide (reg.Holds u p) := by
  obtain ⟨hu, hp, hne, hspace⟩ := fields_of_scanLogin hscan
  have hreq : WellFormed (validateRequest now' u p) := wellFormed_makeMessage ..
  have hback := (scanLogin_append hu hp hne hspace (cstr_validateRequest hu hp now')).2
  have hkind : (validateRequest now' u p).kind = some .validate := kind_makeMessage ..
  have hstatus := status_serve_validate h now peer hkind
  rw [hback] at hstatus
  have hask : ask now peer reg (validateRequest now' u p) =
      some (canonical (serve now peer (validateRequest now' u p) reg).1) := by
    rw [ask, hreq.unpack_pack, Option.bind_some, unpack_pack]
  rw [validate, hask, Bool.eq_iff_iff, decide_eq_true_iff, ← hstatus]
  exact beq_iff_eq

/-- A payload whose name is not taken is decided by the registry. -/
theorem decides_settle {taken : List UInt8 → Bool} (s : Slot) (table : Slot → Entry)
    (hfree : ∀ u p, scanLogin payload = some (u, p) → taken u = false) :
    Decides reg payload s table (settle table s (admitted taken reg payload))
      (verdict taken reg payload) := by
  refine ⟨fun u p hscan hholds => ?_, fun u p hscan hholds => ?_, fun hscan => ?_⟩
  · unfold admitted verdict
    simp only [hscan, Option.bind_some, hfree u p hscan, hholds, Bool.not_false, and_self, if_true,
      Bool.false_eq_true, if_false]
    exact ⟨rfl, trivial⟩
  · unfold admitted verdict
    simp only [hscan, Option.bind_some, hfree u p hscan, hholds, and_false, if_false,
      Bool.false_eq_true]
    exact ⟨rfl, trivial⟩
  · unfold admitted verdict
    simp only [hscan, Option.bind_none]
    exact ⟨rfl, trivial⟩

/-! ## The chat servers -/

section Servers

variable {env : Env} {s : Slot} {m : Message}

/-- The epoll server. -/
theorem settle_epoll (h : reg.Ok) (srv : Epoll.Server) (hm : m.kind = some .login)
    (hdisc : env.disc = some (ask now peer reg)) :
    (srv.processMessage env s m).table = settle srv.table s
        (admitted (fun u => (findName srv.table u).isSome) reg m.payload.toList) ∧
      ∃ srv' : Epoll.Server, srv.processMessage env s m = srv'.slotSend s
        (verdict (fun u => (findName srv.table u).isSome) reg m.payload.toList env.now) := by
  have hlogin : srv.processMessage env s m =
      (srv.note (.processed (srv.connOf s) m)).login env s m := by
    simp only [Epoll.Server.processMessage, hm]
  rw [hlogin]
  cases hscan : scanLogin m.payload.toList with
  | none =>
    simp only [Epoll.Server.login, hscan, admitted, verdict, Option.bind_none, settle]
    exact ⟨Epoll.Server.table_slotSend .., _, rfl⟩
  | some x =>
    obtain ⟨u, p⟩ := x
    have hfind : (srv.note (.processed (srv.connOf s) m)).findByUser u = findName srv.table u := rfl
    simp only [Epoll.Server.login, hscan, admitted, verdict, Option.bind_some, hfind, hdisc,
      validate_ask h hscan]
    by_cases htaken : (findName srv.table u).isSome = true
    · simp only [htaken, if_true, Bool.not_true, Bool.false_eq_true, false_and, if_false, settle]
      exact ⟨Epoll.Server.table_slotSend .., _, rfl⟩
    · by_cases hholds : reg.Holds u p
      · simp only [htaken, hholds, decide_true, Bool.not_true, Bool.false_eq_true, if_false,
          if_true, settle]
        refine ⟨?_, _, rfl⟩
        rw [Epoll.Server.table_slotSend, Epoll.Server.table_setEntry]
        simp
        rfl
      · simp only [htaken, hholds, decide_false, Bool.not_false, Bool.false_eq_true, if_false,
          if_true, settle]
        refine ⟨?_, _, rfl⟩
        rw [Epoll.Server.table_slotSend]
        simp

/-- The thread server: a thread that routes a login while the table is unlocked, on its own. -/
theorem settle_thread (h : reg.Ok) {st : Thread.State} {t : Thread.Tid} {i : Thread.Input}
    {rest : Thread.Code} (htodo : st.todo t = .act (.route s m) :: rest)
    (hfree : st.owner .table = none) (hm : m.kind = some .login)
    (hdisc : i.env.disc = some (ask now peer reg)) :
    ∃ n st', run Thread.step st (List.replicate n (t, i)) = some st' ∧
      st'.todo t = .act (.reply s (verdict (fun u => (findName st.shared.table u).isSome) reg
        m.payload.toList)) :: rest ∧
      st'.shared.table = settle st.shared.table s
        (admitted (fun u => (findName st.shared.table u).isSome) reg m.payload.toList) := by
  have hroute : Thread.exec t (.route s m) i st.shared =
      st.shared.goOn (Thread.Shared.login s m) := by
    simp only [Thread.exec, Thread.Shared.route, hm]
  unfold admitted verdict
  cases hscan : scanLogin m.payload.toList with
  | none =>
    simp only [Thread.Shared.login, hscan] at hroute
    exact ⟨1, _, run_cons_iff.mpr ⟨_, step_act_eq htodo hroute rfl, rfl⟩, todo_goOn_self .., rfl⟩
  | some x =>
    obtain ⟨u, p⟩ := x
    simp only [Thread.Shared.login, hscan] at hroute
    simp only [Option.bind_some]
    by_cases htaken : (findName st.shared.table u).isSome = true
    · have hcheck : Thread.exec t (.checkName s u p) i st.shared =
          st.shared.goOn [.unlock .table, .act (.reply s (alreadyLoggedIn · u))] := by
        simp only [Thread.exec, Thread.Shared.findUser, htaken, if_true]
      refine ⟨4, _, run_cons_iff.mpr ⟨_, step_act_eq htodo hroute rfl, run_cons_iff.mpr
        ⟨_, step_lock_eq (todo_goOn_self ..) hfree, run_cons_iff.mpr
        ⟨_, step_act_eq (todo_goOn_self ..) hcheck rfl, run_cons_iff.mpr
        ⟨_, step_unlock_eq (todo_goOn_self ..), rfl⟩⟩⟩⟩, ?_, ?_⟩
      · simp only [htaken, if_true]
        exact todo_goOn_self ..
      · simp only [htaken, Bool.not_true, Bool.false_eq_true, false_and, if_false]
        rfl
    · have hcheck : Thread.exec t (.checkName s u p) i st.shared =
          st.shared.goOn [.act (.validate s u p)] := by
        simp only [Thread.exec, Thread.Shared.findUser, htaken, if_false, Bool.false_eq_true]
      by_cases hholds : reg.Holds u p
      · have hvalid : Thread.exec t (.validate s u p) i st.shared =
            st.shared.goOn [.act (.storeLogin s u)] := by
          simp [Thread.exec, hdisc, validate_ask h hscan, hholds]
        have hstore : Thread.exec t (.storeLogin s u) i st.shared =
            ((st.shared.setEntry s ((st.shared.clients s).login u)).note (.loggedIn t u)).goOn
              [.unlock .table, .act (.reply s (loginSuccessful · u))] := rfl
        refine ⟨6, _, run_cons_iff.mpr ⟨_, step_act_eq htodo hroute rfl, run_cons_iff.mpr
          ⟨_, step_lock_eq (todo_goOn_self ..) hfree, run_cons_iff.mpr
          ⟨_, step_act_eq (todo_goOn_self ..) hcheck rfl, run_cons_iff.mpr
          ⟨_, step_act_eq (todo_goOn_self ..) hvalid rfl, run_cons_iff.mpr
          ⟨_, step_act_eq (todo_goOn_self ..) hstore rfl, run_cons_iff.mpr
          ⟨_, step_unlock_eq (todo_goOn_self ..), rfl⟩⟩⟩⟩⟩⟩, ?_, ?_⟩
        · simp only [htaken, hholds, Bool.false_eq_true, if_false, if_true]
          exact todo_goOn_self ..
        · simp only [htaken, hholds, Bool.not_false, and_self, if_true, settle]
          ext1 j
          by_cases hj : j = s
          · subst hj
            rw [Function.update_self]
            exact Thread.toEntry_setEntry_self ..
          · rw [Function.update_of_ne hj]
            exact congrArg Thread.Client.toEntry (Thread.clients_setClient_of_ne st.shared hj _)
      · have hvalid : Thread.exec t (.validate s u p) i st.shared =
            st.shared.goOn [.unlock .table, .act (.reply s (invalidCredentials · u))] := by
          simp [Thread.exec, hdisc, validate_ask h hscan, hholds]
        refine ⟨5, _, run_cons_iff.mpr ⟨_, step_act_eq htodo hroute rfl, run_cons_iff.mpr
          ⟨_, step_lock_eq (todo_goOn_self ..) hfree, run_cons_iff.mpr
          ⟨_, step_act_eq (todo_goOn_self ..) hcheck rfl, run_cons_iff.mpr
          ⟨_, step_act_eq (todo_goOn_self ..) hvalid rfl, run_cons_iff.mpr
          ⟨_, step_unlock_eq (todo_goOn_self ..), rfl⟩⟩⟩⟩⟩, ?_, ?_⟩
        · simp only [htaken, hholds, Bool.false_eq_true, if_false]
          exact todo_goOn_self ..
        · simp only [hholds, and_false, if_false]
          rfl

/-- The two stores of a login in the fork server. -/
theorem table_login_fork (sh : Fork.Shared) (s : Slot) (u : List UInt8) :
    ((sh.setEntry s ((sh.clients s).setName u)).setEntry s
      ((sh.setEntry s ((sh.clients s).setName u)).clients s).activate).table =
      Function.update sh.table s ((sh.table s).login u) := by
  have hself : ((sh.setEntry s ((sh.clients s).setName u)).clients s).toEntry =
      (sh.clients s).setName u :=
    congrArg Fork.Client.toEntry (Fork.clients_setClient_self sh s _)
  rw [hself, Fork.Shared.setEntry, Fork.table_setClient, Fork.Shared.setEntry, Fork.table_setClient,
    Function.update_idem]
  rfl

/-- The fork server: the parent that routes a login, not interrupted. A name that only the
connection itself holds is not taken. -/
theorem settle_fork (h : reg.Ok) {st : Fork.State} {c : Nat} {i : Fork.Input} {rest : Fork.Code}
    (htodo : st.todo .parent = .act (.route s c m) :: rest) (hm : m.kind = some .login)
    (hdisc : i.env.disc = some (ask now peer reg)) :
    ∃ n st', run Fork.step st (List.replicate n (.parent, i)) = some st' ∧
      st'.todo .parent = .act (.reply s (verdict
        (fun u => (findName st.shared.table u).any (· ≠ s)) reg m.payload.toList)) :: rest ∧
      st'.shared.table = settle st.shared.table s
        (admitted (fun u => (findName st.shared.table u).any (· ≠ s)) reg m.payload.toList) := by
  have hroute : Fork.exec .parent (.route s c m) i st.shared =
      (st.shared.note (.routed s c m)).goOn (Fork.Shared.login s m) := by
    simp only [Fork.exec, Fork.Shared.route, hm]
  unfold admitted verdict
  cases hscan : scanLogin m.payload.toList with
  | none =>
    simp only [Fork.Shared.login, hscan] at hroute
    exact ⟨1, _, run_cons_iff.mpr ⟨_, step_act_eq htodo hroute rfl, rfl⟩, todo_goOn_self .., rfl⟩
  | some x =>
    obtain ⟨u, p⟩ := x
    simp only [Fork.Shared.login, hscan] at hroute
    simp only [Option.bind_some]
    by_cases htaken : (findName st.shared.table u).any (· ≠ s) = true
    · have hcheck : Fork.exec .parent (.checkName s u p) i (st.shared.note (.routed s c m)) =
          (st.shared.note (.routed s c m)).goOn [.reply s (alreadyLoggedIn · u)] :=
        if_pos htaken
      refine ⟨2, _, run_cons_iff.mpr ⟨_, step_act_eq htodo hroute rfl, run_cons_iff.mpr
        ⟨_, step_act_eq (todo_goOn_self ..) hcheck rfl, rfl⟩⟩, ?_, ?_⟩
      · simp only [htaken, if_true]
        exact todo_goOn_self ..
      · simp only [htaken, Bool.not_true, Bool.false_eq_true, false_and, if_false]
        rfl
    · have hcheck : Fork.exec .parent (.checkName s u p) i (st.shared.note (.routed s c m)) =
          (st.shared.note (.routed s c m)).goOn [.validate s u p] := if_neg htaken
      by_cases hholds : reg.Holds u p
      · have hvalid : Fork.exec .parent (.validate s u p) i (st.shared.note (.routed s c m)) =
            (st.shared.note (.routed s c m)).goOn [.storeName s u] := by
          simp [Fork.exec, hdisc, validate_ask h hscan, hholds]
        refine ⟨5, _, run_cons_iff.mpr ⟨_, step_act_eq htodo hroute rfl, run_cons_iff.mpr
          ⟨_, step_act_eq (todo_goOn_self ..) hcheck rfl, run_cons_iff.mpr
          ⟨_, step_act_eq (todo_goOn_self ..) hvalid rfl, run_cons_iff.mpr
          ⟨_, step_act_eq (todo_goOn_self ..) rfl rfl, run_cons_iff.mpr
          ⟨_, step_act_eq (todo_goOn_self ..) rfl rfl, rfl⟩⟩⟩⟩⟩, ?_, ?_⟩
        · simp only [htaken, hholds, Bool.false_eq_true, if_false, if_true]
          exact todo_goOn_self ..
        · simp only [htaken, hholds, Bool.not_false, and_self, if_true, settle]
          exact table_login_fork st.shared s u
      · have hvalid : Fork.exec .parent (.validate s u p) i (st.shared.note (.routed s c m)) =
            (st.shared.note (.routed s c m)).goOn [.reply s (invalidCredentials · u)] := by
          simp [Fork.exec, hdisc, validate_ask h hscan, hholds]
        refine ⟨3, _, run_cons_iff.mpr ⟨_, step_act_eq htodo hroute rfl, run_cons_iff.mpr
          ⟨_, step_act_eq (todo_goOn_self ..) hcheck rfl, run_cons_iff.mpr
          ⟨_, step_act_eq (todo_goOn_self ..) hvalid rfl, rfl⟩⟩⟩, ?_, ?_⟩
        · simp only [htaken, hholds, Bool.false_eq_true, if_false]
          exact todo_goOn_self ..
        · simp only [hholds, and_false, if_false]
          rfl

end Servers

/-- A chat server that asks a discovery server accepts exactly the logins whose name and
password the registry holds at that moment, if the name is not logged in; what does not
parse is never accepted, neither here nor there; and the fields of a login survive the
way to the discovery server. -/
theorem login_agrees {d : Server} (hd : Reachable step Server.init d) (now : UInt64)
    (peer : Address) :
    (∀ payload u p now', scanLogin payload = some (u, p) →
      scanLogin (validateRequest now' u p).payload.toList = some (u, p) ∧
      scanValidate (validateRequest now' u p).payload.toList = (u, p)) ∧
    (∀ req, req.kind = some .validate → scanLogin req.payload.toList = none →
      (serve now peer req d.registry).1.status ≠ 0) ∧
    ∀ (s : Slot) (m : Message), m.kind = some .login →
      (∀ (srv : Epoll.Server) (env : Env), env.disc = some (ask now peer d.registry) →
        (∀ u p, scanLogin m.payload.toList = some (u, p) → findName srv.table u = none) →
        ∃ v, Decides d.registry m.payload.toList s srv.table (srv.processMessage env s m).table v ∧
          ∃ srv' : Epoll.Server, srv.processMessage env s m = srv'.slotSend s (v env.now)) ∧
      (∀ (st : Thread.State) (t : Thread.Tid) (i : Thread.Input) (rest : Thread.Code),
        i.env.disc = some (ask now peer d.registry) →
        st.todo t = .act (.route s m) :: rest → st.owner .table = none →
        (∀ u p, scanLogin m.payload.toList = some (u, p) → findName st.shared.table u = none) →
        ∃ v n st', Decides d.registry m.payload.toList s st.shared.table st'.shared.table v ∧
          run Thread.step st (List.replicate n (t, i)) = some st' ∧
          st'.todo t = .act (.reply s v) :: rest) ∧
      ∀ (st : Fork.State) (c : Nat) (i : Fork.Input) (rest : Fork.Code),
        i.env.disc = some (ask now peer d.registry) →
        st.todo .parent = .act (.route s c m) :: rest →
        (∀ u p, scanLogin m.payload.toList = some (u, p) → findName st.shared.table u = none) →
        ∃ v n st', Decides d.registry m.payload.toList s st.shared.table st'.shared.table v ∧
          run Fork.step st (List.replicate n (.parent, i)) = some st' ∧
          st'.todo .parent = .act (.reply s v) :: rest := by
  have hok := (refines_of_reachable hd).ok
  refine ⟨fun payload u p now' hscan => ?_, fun req hreq hscan hzero => ?_, fun s m hm =>
    ⟨fun srv env hdisc hfree => ?_, fun st t i rest hdisc htodo hlock hfree => ?_,
      fun st c i rest hdisc htodo hfree => ?_⟩⟩
  · obtain ⟨hu, hp, hne, hspace⟩ := fields_of_scanLogin hscan
    exact scanLogin_append hu hp hne hspace (cstr_validateRequest hu hp now')
  · exact hok.not_holds (scanValidate_of_none hscan) ((status_serve_validate hok now peer hreq).mp hzero)
  · obtain ⟨htable, srv', hreply⟩ := settle_epoll hok srv hm hdisc (s := s)
    rw [htable]
    refine ⟨_, decides_settle s srv.table fun u p hscan => ?_, srv', hreply⟩
    rw [hfree u p hscan]
    rfl
  · obtain ⟨n, st', hrun, htodo', htable⟩ := settle_thread hok htodo hlock hm hdisc
    refine ⟨_, n, st', ?_, hrun, htodo'⟩
    rw [htable]
    refine decides_settle s st.shared.table fun u p hscan => ?_
    rw [hfree u p hscan]
    rfl
  · obtain ⟨n, st', hrun, htodo', htable⟩ := settle_fork hok htodo hm hdisc
    refine ⟨_, n, st', ?_, hrun, htodo'⟩
    rw [htable]
    refine decides_settle s st.shared.table fun u p hscan => ?_
    rw [hfree u p hscan]
    rfl

/-- After the re-registration above, the new password logs in. -/
theorem login_agrees_reregistration : ∃ d, Reachable step Server.init d ∧
    ∀ (peer : Address) (history : History) (host : Host),
      ((Epoll.Server.init history).processMessage ⟨0, some (ask 0 peer d.registry), host⟩ 0
        (makeMessage 0 .login [] [] (ascii "a:pw"))).table =
          Function.update (fun _ => Entry.zero) 0 (Entry.zero.login (ascii "a")) := by
  have hrun : run step Server.init reregistration = some _ := rfl
  refine ⟨_, ⟨reregistration, hrun⟩, fun peer history host => ?_⟩
  obtain ⟨v, hdec, -⟩ := ((login_agrees ⟨reregistration, hrun⟩ 0 peer).2.2 0
    (makeMessage 0 .login [] [] (ascii "a:pw")) (kind_makeMessage ..)).1
    (Epoll.Server.init history) ⟨0, some (ask 0 peer _), host⟩ rfl (fun u p hscan => rfl)
  exact (hdec.accepts (ascii "a") (ascii "pw") rfl
    ⟨⟨0, by decide⟩, rfl, rfl, rfl⟩).1

end ChatSystem.Discovery
