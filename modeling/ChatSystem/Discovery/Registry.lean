import ChatSystem.Core.Scan
import ChatSystem.Core.SlotMap
import ChatSystem.Protocol.Message

/-!
# The registry of the discovery server

A fixed array of user records, searched from the front and overwritten by `strncpy`. It is
a map from names to registrations with a capacity: a record shows exactly the last
registration of its name, and no name stands in two active records.
-/

namespace ChatSystem.Discovery

open Bytes

/-- `MAX_USERS`. -/
def maxUsers : Nat := 128

/-- `INET_ADDRSTRLEN`. -/
def inetAddrstrlen : Nat := 16

/-- `UserRecord`. -/
structure UserRecord where
  username : Arr maxUsernameLen
  password : Arr maxPasswordLen
  ip : Arr inetAddrstrlen
  port : Int
  active : Bool

/-- `registry`. -/
abbrev Registry := Fin maxUsers → UserRecord

/-- `memset(registry, 0, sizeof(registry))`. -/
def Registry.zero : Registry :=
  fun _ => ⟨zeros maxUsernameLen, zeros maxPasswordLen, zeros inetAddrstrlen, 0, false⟩

/-- `find_user`. -/
def findUser (reg : Registry) (u : List UInt8) : Option (Fin maxUsers) :=
  SlotMap.first fun i =>
    (reg i).active && strncmpEq maxUsernameLen (reg i).username.toList u

/-- The search for a free record in `register_user`. -/
def findFree (reg : Registry) : Option (Fin maxUsers) := SlotMap.first fun i => !(reg i).active

/-- The stores of `register_user`. -/
def UserRecord.fill (r : UserRecord) (u p ip : List UInt8) (port : Int) : UserRecord :=
  { active := true
    port := port
    username := strncpy r.username u (maxUsernameLen - 1)
    password := strncpy r.password p (maxPasswordLen - 1)
    ip := strncpy r.ip ip (inetAddrstrlen - 1) }

/-- `register_user`; `false` is the result `-1`. -/
def registerUser (reg : Registry) (u p ip : List UInt8) (port : Int) : Bool × Registry :=
  match (findUser reg u).orElse fun _ => findFree reg with
  | none => (false, reg)
  | some idx => (true, Function.update reg idx ((reg idx).fill u p ip port))

/-- What one connection asks of the registry while it holds `reg_lock`. -/
inductive Op
  | register (u p ip : List UInt8) (port : Int)
  | discover (target : List UInt8)
  | validate (u p : List UInt8)
  deriving DecidableEq

/-- What it learns there. -/
inductive Answer
  | registered
  | full
  | address (ip : List UInt8) (port : Int)
  | unknown
  | valid (ok : Bool)
  deriving DecidableEq

/-- The critical sections of `register_user` and `handle_connection`. -/
def Registry.exec (reg : Registry) : Op → Answer × Registry
  | .register u p ip port =>
    match registerUser reg u p ip port with
    | (true, reg) => (.registered, reg)
    | (false, reg) => (.full, reg)
  | .discover target =>
    match findUser reg target with
    | none => (.unknown, reg)
    | some idx => (.address (cstr (reg idx).ip.toList) (reg idx).port, reg)
  | .validate u p =>
    (.valid ((findUser reg u).any fun idx =>
      strncmpEq maxPasswordLen (reg idx).password.toList p), reg)

/-! ## The map it stands for -/

/-- What is registered under a name. -/
structure Registration where
  password : List UInt8
  ip : List UInt8
  port : Int
  deriving DecidableEq

/-- The registrations by name. -/
abbrev Users := List UInt8 → Option Registration

open Classical in
/-- A map with last-write-wins that holds at most 128 names. -/
noncomputable def Users.exec (m : Users) : Op → Answer × Users
  | .register u p ip port =>
    if m u = none ∧ (SlotMap.keys m).ncard = maxUsers then (.full, m)
    else (.registered, Function.update m u (some ⟨p, ip, port⟩))
  | .discover target =>
    match m target with
    | none => (.unknown, m)
    | some r => (.address r.ip r.port, m)
  | .validate u p => (.valid ((m u).any fun r => r.password = p), m)

/-- The answers to operations one after the other, and the map behind them. -/
noncomputable def Users.run : Users → List Op → List Answer × Users
  | m, [] => ([], m)
  | m, op :: ops => ((m.exec op).1 :: (run (m.exec op).2 ops).1, (run (m.exec op).2 ops).2)

theorem Users.run_append_singleton (m : Users) (ops : List Op) (op : Op) :
    m.run (ops ++ [op]) =
      ((m.run ops).1 ++ [((m.run ops).2.exec op).1], ((m.run ops).2.exec op).2) := by
  induction ops generalizing m with
  | nil => rfl
  | cons o ops ih => simp only [List.cons_append, run, ih]

/-- A string of at most `n` bytes. -/
structure Field (n : Nat) (s : List UInt8) : Prop where
  no_zero : ∀ b ∈ s, b ≠ 0
  length_le : s.length ≤ n

/-- The strings of an operation fit their fields; a registration has a name and a password. -/
def Op.Parsed : Op → Prop
  | .register u p ip _ => (Field 31 u ∧ u ≠ []) ∧ (Field 63 p ∧ p ≠ []) ∧ Field 15 ip
  | .discover target => Field 31 target
  | .validate u p => Field 31 u ∧ Field 63 p

/-- An array holds a string and nothing else. -/
def Shows (a s : List UInt8) : Prop := a = s ++ List.replicate (a.length - s.length) 0

/-- What a record stands for. -/
def UserRecord.entry (r : UserRecord) : Option (List UInt8 × Registration) :=
  if r.active then
    some (cstr r.username.toList, ⟨cstr r.password.toList, cstr r.ip.toList, r.port⟩)
  else none

/-- The records as the slots of a bounded map. -/
def Registry.entries (reg : Registry) : SlotMap.Slots maxUsers (List UInt8) Registration :=
  fun i => (reg i).entry

/-- The map a registry stands for. -/
def Registry.users (reg : Registry) : Users := SlotMap.get reg.entries

/-- The terminators behind the fields of a record, which no copy reaches. -/
structure UserRecord.Terminated (r : UserRecord) : Prop where
  username : r.username.toList.drop 31 = [0]
  password : r.password.toList.drop 63 = [0]
  ip : r.ip.toList.drop 15 = [0]

/-- A record shows one registration and no byte of an earlier one. -/
def UserRecord.ShowsOnly (r : UserRecord) (u p ip : List UInt8) : Prop :=
  Shows r.username.toList u ∧ Shows r.password.toList p ∧ Shows r.ip.toList ip

/-- Active records show one registration each, under different names. -/
structure Registry.Ok (reg : Registry) : Prop where
  terminated : ∀ i, (reg i).Terminated
  shows : ∀ i, (reg i).active = true → ∃ u p ip, (Op.register u p ip (reg i).port).Parsed ∧
    (reg i).ShowsOnly u p ip
  distinct : SlotMap.Distinct reg.entries

variable {reg : Registry} {u p ip : List UInt8} {port : Int}

/-! ## Strings in arrays -/

theorem field_nil (n : Nat) : Field n [] := by
  constructor
  · intro b hb
    cases hb
  · exact Nat.zero_le n

theorem Field.cstr_eq {n : Nat} {s : List UInt8} (h : Field n s) : cstr s = s :=
  cstr_of_forall_ne h.no_zero

theorem Shows.cstr_eq {n : Nat} {a s : List UInt8} (h : Shows a s) (hs : Field n s) :
    cstr a = s := by
  rw [h]
  exact cstr_append_replicate hs.no_zero _

/-- A copied string pads its field, and the terminator stays. -/
theorem shows_strncpy {n k : Nat} {a : Arr n} (hn : n = k + 1) (ha : a.toList.drop k = [0])
    {s : List UInt8} (hs : Field k s) :
    Shows (strncpy a s k).toList s ∧ (strncpy a s k).toList.drop k = [0] := by
  have hl : (padded k s).length = k := length_padded _ _
  have hlen := hs.length_le
  have hlist : (strncpy a s k).toList = padded k s ++ [0] := by
    rw [toList_strncpy a s (by omega), ha]
  constructor
  · rw [Shows, List.Vector.toList_length, hlist, padded, hs.cstr_eq, List.take_of_length_le hlen,
      List.append_assoc, hn, show k + 1 - s.length = (k - s.length) + 1 by omega,
      List.replicate_succ']
  · rw [hlist, List.drop_left' hl]

/-- Comparing a whole array with a string that fits is equality of strings. -/
theorem strncmpEq_field {n k : Nat} {a : Arr n} {s : List UInt8} (hk : k ≤ n) (hs : Field k s) :
    strncmpEq n a.toList s = decide (cstr a.toList = s) := by
  rw [strncmpEq, List.take_of_length_le (List.Vector.toList_length a).le,
    List.take_of_length_le (hs.length_le.trans hk), hs.cstr_eq]
  exact beq_eq_decide _ _

/-! ## Searching and storing -/

theorem findUser_eq (reg : Registry) (hu : Field 31 u) :
    findUser reg u = SlotMap.find reg.entries u := by
  rw [findUser, SlotMap.find]
  congr 1
  ext1 i
  rw [strncmpEq_field (by decide) hu, Registry.entries, UserRecord.entry]
  cases (reg i).active <;> rfl

theorem findFree_eq (reg : Registry) : findFree reg = SlotMap.free reg.entries := by
  rw [findFree, SlotMap.free]
  congr 1
  ext1 i
  rw [Registry.entries, UserRecord.entry]
  cases (reg i).active <;> rfl

/-- A filled record stands for what was stored in it. -/
theorem UserRecord.Terminated.fill {r : UserRecord} (h : r.Terminated)
    (hop : (Op.register u p ip port).Parsed) :
    (r.fill u p ip port).Terminated ∧ (r.fill u p ip port).ShowsOnly u p ip ∧
      (r.fill u p ip port).entry = some (u, ⟨p, ip, port⟩) := by
  obtain ⟨⟨hu, -⟩, ⟨hp, -⟩, hip⟩ := hop
  obtain ⟨u1, u2⟩ := shows_strncpy (show maxUsernameLen = 31 + 1 from rfl) h.username hu
  obtain ⟨p1, p2⟩ := shows_strncpy (show maxPasswordLen = 63 + 1 from rfl) h.password hp
  obtain ⟨ip1, ip2⟩ := shows_strncpy (show inetAddrstrlen = 15 + 1 from rfl) h.ip hip
  refine ⟨⟨u2, p2, ip2⟩, ⟨u1, p1, ip1⟩, ?_⟩
  have hactive : (r.fill u p ip port).active = true := rfl
  rw [entry, if_pos hactive]
  change some (cstr (strncpy r.username u 31).toList, (⟨cstr (strncpy r.password p 63).toList,
    cstr (strncpy r.ip ip 15).toList, port⟩ : Registration)) = _
  rw [u1.cstr_eq hu, p1.cstr_eq hp, ip1.cstr_eq hip]

/-- Registering is storing in the bounded map. -/
theorem registerUser_spec (h : reg.Ok) (hop : (Op.register u p ip port).Parsed) :
    (registerUser reg u p ip port = (false, reg) ∧
      SlotMap.put reg.entries u ⟨p, ip, port⟩ = none) ∨
    (∃ reg', registerUser reg u p ip port = (true, reg') ∧ reg'.Ok ∧
      SlotMap.put reg.entries u ⟨p, ip, port⟩ = some reg'.entries) := by
  have hsearch : ((findUser reg u).orElse fun _ => findFree reg) =
      (SlotMap.find reg.entries u).orElse fun _ => SlotMap.free reg.entries := by
    rw [findUser_eq reg hop.1.1, findFree_eq]
  rw [registerUser, hsearch, SlotMap.put]
  cases hi : ((SlotMap.find reg.entries u).orElse fun _ => SlotMap.free reg.entries) with
  | none => exact Or.inl ⟨rfl, rfl⟩
  | some i =>
    obtain ⟨f1, f2, f3⟩ := (h.terminated i).fill hop
    have hentries : Registry.entries (Function.update reg i ((reg i).fill u p ip port)) =
        Function.update reg.entries i (some (u, ⟨p, ip, port⟩)) := by
      ext1 j
      by_cases hj : j = i
      · subst hj
        rw [Registry.entries, Function.update_self, Function.update_self, f3]
      · rw [Registry.entries, Function.update_of_ne hj, Function.update_of_ne hj]
        rfl
    have hput : SlotMap.put reg.entries u ⟨p, ip, port⟩ =
        some (Function.update reg.entries i (some (u, ⟨p, ip, port⟩))) := by
      rw [SlotMap.put, hi]
      rfl
    refine Or.inr ⟨_, rfl, ⟨fun j => ?_, fun j hj => ?_, ?_⟩, ?_⟩
    · by_cases hji : j = i
      · rw [hji, Function.update_self]
        exact f1
      · rw [Function.update_of_ne hji]
        exact h.terminated j
    · by_cases hji : j = i
      · rw [hji, Function.update_self]
        exact ⟨u, p, ip, hop, f2⟩
      · rw [Function.update_of_ne hji] at hj ⊢
        exact h.shows j hj
    · rw [hentries]
      exact h.distinct.put hput
    · rw [hentries]
      rfl

theorem Registry.ok_zero : Registry.zero.Ok := by
  refine ⟨fun _ => ⟨rfl, rfl, rfl⟩, fun _ ha => ?_, SlotMap.distinct_empty⟩
  cases ha

/-- One critical section answers as the map does, and keeps the records in order. -/
theorem Registry.Ok.exec (h : reg.Ok) {op : Op} (hop : op.Parsed) :
    (reg.exec op).2.Ok ∧ reg.users.exec op = ((reg.exec op).1, (reg.exec op).2.users) := by
  cases op with
  | register u p ip port =>
    rcases registerUser_spec h hop with ⟨hreg, hput⟩ | ⟨reg', hreg, hok, hput⟩
    · have hfull : reg.users u = none ∧ (SlotMap.keys reg.users).ncard = maxUsers :=
        h.distinct.put_eq_none.mp hput
      simp only [Registry.exec, hreg, Users.exec]
      rw [if_pos hfull]
      exact ⟨h, rfl⟩
    · have hroom : ¬ (reg.users u = none ∧ (SlotMap.keys reg.users).ncard = maxUsers) := by
        intro hfull
        have hnone := (h.distinct.put_eq_none (v := ⟨p, ip, port⟩)).mpr hfull
        rw [hput] at hnone
        cases hnone
      simp only [Registry.exec, hreg, Users.exec]
      rw [if_neg hroom]
      exact ⟨hok, congrArg _ (h.distinct.get_put hput).symm⟩
  | discover target =>
    have hfind := findUser_eq reg hop
    simp only [Registry.exec, Users.exec, hfind, Registry.users, SlotMap.get]
    cases hi : SlotMap.find reg.entries target with
    | none => exact ⟨h, rfl⟩
    | some i =>
      obtain ⟨v, hv⟩ := SlotMap.find_eq_some hi
      have hentry : (reg i).entry = some (target, v) := hv
      rw [Option.bind_some, hv]
      rw [UserRecord.entry] at hentry
      split at hentry
      · obtain ⟨-, rfl⟩ := Prod.mk.inj (Option.some.inj hentry)
        exact ⟨h, rfl⟩
      · cases hentry
  | validate u p =>
    have hfind := findUser_eq reg hop.1
    simp only [Registry.exec, Users.exec, hfind, Registry.users, SlotMap.get]
    cases hi : SlotMap.find reg.entries u with
    | none => exact ⟨h, rfl⟩
    | some i =>
      obtain ⟨v, hv⟩ := SlotMap.find_eq_some hi
      have hentry : (reg i).entry = some (u, v) := hv
      rw [Option.bind_some, hv]
      rw [UserRecord.entry] at hentry
      split at hentry
      · obtain ⟨-, rfl⟩ := Prod.mk.inj (Option.some.inj hentry)
        refine ⟨h, ?_⟩
        simp only [Option.any_some, Option.map_some, strncmpEq_field (show 63 ≤ maxPasswordLen by
          decide) hop.2]
      · cases hentry

/-- No two active records share a name. -/
theorem Registry.Ok.name_inj (h : reg.Ok) {i j : Fin maxUsers} (hi : (reg i).active = true)
    (hj : (reg j).active = true)
    (hn : cstr (reg i).username.toList = cstr (reg j).username.toList) : i = j := by
  have hentry : ∀ {k}, (reg k).active = true → reg.entries k = some (cstr (reg k).username.toList,
      ⟨cstr (reg k).password.toList, cstr (reg k).ip.toList, (reg k).port⟩) := fun hk => if_pos hk
  exact h.distinct i j _ _ _ (hentry hi) (hn ▸ hentry hj)

/-- An active record shows the registration of its name. -/
theorem Registry.Ok.users_eq (h : reg.Ok) {i : Fin maxUsers} (hi : (reg i).active = true) :
    ∃ u r, reg.users u = some r ∧ (reg i).port = r.port ∧
      (reg i).ShowsOnly u r.password r.ip := by
  obtain ⟨u, p, ip, ⟨⟨hu, -⟩, ⟨hp, -⟩, hip⟩, hshows⟩ := h.shows i hi
  refine ⟨u, ⟨p, ip, (reg i).port⟩, h.distinct.get_eq_some.mpr ⟨i, ?_⟩, rfl, hshows⟩
  have hentry : reg.entries i = some (cstr (reg i).username.toList,
      ⟨cstr (reg i).password.toList, cstr (reg i).ip.toList, (reg i).port⟩) := if_pos hi
  rw [hentry, hshows.1.cstr_eq hu, hshows.2.1.cstr_eq hp, hshows.2.2.cstr_eq hip]

end ChatSystem.Discovery
