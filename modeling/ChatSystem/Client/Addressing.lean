import ChatSystem.Chat.Senders
import ChatSystem.Client.Lines
import ChatSystem.Discovery.Credentials

/-!
# Names that do not fit

A name is cut at 31 bytes when it is put into a message, and when it is looked up. A longer name
finds whoever holds its first 31 bytes.
-/

namespace ChatSystem.Client

open Bytes Transition

/-- A private message is only passed on to a user with the name it was addressed to. -/
def AddressedInFull (fl : Chat.Flavour) (room : Chat.Room) (e : Chat.Event)
    (receiver : List UInt8) : Prop :=
  ∀ x ∈ (Chat.serve fl room e).2, x.via = .relay → ∃ t, room.conn t = some x.conn ∧
    (room.table t).active = true ∧ (room.table t).name = receiver

/-- An address is only given for a request if its payload is a registered name. -/
def FoundInFull (now : UInt64) (peer : Discovery.Address) (req : Message)
    (reg : Discovery.Registry) : Prop :=
  (Discovery.serve now peer req reg).1.kind = some .discoverResp →
    ∃ i, (reg i).active = true ∧ cstr (reg i).username.toList = req.payloadStr

variable {fl : Chat.Flavour} {room : Chat.Room} {c : Nat} {s : Slot} {env : Env}
  {receiver : List UInt8}

/-- The search for the receiver of a message. -/
theorem holds_nameField (e : Entry) (hr : ∀ b ∈ receiver, b ≠ 0) :
    e.holds (nameField receiver).toList = true ↔ e.active = true ∧ e.name = receiver.take 31 := by
  rw [Entry.holds_iff_cstr (List.Vector.toList_length _).le, cstr_nameField, cstr_of_forall_ne hr]

/-- What the client sends for a private message. -/
theorem send_msg {name : List UInt8} {now : UInt64} {text : List UInt8} {m : Message}
    (hspace : (32 : UInt8) ∉ receiver)
    (hm : (obey name now (ascii "/msg " ++ receiver ++ 32 :: text)).1 = .send m) :
    m.kind = some .priv ∧ m.receiver = nameField receiver := by
  rw [obey_msg now hspace] at hm
  obtain rfl := Effect.send.inj hm
  exact ⟨kind_makeMessage .., rfl⟩

/-- What is passed on for a private message goes to the connection of its receiver. -/
theorem conn_of_relay {t : Slot} {d : Nat} (hd : room.conn t = some d) {m ack : Message}
    {x : Chat.Sent} (hx : x ∈ room.copies [t] .relay m ++ room.reply s ack)
    (hvia : x.via = .relay) : x.conn = d := by
  rcases List.mem_append.mp hx with hx | hx
  · obtain ⟨i, hi, hxi⟩ := List.mem_filterMap.mp hx
    rw [List.mem_singleton.mp hi, hd] at hxi
    obtain rfl := Option.some.inj hxi
    rfl
  · rw [(Chat.via_copies hx).1] at hvia
    cases hvia

/-- The routers cut the name of a receiver at 31 bytes. -/
theorem addressedInFull_iff (h : Chat.Tidy room) (hs : room.slotOf c = some s)
    (hactive : (room.table s).active = true) {m : Chat.Request} (hkind : m.val.kind = some .priv)
    (hm : m.val.receiver = nameField receiver) (hr : ∀ b ∈ receiver, b ≠ 0) :
    AddressedInFull fl room (.request c m env) receiver ↔
      receiver.length ≤ 31 ∨ ∀ t, (room.table t).active = true →
        (room.table t).name ≠ receiver.take 31 := by
  have hserve : (Chat.serve fl room (.request c m env)).2 = (room.priv env s m.val).2 := by
    change (room.request fl c m.val env).2 = _
    rw [Chat.Room.request, hs]
    simp only [Chat.Room.route, hkind]
  rw [AddressedInFull, hserve, Chat.Room.priv, if_neg (by simp [hactive]), hm]
  cases hfind : findName room.table (nameField receiver).toList with
  | none =>
    constructor
    · intro _
      right
      intro t hact hname
      have hno := findName_eq_none hfind t
      rw [(holds_nameField _ hr).mpr ⟨hact, hname⟩] at hno
      cases hno
    · intro _ x hx hvia
      rw [(Chat.via_copies hx).1] at hvia
      cases hvia
  | some t =>
    obtain ⟨hact, hname⟩ := (holds_nameField _ hr).mp (findName_eq_some hfind)
    obtain ⟨d, hd⟩ := h.conn_of_active hact
    constructor
    · intro hfull
      left
      have hsent : (⟨d, .relay, canonical m.val⟩ : Chat.Sent) ∈
          room.copies [t] .relay m.val ++ room.reply s (relayed env.now m.val) := by
        apply List.mem_append_left
        simp [Chat.Room.copies, hd]
      obtain ⟨u, hu, -, huname⟩ := hfull _ hsent rfl
      obtain rfl := h.apart u t d hu hd
      rw [← huname, hname]
      exact List.length_take_le _ _
    · intro hcond x hx hvia
      refine ⟨t, ?_, hact, ?_⟩
      · rw [conn_of_relay hd hx hvia]
        exact hd
      · rcases hcond with hshort | hnone
        · rw [hname, List.take_of_length_le hshort]
        · exact absurd hname (hnone t hact)

/-- The discovery server cuts the payload at 31 bytes. -/
theorem foundInFull_iff (now : UInt64) (peer : Discovery.Address) {req : Message}
    (hkind : req.kind = some .discover) {reg : Discovery.Registry} (hreg : reg.Ok) :
    FoundInFull now peer req reg ↔ req.payloadStr.length ≤ 31 ∨ ∀ i, (reg i).active = true →
      cstr (reg i).username.toList ≠ req.payloadStr.take 31 := by
  have hfield : Discovery.Field 31 (req.payloadStr.take 31) :=
    ⟨fun _ => cstr_take_ne, List.length_take_le _ _⟩
  have hheld : ∀ i, ((reg i).active && strncmpEq maxUsernameLen (reg i).username.toList
      (req.payloadStr.take 31)) = true ↔
      (reg i).active = true ∧ cstr (reg i).username.toList = req.payloadStr.take 31 := by
    intro i
    rw [Discovery.strncmpEq_field (by decide) hfield, Bool.and_eq_true, decide_eq_true_iff]
  have hop : Discovery.operation peer req = some (.discover (req.payloadStr.take 31)) := by
    rw [Discovery.operation, hkind]
    rfl
  rw [FoundInFull, Discovery.serve, hop]
  simp only [Discovery.Registry.exec]
  cases hfind : Discovery.findUser reg (req.payloadStr.take 31) with
  | none =>
    constructor
    · intro _
      right
      intro i hact hname
      have hno := SlotMap.first_eq_none.mp hfind i
      rw [(hheld i).mpr ⟨hact, hname⟩] at hno
      cases hno
    · intro _ hresp
      simp [Discovery.reply] at hresp
  | some i =>
    have hi := (hheld i).mp (SlotMap.first_eq_some hfind)
    constructor
    · intro hfull
      obtain ⟨j, -, hj⟩ := hfull (kind_makeMessage ..)
      rw [← hj]
      exact Or.inl (length_cstr_le_of_drop (hreg.terminated j).username)
    · rintro (hshort | hnone) -
      · refine ⟨i, hi.1, ?_⟩
        rw [hi.2, List.take_of_length_le hshort]
      · exact absurd hi.2 (hnone i hi.1)

/-- Names are matched in full, by the chat servers for what the client sends and by the discovery
server for a payload, exactly if the name has at most 31 bytes or nobody holds its first 31. -/
theorem matched_in_full_iff {history : History} {es : List Chat.Event}
    (hroom : room = Chat.roomAfter fl history es) (hs : room.slotOf c = some s)
    (hactive : (room.table s).active = true) {name text : List UInt8} {now : UInt64}
    (hr : ∀ b ∈ receiver, b ≠ 0) (hspace : (32 : UInt8) ∉ receiver) {m : Chat.Request}
    (hm : (obey name now (ascii "/msg " ++ receiver ++ 32 :: text)).1 = .send m.val)
    {srv : Discovery.Server} (hsrv : Reachable Discovery.step Discovery.Server.init srv)
    {req : Message} (hkind : req.kind = some .discover) (peer : Discovery.Address) :
    (AddressedInFull fl room (.request c m env) receiver ↔
      receiver.length ≤ 31 ∨ ∀ t, (room.table t).active = true →
        (room.table t).name ≠ receiver.take 31) ∧
    (FoundInFull now peer req srv.registry ↔
      req.payloadStr.length ≤ 31 ∨ ∀ i, (srv.registry i).active = true →
        cstr (srv.registry i).username.toList ≠ req.payloadStr.take 31) := by
  obtain ⟨hpriv, hreceiver⟩ := send_msg hspace hm
  have htidy : Chat.Tidy room := hroom ▸ Chat.tidy_roomAfter fl history es
  exact ⟨addressedInFull_iff htidy hs hactive hpriv hreceiver hr,
    foundInFull_iff now peer hkind (Discovery.refines_of_reachable hsrv).ok⟩

/-- Two connections, with one user each. -/
def twoUsers (name name' : List UInt8) : List Chat.Event :=
  [.connect Chat.plainEnv, .connect Chat.plainEnv,
    .request 0 (Chat.Request.make 0 .login name [] (name ++ ascii ":pw")) Chat.plainEnv,
    .request 1 (Chat.Request.make 0 .login name' [] (name' ++ ascii ":pw")) Chat.plainEnv]

/-- A discovery server with one user. -/
def oneUser (name : List UInt8) : List Discovery.Label :=
  [.accept 0 Discovery.somePeer,
    .recv 0 (some (makeMessage 0 .register name Discovery.discoveryName (name ++ ascii ":pw:1"))),
    .serve 0 0]

/-- A message for a short name, and a request for one. -/
theorem matched_in_full_short :
    AddressedInFull .epoll (Chat.roomAfter .epoll (fun _ => none) (twoUsers (ascii "al") (ascii "bob")))
      (.request 0 (Chat.Request.make 0 .priv (ascii "al") (ascii "bob") (ascii "hi"))
        Chat.plainEnv) (ascii "bob") := by
  have hs : (Chat.roomAfter .epoll (fun _ => none) (twoUsers (ascii "al") (ascii "bob"))).slotOf 0 =
      some 0 := by
    rfl
  have hactive : ((Chat.roomAfter .epoll (fun _ => none)
      (twoUsers (ascii "al") (ascii "bob"))).table 0).active = true := by
    rfl
  have hreq : (makeMessage 0 .discover [] [] (ascii "bob")).kind = some .discover :=
    kind_makeMessage ..
  exact (matched_in_full_iff rfl hs hactive (by simp [ascii]) (by decide)
    (obey_msg 0 (by decide) (ascii "hi")) (.refl Discovery.Server.init) hreq
    Discovery.somePeer).1.mpr (Or.inl (by decide))

/-- A message for a name of 32 bytes is passed on to the user who holds its first 31, and that
user's address is given for it. -/
theorem cut_name_matched :
    (∀ fl, ∃ m : Chat.Request, (obey (ascii "al") 0
        (ascii "/msg " ++ List.replicate 32 98 ++ 32 :: ascii "hi")).1 = .send m.val ∧
      ¬ AddressedInFull fl
        (Chat.roomAfter fl (fun _ => none) (twoUsers (ascii "al") (List.replicate 31 98)))
        (.request 0 m Chat.plainEnv) (List.replicate 32 98)) ∧
    ∃ srv, run Discovery.step Discovery.Server.init (oneUser (List.replicate 31 98)) = some srv ∧
      ¬ FoundInFull 0 Discovery.somePeer
        (makeMessage 0 .discover (ascii "al") Discovery.discoveryName (List.replicate 32 98))
        srv.registry := by
  have hzero : ∀ b ∈ List.replicate 32 (98 : UInt8), b ≠ 0 := by
    intro b hb
    rw [List.eq_of_mem_replicate hb]
    decide
  have hspace : (32 : UInt8) ∉ List.replicate 32 (98 : UInt8) := by decide
  constructor
  · intro fl
    have htidy := Chat.tidy_roomAfter fl (fun _ => none)
      (twoUsers (ascii "al") (List.replicate 31 98))
    refine ⟨Chat.Request.make 0 .priv (ascii "al") (List.replicate 32 98) (ascii "hi"),
      obey_msg 0 hspace (ascii "hi"), ?_⟩
    rw [addressedInFull_iff htidy (s := 0) (by cases fl <;> rfl) (by cases fl <;> rfl)
      (kind_makeMessage ..) rfl hzero, not_or]
    refine ⟨by decide, fun hnone => hnone 1 (by cases fl <;> rfl) (by cases fl <;> rfl)⟩
  · have hrun : run Discovery.step Discovery.Server.init (oneUser (List.replicate 31 98)) =
        some _ := rfl
    refine ⟨_, hrun, ?_⟩
    rw [foundInFull_iff 0 _ (kind_makeMessage ..) (Discovery.refines_of_reachable ⟨_, hrun⟩).ok,
      payloadStr_makeMessage, cstr_of_forall_ne hzero, not_or]
    exact ⟨by decide, fun hnone => hnone ⟨0, by decide⟩ rfl rfl⟩

end ChatSystem.Client
