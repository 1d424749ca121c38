import ChatSystem.Chat.Reading
import ChatSystem.Chat.Receivers
import ChatSystem.Chat.Tables
import ChatSystem.Client.Addressing
import ChatSystem.Client.Terminal
import ChatSystem.Server.HistoryReply

/-!
# From the keyboard to the screens

A line that a user types becomes a message, the message an event of a room, and what the room
sends becomes text on the screens of the users. A command shows up on the screens it is meant
for, and on no other.
-/

namespace ChatSystem.Client

open Bytes Calendar Channel Chat Reactive

/-- The statuses a user can choose. -/
inductive Presence
  | available
  | busy
  | away
  deriving DecidableEq

/-- The word for a status. -/
def Presence.text : Presence → List UInt8
  | .available => ascii "available"
  | .busy => ascii "busy"
  | .away => ascii "away"

/-- What a user can ask for. -/
inductive Command
  | broadcast (text : List UInt8)
  | msg (receiver text : List UInt8)
  | list
  | history
  | status (presence : Presence)
  | quit

namespace Command

/-- The line a user types. -/
def line : Command → List UInt8
  | .broadcast text => ascii "/broadcast " ++ text
  | .msg receiver text => ascii "/msg " ++ receiver ++ 32 :: text
  | .list => ascii "/list"
  | .history => ascii "/history"
  | .status presence => ascii "/status " ++ presence.text
  | .quit => ascii "/quit"

/-- Names and texts that fit a message, with room for the end of the string. -/
def Fits : Command → Prop
  | .broadcast text => Discovery.Field (maxPayloadLen - 1) text
  | .msg receiver text => (Discovery.Field 31 receiver ∧ 32 ∉ receiver) ∧
      Discovery.Field (maxPayloadLen - 1) text
  | _ => True

/-- The message that is sent under a name. -/
def message (name : List UInt8) (now : UInt64) : Command → Message
  | .broadcast text => makeMessage now .broadcast name [] text
  | .msg receiver text => makeMessage now .priv name receiver text
  | .list => makeMessage now .listUsers name [] []
  | .history => makeMessage now .historyReq name [] []
  | .status presence => makeMessage now .statusChange name [] presence.text
  | .quit => makeMessage now .logout name [] (ascii "Bye")

end Command

/-- The user with a name. -/
def holder (room : Room) (name : List UInt8) : Option Slot :=
  firstSlot fun i => (room.table i).active && (room.table i).name == name

/-- The clock of a user at a time. -/
def clock (zone : Zone) (ts : UInt64) : List UInt8 := clockText (momentOf (zone.local ts))

/-- The lines of a history that are shown to a user. -/
def pastOf (room : Room) (name : List UInt8) : List UInt8 := historyPayload room.history name

/-- The users online, as they are shown. -/
def present (room : Room) : List UInt8 :=
  (ascii ", ").intercalate ((shownEntries room.table).map Entry.item)

/-- What a command of the user in slot `s` shows to the client of connection `d`; `sent` is the
time it was typed, `now` the time the server handles it. -/
def display (zone : Zone) (room : Room) (s : Slot) (name : List UInt8) (sent now : UInt64)
    (d : Nat) : Command → List UInt8
  | .broadcast text =>
    if ∃ t ∈ room.others s, room.conn t = some d then
      said cyn (ascii "broadcast") (clock zone sent) name text
    else []
  | .msg receiver text =>
    match holder room receiver with
    | some t =>
      if room.conn t = some d then said ylw (ascii "private") (clock zone sent) name text else []
    | none => if room.conn s = some d then failed (ascii "User not online") else []
  | .list => if room.conn s = some d then online (present room) else []
  | .history => if room.conn s = some d then chronicle (pastOf room name) else []
  | .status _ => if room.conn s = some d then granted (ascii "Status updated") else []
  | .quit =>
    if ∃ t ∈ room.others s, room.conn t = some d then
      said cyn (ascii "broadcast") (clock zone now) serverName
        ((room.table s).name ++ ascii " left")
    else []

variable {fl : Flavour} {room : Room} {s : Slot} {c d : Nat} {zone : Zone} {m : Message}
  {name text receiver payload : List UInt8} {sent now : UInt64} {cmd : Command}
  {env : Env} {slots : List Slot} {type : MsgType}

/-! ## The message of a command -/

/-- The client sends the message of a command for its line. -/
theorem obey_line (name : List UInt8) (now : UInt64) (h : cmd.Fits) :
    (obey name now cmd.line).1 = .send (cmd.message name now) := by
  cases cmd with
  | broadcast text => exact obey_broadcast now text
  | msg receiver text => exact obey_msg now h.1.2 text
  | status presence => cases presence <;> rfl
  | _ => rfl

theorem Command.wellFormed (name : List UInt8) (now : UInt64) (cmd : Command) :
    WellFormed (cmd.message name now) := by
  cases cmd <;> exact wellFormed_makeMessage ..

/-- A made message is received as it is. -/
theorem canonical_makeMessage (now : UInt64) (type : MsgType) (sender receiver payload : List UInt8) :
    canonical (makeMessage now type sender receiver payload) =
      makeMessage now type sender receiver payload :=
  (wellFormed_makeMessage now type sender receiver payload).canonical_eq

theorem canonical_makeError (now : UInt64) (sender receiver payload : List UInt8) :
    canonical (makeError now sender receiver payload) = makeError now sender receiver payload := by
  have h : WellFormed (makeError now sender receiver payload) :=
    { wellFormed_makeMessage now .error sender receiver payload with }
  exact h.canonical_eq

/-! ## Texts of messages -/

/-- A string that starts with its end is empty. -/
theorem cstr_eq_nil {mem : List UInt8} (h : byteAt mem 0 = 0) : cstr mem = [] := by
  cases mem with
  | nil => rfl
  | cons b mem =>
    have hb : b = 0 := h
    rw [hb, cstr_cons_zero]

theorem text?_makeMessage (h : (cstr payload).length < maxPayloadLen) :
    text? (makeMessage now type name receiver payload).payload = some (cstr payload) := by
  have hstr : cstr (makeMessage now type name receiver payload).payload.toList = cstr payload := by
    have hpayload := payloadStr_makeMessage now type name receiver payload
    rwa [List.take_of_length_le h.le] at hpayload
  rw [text?_eq (by rw [hstr]; exact h), hstr]

theorem senderStr_makeMessage (h : Discovery.Field 31 name) :
    (makeMessage now type name receiver payload).senderStr = name := by
  change cstr (nameField name).toList = name
  rw [cstr_nameField, h.cstr_eq, List.take_of_length_le h.length_le]

theorem field_serverName : Discovery.Field 31 serverName := by
  constructor
  · simp [serverName, ascii]
  · decide

/-- A message of a user or of the server is shown with its sender and its text. -/
theorem printMessage_said (receiver : List UInt8) (ht : zone.InRange now)
    (hname : Discovery.Field 31 name) (htext : Discovery.Field (maxPayloadLen - 1) text) :
    printMessage zone (makeMessage now .broadcast name receiver text) =
        some (said cyn (ascii "broadcast") (clock zone now) name text) ∧
      printMessage zone (makeMessage now .priv name receiver text) =
        some (said ylw (ascii "private") (clock zone now) name text) := by
  have hlen : (cstr text).length < maxPayloadLen := by
    rw [htext.cstr_eq]
    exact Nat.lt_of_le_of_lt htext.length_le (by decide)
  have hlocal : ∀ type, localtime zone (makeMessage now type name receiver text).timestamp =
      some (momentOf (zone.local now)) := by
    intro type
    exact (localtime_eq zone now).trans (if_pos ht)
  constructor
  · simp only [printMessage, hlocal, kind_makeMessage, text?_makeMessage hlen,
      senderStr_makeMessage hname, htext.cstr_eq]
    rfl
  · simp only [printMessage, hlocal, kind_makeMessage, text?_makeMessage hlen,
      senderStr_makeMessage hname, htext.cstr_eq]
    rfl

/-- A made message with a text, up to the text of its kind. -/
theorem printMessage_answer (name receiver payload : List UInt8) (ht : zone.InRange now)
    (h : (cstr payload).length < maxPayloadLen) :
    printMessage zone (makeMessage now .userList name receiver payload) =
        some (online (cstr payload)) ∧
      printMessage zone (makeMessage now .historyResp name receiver payload) =
        some (chronicle (cstr payload)) ∧
      printMessage zone (makeError now name receiver payload) = some (failed (cstr payload)) ∧
      (cstr payload ≠ [] → printMessage zone (makeMessage now .ack name receiver payload) =
        some (granted (cstr payload))) := by
  have htime : localtime zone now = some (momentOf (zone.local now)) :=
    (localtime_eq zone now).trans (if_pos ht)
  have hlocal : ∀ type, localtime zone (makeMessage now type name receiver payload).timestamp =
      some (momentOf (zone.local now)) := fun _ => htime
  refine ⟨?_, ?_, ?_, fun hne => ?_⟩
  · simp only [printMessage, hlocal, kind_makeMessage, text?_makeMessage h]
    rfl
  · simp only [printMessage, hlocal, kind_makeMessage, text?_makeMessage h]
    rfl
  · have herror : localtime zone (makeError now name receiver payload).timestamp =
        some (momentOf (zone.local now)) := htime
    have hpayload : text? (makeError now name receiver payload).payload = some (cstr payload) := by
      change text? (makeMessage now .error name receiver payload).payload = _
      exact text?_makeMessage h
    simp only [printMessage, herror, kind_makeError, hpayload]
    rfl
  · have hfirst : byteAt (makeMessage now .ack name receiver payload).payload.toList 0 ≠ 0 := by
      intro hzero
      have hpayload := payloadStr_makeMessage now .ack name receiver payload
      rw [List.take_of_length_le h.le] at hpayload
      exact hne (hpayload.symm.trans (cstr_eq_nil hzero))
    simp only [printMessage, hlocal, kind_makeMessage, text?_makeMessage h, if_neg hfirst]
    rfl

/-- An acknowledgement without a text shows nothing. -/
theorem printMessage_ack (name receiver : List UInt8) (ht : zone.InRange now) :
    printMessage zone (makeMessage now .ack name receiver []) = some [] := by
  have hlocal : localtime zone (makeMessage now .ack name receiver []).timestamp =
      some (momentOf (zone.local now)) := (localtime_eq zone now).trans (if_pos ht)
  have hfirst : byteAt (makeMessage now .ack name receiver []).payload.toList 0 = 0 := rfl
  simp only [printMessage, hlocal, kind_makeMessage, if_pos hfirst]
  rfl

/-! ## The frames for a connection -/

/-- A message for some slots reaches a connection once, if it is that of one of them. -/
theorem framesTo_copies (h : Tidy room) (hslots : slots.Nodup) (via : Via) (m : Message) (d : Nat) :
    framesTo d (room.copies slots via m) =
      if ∃ t ∈ slots, room.conn t = some d then [canonical m] else [] := by
  induction slots with
  | nil => simp [Room.copies, framesTo]
  | cons j slots ih =>
    obtain ⟨hj, hrest⟩ := List.nodup_cons.mp hslots
    rw [copies_cons, framesTo_append, ih hrest]
    have hone : framesTo d (room.copies [j] via m) =
        if room.conn j = some d then [canonical m] else [] := by
      cases hc : room.conn j with
      | none => simp [Room.copies, hc, framesTo]
      | some c => by_cases hcd : c = d <;> simp [Room.copies, hc, framesTo, hcd]
    rw [hone]
    by_cases hd : room.conn j = some d
    · have hnone : ¬ ∃ t ∈ slots, room.conn t = some d := by
        rintro ⟨t, ht, htd⟩
        exact hj (h.apart j t d hd htd ▸ ht)
      rw [if_pos hd, if_neg hnone, List.append_nil, if_pos ⟨j, List.mem_cons_self, hd⟩]
    · rw [if_neg hd, List.nil_append]
      congr 1
      simp [hd]

theorem nodup_others (room : Room) (s : Slot) : (room.others s).Nodup :=
  (List.nodup_finRange _).filter _

/-- The search for the receiver of a message finds the user with the name. -/
theorem findName_eq_holder (room : Room) (h : Discovery.Field 31 receiver) :
    findName room.table (nameField receiver).toList = holder room receiver := by
  unfold findName holder
  congr 1
  ext1 i
  have hiff := holds_nameField (room.table i) h.no_zero
  rw [List.take_of_length_le h.length_le] at hiff
  rw [Bool.eq_iff_iff, hiff, Bool.and_eq_true, beq_iff_eq]

/-! ## Commands on the screens -/

/-- A message that is sent to some slots shows up at their clients. -/
theorem shown_copies {x : List UInt8} (h : Tidy room) (hslots : slots.Nodup)
    (hm : canonical m = m) (hx : printMessage zone m = some x) (via : Via) (d : Nat) :
    shown zone (framesTo d (room.copies slots via m)) =
      some (if ∃ t ∈ slots, room.conn t = some d then x else []) := by
  rw [framesTo_copies h hslots, hm]
  split
  · simp [shown, hx]
  · rfl

theorem shown_reply {x : List UInt8} (h : Tidy room) (hm : canonical m = m)
    (hx : printMessage zone m = some x) (s : Slot) (d : Nat) :
    shown zone (framesTo d (room.reply s m)) = some (if room.conn s = some d then x else []) := by
  rw [Room.reply, shown_copies h (List.nodup_singleton s) hm hx]
  simp

/-- A user list is a string that fits the reply. -/
theorem listUsers_fits {table : Slot → Entry} (h : Every Entry.Listable table) :
    cstr (listUsers table) = listUsers table ∧ (listUsers table).length < maxPayloadLen := by
  have hlen : (listUsers table).length ≤ 44 * ((shownEntries table).map Entry.item).length := by
    rw [listUsers_eq h]
    refine Join.length_intercalate_le fun x hx => ?_
    obtain ⟨e, he, rfl⟩ := List.mem_map.mp hx
    obtain ⟨i, -, rfl⟩ := List.mem_map.mp (List.mem_of_mem_filter he)
    exact Nat.add_le_add_right (h i).length_item_le 2
  have hcount : ((shownEntries table).map Entry.item).length ≤ 10 := by
    rw [List.length_map]
    refine (List.length_filter_le _ _).trans ?_
    rw [List.length_map, List.length_finRange]
    exact Nat.le_refl _
  have hmax : maxPayloadLen = 1024 := rfl
  refine ⟨?_, by omega⟩
  have hstr := payloadStr_userList 0 (makeMessage 0 .listUsers [] [] []) h
  rw [← listUsers_eq h, userList, payloadStr_makeMessage] at hstr
  have hle : (listUsers table).length ≤ (cstr (listUsers table)).length := by
    have hlength := congrArg List.length hstr
    rw [List.length_take] at hlength
    omega
  exact (List.takeWhile_prefix _).eq_of_length_le hle

/-- A history reply is a string that fits the reply. -/
theorem historyPayload_fits (h : History) (sender : List UInt8) :
    Discovery.Field (maxPayloadLen - 1) (historyPayload h sender) := by
  obtain ⟨hzero, hlen, -⟩ := fillHistory_eq ((h (historyPath sender)).getD []) []
    (by simp) (by decide)
  simp only [historyPayload]
  split
  · exact ⟨by simp [ascii], by decide⟩
  · exact ⟨hzero, hlen.le⟩

/-- A user who is logged in on slot `s`, and whose messages carry a name. -/
structure AtWork (room : Room) (s : Slot) (name : List UInt8) : Prop where
  tidy : Tidy room
  listable : Every Entry.Listable room.table
  active : (room.table s).active = true
  name : Discovery.Field 31 name

namespace AtWork

variable (h : AtWork room s name)

include h

theorem shown_broadcast (env : Env) (ht : zone.InRange sent) (hnow : zone.InRange env.now)
    (htext : Discovery.Field (maxPayloadLen - 1) text) (d : Nat) :
    shown zone (framesTo d (room.broadcast env s (makeMessage sent .broadcast name [] text)).2) =
      some (display zone room s name sent env.now d (.broadcast text)) := by
  have hsaid := (printMessage_said [] ht h.name htext).1
  have hack := printMessage_ack serverName name hnow
  rw [Room.broadcast, if_neg (by simp [h.active]), framesTo_append, shown_append,
    shown_copies h.tidy (nodup_others room s) (canonical_makeMessage ..) hsaid,
    relayed, senderStr_makeMessage h.name,
    shown_reply h.tidy (canonical_makeMessage ..) hack, display]
  simp

theorem shown_msg (env : Env) (ht : zone.InRange sent) (hnow : zone.InRange env.now)
    (hreceiver : Discovery.Field 31 receiver) (htext : Discovery.Field (maxPayloadLen - 1) text)
    (d : Nat) :
    shown zone (framesTo d (room.priv env s (makeMessage sent .priv name receiver text)).2) =
      some (display zone room s name sent env.now d (.msg receiver text)) := by
  have hfind := findName_eq_holder room hreceiver
  have htarget : (makeMessage sent .priv name receiver text).receiver = nameField receiver := rfl
  rw [Room.priv, if_neg (by simp [h.active]), htarget, hfind]
  simp only [display]
  cases holder room receiver with
  | none =>
    have hprint := (printMessage_answer serverName name (ascii "User not online") hnow
      (by decide)).2.2.1
    rw [userNotOnline, senderStr_makeMessage h.name]
    exact shown_reply h.tidy (canonical_makeError ..) hprint s d
  | some t =>
    have hsaid := (printMessage_said receiver ht h.name htext).2
    have hack := printMessage_ack serverName name hnow
    simp only
    rw [framesTo_append, shown_append,
      shown_copies h.tidy (List.nodup_singleton t) (canonical_makeMessage ..) hsaid,
      relayed, senderStr_makeMessage h.name,
      shown_reply h.tidy (canonical_makeMessage ..) hack]
    simp

theorem shown_list (env : Env) (hnow : zone.InRange env.now) (d : Nat) :
    shown zone (framesTo d (room.reply s
      (userList env.now (makeMessage sent .listUsers name [] []) room.table))) =
      some (display zone room s name sent env.now d .list) := by
  obtain ⟨hstr, hlen⟩ := listUsers_fits h.listable
  have hprint := (printMessage_answer serverName name (listUsers room.table) hnow
    (by rw [hstr]; exact hlen)).1
  rw [hstr] at hprint
  rw [userList, senderStr_makeMessage h.name,
    shown_reply h.tidy (canonical_makeMessage ..) hprint, listUsers_eq h.listable]
  rfl

theorem shown_history (env : Env) (hnow : zone.InRange env.now) (d : Nat) :
    shown zone (framesTo d (room.reply s
      (historyResponse env.now (makeMessage sent .historyReq name [] []) room.history))) =
      some (display zone room s name sent env.now d .history) := by
  have hfits := historyPayload_fits room.history name
  have hprint := (printMessage_answer serverName name (historyPayload room.history name) hnow
    (by rw [hfits.cstr_eq]; exact Nat.lt_of_le_of_lt hfits.length_le (by decide))).2.1
  rw [hfits.cstr_eq] at hprint
  rw [historyResponse, senderStr_makeMessage h.name,
    shown_reply h.tidy (canonical_makeMessage ..) hprint]
  rfl

theorem shown_status (env : Env) (hnow : zone.InRange env.now) (presence : Presence) (d : Nat) :
    shown zone (framesTo d (room.reply s
      (statusUpdated env.now (makeMessage sent .statusChange name [] presence.text)))) =
      some (display zone room s name sent env.now d (.status presence)) := by
  have hprint := (printMessage_answer serverName name (ascii "Status updated") hnow
    (by decide)).2.2.2 (by decide)
  rw [statusUpdated, senderStr_makeMessage h.name,
    shown_reply h.tidy (canonical_makeMessage ..) hprint]
  rfl

theorem shown_quit (env : Env) (hnow : zone.InRange env.now) (d : Nat) :
    shown zone (framesTo d (room.farewell env s)) =
      some (display zone room s name sent env.now d .quit) := by
  have hlen := (h.listable s).length_name_le
  have hleft : (ascii " left").length = 5 := rfl
  have hnote : leftNote (room.table s).name = (room.table s).name ++ ascii " left" := by
    apply List.take_of_length_le
    rw [List.length_append]
    omega
  have hfits : Discovery.Field (maxPayloadLen - 1) ((room.table s).name ++ ascii " left") := by
    constructor
    · intro b hb
      rcases List.mem_append.mp hb with hb | hb
      · exact mem_cstr hb
      · have hzero : ∀ b ∈ ascii " left", b ≠ 0 := by simp [ascii]
        exact hzero b hb
    · have hmax : maxPayloadLen = 1024 := rfl
      rw [List.length_append]
      omega
  have hprint := (printMessage_said [] hnow field_serverName hfits).1
  rw [Room.farewell, hnote, notice,
    shown_copies h.tidy (nodup_others room s) (canonical_makeMessage ..) hprint]
  rfl

/-- What a command makes the server send shows up as it should. -/
theorem shown_route (fl : Flavour) (env : Env) (ht : zone.InRange sent)
    (hnow : zone.InRange env.now) (hfits : cmd.Fits) (d : Nat) :
    shown zone (framesTo d (room.route fl env s (cmd.message name sent)).2) =
      some (display zone room s name sent env.now d cmd) := by
  cases cmd with
  | broadcast text =>
    simp only [Room.route, Command.message, kind_makeMessage]
    exact h.shown_broadcast env ht hnow hfits d
  | msg receiver text =>
    simp only [Room.route, Command.message, kind_makeMessage]
    exact h.shown_msg env ht hnow hfits.1.1 hfits.2 d
  | list =>
    simp only [Room.route, Command.message, kind_makeMessage]
    exact h.shown_list env hnow d
  | history =>
    simp only [Room.route, Command.message, kind_makeMessage]
    exact h.shown_history env hnow d
  | status presence =>
    simp only [Room.route, Command.message, kind_makeMessage]
    exact h.shown_status env hnow presence d
  | quit =>
    simp only [Room.route, Command.message, kind_makeMessage]
    have hlogout : (room.logout fl env s).2 = room.farewell env s := by
      cases fl <;> rfl
    rw [hlogout]
    exact h.shown_quit env hnow d

end AtWork

/-! ## Rooms with listable users -/

theorem every_fill {P : Entry → Prop} (hP : EntryRules P) (h : Every P room.table) (fl : Flavour)
    (s : Slot) : Every P (room.fill fl s).table := by
  refine EntryRules.every_update h ?_
  cases fl with
  | fork => exact h s
  | thread =>
    have hset : P ((room.table s).clear.setStatus (scanStatus [])) := hP.setStatus [] (hP.clear (h s))
    exact hset
  | epoll => exact hP.zero

theorem every_release {P : Entry → Prop} (hP : EntryRules P) (h : Every P room.table)
    (fl : Flavour) (s : Slot) : Every P (room.release fl s).table := by
  refine EntryRules.every_update h ?_
  cases fl with
  | epoll => exact hP.zero
  | _ => exact hP.clear (h s)

theorem every_route {P : Entry → Prop} (hP : EntryRules P) (h : Every P room.table) (fl : Flavour)
    (env : Env) (s : Slot) (m : Message) : Every P (room.route fl env s m).1.table := by
  unfold Room.route
  split
  · unfold Room.login
    split
    · exact h
    · split
      · exact h
      · split
        · exact h
        · exact EntryRules.every_update h (hP.login (h s) _)
  · cases fl with
    | fork => exact EntryRules.every_update h (hP.clear (h s))
    | thread => exact every_release hP h .thread s
    | epoll => exact every_release hP h .epoll s
  · unfold Room.broadcast
    split <;> exact h
  · unfold Room.priv
    split
    · exact h
    · split <;> exact h
  · exact h
  · exact h
  · exact EntryRules.every_update h (hP.setStatus _ (h s))
  · exact h

/-- What the writers of single entries keep holds in every room. -/
theorem every_serve {P : Entry → Prop} (hP : EntryRules P) (h : Every P room.table) (fl : Flavour)
    (e : Chat.Event) : Every P (serve fl room e).1.table := by
  cases e with
  | connect env =>
    change Every P (room.connect fl env).1.table
    unfold Room.connect
    split
    · exact h
    · next s _ => exact every_fill hP h fl s
  | request c m env =>
    change Every P (room.request fl c m.val env).1.table
    unfold Room.request
    split
    · exact h
    · next s _ => exact every_route hP h fl env s m.val
  | close c how =>
    change Every P (room.close fl c how).1.table
    unfold Room.close
    split
    · exact h
    · next s _ => exact every_release hP h fl s

theorem every_roomAfter {P : Entry → Prop} (hP : EntryRules P) (fl : Flavour) (history : History)
    (es : List Chat.Event) : Every P (roomAfter fl history es).table := by
  apply after_invariant (I := fun (room : Room) => Every P room.table)
  · exact fun _ e h _ => every_serve hP h fl e
  · exact fun _ => hP.zero
  · exact along_trivial ..

/-! ## Whole runs -/

/-- What a user types while logged in is shown, once and at this point of all that is shown, at
the clients it is meant for, and nowhere else: a broadcast to all others who are online, a private
message to the user it names, everything else to the user who asked for it. Whatever happens
before and behind, whichever server runs and however the bytes arrive, a client that reads its
connection shows it between what it showed before and what it shows behind. -/
theorem typed_is_shown {history : History} {past es es' : List Chat.Event}
    (hroom : room = roomAfter fl history (past ++ es)) (hs : room.slotOf c = some s)
    (hactive : (room.table s).active = true) (hname : Discovery.Field 31 name)
    (hfits : cmd.Fits) {m : Request} (hm : (obey name sent cmd.line).1 = .send m.val)
    (ht : zone.InRange sent) (hnow : zone.InRange env.now) {reads : List Answer}
    (hr : Steady reads) (d : Nat) {wire : List UInt8}
    (hwire : wire = wireTo d ((outputs (serve fl) (roomAfter fl history past)
      (es ++ .request c m env :: es')).flatMap bytesOf)) {n : Nat} (hn : wire.length < n) :
    receiverThread zone n ⟨wire, reads⟩ = do
      let before ← shown zone (framesTo d (outputs (serve fl) (roomAfter fl history past) es))
      let behind ← shown zone (framesTo d
        (outputs (serve fl) (serve fl room (.request c m env)).1 es'))
      return before ++ display zone room s name sent env.now d cmd ++ behind ++ disconnected := by
  have hfrom : after (serve fl) (roomAfter fl history past) es = room := by
    rw [hroom, roomAfter, roomAfter, after_append]
  have hwork : AtWork room s name := by
    refine ⟨?_, ?_, hactive, hname⟩
    · rw [hroom]
      exact tidy_roomAfter fl history _
    · rw [hroom]
      exact every_roomAfter entryRules_listable fl history _
  have hserve : (serve fl room (.request c m env)).2 =
      (room.route fl env s (cmd.message name sent)).2 := by
    have hmsg : m.val = cmd.message name sent :=
      (Effect.send.inj (hm.symm.trans (obey_line name sent hfits)))
    change (room.request fl c m.val env).2 = _
    rw [Room.request, hs, hmsg]
  have hread : received n ⟨wire, reads⟩ = framesTo d (outputs (serve fl)
      (roomAfter fl history past) (es ++ .request c m env :: es')) := by
    rw [hwire]
    exact received_sent (asRead_outputs fl _ _) d hr (hwire ▸ hn)
  have hlen : (received n ⟨wire, reads⟩).length < n := by
    rw [hwire, wireTo_bytesOf] at hn
    rw [hread]
    exact Nat.lt_of_le_of_lt (length_le_packed _) hn
  have hshown := hwork.shown_route fl env ht hnow hfits d
  rw [← hserve] at hshown
  rw [receiverThread_eq zone hlen, hread, outputs_append, outputs_cons, hfrom, framesTo_append,
    framesTo_append, shown_append, shown_append, hshown]
  generalize shown zone (framesTo d (outputs (serve fl) (roomAfter fl history past) es)) = before
  generalize shown zone (framesTo d (outputs (serve fl) (serve fl room _).1 es')) = behind
  cases before with
  | none => rfl
  | some before =>
    cases behind with
    | none => rfl
    | some behind => simp

/-- One of two users says hi to all, and the other one reads it. -/
theorem typed_is_shown_hi : ∃ wire : List UInt8,
    receiverThread (fun _ => 0) (wire.length + 1) ⟨wire, []⟩ =
      some (said cyn (ascii "broadcast") (clock (fun _ => 0) 0) (ascii "al") (ascii "hi") ++
        disconnected) := by
  have hname : Discovery.Field 31 (ascii "al") := ⟨by simp [ascii], by decide⟩
  have hfits : (Command.broadcast (ascii "hi")).Fits := ⟨by simp [ascii], by decide⟩
  have hroom : roomAfter .epoll (fun _ => none) (twoUsers (ascii "al") (ascii "bob")) =
      roomAfter .epoll (fun _ => none) (twoUsers (ascii "al") (ascii "bob") ++ []) := by
    rw [List.append_nil]
  have hs : (roomAfter .epoll (fun _ => none) (twoUsers (ascii "al") (ascii "bob"))).slotOf 0 =
      some 0 := by
    rfl
  have hactive : ((roomAfter .epoll (fun _ => none)
      (twoUsers (ascii "al") (ascii "bob"))).table 0).active = true := by
    rfl
  have hzone : Zone.InRange (fun _ => 0) 0 := by decide
  have hm : (obey (ascii "al") 0 (Command.broadcast (ascii "hi")).line).1 =
      .send (Request.make 0 .broadcast (ascii "al") [] (ascii "hi")).val := by
    exact obey_line (ascii "al") 0 hfits
  have hsteady : Steady [] := by simp [Steady]
  have hwire : wireTo 1 ((outputs (serve .epoll) (roomAfter .epoll (fun _ => none)
      (twoUsers (ascii "al") (ascii "bob"))) ([] ++ [.request 0
        (Request.make 0 .broadcast (ascii "al") [] (ascii "hi")) plainEnv])).flatMap bytesOf) =
      wireTo 1 _ := rfl
  have hshown := typed_is_shown hroom hs hactive hname hfits hm hzone hzone hsteady 1 hwire
    (Nat.lt_succ_self _)
  exact ⟨_, hshown.trans rfl⟩

end ChatSystem.Client
