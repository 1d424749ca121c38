import ChatSystem.Chat.Reading
import ChatSystem.Chat.Senders
import ChatSystem.Server.HistoryReply

/-!
# What the history tells

Every message that is relayed leaves one line in the log of the name it was sent under, and
nothing else does. So a client that asks for its history reads the log as it was found at the
start and, behind that, what was relayed under its name, from the beginning as far as it fits.
-/

namespace ChatSystem.Chat

open Bytes Reactive

/-- The receiver a message is logged with, if it is. -/
def Room.loggedFor (room : Room) (s : Slot) (m : Message) : Option (List UInt8) :=
  if (room.table s).active then
    match m.kind with
    | some .broadcast => some []
    | some .priv => (findName room.table m.receiver.toList).map fun _ => m.receiverStr
    | _ => none
  else none

/-- The name under which an event leaves a line, and the line. -/
def Room.lineAt (room : Room) : Event → Option (List UInt8 × List UInt8)
  | .request c m env => do
    let s ← room.slotOf c
    let receiver ← room.loggedFor s m.val
    if env.host.canAppend (historyPath m.val.senderStr) then
      some (m.val.senderStr,
        historyLine env.host receiver m.val.payloadStr m.val.timestamp)
    else none
  | _ => none

/-- The lines events leave, one after the other. -/
def journal (fl : Flavour) : Room → List Event → List (List UInt8 × List UInt8)
  | _, [] => []
  | room, e :: es => (room.lineAt e).toList ++ journal fl (serve fl room e).1 es

/-- The lines under a name. -/
def linesOf (u : List UInt8) (lines : List (List UInt8 × List UInt8)) : List UInt8 :=
  (lines.filterMap fun x => if x.1 = u then some x.2 else none).flatten

/-- The log of a name. -/
def logAt (h : History) (u : List UInt8) : List UInt8 := (h (historyPath u)).getD []

variable {fl : Flavour} {room : Room} {e : Event} {es : List Event} {env : Env} {s : Slot}
  {m : Message} {u v receiver : List UInt8}

theorem linesOf_append (u : List UInt8) (xs ys : List (List UInt8 × List UInt8)) :
    linesOf u (xs ++ ys) = linesOf u xs ++ linesOf u ys := by
  rw [linesOf, List.filterMap_append, List.flatten_append]
  rfl

/-- Names of a field have different logs. -/
theorem historyPath_inj (hu : u.length ≤ 31) (hv : v.length ≤ 31)
    (h : historyPath u = historyPath v) : u = v := by
  have hpath : ∀ w : List UInt8, w.length ≤ 31 →
      historyPath w = ascii "./history/" ++ w ++ ascii ".log" := by
    intro w hw
    rw [historyPath, snprintf, List.take_of_length_le]
    have hdir : (ascii "./history/").length = 10 := by decide
    have hext : (ascii ".log").length = 4 := by decide
    simp only [List.length_append, hdir, hext]
    omega
  rw [hpath u hu, hpath v hv] at h
  exact List.append_cancel_left (List.append_cancel_right h)

/-! ## One event -/

/-- Saving a message appends its line to the log of its sender. -/
theorem logAt_save (h : History) (host : Host) (m : Message) (receiver : List UInt8)
    (hu : u.length ≤ 31) (hm : m.senderStr.length ≤ 31) :
    logAt (h.save host m receiver) u = logAt h u ++
      if host.canAppend (historyPath m.senderStr) ∧ m.senderStr = u then
        historyLine host receiver m.payloadStr m.timestamp
      else [] := by
  unfold History.save saveHistory
  by_cases ha : host.canAppend (historyPath m.senderStr) = true
  · rw [if_pos ha]
    by_cases hmu : m.senderStr = u
    · rw [if_pos ⟨ha, hmu⟩, ← hmu, logAt, Function.update_self]
      rfl
    · have hne : historyPath u ≠ historyPath m.senderStr := fun he =>
        hmu (historyPath_inj hu hm he).symm
      rw [if_neg fun hh => hmu hh.2, logAt, Function.update_of_ne hne, List.append_nil]
      rfl
  · rw [if_neg ha, if_neg fun hh => ha hh.1, List.append_nil]

theorem loggedFor_eq_none (h1 : m.kind ≠ some .broadcast) (h2 : m.kind ≠ some .priv) :
    room.loggedFor s m = none := by
  unfold Room.loggedFor
  split
  · split
    · next hk => exact absurd hk h1
    · next hk => exact absurd hk h2
    · rfl
  · rfl

/-- A router saves a message if it is to be logged, and does not touch the history otherwise. -/
theorem history_route (room : Room) (fl : Flavour) (env : Env) (s : Slot) (m : Message) :
    (room.route fl env s m).1.history =
      (room.loggedFor s m).elim room.history (room.history.save env.host m) := by
  by_cases h1 : m.kind = some .broadcast
  · simp only [Room.route, Room.loggedFor, h1, Room.broadcast]
    cases (room.table s).active <;> rfl
  · by_cases h2 : m.kind = some .priv
    · simp only [Room.route, Room.loggedFor, h2, Room.priv]
      cases (room.table s).active with
      | false => rfl
      | true => cases findName room.table m.receiver.toList <;> rfl
    · rw [loggedFor_eq_none h1 h2]
      ext p : 1
      by_contra hne
      rcases (logged_of_route hne).2.1 with hk | hk
      · exact h1 hk
      · exact h2 hk

/-- An event appends its line to the log of the name, and changes no other log. -/
theorem logAt_serve (fl : Flavour) (room : Room) (e : Event) (hu : u.length ≤ 31) :
    logAt (serve fl room e).1.history u =
      logAt room.history u ++ linesOf u (room.lineAt e).toList := by
  cases e with
  | connect env =>
    change logAt (room.connect fl env).1.history u = _
    rw [history_connect]
    exact (List.append_nil _).symm
  | close c how =>
    change logAt (room.close fl c how).1.history u = _
    rw [history_close]
    exact (List.append_nil _).symm
  | request c m env =>
    simp only [serve, Room.request, Room.lineAt, Option.bind_eq_bind]
    cases room.slotOf c with
    | none => exact (List.append_nil _).symm
    | some s =>
      simp only [Option.bind_some]
      rw [history_route]
      cases room.loggedFor s m.val with
      | none => exact (List.append_nil _).symm
      | some receiver =>
        simp only [Option.elim_some, Option.bind_some]
        rw [logAt_save _ _ _ _ hu (length_senderStr_le m)]
        congr 1
        by_cases ha : env.host.canAppend (historyPath m.val.senderStr) = true
        · rw [if_pos ha, Option.toList_some, linesOf]
          by_cases hmu : m.val.senderStr = u
          · simp [hmu, hmu ▸ ha]
          · simp [hmu]
        · rw [if_neg ha, if_neg fun hh => ha hh.1]
          rfl

/-! ## Runs -/

/-- The log of a name is what was found at the start and the lines left under the name. -/
theorem logAt_after (fl : Flavour) (room : Room) (es : List Event) (hu : u.length ≤ 31) :
    logAt (after (serve fl) room es).history u =
      logAt room.history u ++ linesOf u (journal fl room es) := by
  induction es generalizing room with
  | nil => exact (List.append_nil _).symm
  | cons e es ih =>
    rw [after_cons, ih, logAt_serve fl room e hu, journal, linesOf_append, List.append_assoc]

theorem ne_zero_of_historyLine {host : Host} {text : List UInt8} {ts : UInt64}
    (htime : ∀ b ∈ host.timeText ts, b ≠ 0) (hreceiver : ∀ b ∈ receiver, b ≠ 0)
    (htext : ∀ b ∈ text, b ≠ 0) : ∀ b ∈ historyLine host receiver text ts, b ≠ 0 := by
  have hword : ∀ {w : List UInt8}, (∀ b ∈ w, b ≠ 0) → ∀ {r : List UInt8}, (∀ b ∈ r, b ≠ 0) →
      ∀ b ∈ w ++ r, b ≠ 0 := by
    intro w hw r hr b hb
    rcases List.mem_append.mp hb with hb | hb
    · exact hw b hb
    · exact hr b hb
  unfold historyLine
  refine hword (hword (hword (hword (hword (by simp [ascii]) htime) (by simp [ascii])) ?_) htext)
    (by simp)
  split
  · simp [ascii]
  · exact hword (hword (by simp [ascii]) hreceiver) (by simp [ascii])

/-- No line has a zero byte, if no local time has one. -/
theorem ne_zero_of_journal (htime : ∀ e ∈ es, ∀ ts, ∀ b ∈ e.env.host.timeText ts, b ≠ 0) :
    ∀ x ∈ journal fl room es, ∀ b ∈ x.2, b ≠ 0 := by
  induction es generalizing room with
  | nil =>
    intro x hx
    cases hx
  | cons e es ih =>
    intro x hx
    rcases List.mem_append.mp hx with hx | hx
    · cases e with
      | connect env => cases hx
      | close c how => cases hx
      | request c m env =>
        have htext := htime _ List.mem_cons_self m.val.timestamp
        rw [Option.mem_toList] at hx
        simp only [Room.lineAt, Option.bind_eq_bind, Option.bind_eq_some_iff] at hx
        obtain ⟨s, -, receiver, hlogged, hline⟩ := hx
        split at hline
        · obtain rfl := Option.some.inj hline
          refine ne_zero_of_historyLine htext ?_ fun b => mem_cstr
          unfold Room.loggedFor at hlogged
          repeat' split at hlogged
          · obtain rfl := Option.some.inj hlogged
            intro b hb
            cases hb
          · obtain ⟨-, -, rfl⟩ := Option.map_eq_some_iff.mp hlogged
            exact fun b => mem_cstr
          · cases hlogged
          · cases hlogged
        · cases hline
    · exact ih (fun e he => htime e (List.mem_cons_of_mem _ he)) x hx

theorem ne_zero_of_linesOf {lines : List (List UInt8 × List UInt8)}
    (h : ∀ x ∈ lines, ∀ b ∈ x.2, b ≠ 0) : ∀ b ∈ linesOf u lines, b ≠ 0 := by
  intro b hb
  obtain ⟨line, hline, hb⟩ := List.mem_flatten.mp hb
  obtain ⟨x, hx, hsome⟩ := List.mem_filterMap.mp hline
  split at hsome
  · obtain rfl := Option.some.inj hsome
    exact h x hx b hb
  · cases hsome

/-- The text of a reply is a front of the log, all of it if it fits. -/
theorem historyLoop_front {content : List UInt8} (h : ∀ b ∈ content, b ≠ 0) :
    historyLoop content [] <+: content ∧
      (content.length ≤ 1022 → historyLoop content [] = content) ∧
      (1022 < content.length → 768 ≤ (historyLoop content []).length) := by
  have hmax : maxPayloadLen = 1024 := rfl
  rcases historyLoop_chunks content [] h with hall | ⟨hmore, hmin, k, hk⟩
  · rw [List.nil_append] at hall
    rw [hall]
    exact ⟨List.prefix_refl _, fun _ => rfl, fun hlong => by omega⟩
  · rw [List.length_nil, Nat.zero_add] at hmore
    refine ⟨?_, fun hshort => by omega, fun _ => hmin⟩
    rw [hk, List.nil_append]
    conv_rhs => rw [← flatten_fgetsChunks content]
    exact List.IsPrefix.flatten (List.take_prefix k _)

/-- A client connects, logs in and says `hi`. -/
def hiSaid : List Event :=
  [.connect plainEnv, .request 0 (.make 0 .login (ascii "alice") [] (ascii "alice:pw")) plainEnv,
    .request 0 (.make 0 .broadcast (ascii "alice") [] (ascii "hi")) plainEnv]

end ChatSystem.Chat
