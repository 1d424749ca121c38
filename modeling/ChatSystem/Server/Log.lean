import ChatSystem.Core.Join
import ChatSystem.Core.Transition
import ChatSystem.Server.LocalTime

/-!
# The format of a history log

`save_history` prints the receiver and the text as they are and takes the file name from the
sender field of the message. A call appends one line inside the history directory, and the
entries of a log can be read back, as long as the names and texts keep to what the format
takes for granted.
-/

namespace ChatSystem

open Bytes Calendar Transition

/-- A call of `save_history` by a router: the sender field of the message, no receiver or the
name of a client that is logged in, the text and the time of the message, and whether the log
can be opened. -/
structure Call where
  sender : List UInt8
  receiver : List UInt8
  text : List UInt8
  ts : UInt64
  opens : Bool
  sender_le : sender.length ≤ 31
  receiver_ok : receiver = [] ∨ ValidName receiver

/-- `HISTORY_DIR "/"`. -/
def historyDir : List UInt8 := ascii "./history/"

/-- The log of a sender. -/
def logOf (u : List UInt8) : List UInt8 := historyDir ++ u ++ ascii ".log"

namespace Call

variable (zone : Zone) (c : Call)

/-- The call on the files; `none` where it uses an absent result. -/
def save? (h : History) : Option History :=
  saveHistory? zone (fun _ => c.opens) h c.sender c.receiver c.text c.ts

/-- The log the call writes. -/
def log : List UInt8 := logOf c.sender

/-- The receiver, or the word for everybody. -/
def target : List UInt8 :=
  if c.receiver.isEmpty then ascii " BROADCAST : " else ascii " -> " ++ c.receiver ++ ascii " : "

/-- What is printed in front of the end of the line. -/
def line : List UInt8 :=
  ascii "[" ++ momentText (momentOf (zone.local c.ts)) ++ ascii "]" ++ c.target ++ c.text

/-- What a reader of the log wants back: the receiver, the text and the local second. -/
def entry : List UInt8 × List UInt8 × Int := (c.receiver, c.text, zone.local c.ts)

/-- The call appends one line to the log of the sender, which is a file of the history
directory, and touches nothing else. -/
def AppendsLine (h : History) : Prop :=
  (∃ file, c.log = historyDir ++ file ∧ 47 ∉ file) ∧
    ∃ line, 10 ∉ line ∧
      c.save? zone h = some (Function.update h c.log (some ((h c.log).getD [] ++ line ++ [10])))

/-- What the format takes for granted. -/
structure Clean : Prop where
  sender : 47 ∉ c.sender
  receiver : 10 ∉ c.receiver
  text : 10 ∉ c.text
  opens : c.opens = true
  inRange : zone.InRange c.ts

end Call

/-- One call after the other. -/
def callStep (zone : Zone) (h : History) (c : Call) : Option History := c.save? zone h

/-- The entries of the calls of one sender. -/
def entriesOf (zone : Zone) (u : List UInt8) (cs : List Call) : List (List UInt8 × List UInt8 × Int) :=
  (cs.filter fun c => c.sender = u).map (Call.entry zone)

variable {zone : Zone} {c : Call} {h : History}

/-! ## One call -/

theorem historyPath_sender (c : Call) : historyPath c.sender = c.log := by
  have hlen := c.sender_le
  rw [historyPath, snprintf]
  apply List.take_of_length_le
  have hdir : (ascii "./history/").length = 10 := by decide
  have hext : (ascii ".log").length = 4 := by decide
  simp only [List.length_append, hdir, hext]
  omega

/-- What a call does. -/
theorem Call.save?_eq (zone : Zone) (c : Call) (h : History) : c.save? zone h =
    if c.opens = true then
      if zone.InRange c.ts then
        some (Function.update h c.log (some ((h c.log).getD [] ++ (c.line zone ++ [10]))))
      else none
    else some h := by
  have hpath := historyPath_sender c
  rw [Call.save?, saveHistory?_eq, saveHistory, hpath]
  change (if c.opens = true → _ then some (if c.opens = true then _ else _) else none) = _
  by_cases ho : c.opens = true
  · by_cases hr : zone.InRange c.ts
    · rw [if_pos fun _ => hr, if_pos ho, if_pos ho, if_pos hr]
      simp only [historyLine, timeText_of_inRange hr, Call.line, Call.target]
    · rw [if_neg fun hh => hr (hh ho), if_pos ho, if_neg hr]
  · rw [if_pos fun hh => absurd hh ho, if_neg ho, if_neg ho]

/-- A call that opens the log at a local time appends its line. -/
theorem callStep_eq (ho : c.opens = true) (hr : zone.InRange c.ts) (h : History) :
    callStep zone h c =
      some (Function.update h c.log (some ((h c.log).getD [] ++ (c.line zone ++ [10])))) := by
  rw [callStep, Call.save?_eq, if_pos ho, if_pos hr]

/-- A byte that no local time is printed with. -/
theorem notMem_momentText (s : Int) {b : UInt8} (hb : b ∉ [45, 32, 58])
    (hdigit : Scan.isDigit b = false) : b ∉ momentText (momentOf s) := by
  intro hmem
  rcases of_mem_momentText hmem with h | h
  · exact hb h
  · rw [hdigit] at h
    cases h

/-- A line has no line end if the names and the text have none. -/
theorem Call.newline_notMem_line :
    10 ∉ c.line zone ↔ 10 ∉ c.receiver ∧ 10 ∉ c.text := by
  have htime : 10 ∉ momentText (momentOf (zone.local c.ts)) :=
    notMem_momentText _ (by decide) rfl
  have htarget : 10 ∉ c.target ↔ 10 ∉ c.receiver := by
    unfold Call.target
    split
    · next hempty =>
      rw [List.isEmpty_iff.mp hempty]
      simp [ascii]
    · simp [ascii]
  rw [← htarget]
  simp only [Call.line, List.mem_append, not_or]
  constructor
  · rintro ⟨⟨-, h1⟩, h2⟩
    exact ⟨h1, h2⟩
  · rintro ⟨h1, h2⟩
    exact ⟨⟨⟨⟨by simp [ascii], htime⟩, by simp [ascii]⟩, h1⟩, h2⟩

/-- The log is a file of the history directory exactly if the sender field has no slash. -/
theorem Call.inside_iff (c : Call) :
    (∃ file, c.log = historyDir ++ file ∧ 47 ∉ file) ↔ 47 ∉ c.sender := by
  have hlog : c.log = historyDir ++ (c.sender ++ ascii ".log") := by
    rw [Call.log, logOf, List.append_assoc]
  constructor
  · rintro ⟨file, hfile, hslash⟩ hmem
    rw [hlog] at hfile
    rw [← List.append_cancel_left hfile] at hslash
    exact hslash (List.mem_append_left _ hmem)
  · intro hslash
    refine ⟨_, hlog, ?_⟩
    rw [List.mem_append, not_or]
    exact ⟨hslash, by simp [ascii]⟩

/-- A call appends one line inside the history directory exactly if it is clean. -/
theorem Call.appendsLine_iff (zone : Zone) (c : Call) (h : History) :
    c.AppendsLine zone h ↔ c.Clean zone := by
  rw [Call.AppendsLine, c.inside_iff, Call.save?_eq]
  constructor
  · rintro ⟨hslash, line, hline, hsave⟩
    by_cases ho : c.opens = true
    · by_cases hr : zone.InRange c.ts
      · rw [if_pos ho, if_pos hr] at hsave
        have hcontent := congrFun (Option.some.inj hsave) c.log
        rw [Function.update_self, Function.update_self, Option.some.injEq, List.append_assoc] at hcontent
        have hsame := List.append_cancel_right (List.append_cancel_left hcontent)
        rw [← hsame] at hline
        obtain ⟨h1, h2⟩ := Call.newline_notMem_line.mp hline
        exact ⟨hslash, h1, h2, ho, hr⟩
      · rw [if_pos ho, if_neg hr] at hsave
        cases hsave
    · rw [if_neg ho] at hsave
      have hcontent := congrFun (Option.some.inj hsave) c.log
      rw [Function.update_self] at hcontent
      have hlen := congrArg (fun x => (Option.getD x []).length) hcontent
      simp only [Option.getD_some, List.length_append, List.length_singleton] at hlen
      omega
  · intro hc
    refine ⟨hc.sender, c.line zone, Call.newline_notMem_line.mpr ⟨hc.receiver, hc.text⟩, ?_⟩
    rw [if_pos hc.opens, if_pos hc.inRange, List.append_assoc]

/-! ## Lines -/

/-- What stands behind the time gives the receiver and the text: a name has no colon. -/
theorem Call.target_text_inj {c d : Call} (h : c.target ++ c.text = d.target ++ d.text) :
    c.receiver = d.receiver ∧ c.text = d.text := by
  have hsplit : ∀ c : Call, c.receiver ≠ [] → c.target ++ c.text =
      32 :: 45 :: 62 :: 32 :: ((c.receiver ++ [32]) ++ 58 :: 32 :: c.text) := by
    intro c hc
    rw [Call.target, if_neg (by simpa using hc)]
    simp [ascii]
  have hall : ∀ c : Call, c.receiver = [] → ∃ r, c.target ++ c.text = 32 :: 66 :: r ∧
      r = ascii "ROADCAST : " ++ c.text := by
    intro c hc
    rw [Call.target, hc]
    exact ⟨_, rfl, rfl⟩
  have hcolon : ∀ c : Call, 58 ∉ c.receiver ++ [32] := by
    intro c
    rw [List.mem_append, not_or]
    refine ⟨?_, by simp⟩
    rcases c.receiver_ok with hc | hc
    · rw [hc]
      exact List.not_mem_nil
    · exact hc.no_colon
  by_cases hc : c.receiver = []
  · obtain ⟨r, hr, hrc⟩ := hall c hc
    by_cases hd : d.receiver = []
    · obtain ⟨r', hr', hrd⟩ := hall d hd
      rw [hr, hr', hrc, hrd] at h
      simp only [List.cons.injEq, true_and, List.append_cancel_left_eq] at h
      exact ⟨hc.trans hd.symm, h⟩
    · rw [hr, hsplit d hd] at h
      simp at h
  · by_cases hd : d.receiver = []
    · obtain ⟨r, hr, -⟩ := hall d hd
      rw [hr, hsplit c hc] at h
      simp at h
    · rw [hsplit c hc, hsplit d hd] at h
      simp only [List.cons.injEq, true_and] at h
      obtain ⟨hname, htext⟩ := Join.append_cons_inj (hcolon c) (hcolon d) h
      exact ⟨List.append_cancel_right hname, (List.cons.inj htext).2⟩

/-- A line determines its entry. -/
theorem Call.entry_of_line {c d : Call} (h : c.line zone = d.line zone) :
    c.entry zone = d.entry zone := by
  have hshape : ∀ c : Call, c.line zone =
      91 :: (momentText (momentOf (zone.local c.ts)) ++ 93 :: (c.target ++ c.text)) := by
    intro c
    simp [Call.line, ascii]
  rw [hshape, hshape] at h
  have hbracket : ∀ s, 93 ∉ momentText (momentOf s) := fun s =>
    notMem_momentText s (by decide) rfl
  obtain ⟨htime, hrest⟩ := Join.append_cons_inj (hbracket _) (hbracket _) (List.cons.inj h).2
  obtain ⟨hreceiver, htext⟩ := Call.target_text_inj hrest
  rw [Call.entry, Call.entry, hreceiver, htext, momentText_inj htime]

/-! ## Sequences of calls -/

/-- What the calls of one sender print. -/
def printed (zone : Zone) (u : List UInt8) (cs : List Call) : List UInt8 :=
  ((cs.filter fun c => c.sender = u).map fun c => c.line zone ++ [10]).flatten

theorem logOf_inj {u v : List UInt8} (h : logOf u = logOf v) : u = v :=
  List.append_cancel_left (List.append_cancel_right h)

/-- Clean calls append to the log of a sender what the sender's calls print. -/
theorem content_of_run {cs : List Call} {t : History} (hclean : ∀ c ∈ cs, c.Clean zone)
    (hrun : run (callStep zone) h cs = some t) (u : List UInt8) :
    (t (logOf u)).getD [] = (h (logOf u)).getD [] ++ printed zone u cs := by
  induction cs generalizing h with
  | nil =>
    obtain rfl := Option.some.inj hrun
    exact (List.append_nil _).symm
  | cons c cs ih =>
    obtain ⟨h₁, hstep, hrest⟩ := run_cons_iff.mp hrun
    obtain ⟨hc, hcs⟩ := List.forall_mem_cons.mp hclean
    rw [callStep_eq hc.opens hc.inRange] at hstep
    obtain rfl := Option.some.inj hstep
    rw [ih hcs hrest]
    by_cases hu : c.sender = u
    · have hlog : logOf u = c.log := by rw [Call.log, hu]
      rw [hlog, Function.update_self, Option.getD_some, ← hlog, printed, printed,
        List.filter_cons_of_pos (by simpa using hu), List.map_cons, List.flatten_cons,
        List.append_assoc]
    · have hne : logOf u ≠ c.log := fun he => hu (logOf_inj he).symm
      rw [Function.update_of_ne hne, printed, printed, List.filter_cons_of_neg (by simpa using hu)]

/-- Clean calls do not stop. -/
theorem exists_run_of_clean {cs : List Call} (hclean : ∀ c ∈ cs, c.Clean zone) (h : History) :
    ∃ t, run (callStep zone) h cs = some t := by
  induction cs generalizing h with
  | nil => exact ⟨h, rfl⟩
  | cons c cs ih =>
    obtain ⟨hc, hcs⟩ := List.forall_mem_cons.mp hclean
    obtain ⟨t, ht⟩ := ih hcs (Function.update h c.log
      (some ((h c.log).getD [] ++ (c.line zone ++ [10]))))
    exact ⟨t, run_cons_iff.mpr ⟨_, callStep_eq hc.opens hc.inRange h, ht⟩⟩

/-- Clean calls are those that append their line, one after the other. -/
theorem meets_appendsLine_iff (zone : Zone) (h : History) (cs : List Call) :
    Meets (callStep zone) (fun h c => c.AppendsLine zone h) h cs ↔ ∀ c ∈ cs, c.Clean zone := by
  induction cs generalizing h with
  | nil => exact iff_of_true trivial fun c hc => by cases hc
  | cons c cs ih =>
    rw [List.forall_mem_cons, ← Call.appendsLine_iff zone c h]
    constructor
    · rintro ⟨hc, hrest⟩
      obtain ⟨line, -, hsave⟩ := hc.2
      exact ⟨hc, (ih _).mp (hrest _ hsave)⟩
    · rintro ⟨hc, hcs⟩
      exact ⟨hc, fun t _ => (ih t).mpr hcs⟩

/-- Lists with the same images have the same images under whatever the first map determines. -/
theorem map_eq_of_map_eq {α β γ : Type*} {f : α → β} {g : α → γ}
    (hfg : ∀ a b, f a = f b → g a = g b) {as bs : List α} (h : as.map f = bs.map f) :
    as.map g = bs.map g := by
  induction as generalizing bs with
  | nil =>
    cases bs with
    | nil => rfl
    | cons b bs => cases h
  | cons a as ih =>
    cases bs with
    | nil => cases h
    | cons b bs =>
      obtain ⟨hab, hrest⟩ := List.cons.inj h
      rw [List.map_cons, List.map_cons, hfg a b hab, ih hrest]

/-- What clean calls print determines their entries. -/
theorem entriesOf_of_printed {cs ds : List Call} {u : List UInt8}
    (hcs : ∀ c ∈ cs, c.Clean zone) (hds : ∀ d ∈ ds, d.Clean zone)
    (hp : printed zone u cs = printed zone u ds) : entriesOf zone u cs = entriesOf zone u ds := by
  have hopen : ∀ {cs : List Call}, (∀ c ∈ cs, c.Clean zone) →
      ∀ p ∈ (cs.filter fun c => c.sender = u).map fun c => (c.line zone, [(10 : UInt8)]),
        Join.Open [[10]] p.1 ∧ p.2 ∈ [[(10 : UInt8)]] := by
    intro cs hcs p hp
    obtain ⟨c, hc, rfl⟩ := List.mem_map.mp hp
    have hclean := hcs c (List.mem_of_mem_filter hc)
    exact ⟨Join.open_singleton (Call.newline_notMem_line.mpr ⟨hclean.receiver, hclean.text⟩),
      List.mem_singleton.mpr rfl⟩
  have hlines := (Join.closers_singleton (10 : UInt8)).flatten_inj (hopen hcs) (hopen hds) (by
    rw [List.map_map, List.map_map]
    exact hp)
  exact map_eq_of_map_eq (fun c d he => Call.entry_of_line (congrArg Prod.fst he)) hlines

/-- The host's clock shows universal time. -/
def utc : Zone := fun _ => 0

/-- A message to everybody. -/
def greeting : Call where
  sender := ascii "alice"
  receiver := []
  text := ascii "hi"
  ts := 0
  opens := true
  sender_le := by decide
  receiver_ok := Or.inl rfl

/-- A message to one client. -/
def whisper : Call where
  sender := ascii "alice"
  receiver := ascii "bob"
  text := ascii "bye"
  ts := 60
  opens := true
  sender_le := by decide
  receiver_ok := Or.inr (by constructor <;> simp [ascii])

theorem clean_greeting : greeting.Clean utc :=
  ⟨by simp [greeting, ascii], List.not_mem_nil, by simp [greeting, ascii], rfl, by decide⟩

theorem clean_whisper : whisper.Clean utc :=
  ⟨by simp [whisper, ascii], by simp [whisper, ascii], by simp [whisper, ascii], rfl, by decide⟩

/-- One message with the text of a greeting, the end of a line and a whole second line. -/
def forgery : Call where
  sender := ascii "alice"
  receiver := []
  text := ascii "hi" ++ 10 :: whisper.line utc
  ts := 0
  opens := true
  sender_le := by decide
  receiver_ok := Or.inl rfl

/-- A message whose sender field leaves the directory. -/
def climber : Call where
  sender := ascii "../alice"
  receiver := []
  text := ascii "hi"
  ts := 0
  opens := true
  sender_le := by decide
  receiver_ok := Or.inl rfl

end ChatSystem
