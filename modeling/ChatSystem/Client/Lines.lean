import ChatSystem.Client.Input
import ChatSystem.Protocol.Codec

/-!
# One command per line

What `fgets` hands over is a line if the line fits the array. A line that does not fit is taken
in parts, and the parts are taken for commands of their own.
-/

namespace ChatSystem.Client

open Bytes

variable {name : List UInt8} {clock : Nat → UInt64} {k : Nat} {input l stop line text : List UInt8}

/-! ## Line ends -/

theorem chomp_append {t : List UInt8} (ht : ∀ b ∈ t, b = 10 ∨ b = 13) :
    chomp (l ++ t) = chomp l := by
  have hends : ∀ b ∈ t.reverse, (b == 10 || b == 13) = true := by
    intro b hb
    simpa using ht b (List.mem_reverse.mp hb)
  rw [chomp, List.rdropWhile, List.reverse_append, List.dropWhile_append_of_pos hends]
  rfl

/-- A line is what is left of it, with line ends behind. -/
theorem chomp_append_ends (l : List UInt8) :
    ∃ t, l = chomp l ++ t ∧ ∀ b ∈ t, b = 10 ∨ b = 13 := by
  refine ⟨l.rtakeWhile fun b => b == 10 || b == 13, List.rdropWhile_append_rtakeWhile.symm, ?_⟩
  intro b hb
  simpa using List.mem_rtakeWhile_imp hb

@[simp] theorem chomp_chomp (l : List UInt8) : chomp (chomp l) = chomp l :=
  List.rdropWhile_idempotent _ _

theorem isPrefix_chomp (l : List UInt8) : chomp l <+: l := List.rdropWhile_prefix _ l

/-! ## Chunks -/

/-- What `fgets` takes of a line, and what it leaves. -/
theorem fgetsLine_split (size : Nat) (hl : (10 : UInt8) ∉ l)
    (hstop : stop = [] ∨ ∃ rest, stop = 10 :: rest) :
    (l.length < size - 1 → fgetsLine size (l ++ stop) = l ++ stop.take 1) ∧
      (size - 1 ≤ l.length → fgetsLine size (l ++ stop) = l.take (size - 1)) := by
  have hpass : ∀ s : List UInt8, (10 : UInt8) ∉ s → s.takeWhile (· ≠ 10) = s := by
    intro s hs
    rw [List.takeWhile_eq_self_iff]
    intro b hb
    have hne : b ≠ 10 := by
      rintro rfl
      exact hs hb
    simpa using hne
  unfold fgetsLine
  generalize size - 1 = n
  simp only
  constructor
  · intro hlt
    rcases hstop with rfl | ⟨rest, rfl⟩
    · have htake : l.take n = l := List.take_of_length_le (Nat.le_of_lt hlt)
      rw [List.append_nil, htake, hpass l hl,
        if_neg (Nat.lt_irrefl _), List.take_nil, List.append_nil]
    · have htake : (l ++ 10 :: rest).take n = l ++ 10 :: rest.take (n - l.length - 1) := by
        rw [List.take_append, List.take_of_length_le (Nat.le_of_lt hlt)]
        congr 1
        rw [show n - l.length = (n - l.length - 1) + 1 by omega, List.take_succ_cons,
          Nat.add_sub_cancel]
      have htext : (l ++ 10 :: rest.take (n - l.length - 1)).takeWhile (· ≠ 10) = l := by
        rw [List.takeWhile_append_of_pos]
        · simp
        · intro b hb
          have hne : b ≠ 10 := by
            rintro rfl
            exact hl hb
          simpa using hne
      rw [htake, htext, if_pos (by simp)]
      rfl
  · intro hge
    have htake : (l ++ stop).take n = l.take n := List.take_append_of_le_length hge
    have htext := hpass (l.take n) fun hm => hl (List.mem_of_mem_take hm)
    rw [htake, htext, if_neg (Nat.lt_irrefl _)]

/-- What is left behind a chunk. -/
theorem drop_fgetsLine (size : Nat) (hl : (10 : UInt8) ∉ l)
    (hstop : stop = [] ∨ ∃ rest, stop = 10 :: rest) :
    (l ++ stop).drop (fgetsLine size (l ++ stop)).length =
      if l.length < size - 1 then stop.drop 1 else l.drop (size - 1) ++ stop := by
  obtain ⟨hshort, hlong⟩ := fgetsLine_split size hl hstop
  split
  · next hlt =>
    rw [hshort hlt, List.length_append, List.drop_length_add_append]
    rcases hstop with rfl | ⟨rest, rfl⟩ <;> rfl
  · next hge =>
    have hle : size - 1 ≤ l.length := Nat.not_lt.mp hge
    rw [hlong hle, List.length_take, Nat.min_eq_left hle, List.drop_append_of_le_length hle]

/-! ## Commands -/

/-- A broadcast is sent with all of its text, as far as a payload goes. -/
theorem obey_broadcast (now : UInt64) (text : List UInt8) :
    (obey name now (ascii "/broadcast " ++ text)).1 = sendCmd name now .broadcast [] text := by
  have hlen : (ascii "/broadcast ").length = 11 := rfl
  have hmatch : strncmpEq 11 (ascii "/broadcast " ++ text) (ascii "/broadcast ") = true := by
    rw [strncmpEq, List.take_left' hlen, List.take_of_length_le (Nat.le_of_eq hlen)]
    exact beq_self_eq_true _
  rw [obey, if_pos hmatch, List.drop_left' hlen]

/-- So is a private message, to the first word. -/
theorem obey_msg (now : UInt64) {receiver : List UInt8} (hr : (32 : UInt8) ∉ receiver)
    (text : List UInt8) : (obey name now (ascii "/msg " ++ receiver ++ 32 :: text)).1 =
      sendCmd name now .priv receiver text := by
  have hlen : (ascii "/msg ").length = 5 := rfl
  have hother : strncmpEq 11 (ascii "/msg " ++ (receiver ++ 32 :: text)) (ascii "/broadcast ") =
      false := by
    simp [strncmpEq, ascii, cstr]
  have hmatch : strncmpEq 5 (ascii "/msg " ++ (receiver ++ 32 :: text)) (ascii "/msg ") = true := by
    rw [strncmpEq, List.take_left' hlen, List.take_of_length_le (Nat.le_of_eq hlen)]
    exact beq_self_eq_true _
  have hpass : ∀ b ∈ receiver, decide (b ≠ 32) = true := by
    intro b hb
    have hne : b ≠ 32 := by
      rintro rfl
      exact hr hb
    simpa using hne
  have hspace : (32 : UInt8) ∈ receiver ++ 32 :: text := by simp
  rw [List.append_assoc, obey, hother, if_neg Bool.false_ne_true, if_pos hmatch]
  simp only [List.drop_left' hlen]
  rw [if_pos hspace, List.takeWhile_append_of_pos hpass, List.dropWhile_append_of_pos hpass]
  simp

theorem obey_ne_prompt (name : List UInt8) (now : UInt64) (text : List UInt8) :
    (obey name now text).1 ≠ .prompt := by
  unfold obey
  dsimp only
  repeat' split
  all_goals exact nofun

/-- Only `/quit` ends the loop. -/
theorem obey_running (name : List UInt8) (now : UInt64) (text : List UInt8) :
    (obey name now text).2 = true ↔ text ≠ ascii "/quit" := by
  constructor
  · rintro hrun rfl
    cases hrun
  · intro hne
    unfold obey
    dsimp only
    repeat' split
    all_goals rfl

/-- A payload carries a text as far as it goes. -/
theorem body_makeMessage (now : UInt64) (type : MsgType) (sender receiver : List UInt8)
    {text : List UInt8} (h : ∀ b ∈ text, b ≠ 0) :
    body (makeMessage now type sender receiver text) = text.take maxPayloadLen := by
  have hlen : (text.take maxPayloadLen).length = min text.length maxPayloadLen := by
    rw [List.length_take, Nat.min_comm]
  rw [body, payloadLen_makeMessage, cstr_of_forall_ne h]
  change (padded maxPayloadLen text).take _ = _
  rw [padded, cstr_of_forall_ne h, List.take_left' hlen]

/-- So it carries a text whole exactly if the text is short enough. -/
theorem delivered_sendCmd_iff (now : UInt64) (type : MsgType) (receiver : List UInt8)
    (h : ∀ b ∈ text, b ≠ 0) :
    Delivered type text (sendCmd name now type receiver text) ↔ text.length ≤ maxPayloadLen := by
  constructor
  · rintro (⟨m, hm, -, hbody⟩ | ⟨complaint, hc⟩)
    · obtain rfl := Effect.send.inj hm
      rw [body_makeMessage now type name receiver h] at hbody
      rw [← hbody]
      exact List.length_take_le _ _
    · cases hc
  · intro hle
    refine Or.inl ⟨_, rfl, kind_makeMessage .., ?_⟩
    rw [body_makeMessage now type name receiver h, List.take_of_length_le hle]

/-! ## Turns -/

/-- The string in the array is terminated inside it. -/
theorem chomp_cstr_fgetsLine (input : List UInt8) :
    (∀ b ∈ chomp (cstr (fgetsLine lineSize input)), b ≠ 0) ∧
      (chomp (cstr (fgetsLine lineSize input))).length < lineSize := by
  constructor
  · intro b hb
    exact mem_cstr ((isPrefix_chomp _).subset hb)
  · have h₁ := (isPrefix_chomp (cstr (fgetsLine lineSize input))).length_le
    have h₂ := length_cstr_le (fgetsLine lineSize input)
    have h₃ := length_fgetsLine_le lineSize input
    have h₄ : 0 < lineSize := by decide
    omega

/-- What every turn of the loop has in its array, and does with it. -/
theorem turn_spec {turn : Turn} (h : turn ∈ inputLoop name clock k input) :
    (∀ b ∈ turn.text, b ≠ 0) ∧ turn.text.length < lineSize ∧
      (turn.text ≠ [] → ∃ j, turn.effects = [(obey name (clock j) turn.text).1] ∨
        turn.effects = [(obey name (clock j) turn.text).1, .prompt]) := by
  fun_induction inputLoop name clock k input with
  | case1 => cases h
  | case2 k input hne line rest text htext ih =>
    rcases List.mem_cons.mp h with rfl | h
    · refine ⟨fun b hb => ?_, by decide, fun hn => absurd rfl hn⟩
      cases hb
    · exact ih h
  | case3 k input hne line rest text htext hrun ih =>
    rcases List.mem_cons.mp h with rfl | h
    · obtain ⟨hzero, hlen⟩ := chomp_cstr_fgetsLine input
      exact ⟨hzero, hlen, fun _ => ⟨k, Or.inr rfl⟩⟩
    · exact ih h
  | case4 k input hne line text htext hrun =>
    obtain rfl := List.mem_singleton.mp h
    obtain ⟨hzero, hlen⟩ := chomp_cstr_fgetsLine input
    exact ⟨hzero, hlen, fun _ => ⟨k, Or.inl rfl⟩⟩

/-- A line that the loop took whole fits it. -/
theorem Obeyed.holds {turn : Turn} (h : turn ∈ commands (inputLoop name clock k input))
    (ho : Obeyed line turn) : Holds line := by
  obtain ⟨hmem, htext⟩ := List.mem_filter.mp h
  obtain ⟨hzero, hlen, heffects⟩ := turn_spec hmem
  obtain ⟨j, hj⟩ := heffects (by simpa using htext)
  rw [ho.text] at hzero hlen hj
  obtain ⟨e, he, hprompt, hbroadcast, hmsg⟩ := ho.once
  have hobey : e = (obey name (clock j) line).1 := by
    rcases he with he | he <;> rcases hj with hj | hj <;> rw [he] at hj <;> simp at hj
    · exact hj
    · exact hj
  subst hobey
  refine ⟨hzero, hlen, ?_, ?_⟩
  · rintro text rfl
    have htail : ∀ b ∈ text, b ≠ 0 := fun b hb => hzero b (List.mem_append_right _ hb)
    have hsent := hbroadcast text rfl
    rwa [obey_broadcast, delivered_sendCmd_iff _ _ _ htail] at hsent
  · rintro receiver text hr rfl
    have htail : ∀ b ∈ text, b ≠ 0 :=
      fun b hb => hzero b (List.mem_append_right _ (List.mem_cons_of_mem _ hb))
    have hsent := hmsg receiver text hr rfl
    rwa [obey_msg _ hr, delivered_sendCmd_iff _ _ _ htail] at hsent

/-- A turn with a line that fits obeys it. -/
theorem Holds.obeyed (h : Holds line) (name : List UInt8) (now : UInt64) {effects : List Effect}
    (he : effects = [(obey name now line).1] ∨ effects = [(obey name now line).1, .prompt]) :
    Obeyed line ⟨line, effects⟩ := by
  refine ⟨rfl, _, he, obey_ne_prompt name now line, ?_, ?_⟩
  · rintro text rfl
    have htail : ∀ b ∈ text, b ≠ 0 := fun b hb => h.no_zero b (List.mem_append_right _ hb)
    rw [obey_broadcast, delivered_sendCmd_iff _ _ _ htail]
    exact h.broadcast text rfl
  · rintro receiver text hr rfl
    have htail : ∀ b ∈ text, b ≠ 0 :=
      fun b hb => h.no_zero b (List.mem_append_right _ (List.mem_cons_of_mem _ hb))
    rw [obey_msg _ hr, delivered_sendCmd_iff _ _ _ htail]
    exact h.msg receiver text hr rfl

/-! ## Lines -/

theorem lines_nil : lines [] = [] := by
  rw [lines, List.splitOn_nil]
  rfl

/-- The first line of a text, unless it is empty, and the lines behind it. -/
theorem lines_append (hl : (10 : UInt8) ∉ l) (hstop : stop = [] ∨ ∃ rest, stop = 10 :: rest) :
    lines (l ++ stop) = (if chomp l = [] then [] else [chomp l]) ++ lines (stop.drop 1) := by
  have hone : [chomp l].filter (· ≠ []) = if chomp l = [] then [] else [chomp l] := by
    by_cases h : chomp l = [] <;> simp [h]
  rcases hstop with rfl | ⟨rest, rfl⟩
  · rw [List.append_nil, lines, List.splitOn_eq_singleton hl, List.map_singleton, hone,
      List.drop_nil, lines_nil, List.append_nil]
  · rw [lines, List.splitOn_append_cons_self_of_not_mem hl, List.map_cons,
      ← List.singleton_append, List.filter_append, hone]
    rfl

theorem eq_newline_of_mem_take (hstop : stop = [] ∨ ∃ rest, stop = 10 :: rest) {b : UInt8}
    (hb : b ∈ stop.take 1) : b = 10 := by
  rcases hstop with rfl | ⟨rest, rfl⟩
  · cases hb
  · exact List.mem_singleton.mp hb

/-- The rest of a line that is all line ends is passed over. -/
theorem commands_blank (name : List UInt8) (clock : Nat → UInt64) (k : Nat)
    (hl : ∀ b ∈ l, b = 13) (hstop : stop = [] ∨ ∃ rest, stop = 10 :: rest) :
    ∃ j, commands (inputLoop name clock k (l ++ stop)) =
      commands (inputLoop name clock j (stop.drop 1)) := by
  induction hn : l.length using Nat.strongRecOn generalizing l k with
  | ind n ih =>
    by_cases hnil : l ++ stop = []
    · obtain ⟨rfl, rfl⟩ := List.append_eq_nil_iff.mp hnil
      exact ⟨k, rfl⟩
    · have hten : (10 : UInt8) ∉ l := by
        intro hm
        exact absurd (hl 10 hm) (by decide)
      have hends : ∀ b ∈ fgetsLine lineSize (l ++ stop), b = 10 ∨ b = 13 := by
        obtain ⟨hshort, hlong⟩ := fgetsLine_split lineSize hten hstop
        intro b hb
        rcases Nat.lt_or_ge l.length (lineSize - 1) with hlt | hge
        · rw [hshort hlt] at hb
          rcases List.mem_append.mp hb with hb | hb
          · exact Or.inr (hl b hb)
          · exact Or.inl (eq_newline_of_mem_take hstop hb)
        · rw [hlong hge] at hb
          exact Or.inr (hl b (List.mem_of_mem_take hb))
      have hzero : ∀ b ∈ fgetsLine lineSize (l ++ stop), b ≠ 0 := by
        intro b hb
        rcases hends b hb with rfl | rfl <;> decide
      have hblank : chomp (cstr (fgetsLine lineSize (l ++ stop))) = [] := by
        have hall := chomp_append (l := []) hends
        rw [List.nil_append] at hall
        rw [cstr_of_forall_ne hzero, hall]
        rfl
      have hstep : commands (inputLoop name clock k (l ++ stop)) =
          commands (inputLoop name clock (k + 1)
            ((l ++ stop).drop (fgetsLine lineSize (l ++ stop)).length)) := by
        rw [inputLoop, dif_neg hnil]
        simp only
        rw [if_pos hblank]
        rfl
      rw [hstep, drop_fgetsLine lineSize hten hstop]
      split
      · exact ⟨k + 1, rfl⟩
      · next hge =>
        have hpos : 0 < lineSize - 1 := by decide
        refine ih (l.drop (lineSize - 1)).length ?_ (k + 1) ?_ rfl
        · rw [← hn, List.length_drop]
          omega
        · exact fun b hb => hl b (List.mem_of_mem_drop hb)

/-- A line is its command and carriage returns. -/
theorem eq_chomp_append (hl : (10 : UInt8) ∉ l) : ∃ t, l = chomp l ++ t ∧ ∀ b ∈ t, b = 13 := by
  obtain ⟨t, ht, hends⟩ := chomp_append_ends l
  refine ⟨t, ht, fun b hb => ?_⟩
  rcases hends b hb with rfl | rfl
  · exact absurd (ht ▸ List.mem_append_right _ hb) hl
  · rfl

/-- The array holds the command of a line that fits, and of what is behind it only line ends. -/
theorem chomp_front (hl : (10 : UInt8) ∉ l) (hfits : Holds (chomp l))
    (hstop : stop = [] ∨ ∃ rest, stop = 10 :: rest) :
    chomp (cstr (fgetsLine lineSize (l ++ stop))) = chomp l := by
  obtain ⟨t, ht, hpad⟩ := eq_chomp_append hl
  obtain ⟨hshort, hlong⟩ := fgetsLine_split lineSize hl hstop
  have hzero : ∀ b ∈ l, b ≠ 0 := by
    intro b hb
    rw [ht] at hb
    rcases List.mem_append.mp hb with hb | hb
    · exact hfits.no_zero b hb
    · rw [hpad b hb]
      decide
  rcases Nat.lt_or_ge l.length (lineSize - 1) with hlt | hge
  · rw [hshort hlt, cstr_of_forall_ne,
      chomp_append fun b hb => Or.inl (eq_newline_of_mem_take hstop hb)]
    intro b hb
    rcases List.mem_append.mp hb with hb | hb
    · exact hzero b hb
    · rw [eq_newline_of_mem_take hstop hb]
      decide
  · have hfront : (chomp l).length ≤ lineSize - 1 := Nat.le_sub_one_of_lt hfits.length_lt
    have hcut : l.take (lineSize - 1) = chomp l ++ t.take (lineSize - 1 - (chomp l).length) := by
      conv_lhs => rw [ht]
      rw [List.take_append, List.take_of_length_le hfront]
    rw [hlong hge, cstr_of_forall_ne fun b hb => hzero b (List.mem_of_mem_take hb), hcut,
      chomp_append fun b hb => Or.inr (hpad b (List.mem_of_mem_take hb)), chomp_chomp]

/-- What the array does not hold of a line that fits is passed over. -/
theorem commands_behind (name : List UInt8) (clock : Nat → UInt64) (k : Nat)
    (hl : (10 : UInt8) ∉ l) (hfits : Holds (chomp l))
    (hstop : stop = [] ∨ ∃ rest, stop = 10 :: rest) :
    ∃ j, commands (inputLoop name clock k
      ((l ++ stop).drop (fgetsLine lineSize (l ++ stop)).length)) =
      commands (inputLoop name clock j (stop.drop 1)) := by
  obtain ⟨t, ht, hpad⟩ := eq_chomp_append hl
  rw [drop_fgetsLine lineSize hl hstop]
  split
  · exact ⟨k, rfl⟩
  · apply commands_blank name clock k _ hstop
    have hfront : (chomp l).length ≤ lineSize - 1 := Nat.le_sub_one_of_lt hfits.length_lt
    have hrest : l.drop (lineSize - 1) = t.drop (lineSize - 1 - (chomp l).length) := by
      conv_lhs => rw [ht]
      rw [List.drop_append, List.drop_eq_nil_of_le hfront, List.nil_append]
    intro b hb
    rw [hrest] at hb
    exact hpad b (List.mem_of_mem_drop hb)

/-- The loop takes a line that fits as it is, and goes on behind it. -/
theorem commands_line (name : List UInt8) (clock : Nat → UInt64) (k : Nat)
    (hl : (10 : UInt8) ∉ l) (hne : chomp l ≠ []) (hfits : Holds (chomp l))
    (hstop : stop = [] ∨ ∃ rest, stop = 10 :: rest) :
    ∃ turn, Obeyed (chomp l) turn ∧ ∃ j, commands (inputLoop name clock k (l ++ stop)) =
      turn :: if chomp l = ascii "/quit" then []
        else commands (inputLoop name clock j (stop.drop 1)) := by
  have hnil : l ++ stop ≠ [] := by
    intro hnil
    rw [(List.append_eq_nil_iff.mp hnil).1] at hne
    exact hne rfl
  obtain ⟨j, hj⟩ := commands_behind name clock (k + 1) hl hfits hstop
  rw [inputLoop, dif_neg hnil]
  simp only [chomp_front hl hfits hstop]
  rw [if_neg hne]
  by_cases hquit : chomp l = ascii "/quit"
  · have hstay : ¬ (obey name (clock k) (chomp l)).2 = true := by
      rw [obey_running]
      exact fun h => h hquit
    refine ⟨_, hfits.obeyed name (clock k) (Or.inl rfl), k, ?_⟩
    rw [if_neg hstay, if_pos hquit]
    simp [commands, hne]
  · have hgo : (obey name (clock k) (chomp l)).2 = true := (obey_running ..).mpr hquit
    refine ⟨_, hfits.obeyed name (clock k) (Or.inr rfl), j, ?_⟩
    rw [if_pos hgo, if_neg hquit, ← hj]
    simp [commands, hne]

theorem exists_turn {ls : List (List UInt8)} {turns : List Turn}
    (h : List.Forall₂ Obeyed ls turns) (hline : line ∈ ls) : ∃ turn ∈ turns, Obeyed line turn := by
  induction h with
  | nil => cases hline
  | cons ho _ ih =>
    rcases List.mem_cons.mp hline with rfl | hline
    · exact ⟨_, List.mem_cons_self, ho⟩
    · obtain ⟨turn, hturn, hobeyed⟩ := ih hline
      exact ⟨turn, List.mem_cons_of_mem _ hturn, hobeyed⟩

/-- A text is its first line and what stops it. -/
theorem exists_line (input : List UInt8) : ∃ l stop, (10 : UInt8) ∉ l ∧
    (stop = [] ∨ ∃ rest, stop = 10 :: rest) ∧ input = l ++ stop := by
  refine ⟨input.takeWhile (· ≠ 10), input.dropWhile (· ≠ 10), ?_, ?_,
    List.takeWhile_append_dropWhile.symm⟩
  · intro hm
    simpa using List.mem_takeWhile_imp hm
  · have hhead := List.head?_dropWhile_not (fun b => decide (b ≠ (10 : UInt8))) input
    cases hdrop : input.dropWhile fun b => decide (b ≠ 10) with
    | nil => exact Or.inl rfl
    | cons b rest =>
      rw [hdrop] at hhead
      have hb : b = 10 := by simpa using hhead
      exact Or.inr ⟨rest, by rw [hb]⟩

/-- From any turn on, lines that fit are taken one by one. -/
theorem forall₂_obeyed (name : List UInt8) (clock : Nat → UInt64) (k : Nat)
    (h : ∀ line ∈ untilQuit (lines input), Holds line) :
    List.Forall₂ Obeyed (untilQuit (lines input)) (commands (inputLoop name clock k input)) := by
  induction hn : input.length using Nat.strongRecOn generalizing input k with
  | ind n ih =>
    by_cases hnil : input = []
    · subst hnil
      rw [lines_nil, inputLoop, dif_pos rfl]
      exact .nil
    · obtain ⟨l, stop, hl, hstop, hsplit⟩ := exists_line input
      have hshort : (stop.drop 1).length < n := by
        have hpos := List.length_pos_iff.mpr hnil
        rw [hsplit, List.length_append] at hn hpos
        rw [List.length_drop]
        omega
      rw [hsplit, lines_append hl hstop] at h ⊢
      by_cases hempty : chomp l = []
      · rw [if_pos hempty, List.nil_append] at h ⊢
        have hpad : ∀ b ∈ l, b = 13 := by
          intro b hb
          obtain ⟨t, ht, hends⟩ := chomp_append_ends l
          rw [hempty, List.nil_append] at ht
          rcases hends b (ht ▸ hb) with rfl | rfl
          · exact absurd hb hl
          · rfl
        obtain ⟨j, hj⟩ := commands_blank name clock k hpad hstop
        rw [hj]
        exact ih _ hshort j h rfl
      · rw [if_neg hempty, List.singleton_append, untilQuit] at h ⊢
        by_cases hquit : chomp l = ascii "/quit"
        · rw [if_pos hquit] at h ⊢
          obtain ⟨turn, hturn, j, hj⟩ :=
            commands_line name clock k hl hempty (h _ List.mem_cons_self) hstop
          rw [hj, if_pos hquit]
          exact .cons hturn .nil
        · rw [if_neg hquit] at h ⊢
          obtain ⟨turn, hturn, j, hj⟩ :=
            commands_line name clock k hl hempty (h _ List.mem_cons_self) hstop
          rw [hj, if_neg hquit]
          exact .cons hturn (ih _ hshort j (fun line hm => h line (List.mem_cons_of_mem _ hm)) rfl)

/-- The part of a long line that fits the array. -/
def longStart : List UInt8 := ascii "/broadcast " ++ List.replicate 1076 97

theorem longStart_spec : longStart.length = lineSize - 1 ∧ (10 : UInt8) ∉ longStart ∧
    (∀ b ∈ longStart, b ≠ 0) ∧ chomp longStart = longStart := by
  have hbytes : ∀ b ∈ longStart, b ∈ ascii "/broadcast " ∨ b = 97 := by
    intro b hb
    rcases List.mem_append.mp hb with hb | hb
    · exact Or.inl hb
    · exact Or.inr (List.eq_of_mem_replicate hb)
  refine ⟨?_, fun hm => ?_, fun b hb => ?_, ?_⟩
  · rw [longStart, List.length_append, List.length_replicate]
    rfl
  · exact absurd (hbytes 10 hm) (by decide)
  · rintro rfl
    exact absurd (hbytes 0 hb) (by decide)
  · rw [longStart, List.replicate_succ' , ← List.append_assoc]
    exact List.rdropWhile_concat_neg _ _ _ (by decide)

theorem longStart_ne_nil : longStart ≠ [] := by
  rw [longStart]
  exact nofun

/-- The line that ends behind the command. -/
theorem longLine_spec : (10 : UInt8) ∉ longStart ++ ascii "/quit" ∧
    longStart ++ ascii "/quit\n" = longStart ++ ascii "/quit" ++ [10] := by
  obtain ⟨-, hten, -, -⟩ := longStart_spec
  constructor
  · rw [List.mem_append, not_or]
    exact ⟨hten, by simp [ascii]⟩
  · rw [List.append_assoc]
    rfl

/-- What does not fit the array is taken for a command of its own, whoever types it. -/
theorem commands_long_line (name : List UInt8) (clock : Nat → UInt64) :
    commands (inputLoop name clock 0 (longStart ++ ascii "/quit\n")) =
      [⟨longStart, [sendCmd name (clock 0) .broadcast [] (List.replicate 1076 97), .prompt]⟩,
        ⟨ascii "/quit", [sendCmd name (clock 1) .logout [] (ascii "Bye")]⟩] := by
  obtain ⟨hlen, -, hzero, hchomp⟩ := longStart_spec
  obtain ⟨hl, hinput⟩ := longLine_spec
  have hnil : longStart ++ ascii "/quit\n" ≠ [] := by
    rw [longStart]
    exact nofun
  have hfirst : fgetsLine lineSize (longStart ++ ascii "/quit\n") = longStart := by
    have hlong := (fgetsLine_split lineSize hl (Or.inr ⟨[], rfl⟩)).2
      (by rw [List.length_append, hlen]; exact Nat.le_add_right _ _)
    rw [hinput, hlong, List.take_left' hlen]
  have hsecond : fgetsLine lineSize (ascii "/quit\n") = ascii "/quit\n" := by decide
  have hend : chomp (cstr (ascii "/quit\n")) = ascii "/quit" := by decide
  rw [inputLoop, dif_neg hnil]
  simp only [hfirst, cstr_of_forall_ne hzero, hchomp]
  have hbroadcast : (obey name (clock 0) longStart) =
      (sendCmd name (clock 0) .broadcast [] (List.replicate 1076 97), true) := by
    apply Prod.ext
    · exact obey_broadcast ..
    · exact (obey_running ..).mpr (by rw [longStart]; exact nofun)
  rw [if_neg longStart_ne_nil, hbroadcast, if_pos rfl, List.drop_left, inputLoop,
    dif_neg (by exact nofun)]
  simp only [hsecond, hend]
  have hleave : ¬ (obey name (clock 1) (ascii "/quit")).2 = true := by
    rw [obey_running]
    exact fun h => h rfl
  rw [if_neg (by exact nofun), if_neg hleave]
  simp only [commands]
  rw [List.filter_cons_of_pos (by simpa using longStart_ne_nil)]
  rfl

end ChatSystem.Client
