import ChatSystem.Protocol.Codec
import ChatSystem.Server.Replies

/-!
# The buffer of a history reply

The loop of `MSG_HISTORY_REQ` on its array `buf`, where a `strcat` that leaves the array fails.
It copies whole `fgets` chunks while the string stays below `MAX_PAYLOAD_LEN - 1`, so it ends
with the whole log or with at least 768 bytes of it.
-/

namespace ChatSystem

open Bytes

/-- `strcat(a, s)` on a list that holds the whole array; `none` where it leaves the array. -/
def strcat (a s : List UInt8) : Option (List UInt8) :=
  if (cstr a).length + (cstr s).length + 1 ≤ a.length then
    some (writeAt a (cstr a).length (cstr s ++ [0]))
  else none

/-- The loop of `MSG_HISTORY_REQ`, with `buf` and `tot`. -/
def fillHistory (content buf : List UInt8) (tot : Nat) : Option (List UInt8) :=
  if _h : content = [] then some buf
  else
    let line := fgetsLine 256 content
    if tot + (cstr line).length < maxPayloadLen - 1 then
      (strcat buf line).bind fun buf =>
        fillHistory (content.drop line.length) buf (tot + (cstr line).length)
    else some buf
termination_by content.length
decreasing_by
  have := fgetsLine_pos (show 1 < 256 by decide) _h
  have := List.length_pos_iff.mpr _h
  simp only [List.length_drop]
  omega

/-- What successive `fgets(line, 256, f)` calls read. -/
def fgetsChunks (content : List UInt8) : List (List UInt8) :=
  if _h : content = [] then []
  else fgetsLine 256 content :: fgetsChunks (content.drop (fgetsLine 256 content).length)
termination_by content.length
decreasing_by
  have := fgetsLine_pos (show 1 < 256 by decide) _h
  have := List.length_pos_iff.mpr _h
  simp only [List.length_drop]
  omega

/-! ## Chunks -/

/-- `fgets` reads the front of the file. -/
theorem isPrefix_fgetsLine (size : Nat) (content : List UInt8) :
    fgetsLine size content <+: content := by
  have hwindow : content.take (size - 1) <+: content := List.take_prefix _ _
  simp only [fgetsLine]
  split
  · next hlt =>
    apply List.IsPrefix.trans ?_ hwindow
    generalize content.take (size - 1) = window at hlt
    have happ := List.takeWhile_append_dropWhile (p := fun b => decide (b ≠ (10 : UInt8)))
      (l := window)
    cases hdrop : window.dropWhile fun b => decide (b ≠ 10) with
    | nil =>
      rw [hdrop, List.append_nil] at happ
      rw [happ] at hlt
      exact absurd hlt (Nat.lt_irrefl _)
    | cons b rest =>
      have hb := List.head?_dropWhile_not (fun b => decide (b ≠ (10 : UInt8))) window
      rw [hdrop] at hb happ
      have hten : b = 10 := by simpa using hb
      use rest
      subst hten
      rw [List.append_assoc, List.singleton_append]
      exact happ
  · exact hwindow

/-- A chunk is a line, or 255 bytes of a longer one, or the end of the file. -/
theorem fgetsLine_cases (content : List UInt8) :
    (∃ text, (10 : UInt8) ∉ text ∧ text.length < 255 ∧ fgetsLine 256 content = text ++ [10]) ∨
      ((10 : UInt8) ∉ fgetsLine 256 content ∧
        ((fgetsLine 256 content).length = 255 ∨ fgetsLine 256 content = content)) := by
  have hwindow : (content.take 255).length ≤ 255 := List.length_take_le _ _
  have htext : (10 : UInt8) ∉ (content.take 255).takeWhile (· ≠ 10) := by
    intro hm
    simpa using List.mem_takeWhile_imp hm
  simp only [fgetsLine, Nat.add_one_sub_one]
  split
  · next hlt => exact Or.inl ⟨_, htext, by omega, rfl⟩
  · next hge =>
    have hall : (content.take 255).takeWhile (· ≠ 10) = content.take 255 :=
      (List.takeWhile_prefix _).eq_of_length_le (Nat.not_lt.mp hge)
    rw [hall] at htext
    refine Or.inr ⟨htext, ?_⟩
    by_cases hlen : 255 ≤ content.length
    · exact Or.inl (by rw [List.length_take]; omega)
    · exact Or.inr (List.take_of_length_le (by omega))

/-- The chunks make up the file. -/
theorem flatten_fgetsChunks (content : List UInt8) : (fgetsChunks content).flatten = content := by
  fun_induction fgetsChunks content with
  | case1 => rfl
  | case2 content h ih =>
    rw [List.flatten_cons, ih]
    have hpre := List.prefix_iff_eq_append.mp (isPrefix_fgetsLine 256 content)
    exact hpre

/-- A chunk that is not the last one is a line, or 255 bytes of a longer one. -/
theorem fgetsChunks_cut {content chunk : List UInt8} {pre post : List (List UInt8)}
    (h : fgetsChunks content = pre ++ chunk :: post) (hpost : post ≠ []) :
    (∃ line, (10 : UInt8) ∉ line ∧ chunk = line ++ [10]) ∨
      (10 : UInt8) ∉ chunk ∧ chunk.length = 255 := by
  fun_induction fgetsChunks content generalizing pre with
  | case1 => simp at h
  | case2 content hne ih =>
    cases pre with
    | nil =>
      obtain ⟨rfl, rfl⟩ := List.cons.inj h
      rcases fgetsLine_cases content with ⟨line, hline, -, heq⟩ | ⟨hline, hlong | hlast⟩
      · exact Or.inl ⟨line, hline, heq⟩
      · exact Or.inr ⟨hline, hlong⟩
      · rw [hlast, List.drop_length, fgetsChunks, dif_pos rfl] at hpost
        exact absurd rfl hpost
    | cons first pre => exact ih (List.cons.inj h).2

/-! ## The array -/

/-- `strcat` behind a string that is padded with zeros. -/
theorem strcat_padded {s line : List UInt8} {k : Nat} (hs : ∀ b ∈ s, b ≠ 0)
    (hk : (cstr line).length < k) :
    strcat (s ++ List.replicate k 0) line =
      some ((s ++ cstr line) ++ List.replicate (k - (cstr line).length) 0) := by
  have hstr : cstr (s ++ List.replicate k 0) = s := cstr_append_replicate hs k
  have hfits : s.length + (cstr line).length + 1 ≤ (s ++ List.replicate k (0 : UInt8)).length := by
    simp only [List.length_append, List.length_replicate]
    omega
  have hdrop : (s ++ List.replicate k (0 : UInt8)).drop (s.length + (cstr line ++ [0]).length) =
      List.replicate (k - (cstr line).length - 1) 0 := by
    rw [List.drop_length_add_append, List.drop_replicate, List.length_append,
      List.length_singleton, Nat.sub_sub]
  have hzeros : List.replicate (k - (cstr line).length) (0 : UInt8) =
      0 :: List.replicate (k - (cstr line).length - 1) 0 := by
    rw [← List.replicate_succ]
    congr 1
    omega
  rw [strcat, hstr, if_pos hfits, writeAt, List.take_left, hdrop, hzeros]
  simp only [List.append_assoc, List.cons_append, List.nil_append]

/-- The array holds the string of `historyLoop`, and no `strcat` leaves it. -/
theorem fillHistory_eq (content s : List UInt8) (hs : ∀ b ∈ s, b ≠ 0)
    (hlen : s.length < maxPayloadLen - 1) :
    (∀ b ∈ historyLoop content s, b ≠ 0) ∧
      (historyLoop content s).length < maxPayloadLen - 1 ∧
      fillHistory content (s ++ List.replicate (maxPayloadLen - s.length) 0) s.length =
        some (historyLoop content s ++
          List.replicate (maxPayloadLen - (historyLoop content s).length) 0) := by
  fun_induction historyLoop content s with
  | case1 s =>
    rw [fillHistory, dif_pos rfl]
    exact ⟨hs, hlen, rfl⟩
  | case2 content s hne line hfits ih =>
    have hgrown : ∀ b ∈ s ++ cstr line, b ≠ 0 := by
      intro b hb
      exact (List.mem_append.mp hb).elim (hs b) mem_cstr
    have hcat : strcat (s ++ List.replicate (maxPayloadLen - s.length) 0) line =
        some ((s ++ cstr line) ++
          List.replicate (maxPayloadLen - (s ++ cstr line).length) 0) := by
      rw [strcat_padded hs (by omega), List.length_append, Nat.sub_add_eq]
    rw [fillHistory, dif_neg hne]
    simp only
    rw [if_pos hfits, hcat, Option.bind_some, ← List.length_append]
    exact ih hgrown (by rw [List.length_append]; exact hfits)
  | case3 content s hne line hfull =>
    rw [fillHistory, dif_neg hne]
    simp only
    rw [if_neg hfull]
    exact ⟨hs, hlen, rfl⟩

/-! ## The text -/

/-- The text is made of the first chunks of the log: of all of them, or of at least 768 bytes
when the next one would not fit. -/
theorem historyLoop_chunks (content s : List UInt8) (hcontent : ∀ b ∈ content, b ≠ 0) :
    historyLoop content s = s ++ content ∨
      maxPayloadLen - 1 ≤ s.length + content.length ∧
        768 ≤ (historyLoop content s).length ∧
        ∃ k, historyLoop content s = s ++ ((fgetsChunks content).take k).flatten := by
  fun_induction historyLoop content s with
  | case1 s => exact Or.inl (List.append_nil s).symm
  | case2 content s hne line hfits ih =>
    have hpre : line ++ content.drop line.length = content :=
      List.prefix_iff_eq_append.mp (isPrefix_fgetsLine 256 content)
    have hline : cstr line = line := by
      apply cstr_of_forall_ne
      intro b hb
      exact hcontent b ((isPrefix_fgetsLine 256 content).subset hb)
    have hlength : line.length + (content.drop line.length).length = content.length := by
      rw [← List.length_append, hpre]
    rw [hline] at ih ⊢
    rcases ih fun b hb => hcontent b (List.mem_of_mem_drop hb) with hall | ⟨hmore, hlong, k, hk⟩
    · left
      rw [hall, List.append_assoc, hpre]
    · right
      rw [List.length_append, Nat.add_assoc, hlength] at hmore
      refine ⟨hmore, hlong, k + 1, ?_⟩
      have hchunks : fgetsChunks content = line :: fgetsChunks (content.drop line.length) := by
        rw [fgetsChunks, dif_neg hne]
      rw [hk, hchunks, List.take_succ_cons, List.flatten_cons, List.append_assoc]
  | case3 content s hne line hfull =>
    right
    have hpre : line <+: content := isPrefix_fgetsLine 256 content
    have hshort : line.length ≤ 255 := length_fgetsLine_le 256 content
    have hcstr : (cstr line).length ≤ line.length := length_cstr_le line
    have hmax : maxPayloadLen = 1024 := rfl
    refine ⟨?_, by omega, 0, by simp⟩
    have hle := hpre.length_le
    omega

/-- The text is empty only when the log is. -/
theorem historyLoop_eq_nil_iff {content : List UInt8} (hcontent : ∀ b ∈ content, b ≠ 0) :
    historyLoop content [] = [] ↔ content = [] := by
  constructor
  · intro hnil
    rcases historyLoop_chunks content [] hcontent with hall | ⟨-, hlong, -⟩
    · rw [hall] at hnil
      exact hnil
    · rw [hnil] at hlong
      exact absurd hlong (by simp)
  · rintro rfl
    rw [historyLoop, dif_pos rfl]

/-- A text that stops inside the log stops behind a chunk. -/
theorem take_fgetsChunks_cut {content text : List UInt8} {k : Nat}
    (htext : text = ((fgetsChunks content).take k).flatten) (hne : text ≠ [])
    (hcut : text ≠ content) :
    ∃ before chunk after, fgetsChunks content = before ++ chunk :: after ∧
      text = before.flatten ++ chunk ∧
      ((∃ line, (10 : UInt8) ∉ line ∧ chunk = line ++ [10]) ∨
        (10 : UInt8) ∉ chunk ∧ chunk.length = 255) := by
  have hwhole := List.take_append_drop k (fgetsChunks content)
  rcases List.eq_nil_or_concat ((fgetsChunks content).take k) with hnil | ⟨before, chunk, hlast⟩
  · rw [hnil] at htext
    exact absurd htext hne
  · rw [hlast, List.concat_eq_append, List.append_assoc, List.singleton_append] at hwhole
    rw [hlast, List.concat_eq_append, List.flatten_concat] at htext
    refine ⟨before, chunk, _, hwhole.symm, htext, fgetsChunks_cut hwhole.symm ?_⟩
    intro hdone
    rw [hdone] at hwhole
    have hall := flatten_fgetsChunks content
    rw [← hwhole, List.flatten_concat, ← htext] at hall
    exact hcut hall

/-- The reply carries the text, or its default for an empty log. -/
theorem payloadStr_historyResponse (now : UInt64) (h : History) (m : Message)
    {content : List UInt8} (hfile : (h (historyPath m.senderStr)).getD [] = content)
    (hcontent : ∀ b ∈ content, b ≠ 0) :
    (historyResponse now m h).payloadStr =
      if content = [] then ascii "No history." else historyLoop content [] := by
  have hpayload : historyPayload h m.senderStr =
      if content = [] then ascii "No history." else historyLoop content [] := by
    simp only [historyPayload, hfile, List.isEmpty_iff, historyLoop_eq_nil_iff hcontent]
  obtain ⟨htext, hlen, -⟩ := fillHistory_eq content [] (by simp) (by decide)
  have hmax : maxPayloadLen = 1024 := rfl
  rw [historyResponse, payloadStr_makeMessage, hpayload]
  split
  · rfl
  · rw [cstr_of_forall_ne htext, List.take_of_length_le (by omega)]

/-- The text of a history reply is the log, or ends behind a chunk that leaves no room for the
next one. -/
theorem history_reply_text (now : UInt64) (h : History) (m : Message)
    {content : List UInt8} (hfile : (h (historyPath m.senderStr)).getD [] = content)
    (hcontent : ∀ b ∈ content, b ≠ 0) :
    ∃ buf text, fillHistory content (zeros maxPayloadLen).toList 0 = some buf ∧
      buf.length = maxPayloadLen ∧ cstr buf = text ∧ text.length < maxPayloadLen ∧
      (content.length ≤ 1022 → text = content) ∧
      (1022 < content.length →
        768 ≤ text.length ∧ text.length ≤ 1022 ∧ text <+: content ∧
        ∃ before chunk after, fgetsChunks content = before ++ chunk :: after ∧
          text = before.flatten ++ chunk ∧
          ((∃ line, (10 : UInt8) ∉ line ∧ chunk = line ++ [10]) ∨
            (10 : UInt8) ∉ chunk ∧ chunk.length = 255)) ∧
      (historyResponse now m h).payloadStr =
        (if content = [] then ascii "No history." else text) ∧
      (historyResponse now m h).payloadLen.toNat = (historyResponse now m h).payloadStr.length := by
  obtain ⟨htext, hlen, hfill⟩ := fillHistory_eq content [] (by simp) (by decide)
  have hmax : maxPayloadLen = 1024 := rfl
  refine ⟨_, _, hfill, ?_, cstr_append_replicate htext _, by omega, ?_, ?_,
    payloadStr_historyResponse now h m hfile hcontent, ?_⟩
  · rw [List.length_append, List.length_replicate]
    omega
  · intro hshort
    rcases historyLoop_chunks content [] hcontent with hall | ⟨hmore, -, -⟩
    · exact hall
    · rw [List.length_nil] at hmore
      omega
  · intro hover
    rcases historyLoop_chunks content [] hcontent with hall | ⟨-, hlong, k, hk⟩
    · rw [hall, List.nil_append] at hlen
      omega
    · rw [List.nil_append] at hk
      have hcut := take_fgetsChunks_cut hk (by rintro hnil; simp [hnil] at hlong)
        (by intro hall; rw [hall] at hlen; omega)
      refine ⟨hlong, by omega, ?_, hcut⟩
      rw [hk]
      conv_rhs => rw [← flatten_fgetsChunks content]
      exact List.IsPrefix.flatten (List.take_prefix k _)
  · rw [historyResponse, payloadLen_makeMessage, payloadStr_makeMessage, List.length_take,
      Nat.min_comm]

/-- A log of one line of 2000 bytes. -/
theorem history_reply_text_long_line :
    ∃ text, 768 ≤ text.length ∧ text <+: List.replicate 2000 120 ∧
      (historyResponse 0 (makeMessage 0 .historyReq (ascii "a") [] [])
        fun _ => some (List.replicate 2000 120)).payloadStr = text := by
  have hzero : ∀ b ∈ List.replicate 2000 (120 : UInt8), b ≠ 0 := by
    intro b hb
    rw [List.eq_of_mem_replicate hb]
    decide
  have hne : List.replicate 2000 (120 : UInt8) ≠ [] := by
    rw [ne_eq, List.replicate_eq_nil_iff]
    decide
  obtain ⟨-, text, -, -, -, -, -, hlong, hreply, -⟩ :=
    history_reply_text 0 (fun _ => some (List.replicate 2000 120))
      (makeMessage 0 .historyReq (ascii "a") [] [])
      (show _ = List.replicate 2000 (120 : UInt8) from rfl) hzero
  obtain ⟨hlen, -, hpre, -⟩ := hlong (by rw [List.length_replicate]; decide)
  rw [if_neg hne] at hreply
  exact ⟨text, hlen, hpre, hreply⟩

end ChatSystem
