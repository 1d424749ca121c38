import Mathlib.Logic.Function.Basic
import ChatSystem.Server.Entry

/-!
# The history store

Each sender has a log file of one line per message. The file system and the
formatting of local time are the host's; the store is a map from paths to
contents. A history reply copies whole `fgets` chunks while they fit.
-/

namespace ChatSystem

open Bytes

/-- What the host contributes: `strftime` of `localtime`, and which logs can be opened. -/
structure Host where
  timeText : UInt64 → List UInt8
  canAppend : List UInt8 → Bool

/-- The files of the history directory, by path. -/
abbrev History := List UInt8 → Option (List UInt8)

/-- `snprintf(path, 128, "%s/%s.log", HISTORY_DIR, from)`. -/
def historyPath (sender : List UInt8) : List UInt8 :=
  snprintf 128 (ascii "./history/" ++ sender ++ ascii ".log")

/-- The line `save_history` prints. -/
def historyLine (host : Host) (receiver text : List UInt8) (ts : UInt64) : List UInt8 :=
  ascii "[" ++ host.timeText ts ++ ascii "]" ++
    (if receiver.isEmpty then ascii " BROADCAST : "
      else ascii " -> " ++ receiver ++ ascii " : ") ++
    text ++ [10]

/-- `save_history(from, to, text, ts)`. -/
def saveHistory (host : Host) (h : History) (sender receiver text : List UInt8) (ts : UInt64) :
    History :=
  if host.canAppend (historyPath sender) then
    Function.update h (historyPath sender)
      (some ((h (historyPath sender)).getD [] ++ historyLine host receiver text ts))
  else h

/-- The bytes one `fgets(line, size, f)` stores: up to `size - 1`, through a newline. -/
def fgetsLine (size : Nat) (content : List UInt8) : List UInt8 :=
  let window := content.take (size - 1)
  let text := window.takeWhile (· ≠ 10)
  if text.length < window.length then text ++ [10] else window

/-- A buffer of two bytes or more takes a byte off the file. -/
theorem fgetsLine_pos {size : Nat} (hsize : 1 < size) {content : List UInt8} (h : content ≠ []) :
    0 < (fgetsLine size content).length := by
  have hpos := List.length_pos_iff.mpr h
  simp only [fgetsLine]
  split
  · simp
  · simp only [List.length_take]
    omega

/-- `while (fgets(line, ..) && tot + strlen(line) < MAX_PAYLOAD_LEN - 1) strcat(buf, line)`. -/
def historyLoop (content buf : List UInt8) : List UInt8 :=
  if _h : content = [] then buf
  else
    let line := fgetsLine 256 content
    if buf.length + (cstr line).length < maxPayloadLen - 1 then
      historyLoop (content.drop line.length) (buf ++ cstr line)
    else buf
termination_by content.length
decreasing_by
  have := fgetsLine_pos (show 1 < 256 by decide) _h
  have := List.length_pos_iff.mpr _h
  simp only [List.length_drop]
  omega

/-- The payload of a history reply for a sender name. -/
def historyPayload (h : History) (sender : List UInt8) : List UInt8 :=
  let buf := historyLoop ((h (historyPath sender)).getD []) []
  if buf.isEmpty then ascii "No history." else buf

/-- What one event of a server sees of its surroundings. -/
structure Env where
  /-- The result of `time(NULL)`. -/
  now : UInt64
  /-- The configured discovery server. -/
  disc : Discovery
  /-- Local time and the file system. -/
  host : Host

/-! ## The front of a reply -/

theorem length_fgetsLine_le (size : Nat) (content : List UInt8) :
    (fgetsLine size content).length ≤ size - 1 := by
  have hlen : (content.take (size - 1)).length ≤ size - 1 := List.length_take_le _ _
  simp only [fgetsLine]
  split
  · next hlt =>
    simp only [List.length_append, List.length_singleton]
    omega
  · exact hlen

/-- The reply buffer only grows. -/
theorem historyLoop_prefix (content buf : List UInt8) : buf <+: historyLoop content buf := by
  fun_induction historyLoop content buf with
  | case1 => exact List.prefix_refl _
  | case2 content buf _ line _ ih => exact (List.prefix_append buf (cstr line)).trans ih
  | case3 => exact List.prefix_refl _

/-- A history reply starts with the first byte of the log. -/
theorem head_historyLoop {content : List UInt8} {b : UInt8} (hb : content.head? = some b)
    (h0 : b ≠ 0) (h10 : b ≠ 10) : (historyLoop content []).head? = some b := by
  obtain ⟨rest, rfl⟩ := List.head?_eq_some_iff.mp hb
  have hline : ∃ t, fgetsLine 256 (b :: rest) = b :: t := by
    simp only [fgetsLine, List.take_succ_cons, List.takeWhile_cons, ne_eq, h10, not_false_eq_true,
      decide_true, if_true]
    split
    · exact ⟨_, rfl⟩
    · exact ⟨_, rfl⟩
  obtain ⟨t, ht⟩ := hline
  have hcstr : cstr (b :: t) = b :: cstr t := by
    simp only [cstr, List.takeWhile_cons, ne_eq, h0, not_false_eq_true, decide_true, if_true]
  have hlen : (cstr (fgetsLine 256 (b :: rest))).length < maxPayloadLen - 1 := by
    have h₁ : (fgetsLine 256 (b :: rest)).length ≤ 255 := length_fgetsLine_le 256 _
    have h₂ := (List.takeWhile_sublist (l := fgetsLine 256 (b :: rest)) (· ≠ 0)).length_le
    have h₃ : 255 < maxPayloadLen - 1 := by decide
    exact Nat.lt_of_le_of_lt (h₂.trans h₁) h₃
  rw [historyLoop, dif_neg (List.cons_ne_nil b rest)]
  simp only [List.length_nil, Nat.zero_add, hlen, if_true, List.nil_append]
  have hpre := historyLoop_prefix ((b :: rest).drop (fgetsLine 256 (b :: rest)).length)
    (cstr (fgetsLine 256 (b :: rest)))
  obtain ⟨tail, htail⟩ := hpre
  rw [← htail, ht, hcstr]
  rfl

/-- A history reply starts with the first byte of the log, if there is one. -/
theorem head_historyPayload {h : History} {sender : List UInt8} {b : UInt8}
    (hb : ((h (historyPath sender)).getD []).head? = some b) (h0 : b ≠ 0) (h10 : b ≠ 10) :
    (historyPayload h sender).head? = some b := by
  have hhead := head_historyLoop hb h0 h10
  have hne : (historyLoop ((h (historyPath sender)).getD []) []).isEmpty = false := by
    cases hl : historyLoop ((h (historyPath sender)).getD []) [] with
    | nil =>
      rw [hl] at hhead
      cases hhead
    | cons x xs => rfl
  simp only [historyPayload, hne, Bool.false_eq_true, if_false]
  exact hhead

/-- The answer for an empty log. -/
theorem historyPayload_of_nil {h : History} {sender : List UInt8}
    (hb : (h (historyPath sender)).getD [] = []) :
    historyPayload h sender = ascii "No history." := by
  rw [historyPayload, hb, historyLoop, dif_pos rfl]
  rfl

end ChatSystem
