import ChatSystem.Core.Calendar
import ChatSystem.Core.Decimal
import ChatSystem.Server.Replies

/-!
# Local time in the history

`save_history` hands the result of `localtime` to `strftime` without looking at it. The time
zone is the host's; `localtime` has no result where the year does not fit its field.
-/

namespace ChatSystem

open Bytes Calendar

/-- A time zone: the seconds east of Greenwich at an instant. -/
abbrev Zone := Int → Int

/-- `(time_t)msg->timestamp`. -/
def timeT (ts : UInt64) : Int := ts.toInt64.toInt

/-- The seconds of the local clock. -/
def Zone.local (zone : Zone) (ts : UInt64) : Int := timeT ts + zone (timeT ts)

/-- `localtime(&ts)`; `none` is the null pointer. `tm_year` is an `int` and counts from 1900. -/
def localtime (zone : Zone) (ts : UInt64) : Option Moment :=
  let tm := momentOf (zone.local ts)
  if -2147483648 ≤ tm.year - 1900 ∧ tm.year - 1900 ≤ 2147483647 then some tm else none

/-- `%02d`. -/
def twoDigits (n : Nat) : List UInt8 := [UInt8.ofNat (48 + n / 10), UInt8.ofNat (48 + n % 10)]

/-- `%Y-%m-%d %H:%M:%S`. -/
def momentText (tm : Moment) : List UInt8 :=
  Scan.decimal tm.year ++ (45 :: twoDigits (tm.month + 1) ++ 45 :: twoDigits (tm.day + 1) ++
    32 :: twoDigits tm.hour ++ 58 :: twoDigits tm.minute ++ 58 :: twoDigits tm.second)

/-- `strftime(tb, size, "%Y-%m-%d %H:%M:%S", tm)`; `none` leaves `tb` indeterminate. -/
def strftime (size : Nat) (tm : Moment) : Option (List UInt8) :=
  if (momentText tm).length < size then some (momentText tm) else none

/-- The local seconds whose year fits `tm_year`. -/
def Zone.InRange (zone : Zone) (ts : UInt64) : Prop :=
  -67768040609740800 ≤ zone.local ts ∧ zone.local ts ≤ 67768036191676799

instance (zone : Zone) (ts : UInt64) : Decidable (zone.InRange ts) :=
  inferInstanceAs (Decidable (_ ∧ _))

/-- The host of a time zone. -/
def Zone.host (zone : Zone) (canAppend : List UInt8 → Bool) : Host where
  timeText ts := ((localtime zone ts).bind (strftime 32)).getD []
  canAppend := canAppend

/-- `save_history(from, to, text, ts)`; `none` where a result that is absent is used. -/
def saveHistory? (zone : Zone) (canAppend : List UInt8 → Bool) (h : History)
    (sender receiver text : List UInt8) (ts : UInt64) : Option History :=
  if canAppend (historyPath sender) then do
    let tm ← localtime zone ts
    let tb ← strftime 32 tm
    return Function.update h (historyPath sender)
      (some ((h (historyPath sender)).getD [] ++
        historyLine ⟨fun _ => tb, canAppend⟩ receiver text ts))
  else some h

/-! ## The range of local time -/

variable {zone : Zone} {ts : UInt64}

/-- There is a local time exactly in a range of seconds. -/
theorem localtime_eq (zone : Zone) (ts : UInt64) :
    localtime zone ts = if zone.InRange ts then some (momentOf (zone.local ts)) else none := by
  have hyear : (-2147483648 ≤ (momentOf (zone.local ts)).year - 1900 ∧
      (momentOf (zone.local ts)).year - 1900 ≤ 2147483647) ↔ zone.InRange ts := by
    have h := @year_momentOf_iff (zone.local ts) (-2147481748) 2147485547
    have hlow : yearStart (-2147481748) * 86400 = -67768040609740800 := by decide
    have hhigh : yearStart (2147485547 + 1) * 86400 = 67768036191676800 := by decide
    rw [hlow, hhigh] at h
    unfold Zone.InRange
    omega
  rw [localtime]
  simp only [hyear]

theorem length_twoDigits (n : Nat) : (twoDigits n).length = 2 := rfl

/-- A number of at most ten digits takes at most eleven bytes. -/
theorem length_decimal_le {v : Int} (h : v.natAbs < 10 ^ 10) : (Scan.decimal v).length ≤ 11 := by
  have hdigits := (Nat.length_toDigits_le_iff (b := 10) (k := 10) (by decide) (by decide)).mpr h
  rw [Scan.decimal, List.length_append, List.length_map]
  split
  · rw [List.length_singleton]
    omega
  · rw [List.length_nil]
    omega

/-- The text of a local time and its terminator fit the 32 bytes they are written to. -/
theorem strftime_of_inRange (h : zone.InRange ts) :
    strftime 32 (momentOf (zone.local ts)) = some (momentText (momentOf (zone.local ts))) := by
  have hsome := localtime_eq zone ts
  rw [if_pos h, localtime] at hsome
  have hyear : -2147483648 ≤ (momentOf (zone.local ts)).year - 1900 ∧
      (momentOf (zone.local ts)).year - 1900 ≤ 2147483647 := by
    by_contra hn
    rw [if_neg hn] at hsome
    cases hsome
  have hlen := length_decimal_le (v := (momentOf (zone.local ts)).year) (by omega)
  rw [strftime, if_pos]
  simp only [momentText, List.length_append, List.length_cons, length_twoDigits]
  omega

/-- Formatting a timestamp needs a local time, and nothing else. -/
theorem timeText_of_inRange (h : zone.InRange ts) (canAppend : List UInt8 → Bool) :
    (zone.host canAppend).timeText ts = momentText (momentOf (zone.local ts)) := by
  simp only [Zone.host, localtime_eq, if_pos h, Option.bind_some, strftime_of_inRange h,
    Option.getD_some]

/-- `save_history` completes unless it opens a log and there is no local time. -/
theorem saveHistory?_eq (zone : Zone) (canAppend : List UInt8 → Bool) (h : History)
    (sender receiver text : List UInt8) (ts : UInt64) :
    saveHistory? zone canAppend h sender receiver text ts =
      if canAppend (historyPath sender) = true → zone.InRange ts then
        some (saveHistory (zone.host canAppend) h sender receiver text ts)
      else none := by
  rw [saveHistory?, saveHistory]
  change (if canAppend (historyPath sender) = true then _ else _) =
    if _ then some (if canAppend (historyPath sender) = true then _ else _) else none
  by_cases hopen : canAppend (historyPath sender) = true
  · rw [if_pos hopen, if_pos hopen, localtime_eq]
    by_cases hr : zone.InRange ts
    · rw [if_pos hr, if_pos fun _ => hr]
      simp only [Option.bind_eq_bind, Option.bind_some, strftime_of_inRange hr, historyLine,
        timeText_of_inRange hr]
      rfl
    · rw [if_neg hr, if_neg fun h => hr (h hopen)]
      rfl
  · rw [if_neg hopen, if_neg hopen, if_pos fun h => absurd h hopen]

/-! ## The text of a local time -/

theorem isDigit_of_mem_twoDigits {n : Nat} (h : n < 100) {b : UInt8} (hb : b ∈ twoDigits n) :
    Scan.isDigit b = true := by
  rcases List.mem_cons.mp hb with rfl | hb
  · exact Scan.isDigit_digit (by omega)
  · rw [List.mem_singleton.mp hb]
    exact Scan.isDigit_digit (by omega)

theorem twoDigits_inj {n k : Nat} (hn : n < 100) (hk : k < 100) (h : twoDigits n = twoDigits k) :
    n = k := by
  obtain ⟨htens, hrest⟩ := List.cons.inj h
  obtain ⟨hones, -⟩ := List.cons.inj hrest
  have ht := congrArg UInt8.toNat htens
  have ho := congrArg UInt8.toNat hones
  rw [Scan.toNat_digit (by omega), Scan.toNat_digit (by omega)] at ht ho
  omega

/-- A text of digits, dashes, colons and a space. -/
theorem of_mem_momentText {s : Int} {b : UInt8} (h : b ∈ momentText (momentOf s)) :
    b ∈ [45, 32, 58] ∨ Scan.isDigit b = true := by
  obtain ⟨h1, h2, h3, h4, h5⟩ := momentOf_bounds s
  simp only [momentText, List.mem_append, List.mem_cons] at h
  rcases h with h | (((((rfl | h) | rfl | h) | rfl | h) | rfl | h) | rfl | h)
  · rcases Scan.of_mem_decimal h with rfl | h
    · simp
    · exact Or.inr h
  all_goals first
    | simp; done
    | exact Or.inr (isDigit_of_mem_twoDigits (by omega) h)

/-- The text of a local time determines its second. -/
theorem momentText_inj {s s' : Int} (h : momentText (momentOf s) = momentText (momentOf s')) :
    s = s' := by
  obtain ⟨a1, a2, a3, a4, a5⟩ := momentOf_bounds s
  obtain ⟨b1, b2, b3, b4, b5⟩ := momentOf_bounds s'
  obtain ⟨hyear, h⟩ := List.append_inj' h rfl
  obtain ⟨h, hsecond⟩ := List.append_inj' h rfl
  obtain ⟨h, hminute⟩ := List.append_inj' h rfl
  obtain ⟨h, hhour⟩ := List.append_inj' h rfl
  obtain ⟨hmonth, hday⟩ := List.append_inj' h rfl
  have e1 := Scan.decimal_injective hyear
  have e2 := twoDigits_inj (by omega) (by omega) (List.cons.inj hmonth).2
  have e3 := twoDigits_inj (by omega) (by omega) (List.cons.inj hday).2
  have e4 := twoDigits_inj (by omega) (by omega) (List.cons.inj hhour).2
  have e5 := twoDigits_inj (by omega) (by omega) (List.cons.inj hminute).2
  have e6 := twoDigits_inj (by omega) (by omega) (List.cons.inj hsecond).2
  have hmoment : momentOf s = momentOf s' := by
    ext
    · rw [e1]
    · omega
    · omega
    · rw [e4]
    · rw [e5]
    · rw [e6]
  rw [← secondOf_momentOf s, hmoment, secondOf_momentOf]

end ChatSystem
