import Mathlib.Data.Int.SuccPred
import Mathlib.Order.SuccPred.Basic
import Mathlib.Tactic.SplitIfs

/-!
# The civil calendar

Days are numbered from the first of January 1970. A year owns the days from its first one up
to the first one of the next year; within a year the months own consecutive runs of days. A
second is a date with a time of the day.
-/

namespace Calendar

/-! ## Years -/

/-- The leap years of the Gregorian calendar. -/
def isLeap (y : Int) : Bool := y % 4 == 0 && (y % 100 != 0 || y % 400 == 0)

/-- The leap years from year 1 on that lie before the year. -/
def leapsBefore (y : Int) : Int := (y - 1) / 4 - (y - 1) / 100 + (y - 1) / 400

/-- The first day of a year. -/
def yearStart (y : Int) : Int := 365 * (y - 1970) + (leapsBefore y - leapsBefore 1970)

/-- The year of a day: a guess by the mean length of a year is off by one at most. -/
def yearOf (d : Int) : Int :=
  let guess := 1970 + 400 * d / 146097
  if d < yearStart guess then guess - 1
  else if yearStart (guess + 1) ≤ d then guess + 1
  else guess

theorem isLeap_iff (y : Int) : isLeap y = true ↔ y % 4 = 0 ∧ (y % 100 ≠ 0 ∨ y % 400 = 0) := by
  simp [isLeap]

theorem yearStart_le (y : Int) : 400 * yearStart y ≤ 146097 * (y - 1970) + 589 := by
  unfold yearStart leapsBefore
  omega

theorem le_yearStart (y : Int) : 146097 * (y - 1970) - 506 ≤ 400 * yearStart y := by
  unfold yearStart leapsBefore
  omega

/-- A year has 365 days, or 366 of them. -/
theorem yearStart_succ (y : Int) :
    yearStart (y + 1) = yearStart y + if isLeap y then 366 else 365 := by
  have h4 : y / 4 = (y - 1) / 4 + if y % 4 = 0 then 1 else 0 := by split <;> omega
  have h100 : y / 100 = (y - 1) / 100 + if y % 100 = 0 then 1 else 0 := by split <;> omega
  have h400 : y / 400 = (y - 1) / 400 + if y % 400 = 0 then 1 else 0 := by split <;> omega
  unfold yearStart leapsBefore
  rw [Int.add_sub_cancel, h4, h100, h400]
  simp only [isLeap_iff]
  split_ifs <;> omega

theorem yearStart_mono {x y : Int} (h : x ≤ y) : yearStart x ≤ yearStart y := by
  apply monotone_int_of_le_succ _ h
  intro z
  rw [yearStart_succ]
  split <;> omega

/-- A day is not before its year. -/
theorem yearStart_yearOf_le (d : Int) : yearStart (yearOf d) ≤ d := by
  have h := yearStart_le (1970 + 400 * d / 146097 - 1)
  unfold yearOf
  dsimp only
  split_ifs <;> omega

/-- A day is before the next year. -/
theorem lt_yearStart_yearOf (d : Int) : d < yearStart (yearOf d + 1) := by
  have h := le_yearStart (1970 + 400 * d / 146097 + 1 + 1)
  unfold yearOf
  dsimp only
  split_ifs with h1 h2
  · rwa [Int.sub_add_cancel]
  · omega
  · omega

theorem yearOf_le_iff {d y : Int} : yearOf d ≤ y ↔ d < yearStart (y + 1) := by
  constructor
  · intro h
    exact (lt_yearStart_yearOf d).trans_le (yearStart_mono (Int.add_le_add_right h 1))
  · intro h
    by_contra hlt
    have hle : yearStart (y + 1) ≤ yearStart (yearOf d) :=
      yearStart_mono (Int.not_le.mp hlt)
    exact absurd (h.trans_le (hle.trans (yearStart_yearOf_le d))) (Int.lt_irrefl d)

theorem le_yearOf_iff {d y : Int} : y ≤ yearOf d ↔ yearStart y ≤ d := by
  rw [← Int.not_lt, ← Int.not_lt, not_iff_not, ← Int.le_sub_one_iff, yearOf_le_iff,
    Int.sub_add_cancel]

/-! ## Months -/

/-- The lengths of the months. -/
def monthLengths (leap : Bool) : List Nat :=
  [31, if leap then 29 else 28, 31, 30, 31, 30, 31, 31, 30, 31, 30, 31]

/-- The run a day belongs to, and the days before it in this run. -/
def splitDays : List Nat → Nat → Nat × Nat
  | [], n => (0, n)
  | l :: ls, n => if n < l then (0, n) else ((splitDays ls (n - l)).1 + 1, (splitDays ls (n - l)).2)

/-- The days before a run and those within it. -/
theorem sum_splitDays (ls : List Nat) (n : Nat) :
    (ls.take (splitDays ls n).1).sum + (splitDays ls n).2 = n := by
  induction ls generalizing n with
  | nil => simp [splitDays]
  | cons l ls ih =>
    rw [splitDays]
    split
    · simp
    · simp only [List.take_succ_cons, List.sum_cons, Nat.add_assoc, ih]
      omega

/-- A day before the end of all runs is within one of them. -/
theorem splitDays_lt {ls : List Nat} {n : Nat} (h : n < ls.sum) :
    (splitDays ls n).1 < ls.length ∧ ∃ l ∈ ls, (splitDays ls n).2 < l := by
  induction ls generalizing n with
  | nil => exact absurd h (Nat.not_lt_zero n)
  | cons l ls ih =>
    rw [List.sum_cons] at h
    rw [splitDays]
    split
    · next hl => exact ⟨Nat.succ_pos _, l, List.mem_cons_self, hl⟩
    · obtain ⟨h1, l', hl', h2⟩ := ih (n := n - l) (by omega)
      exact ⟨Nat.succ_lt_succ h1, l', List.mem_cons_of_mem l hl', h2⟩

theorem sum_monthLengths (leap : Bool) : (monthLengths leap).sum = if leap then 366 else 365 := by
  cases leap <;> rfl

theorem le_of_mem_monthLengths {leap : Bool} {l : Nat} (h : l ∈ monthLengths leap) : l ≤ 31 := by
  have hall : ∀ leap, ∀ l ∈ monthLengths leap, l ≤ 31 := by decide
  exact hall leap l h

/-! ## Dates and seconds -/

/-- A date, with the month and the day counted from zero. -/
@[ext] structure Date where
  year : Int
  month : Nat
  day : Nat
  deriving DecidableEq, Repr

/-- The date of a day. -/
def dateOf (d : Int) : Date :=
  let y := yearOf d
  let p := splitDays (monthLengths (isLeap y)) (d - yearStart y).toNat
  ⟨y, p.1, p.2⟩

/-- The day of a date. -/
def dayOf (t : Date) : Int :=
  yearStart t.year + ((monthLengths (isLeap t.year)).take t.month).sum + t.day

/-- A date determines its day. -/
theorem dayOf_dateOf (d : Int) : dayOf (dateOf d) = d := by
  have hsum := sum_splitDays (monthLengths (isLeap (yearOf d))) (d - yearStart (yearOf d)).toNat
  have hle := yearStart_yearOf_le d
  simp only [dayOf, dateOf]
  omega

/-- The months and the days of a date are inside their bounds. -/
theorem dateOf_bounds (d : Int) : (dateOf d).month < 12 ∧ (dateOf d).day < 31 := by
  have hle := yearStart_yearOf_le d
  have hlt := lt_yearStart_yearOf d
  rw [yearStart_succ] at hlt
  have hin : (d - yearStart (yearOf d)).toNat < (monthLengths (isLeap (yearOf d))).sum := by
    rw [sum_monthLengths]
    split at hlt
    · rw [if_pos ‹_›]
      omega
    · rw [if_neg ‹_›]
      omega
  obtain ⟨hm, l, hl, hd⟩ := splitDays_lt hin
  exact ⟨hm, Nat.lt_of_lt_of_le hd (le_of_mem_monthLengths hl)⟩

/-- A second: a date and the time of the day. -/
@[ext] structure Moment extends Date where
  hour : Nat
  minute : Nat
  second : Nat
  deriving DecidableEq, Repr

/-- The moment of a second counted from the start of day 0. -/
def momentOf (s : Int) : Moment :=
  let r := (s % 86400).toNat
  { dateOf (s / 86400) with
    hour := r / 3600
    minute := r % 3600 / 60
    second := r % 60 }

/-- The second of a moment. -/
def secondOf (t : Moment) : Int :=
  dayOf t.toDate * 86400 + t.hour * 3600 + t.minute * 60 + t.second

/-- A moment determines its second. -/
theorem secondOf_momentOf (s : Int) : secondOf (momentOf s) = s := by
  have hday := dayOf_dateOf (s / 86400)
  simp only [secondOf, momentOf]
  change dayOf (dateOf (s / 86400)) * 86400 + _ + _ + _ = s
  rw [hday]
  omega

theorem momentOf_bounds (s : Int) : (momentOf s).month < 12 ∧ (momentOf s).day < 31 ∧
    (momentOf s).hour < 24 ∧ (momentOf s).minute < 60 ∧ (momentOf s).second < 60 := by
  obtain ⟨h1, h2⟩ := dateOf_bounds (s / 86400)
  refine ⟨h1, h2, ?_, ?_, ?_⟩ <;>
  · simp only [momentOf]
    omega

/-- The seconds whose year lies between two years. -/
theorem year_momentOf_iff {s a b : Int} : a ≤ (momentOf s).year ∧ (momentOf s).year ≤ b ↔
    yearStart a * 86400 ≤ s ∧ s < yearStart (b + 1) * 86400 := by
  change a ≤ yearOf (s / 86400) ∧ yearOf (s / 86400) ≤ b ↔ _
  rw [le_yearOf_iff, yearOf_le_iff]
  omega

end Calendar
