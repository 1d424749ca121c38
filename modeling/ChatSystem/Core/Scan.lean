import ChatSystem.Core.Bytes

/-!
# Formatted input

The conversions of `sscanf` the programs use, on a terminated string. Each one
returns the bytes it stores and the rest of the input, or `none` where the C
function stops converting.
-/

namespace Scan

open Bytes

/-- `isspace` in the C locale. -/
def isSpace (b : UInt8) : Bool := b == 32 || (9 ≤ b && b ≤ 13)

/-- `%<width>[^stop]`: at least one byte other than `stop`, no white space skipped. -/
def untilByte (stop : UInt8) (width : Nat) (s : List UInt8) : Option (List UInt8 × List UInt8) :=
  let got := (s.takeWhile (· ≠ stop)).take width
  if got.isEmpty then none else some (got, s.drop got.length)

/-- A literal byte of the format. -/
def literal (b : UInt8) : List UInt8 → Option (List UInt8)
  | c :: s => if c = b then some s else none
  | [] => none

/-- `%<width>s`: white space is skipped, then at least one other byte is needed. -/
def word (width : Nat) (s : List UInt8) : Option (List UInt8 × List UInt8) :=
  let s := s.dropWhile isSpace
  let got := (s.takeWhile fun b => !isSpace b).take width
  if got.isEmpty then none else some (got, s.drop got.length)

/-- `isdigit`. -/
def isDigit (b : UInt8) : Bool := 48 ≤ b && b ≤ 57

/-- The value of decimal digits. -/
def digitsValue (s : List UInt8) : Nat := s.foldl (fun n b => 10 * n + (b.toNat - 48)) 0

/-- A number read by `strtol`, stored in an `int`. -/
def toInt (v : Int) : Int :=
  (max (-9223372036854775808) (min 9223372036854775807 v)).bmod 4294967296

/-- `%d`: white space is skipped, then an optional sign and at least one digit are needed. -/
def int (s : List UInt8) : Option (Int × List UInt8) :=
  let s := s.dropWhile isSpace
  let (negative, s) := match s with
    | 45 :: s => (true, s)
    | 43 :: s => (false, s)
    | s => (false, s)
  let got := s.takeWhile isDigit
  if got.isEmpty then none
  else
    let v : Int := digitsValue got
    some (toInt (if negative then -v else v), s.drop got.length)

/-- `%d` of a `printf`. -/
def decimal (v : Int) : List UInt8 :=
  (if v < 0 then [45] else []) ++
    (Nat.toDigits 10 v.natAbs).map fun c => UInt8.ofNat c.toNat

/-- What `%<width>[^stop]` can store. -/
theorem untilByte_eq_some {stop : UInt8} {width : Nat} {s got rest : List UInt8}
    (h : untilByte stop width s = some (got, rest)) :
    got ≠ [] ∧ got.length ≤ width ∧ stop ∉ got ∧ s = got ++ rest := by
  simp only [untilByte] at h
  split at h
  · cases h
  · next hne =>
    obtain ⟨rfl, rfl⟩ := Prod.mk.inj (Option.some.inj h)
    refine ⟨by simpa [List.isEmpty_iff] using hne, by simp [List.length_take], ?_, ?_⟩
    · intro hm
      simpa using List.mem_takeWhile_imp (List.mem_of_mem_take hm)
    · have hpre : (s.takeWhile (· ≠ stop)).take width <+: s :=
        (List.take_prefix _ _).trans (List.takeWhile_prefix _)
      conv_lhs => rw [← List.take_append_drop ((s.takeWhile (· ≠ stop)).take width).length s]
      rw [← List.prefix_iff_eq_take.mp hpre]

/-- A field in front of its stop byte is stored whole. -/
theorem untilByte_append {stop : UInt8} {width : Nat} {s : List UInt8} (hne : s ≠ [])
    (hlen : s.length ≤ width) (hs : stop ∉ s) (rest : List UInt8) :
    untilByte stop width (s ++ stop :: rest) = some (s, stop :: rest) := by
  have hall : ∀ b ∈ s, decide (b ≠ stop) = true := by
    intro b hb
    have hb' : b ≠ stop := by
      rintro rfl
      exact hs hb
    simpa using hb'
  have hgot : ((s ++ stop :: rest).takeWhile (· ≠ stop)).take width = s := by
    rw [List.takeWhile_append_of_pos hall]
    simp [List.take_of_length_le hlen]
  have hemp : s.isEmpty = false := by simpa [List.isEmpty_iff] using hne
  simp only [untilByte, hgot, hemp, Bool.false_eq_true, if_false, List.drop_left]

/-- A text without white space is one word. -/
theorem word_eq_self {width : Nat} {s : List UInt8} (hne : s ≠ []) (hlen : s.length ≤ width)
    (hs : ∀ b ∈ s, isSpace b = false) : word width s = some (s, []) := by
  have hdrop : s.dropWhile isSpace = s := by
    cases s with
    | nil => exact absurd rfl hne
    | cons b s => rw [List.dropWhile_cons_of_neg (by simp [hs b List.mem_cons_self])]
  have htake : s.takeWhile (fun b => !isSpace b) = s :=
    List.takeWhile_eq_self_iff.mpr (by simpa using hs)
  have hemp : s.isEmpty = false := by simpa [List.isEmpty_iff] using hne
  simp only [word, hdrop, htake, List.take_of_length_le hlen, hemp, Bool.false_eq_true, if_false,
    List.drop_length]

/-- What `%<width>s` can store. -/
theorem word_eq_some {width : Nat} {s got rest : List UInt8}
    (h : word width s = some (got, rest)) :
    got ≠ [] ∧ got.length ≤ width ∧ (∀ b ∈ got, isSpace b = false) ∧ ∀ b ∈ got, b ∈ s := by
  simp only [word] at h
  split at h
  · cases h
  · next hne =>
    obtain ⟨rfl, -⟩ := Prod.mk.inj (Option.some.inj h)
    refine ⟨by simpa [List.isEmpty_iff] using hne, by simp [List.length_take], ?_, ?_⟩
    · intro b hb
      simpa using List.mem_takeWhile_imp (List.mem_of_mem_take hb)
    · intro b hb
      exact (List.dropWhile_sublist _).mem ((List.takeWhile_sublist _).mem (List.mem_of_mem_take hb))

end Scan
