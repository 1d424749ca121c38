import ChatSystem.Core.Scan

/-!
# Decimal numbers

The digits of a number are read back by the value of digits, and a printed number determines
the number.
-/

namespace Scan

/-- The digits of a number as bytes. -/
def digitBytes (n : Nat) : List UInt8 := (Nat.toDigits 10 n).map fun c => UInt8.ofNat c.toNat

theorem decimal_eq (v : Int) :
    decimal v = (if v < 0 then [45] else []) ++ digitBytes v.natAbs := rfl

theorem toNat_digit {d : Nat} (h : d < 10) : (UInt8.ofNat (48 + d)).toNat = 48 + d :=
  Nat.mod_eq_of_lt (by omega)

theorem isDigit_digit {d : Nat} (h : d < 10) : isDigit (UInt8.ofNat (48 + d)) = true := by
  have hlow : (48 : Nat) ≤ 48 + d := Nat.le_add_right 48 d
  have hhigh : 48 + d ≤ 57 := by omega
  rw [isDigit, Bool.and_eq_true, decide_eq_true_eq, decide_eq_true_eq, UInt8.le_iff_toNat_le,
    UInt8.le_iff_toNat_le, toNat_digit h]
  exact ⟨hlow, hhigh⟩

/-- The bounds of a digit character. -/
theorem toNat_of_isDigit {c : Char} (h : c.isDigit = true) : 48 ≤ c.toNat ∧ c.toNat ≤ 57 := by
  rw [Char.isDigit, Bool.and_eq_true, decide_eq_true_eq, decide_eq_true_eq] at h
  exact ⟨UInt32.le_iff_toNat_le.mp h.1, UInt32.le_iff_toNat_le.mp h.2⟩

theorem toNat_digitByte {c : Char} (h : c.isDigit = true) : (UInt8.ofNat c.toNat).toNat = c.toNat := by
  obtain ⟨-, hle⟩ := toNat_of_isDigit h
  exact Nat.mod_eq_of_lt (by omega)

theorem isDigit_of_mem_digitBytes {n : Nat} {b : UInt8} (h : b ∈ digitBytes n) :
    isDigit b = true := by
  obtain ⟨c, hc, rfl⟩ := List.mem_map.mp h
  have hdigit := Nat.isDigit_of_mem_toDigits (by decide) (by decide) hc
  obtain ⟨hlow, hhigh⟩ := toNat_of_isDigit hdigit
  rw [isDigit, Bool.and_eq_true, decide_eq_true_eq, decide_eq_true_eq, UInt8.le_iff_toNat_le,
    UInt8.le_iff_toNat_le, toNat_digitByte hdigit]
  exact ⟨hlow, hhigh⟩

/-- The digits of a number have its value. -/
theorem digitsValue_digitBytes (n : Nat) : digitsValue (digitBytes n) = n := by
  have hfold : ∀ (cs : List Char) (k : Nat), (∀ c ∈ cs, c.isDigit = true) →
      (cs.map fun c => UInt8.ofNat c.toNat).foldl (fun n b => 10 * n + (b.toNat - 48)) k =
        Nat.ofDigitChars 10 cs k := by
    intro cs
    induction cs with
    | nil => exact fun _ _ => Nat.ofDigitChars_nil.symm
    | cons c cs ih =>
      intro k hcs
      rw [List.map_cons, List.foldl_cons, Nat.ofDigitChars_cons,
        toNat_digitByte (hcs c List.mem_cons_self)]
      exact ih _ fun d hd => hcs d (List.mem_cons_of_mem c hd)
  rw [digitsValue, digitBytes, hfold]
  · exact Nat.ofDigitChars_ten_toDigits
  · exact fun c hc => Nat.isDigit_of_mem_toDigits (by decide) (by decide) hc

/-- A printed number consists of digits and perhaps a sign. -/
theorem of_mem_decimal {v : Int} {b : UInt8} (h : b ∈ decimal v) : b = 45 ∨ isDigit b = true := by
  rw [decimal_eq] at h
  rcases List.mem_append.mp h with h | h
  · split at h
    · exact Or.inl (List.mem_singleton.mp h)
    · cases h
  · exact Or.inr (isDigit_of_mem_digitBytes h)

/-- The digits of a number do not start with a sign. -/
theorem digitBytes_ne_cons (n : Nat) (t : List UInt8) : digitBytes n ≠ 45 :: t := by
  intro h
  have hdigit : isDigit 45 = true := isDigit_of_mem_digitBytes (n := n) (by rw [h]; simp)
  cases hdigit

theorem digitBytes_inj {n k : Nat} (h : digitBytes n = digitBytes k) : n = k := by
  rw [← digitsValue_digitBytes n, h, digitsValue_digitBytes]

/-- A printed number determines the number. -/
theorem decimal_injective : Function.Injective decimal := by
  intro v w h
  rw [decimal_eq, decimal_eq] at h
  by_cases hv : v < 0
  · by_cases hw : w < 0
    · rw [if_pos hv, if_pos hw] at h
      have := digitBytes_inj (List.append_cancel_left h)
      omega
    · rw [if_pos hv, if_neg hw] at h
      exact absurd h.symm (digitBytes_ne_cons _ _)
  · by_cases hw : w < 0
    · rw [if_neg hv, if_pos hw] at h
      exact absurd h (digitBytes_ne_cons _ _)
    · rw [if_neg hv, if_neg hw] at h
      have := digitBytes_inj (List.append_cancel_left h)
      omega

end Scan
