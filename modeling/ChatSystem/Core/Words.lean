import Mathlib.Algebra.Order.Ring.Nat

/-!
# Big-endian machine words

Splitting a machine word into its bytes and assembling it again is the identity.
Both directions are compared bit by bit: byte `j` owns the bits from `8 j` on.
-/

namespace Words

/-- `(unsigned char)((v >> 8 j) & 0xFF) << 8 j` keeps exactly the bits of byte `j`. -/
private theorem testBit_byte {w j : Nat} (hj : j + 8 ≤ w) (v i : Nat) :
    (((v >>> j) % 2 ^ 8) <<< j % 2 ^ w).testBit i =
      (decide (j ≤ i) && decide (i < j + 8) && v.testBit i) := by
  simp only [Nat.testBit_mod_two_pow, Nat.testBit_shiftLeft, Nat.testBit_shiftRight]
  by_cases h : j ≤ i
  · have hi : j + (i - j) = i := by omega
    have hd : (i - j < 8) = (i < j + 8) := by simp only [eq_iff_iff]; omega
    by_cases h8 : i < j + 8
    · have hw : i < w := by omega
      simp [h, hi, hd, h8, hw]
    · simp [hd, h8]
  · simp [h]

private theorem mod_and_255 (n : Nat) : n % 256 &&& 255 = n % 2 ^ 8 :=
  (Nat.and_two_pow_sub_one_eq_mod (n % 256) 8).trans (Nat.mod_mod n 256)

private theorem testBit_eq_false {v w i : Nat} (hv : v < 2 ^ w) (hi : ¬ i < w) :
    v.testBit i = false :=
  Nat.testBit_lt_two_pow
    (Nat.lt_of_lt_of_le hv (Nat.pow_le_pow_right (by decide) (Nat.not_lt.mp hi)))

/-- The two big-endian bytes of a 16-bit word. -/
def bytes16 (v : UInt16) : List UInt8 := [((v >>> 8) &&& 0xFF).toUInt8, (v &&& 0xFF).toUInt8]

/-- The 16-bit word of two big-endian bytes. -/
def word16 (hi lo : UInt8) : UInt16 := (hi.toUInt16 <<< 8) ||| lo.toUInt16

/-- The eight big-endian bytes of a 64-bit word. -/
def bytes64 (v : UInt64) : List UInt8 :=
  [((v >>> 56) &&& 0xFF).toUInt8, ((v >>> 48) &&& 0xFF).toUInt8,
   ((v >>> 40) &&& 0xFF).toUInt8, ((v >>> 32) &&& 0xFF).toUInt8,
   ((v >>> 24) &&& 0xFF).toUInt8, ((v >>> 16) &&& 0xFF).toUInt8,
   ((v >>> 8) &&& 0xFF).toUInt8, (v &&& 0xFF).toUInt8]

/-- The 64-bit word of eight big-endian bytes. -/
def word64 (b0 b1 b2 b3 b4 b5 b6 b7 : UInt8) : UInt64 :=
  (b0.toUInt64 <<< 56) ||| (b1.toUInt64 <<< 48) ||| (b2.toUInt64 <<< 40) |||
    (b3.toUInt64 <<< 32) ||| (b4.toUInt64 <<< 24) ||| (b5.toUInt64 <<< 16) |||
    (b6.toUInt64 <<< 8) ||| b7.toUInt64

@[simp] theorem length_bytes16 (v : UInt16) : (bytes16 v).length = 2 := rfl

@[simp] theorem length_bytes64 (v : UInt64) : (bytes64 v).length = 8 := rfl

/-- Assembling the two bytes of a word gives the word back. -/
theorem word16_bytes (v : UInt16) :
    word16 ((v >>> 8) &&& 0xFF).toUInt8 (v &&& 0xFF).toUInt8 = v := by
  have hff : ∀ x : UInt16, (x &&& 255).toUInt8.toNat = x.toNat % 2 ^ 8 := fun x => by
    simpa using mod_and_255 x.toNat
  apply UInt16.toNat_inj.mp
  simp only [word16, UInt16.toNat_or, UInt16.toNat_shiftLeft, UInt8.toNat_toUInt16, hff,
    UInt16.toNat_shiftRight, UInt16.reduceToNat, Nat.reduceMod]
  apply Nat.eq_of_testBit_eq
  intro i
  rw [Nat.testBit_or, testBit_byte (by omega), Nat.testBit_mod_two_pow]
  by_cases hi : i < 16
  · cases v.toNat.testBit i <;> simp; omega
  · simp [testBit_eq_false v.toNat_lt hi]

/-- Assembling the eight bytes of a word gives the word back. -/
theorem word64_bytes (v : UInt64) :
    word64 ((v >>> 56) &&& 0xFF).toUInt8 ((v >>> 48) &&& 0xFF).toUInt8
      ((v >>> 40) &&& 0xFF).toUInt8 ((v >>> 32) &&& 0xFF).toUInt8
      ((v >>> 24) &&& 0xFF).toUInt8 ((v >>> 16) &&& 0xFF).toUInt8
      ((v >>> 8) &&& 0xFF).toUInt8 (v &&& 0xFF).toUInt8 = v := by
  have hff : ∀ x : UInt64, (x &&& 255).toUInt8.toNat = x.toNat % 2 ^ 8 := fun x => by
    simpa using mod_and_255 x.toNat
  apply UInt64.toNat_inj.mp
  simp only [word64, UInt64.toNat_or, UInt64.toNat_shiftLeft, UInt8.toNat_toUInt64, hff,
    UInt64.toNat_shiftRight, UInt64.reduceToNat, Nat.reduceMod]
  apply Nat.eq_of_testBit_eq
  intro i
  simp only [Nat.testBit_or]
  repeat rw [testBit_byte (by omega)]
  rw [Nat.testBit_mod_two_pow]
  by_cases hi : i < 64
  · cases v.toNat.testBit i <;> simp; omega
  · simp [testBit_eq_false v.toNat_lt hi]

/-! ## From bytes to words and back -/

theorem testBit_uint8_of_le (b : UInt8) {k : Nat} (h : 8 ≤ k) : b.toNat.testBit k = false :=
  Nat.testBit_lt_two_pow (Nat.lt_of_lt_of_le b.toNat_lt (Nat.pow_le_pow_right (by decide) h))

/-- The bits of byte `n` of a word. -/
theorem testBit_byte64 (v n : UInt64) (hn : n < 64) (i : Nat) :
    ((v >>> n) &&& 0xFF).toUInt8.toNat.testBit i =
      (decide (i < 8) && v.toNat.testBit (n.toNat + i)) := by
  have hff : ((v >>> n) &&& 255).toUInt8.toNat = (v >>> n).toNat % 2 ^ 8 := by
    have := Nat.and_two_pow_sub_one_eq_mod ((v >>> n).toNat % 256) 8
    simpa using this
  have hn' : n.toNat % 64 = n.toNat := Nat.mod_eq_of_lt hn
  rw [hff, Nat.testBit_mod_two_pow, UInt64.toNat_shiftRight, Nat.testBit_shiftRight, hn']

/-- The bits of a byte at position `n` of a word. -/
theorem testBit_shifted64 (b : UInt8) (n : UInt64) (hn : n < 64) (k : Nat) :
    (b.toUInt64 <<< n).toNat.testBit k =
      (decide (k < 64) && (decide (n.toNat ≤ k) && b.toNat.testBit (k - n.toNat))) := by
  have hn' : n.toNat % 64 = n.toNat := Nat.mod_eq_of_lt hn
  rw [UInt64.toNat_shiftLeft, Nat.testBit_mod_two_pow, Nat.testBit_shiftLeft, hn',
    UInt8.toNat_toUInt64]

/-- A bit of an assembled word is a bit of the byte that owns it. -/
theorem testBit_word64 (b0 b1 b2 b3 b4 b5 b6 b7 : UInt8) {k : Nat} (hk : k < 64) :
    (word64 b0 b1 b2 b3 b4 b5 b6 b7).toNat.testBit k =
      (decide (56 ≤ k) && b0.toNat.testBit (k - 56) || decide (48 ≤ k) && b1.toNat.testBit (k - 48) ||
        decide (40 ≤ k) && b2.toNat.testBit (k - 40) || decide (32 ≤ k) && b3.toNat.testBit (k - 32) ||
        decide (24 ≤ k) && b4.toNat.testBit (k - 24) || decide (16 ≤ k) && b5.toNat.testBit (k - 16) ||
        decide (8 ≤ k) && b6.toNat.testBit (k - 8) || b7.toNat.testBit k) := by
  simp only [word64, UInt64.toNat_or, Nat.testBit_or, UInt8.toNat_toUInt64]
  repeat rw [testBit_shifted64 _ _ (by decide)]
  simp only [hk, decide_true, Bool.true_and, UInt64.reduceToNat]

/-- Splitting an assembled word gives the bytes back. -/
theorem bytes64_word64 (b0 b1 b2 b3 b4 b5 b6 b7 : UInt8) :
    bytes64 (word64 b0 b1 b2 b3 b4 b5 b6 b7) = [b0, b1, b2, b3, b4, b5, b6, b7] := by
  have hlow : ∀ v : UInt64, v &&& (0xFF : UInt64) = (v >>> (0 : UInt64)) &&& 0xFF := by simp
  simp only [bytes64, List.cons.injEq, and_true]
  rw [hlow (word64 b0 b1 b2 b3 b4 b5 b6 b7)]
  refine ⟨?_, ?_, ?_, ?_, ?_, ?_, ?_, ?_⟩
  all_goals
    apply UInt8.toNat_inj.mp
    apply Nat.eq_of_testBit_eq
    intro i
    rw [testBit_byte64 _ _ (by decide)]
    by_cases hi : i < 8
    · rw [testBit_word64 _ _ _ _ _ _ _ _ (by simp only [UInt64.reduceToNat]; omega)]
      simp (disch := omega) [hi, testBit_uint8_of_le] <;> intro h <;> omega
    · simp only [hi, decide_false, Bool.false_and]
      exact (testBit_uint8_of_le _ (Nat.not_lt.mp hi)).symm

theorem testBit_word16 (hi lo : UInt8) {k : Nat} (hk : k < 16) :
    (word16 hi lo).toNat.testBit k =
      (decide (8 ≤ k) && hi.toNat.testBit (k - 8) || lo.toNat.testBit k) := by
  simp only [word16, UInt16.toNat_or, Nat.testBit_or, UInt8.toNat_toUInt16,
    UInt16.toNat_shiftLeft, Nat.testBit_mod_two_pow, Nat.testBit_shiftLeft, hk, decide_true,
    Bool.true_and, UInt16.reduceToNat, Nat.reduceMod, ge_iff_le]

/-- Splitting an assembled word gives the bytes back. -/
theorem bytes16_word16 (hi lo : UInt8) : bytes16 (word16 hi lo) = [hi, lo] := by
  have hff : ∀ x : UInt16, (x &&& 255).toUInt8.toNat = x.toNat % 2 ^ 8 := fun x => by
    simpa using mod_and_255 x.toNat
  simp only [bytes16, List.cons.injEq, and_true]
  constructor
  all_goals
    apply UInt8.toNat_inj.mp
    apply Nat.eq_of_testBit_eq
    intro i
    simp only [hff, UInt16.toNat_shiftRight, UInt16.reduceToNat, Nat.reduceMod,
      Nat.testBit_mod_two_pow, Nat.testBit_shiftRight]
    by_cases h8 : i < 8
    · rw [testBit_word16 _ _ (by omega)]
      simp (disch := omega) [h8, testBit_uint8_of_le] <;> intro h <;> omega
    · simp only [h8, decide_false, Bool.false_and]
      exact (testBit_uint8_of_le _ (Nat.not_lt.mp h8)).symm

end Words
