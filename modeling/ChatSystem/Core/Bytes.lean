import Mathlib.Data.List.TakeWhile
import Mathlib.Data.Vector.Basic

/-!
# Byte arrays and terminated strings

A fixed array of bytes is a list with its length. A terminated string is the
part of an array before its first zero byte. The copying functions of the C
library are total list functions here: a copy that leaves its array changes the
length of the list, so an overrun is visible in the length contract.
-/

namespace Bytes

/-- A fixed array of `n` bytes. -/
abbrev Arr (n : Nat) := List.Vector UInt8 n

/-- `memset(a, 0, n)`. -/
def zeros (n : Nat) : Arr n := ⟨List.replicate n 0, List.length_replicate⟩

/-- The terminated string stored at the front of an array. -/
def cstr (s : List UInt8) : List UInt8 := s.takeWhile (· ≠ 0)

/-- The bytes `strncpy(_, s, k)` writes: the string, cut at `k`, padded with zeros to `k`. -/
def padded (k : Nat) (s : List UInt8) : List UInt8 :=
  (cstr s).take k ++ List.replicate (k - (cstr s).length) 0

/-- `memcpy(a + off, d, |d|)` on a list that holds the whole array. -/
def writeAt (a : List UInt8) (off : Nat) (d : List UInt8) : List UInt8 :=
  a.take off ++ d ++ a.drop (off + d.length)

/-- `strncmp(a, b, n) == 0`: equal strings, as far as the first `n` bytes tell. -/
def strncmpEq (n : Nat) (a b : List UInt8) : Bool := cstr (a.take n) == cstr (b.take n)

/-- The bytes of a source literal. -/
def ascii (s : String) : List UInt8 := s.toList.map fun c => UInt8.ofNat c.toNat

@[simp] theorem toList_zeros (n : Nat) : (zeros n).toList = List.replicate n 0 := rfl

@[simp] theorem length_padded (k : Nat) (s : List UInt8) : (padded k s).length = k := by
  simp only [padded, List.length_append, List.length_take, List.length_replicate]
  omega

/-- `strncpy(a, s, k)` into an array of `n` bytes, for `k ≤ n`. -/
def strncpy {n : Nat} (a : Arr n) (s : List UInt8) (k : Nat) : Arr n :=
  ⟨padded (min k n) s ++ a.toList.drop (min k n), by
    simp only [List.length_append, length_padded, List.length_drop, List.Vector.toList_length]
    omega⟩

theorem toList_strncpy {n : Nat} (a : Arr n) (s : List UInt8) {k : Nat} (h : k ≤ n) :
    (strncpy a s k).toList = padded k s ++ a.toList.drop k := by
  simp only [strncpy, List.Vector.toList, Nat.min_eq_left h]

/-- The first `n` bytes of a buffer, over zeros where the buffer is shorter. -/
def fit (n : Nat) (s : List UInt8) : Arr n :=
  ⟨s.take n ++ List.replicate (n - s.length) 0, by
    simp only [List.length_append, List.length_take, List.length_replicate]
    omega⟩

theorem toList_fit (n : Nat) (s : List UInt8) :
    (fit n s).toList = s.take n ++ List.replicate (n - s.length) 0 := rfl

theorem toList_fit_append {n : Nat} {s : List UInt8} (h : s.length = n) (t : List UInt8) :
    (fit n (s ++ t)).toList = s := by
  rw [toList_fit, List.take_left' h, List.length_append, show n - (s.length + t.length) = 0 by omega,
    List.replicate_zero, List.append_nil]

/-! ## Strings -/

theorem mem_cstr {s : List UInt8} {b : UInt8} (h : b ∈ cstr s) : b ≠ 0 := by
  simpa using List.mem_takeWhile_imp h

theorem cstr_of_forall_ne {s : List UInt8} (h : ∀ b ∈ s, b ≠ 0) : cstr s = s :=
  List.takeWhile_eq_self_iff.mpr (by simpa using h)

@[simp] theorem cstr_cstr (s : List UInt8) : cstr (cstr s) = cstr s :=
  cstr_of_forall_ne fun _ => mem_cstr

@[simp] theorem cstr_nil : cstr [] = [] := rfl

/-- A string ends at the first zero byte, whatever follows. -/
theorem cstr_append_zero {s : List UInt8} (h : ∀ b ∈ s, b ≠ 0) (t : List UInt8) :
    cstr (s ++ 0 :: t) = s := by
  rw [cstr, List.takeWhile_append_of_pos (by simpa using h)]
  simp

theorem cstr_append_replicate {s : List UInt8} (h : ∀ b ∈ s, b ≠ 0) (k : Nat) :
    cstr (s ++ List.replicate k 0) = s := by
  cases k with
  | zero => simpa using cstr_of_forall_ne h
  | succ k => simpa only [List.replicate_succ] using cstr_append_zero h _

@[simp] theorem cstr_zeros (n : Nat) : cstr (zeros n).toList = [] := by
  simpa using cstr_append_replicate (s := []) (by simp) n

theorem length_cstr_le (s : List UInt8) : (cstr s).length ≤ s.length :=
  (List.takeWhile_sublist _).length_le

theorem cstr_take_ne {s : List UInt8} {k : Nat} {b : UInt8} (h : b ∈ (cstr s).take k) : b ≠ 0 :=
  mem_cstr (List.mem_of_mem_take h)

/-- What a string comparison reads back after `strncpy`. -/
@[simp] theorem cstr_padded (k : Nat) (s : List UInt8) : cstr (padded k s) = (cstr s).take k :=
  cstr_append_replicate (fun _ => cstr_take_ne) _

/-- A copy followed by a zero byte reads back as the cut string. -/
theorem cstr_padded_append_zero (k : Nat) (s t : List UInt8) :
    cstr (padded k s ++ 0 :: t) = (cstr s).take k := by
  rw [padded, List.append_assoc]
  cases hk : k - (cstr s).length with
  | zero => simpa using cstr_append_zero (fun _ => cstr_take_ne) t
  | succ m => simpa [List.replicate_succ] using cstr_append_zero (fun _ => cstr_take_ne) _

/-- Padding sees only the string. -/
theorem padded_congr (k : Nat) {s t : List UInt8} (h : cstr s = cstr t) :
    padded k s = padded k t := by
  simp only [padded, h]

theorem cstr_cons_zero (s : List UInt8) : cstr (0 :: s) = [] := by
  simp [cstr]

theorem cstr_cons_of_ne {b : UInt8} (h : b ≠ 0) (s : List UInt8) :
    cstr (b :: s) = b :: cstr s := by
  simp [cstr, h]

/-- Cutting a buffer cuts the string at its front. -/
theorem cstr_take (s : List UInt8) (k : Nat) : cstr (s.take k) = (cstr s).take k := by
  induction s generalizing k with
  | nil => simp
  | cons b s ih =>
    cases k with
    | zero => rfl
    | succ k =>
      rw [List.take_succ_cons]
      by_cases hb : b = 0
      · rw [hb, cstr_cons_zero, cstr_cons_zero, List.take_nil]
      · rw [cstr_cons_of_ne hb, cstr_cons_of_ne hb, List.take_succ_cons, ih]

/-- Zeros behind a buffer add nothing to its string. -/
theorem cstr_append_zeros (s : List UInt8) (k : Nat) : cstr (s ++ List.replicate k 0) = cstr s := by
  induction s with
  | nil => exact cstr_append_replicate (by simp) k
  | cons b s ih =>
    rw [List.cons_append]
    by_cases hb : b = 0
    · rw [hb, cstr_cons_zero, cstr_cons_zero]
    · rw [cstr_cons_of_ne hb, cstr_cons_of_ne hb, ih]

/-- A terminator at index `k` bounds the string. -/
theorem length_cstr_le_of_drop {s : List UInt8} {k : Nat} (h : s.drop k = [0]) :
    (cstr s).length ≤ k := by
  calc
    (cstr s).length = (cstr (s.take k ++ [0])).length := by rw [← h, List.take_append_drop]
    _ = (cstr (s.take k)).length := congrArg List.length (cstr_append_zeros _ 1)
    _ ≤ k := (length_cstr_le _).trans (List.length_take_le _ _)

/-! ## Block copies -/

theorem length_writeAt {a d : List UInt8} {off : Nat} (h : off + d.length ≤ a.length) :
    (writeAt a off d).length = a.length := by
  simp only [writeAt, List.length_append, List.length_take, List.length_drop]
  omega

/-- The front of the array up to the end of the copy. -/
theorem take_add_writeAt {a d : List UInt8} {off : Nat} (h : off ≤ a.length) :
    (writeAt a off d).take (off + d.length) = a.take off ++ d := by
  have hl : (a.take off ++ d).length = off + d.length := by
    simp [List.length_take, Nat.min_eq_left h]
  rw [writeAt, ← hl, List.take_left]

@[simp] theorem writeAt_nil (a : List UInt8) (off : Nat) : writeAt a off [] = a := by
  simp [writeAt, List.take_append_drop]

end Bytes
