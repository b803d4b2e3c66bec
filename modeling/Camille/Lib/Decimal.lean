import Mathlib.Data.Nat.Basic
import Mathlib.Data.List.Basic

/-!
# Decimal Numerals

Numbers as strings of the ten digit bytes, most significant first: the value of a string,
read with an accumulator as a reader of such strings does, and the numeral of a number.

## Main results

* `decimalFrom_append`, `le_decimalFrom`: the accumulator, over a string in two parts, and
  that it only grows.
* `decimalFrom_mod`: reducing the accumulator on the way changes nothing modulo.
* `decimalValue_zeros`: zeros have the value zero.
* `decimalValue_decimal`: the numeral of a number has that number as its value.
* `digit_range_of_mem_decimal`: it consists of digits.
-/

namespace Lib

/-- The byte of the digit zero. -/
def zeroDigit : UInt8 := 48

/-- The value of a digit string behind digits of value `n`. -/
def decimalFrom (n : ℕ) (digits : List UInt8) : ℕ :=
  digits.foldl (fun n b => n * 10 + (b.toNat - zeroDigit.toNat)) n

/-- The value of a digit string. -/
def decimalValue (digits : List UInt8) : ℕ :=
  decimalFrom 0 digits

/-- The numeral of a number, without leading zeros. -/
def decimal (n : ℕ) : List UInt8 :=
  (Nat.toDigits 10 n).map Char.toUInt8

/-- No digit leaves the accumulator as it is. -/
@[simp] theorem decimalFrom_nil (n : ℕ) : decimalFrom n [] = n := rfl

/-- A digit is shifted in. -/
@[simp] theorem decimalFrom_cons (n : ℕ) (b : UInt8) (digits : List UInt8) :
    decimalFrom n (b :: digits) =
      decimalFrom (n * 10 + (b.toNat - zeroDigit.toNat)) digits := by
  rw [decimalFrom, List.foldl_cons, decimalFrom]

/-- Two digit strings, one after the other. -/
theorem decimalFrom_append (n : ℕ) (xs ys : List UInt8) :
    decimalFrom n (xs ++ ys) = decimalFrom (decimalFrom n xs) ys :=
  List.foldl_append

/-- The accumulator only grows. -/
theorem le_decimalFrom (n : ℕ) (digits : List UInt8) : n ≤ decimalFrom n digits := by
  induction digits generalizing n with
  | nil => exact le_rfl
  | cons b digits ih =>
      have := ih (n * 10 + (b.toNat - zeroDigit.toNat))
      rw [decimalFrom_cons]
      omega

/-- The accumulator may be reduced on the way. -/
theorem decimalFrom_mod (n m : ℕ) (digits : List UInt8) :
    decimalFrom (n % m) digits % m = decimalFrom n digits % m := by
  induction digits generalizing n with
  | nil => exact Nat.mod_mod n m
  | cons b digits ih =>
      have hstep : (n % m * 10 + (b.toNat - zeroDigit.toNat)) % m =
          (n * 10 + (b.toNat - zeroDigit.toNat)) % m := by
        rw [Nat.add_mod, Nat.mul_mod, Nat.mod_mod, ← Nat.mul_mod, ← Nat.add_mod]
      rw [decimalFrom_cons, decimalFrom_cons, ← ih, hstep, ih]

/-- Zeros have the value zero. -/
theorem decimalValue_zeros {digits : List UInt8} (h : ∀ b ∈ digits, b = zeroDigit) :
    decimalValue digits = 0 := by
  induction digits with
  | nil => rfl
  | cons b digits ih =>
      obtain ⟨rfl, hdigits⟩ := List.forall_mem_cons.mp h
      exact ih hdigits

/-- The byte of a decimal digit. -/
theorem toNat_digitChar {d : ℕ} (hd : d < 10) :
    (Nat.digitChar d).toUInt8.toNat = zeroDigit.toNat + d := by
  have hall : ∀ d < 10, (Nat.digitChar d).toUInt8.toNat = zeroDigit.toNat + d := by decide
  exact hall d hd

/-- **The numeral of a number has that number as its value.** -/
theorem decimalValue_decimal (n : ℕ) : decimalValue (decimal n) = n := by
  induction n using Nat.strong_induction_on with
  | _ n ih =>
      rw [decimal, Nat.toDigits_eq_if (by decide)]
      split
      · rename_i hlt
        simp [decimalValue, toNat_digitChar hlt]
      · have hdigits := ih (n / 10) (by omega)
        rw [decimalValue, decimal] at hdigits
        rw [List.map_append, decimalValue, decimalFrom_append, hdigits]
        simp [toNat_digitChar (Nat.mod_lt n (by decide : 10 > 0))]
        omega

/-- A numeral has a digit. -/
theorem decimal_ne_nil (n : ℕ) : decimal n ≠ [] := by
  simp [decimal]

/-- A numeral consists of digits. -/
theorem digit_range_of_mem_decimal {n : ℕ} {b : UInt8} (hb : b ∈ decimal n) :
    zeroDigit ≤ b ∧ b ≤ 57 := by
  induction n using Nat.strong_induction_on with
  | _ n ih =>
      have hdigit : ∀ d < 10, zeroDigit ≤ (Nat.digitChar d).toUInt8 ∧
          (Nat.digitChar d).toUInt8 ≤ 57 := by
        decide
      rw [decimal, Nat.toDigits_eq_if (by decide)] at hb
      split at hb
      · rename_i hlt
        obtain rfl : b = (Nat.digitChar n).toUInt8 := by simpa using hb
        exact hdigit n hlt
      · rw [List.map_append, List.mem_append] at hb
        rcases hb with hb | hb
        · exact ih (n / 10) (by omega) hb
        · obtain rfl : b = (Nat.digitChar (n % 10)).toUInt8 := by simpa using hb
          exact hdigit _ (Nat.mod_lt n (by decide))

end Lib
