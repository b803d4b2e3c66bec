import Camille.Lib.Decimal
import Camille.Tokens

/-!
# Content Lengths

`ValidateContentLength` against the value of a digit string. The guard of its loop keeps
the accumulator from growing past a tenth of the largest `size_t`, which is one digit too
late: a length just above the largest `size_t` wraps around.

## Main results

* `validateContentLength_of_digits`: within the range of a `size_t`, the value of the
  digits, if it is within the limit.
* `validateContentLength_of_nonDigit`: anything but digits is refused.
* `validateContentLength_decimal`: the numeral of a length within the limit is read back.
* `validateContentLength_eq_some_iff`: the strings that are read as a length, and which.
* `decodes_iff`: the strings whose length is the number they denote.
-/

open Lib

namespace Camille

/-- The loop computes the value of the digits, as long as that is a `size_t`. -/
theorem validateContentLengthLoop_of_digits {value : Bytes} {contentLength : ℕ}
    (hdigits : ∀ b ∈ value, isDigit b = true)
    (hle : decimalFrom contentLength value ≤ sizeMax) :
    validateContentLengthLoop contentLength value =
      some (decimalFrom contentLength value) := by
  induction value generalizing contentLength with
  | nil => rfl
  | cons b value ih =>
      have hb : isDigit b = true := hdigits b (by simp)
      have hgrow := le_decimalFrom (contentLength * 10 + (b.toNat - zeroDigit.toNat)) value
      rw [decimalFrom_cons] at hle ⊢
      have hmod : (contentLength * 10 + (b.toNat - '0'.toNat)) % (sizeMax + 1) =
          contentLength * 10 + (b.toNat - zeroDigit.toNat) :=
        Nat.mod_eq_of_lt (Nat.lt_succ_of_le (hgrow.trans hle))
      have hguard : ¬ contentLength > sizeMax / 10 := by omega
      rw [validateContentLengthLoop, hb, if_neg hguard, hmod]
      exact ih (fun b hb => hdigits b (by simp [hb])) hle

/-- **Digits within the range of a `size_t`** are read as their value, which is then
held against the limit. -/
theorem validateContentLength_of_digits {value : Bytes} (hne : value ≠ [])
    (hdigits : ∀ b ∈ value, isDigit b = true) (hle : decimalValue value ≤ sizeMax) :
    validateContentLength value =
      if decimalValue value > kBodyLimit then none else some (decimalValue value) := by
  rw [validateContentLength, if_neg hne, validateContentLengthLoop_of_digits hdigits hle]
  rfl

/-- **A byte that is no digit is refused.** -/
theorem validateContentLengthLoop_of_nonDigit {value : Bytes} {b : UInt8} (hb : b ∈ value)
    (hdigit : isDigit b = false) (contentLength : ℕ) :
    validateContentLengthLoop contentLength value = none := by
  induction value generalizing contentLength with
  | nil => cases hb
  | cons c value ih =>
      rw [validateContentLengthLoop]
      split
      · rfl
      · rename_i hc
        split
        · rfl
        · refine ih ((List.mem_cons.mp hb).resolve_left ?_) _
          intro he
          rw [he] at hdigit
          exact hc (by rw [hdigit]; rfl)

/-- One byte that is no digit, and the value is invalid. -/
theorem validateContentLength_of_nonDigit {value : Bytes} {b : UInt8} (hb : b ∈ value)
    (hdigit : isDigit b = false) : validateContentLength value = none := by
  rw [validateContentLength, if_neg (List.ne_nil_of_mem hb),
    validateContentLengthLoop_of_nonDigit hb hdigit]

/-- The digits of a numeral are digits of the parser. -/
theorem isDigit_of_mem_decimal {n : ℕ} {b : UInt8} (hb : b ∈ decimal n) :
    isDigit b = true := by
  have hall : ∀ b : UInt8, zeroDigit ≤ b ∧ b ≤ 57 → isDigit b = true := by decide +kernel
  exact hall b (digit_range_of_mem_decimal hb)

/-- **The numeral of a length within the limit is read back.** -/
theorem validateContentLength_decimal {n : ℕ} (hn : n ≤ kBodyLimit) :
    validateContentLength (decimal n) = some n := by
  have hle : decimalValue (decimal n) ≤ sizeMax := by
    rw [decimalValue_decimal]
    exact hn.trans (by decide)
  rw [validateContentLength_of_digits (decimal_ne_nil n)
    (fun _ => isDigit_of_mem_decimal) hle, decimalValue_decimal, if_neg (not_lt.mpr hn)]

/-- A length just above the largest `size_t` wraps around to zero. -/
example : validateContentLength (decimal (sizeMax + 1)) = some 0 := by decide

/-! ### The whole range -/

/-- The guard of the loop lets a string pass: the value of every proper prefix, as a
`size_t`, is at most a tenth of the largest one. -/
def Guarded (contentLength : ℕ) (value : Bytes) : Prop :=
  ∀ u w, value = u ++ w → w ≠ [] → decimalFrom contentLength u % (sizeMax + 1) ≤ sizeMax / 10

/-- The guard is asked before each digit. -/
theorem guarded_cons_iff {contentLength : ℕ} {b : UInt8} {value : Bytes} :
    Guarded contentLength (b :: value) ↔
      contentLength % (sizeMax + 1) ≤ sizeMax / 10 ∧
        Guarded (contentLength * 10 + (b.toNat - zeroDigit.toNat)) value := by
  constructor
  · intro h
    refine ⟨h [] (b :: value) rfl (List.cons_ne_nil b value), fun u w he hw => ?_⟩
    have hu := h (b :: u) w (congrArg (b :: ·) he) hw
    rwa [decimalFrom_cons] at hu
  · rintro ⟨h₀, h⟩ u w he hw
    rcases List.cons_eq_append_iff.1 he with ⟨rfl, -⟩ | ⟨u, rfl, he⟩
    · exact h₀
    · rw [decimalFrom_cons]
      exact h u w (List.cons.inj he).2 hw

/-- Only what is left of the number after the wrap counts for it. -/
theorem guarded_mod_iff {contentLength : ℕ} {value : Bytes} :
    Guarded (contentLength % (sizeMax + 1)) value ↔ Guarded contentLength value := by
  simp only [Guarded, decimalFrom_mod]

/-- **The loop over any string**: it ends with the value modulo the range of a `size_t`,
for digits that pass its guard. -/
theorem validateContentLengthLoop_eq_some_iff {value : Bytes} {contentLength n : ℕ}
    (hlt : contentLength ≤ sizeMax) :
    validateContentLengthLoop contentLength value = some n ↔
      (∀ b ∈ value, isDigit b = true) ∧ Guarded contentLength value ∧
        decimalFrom contentLength value % (sizeMax + 1) = n := by
  induction value generalizing contentLength with
  | nil =>
      have hmod : contentLength % (sizeMax + 1) = contentLength :=
        Nat.mod_eq_of_lt (Nat.lt_succ_of_le hlt)
      rw [validateContentLengthLoop, decimalFrom_nil, hmod, Option.some_inj]
      refine ⟨fun h => ⟨by simp, fun u w he hw => ?_, h⟩, fun h => h.2.2⟩
      exact absurd (List.append_eq_nil_iff.1 he.symm).2 hw
  | cons b value ih =>
      have hmod : contentLength % (sizeMax + 1) = contentLength :=
        Nat.mod_eq_of_lt (Nat.lt_succ_of_le hlt)
      rw [validateContentLengthLoop, List.forall_mem_cons, guarded_cons_iff, hmod,
        decimalFrom_cons]
      by_cases hb : isDigit b = true
      · by_cases hguard : contentLength > sizeMax / 10
        · simp only [hb, if_pos hguard, Bool.not_true, Bool.false_eq_true, if_false,
            reduceCtorEq, false_iff]
          omega
        · have hnext := @ih ((contentLength * 10 + (b.toNat - zeroDigit.toNat)) % (sizeMax + 1))
            (Nat.le_of_lt_succ (Nat.mod_lt _ (Nat.succ_pos sizeMax)))
          rw [guarded_mod_iff, decimalFrom_mod] at hnext
          have hle : contentLength ≤ sizeMax / 10 := not_lt.1 hguard
          rw [hb, if_neg hguard]
          simp only [Bool.not_true, Bool.false_eq_true, if_false, hle, true_and]
          exact hnext
      · simp only [hb, Bool.not_false, if_true, reduceCtorEq, false_and, Bool.false_eq_true]

/-- **`ValidateContentLength` on any string.** -/
theorem validateContentLength_eq_some_iff {value : Bytes} {n : ℕ} :
    validateContentLength value = some n ↔
      value ≠ [] ∧ (∀ b ∈ value, isDigit b = true) ∧ Guarded 0 value ∧
        decimalValue value % (sizeMax + 1) = n ∧ n ≤ kBodyLimit := by
  rw [validateContentLength]
  by_cases hne : value = []
  · rw [if_pos hne]
    exact iff_of_false (fun h => by cases h) fun h => h.1 hne
  · rw [if_neg hne]
    cases hloop : validateContentLengthLoop 0 value with
    | none =>
        simp only [reduceCtorEq, ne_eq, hne, not_false_eq_true, true_and, false_iff]
        rintro ⟨hdigits, hguarded, hmod, -⟩
        have := (validateContentLengthLoop_eq_some_iff (Nat.zero_le sizeMax)).2
          ⟨hdigits, hguarded, hmod⟩
        rw [hloop] at this
        cases this
    | some m =>
        obtain ⟨hdigits, hguarded, hmod⟩ :=
          (validateContentLengthLoop_eq_some_iff (Nat.zero_le sizeMax)).1 hloop
        have hmod : decimalValue value % (sizeMax + 1) = m := hmod
        by_cases hm : m > kBodyLimit
        · simp only [if_pos hm, reduceCtorEq, hmod, false_iff]
          omega
        · simp only [if_neg hm, Option.some_inj, hmod]
          refine ⟨fun h => ⟨hne, hdigits, hguarded, h, by omega⟩, fun h => h.2.2.2.1⟩

/-- A value within the range of a `size_t` passes the guard. -/
theorem guarded_of_le {value : Bytes} (hle : decimalValue value ≤ sizeMax) :
    Guarded 0 value := by
  rintro u w rfl hw
  obtain ⟨b, w, rfl⟩ := List.exists_cons_of_ne_nil hw
  have hgrow := le_decimalFrom (decimalFrom 0 u * 10 + (b.toNat - zeroDigit.toNat)) w
  rw [decimalValue, decimalFrom_append, decimalFrom_cons] at hle
  have hmod := Nat.mod_le (decimalFrom 0 u) (sizeMax + 1)
  omega

/-- A digit string too large for a `size_t` that comes through as a length within the
limit: its value wraps around, and the guard misses it at every digit. -/
def WrapsAround (value : Bytes) : Prop :=
  (∀ b ∈ value, isDigit b = true) ∧ sizeMax < decimalValue value ∧ Guarded 0 value ∧
    decimalValue value % (sizeMax + 1) ≤ kBodyLimit

/-- **`ValidateContentLength` decodes the decimal numbers within the limit**, and nothing
else, exactly for the strings that do not wrap around. -/
theorem decodes_iff (value : Bytes) :
    (∀ n, validateContentLength value = some n ↔
      value ≠ [] ∧ (∀ b ∈ value, isDigit b = true) ∧ decimalValue value = n ∧
        n ≤ kBodyLimit) ↔
      ¬ WrapsAround value := by
  have hlimit : kBodyLimit < sizeMax := by decide
  constructor
  · rintro h ⟨hdigits, hlarge, hguarded, hwithin⟩
    have hne : value ≠ [] := by
      rintro rfl
      exact absurd hlarge (by decide)
    obtain ⟨-, -, hvalue, -⟩ := (h _).1
      (validateContentLength_eq_some_iff.2 ⟨hne, hdigits, hguarded, rfl, hwithin⟩)
    omega
  · intro hwraps n
    rw [validateContentLength_eq_some_iff]
    by_cases hle : decimalValue value ≤ sizeMax
    · have hmod : decimalValue value % (sizeMax + 1) = decimalValue value :=
        Nat.mod_eq_of_lt (Nat.lt_succ_of_le hle)
      rw [hmod]
      exact ⟨fun ⟨hne, hdigits, _, h⟩ => ⟨hne, hdigits, h⟩,
        fun ⟨hne, hdigits, h⟩ => ⟨hne, hdigits, guarded_of_le hle, h⟩⟩
    · -- above the range, neither side has a length
      constructor
      · rintro ⟨-, hdigits, hguarded, hmod, hn⟩
        exact absurd ⟨hdigits, not_le.1 hle, hguarded, hmod ▸ hn⟩ hwraps
      · rintro ⟨-, -, hvalue, hn⟩
        omega

/-- The first number beyond a `size_t` is taken for zero. -/
theorem not_decodes :
    ¬ ∀ (value : Bytes) (n : ℕ), validateContentLength value = some n ↔
      value ≠ [] ∧ (∀ b ∈ value, isDigit b = true) ∧ decimalValue value = n ∧
        n ≤ kBodyLimit := by
  intro h
  have hzero := ((h (decimal (sizeMax + 1)) 0).1 (by decide)).2.2.1
  rw [decimalValue_decimal] at hzero
  exact absurd hzero (by decide)

/-- The lengths no message can have: nothing, something that is not a number, or a number
above the limit. -/
def InvalidLength (value : Bytes) : Prop :=
  value = [] ∨ (∃ b ∈ value, isDigit b = false) ∨ kBodyLimit < decimalValue value

/-- **Invalid lengths are refused** as long as they are in the range of a `size_t`. -/
theorem validateContentLength_of_invalid {value : Bytes} (h : InvalidLength value)
    (hle : decimalValue value ≤ sizeMax) : validateContentLength value = none := by
  rcases h with rfl | ⟨b, hb, hdigit⟩ | hlimit
  · rfl
  · exact validateContentLength_of_nonDigit hb hdigit
  · by_cases hdigits : ∀ b ∈ value, isDigit b = true
    · have hne : value ≠ [] := by
        rintro rfl
        exact absurd hlimit (by decide)
      rw [validateContentLength_of_digits hne hdigits hle, if_pos hlimit]
    · simp only [not_forall] at hdigits
      obtain ⟨b, hb, hdigit⟩ := hdigits
      exact validateContentLength_of_nonDigit hb (by simpa using hdigit)

end Camille
