import Mathlib.Data.List.TakeWhile

/-!
# Scanning a Token off a List

A hand-written tokeniser moves a cursor over the bytes that are left until it meets a
stop byte or the end, and gives up on a bad byte: `advance stop bad`. The cursor is the
list of what is left, so that `*pos` is the head and `pos == end` is emptiness;
`between first last` is the view of what lies between two cursors.

## Main results

* `advance_eq_some_iff`: a scan succeeds exactly on a run of good bytes up to a stop.
* `between_append`: the view between two cursors is what was consumed.
* `append_inj_of_atStop`: a text is taken apart at its first stop in one way.
-/

namespace Lib

variable {α : Type*}

/-- Move over the list up to the first byte that stops the scan, or to its end; `none`
when a bad byte comes first. -/
def advance (stop bad : α → Bool) : List α → Option (List α)
  | [] => some []
  | b :: rest =>
    if stop b then some (b :: rest)
    else if bad b then none
    else advance stop bad rest

/-- What lies between the cursor `first` and the later cursor `last`. -/
def between (first last : List α) : List α :=
  first.take (first.length - last.length)

/-- A cursor that has moved over `t` has `t` behind it. -/
@[simp] theorem between_append (t r : List α) : between (t ++ r) r = t := by
  simp [between]

/-- Of a text taken apart twice: a part without `c` ends before the one that holds it. -/
theorem exists_of_append_eq {m r x y : List α} {c : α} (h : m ++ r = x ++ y) (hm : c ∉ m)
    (hx : c ∈ x) : ∃ t, c ∈ t ∧ x = m ++ t ∧ r = t ++ y := by
  rcases List.append_eq_append_iff.mp h with ⟨t, rfl, rfl⟩ | ⟨t, rfl, -⟩
  · exact ⟨t, (List.mem_append.mp hx).resolve_left hm, rfl, rfl⟩
  · exact absurd (List.mem_append_left t hx) hm

/-- The cursor is at the end or on a stop byte. -/
def AtStop (stop : α → Bool) (r : List α) : Prop :=
  ∀ b ∈ r.head?, stop b = true

/-- At the end there is a stop. -/
@[simp] theorem atStop_nil (stop : α → Bool) : AtStop stop [] := by
  simp [AtStop]

/-- Elsewhere the first byte tells. -/
@[simp] theorem atStop_cons {stop : α → Bool} {b : α} {r : List α} :
    AtStop stop (b :: r) ↔ stop b = true := by
  simp [AtStop]

/-- A stop stays one when more bytes come behind it. -/
theorem AtStop.append {stop : α → Bool} {r : List α} (h : AtStop stop r) {x : List α}
    (hx : r ≠ [] ∨ AtStop stop x) : AtStop stop (r ++ x) := by
  cases r with
  | nil => exact hx.resolve_left (not_not.mpr rfl)
  | cons b r => exact atStop_cons.mpr (atStop_cons.mp h)

/-- A stop that is not the end does not depend on what comes behind. -/
theorem AtStop.of_append {stop : α → Bool} {r x : List α} (h : AtStop stop (r ++ x))
    (hr : r ≠ []) : AtStop stop r := by
  obtain ⟨b, r, rfl⟩ := List.exists_cons_of_ne_nil hr
  exact atStop_cons.mpr (atStop_cons.mp h)

/-- What stands before the first stop byte. -/
theorem takeWhile_append_of_atStop {stop : α → Bool} {t r : List α}
    (ht : ∀ b ∈ t, stop b = false) (hr : AtStop stop r) :
    (t ++ r).takeWhile (fun b => !stop b) = t := by
  have hpos : ∀ b ∈ t, (!stop b) = true := by
    intro b hb
    rw [ht b hb]
    rfl
  rw [List.takeWhile_append_of_pos hpos]
  cases r with
  | nil => rw [List.takeWhile_nil, List.append_nil]
  | cons b r => simp [atStop_cons.mp hr]

/-- **A text has one first stop.** -/
theorem append_inj_of_atStop {stop : α → Bool} {t r t' r' : List α} (h : t ++ r = t' ++ r')
    (ht : ∀ b ∈ t, stop b = false) (hr : AtStop stop r) (ht' : ∀ b ∈ t', stop b = false)
    (hr' : AtStop stop r') : t = t' ∧ r = r' := by
  obtain rfl : t = t' := by
    rw [← takeWhile_append_of_atStop ht hr, h, takeWhile_append_of_atStop ht' hr']
  exact ⟨rfl, List.append_cancel_left h⟩

section FirstOccurrence

variable [BEq α] [LawfulBEq α] {c : α} {t : List α}

/-- A text without `c` has no stop at `c`. -/
theorem beq_eq_false_of_notMem (h : c ∉ t) : ∀ b ∈ t, (b == c) = false := by
  intro b hb
  have hne : b ≠ c := fun he => h (he ▸ hb)
  exact beq_eq_false_iff_ne.mpr hne

/-- What stands before the first `c`. -/
theorem takeWhile_bne_append (h : c ∉ t) (r : List α) :
    (t ++ c :: r).takeWhile (fun b => b != c) = t :=
  takeWhile_append_of_atStop (beq_eq_false_of_notMem h) (atStop_cons.mpr (beq_self_eq_true c))

/-- What begins with the first `c`. -/
theorem dropWhile_bne_append (h : c ∉ t) (r : List α) :
    (t ++ c :: r).dropWhile (fun b => b != c) = c :: r := by
  have hsplit := List.takeWhile_append_dropWhile (p := fun b => b != c) (l := t ++ c :: r)
  rw [takeWhile_bne_append h] at hsplit
  exact List.append_cancel_left hsplit

/-- Without `c`, nothing is left. -/
theorem dropWhile_bne_of_notMem (h : c ∉ t) : t.dropWhile (fun b => b != c) = [] := by
  rw [List.dropWhile_eq_nil_iff]
  intro b hb
  rw [bne, beq_eq_false_of_notMem h b hb]
  rfl

/-- **A text has one first `c`.** -/
theorem append_cons_inj_of_notMem {r t' r' : List α} (h : t ++ c :: r = t' ++ c :: r')
    (ht : c ∉ t) (ht' : c ∉ t') : t = t' ∧ r = r' := by
  have hstop : ∀ x : List α, AtStop (fun b => b == c) (c :: x) := fun x =>
    atStop_cons.mpr (beq_self_eq_true c)
  obtain ⟨rfl, hrest⟩ := append_inj_of_atStop h (beq_eq_false_of_notMem ht) (hstop r)
    (beq_eq_false_of_notMem ht') (hstop r')
  exact ⟨rfl, (List.cons.inj hrest).2⟩

end FirstOccurrence

/-- The bytes a scan moves over: neither stop bytes nor bad ones. -/
def Plain (stop bad : α → Bool) (t : List α) : Prop :=
  ∀ b ∈ t, stop b = false ∧ bad b = false

/-- The empty text is plain. -/
@[simp] theorem plain_nil (stop bad : α → Bool) : Plain stop bad [] := by
  simp [Plain]

/-- A text is plain byte by byte. -/
@[simp] theorem plain_cons {stop bad : α → Bool} {b : α} {t : List α} :
    Plain stop bad (b :: t) ↔ (stop b = false ∧ bad b = false) ∧ Plain stop bad t := by
  simp [Plain]

section Advance

variable {stop bad : α → Bool}

/-- A scan moves over plain bytes and goes on behind them. -/
theorem advance_append {t : List α} (ht : Plain stop bad t) (r : List α) :
    advance stop bad (t ++ r) = advance stop bad r := by
  induction t with
  | nil => rfl
  | cons b t ih =>
      obtain ⟨⟨hs, hb⟩, ht⟩ := plain_cons.mp ht
      simp [advance, hs, hb, ih ht]

/-- At a stop byte, or at the end, a scan stays. -/
theorem advance_of_atStop {r : List α} (h : AtStop stop r) : advance stop bad r = some r := by
  cases r with
  | nil => rfl
  | cons b r => simp [advance, atStop_cons.mp h]

/-- What a scan moves over, when it succeeds. -/
theorem exists_of_advance_eq_some {l r : List α} (h : advance stop bad l = some r) :
    ∃ t, l = t ++ r ∧ Plain stop bad t ∧ AtStop stop r := by
  induction l with
  | nil =>
      obtain rfl : [] = r := by simpa [advance] using h
      exact ⟨[], by simp⟩
  | cons b l ih =>
      rw [advance] at h
      split at h
      · rename_i hs
        obtain rfl := Option.some.inj h
        exact ⟨[], by simp [hs]⟩
      · rename_i hs
        split at h
        · cases h
        · rename_i hb
          obtain ⟨t, rfl, ht, hr⟩ := ih h
          exact ⟨b :: t, rfl, plain_cons.mpr ⟨⟨by simpa using hs, by simpa using hb⟩, ht⟩, hr⟩

/-- **A scan succeeds exactly on plain bytes that a stop byte or the end follows.** -/
theorem advance_eq_some_iff {l r : List α} :
    advance stop bad l = some r ↔
      ∃ t, l = t ++ r ∧ Plain stop bad t ∧ AtStop stop r := by
  constructor
  · exact exists_of_advance_eq_some
  · rintro ⟨t, rfl, ht, hr⟩
    rw [advance_append ht, advance_of_atStop hr]

end Advance

end Lib
