import Mathlib.Data.List.Basic

/-!
# Programs with a Cursor

A program that reads a list through a cursor, by index, together with everything it
touches: the indices it reads and the places it moves the cursor to. A read behind the
end has no value to go on with, nor has a cursor behind the end a meaning, so the program
ends there without a result. A `Cursor` carries the proof that this is the only way to end
so: it has a result exactly when everything it touched lies within the list.

`Safe` is the postcondition that goes with it: the program touches nothing outside the
list, and its result and its last position meet a condition.

## Main results

* `Cursor.within_iff`: everything touched lies within the list exactly when the program
  is safe.
* `safe_pure`, `safe_bind`, `safe_readAt`, `safe_seek`: the rules, one for each way to
  build a program.
* `Cursor.Safe.view`: the view between two places, as a list.
-/

namespace Lib

variable {α β γ : Type}

/-- What a program touches: an index that it reads, or a place it moves the cursor to. -/
inductive Access
  | read (i : ℕ)
  | seek (i : ℕ)
  deriving DecidableEq, Repr

/-- Within a list of length `n`: the cursor may stand at its end, a read may not. -/
def Access.Within (n : ℕ) : Access → Prop
  | read i => i < n
  | seek i => i ≤ n

/-- Whether an access is within the list can be computed. -/
instance (n : ℕ) (a : Access) : Decidable (a.Within n) :=
  match a with
  | .read i => inferInstanceAs (Decidable (i < n))
  | .seek i => inferInstanceAs (Decidable (i ≤ n))

/-- A program over a list and a position: what it touches, and its result with the new
position. -/
structure Cursor (α β : Type) where
  run : List α → ℕ → List Access × Option (β × ℕ)
  eq_none_iff : ∀ data pos,
    (run data pos).2 = none ↔ ∃ a ∈ (run data pos).1, ¬ a.Within data.length
  le_length : ∀ data pos b pos', (run data pos).2 = some (b, pos') →
    pos ≤ data.length → pos' ≤ data.length

namespace Cursor

/-- What a program touches. -/
def touched (c : Cursor α β) (data : List α) (pos : ℕ) : List Access :=
  (c.run data pos).1

/-- The result of a program, and where it leaves the cursor. -/
def result (c : Cursor α β) (data : List α) (pos : ℕ) : Option (β × ℕ) :=
  (c.run data pos).2

/-! ### Programs -/

/-- The program that touches nothing. -/
protected def pure (b : β) : Cursor α β where
  run _ pos := ([], some (b, pos))
  eq_none_iff _ _ := by simp
  le_length _ _ _ _ h hpos := by
    obtain ⟨-, rfl⟩ := Prod.mk.inj (Option.some.inj h)
    exact hpos

/-- One program after the other. -/
protected def bind (c : Cursor α β) (f : β → Cursor α γ) : Cursor α γ where
  run data pos :=
    match (c.run data pos).2 with
    | none => ((c.run data pos).1, none)
    | some (b, pos') =>
      ((c.run data pos).1 ++ ((f b).run data pos').1, ((f b).run data pos').2)
  eq_none_iff data pos := by
    have hc := c.eq_none_iff data pos
    cases hr : (c.run data pos).2 with
    | none =>
        rw [hr] at hc
        simpa using hc
    | some r =>
        rw [hr] at hc
        have hc : ¬ ∃ a ∈ (c.run data pos).1, ¬ a.Within data.length :=
          fun h => nomatch hc.2 h
        rw [(f r.1).eq_none_iff data r.2]
        constructor
        · rintro ⟨a, ha, hw⟩
          exact ⟨a, List.mem_append_right _ ha, hw⟩
        · rintro ⟨a, ha, hw⟩
          rcases List.mem_append.1 ha with ha | ha
          · exact absurd ⟨a, ha, hw⟩ hc
          · exact ⟨a, ha, hw⟩
  le_length data pos b pos' := by
    cases hr : (c.run data pos).2 with
    | none => exact fun h => nomatch h
    | some r =>
        exact fun h hpos =>
          (f r.1).le_length data r.2 b pos' h (c.le_length data pos r.1 r.2 hr hpos)

/-- Programs run one after the other. -/
instance : Monad (Cursor α) where
  pure := Cursor.pure
  bind := Cursor.bind

/-- Read an index. -/
def readAt (i : ℕ) : Cursor α α where
  run data pos := ([.read i], data[i]?.map (·, pos))
  eq_none_iff data pos := by simp [Access.Within]
  le_length data pos b pos' h hpos := by
    obtain ⟨a, -, he⟩ := Option.map_eq_some_iff.1 h
    obtain ⟨-, rfl⟩ := Prod.mk.inj he
    exact hpos

/-- Move the cursor. -/
def seek (i : ℕ) : Cursor α Unit where
  run data _ := ([.seek i], if i ≤ data.length then some ((), i) else none)
  eq_none_iff data _ := by simp [Access.Within]
  le_length data _ _ pos' h _ := by
    split at h
    · rename_i hle
      obtain ⟨-, rfl⟩ := Prod.mk.inj (Option.some.inj h)
      exact hle
    · cases h

/-- The place of the cursor. -/
def here : Cursor α ℕ where
  run _ pos := ([], some (pos, pos))
  eq_none_iff _ _ := by simp
  le_length _ _ _ _ h hpos := by
    obtain ⟨-, rfl⟩ := Prod.mk.inj (Option.some.inj h)
    exact hpos

/-- How much is left in front of the cursor. -/
def remaining : Cursor α ℕ where
  run data pos := ([], some (data.length - pos, pos))
  eq_none_iff _ _ := by simp
  le_length _ _ _ _ h hpos := by
    obtain ⟨-, rfl⟩ := Prod.mk.inj (Option.some.inj h)
    exact hpos

/-- Read `k` places in front of the cursor. -/
def peek (k : ℕ) : Cursor α α := do
  let pos ← here
  readAt (pos + k)

/-- Move the cursor on. -/
def skip (k : ℕ) : Cursor α Unit := do
  let pos ← here
  seek (pos + k)

/-- The view of `n` elements from a place on, every one of them read. -/
def view (first : ℕ) : ℕ → Cursor α (List α)
  | 0 => pure []
  | n + 1 => do
    let a ← readAt first
    let as ← view (first + 1) n
    return a :: as

/-! ### Safety -/

/-- The program touches nothing outside the list, and its result and its last position
meet a condition. -/
def Safe (c : Cursor α β) (data : List α) (pos : ℕ) (Q : β → ℕ → Prop) : Prop :=
  ∃ b pos', c.result data pos = some (b, pos') ∧ Q b pos'

variable {c : Cursor α β} {f : β → Cursor α γ} {data : List α} {pos : ℕ} {Q : β → ℕ → Prop}

/-- **Everything touched lies within the list** exactly when the program is safe. -/
theorem within_iff :
    (∀ a ∈ c.touched data pos, a.Within data.length) ↔ c.Safe data pos fun _ _ => True := by
  have h := c.eq_none_iff data pos
  constructor
  · intro hw
    cases hr : (c.run data pos).2 with
    | none =>
        obtain ⟨a, ha, hn⟩ := h.1 hr
        exact absurd (hw a ha) hn
    | some r => exact ⟨r.1, r.2, hr, trivial⟩
  · rintro ⟨b, pos', hr, -⟩ a ha
    by_contra hn
    have hnone := h.2 ⟨a, ha, hn⟩
    rw [result, hnone] at hr
    cases hr

/-- A weaker condition is met as well. -/
theorem Safe.mono {Q' : β → ℕ → Prop} (h : c.Safe data pos Q)
    (hq : ∀ b pos', Q b pos' → Q' b pos') : c.Safe data pos Q' := by
  obtain ⟨b, pos', hr, hb⟩ := h
  exact ⟨b, pos', hr, hq b pos' hb⟩

/-- A program has one result. -/
theorem Safe.and {Q' : β → ℕ → Prop} (h : c.Safe data pos Q) (h' : c.Safe data pos Q') :
    c.Safe data pos fun b pos' => Q b pos' ∧ Q' b pos' := by
  obtain ⟨b, pos', hr, hb⟩ := h
  obtain ⟨b', pos'', hr', hb'⟩ := h'
  obtain ⟨rfl, rfl⟩ := Prod.mk.inj (Option.some.inj (hr.symm.trans hr'))
  exact ⟨b, pos', hr, hb, hb'⟩

/-- The last position of a safe program is one of the list. -/
theorem Safe.bounded (h : c.Safe data pos Q) (hpos : pos ≤ data.length) :
    c.Safe data pos fun b pos' => Q b pos' ∧ pos' ≤ data.length := by
  obtain ⟨b, pos', hr, hb⟩ := h
  exact ⟨b, pos', hr, hb, c.le_length data pos b pos' hr hpos⟩

/-- Safety is a matter of the result. -/
theorem Safe.congr {c' : Cursor α β} {pos' : ℕ} (h : c.Safe data pos Q)
    (hresult : c'.result data pos' = c.result data pos) : c'.Safe data pos' Q := by
  obtain ⟨b, pos'', hr, hb⟩ := h
  exact ⟨b, pos'', hresult.trans hr, hb⟩

/-- **A value** is safe. -/
@[simp] theorem safe_pure {b : β} : (pure b : Cursor α β).Safe data pos Q ↔ Q b pos := by
  constructor
  · rintro ⟨b', pos', hr, hb⟩
    obtain ⟨rfl, rfl⟩ := Prod.mk.inj (Option.some.inj hr)
    exact hb
  · exact fun h => ⟨b, pos, rfl, h⟩

/-- The result of two programs, one after the other. -/
theorem result_bind (c : Cursor α β) (f : β → Cursor α γ) (data : List α) (pos : ℕ) :
    (c >>= f).result data pos =
      (c.result data pos).bind fun r => (f r.1).result data r.2 := by
  show (Cursor.bind c f).result data pos = _
  unfold result Cursor.bind
  dsimp only
  cases (c.run data pos).2 <;> rfl

/-- **One program after the other**: the second one starts where the first one ends. -/
@[simp] theorem safe_bind {Q : γ → ℕ → Prop} :
    (c >>= f).Safe data pos Q ↔ c.Safe data pos fun b pos' => (f b).Safe data pos' Q := by
  constructor
  · rintro ⟨b, pos', hr, hb⟩
    rw [result_bind] at hr
    obtain ⟨r, hr, hf⟩ := Option.bind_eq_some_iff.1 hr
    exact ⟨r.1, r.2, hr, b, pos', hf, hb⟩
  · rintro ⟨b, pos', hr, b', pos'', hf, hb⟩
    exact ⟨b', pos'', by rw [result_bind, hr]; exact hf, hb⟩

/-- **A read** is safe at an index of the list. -/
@[simp] theorem safe_readAt {i : ℕ} {Q : α → ℕ → Prop} :
    (readAt i).Safe data pos Q ↔ ∃ a, data[i]? = some a ∧ Q a pos := by
  constructor
  · rintro ⟨a, pos', hr, ha⟩
    obtain ⟨a', hi, he⟩ := Option.map_eq_some_iff.1 hr
    obtain ⟨rfl, rfl⟩ := Prod.mk.inj he
    exact ⟨a', hi, ha⟩
  · rintro ⟨a, hi, ha⟩
    exact ⟨a, pos, by simp [result, readAt, hi], ha⟩

/-- **A move** is safe up to the end of the list. -/
@[simp] theorem safe_seek {i : ℕ} {Q : Unit → ℕ → Prop} :
    (seek i : Cursor α Unit).Safe data pos Q ↔ i ≤ data.length ∧ Q () i := by
  constructor
  · rintro ⟨_, pos', hr, hq⟩
    rw [result, seek] at hr
    dsimp only at hr
    split at hr
    · rename_i hle
      obtain ⟨-, rfl⟩ := Prod.mk.inj (Option.some.inj hr)
      exact ⟨hle, hq⟩
    · cases hr
  · rintro ⟨hle, hq⟩
    exact ⟨(), i, by rw [result, seek]; exact if_pos hle, hq⟩

/-- **The position** is safe to ask for. -/
@[simp] theorem safe_here {Q : ℕ → ℕ → Prop} :
    (here : Cursor α ℕ).Safe data pos Q ↔ Q pos pos := by
  constructor
  · rintro ⟨b, pos', hr, hb⟩
    obtain ⟨rfl, rfl⟩ := Prod.mk.inj (Option.some.inj hr)
    exact hb
  · exact fun h => ⟨pos, pos, rfl, h⟩

/-- **What is left** is safe to ask for. -/
@[simp] theorem safe_remaining {Q : ℕ → ℕ → Prop} :
    (remaining : Cursor α ℕ).Safe data pos Q ↔ Q (data.length - pos) pos := by
  constructor
  · rintro ⟨b, pos', hr, hb⟩
    obtain ⟨rfl, rfl⟩ := Prod.mk.inj (Option.some.inj hr)
    exact hb
  · exact fun h => ⟨data.length - pos, pos, rfl, h⟩

/-- A read ahead of the cursor is safe inside the list. -/
@[simp] theorem safe_peek {k : ℕ} {Q : α → ℕ → Prop} :
    (peek k).Safe data pos Q ↔ ∃ a, data[pos + k]? = some a ∧ Q a pos := by
  simp [peek]

/-- A move ahead is safe up to its end. -/
@[simp] theorem safe_skip {k : ℕ} {Q : Unit → ℕ → Prop} :
    (skip k : Cursor α Unit).Safe data pos Q ↔ pos + k ≤ data.length ∧ Q () (pos + k) := by
  simp [skip]

/-- **A view** within the list. -/
theorem safe_view {first n : ℕ} {Q : List α → ℕ → Prop} (h : first + n ≤ data.length) :
    (view first n).Safe data pos Q ↔ Q ((data.drop first).take n) pos := by
  induction n generalizing first Q with
  | zero => simp [view]
  | succ n ih =>
      have hlt : first < data.length := by omega
      have hdrop : (data.drop first).take (n + 1) =
          data[first] :: (data.drop (first + 1)).take n := by
        rw [List.drop_eq_getElem_cons hlt, List.take_succ_cons]
      have hnext : first + 1 + n ≤ data.length := by omega
      simp [view, ih hnext, hdrop, List.getElem?_eq_getElem hlt]

/-- A program is safe, or it has no result. -/
theorem safe_or_eq_none : c.Safe data pos (fun _ _ => True) ∨ c.result data pos = none := by
  cases hr : c.result data pos with
  | none => exact .inr rfl
  | some r => exact .inl ⟨r.1, r.2, hr, trivial⟩

end Cursor

end Lib
