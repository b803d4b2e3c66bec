import Camille.Lib.Cursor

/-!
# What a Program with a Cursor Costs

A program that reads a list through a cursor pays for every read and for every move of the
cursor. `Cursor.Affords` is the postcondition that goes with it, as `Cursor.Safe` is the one
for where it reads: started with a budget, the program stays within it, and its result, its
last position and what it has left meet a condition.

## Main results

* `Cursor.Affords.length_le`: a budget bounds how often the list is touched.
* `affords_pure`, `affords_bind`, `affords_readAt`, `affords_seek`: the rules, one for each
  way to build a program.
* `affords_view`: a view costs its length.
-/

namespace Lib

namespace Cursor

variable {α β γ : Type} {c : Cursor α β} {f : β → Cursor α γ} {data : List α} {pos k : ℕ}

/-- Started with the budget `k`, the program stays within it, and its result, its last
position and the budget that is left meet a condition. -/
def Affords (c : Cursor α β) (data : List α) (pos k : ℕ) (Q : β → ℕ → ℕ → Prop) : Prop :=
  (c.touched data pos).length ≤ k ∧
    ∀ b pos', c.result data pos = some (b, pos') → Q b pos' (k - (c.touched data pos).length)

/-- **A budget bounds what is touched.** -/
theorem Affords.length_le {Q : β → ℕ → ℕ → Prop} (h : c.Affords data pos k Q) :
    (c.touched data pos).length ≤ k :=
  h.1

/-- A weaker condition is met as well. -/
theorem Affords.mono {Q Q' : β → ℕ → ℕ → Prop} (h : c.Affords data pos k Q)
    (hQ : ∀ b pos' k', Q b pos' k' → Q' b pos' k') : c.Affords data pos k Q' :=
  ⟨h.1, fun b pos' hr => hQ b pos' _ (h.2 b pos' hr)⟩

/-- The last position is one of the list. -/
theorem Affords.bounded {Q : β → ℕ → ℕ → Prop} (h : c.Affords data pos k Q)
    (hpos : pos ≤ data.length) :
    c.Affords data pos k fun b pos' k' => Q b pos' k' ∧ pos' ≤ data.length :=
  ⟨h.1, fun b pos' hr => ⟨h.2 b pos' hr, c.le_length data pos b pos' hr hpos⟩⟩

/-- A value costs nothing. -/
theorem affords_pure {b : β} {Q : β → ℕ → ℕ → Prop} (h : Q b pos k) :
    (pure b : Cursor α β).Affords data pos k Q := by
  refine ⟨Nat.zero_le k, fun b' pos' hr => ?_⟩
  obtain ⟨rfl, rfl⟩ := Prod.mk.inj (Option.some.inj hr)
  exact h

/-- What a program touches, and then what the one behind it touches. -/
theorem touched_bind (c : Cursor α β) (f : β → Cursor α γ) (data : List α) (pos : ℕ) :
    (c >>= f).touched data pos = c.touched data pos ++
      (c.result data pos).elim [] fun r => (f r.1).touched data r.2 := by
  show (Cursor.bind c f).touched data pos = _
  unfold touched result Cursor.bind
  dsimp only
  cases (c.run data pos).2 with
  | none => exact (List.append_nil _).symm
  | some r => rfl

/-- **One program after the other**: what the first one leaves, the second one spends. -/
theorem affords_bind {Q : γ → ℕ → ℕ → Prop}
    (h : c.Affords data pos k fun b pos' k' => (f b).Affords data pos' k' Q) :
    (c >>= f).Affords data pos k Q := by
  rw [Affords, touched_bind, result_bind]
  obtain ⟨hle, hf⟩ := h
  cases hr : c.result data pos with
  | none => exact ⟨by simpa using hle, fun b pos' he => by cases he⟩
  | some r =>
      obtain ⟨hle', hQ⟩ := hf r.1 r.2 hr
      rw [Option.elim_some, List.length_append]
      refine ⟨by omega, fun b pos' he => ?_⟩
      rw [← Nat.sub_sub]
      exact hQ b pos' he

/-- **A read costs one.** -/
theorem affords_readAt {i : ℕ} {Q : α → ℕ → ℕ → Prop} (hk : 1 ≤ k)
    (h : ∀ a, data[i]? = some a → Q a pos (k - 1)) : (readAt i).Affords data pos k Q := by
  refine ⟨hk, fun a pos' hr => ?_⟩
  obtain ⟨a', hi, he⟩ := Option.map_eq_some_iff.1 hr
  obtain ⟨rfl, rfl⟩ := Prod.mk.inj he
  exact h a' hi

/-- **A move costs one.** -/
theorem affords_seek {i : ℕ} {Q : Unit → ℕ → ℕ → Prop} (hk : 1 ≤ k)
    (h : i ≤ data.length → Q () i (k - 1)) :
    (seek i : Cursor α Unit).Affords data pos k Q := by
  refine ⟨hk, fun b pos' hr => ?_⟩
  rw [result, seek] at hr
  dsimp only at hr
  split at hr
  · rename_i hle
    obtain ⟨-, rfl⟩ := Prod.mk.inj (Option.some.inj hr)
    exact h hle
  · cases hr

/-- Asking for the position costs nothing. -/
theorem affords_here {Q : ℕ → ℕ → ℕ → Prop} (h : Q pos pos k) :
    (here : Cursor α ℕ).Affords data pos k Q := by
  refine ⟨Nat.zero_le k, fun b pos' hr => ?_⟩
  obtain ⟨rfl, rfl⟩ := Prod.mk.inj (Option.some.inj hr)
  exact h

/-- Nor does asking for what is left. -/
theorem affords_remaining {Q : ℕ → ℕ → ℕ → Prop} (h : Q (data.length - pos) pos k) :
    (remaining : Cursor α ℕ).Affords data pos k Q := by
  refine ⟨Nat.zero_le k, fun b pos' hr => ?_⟩
  obtain ⟨rfl, rfl⟩ := Prod.mk.inj (Option.some.inj hr)
  exact h

/-- A read ahead of the cursor. -/
theorem affords_peek {i : ℕ} {Q : α → ℕ → ℕ → Prop} (hk : 1 ≤ k)
    (h : ∀ a, data[pos + i]? = some a → Q a pos (k - 1)) : (peek i).Affords data pos k Q :=
  affords_bind (affords_here (affords_readAt hk h))

/-- A move ahead. -/
theorem affords_skip {i : ℕ} {Q : Unit → ℕ → ℕ → Prop} (hk : 1 ≤ k)
    (h : pos + i ≤ data.length → Q () (pos + i) (k - 1)) :
    (skip i : Cursor α Unit).Affords data pos k Q :=
  affords_bind (affords_here (affords_seek hk h))

/-- **A view costs its length.** -/
theorem affords_view {first n : ℕ} {Q : List α → ℕ → ℕ → Prop} (hk : n ≤ k)
    (h : ∀ as, Q as pos (k - n)) : (view first n).Affords data pos k Q := by
  induction n generalizing first k Q with
  | zero => exact affords_pure (h [])
  | succ n ih =>
      refine affords_bind (affords_readAt (by omega) fun a _ => ?_)
      refine affords_bind (ih (by omega) fun as => affords_pure ?_)
      have := h (a :: as)
      rwa [Nat.sub_sub, Nat.add_comm 1 n]

end Cursor

end Lib
