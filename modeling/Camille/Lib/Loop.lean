import Mathlib.Data.Nat.Basic
import Mathlib.Logic.Function.Iterate
import Mathlib.Logic.Relation

/-!
# Loops with an Exit

A loop is given by what one iteration does: `step s` is either the state the next
iteration starts from or the result with which the loop is left. `run` iterates under
an iteration budget and is executable; `Exits` forgets the budget and is the meaning of
the loop, and `Halts` says that the loop is left at all.

## Main results

* `Exits.unique`: a loop is left with at most one result.
* `exits_iff_of_inl`, `exits_iff_of_inr`: one iteration, unfolded.
* `not_halts_of_fixed`: an iteration that changes nothing is repeated forever.
* `Exits.of_invariant`: the invariant rule.
* `run_map`: a homomorphism of loops is one of their runs.
* `Reaches.exits_iff`, `Reaches.total`: from a state the loop gets to, it goes on alike,
  and of two such states one is met before the other.
* `reaches_of_mem_visited`: the loop gets to the states it visits.
* `exits_iff_run_of_climb`: when every iteration climbs a bounded rank or changes
  nothing, the budget `bound + 1` already decides the loop.
* `exists_run_of_descend`: when every iteration lowers a rank, the loop is left.
* `turns_eq_inr_iff`: a loop that takes turns with others is left after as many of them.
-/

namespace Lib

variable {σ ρ : Type*} {step : σ → σ ⊕ ρ}

/-- At most `n` iterations of the loop from `s`: the result it is left with, or `none`
when it is still running. -/
def run (step : σ → σ ⊕ ρ) : ℕ → σ → Option ρ
  | 0, _ => none
  | n + 1, s =>
    match step s with
    | .inl s' => run step n s'
    | .inr r => some r

/-- The loop started in `s` is left with the result `r`. -/
def Exits (step : σ → σ ⊕ ρ) (s : σ) (r : ρ) : Prop :=
  ∃ n, run step n s = some r

/-- The loop started in `s` is left. -/
def Halts (step : σ → σ ⊕ ρ) (s : σ) : Prop :=
  ∃ r, Exits step s r

/-- An iteration that goes on takes one unit of fuel. -/
theorem run_succ_of_inl {s s' : σ} (h : step s = .inl s') (n : ℕ) :
    run step (n + 1) s = run step n s' := by
  simp only [run, h]

/-- An iteration that leaves the loop ends the run. -/
theorem run_succ_of_inr {s : σ} {r : ρ} (h : step s = .inr r) (n : ℕ) :
    run step (n + 1) s = some r := by
  simp only [run, h]

/-- A larger budget does not change a result. -/
theorem run_mono {m n : ℕ} {s : σ} {r : ρ} (hmn : m ≤ n) (h : run step m s = some r) :
    run step n s = some r := by
  induction m generalizing n s with
  | zero => simp only [run, reduceCtorEq] at h
  | succ m ih =>
      obtain ⟨n, rfl⟩ : ∃ k, n = k + 1 := ⟨n - 1, by omega⟩
      cases hs : step s with
      | inl s' =>
          rw [run_succ_of_inl hs] at h ⊢
          exact ih (by omega) h
      | inr r' =>
          rw [run_succ_of_inr hs] at h ⊢
          exact h

/-- A loop is left with at most one result. -/
theorem Exits.unique {s : σ} {r₁ r₂ : ρ} (h₁ : Exits step s r₁) (h₂ : Exits step s r₂) :
    r₁ = r₂ := by
  obtain ⟨m, hm⟩ := h₁
  obtain ⟨n, hn⟩ := h₂
  have e₁ := run_mono (le_max_left m n) hm
  have e₂ := run_mono (le_max_right m n) hn
  exact Option.some.inj (e₁.symm.trans e₂)

/-- An iteration that goes on hands the loop to the next state. -/
theorem exits_iff_of_inl {s s' : σ} {r : ρ} (h : step s = .inl s') :
    Exits step s r ↔ Exits step s' r := by
  constructor
  · rintro ⟨n, hn⟩
    cases n with
    | zero => simp only [run, reduceCtorEq] at hn
    | succ n => exact ⟨n, (run_succ_of_inl h n).symm.trans hn⟩
  · rintro ⟨n, hn⟩
    exact ⟨n + 1, (run_succ_of_inl h n).trans hn⟩

/-- An iteration that leaves the loop fixes its result. -/
theorem exits_iff_of_inr {s : σ} {r r' : ρ} (h : step s = .inr r) :
    Exits step s r' ↔ r' = r := by
  have hs : Exits step s r := ⟨1, run_succ_of_inr h 0⟩
  exact ⟨fun h' => h'.unique hs, fun e => e ▸ hs⟩

/-- **Stalling.** An iteration that changes nothing is repeated forever. -/
theorem not_halts_of_fixed {s : σ} (h : step s = .inl s) : ¬ Halts step s := by
  rintro ⟨r, n, hn⟩
  induction n with
  | zero => simp only [run, reduceCtorEq] at hn
  | succ n ih => exact ih ((run_succ_of_inl h n).symm.trans hn)

/-- **The invariant rule.** What every iteration preserves and every exit turns into `Q`
holds of the result of the loop. -/
theorem Exits.of_invariant {I : σ → Prop} {Q : ρ → Prop}
    (hstep : ∀ s s', I s → step s = .inl s' → I s')
    (hexit : ∀ s r, I s → step s = .inr r → Q r)
    {s : σ} {r : ρ} (h : Exits step s r) (hs : I s) : Q r := by
  obtain ⟨n, hn⟩ := h
  induction n generalizing s with
  | zero => simp only [run, reduceCtorEq] at hn
  | succ n ih =>
      cases hst : step s with
      | inl s' =>
          rw [run_succ_of_inl hst] at hn
          exact ih (hstep s s' hs hst) hn
      | inr r' =>
          rw [run_succ_of_inr hst] at hn
          exact Option.some.inj hn ▸ hexit s r' hs hst

/-- **Homomorphic loops run alike**: where iterations match along `f` and results along
`g`, so do whole runs. -/
theorem run_map {σ' ρ' : Type*} {step' : σ' → σ' ⊕ ρ'} {f : σ → σ'} {g : ρ → ρ'}
    (h : ∀ s, step' (f s) = (step s).map f g) (n : ℕ) (s : σ) :
    run step' n (f s) = (run step n s).map g := by
  induction n generalizing s with
  | zero => rfl
  | succ n ih =>
      cases hs : step s with
      | inl s' => rw [run_succ_of_inl hs, run_succ_of_inl ((h s).trans (by rw [hs]; rfl)), ih]
      | inr r => rw [run_succ_of_inr hs, run_succ_of_inr ((h s).trans (by rw [hs]; rfl))]; rfl

/-! ### States on the way -/

/-- The loop gets from `s` to `s'`. -/
def Reaches (step : σ → σ ⊕ ρ) (s s' : σ) : Prop :=
  Relation.ReflTransGen (fun s s' => step s = .inl s') s s'

namespace Reaches

/-- A state reaches itself. -/
theorem refl (s : σ) : Reaches step s s := Relation.ReflTransGen.refl

/-- It reaches the next one. -/
theorem single {s s' : σ} (h : step s = .inl s') : Reaches step s s' :=
  Relation.ReflTransGen.single h

/-- What a state reaches reaches no more than the state does. -/
theorem trans {s s' s'' : σ} (h : Reaches step s s') (h' : Reaches step s' s'') :
    Reaches step s s'' :=
  Relation.ReflTransGen.trans h h'

/-- The loop is left from a state on its way as it is from the first one. -/
theorem exits_iff {s s' : σ} (h : Reaches step s s') (r : ρ) :
    Exits step s r ↔ Exits step s' r := by
  induction h with
  | refl => exact Iff.rfl
  | tail _ hstep ih => exact ih.trans (exits_iff_of_inl hstep)

/-- What every iteration preserves holds on the way. -/
theorem of_invariant {I : σ → Prop} (hstep : ∀ s s', I s → step s = .inl s' → I s')
    {s s' : σ} (h : Reaches step s s') (hs : I s) : I s' := by
  induction h with
  | refl => exact hs
  | tail _ hst ih => exact hstep _ _ ih hst

/-- Of two states on the way one comes before the other. -/
theorem total {s a b : σ} (ha : Reaches step s a) (hb : Reaches step s b) :
    Reaches step a b ∨ Reaches step b a :=
  Relation.ReflTransGen.total_of_right_unique
    (fun _ _ _ h h' => Sum.inl.inj (h.symm.trans h')) ha hb

end Reaches

/-- The states in which the first `n` iterations from `s` start. -/
def visited (step : σ → σ ⊕ ρ) : ℕ → σ → List σ
  | 0, _ => []
  | n + 1, s =>
    s :: match step s with
      | .inl s' => visited step n s'
      | .inr _ => []

/-- A state that is visited is reached. -/
theorem reaches_of_mem_visited {n : ℕ} {s s' : σ} (h : s' ∈ visited step n s) :
    Reaches step s s' := by
  induction n generalizing s with
  | zero => cases h
  | succ n ih =>
      rcases List.mem_cons.mp h with rfl | hrest
      · exact .refl _
      · cases hs : step s with
        | inl s₁ =>
            rw [hs] at hrest
            exact (Reaches.single hs).trans (ih hrest)
        | inr r =>
            rw [hs] at hrest
            cases hrest

/-! ### Loops that climb or stall -/

section Climb

variable (rank : σ → ℕ) (bound : ℕ)
  (hclimb : ∀ s s', step s = .inl s' → s' = s ∨ rank s < rank s')
  (hbound : ∀ s, rank s ≤ bound)
include hclimb hbound

/-- A loop that climbs a bounded rank unless it stalls is left, if at all, before the
rank is exhausted. -/
theorem Exits.run_of_climb {s : σ} {r : ρ} (h : Exits step s r) {n : ℕ}
    (hn : bound < rank s + n) : run step n s = some r := by
  induction n generalizing s with
  | zero => exact absurd (hbound s) (by omega)
  | succ n ih =>
      cases hs : step s with
      | inr r' =>
          rw [run_succ_of_inr hs, (exits_iff_of_inr hs).mp h]
      | inl s' =>
          rw [run_succ_of_inl hs]
          rcases hclimb s s' hs with rfl | hlt
          · exact absurd ⟨r, h⟩ (not_halts_of_fixed hs)
          · exact ih ((exits_iff_of_inl hs).mp h) (by omega)

omit hbound in
/-- A loop that climbs or stalls gets nowhere, or to a higher rank. -/
theorem Reaches.climbs {s s' : σ} (h : Reaches step s s') : s' = s ∨ rank s < rank s' := by
  induction h with
  | refl => exact .inl rfl
  | @tail a b _ hstep ih =>
      rcases hclimb a b hstep with rfl | hlt
      · exact ih
      · rcases ih with rfl | h'
        · exact .inr hlt
        · exact .inr (lt_trans h' hlt)

/-- **A climbing loop is decided by a finite budget.** -/
theorem exits_iff_run_of_climb {s : σ} {r : ρ} :
    Exits step s r ↔ run step (bound + 1) s = some r :=
  ⟨fun h => h.run_of_climb rank bound hclimb hbound (by omega), fun h => ⟨_, h⟩⟩

end Climb

/-! ### Loops that descend -/

/-- **A descending loop is left**, within as many iterations as its rank allows. -/
theorem exists_run_of_descend {I : σ → Prop} (rank : σ → ℕ)
    (hdescend : ∀ s s', I s → step s = .inl s' → I s' ∧ rank s' < rank s) {s : σ} (hs : I s)
    {n : ℕ} (hn : rank s < n) : ∃ r, run step n s = some r := by
  induction n generalizing s with
  | zero => exact absurd hn (Nat.not_lt_zero _)
  | succ n ih =>
      cases hst : step s with
      | inr r => exact ⟨r, run_succ_of_inr hst n⟩
      | inl s' =>
          obtain ⟨hs', hlt⟩ := hdescend s s' hs hst
          rw [run_succ_of_inl hst]
          exact ih hs' (by omega)

/-! ### Turns -/

/-- One turn of a loop that may have been left already. -/
def turn (step : σ → σ ⊕ ρ) : σ ⊕ ρ → σ ⊕ ρ
  | .inl s => step s
  | .inr r => .inr r

/-- The loop after `n` turns. -/
def turns (step : σ → σ ⊕ ρ) (n : ℕ) (x : σ ⊕ ρ) : σ ⊕ ρ :=
  (turn step)^[n] x

/-- One turn more is the last one. -/
theorem turns_succ (n : ℕ) (x : σ ⊕ ρ) : turns step (n + 1) x = turn step (turns step n x) :=
  Function.iterate_succ_apply' (turn step) n x

/-- A loop that was left stays so. -/
theorem turns_inr (n : ℕ) (r : ρ) : turns step n (.inr r) = .inr r :=
  Function.iterate_fixed rfl n

/-- **Turns are iterations.** -/
theorem turns_eq_inr_iff {n : ℕ} {s : σ} {r : ρ} :
    turns step n (.inl s) = .inr r ↔ run step n s = some r := by
  induction n generalizing s with
  | zero => simp [turns, run]
  | succ n ih =>
      have hfirst : turns step (n + 1) (.inl s) = turns step n (step s) := rfl
      rw [hfirst]
      cases hs : step s with
      | inl s' => rw [run_succ_of_inl hs, ih]
      | inr r' => rw [run_succ_of_inr hs, turns_inr, Sum.inr.injEq, Option.some.injEq]

/-- A loop that was left had a last turn. -/
theorem exists_last_turn {n : ℕ} {s : σ} {r : ρ} (h : turns step n (.inl s) = .inr r) :
    ∃ k s', turns step k (.inl s) = .inl s' ∧ step s' = .inr r := by
  induction n with
  | zero => cases h
  | succ n ih =>
      rw [turns_succ] at h
      cases hn : turns step n (.inl s) with
      | inl s' =>
          rw [hn] at h
          exact ⟨n, s', hn, h⟩
      | inr r' =>
          rw [hn] at h
          exact ih (hn.trans h)

/-- The states a loop gets to are those behind its turns. -/
theorem Reaches.exists_turns {s s' : σ} (h : Reaches step s s') :
    ∃ k, turns step k (.inl s) = .inl s' := by
  induction h with
  | refl => exact ⟨0, rfl⟩
  | tail _ hstep ih =>
      obtain ⟨k, hk⟩ := ih
      exact ⟨k + 1, by rw [turns_succ, hk]; exact hstep⟩

end Lib
