import Mathlib.Algebra.GroupWithZero.Nat
import Mathlib.Data.List.Basic
import Mathlib.Logic.Relation

/-!
# Machines Driven by Events

A machine is given by what it does on an event: `step s e` is the state behind the event,
or `none` where the event cannot happen. `after` takes a sequence of events. What every
event preserves holds behind every sequence, and a machine whose every event is matched by
some steps of another one is matched by it for whole sequences.

The relation of a simulation may look at the events still to come, so that what the
machine is told one event at a time the other one may hold from the beginning.

## Main results

* `after_append`: two sequences, one behind the other.
* `invariant_of_after`: the invariant rule.
* `simulates_of_after`: the simulation rule.
* `length_le_of_after`: the amortisation rule.
-/

namespace Lib

variable {σ ε τ : Type*} {step : σ → ε → Option σ}

/-- The machine behind a sequence of events. -/
def after (step : σ → ε → Option σ) : σ → List ε → Option σ
  | s, [] => some s
  | s, e :: es => (step s e).bind fun s' => after step s' es

/-- A step, and the run behind it. -/
theorem after_cons_eq_some {s s' : σ} {e : ε} {es : List ε} :
    after step s (e :: es) = some s' ↔ ∃ s₁, step s e = some s₁ ∧ after step s₁ es = some s' :=
  Option.bind_eq_some_iff

/-- **Two sequences**, one behind the other. -/
theorem after_append (s : σ) (es es' : List ε) :
    after step s (es ++ es') = (after step s es).bind fun s' => after step s' es' := by
  induction es generalizing s with
  | nil => rfl
  | cons e es ih =>
      rw [List.cons_append, after, after, Option.bind_assoc]
      exact congrArg (Option.bind (step s e)) (funext fun s₁ => ih s₁)

/-- The last event of a sequence. -/
theorem after_concat_eq_some {s s' : σ} {e : ε} {es : List ε} :
    after step s (es ++ [e]) = some s' ↔ ∃ s₁, after step s es = some s₁ ∧ step s₁ e = some s' := by
  rw [after_append, Option.bind_eq_some_iff]
  refine exists_congr fun s₁ => and_congr_right fun _ => ?_
  rw [after_cons_eq_some]
  constructor
  · rintro ⟨s₂, hstep, he⟩
    obtain rfl := Option.some.inj he
    exact hstep
  · intro hstep
    exact ⟨s', hstep, rfl⟩

/-- **The invariant rule.** What every event preserves holds behind every sequence. -/
theorem invariant_of_after {I : σ → Prop}
    (hstep : ∀ s e s', I s → step s e = some s' → I s') {s s' : σ} {es : List ε}
    (h : after step s es = some s') (hs : I s) : I s' := by
  induction es generalizing s with
  | nil =>
      obtain rfl := Option.some.inj h
      exact hs
  | cons e es ih =>
      obtain ⟨s₁, hs₁, hrest⟩ := after_cons_eq_some.mp h
      exact ih hrest (hstep s e s₁ hs hs₁)

/-- **The amortisation rule.** When every event is paid for, by what it brings, by what the
machine earns with it or by what it owes less behind it, whole sequences are. -/
theorem length_le_of_after {owes earned : σ → ℕ} {brings : ε → ℕ}
    (hstep : ∀ s e s', step s e = some s' →
      1 + owes s' + earned s ≤ brings e + owes s + earned s')
    {s s' : σ} {es : List ε} (h : after step s es = some s') :
    es.length + owes s' + earned s ≤ (es.map brings).sum + owes s + earned s' := by
  induction es generalizing s with
  | nil =>
      obtain rfl := Option.some.inj h
      simp
  | cons e es ih =>
      obtain ⟨s₁, hs₁, hrest⟩ := after_cons_eq_some.mp h
      have hfirst := hstep s e s₁ hs₁
      have hothers := ih hrest
      rw [List.length_cons, List.map_cons, List.sum_cons]
      omega

/-- **The simulation rule.** When every event, whatever comes behind it, is matched by
steps of the other machine, whole sequences are. -/
theorem simulates_of_after {next : τ → τ → Prop} {R : List ε → σ → τ → Prop}
    (hstep : ∀ e es s s' t, R (e :: es) s t → step s e = some s' →
      ∃ t', Relation.ReflTransGen next t t' ∧ R es s' t')
    {s s' : σ} {t : τ} {es : List ε} (h : after step s es = some s') (hs : R es s t) :
    ∃ t', Relation.ReflTransGen next t t' ∧ R [] s' t' := by
  induction es generalizing s t with
  | nil =>
      obtain rfl := Option.some.inj h
      exact ⟨t, .refl, hs⟩
  | cons e es ih =>
      obtain ⟨s₁, hs₁, hrest⟩ := after_cons_eq_some.mp h
      obtain ⟨t₁, hnext, hR⟩ := hstep e es s s₁ t hs hs₁
      obtain ⟨t', hnext', hR'⟩ := ih hrest hR
      exact ⟨t', hnext.trans hnext', hR'⟩

end Lib
