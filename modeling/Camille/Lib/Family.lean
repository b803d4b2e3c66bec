import Camille.Lib.Machine
import Mathlib.Data.List.Induction

/-!
# Families of Machines

A growing family of machines that share nothing: at any time a new member can be added, in
a state of its own, or one of the members takes an event. Whatever the order of all this,
every member is where its own events take it from the state it was added in.

A family may fall with the first of its members that falls, and take no event any more.

## Main results

* `onTheirOwn_of_after`: a family, projected to each of its members.
* `FallsWith.added`, `FallsWith.set`: what keeps a family that falls with its members.
-/

namespace Lib

variable {σ ε : Type*}

/-- What happens to a family: a member is added, or one takes an event. -/
inductive FamilyEvent (σ ε : Type*)
  | added (s : σ)
  | member (i : ℕ) (e : ε)

/-- The family behind an event; `none` where a member that is not there takes one, or one
that cannot happen to it. -/
def familyStep (step : σ → ε → Option σ) (members : List σ) : FamilyEvent σ ε → Option (List σ)
  | .added s => some (members ++ [s])
  | .member i e => members[i]?.bind fun s => (step s e).map fun s' => members.set i s'

namespace FamilyEvent

/-- The state a member is added in. -/
def init : FamilyEvent σ ε → Option σ
  | added s => some s
  | member _ _ => none

/-- The event, when it is one of member `i`. -/
def own (i : ℕ) : FamilyEvent σ ε → Option ε
  | added _ => none
  | member j e => if j = i then some e else none

end FamilyEvent

/-- The states the members are added in, in order. -/
def inits (es : List (FamilyEvent σ ε)) : List σ :=
  es.filterMap FamilyEvent.init

/-- The events of member `i`, in order. -/
def ownEvents (i : ℕ) (es : List (FamilyEvent σ ε)) : List ε :=
  es.filterMap (FamilyEvent.own i)

/-- One event more, one member more at most. -/
theorem inits_concat (es : List (FamilyEvent σ ε)) (e : FamilyEvent σ ε) :
    inits (es ++ [e]) = inits es ++ e.init.toList := by
  rw [inits, List.filterMap_append]
  cases h : e.init <;> simp [inits, h]

/-- One event more, one of its own at most. -/
theorem ownEvents_concat (i : ℕ) (es : List (FamilyEvent σ ε)) (e : FamilyEvent σ ε) :
    ownEvents i (es ++ [e]) = ownEvents i es ++ (e.own i).toList := by
  rw [ownEvents, List.filterMap_append]
  cases h : e.own i <;> simp [ownEvents, h]

/-- Every member is where its own events take it, and who is not there had none. -/
structure OnTheirOwn (step : σ → ε → Option σ) (es : List (FamilyEvent σ ε))
    (members : List σ) : Prop where
  each : ∀ i, members[i]? = (inits es)[i]?.bind fun s => after step s (ownEvents i es)
  length : members.length = (inits es).length
  idle : ∀ i, members.length ≤ i → ownEvents i es = []

/-- **One event** of a family. -/
theorem familyStep_onTheirOwn {step : σ → ε → Option σ} {es : List (FamilyEvent σ ε)}
    {members members' : List σ} {e : FamilyEvent σ ε} (h : OnTheirOwn step es members)
    (hstep : familyStep step members e = some members') :
    OnTheirOwn step (es ++ [e]) members' := by
  cases e with
  | added s =>
      obtain rfl := Option.some.inj hstep
      have hinits : inits (es ++ [.added s]) = inits es ++ [s] := inits_concat es _
      have hsame : ∀ i, ownEvents i (es ++ [.added s]) = ownEvents i es := by
        intro i
        rw [ownEvents_concat]
        exact List.append_nil _
      refine ⟨fun i => ?_, ?_, fun i hi => ?_⟩
      · rw [hinits, hsame]
        rcases Nat.lt_or_ge i members.length with hlt | hge
        · rw [List.getElem?_append_left hlt, List.getElem?_append_left (h.length ▸ hlt)]
          exact h.each i
        · rw [List.getElem?_append_right hge, List.getElem?_append_right (h.length ▸ hge),
            h.idle i hge, ← h.length]
          cases [s][i - members.length]? <;> rfl
      · rw [hinits, List.length_append, List.length_append, h.length]
      · rw [hsame]
        rw [List.length_append] at hi
        exact h.idle i (by omega)
  | member j e =>
      obtain ⟨t, hj, ht⟩ := Option.bind_eq_some_iff.mp hstep
      obtain ⟨t', hstep', rfl⟩ := Option.map_eq_some_iff.mp ht
      obtain ⟨hlt, -⟩ := List.getElem?_eq_some_iff.mp hj
      have hinits : inits (es ++ [.member j e]) = inits es := by
        rw [inits_concat]
        exact List.append_nil _
      refine ⟨fun i => ?_, ?_, fun i hi => ?_⟩
      · rw [hinits, ownEvents_concat]
        by_cases hij : j = i
        · -- the member whose event it is
          subst hij
          obtain ⟨s, hs, hafter⟩ := Option.bind_eq_some_iff.mp ((h.each j).symm.trans hj)
          rw [List.getElem?_set_self hlt, hs, Option.bind_some, FamilyEvent.own, if_pos rfl,
            Option.toList_some]
          exact (after_concat_eq_some.mpr ⟨t, hafter, hstep'⟩).symm
        · rw [List.getElem?_set_ne hij, FamilyEvent.own, if_neg hij, Option.toList_none,
            List.append_nil]
          exact h.each i
      · rw [hinits, List.length_set, h.length]
      · rw [List.length_set] at hi
        have hij : j ≠ i := by omega
        rw [ownEvents_concat, FamilyEvent.own, if_neg hij, h.idle i hi]
        rfl

/-- **A family, projected to its members**: in any order of events, each is where its own
take it. -/
theorem onTheirOwn_of_after {step : σ → ε → Option σ} {es : List (FamilyEvent σ ε)}
    {members : List σ} (h : after (familyStep step) [] es = some members) :
    OnTheirOwn step es members := by
  induction es using List.reverseRecOn generalizing members with
  | nil =>
      obtain rfl := Option.some.inj h
      exact ⟨fun _ => rfl, rfl, fun _ _ => rfl⟩
  | append_singleton es e ih =>
      obtain ⟨members₁, h₁, hstep⟩ := after_concat_eq_some.mp h
      exact familyStep_onTheirOwn (ih h₁) hstep

/-! ### Families that fall -/

section Falls

variable {ρ : Type*} {fall : σ → Option ρ} {members : List σ}

/-- A family that has fallen is one with a member that fell, in the same way. -/
def FallsWith (fall : σ → Option ρ) (members : List σ) (fallen : Option ρ) : Prop :=
  ∀ r, fallen = some r ↔ ∃ s ∈ members, fall s = some r

/-- Without members nothing falls. -/
theorem fallsWith_nil : FallsWith fall [] none := by
  simp [FallsWith]

/-- Where nothing falls, no member does. -/
theorem FallsWith.ne_some (h : FallsWith fall members none) {s : σ} (hs : s ∈ members) (r : ρ) :
    fall s ≠ some r := by
  intro hr
  cases (h r).mpr ⟨s, hs, hr⟩

/-- A new member has not fallen. -/
theorem FallsWith.added (h : FallsWith fall members none) {s : σ} (hs : fall s = none) :
    FallsWith fall (members ++ [s]) none := by
  intro r
  refine iff_of_false (by simp) ?_
  rintro ⟨t, ht, hr⟩
  rcases List.mem_append.mp ht with ht | ht
  · exact h.ne_some ht r hr
  · rw [List.mem_singleton.mp ht, hs] at hr
    cases hr

/-- The member that took an event is the only one that can have fallen. -/
theorem FallsWith.set (h : FallsWith fall members none) {i : ℕ} {s : σ}
    (hi : members[i]? = some s) (s' : σ) : FallsWith fall (members.set i s') (fall s') := by
  obtain ⟨hlt, -⟩ := List.getElem?_eq_some_iff.mp hi
  intro r
  constructor
  · exact fun hr => ⟨s', List.mem_set hlt s', hr⟩
  · rintro ⟨t, ht, hr⟩
    rcases List.mem_or_eq_of_mem_set ht with ht | rfl
    · exact absurd hr (h.ne_some ht r)
    · exact hr

end Falls

end Lib
