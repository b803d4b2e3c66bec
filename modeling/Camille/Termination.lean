import Camille.Outcomes

/-!
# Which Calls End

A parser is only ever seen between two calls, and what a call meets there is one of
finitely many states: the parser never rests at `kBodyIdentify` or `kBodyChunked`
(`Reachable.rests`). From the states that are left the loop is stuck in two places, both
of them behind the headers: at `kBodyIdentify` with fewer bytes than announced, and at
`kBodyValidation` when a call resumes there, with a message that holds no header yet.

## Main results

* `Reachable.rests`: the states a parser rests in.
* `parse_of_final`, `parse_of_bodyValidation`: calls that resume behind the headers.
* `Reachable.call_ends_iff`: a call ends exactly when it is not `Stuck`.
-/

open Lib

namespace Camille

/-- The parsers a default-constructed one turns into, over calls that returned or
threw. -/
inductive Reachable : Parser → Prop
  | default : Reachable {}
  | call {T : Type} [IsReqResType T] {p q : Parser} {data : Bytes}
      {o : Outcome (Except Errors T)} :
      Reachable p → p.parse T data = some (o, q) → o ≠ .undefined → Reachable q

/-- A state a parser is left in. -/
def States.Rests (s : States) : Prop :=
  s ≠ .kBodyIdentify ∧ s ≠ .kBodyChunked

/-- The loop makes no progress on this data. -/
def Stuck (p : Parser) (data : Bytes) : Prop :=
  (p.currentState = .kBodyValidation ∧ data ≠ []) ∨
    (p.currentState.rank ≤ States.kHeaders.rank ∧ Stalls p.currentState data)

section Rest

variable {T : Type} [IsReqResType T]

/-- The invariant of the loop: the body is only identified with data at hand. -/
def Loop.Sound (l : Loop T) : Prop :=
  l.parser.currentState ≠ .kBodyChunked ∧
    (l.parser.currentState = .kBodyIdentify → l.pos ≠ [])

/-- An iteration that goes on keeps the invariant. -/
theorem Loop.Sound.step {l l' : Loop T} (hl : l.Sound) (h : step l = .inl l') : l'.Sound := by
  obtain ⟨hpos, hmoves⟩ := step_moves h
  cases hmoves with
  | stall => exact hl
  | giveUp _ hl' => simp [Loop.Sound, hl']
  | next _ hle hsame =>
      constructor
      · intro he
        rw [Loop.rank, he] at hle
        exact absurd hle (by decide)
      · intro he
        rw [hsame he]
        exact hpos

/-- Where an iteration that leaves the loop leaves the parser. -/
theorem Loop.Sound.exit {l : Loop T} (hl : l.Sound) {o : Outcome (Except Errors T)}
    {q : Parser} (h : Camille.step l = .inr (o, q)) (ho : o ≠ .undefined) :
    q.currentState.Rests := by
  cases step_leaves h with
  | final hend => rcases not_not.mp hend with hs | hs <;> simp [States.Rests, hs]
  | dataEnd _ hpos => exact ⟨fun he => hl.2 he hpos, hl.1⟩
  | message d _ => simp [States.Rests]
  | badLength _ => simp [States.Rests]
  | threw e _ hrank =>
      refine ⟨fun he => ?_, hl.1⟩
      rw [Loop.rank, he] at hrank
      exact absurd hrank (by decide)
  | undefined => exact absurd rfl ho

/-- A call that returns or throws leaves the parser at rest. -/
theorem rests_of_parse {p q : Parser} (hp : p.currentState.Rests) {data : Bytes}
    {o : Outcome (Except Errors T)} (h : p.parse T data = some (o, q)) (ho : o ≠ .undefined) :
    q.currentState.Rests := by
  by_cases hdata : data = []
  · subst hdata
    rw [Parser.parse_nil] at h
    rw [← (Prod.mk.inj (Option.some.inj h)).2]
    exact hp
  · have hsound : (p.start T data).Sound := ⟨hp.2, fun he => absurd he hp.1⟩
    exact ((Parser.parse_eq_some_iff hdata).mp h).of_invariant
      (Q := fun r => r.1 ≠ .undefined → r.2.currentState.Rests)
      (fun _ _ hl hstep => hl.step hstep)
      (fun _ _ hl hstep => hl.exit hstep) hsound ho

end Rest

/-- **The states a parser rests in**, over any run of calls. -/
theorem Reachable.rests {p : Parser} (h : Reachable p) : p.currentState.Rests := by
  induction h with
  | default => exact ⟨by decide, by decide⟩
  | call _ hcall ho ih => exact rests_of_parse ih hcall ho

/-- Before the end of the headers, at the body, or at an end. -/
theorem States.Rests.cases {s : States} (h : s.Rests) :
    s.rank ≤ States.kHeaders.rank ∨ s = .kBodyValidation ∨ ¬ s.Running := by
  obtain ⟨hid, hch⟩ := h
  cases s <;> first | exact absurd rfl hid | exact absurd rfl hch | decide

section Calls

variable {T : Type} [IsReqResType T] {p : Parser} {data : Bytes}

open IsReqResType

/-- **A parser at an end refuses everything**: the error it has on record comes back. -/
theorem parse_of_final (hp : ¬ p.currentState.Running) (hdata : data ≠ []) :
    p.parse T data =
      some (.returned (.error p.error), { p with totalConsumed := data.length }) := by
  have hend : ¬ ({ p with totalConsumed := data.length } : Parser).currentState.Running := hp
  rw [Parser.parse_eq_some_iff hdata]
  exact (exits_iff_of_inr (step_of_not_running hend)).mpr rfl

/-- **A call that resumes at the body never ends.** The headers that were read are gone
with the message of the call before. -/
theorem parse_of_bodyValidation (hp : p.currentState = .kBodyValidation)
    (hdata : data ≠ []) : p.parse T data = none := by
  have hfixed : step (p.start T data) = .inl (p.start T data) := by
    have hstate : (p.start T data).parser.currentState = .kBodyValidation := hp
    refine (step_kBodyValidation hstate hdata).trans ?_
    simp only [stepBodyValidation, Parser.start, getHeader_eq, fields_fresh]
    rfl
  cases h : p.parse T data with
  | none => rfl
  | some o =>
      exact absurd ⟨o, (Parser.parse_eq_some_iff hdata).mp h⟩ (not_halts_of_fixed hfixed)

/-- A call on a parser at rest ends unless it is stuck. -/
theorem parse_eq_none_iff (hp : p.currentState.Rests) :
    p.parse T data = none ↔ Stuck p data := by
  rcases hp.cases with hrank | hbody | hend
  · have hne : p.currentState ≠ .kBodyValidation := by
      intro he
      rw [he] at hrank
      exact absurd hrank (by decide)
    rw [← verdict_eq_stalls_iff, verdict_stalls_iff hrank]
    simp [Stuck, hne, hrank]
  · have hrank : ¬ p.currentState.rank ≤ States.kHeaders.rank := by
      rw [hbody]
      decide
    simp only [Stuck, hbody, true_and]
    by_cases hdata : data = []
    · subst hdata
      rw [hbody] at hrank
      simp [hrank]
    · simp [parse_of_bodyValidation hbody hdata, hdata]
  · have hne : p.currentState ≠ .kBodyValidation := by
      rintro he
      rw [he] at hend
      exact hend (by decide)
    have hrank : ¬ p.currentState.rank ≤ States.kHeaders.rank := by
      rcases not_not.mp hend with h | h <;> rw [h] <;> decide
    by_cases hdata : data = []
    · subst hdata
      simp [Stuck, hne, hrank]
    · rw [parse_of_final hend hdata]
      simp [Stuck, hne, hrank]

/-- No call on a parser at rest reads behind its data, except on a line that breaks off
behind `HTTP`. -/
theorem parse_eq_undefined_iff (hp : p.currentState.Rests) :
    (∃ q, p.parse T data = some (.undefined, q)) ↔ ReadsPast p.currentState data := by
  rw [← verdict_eq_undefined_iff]
  by_cases hrank : p.currentState.rank ≤ States.kHeaders.rank
  · exact verdict_undefined_iff hrank data
  · have hpast : ¬ ReadsPast p.currentState data := fun h => hrank (h.1.trans (by decide))
    refine iff_of_false ?_ hpast
    by_cases hdata : data = []
    · rw [hdata, Parser.parse_nil]
      simp [verdict]
    rcases hp.cases with h | hbody | hend
    · exact absurd h hrank
    · rw [parse_of_bodyValidation hbody hdata]
      simp [verdict]
    · rw [parse_of_final hend hdata]
      simp [verdict]

/-- **Which calls end.** Over any run of calls, and whatever the next data: the loop of
the next call is left unless the parser is stuck, and it is left by a return or an
exception unless, beyond that, the parser reads behind its data. -/
theorem Reachable.call_ends_iff (h : Reachable p) (data : Bytes) :
    (p.Terminates T data ↔ ¬ Stuck p data) ∧
      ((∃ o q, o ≠ .undefined ∧ p.parse T data = some (o, q)) ↔
        ¬ Stuck p data ∧ ¬ ReadsPast p.currentState data) := by
  have hnone : p.parse T data = none ↔ Stuck p data := parse_eq_none_iff h.rests
  have hundef : (∃ q, p.parse T data = some (.undefined, q)) ↔ ReadsPast p.currentState data :=
    parse_eq_undefined_iff h.rests
  rw [Parser.terminates_iff, ← hnone, ← hundef]
  rcases p.parse T data with - | ⟨o, q⟩
  · simp
  · by_cases ho : o = .undefined
    · simp [ho]
    · simp [ho]

end Calls

/-- A body of five bytes is announced, and one has arrived. -/
def shortBody : Bytes :=
  ascii "GET / HTTP/1.1\r\nHost: a:1\r\nContent-Length: 5\r\n\r\nx"

/-- The same message without a body yet. -/
def awaitedBody : Bytes :=
  ascii "GET / HTTP/1.1\r\nHost: a:1\r\nContent-Length: 5\r\n\r\n"

/-- A request without its method. -/
def withoutMethod : Bytes :=
  ascii " / HTTP/1.1\r\nHost: a:1\r\n\r\n"

/-- `Reachable.call_ends_iff` at a parser that has read a method in an earlier call: the next
one ends, and by a return. -/
theorem withoutMethod_not_stuck :
    ∃ p, ({} : Parser).parse Request (ascii "GET") =
        some (.returned (.error .kPartialMessage), p) ∧
      Reachable p ∧ ¬ Stuck p withoutMethod ∧ ¬ ReadsPast p.currentState withoutMethod := by
  have hcall : ({} : Parser).parse Request (ascii "GET") =
      some (.returned (.error .kPartialMessage),
        { totalConsumed := 3, currentState := .kWaitUri }) := by
    decide
  have hreach : Reachable { totalConsumed := 3, currentState := .kWaitUri } :=
    .call .default hcall (by decide)
  obtain ⟨d, q, hnext⟩ : ∃ d q, Parser.parse Request
      { totalConsumed := 3, currentState := .kWaitUri } withoutMethod =
        some (.returned (.ok d), q) :=
    verdict_eq_message_iff.mp (by decide)
  exact ⟨_, hcall, hreach, (hreach.call_ends_iff (T := Request) withoutMethod).2.mp
    ⟨_, q, by simp, hnext⟩⟩

/-- **Not every call ends.** A fresh parser loops on a body that is not all there, and a
parser that was left waiting for its body loops on that body. -/
theorem not_terminates_shortBody :
    (Reachable {} ∧ ¬ ({} : Parser).Terminates Request shortBody) ∧
      ∃ p, ({} : Parser).parse Request awaitedBody =
          some (.returned (.error .kPartialMessage), p) ∧
        Reachable p ∧ ¬ p.Terminates Request (ascii "hello") := by
  have hcall : ({} : Parser).parse Request awaitedBody =
      some (.returned (.error .kPartialMessage),
        { totalConsumed := awaitedBody.length, currentState := .kBodyValidation }) := by
    decide
  refine ⟨⟨.default, ?_⟩, _, hcall, .call .default hcall (by decide), ?_⟩
  · rw [Parser.terminates_iff, show ({} : Parser).parse Request shortBody = none by
      decide]
    simp
  · rw [Parser.terminates_iff, parse_of_bodyValidation rfl (by decide)]
    simp

end Camille
