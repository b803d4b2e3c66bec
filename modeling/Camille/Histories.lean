import Camille.Returned
import Camille.Session

/-!
# Histories of a Parser

What holds over all the calls a parser ever sees. A `Call` is a call of `Parse` that
returned or threw, with the parser before and after it; a `History` is what happens to a
default-constructed parser, calls and `SetUsed`, one after the other. Each law is a fact
about one call first, read off from what an iteration of the loop can do, and a fact about
histories by induction.

`SetUsed` is the only thing that can mark a parser which has no message behind it. The mark
is tested in `kReady` and nowhere else, and what the test finds is overwritten at once.

## Main results

* `Call.lawful`, `History.lawful`: the mark, the state and the messages, over any run.
* `single_use`: at most one message a parser, and at most one a handler.
* `History.whole_iff`: when every message is whole.
* `History.stale_iff`: a marked parser never answers `kStaleParser` first.
-/

open Lib

namespace Camille

section Shown

variable {T : Type} [IsReqResType T]

/-- The outcome of a call, with what its message shows. -/
def shown (o : Outcome (Except Errors T)) : Outcome (Except Errors Fields) :=
  match o with
  | .returned (.ok d) => .returned (.ok (IsReqResType.fields d))
  | .returned (.error e) => .returned (.error e)
  | .threw e => .threw e
  | .undefined => .undefined

end Shown

/-- A call of `Parse` that returned or threw. -/
structure Call where
  before : Parser
  data : Bytes
  answer : Outcome (Except Errors Fields)
  after : Parser
  made : ∃ (T : Type) (_ : IsReqResType T) (o : Outcome (Except Errors T)),
    before.parse T data = some (o, after) ∧ o ≠ .undefined ∧ shown o = answer

/-- What can happen to a parser. -/
inductive Event
  | setUsed
  | parse (call : Call)

/-- What happened to a default-constructed parser, in order, and what became of it. -/
inductive History : List Event → Parser → Prop
  | nil : History [] {}
  | setUsed {es : List Event} {p : Parser} :
      History es p → History (es ++ [.setUsed]) p.setUsed
  | parse {es : List Event} {c : Call} :
      History es c.before → History (es ++ [.parse c]) c.after

/-- A parser that was called once. -/
theorem History.single {c : Call} (h : History [] c.before) : History [.parse c] c.after := by
  have h' : History ([] ++ [.parse c]) c.after := .parse h
  exact h'

/-- The induction over histories without `SetUsed`. -/
theorem History.calls_induction {motive : List Call → Parser → Prop} (nil : motive [] {})
    (call : ∀ cs c, History (cs.map .parse) c.before → motive cs c.before →
      motive (cs ++ [c]) c.after)
    {cs : List Call} {p : Parser} (h : History (cs.map .parse) p) : motive cs p := by
  generalize hes : cs.map Event.parse = es at h
  induction h generalizing cs with
  | nil =>
      obtain rfl := List.map_eq_nil_iff.mp hes
      exact nil
  | setUsed _ _ =>
      obtain ⟨_, l, -, -, hl⟩ := List.map_eq_append_iff.mp hes
      obtain ⟨c, _, -, hc, -⟩ := List.map_eq_cons_iff.mp hl
      cases hc
  | @parse es c h ih =>
      obtain ⟨cs', l, rfl, hcs', hl⟩ := List.map_eq_append_iff.mp hes
      obtain ⟨c', l', rfl, hc, hl'⟩ := List.map_eq_cons_iff.mp hl
      obtain rfl := Event.parse.inj hc
      obtain rfl := List.map_eq_nil_iff.mp hl'
      exact call cs' c' (hcs' ▸ h) (ih hcs')

/-! ### One call -/

namespace Call

/-- A call, as it was made. -/
def of {T : Type} [IsReqResType T] {p q : Parser} {data : Bytes}
    {o : Outcome (Except Errors T)} (h : p.parse T data = some (o, q)) (ho : o ≠ .undefined) :
    Call where
  before := p
  data := data
  answer := shown o
  after := q
  made := ⟨T, _, o, h, ho, rfl⟩

/-- The message a call returned. -/
def message (c : Call) : Option Fields :=
  match c.answer with
  | .returned (.ok f) => some f
  | _ => none

/-- A message that is returned is the answer. -/
theorem answer_of_message {c : Call} {f : Fields} (h : c.message = some f) :
    c.answer = .returned (.ok f) := by
  rw [message] at h
  split at h
  · rename_i f' hf
    rw [hf, Option.some.inj h]
  · cases h

/-- **The invariant rule for a call**: what holds when the loop is entered and is preserved
by every iteration, and what every exit makes of it. -/
theorem of_invariant (c : Call) {I : Parser → Bytes → Prop}
    {Q : Outcome (Except Errors Fields) → Parser → Prop}
    (hempty : c.data = [] →
      Q (.returned (.error .kBadRequest)) { c.before with error := .kBadRequest })
    (hstart : c.data ≠ [] → I { c.before with totalConsumed := c.data.length } c.data)
    (hstep : ∀ (T : Type) [IsReqResType T] (l l' : Loop T),
      step l = .inl l' → I l.parser l.pos → I l'.parser l'.pos)
    (hexit : ∀ (T : Type) [IsReqResType T] (l : Loop T) (r : ParseResult T),
      r.1 ≠ .undefined → Leaves l r → I l.parser l.pos → Q (shown r.1) r.2) :
    Q c.answer c.after := by
  obtain ⟨T, _, o, hparse, hdefined, ho⟩ := c.made
  rw [← ho]
  by_cases hdata : c.data = []
  · rw [hdata, Parser.parse_nil] at hparse
    obtain ⟨rfl, hafter⟩ := Prod.mk.inj (Option.some.inj hparse)
    rw [← hafter]
    exact hempty hdata
  · exact ((Parser.parse_eq_some_iff hdata).mp hparse).of_invariant
      (I := fun l => I l.parser l.pos) (Q := fun r => r.1 ≠ .undefined → Q (shown r.1) r.2)
      (fun l l' hl h => hstep T l l' h hl)
      (fun l r hl h hr => hexit T l r hr (step_leaves h) hl) (hstart hdata) hdefined

/-- The state does not move backwards in the declaration order. -/
theorem rank_le (c : Call) : c.before.currentState.rank ≤ c.after.currentState.rank := by
  refine c.of_invariant (I := fun p _ => c.before.currentState.rank ≤ p.currentState.rank)
    (Q := fun _ q => c.before.currentState.rank ≤ q.currentState.rank)
    (fun _ => le_rfl) (fun _ => le_rfl) ?_ ?_
  · intro T _ l l' h hl
    rcases step_climbs l l' h with rfl | hlt
    · exact hl
    · exact hl.trans hlt.le
  · intro T _ l r _ hleaves hl
    cases hleaves with
    | final _ | dataEnd _ _ | threw _ _ _ | undefined => exact hl
    | message d hrun => exact hl.trans hrun.rank_lt.le
    | badLength _ => exact c.before.currentState.rank_le

/-- A parser at an end stays there. -/
theorem state_of_final (c : Call) (h : ¬ c.before.currentState.Running) :
    c.after.currentState = c.before.currentState := by
  refine c.of_invariant (I := fun p _ => p.currentState = c.before.currentState)
    (Q := fun _ q => q.currentState = c.before.currentState) (fun _ => rfl) (fun _ => rfl) ?_ ?_
  · intro T _ l l' hstep hl
    exact absurd (hl ▸ running_of_step hstep) h
  · intro T _ l r _ hleaves hl
    cases hleaves with
    | final _ | dataEnd _ _ | threw _ _ _ | undefined => exact hl
    | message d hrun => exact absurd (hl ▸ hrun) h
    | badLength hs =>
        rw [← hl, hs] at h
        exact absurd (by decide) h

/-- A message comes with the last step of a parser that was not complete before. -/
theorem of_message {c : Call} (h : c.message ≠ none) :
    c.before.currentState.rank ≤ States.kHeaders.rank ∧
      c.after.currentState = .kComplete ∧ c.after.used = true := by
  constructor
  · obtain ⟨f, hf⟩ := Option.ne_none_iff_exists'.mp h
    obtain ⟨T, _, o, hparse, -, ho⟩ := c.made
    rw [answer_of_message hf] at ho
    rcases o with ⟨e | d⟩ | e | -
    · cases ho
    · exact rank_le_of_parse hparse
    · cases ho
    · cases ho
  · have hafter : ∀ f, c.answer = .returned (.ok f) →
        c.after.currentState = .kComplete ∧ c.after.used = true := by
      refine c.of_invariant (I := fun _ _ => True) (Q := fun o q => ∀ f,
        o = .returned (.ok f) → q.currentState = .kComplete ∧ q.used = true)
        (fun _ f hf => by cases hf) (fun _ => trivial) (fun _ _ _ _ _ _ => trivial) ?_
      intro T _ l r _ hleaves _ f hf
      cases hleaves with
      | final _ | dataEnd _ _ | threw _ _ _ | undefined | badLength _ => cases hf
      | message d _ => exact ⟨rfl, rfl⟩
    obtain ⟨f, hf⟩ := Option.ne_none_iff_exists'.mp h
    exact hafter f (answer_of_message hf)

/-- The mark stands exactly in `kComplete`, unless `SetUsed` put it somewhere else. -/
theorem used_iff (c : Call)
    (h : c.before.used = true ↔ c.before.currentState = .kComplete) :
    c.after.used = true ↔ c.after.currentState = .kComplete := by
  refine c.of_invariant (I := fun p _ => p.used = true ↔ p.currentState = .kComplete)
    (Q := fun _ q => q.used = true ↔ q.currentState = .kComplete) (fun _ => h) (fun _ => h) ?_ ?_
  · intro T _ l l' hstep hl
    have hrun := running_of_step hstep
    have hunused : ¬ l.parser.used = true := fun hu => hrun (.inl (hl.mp hu))
    rcases step_alters hstep with ⟨s, hs, hl'⟩ | ⟨e, -, hl'⟩ | ⟨-, hu, -⟩
    · rw [hl']
      exact iff_of_false hunused fun he => hs (.inl he)
    · rw [hl']
      exact iff_of_false hunused (by simp)
    · exact absurd hu hunused
  · intro T _ l r _ hleaves hl
    cases hleaves with
    | final _ | dataEnd _ _ | threw _ _ _ | undefined => exact hl
    | message d _ => exact iff_of_true rfl rfl
    | badLength hs =>
        have hunused : ¬ l.parser.used = true := by
          rw [hl, hs]
          decide
        exact iff_of_false hunused (by simp)

/-- Only `SetUsed` and a message mark a parser. -/
theorem used_cases {c : Call} (h : c.after.used = true) :
    c.before.used = true ∨ c.message ≠ none := by
  by_contra hno
  obtain ⟨hunused, hm⟩ := not_or.mp hno
  have hafter : (∀ f, c.answer ≠ .returned (.ok f)) → ¬ c.after.used = true := by
    refine c.of_invariant (I := fun p _ => ¬ p.used = true)
      (Q := fun o q => (∀ f, o ≠ .returned (.ok f)) → ¬ q.used = true)
      (fun _ _ => hunused) (fun _ => hunused) ?_ ?_
    · intro T _ l l' hstep hl
      rcases step_alters hstep with ⟨s, -, hl'⟩ | ⟨e, -, hl'⟩ | ⟨-, hu, -⟩
      · rw [hl']
        exact hl
      · rw [hl']
        exact hl
      · exact absurd hu hl
    · intro T _ l r _ hleaves hl ho
      cases hleaves with
      | final _ | dataEnd _ _ | threw _ _ _ | undefined | badLength _ => exact hl
      | message d _ => exact absurd rfl (ho _)
  refine hafter ?_ h
  intro f hf
  exact hm (by simp [message, hf])

/-- **`kStaleParser` is answered only by a parser at an end** that has it on record. -/
theorem stale_on_record {c : Call} (hdata : c.data ≠ [])
    (h : c.answer = .returned (.error .kStaleParser)) : c.before.error = .kStaleParser := by
  by_cases hrun : c.before.currentState.Running
  · -- from a running state an end is only reached with another error
    revert h
    refine c.of_invariant
      (I := fun p _ => ¬ p.currentState.Running → p.error ≠ .kStaleParser)
      (Q := fun o _ => o = .returned (.error .kStaleParser) → c.before.error = .kStaleParser)
      (fun h => absurd h hdata) (fun _ h => absurd hrun h) ?_ ?_
    · intro T _ l l' hstep hl hend
      rcases step_alters hstep with ⟨s, hs, hl'⟩ | ⟨e, he, hl'⟩ | ⟨-, -, hl'⟩
      · rw [hl'] at hend
        exact absurd hs hend
      · rw [hl']
        exact he
      · rw [hl'] at hend
        exact absurd (show States.kMethod.Running by decide) hend
    · intro T _ l r _ hleaves hl h
      cases hleaves with
      | final hend => exact absurd (Except.error.inj (Outcome.returned.inj h)) (hl hend)
      | dataEnd _ _ => exact absurd (Except.error.inj (Outcome.returned.inj h)) (by decide)
      | message _ _ | threw _ _ _ | undefined | badLength _ => cases h
  · obtain ⟨T, _, o, hparse, -, ho⟩ := c.made
    rw [parse_of_final hrun hdata] at hparse
    obtain ⟨rfl, -⟩ := Prod.mk.inj (Option.some.inj hparse)
    rw [← ho] at h
    exact Except.error.inj (Outcome.returned.inj h)

/-- A call on a parser that is not marked puts no `kStaleParser` on record. -/
theorem error_ne {c : Call} (hused : ¬ c.before.used = true)
    (h : c.before.error ≠ .kStaleParser) : c.after.error ≠ .kStaleParser := by
  refine (c.of_invariant (I := fun p _ => ¬ p.used = true ∧ p.error ≠ .kStaleParser)
    (Q := fun _ q => q.error ≠ .kStaleParser) (fun _ => by simp) (fun _ => ⟨hused, h⟩) ?_ ?_)
  · rintro T _ l l' hstep ⟨hl, he⟩
    rcases step_alters hstep with ⟨s, -, hl'⟩ | ⟨e, he', hl'⟩ | ⟨-, hu, -⟩
    · rw [hl']
      exact ⟨hl, he⟩
    · rw [hl']
      exact ⟨hl, he'⟩
    · exact absurd hu hl
  · rintro T _ l r - hleaves ⟨-, he⟩
    cases hleaves with
    | final _ | dataEnd _ _ | message _ _ | threw _ _ _ | undefined => exact he
    | badLength _ => simp

/-- No call leaves a parser in `kMethod`, which is entered with data at hand. -/
theorem ne_kMethod {c : Call} (h : c.before.currentState ≠ .kMethod) :
    c.after.currentState ≠ .kMethod := by
  refine c.of_invariant (I := fun p pos => p.currentState = .kMethod → pos ≠ [])
    (Q := fun _ q => q.currentState ≠ .kMethod) (fun _ => h) (fun _ he => absurd he h) ?_ ?_
  · intro T _ l l' hstep hl hs'
    obtain ⟨hpos, hmoves⟩ := step_moves hstep
    cases hmoves with
    | stall => exact hpos
    | giveUp _ hg => simp [hg] at hs'
    | next hnext _ _ =>
        have hready : l.parser.currentState = .kReady := by
          refine States.rank_inj ?_
          rw [Loop.rank, Loop.rank, hs'] at hnext
          exact (Nat.succ.inj hnext).symm
        have he : step l = _ := step_kReady hready hpos
        obtain rfl := Sum.inl.inj (hstep.symm.trans he)
        exact hpos
  · intro T _ l r hdefined hleaves hl
    cases hleaves with
    | final hend =>
        intro he
        exact hend (by rw [he]; decide)
    | dataEnd _ hpos => exact fun he => hl he hpos
    | message _ _ | badLength _ => simp
    | threw _ hle _ =>
        intro he
        rw [Loop.rank, he] at hle
        exact absurd hle (by decide)
    | undefined => exact absurd rfl hdefined

end Call

/-! ### Runs of calls -/

/-- The laws of a run of calls: the mark stands exactly in `kComplete`; the state does not
move backwards, and at an end not at all; a message comes with the step into `kComplete`; and
there is at most one. -/
structure Lawful (cs : List Call) : Prop where
  used_iff : ∀ c ∈ cs, c.after.used = true ↔ c.after.currentState = .kComplete
  forward : ∀ c ∈ cs, c.before.currentState.rank ≤ c.after.currentState.rank
  stays : ∀ c ∈ cs, ¬ c.before.currentState.Running →
    c.after.currentState = c.before.currentState
  completes : ∀ c ∈ cs, c.message ≠ none →
    c.before.currentState ≠ .kComplete ∧ c.after.currentState = .kComplete
  ordered : cs.Pairwise fun c c' =>
    c.after.currentState.rank ≤ c'.before.currentState.rank ∧
      (¬ c.after.currentState.Running → c'.after.currentState = c.after.currentState)
  single : (cs.filterMap Call.message).length ≤ 1

namespace History

variable {cs : List Call} {p : Parser}

/-- Without `SetUsed`, the mark stands exactly in `kComplete`. -/
theorem used_iff (h : History (cs.map .parse) p) :
    p.used = true ↔ p.currentState = .kComplete :=
  h.calls_induction (motive := fun _ p => p.used = true ↔ p.currentState = .kComplete)
    (by decide) fun _ c _ ih => c.used_iff ih

/-- The parser is where its calls left it, or further on. -/
theorem ahead (h : History (cs.map .parse) p) :
    ∀ c ∈ cs, c.after.currentState.rank ≤ p.currentState.rank ∧
      (¬ c.after.currentState.Running → p.currentState = c.after.currentState) := by
  refine h.calls_induction (motive := fun cs p =>
    ∀ c ∈ cs, c.after.currentState.rank ≤ p.currentState.rank ∧
      (¬ c.after.currentState.Running → p.currentState = c.after.currentState)) (by simp) ?_
  intro cs c' _ ih c hc
  rcases List.mem_append.mp hc with hc | hc
  · obtain ⟨hrank, hfinal⟩ := ih c hc
    refine ⟨hrank.trans c'.rank_le, ?_⟩
    intro hend
    have hbefore := hfinal hend
    rw [← hbefore] at hend ⊢
    exact c'.state_of_final hend
  · obtain rfl := List.mem_singleton.mp hc
    exact ⟨le_rfl, fun _ => rfl⟩

/-- **At most one message**, and none before the parser is complete. -/
theorem messages (h : History (cs.map .parse) p) :
    (cs.filterMap Call.message).length ≤ 1 ∧
      (p.currentState ≠ .kComplete → cs.filterMap Call.message = []) := by
  refine h.calls_induction (motive := fun cs p => (cs.filterMap Call.message).length ≤ 1 ∧
    (p.currentState ≠ .kComplete → cs.filterMap Call.message = [])) (by simp) ?_
  rintro cs c - ⟨hle, hnone⟩
  rw [List.filterMap_append]
  cases hm : c.message with
  | none =>
      simp only [List.filterMap_cons, hm, List.filterMap_nil, List.append_nil]
      refine ⟨hle, ?_⟩
      intro hafter
      refine hnone ?_
      intro hbefore
      have hfinal := c.state_of_final fun hrun => hrun (.inl hbefore)
      exact hafter (hfinal.trans hbefore)
  | some f =>
      obtain ⟨hrank, hafter, -⟩ := Call.of_message (c := c) (by simp [hm])
      have hbefore : c.before.currentState ≠ .kComplete := by
        intro he
        rw [he] at hrank
        exact absurd hrank (by decide)
      rw [hnone hbefore]
      simp [hm, hafter]

/-- **The laws of a run of calls**, of any length and on any data. -/
theorem lawful (h : History (cs.map .parse) p) : Lawful cs := by
  refine ⟨?_, fun c _ => c.rank_le, fun c _ => c.state_of_final, ?_, ?_, h.messages.1⟩
  · refine h.calls_induction (motive := fun cs _ => ∀ c ∈ cs,
      c.after.used = true ↔ c.after.currentState = .kComplete) (by simp) ?_
    intro cs c' hcs ih c hc
    rcases List.mem_append.mp hc with hc | hc
    · exact ih c hc
    · obtain rfl := List.mem_singleton.mp hc
      exact c.used_iff hcs.used_iff
  · intro c _ hm
    obtain ⟨hrank, hafter, -⟩ := Call.of_message hm
    refine ⟨?_, hafter⟩
    intro he
    rw [he] at hrank
    exact absurd hrank (by decide)
  · refine h.calls_induction (motive := fun cs _ => cs.Pairwise fun c c' =>
      c.after.currentState.rank ≤ c'.before.currentState.rank ∧
        (¬ c.after.currentState.Running → c'.after.currentState = c.after.currentState))
      .nil ?_
    intro cs c' hcs ih
    refine List.pairwise_append.mpr ⟨ih, List.pairwise_singleton _ _, ?_⟩
    intro c hc c'' hc''
    obtain rfl := List.mem_singleton.mp hc''
    obtain ⟨hrank, hfinal⟩ := hcs.ahead c hc
    refine ⟨hrank, ?_⟩
    intro hend
    have hbefore := hfinal hend
    rw [← hbefore] at hend ⊢
    exact c''.state_of_final hend

end History

/-! ### Handlers -/

/-- What a handler served over calls that returned or threw. -/
inductive Served {H A : Type} (call : H → Bytes → Option (Outcome (Option A) × H)) (h₀ : H) :
    List A → H → Prop
  | nil : Served call h₀ [] h₀
  | call {as : List A} {h h' : H} {data : Bytes} {o : Outcome (Option A)} :
      Served call h₀ as h → call h data = some (o, h') → o ≠ .undefined →
        Served call h₀ (as ++ o.success.toList) h'

/-- What a handler hands on of what its parser returned. -/
def handOn {A : Type} (result : Option (ParseResult A)) :
    Option (Outcome (Option A) × Parser) :=
  result.map fun r =>
    match r.1 with
    | .threw e => (.threw e, r.2)
    | .undefined => (.undefined, r.2)
    | .returned (.error _) => (.returned none, r.2)
    | .returned (.ok a) => (.returned (if r.2.complete then some a else none), r.2)

/-- A handler hands its parser's message on. -/
theorem RequestHandler.parse_eq (h : RequestHandler) (data : Bytes) :
    h.parse data = (handOn (h.parser.parse Request data)).map fun r => (r.1, ⟨r.2⟩) := by
  rw [RequestHandler.parse]
  rcases h.parser.parse Request data with - | ⟨⟨e | d⟩ | e | -, q⟩
  · rfl
  · cases hq : q.complete <;> simp [handOn, hq]
  · cases hq : q.complete <;> simp [handOn, hq]
  · rfl
  · rfl

/-- The other handler does the same. -/
theorem ResponseHandler.parse_eq (h : ResponseHandler) (data : Bytes) :
    h.parse data = (handOn (h.parser.parse Response data)).map fun r => (r.1, ⟨r.2⟩) := by
  rw [ResponseHandler.parse]
  rcases h.parser.parse Response data with - | ⟨⟨e | d⟩ | e | -, q⟩
  · rfl
  · cases hq : q.complete <;> simp [handOn, hq]
  · cases hq : q.complete <;> simp [handOn, hq]
  · rfl
  · rfl

section Served

variable {H A : Type} [IsReqResType A] {call : H → Bytes → Option (Outcome (Option A) × H)}
  {parser : H → Parser}

/-- What a handler hands on is a message of its parser. -/
theorem parse_of_handOn {p q : Parser} {data : Bytes} {o : Outcome (Option A)}
    (h : handOn (p.parse A data) = some (o, q)) (ho : o ≠ .undefined) :
    ∃ c : Call, c.before = p ∧ c.after = q ∧
      o.success.toList.length ≤ (c.message.toList).length := by
  obtain ⟨⟨o', q'⟩, hparse, he⟩ := Option.map_eq_some_iff.mp h
  have hdefined : o' ≠ .undefined := by
    rintro rfl
    exact ho (Prod.mk.inj he).1.symm
  refine ⟨.of hparse hdefined, rfl, ?_, ?_⟩
  · rcases o' with ⟨e | d⟩ | e | - <;> exact (Prod.mk.inj he).2
  · rcases o' with ⟨e | d⟩ | e | - <;> rw [← (Prod.mk.inj he).1]
    · simp [Outcome.success]
    · split <;> simp [Outcome.success, Call.message, Call.of, shown]
    · simp [Outcome.success]
    · simp [Outcome.success]

/-- **What a handler serves are messages of its parser.** -/
theorem Served.exists_history (handler : Parser → H) (hparser : ∀ p, parser (handler p) = p)
    (hcall : ∀ h data, call h data =
      (handOn ((parser h).parse A data)).map fun r => (r.1, handler r.2))
    {as : List A} {h : H} (hs : Served call (handler {}) as h) :
    ∃ cs : List Call, History (cs.map .parse) (parser h) ∧
      as.length ≤ (cs.filterMap Call.message).length := by
  induction hs with
  | nil => exact ⟨[], by rw [hparser]; exact .nil, le_rfl⟩
  | @call as h h' data o _ hmade ho ih =>
      obtain ⟨cs, hcs, hlen⟩ := ih
      rw [hcall] at hmade
      obtain ⟨⟨o', q⟩, hhand, he⟩ := Option.map_eq_some_iff.mp hmade
      obtain ⟨rfl, rfl⟩ := Prod.mk.inj he
      obtain ⟨c, hbefore, hafter, hmessage⟩ := parse_of_handOn hhand ho
      refine ⟨cs ++ [c], ?_, ?_⟩
      · rw [hparser, ← hafter, List.map_append]
        exact .parse (by rw [hbefore]; exact hcs)
      · rw [List.filterMap_append, List.length_append, List.length_append]
        have htail : ([c].filterMap Call.message).length = c.message.toList.length := by
          cases hm : c.message <;> simp [hm]
        rw [htail]
        exact Nat.add_le_add hlen hmessage

end Served

/-- **A parser is used once.** Every run of calls on one parser obeys the laws, and no
request handler and no response handler ever has more than one message to serve. -/
theorem single_use :
    (∀ (cs : List Call) (p : Parser), History (cs.map .parse) p → Lawful cs) ∧
      (∀ requests h, Served RequestHandler.parse {} requests h → requests.length ≤ 1) ∧
      ∀ responses h, Served ResponseHandler.parse {} responses h → responses.length ≤ 1 := by
  refine ⟨fun _ _ h => h.lawful, ?_, ?_⟩
  · intro requests h hs
    obtain ⟨cs, hcs, hlen⟩ :=
      hs.exists_history RequestHandler.mk (fun _ => rfl) RequestHandler.parse_eq
    exact hlen.trans hcs.messages.1
  · intro responses h hs
    obtain ⟨cs, hcs, hlen⟩ :=
      hs.exists_history ResponseHandler.mk (fun _ => rfl) ResponseHandler.parse_eq
    exact hlen.trans hcs.messages.1

/-- A request with a host and nothing else. -/
def hostRequest : Bytes :=
  ascii "GET / HTTP/1.1\r\nHost: a:1\r\n\r\n"

/-- What a parser makes of it. -/
def parsedHost : Request where
  host := ascii "a"
  port := ascii "1"
  path := ascii "/"
  method := ascii "GET"
  version := ascii "1.1"
  headers := [(kHost, ascii "a:1")]
  requestSize := hostRequest.length

/-- A request with a host, parsed. -/
theorem parse_hostRequest :
    ({} : Parser).parse Request hostRequest = some (.returned (.ok parsedHost),
      { used := true, totalConsumed := hostRequest.length, currentState := .kComplete }) := by
  decide

/-- The call of a fresh parser on it. -/
def hostCall : Call :=
  .of parse_hostRequest (by simp)

/-- The call of a new parser. -/
theorem history_hostCall : History ([hostCall].map .parse) hostCall.after :=
  .single .nil

/-- A complete parser has no more to say. -/
theorem parse_complete (n : ℕ) :
    Parser.parse Request { used := true, totalConsumed := n, currentState := .kComplete }
        hostRequest = some (.returned (.error .kGeneralError),
      { used := true, totalConsumed := hostRequest.length, currentState := .kComplete }) :=
  parse_of_final (fun hrun => hrun (.inl rfl)) (by decide)

/-- The method of a request alone. -/
theorem parse_method :
    ({} : Parser).parse Request (ascii "GET") = some (.returned (.error .kPartialMessage),
      { totalConsumed := 3, currentState := .kWaitUri }) := by
  decide

/-- The rest of the request, for the parser that has read the method. -/
theorem parse_withoutMethod :
    Parser.parse Request { totalConsumed := 3, currentState := .kWaitUri } withoutMethod =
      some (.returned (.ok { parsedHost with method := [], requestSize := 26 }),
        { used := true, totalConsumed := 26, currentState := .kComplete }) := by
  decide

/-- The call on the method. -/
def methodCall : Call :=
  .of parse_method (by simp)

/-- The call on the rest. -/
def restCall : Call :=
  .of parse_withoutMethod (by simp)

/-- One more call, on a whole request. -/
def lateCall : Call :=
  .of (parse_complete 26) (by simp)

/-- The call of a parser that has read a method. -/
theorem history_restCall : History ([methodCall, restCall].map .parse) restCall.after :=
  .parse (c := restCall) (.single (c := methodCall) .nil)

/-- `single_use` on three calls, the second of which has the message. -/
theorem lateCall_lawful : Lawful [methodCall, restCall, lateCall] :=
  single_use.1 _ lateCall.after (.parse (c := lateCall) history_restCall)

/-! ### Whole messages -/

/-- The message has a method and a path. -/
def Whole (f : Fields) : Prop :=
  f.method ∈ methodNames ∧ f.path.head? = some '/'.toUInt8

/-- The call takes a head up where an earlier call left it unfinished, and completes it. -/
def Call.Resumes (c : Call) : Prop :=
  c.before.currentState ≠ .kReady ∧ c.before.currentState.rank ≤ States.kHeaders.rank ∧
    Accepts c.before.currentState c.data

/-- A message shows what a reading of the data records. -/
theorem Call.exists_reading {c : Call} {f : Fields} (h : c.message = some f) :
    ∃ R : Reading c.before.currentState c.data, R.Shows f := by
  obtain ⟨T, _, o, hparse, -, ho⟩ := c.made
  rw [answer_of_message h] at ho
  rcases o with ⟨e | d⟩ | e | -
  · cases ho
  · obtain rfl : IsReqResType.fields d = f :=
      Except.ok.inj (Outcome.returned.inj ho)
    exact exists_reading_of_parse hparse
  · cases ho
  · cases ho

/-- Data that is accepted is answered with a message. -/
theorem Call.exists_message {c : Call} (hrank : c.before.currentState.rank ≤ States.kHeaders.rank)
    (h : Accepts c.before.currentState c.data) : ∃ f, c.message = some f := by
  obtain ⟨T, _, o, hparse, -, ho⟩ := c.made
  obtain ⟨d, q, hmessage⟩ :=
    verdict_eq_message_iff.mp ((verdict_message_iff (T := T) hrank c.data).mpr h)
  obtain ⟨rfl, -⟩ := Prod.mk.inj (Option.some.inj (hparse.symm.trans hmessage))
  exact ⟨IsReqResType.fields d, by rw [message, ← ho]; rfl⟩

/-- A message that begins in the middle of a head has no method. -/
theorem Reading.Shows.not_whole {s : States} {data : Bytes} {R : Reading s data} {f : Fields}
    (h : R.Shows f) (hs : States.kMethod.rank < s.rank) : ¬ Whole f := by
  have hmethod : f.method = [] := by
    rcases h with ⟨-, rfl⟩ | ⟨n, -, -, -, rfl⟩ <;> exact if_neg (not_le.mpr hs)
  rintro ⟨hmem, -⟩
  rw [hmethod] at hmem
  exact absurd hmem (by decide)

/-- A message that begins with its head has a method and a path. -/
theorem Reading.Shows.whole {data : Bytes} {R : Reading .kReady data} {f : Fields}
    (h : R.Shows f) : Whole f := by
  obtain ⟨t, ht, -⟩ := R.startLine.path_valid
  have hmethod := mem_methodNames R.startLine.method_known
  have hpath : R.startLine.path.head? = some '/'.toUInt8 := by rw [ht]; rfl
  rcases h with ⟨-, rfl⟩ | ⟨n, -, -, -, rfl⟩ <;> exact ⟨hmethod, hpath⟩

namespace History

variable {es : List Event} {p : Parser}

/-- Every call in a history begins where a history ends. -/
theorem of_mem (h : History es p) {c : Call} (hc : .parse c ∈ es) :
    ∃ es', History es' c.before := by
  induction h with
  | nil => cases hc
  | setUsed _ ih =>
      rcases List.mem_append.mp hc with hc | hc
      · exact ih hc
      · cases List.mem_singleton.mp hc
  | @parse es c' h ih =>
      rcases List.mem_append.mp hc with hc | hc
      · exact ih hc
      · obtain rfl := Event.parse.inj (List.mem_singleton.mp hc)
        exact ⟨es, h⟩

/-- No parser rests in `kMethod`. -/
theorem ne_kMethod (h : History es p) : p.currentState ≠ .kMethod := by
  induction h with
  | nil => decide
  | setUsed _ ih => exact ih
  | parse _ ih => exact Call.ne_kMethod ih

/-- **When every message is whole**: exactly in the runs in which no call takes up and
completes a head that an earlier call has left unfinished. -/
theorem whole_iff (h : History es p) :
    (∀ c, .parse c ∈ es → ∀ f, c.message = some f → Whole f) ↔
      ∀ c, .parse c ∈ es → ¬ c.Resumes := by
  constructor
  · rintro hwhole c hc ⟨hready, hrank, haccepts⟩
    obtain ⟨es', hes'⟩ := h.of_mem hc
    obtain ⟨f, hf⟩ := Call.exists_message hrank haccepts
    obtain ⟨R, hR⟩ := Call.exists_reading hf
    have hlt : States.kMethod.rank < c.before.currentState.rank := by
      have hmethod := hes'.ne_kMethod
      cases hs : c.before.currentState <;> first
        | exact absurd hs hready
        | exact absurd hs hmethod
        | decide
    exact hR.not_whole hlt (hwhole c hc f hf)
  · intro hno c hc f hf
    obtain ⟨R, hR⟩ := Call.exists_reading hf
    obtain ⟨hrank, -⟩ := Call.of_message (c := c) (by simp [hf])
    have hready : c.before.currentState = .kReady := by
      by_contra hready
      exact hno c hc ⟨hready, hrank, R, hR.accepted⟩
    generalize c.before.currentState = s at R hR hready
    subst hready
    exact hR.whole

end History

/-- `History.whole_iff` on one call. -/
theorem hostCall_whole : ¬ hostCall.Resumes ∧
    ∀ c, .parse c ∈ [Event.parse hostCall] → ∀ f, c.message = some f → Whole f := by
  have hresumes : ¬ hostCall.Resumes := fun ⟨hready, _⟩ => hready rfl
  refine ⟨hresumes, (History.whole_iff history_hostCall).mpr ?_⟩
  intro c hc
  obtain rfl := Event.parse.inj (List.mem_singleton.mp hc)
  exact hresumes

/-- **Not every message is whole**: what was read before the data ran out is lost. -/
theorem withoutMethod_not_whole :
    ∃ (es : List Event) (p : Parser), History es p ∧
      ¬ ∀ c, .parse c ∈ es → ∀ f, c.message = some f → Whole f := by
  refine ⟨_, _, history_restCall, ?_⟩
  intro hwhole
  have hmethod := (hwhole restCall (by simp) _ rfl).1
  exact absurd hmethod (by decide)

/-! ### Marked parsers -/

namespace Event

/-- The event marks the parser as used. -/
def Marks : Event → Prop
  | .setUsed => True
  | .parse c => c.message ≠ none

/-- The event is a call on some data. -/
def HasData : Event → Prop
  | .setUsed => False
  | .parse c => c.data ≠ []

/-- The event is a call that is answered with `kStaleParser`. -/
def Stale : Event → Prop
  | .setUsed => False
  | .parse c => c.answer = .returned (.error .kStaleParser)

end Event

/-- Behind every event that marks the parser, every call on some data is answered with
`kStaleParser`. -/
def StaleGuarded (es : List Event) : Prop :=
  es.Pairwise fun e e' => e.Marks → e'.HasData → e'.Stale

/-- No call on any data follows an event that marks the parser. -/
def UsedOnce (es : List Event) : Prop :=
  es.Pairwise fun e e' => e.Marks → ¬ e'.HasData

namespace History

variable {es : List Event} {p : Parser}

/-- A marked parser has been marked. -/
theorem exists_marks (h : History es p) (hused : p.used = true) : ∃ e ∈ es, e.Marks := by
  induction h with
  | nil => cases hused
  | setUsed _ _ => exact ⟨.setUsed, by simp, trivial⟩
  | parse _ ih =>
      rcases Call.used_cases hused with hbefore | hmessage
      · obtain ⟨e, he, hmarks⟩ := ih hbefore
        exact ⟨e, List.mem_append_left _ he, hmarks⟩
      · exact ⟨_, List.mem_append_right _ (List.mem_singleton_self _), hmessage⟩

/-- As long as no marked parser was called on any data, `kStaleParser` is not on record. -/
theorem error_ne (h : History es p) (honce : UsedOnce es) : p.error ≠ .kStaleParser := by
  induction h with
  | nil => decide
  | setUsed _ ih => exact ih (List.pairwise_append.mp honce).1
  | @parse es c h ih =>
      obtain ⟨hes, -, hlast⟩ := List.pairwise_append.mp honce
      by_cases hdata : c.data = []
      · -- a call on no data puts its own error on record
        refine c.of_invariant (I := fun _ _ => False) (Q := fun _ q => q.error ≠ .kStaleParser)
          (fun _ => by simp) (fun hne => hne hdata) (fun _ _ _ _ _ hl => hl) ?_
        exact fun _ _ _ _ _ _ hl => hl.elim
      · refine Call.error_ne ?_ (ih hes)
        intro hused
        obtain ⟨e, he, hmarks⟩ := h.exists_marks hused
        exact hlast e he _ (List.mem_singleton_self _) hmarks hdata

/-- **A marked parser never answers `kStaleParser` first.** A run is guarded only if no
marked parser is called on data in it, where there is nothing to guard; and the first call
on data after such a run, marked or not, is not answered with `kStaleParser` either. -/
theorem stale_iff (h : History es p) :
    (StaleGuarded es ↔ UsedOnce es) ∧
      (UsedOnce es → ∀ (T : Type) [IsReqResType T] (data : Bytes) (q : Parser), data ≠ [] →
        p.parse T data ≠ some (.returned (.error .kStaleParser), q)) := by
  have hnext : ∀ {es : List Event} {p : Parser}, History es p → UsedOnce es →
      ∀ c : Call, c.before = p → c.data ≠ [] → c.answer ≠ .returned (.error .kStaleParser) := by
    intro es p h honce c hc hdata hstale
    have herror := Call.stale_on_record hdata hstale
    rw [hc] at herror
    exact h.error_ne honce herror
  refine ⟨⟨?_, ?_⟩, ?_⟩
  · intro hguarded
    induction h with
    | nil => exact .nil
    | setUsed _ ih =>
        obtain ⟨hes, -, -⟩ := List.pairwise_append.mp hguarded
        refine List.pairwise_append.mpr ⟨ih hes, List.pairwise_singleton _ _, ?_⟩
        intro e _ e' he' _ hdata
        obtain rfl := List.mem_singleton.mp he'
        exact hdata
    | @parse es c h ih =>
        obtain ⟨hes, -, hlast⟩ := List.pairwise_append.mp hguarded
        refine List.pairwise_append.mpr ⟨ih hes, List.pairwise_singleton _ _, ?_⟩
        intro e he e' he' hmarks hdata
        obtain rfl := List.mem_singleton.mp he'
        exact hnext h (ih hes) c rfl hdata
          (hlast e he _ (List.mem_singleton_self _) hmarks hdata)
  · intro honce
    exact honce.imp fun hno hmarks hdata => absurd hdata (hno hmarks)
  · intro honce T _ data q hdata hparse
    exact hnext h honce (.of hparse (by simp)) rfl hdata rfl

end History

/-- The call behind the one that returned a message. -/
def againCall : Call :=
  .of (parse_complete hostRequest.length) (by simp)

/-- `History.stale_iff` on a parser that returned a message: its next call on data is not
answered with `kStaleParser`, so that the run of both is not guarded. -/
theorem againCall_not_stale :
    ¬ StaleGuarded ([hostCall, againCall].map .parse) ∧
      ∀ q, hostCall.after.parse Request againCall.data ≠
        some (.returned (.error .kStaleParser), q) := by
  have hagain : History ([hostCall, againCall].map .parse) againCall.after :=
    .parse (c := againCall) history_hostCall
  have hdata : againCall.data ≠ [] := by decide
  constructor
  · rw [(History.stale_iff hagain).1]
    intro honce
    have hmessage : hostCall.message = some (IsReqResType.fields parsedHost) := rfl
    have hmarks : hostCall.message ≠ none := by simp [hmessage]
    exact List.rel_of_pairwise_cons honce (List.mem_singleton_self _) hmarks hdata
  · intro q
    exact (History.stale_iff history_hostCall).2 (List.pairwise_singleton _ _) Request
      againCall.data q hdata

/-- **A stale parser is not noticed**: the message is returned all the same. -/
theorem setUsed_not_staleGuarded :
    ∃ (es : List Event) (p : Parser), History es p ∧ ¬ StaleGuarded es := by
  have hparse : ({} : Parser).setUsed.parse Request hostRequest =
      some (.returned (.ok parsedHost),
        { used := true, totalConsumed := hostRequest.length, currentState := .kComplete,
          error := .kStaleParser }) := by
    decide
  refine ⟨_, _, .parse (c := .of hparse (by simp)) (.setUsed .nil), ?_⟩
  intro hguarded
  have hstale := List.rel_of_pairwise_cons hguarded (List.mem_singleton_self _)
    trivial (show hostRequest ≠ [] by decide)
  cases hstale

end Camille
