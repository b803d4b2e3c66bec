import Camille.Lib.Loop
import Camille.Tokens

/-!
# The Parser

`parser::Parser` as a state machine: its data members, one iteration of the loop of
`Parse` (`step`), and the call itself. A `Parser` outlives a call, with its state,
its error and its `used_` mark; the message under construction and the cursor are set
anew at every call.

`parseWithin` runs the loop under an iteration budget and `Terminates` asks for any
budget. No iteration ever revisits a state, except the two that change nothing at all,
so fourteen iterations decide every call: `parse` runs that many, and its `none` is a
call that never ends.

## Main results

* `step_advances`: what an iteration that goes on does; `step_moves`, `step_alters` and
  `step_climbs` follow.
* `step_leaves`: what an iteration that leaves the loop can do.
* `parse_eq_some_iff`: the fixed budget of `parse` loses no call that ends.
* `terminates_iff`: a call ends exactly when `parse` has a result.
-/

open Lib

namespace Camille

/-- `parser::States`. -/
inductive States
  | kReady | kMethod | kWaitUri | kUriStart | kUri | kWaitVersion | kVersion
  | kHeadersWait | kHeaders | kBodyValidation | kBodyIdentify | kBodyChunked
  | kComplete | kGarbage
  deriving DecidableEq, Repr

/-- The data members of `parser::Parser`. The cursor pair `rocky_` is left out: every
call sets it before it reads it. -/
structure Parser where
  used : Bool := false
  totalConsumed : ℕ := 0
  currentState : States := .kReady
  error : Errors := .kGeneralError
  deriving DecidableEq, Repr

namespace Parser

/-- `Parser::operator bool`. -/
def complete (p : Parser) : Bool :=
  p.currentState == .kComplete

/-- `Parser::SetUsed`. -/
def setUsed (p : Parser) : Parser :=
  { p with used := true }

/-- `current_state_ = s`. -/
def enter (p : Parser) (s : States) : Parser :=
  { p with currentState := s }

/-- Record an error and give the data up. -/
def fail (p : Parser) (e : Errors) : Parser :=
  { p with error := e, currentState := .kGarbage }

/-- The state that is entered is the one the parser is in. -/
@[simp] theorem enter_currentState (p : Parser) (s : States) :
    (p.enter s).currentState = s := rfl

/-- Of two states entered in a row, the second one counts. -/
@[simp] theorem enter_enter (p : Parser) (s s' : States) :
    (p.enter s).enter s' = p.enter s' := rfl

/-- Entering a state leaves the error on record. -/
@[simp] theorem enter_error (p : Parser) (s : States) : (p.enter s).error = p.error := rfl

/-- It does not use the parser up. -/
@[simp] theorem enter_used (p : Parser) (s : States) : (p.enter s).used = p.used := rfl

/-- It leaves the size of the data as it is. -/
@[simp] theorem enter_totalConsumed (p : Parser) (s : States) :
    (p.enter s).totalConsumed = p.totalConsumed := rfl

/-- Data that is given up is garbage. -/
@[simp] theorem fail_currentState (p : Parser) (e : Errors) :
    (p.fail e).currentState = .kGarbage := rfl

/-- The error that it is given up with is on record. -/
@[simp] theorem fail_error (p : Parser) (e : Errors) : (p.fail e).error = e := rfl

/-- A parser is used up in the state it is in. -/
@[simp] theorem setUsed_currentState (p : Parser) :
    p.setUsed.currentState = p.currentState := rfl

end Parser

/-- What a running call of `Parse` holds: the parser, the cursor and the message. -/
structure Loop (T : Type) where
  parser : Parser
  pos : Bytes
  dtype : T

/-- What a call of `Parse` ends in: its outcome, and the parser it leaves behind. -/
abbrev ParseResult (T : Type) := Outcome (Except Errors T) × Parser

section Step

variable {T : Type} [IsReqResType T]

open IsReqResType

/-- The state `kHeaders`. -/
def stepHeaders (p : Parser) (pos : Bytes) (dtype : T) : Loop T ⊕ ParseResult T :=
  match parseHeaders pos dtype with
  | .threw e => .inr (.threw e, p)
  | .undefined => .inr (.undefined, p)
  | .returned none => .inl ⟨p.fail .kBadRequest, pos, dtype⟩
  | .returned (some (pos, dtype)) =>
    match getHeader dtype kHost with
    | none => .inl ⟨p.fail .kBadRequest, pos, dtype⟩
    | some _ =>
      match getHeader dtype kContentLength with
      | none =>
        .inr (.returned (.ok (setSize dtype p.totalConsumed)), (p.enter .kComplete).setUsed)
      | some _ => .inl ⟨p.enter .kBodyValidation, pos, dtype⟩

/-- The state `kBodyValidation`. With an invalid length the error is recorded, and then
`content_length.value()` throws. With neither framing header nothing happens. -/
def stepBodyValidation (p : Parser) (pos : Bytes) (dtype : T) : Loop T ⊕ ParseResult T :=
  match getHeader dtype kContentLength, getHeader dtype kTransferEncoding with
  | some _, some _ => .inl ⟨p.fail .kBadRequest, pos, dtype⟩
  | some clHeader, none =>
    match validateContentLength clHeader with
    | none => .inr (.threw .badExpectedAccess, p.fail .kBadContentLength)
    | some contentLength =>
      .inl ⟨p.enter .kBodyIdentify, pos, setContentLength dtype contentLength⟩
  | none, some _ => .inl ⟨(p.enter .kBodyChunked).fail .kBadRequest, pos, dtype⟩
  | none, none => .inl ⟨p, pos, dtype⟩

/-- The state `kBodyIdentify`. Too few bytes change nothing; a content length that was
never set is an indeterminate value. -/
def stepBodyIdentify (p : Parser) (pos : Bytes) (dtype : T) : Loop T ⊕ ParseResult T :=
  match contentLength dtype with
  | none => .inr (.undefined, p)
  | some expectedLength =>
    match parseBodyIdentify pos dtype expectedLength with
    | some (_, dtype) =>
      .inr (.returned (.ok (setSize dtype p.totalConsumed)), (p.enter .kComplete).setUsed)
    | none => .inl ⟨p, pos, dtype⟩

/-- One iteration of the loop of `Parse`: the loop condition, the test for the end of
the data, and the `switch`. -/
def step (l : Loop T) : Loop T ⊕ ParseResult T :=
  let ⟨p, pos, dtype⟩ := l
  if p.currentState = .kComplete ∨ p.currentState = .kGarbage then
    .inr (.returned (.error p.error), p)
  else
    match pos with
    | [] => .inr (.returned (.error .kPartialMessage), p)
    | token :: rest =>
      match p.currentState with
      | .kReady =>
        -- the garbage state of a stale parser is overwritten at once
        let p := if p.used then p.fail .kStaleParser else p
        .inl ⟨p.enter .kMethod, pos, dtype⟩
      | .kMethod =>
        match parseMethod pos dtype with
        | none => .inl ⟨p.fail .kBadMethod, pos, dtype⟩
        | some (pos, dtype) => .inl ⟨p.enter .kWaitUri, pos, dtype⟩
      | .kWaitUri =>
        if isSpace token then .inl ⟨p.enter .kUriStart, rest, dtype⟩
        else .inl ⟨p.fail .kBadRequest, pos, dtype⟩
      | .kUriStart =>
        if isSlash token then .inl ⟨p.enter .kUri, pos, dtype⟩
        else .inl ⟨p.fail .kBadUri, pos, dtype⟩
      | .kUri =>
        match parseUri pos dtype with
        | .threw e => .inr (.threw e, p)
        | .undefined => .inr (.undefined, p)
        | .returned none => .inl ⟨p.fail .kBadUri, pos, dtype⟩
        | .returned (some (pos, dtype)) => .inl ⟨p.enter .kWaitVersion, pos, dtype⟩
      | .kWaitVersion =>
        if isSpace token then .inl ⟨p.enter .kVersion, rest, dtype⟩
        else .inl ⟨p.fail .kBadRequest, pos, dtype⟩
      | .kVersion =>
        match parseVersion pos dtype with
        | .threw e => .inr (.threw e, p)
        | .undefined => .inr (.undefined, p)
        | .returned none => .inl ⟨p.fail .kBadVersion, pos, dtype⟩
        | .returned (some (pos, dtype)) => .inl ⟨p.enter .kHeadersWait, pos, dtype⟩
      | .kHeadersWait =>
        if isLF token then .inl ⟨p.enter .kHeaders, rest, dtype⟩
        else .inl ⟨p.fail .kPartialMessage, pos, dtype⟩
      | .kHeaders => stepHeaders p pos dtype
      | .kBodyValidation => stepBodyValidation p pos dtype
      | .kBodyIdentify => stepBodyIdentify p pos dtype
      | .kBodyChunked => .inl ⟨p.fail .kBadBody, pos, dtype⟩
      | .kComplete => .inr (.returned (.ok (setSize dtype p.totalConsumed)), p.setUsed)
      | .kGarbage => .inr (.returned (.error p.error), p)

end Step

/-! ### The call -/

namespace Parser

variable (T : Type) [IsReqResType T]

/-- The loop of `Parse` as a call on non-empty data enters it. -/
def start (p : Parser) (data : Bytes) : Loop T :=
  ⟨{ p with totalConsumed := data.length }, data, IsReqResType.fresh⟩

/-- `Parser::Parse`, within a number of iterations of its loop. -/
def parseWithin (iterations : ℕ) (p : Parser) (data : Bytes) : Option (ParseResult T) :=
  if data = [] then
    some (.returned (.error .kBadRequest), { p with error := .kBadRequest })
  else run step iterations (p.start T data)

/-- `Parser::Parse`: the outcome of the call and the parser it leaves behind, or `none`
for a call that never ends. -/
def parse (p : Parser) (data : Bytes) : Option (ParseResult T) :=
  parseWithin T 14 p data

/-- The loop of the call is left after finitely many iterations. -/
def Terminates (p : Parser) (data : Bytes) : Prop :=
  ∃ iterations result, parseWithin T iterations p data = some result

end Parser

/-! ### One iteration, state by state -/

section StepEquations

variable {T : Type} [IsReqResType T] {p : Parser} {pos : Bytes} {d : T}

/-- A state in which the loop goes on. -/
def States.Running (s : States) : Prop :=
  ¬ (s = .kComplete ∨ s = .kGarbage)

/-- Whether a state is an end can be read off it. -/
instance (s : States) : Decidable s.Running :=
  inferInstanceAs (Decidable (¬ _))

/-- In the two final states the loop is left with the error on record. -/
theorem step_of_not_running (h : ¬ p.currentState.Running) :
    step ⟨p, pos, d⟩ = .inr (.returned (.error p.error), p) := by
  simp only [step, if_pos (not_not.mp h)]

/-- At the end of the data the loop is left with `kPartialMessage`. -/
theorem step_nil (h : p.currentState.Running) :
    step ⟨p, [], d⟩ = .inr (.returned (.error .kPartialMessage), p) := by
  have h : ¬ (p.currentState = .kComplete ∨ p.currentState = .kGarbage) := h
  simp only [step, if_neg h]

/-- **`kReady`** reports a used parser, and goes on to the method in either case. -/
theorem step_kReady (hs : p.currentState = .kReady) (hp : pos ≠ []) :
    step ⟨p, pos, d⟩ =
      .inl ⟨(if p.used then p.fail .kStaleParser else p).enter .kMethod, pos, d⟩ := by
  obtain ⟨b, pos, rfl⟩ := List.exists_cons_of_ne_nil hp
  simp [step, hs]

/-- **`kMethod`** reads a name that is known, or gives the data up. -/
theorem step_kMethod (hs : p.currentState = .kMethod) (hp : pos ≠ []) :
    step ⟨p, pos, d⟩ =
      .inl ((parseMethod pos d).elim ⟨p.fail .kBadMethod, pos, d⟩
        fun r => ⟨p.enter .kWaitUri, r.1, r.2⟩) := by
  obtain ⟨b, pos, rfl⟩ := List.exists_cons_of_ne_nil hp
  simp only [step, hs]
  cases parseMethod (b :: pos) d <;> simp

/-- **`kWaitUri`** passes one white space. -/
theorem step_kWaitUri (hs : p.currentState = .kWaitUri) (b : UInt8) (pos : Bytes) :
    step ⟨p, b :: pos, d⟩ =
      if isSpace b then .inl ⟨p.enter .kUriStart, pos, d⟩
      else .inl ⟨p.fail .kBadRequest, b :: pos, d⟩ := by
  simp [step, hs]

/-- **`kUriStart`** looks at the slash and leaves it. -/
theorem step_kUriStart (hs : p.currentState = .kUriStart) (b : UInt8) (pos : Bytes) :
    step ⟨p, b :: pos, d⟩ =
      if isSlash b then .inl ⟨p.enter .kUri, b :: pos, d⟩
      else .inl ⟨p.fail .kBadUri, b :: pos, d⟩ := by
  simp [step, hs]

/-- **`kUri`** reads the target, or gives the data up. -/
theorem step_kUri (hs : p.currentState = .kUri) (hp : pos ≠ []) {v : Option (Bytes × T)}
    (hv : parseUri pos d = .returned v) :
    step ⟨p, pos, d⟩ =
      .inl (v.elim ⟨p.fail .kBadUri, pos, d⟩ fun r => ⟨p.enter .kWaitVersion, r.1, r.2⟩) := by
  obtain ⟨b, pos, rfl⟩ := List.exists_cons_of_ne_nil hp
  simp only [step, hs, hv]
  cases v <;> simp

/-- **`kWaitVersion`** passes one white space. -/
theorem step_kWaitVersion (hs : p.currentState = .kWaitVersion) (b : UInt8) (pos : Bytes) :
    step ⟨p, b :: pos, d⟩ =
      if isSpace b then .inl ⟨p.enter .kVersion, pos, d⟩
      else .inl ⟨p.fail .kBadRequest, b :: pos, d⟩ := by
  simp [step, hs]

/-- **`kVersion`** reads the version, or gives the data up. -/
theorem step_kVersion (hs : p.currentState = .kVersion) (hp : pos ≠ [])
    {v : Option (Bytes × T)} (hv : parseVersion pos d = .returned v) :
    step ⟨p, pos, d⟩ =
      .inl (v.elim ⟨p.fail .kBadVersion, pos, d⟩ fun r => ⟨p.enter .kHeadersWait, r.1, r.2⟩) := by
  obtain ⟨b, pos, rfl⟩ := List.exists_cons_of_ne_nil hp
  simp only [step, hs, hv]
  cases v <;> simp

/-- It reads past the data where `ParseVersion` does. -/
theorem step_kVersion_undefined (hs : p.currentState = .kVersion) (hp : pos ≠ [])
    (hv : parseVersion pos d = .undefined) : step ⟨p, pos, d⟩ = .inr (.undefined, p) := by
  obtain ⟨b, pos, rfl⟩ := List.exists_cons_of_ne_nil hp
  simp [step, hs, hv]

/-- **`kHeadersWait`** passes the line feed of the start line. -/
theorem step_kHeadersWait (hs : p.currentState = .kHeadersWait) (b : UInt8) (pos : Bytes) :
    step ⟨p, b :: pos, d⟩ =
      if isLF b then .inl ⟨p.enter .kHeaders, pos, d⟩
      else .inl ⟨p.fail .kPartialMessage, b :: pos, d⟩ := by
  simp [step, hs]

/-- **`kHeaders`** reads the header block. -/
theorem step_kHeaders (hs : p.currentState = .kHeaders) (hp : pos ≠ []) :
    step ⟨p, pos, d⟩ = stepHeaders p pos d := by
  obtain ⟨b, pos, rfl⟩ := List.exists_cons_of_ne_nil hp
  simp [step, hs]

/-- **`kBodyValidation`** decides about the body. -/
theorem step_kBodyValidation (hs : p.currentState = .kBodyValidation) (hp : pos ≠ []) :
    step ⟨p, pos, d⟩ = stepBodyValidation p pos d := by
  obtain ⟨b, pos, rfl⟩ := List.exists_cons_of_ne_nil hp
  simp [step, hs]

/-- **`kBodyIdentify`** reads a body of known length. -/
theorem step_kBodyIdentify (hs : p.currentState = .kBodyIdentify) (hp : pos ≠ []) :
    step ⟨p, pos, d⟩ = stepBodyIdentify p pos d := by
  obtain ⟨b, pos, rfl⟩ := List.exists_cons_of_ne_nil hp
  simp [step, hs]

/-- **`kBodyChunked`** is not implemented: the data is given up. -/
theorem step_kBodyChunked (hs : p.currentState = .kBodyChunked) (hp : pos ≠ []) :
    step ⟨p, pos, d⟩ = .inl ⟨p.fail .kBadBody, pos, d⟩ := by
  obtain ⟨b, pos, rfl⟩ := List.exists_cons_of_ne_nil hp
  simp [step, hs]

/-- Once the data is given up, the loop is left with the error. -/
theorem exits_fail (p : Parser) (e : Errors) (pos : Bytes) (d : T) :
    Exits step ⟨p.fail e, pos, d⟩ (.returned (.error e), p.fail e) :=
  (exits_iff_of_inr (step_of_not_running (by simp [States.Running]))).mpr rfl

/-- Where the data ends, the loop is left with `kPartialMessage`. -/
theorem exits_nil {s : States} (hs : p.currentState = s) (hrun : s.Running) :
    Exits step ⟨p, [], d⟩ (.returned (.error .kPartialMessage), p) :=
  (exits_iff_of_inr (step_nil (hs ▸ hrun))).mpr rfl

end StepEquations

/-! ### Every iteration climbs or stalls -/

/-- The declaration order of the states. -/
def States.rank : States → ℕ
  | .kReady => 0 | .kMethod => 1 | .kWaitUri => 2 | .kUriStart => 3 | .kUri => 4
  | .kWaitVersion => 5 | .kVersion => 6 | .kHeadersWait => 7 | .kHeaders => 8
  | .kBodyValidation => 9 | .kBodyIdentify => 10 | .kBodyChunked => 11
  | .kComplete => 12 | .kGarbage => 13

/-- There are fourteen states. -/
theorem States.rank_le (s : States) : s.rank ≤ 13 := by
  cases s <;> decide

/-- The two ends come last. -/
theorem States.Running.rank_lt {s : States} (h : s.Running) :
    s.rank < States.kComplete.rank := by
  revert h
  cases s <;> decide

/-- Up to the bodies, no state is an end. -/
theorem States.running_of_rank_le {s : States} (h : s.rank ≤ States.kBodyIdentify.rank) :
    s.Running := by
  rintro (rfl | rfl) <;> exact absurd h (by decide)

/-- A state is known by its place. -/
theorem States.rank_inj {s s' : States} (h : s.rank = s'.rank) : s = s' := by
  cases s <;> cases s' <;> first | rfl | exact absurd h (by decide)

/-- The two states between the start line and the headers. -/
theorem States.eq_of_rank {s : States} (h₁ : ¬ s.rank ≤ States.kVersion.rank)
    (h₂ : s.rank ≤ States.kHeaders.rank) : s = .kHeadersWait ∨ s = .kHeaders := by
  cases s <;> simp_all [States.rank]

/-- A new parser has the whole head before it. -/
theorem Parser.rank_fresh : ({} : Parser).currentState.rank ≤ States.kHeaders.rank := by
  decide

section Climb

variable {T : Type}

/-- The rank of a running call: the place of its state. -/
def Loop.rank (l : Loop T) : ℕ :=
  l.parser.currentState.rank

/-- What an iteration that goes on can do: change nothing, give the data up, or move on to
the next state, which `kBodyValidation` does without moving the cursor. -/
inductive Moves (l : Loop T) : Loop T → Prop
  | stall : Moves l l
  | giveUp {l' : Loop T} :
      l.parser.currentState ≠ .kGarbage → l'.parser.currentState = .kGarbage → Moves l l'
  | next {l' : Loop T} :
      l'.rank = l.rank + 1 → l'.rank ≤ States.kBodyIdentify.rank →
      (l'.parser.currentState = .kBodyIdentify → l'.pos = l.pos) → Moves l l'

/-- What an iteration that goes on does to the parser and the cursor: nothing; or it gives
the data up with an error; or the next state is entered, which `kBodyIdentify` is without
moving the cursor; or `kReady` overwrites the error of a stale parser at once. -/
inductive Advances (l : Loop T) : Loop T → Prop
  | stall : Advances l l
  | fail {e : Errors} (he : e ≠ .kStaleParser) (pos : Bytes) (d : T) :
      Advances l ⟨l.parser.fail e, pos, d⟩
  | enter {s s' : States} {pos : Bytes} (hs : l.parser.currentState = s)
      (hnext : s'.rank = s.rank + 1) (hle : s'.rank ≤ States.kBodyIdentify.rank)
      (hpos : s' = .kBodyIdentify → pos = l.pos) (d : T) :
      Advances l ⟨l.parser.enter s', pos, d⟩
  | stale (hs : l.parser.currentState = .kReady) (hused : l.parser.used = true) :
      Advances l ⟨(l.parser.fail .kStaleParser).enter .kMethod, l.pos, l.dtype⟩

variable [IsReqResType T]

/-- The header block is followed by the decision about the body. -/
theorem stepHeaders_advances {p : Parser} {pos : Bytes} {d : T} {l : Loop T}
    (hs : p.currentState = .kHeaders) (h : stepHeaders p pos d = .inl l) :
    Advances ⟨p, pos, d⟩ l := by
  rw [stepHeaders] at h
  split at h
  · cases h
  · cases h
  · obtain rfl := Sum.inl.inj h
    exact .fail (by simp) _ _
  · split at h
    · obtain rfl := Sum.inl.inj h
      exact .fail (by simp) _ _
    · split at h
      · cases h
      · obtain rfl := Sum.inl.inj h
        exact .enter hs rfl (by simp [States.rank]) (by simp) _

/-- The decision enters the body, gives it up, or stays where it is. -/
theorem stepBodyValidation_advances {p : Parser} {pos : Bytes} {d : T} {l : Loop T}
    (hs : p.currentState = .kBodyValidation) (h : stepBodyValidation p pos d = .inl l) :
    Advances ⟨p, pos, d⟩ l := by
  rw [stepBodyValidation] at h
  split at h
  · obtain rfl := Sum.inl.inj h
    exact .fail (by simp) _ _
  · split at h
    · cases h
    · obtain rfl := Sum.inl.inj h
      exact .enter hs rfl le_rfl (fun _ => rfl) _
  · obtain rfl := Sum.inl.inj h
    exact .fail (by simp) _ _
  · obtain rfl := Sum.inl.inj h
    exact .stall

/-- A body that is not all there is waited for. -/
theorem stepBodyIdentify_advances {p : Parser} {pos : Bytes} {d : T} {l : Loop T}
    (h : stepBodyIdentify p pos d = .inl l) : Advances ⟨p, pos, d⟩ l := by
  rw [stepBodyIdentify] at h
  split at h
  · cases h
  · split at h
    · cases h
    · obtain rfl := Sum.inl.inj h
      exact .stall

/-- In a final state no iteration goes on. -/
theorem running_of_step {l l' : Loop T} (h : step l = .inl l') :
    l.parser.currentState.Running := by
  by_contra hrun
  obtain ⟨p, pos, d⟩ := l
  rw [step_of_not_running hrun] at h
  cases h

/-- At the end of the data no iteration goes on. -/
theorem pos_ne_nil_of_step {l l' : Loop T} (h : step l = .inl l') : l.pos ≠ [] := by
  have hrun := running_of_step h
  obtain ⟨p, pos, d⟩ := l
  rintro rfl
  rw [step_nil hrun] at h
  cases h

/-- **What an iteration that goes on does.** -/
theorem step_advances {l l' : Loop T} (h : step l = .inl l') : Advances l l' := by
  have hrun := running_of_step h
  have hpos := pos_ne_nil_of_step h
  obtain ⟨p, pos, d⟩ := l
  cases hs : p.currentState with
  | kReady =>
      rw [step_kReady hs hpos] at h
      obtain rfl := Sum.inl.inj h
      split
      · rename_i hused
        exact .stale hs hused
      · exact .enter hs rfl (by simp [States.rank]) (by simp) _
  | kMethod =>
      rw [step_kMethod hs hpos] at h
      obtain rfl := Sum.inl.inj h
      cases parseMethod pos d with
      | none => exact .fail (by simp) _ _
      | some r => exact .enter hs rfl (by simp [States.rank]) (by simp) _
  | kWaitUri | kUriStart | kWaitVersion | kHeadersWait =>
      obtain ⟨b, rest, rfl⟩ := List.exists_cons_of_ne_nil hpos
      simp only [step, hs, reduceCtorEq, or_self, if_false] at h
      split at h <;> obtain rfl := Sum.inl.inj h
      · exact .enter hs rfl (by simp [States.rank]) (by simp) _
      · exact .fail (by simp) _ _
  | kUri | kVersion =>
      obtain ⟨b, rest, rfl⟩ := List.exists_cons_of_ne_nil hpos
      simp only [step, hs, reduceCtorEq, or_self, if_false] at h
      split at h
      · cases h
      · cases h
      · obtain rfl := Sum.inl.inj h
        exact .fail (by simp) _ _
      · obtain rfl := Sum.inl.inj h
        exact .enter hs rfl (by simp [States.rank]) (by simp) _
  | kHeaders =>
      rw [step_kHeaders hs hpos] at h
      exact stepHeaders_advances hs h
  | kBodyValidation =>
      rw [step_kBodyValidation hs hpos] at h
      exact stepBodyValidation_advances hs h
  | kBodyIdentify =>
      rw [step_kBodyIdentify hs hpos] at h
      exact stepBodyIdentify_advances h
  | kBodyChunked =>
      rw [step_kBodyChunked hs hpos] at h
      obtain rfl := Sum.inl.inj h
      exact .fail (by simp) _ _
  | kComplete => exact absurd (.inl hs) hrun
  | kGarbage => exact absurd (.inr hs) hrun

/-- The state and the cursor after an iteration that goes on. -/
theorem step_moves {l l' : Loop T} (h : step l = .inl l') : l.pos ≠ [] ∧ Moves l l' := by
  have hrun := running_of_step h
  have hgarbage : l.parser.currentState ≠ .kGarbage := fun he => hrun (.inr he)
  refine ⟨pos_ne_nil_of_step h, ?_⟩
  cases step_advances h with
  | stall => exact .stall
  | fail _ pos d => exact .giveUp hgarbage rfl
  | enter hs hnext hle hpos d =>
      refine .next ?_ hle hpos
      rw [Loop.rank, Loop.rank, hs]
      exact hnext
  | stale hs hused =>
      refine .next ?_ (by simp [Loop.rank, States.rank]) (by simp)
      rw [Loop.rank, Loop.rank, hs]
      rfl

/-- What an iteration that goes on leaves of the parser: it enters a state in which the loop
goes on, or gives the data up with an error, or overwrites the error of a stale parser. -/
def Alters (p p' : Parser) : Prop :=
  (∃ s, s.Running ∧ p' = p.enter s) ∨ (∃ e, e ≠ .kStaleParser ∧ p' = p.fail e) ∨
    (p.currentState = .kReady ∧ p.used = true ∧ p' = (p.fail .kStaleParser).enter .kMethod)

/-- The parser after an iteration that goes on. -/
theorem step_alters {l l' : Loop T} (h : step l = .inl l') : Alters l.parser l'.parser := by
  cases step_advances h with
  | stall => exact .inl ⟨_, running_of_step h, rfl⟩
  | fail he _ _ => exact .inr (.inl ⟨_, he, rfl⟩)
  | @enter s s' _ _ _ hle _ _ =>
      exact .inl ⟨s', States.running_of_rank_le hle, rfl⟩
  | stale hs hused => exact .inr (.inr ⟨hs, hused, rfl⟩)

/-- What an iteration that leaves the loop can do. -/
inductive Leaves (l : Loop T) : ParseResult T → Prop
  | final : ¬ l.parser.currentState.Running →
      Leaves l (.returned (.error l.parser.error), l.parser)
  | dataEnd : l.parser.currentState.Running → l.pos = [] →
      Leaves l (.returned (.error .kPartialMessage), l.parser)
  | message (d : T) : l.parser.currentState.Running →
      Leaves l (.returned (.ok d), (l.parser.enter .kComplete).setUsed)
  | badLength : l.parser.currentState = .kBodyValidation →
      Leaves l (.threw .badExpectedAccess, l.parser.fail .kBadContentLength)
  | threw (e : Exception) : States.kUri.rank ≤ l.rank → l.rank ≤ States.kHeaders.rank →
      Leaves l (.threw e, l.parser)
  | undefined : Leaves l (.undefined, l.parser)

/-- The header block ends the call as `ParseHeaders` does, or with a message without a body. -/
theorem stepHeaders_leaves {p : Parser} {pos : Bytes} {d : T} {r : ParseResult T}
    (hs : p.currentState = .kHeaders) (h : stepHeaders p pos d = .inr r) :
    Leaves ⟨p, pos, d⟩ r := by
  rw [stepHeaders] at h
  split at h
  · obtain rfl := Sum.inr.inj h
    exact .threw _ (by rw [Loop.rank, hs]; decide) (by rw [Loop.rank, hs])
  · obtain rfl := Sum.inr.inj h
    exact .undefined
  · cases h
  · split at h
    · cases h
    · split at h
      · obtain rfl := Sum.inr.inj h
        exact .message _ (by rw [hs]; decide)
      · cases h

/-- The decision leaves the loop with a length that is invalid. -/
theorem stepBodyValidation_leaves {p : Parser} {pos : Bytes} {d : T} {r : ParseResult T}
    (hs : p.currentState = .kBodyValidation) (h : stepBodyValidation p pos d = .inr r) :
    Leaves ⟨p, pos, d⟩ r := by
  rw [stepBodyValidation] at h
  split at h
  · cases h
  · split at h
    · obtain rfl := Sum.inr.inj h
      exact .badLength hs
    · cases h
  · cases h
  · cases h

/-- A body that is all there completes the message. -/
theorem stepBodyIdentify_leaves {p : Parser} {pos : Bytes} {d : T} {r : ParseResult T}
    (hs : p.currentState = .kBodyIdentify) (h : stepBodyIdentify p pos d = .inr r) :
    Leaves ⟨p, pos, d⟩ r := by
  rw [stepBodyIdentify] at h
  split at h
  · obtain rfl := Sum.inr.inj h
    exact .undefined
  · split at h
    · obtain rfl := Sum.inr.inj h
      exact .message _ (by rw [hs]; decide)
    · cases h

/-- **What an iteration that leaves the loop can do.** -/
theorem step_leaves {l : Loop T} {r : ParseResult T} (h : step l = .inr r) : Leaves l r := by
  obtain ⟨p, pos, d⟩ := l
  by_cases hrun : p.currentState.Running
  swap
  · rw [step_of_not_running hrun] at h
    obtain rfl := Sum.inr.inj h
    exact .final hrun
  by_cases hpos : pos = []
  · subst hpos
    rw [step_nil hrun] at h
    obtain rfl := Sum.inr.inj h
    exact .dataEnd hrun rfl
  cases hs : p.currentState with
  | kReady => rw [step_kReady hs hpos] at h; cases h
  | kMethod => rw [step_kMethod hs hpos] at h; cases h
  | kWaitUri | kUriStart | kWaitVersion | kHeadersWait =>
      obtain ⟨b, rest, rfl⟩ := List.exists_cons_of_ne_nil hpos
      simp only [step, hs, reduceCtorEq, or_self, if_false] at h
      split at h <;> cases h
  | kUri | kVersion =>
      have hranks : States.kUri.rank ≤ p.currentState.rank ∧
          p.currentState.rank ≤ States.kHeaders.rank := by
        rw [hs]
        decide
      obtain ⟨b, rest, rfl⟩ := List.exists_cons_of_ne_nil hpos
      simp only [step, hs, reduceCtorEq, or_self, if_false] at h
      split at h
      · obtain rfl := Sum.inr.inj h
        exact .threw _ hranks.1 hranks.2
      · obtain rfl := Sum.inr.inj h
        exact .undefined
      · cases h
      · cases h
  | kHeaders =>
      rw [step_kHeaders hs hpos] at h
      exact stepHeaders_leaves hs h
  | kBodyValidation =>
      rw [step_kBodyValidation hs hpos] at h
      exact stepBodyValidation_leaves hs h
  | kBodyIdentify =>
      rw [step_kBodyIdentify hs hpos] at h
      exact stepBodyIdentify_leaves hs h
  | kBodyChunked =>
      rw [step_kBodyChunked hs hpos] at h
      cases h
  | kComplete => exact absurd (.inl hs) hrun
  | kGarbage => exact absurd (.inr hs) hrun

/-- **Every iteration that goes on moves the state forward, or changes nothing.** -/
theorem step_climbs (l l' : Loop T) (h : step l = .inl l') : l' = l ∨ l.rank < l'.rank := by
  cases (step_moves h).2 with
  | stall => exact .inl rfl
  | giveUp hl hl' =>
      refine .inr ?_
      rw [Loop.rank, Loop.rank, hl']
      cases hs : l.parser.currentState <;> first | exact absurd hs hl | decide
  | next hnext _ _ => exact .inr (by omega)

/-- The budget of `parse` decides the loop of a call. -/
theorem exits_iff_run {l : Loop T} {result : ParseResult T} :
    Exits step l result ↔ run step 14 l = some result :=
  exits_iff_run_of_climb Loop.rank 13 step_climbs fun l => l.parser.currentState.rank_le

end Climb

namespace Parser

variable {T : Type} [IsReqResType T]

/-- A call on no data is refused at once, whatever the parser. -/
@[simp] theorem parse_nil (p : Parser) :
    p.parse T [] =
      some (.returned (.error .kBadRequest), { p with error := .kBadRequest }) := rfl

/-- **The fixed budget of `parse` loses nothing**: it finds the result of every call
whose loop is left. -/
theorem parse_eq_some_iff {p : Parser} {data : Bytes} {result : ParseResult T}
    (hd : data ≠ []) :
    p.parse T data = some result ↔ Exits step (p.start T data) result := by
  rw [parse, parseWithin, if_neg hd, exits_iff_run]

/-- A call ends exactly when `parse` has a result. -/
theorem terminates_iff {p : Parser} {data : Bytes} :
    p.Terminates T data ↔ ∃ result, p.parse T data = some result := by
  constructor
  · rintro ⟨n, result, h⟩
    by_cases hd : data = []
    · subst hd
      exact ⟨_, rfl⟩
    · rw [parseWithin, if_neg hd] at h
      exact ⟨result, (parse_eq_some_iff hd).mpr ⟨n, h⟩⟩
  · rintro ⟨result, h⟩
    exact ⟨14, result, h⟩

end Parser

end Camille
