import Camille.Histories

/-!
# What a Parser Says of an Error

A call that fails tells its caller twice: by the error it returns, and through
`GetErrorCode` and `GetErrorString`, which read the error on record and are what the
handlers log. The check for the end of the data returns `kPartialMessage` without putting
it on record, in whatever state it finds the parser. The other failures put their errors on
record first.

A parser that can go on never has `kPartialMessage` on record, so that the two agree
exactly on the calls that do not run out of data.

## Main results

* `Call.reports_iff`: what a call that returns an error leaves on record.
* `History.reported_iff`: when every error of a history is reported.
-/

open Lib

namespace Camille

/-! ### The two reports -/

/-- The value of an enumerator of `error::Errors`. -/
def Errors.code : Errors → UInt8
  | .kGeneralError => 0
  | .kBadMethod => 1
  | .kBadUri => 2
  | .kBadRequest => 3
  | .kStaleParser => 4
  | .kBadVersion => 5
  | .kBadKey => 6
  | .kBadHeader => 7
  | .kEndOfStream => 8
  | .kSizeLimit => 9
  | .kBodyLimit => 10
  | .kBadBody => 11
  | .kBadContentLength => 12
  | .kBufferOverflow => 13
  | .kPartialMessage => 14
  | .kShortRead => 15
  | .kGarbageRequest => 16

/-- `error::ErrorToString`. Two errors have no text of their own. -/
def errorToString : Errors → Bytes
  | .kGeneralError => ascii "General Error"
  | .kBadMethod => ascii "Bad Method"
  | .kBadUri => ascii "Bad URI"
  | .kBadRequest => ascii "Bad Request"
  | .kStaleParser => ascii "Stale Parser: One transaction per parser"
  | .kBadVersion => ascii "Bad Version: Protocol mismatch or invalid format"
  | .kBadKey => ascii "Bad Key"
  | .kBadHeader => ascii "Bad Header"
  | .kEndOfStream => ascii "End of Stream reached unexpectedly"
  | .kSizeLimit => ascii "Header Size Limit Exceeded"
  | .kBodyLimit => ascii "Body Size Limit Exceeded"
  | .kBufferOverflow => ascii "Internal Buffer Overflow"
  | .kPartialMessage => ascii "Partial Message: More data expected"
  | .kShortRead => ascii "Short Read from Network"
  | .kGarbageRequest => ascii "Garbage Request: Unparseable data"
  | .kBadBody | .kBadContentLength => ascii "Unknown Error"

/-- An error is known by its code. -/
theorem Errors.code_inj {e e' : Errors} (h : e.code = e'.code) : e = e' := by
  revert h
  cases e <;> cases e' <;> decide

namespace Parser

/-- `Parser::GetErrorCode`. -/
def getErrorCode (p : Parser) : UInt8 :=
  p.error.code

/-- `Parser::GetErrorString`. -/
def getErrorString (p : Parser) : Bytes :=
  errorToString p.error

/-- The parser reports this error. -/
def Reports (p : Parser) (e : Errors) : Prop :=
  p.getErrorCode = e.code ∧ p.getErrorString = errorToString e

/-- A parser reports the error on record. -/
theorem reports_iff {p : Parser} {e : Errors} : p.Reports e ↔ p.error = e := by
  constructor
  · rintro ⟨hcode, -⟩
    exact Errors.code_inj hcode
  · rintro rfl
    exact ⟨rfl, rfl⟩

end Parser

/-! ### One call -/

/-- The data ends where a parser in the state `s` still needs some: behind a token of the
start line, or where a body should begin. -/
def RunsOut (s : States) (data : Bytes) : Prop :=
  data ≠ [] ∧ s.rank ≤ States.kHeaders.rank ∧
    ((∃ s', Leads (s, data) (s', [])) ∨
      ∃ (R : Reading s data) (value : Bytes), R.Announces value ∧ R.rest = [])

namespace Call

/-- A call leaves no `kPartialMessage` on record with a parser that can go on. -/
theorem error_ne_partial {c : Call}
    (h : c.before.currentState.Running → c.before.error ≠ .kPartialMessage) :
    c.after.currentState.Running → c.after.error ≠ .kPartialMessage := by
  refine c.of_invariant (I := fun p _ => p.currentState.Running → p.error ≠ .kPartialMessage)
    (Q := fun _ q => q.currentState.Running → q.error ≠ .kPartialMessage)
    (fun _ _ => by simp) (fun _ => h) ?_ ?_
  · intro T _ l l' hstep hl hrun
    rcases step_alters hstep with ⟨s, -, hl'⟩ | ⟨e, -, hl'⟩ | ⟨-, -, hl'⟩
    · rw [hl']
      exact hl (running_of_step hstep)
    · rw [hl'] at hrun
      exact absurd hrun (by simp [States.Running])
    · simp [hl']
  · intro T _ l r _ hleaves hl
    cases hleaves with
    | final _ | dataEnd _ _ | threw _ _ _ | undefined => exact hl
    | message d _ | badLength _ => exact fun hrun => absurd hrun (by simp [States.Running])

/-- **The error that is returned is on record**, except for the one that the end of the data
brings to a parser that can go on. -/
theorem error_on_record {c : Call} {e : Errors} (he : c.answer = .returned (.error e)) :
    c.after.error = e ∨ (e = .kPartialMessage ∧ c.after.currentState.Running) := by
  revert he
  refine c.of_invariant (I := fun _ _ => True)
    (Q := fun o q => o = .returned (.error e) →
      q.error = e ∨ (e = .kPartialMessage ∧ q.currentState.Running))
    (fun _ h => .inl (Except.error.inj (Outcome.returned.inj h))) (fun _ => trivial)
    (fun _ _ _ _ _ _ => trivial) ?_
  intro T _ l r _ hleaves _ h
  cases hleaves with
  | final _ => exact .inl (Except.error.inj (Outcome.returned.inj h))
  | dataEnd hrun _ => exact .inr ⟨(Except.error.inj (Outcome.returned.inj h)).symm, hrun⟩
  | message _ _ | threw _ _ _ | undefined | badLength _ => cases h

/-- A call comes out the way a call on its data does for every type of message. -/
theorem eq_of_parse {c : Call} {r : Outcome (Except Errors Fields)} {I : Parser → Prop}
    (h : ∀ (T : Type) [IsReqResType T], ∃ (o : Outcome (Except Errors T)) (q : Parser),
      c.before.parse T c.data = some (o, q) ∧ shown o = r ∧ I q) :
    c.answer = r ∧ I c.after := by
  obtain ⟨T, _, o, hparse, -, ho⟩ := c.made
  obtain ⟨o', q, hparse', ho', hq⟩ := h T
  obtain ⟨rfl, rfl⟩ := Prod.mk.inj (Option.some.inj (hparse.symm.trans hparse'))
  exact ⟨ho.symm.trans ho', hq⟩

/-- **What running out of data comes to.** -/
theorem answer_of_runsOut {c : Call} (h : RunsOut c.before.currentState c.data) :
    c.answer = .returned (.error .kPartialMessage) ∧ c.after.currentState.Running := by
  obtain ⟨hdata, hs, ⟨s', hchain⟩ | ⟨R, value, hann, hrest⟩⟩ := h
  · refine eq_of_parse (I := fun q => q.currentState.Running) fun T _ => ?_
    obtain ⟨q, hq, rfl⟩ := parse_of_leads_nil (T := T) hs hdata hchain
    have hrun : q.currentState.Running :=
      States.running_of_rank_le ((hchain.rank_le_kHeaders hs).trans (by decide))
    exact ⟨_, q, hq, rfl, hrun⟩
  · refine eq_of_parse (I := fun q => q.currentState.Running) fun T _ => ?_
    have hrun : States.kBodyValidation.Running := by decide
    exact ⟨_, _, parse_of_awaited hs R hann hrest, rfl, hrun⟩

/-- Nothing else ends in `kPartialMessage` with a parser that can go on. -/
theorem runsOut_of_answer {c : Call} (h : c.answer = .returned (.error .kPartialMessage))
    (hrun : c.after.currentState.Running) : RunsOut c.before.currentState c.data := by
  obtain ⟨T, _, o, hparse, hdefined, ho⟩ := c.made
  rw [h] at ho
  have hdata : c.data ≠ [] := by
    intro hdata
    rw [hdata, Parser.parse_nil] at hparse
    obtain ⟨rfl, -⟩ := Prod.mk.inj (Option.some.inj hparse)
    cases ho
  have hreturned : c.before.parse T c.data =
      some (.returned (.error .kPartialMessage), c.after) := by
    rcases o with ⟨e | d⟩ | e | -
    · rw [hparse, Except.error.inj (Outcome.returned.inj ho)]
    · cases ho
    · cases ho
    · cases ho
  by_cases hs : c.before.currentState.rank ≤ States.kHeaders.rank
  swap
  · rcases parse_cases_of_behind (T := T) hs hdata with hp | ⟨q, hp⟩ | ⟨e, q, hp, hend⟩
    · cases hp.symm.trans hreturned
    · cases hp.symm.trans hreturned
    · obtain ⟨-, rfl⟩ := Prod.mk.inj (Option.some.inj (hp.symm.trans hreturned))
      exact absurd hrun hend
  have hrefused := (parse_error_iff (T := T) hs hdata _).mp ⟨_, hreturned⟩
  rcases hrefused.awaits_cases with hcut | hawaited | ⟨r, hchain, hrefuses⟩
  · exact ⟨hdata, hs, .inl hcut⟩
  · exact ⟨hdata, hs, .inr hawaited⟩
  · obtain ⟨q, hq, hgarbage, -⟩ := parse_of_refuses (T := T) hchain hrefuses
    obtain ⟨-, rfl⟩ := Prod.mk.inj (Option.some.inj (hq.symm.trans hreturned))
    exact absurd hrun (by simp [States.Running, hgarbage])

/-- **What a call that returns an error leaves on record**: the error, unless the data ran
out. -/
theorem reports_iff {c : Call} {e : Errors}
    (h : c.before.currentState.Running → c.before.error ≠ .kPartialMessage)
    (he : c.answer = .returned (.error e)) :
    c.after.Reports e ↔ ¬ RunsOut c.before.currentState c.data := by
  rw [Parser.reports_iff]
  constructor
  · intro hrecord hout
    obtain ⟨hanswer, hrun⟩ := answer_of_runsOut hout
    obtain rfl := Except.error.inj (Outcome.returned.inj (he.symm.trans hanswer))
    exact error_ne_partial h hrun hrecord
  · intro hout
    rcases error_on_record he with hrecord | ⟨rfl, hrun⟩
    · exact hrecord
    · exact absurd (runsOut_of_answer he hrun) hout

end Call

/-! ### Histories -/

namespace History

variable {es : List Event} {p : Parser}

/-- A parser that can go on has no `kPartialMessage` on record. -/
theorem error_ne_partial (h : History es p) :
    p.currentState.Running → p.error ≠ .kPartialMessage := by
  induction h with
  | nil => exact fun _ => by decide
  | setUsed _ ih => exact ih
  | parse _ ih => exact Call.error_ne_partial ih

/-- **When every error is reported**: exactly in the histories in which no call runs out of
data. -/
theorem reported_iff (h : History es p) :
    (∀ c, .parse c ∈ es → ∀ e, c.answer = .returned (.error e) → c.after.Reports e) ↔
      ∀ c, .parse c ∈ es → ¬ RunsOut c.before.currentState c.data := by
  refine forall_congr' fun c => forall_congr' fun hc => ?_
  obtain ⟨es', hbefore⟩ := h.of_mem hc
  constructor
  · intro hreports hout
    obtain ⟨hanswer, -⟩ := Call.answer_of_runsOut hout
    exact (Call.reports_iff hbefore.error_ne_partial hanswer).mp (hreports _ hanswer) hout
  · intro hout e he
    exact (Call.reports_iff hbefore.error_ne_partial he).mpr hout

end History

/-- `History.reported_iff` on a call that fails inside the method. -/
theorem badMethod_reported : ¬ RunsOut .kReady (ascii "GE") := by
  have hparse : ({} : Parser).parse Request (ascii "GE") =
      some (.returned (.error .kBadMethod),
        { totalConsumed := 2, currentState := .kGarbage, error := .kBadMethod }) := by
    decide
  have hcall : History [.parse (.of hparse (by simp))] _ := History.single .nil
  refine (History.reported_iff hcall).mp ?_ _ (List.mem_singleton_self _)
  intro c hc e he
  obtain rfl := Event.parse.inj (List.mem_singleton.mp hc)
  obtain rfl := Except.error.inj (Outcome.returned.inj he)
  exact ⟨rfl, rfl⟩

/-- **Running out of data is not reported**: the error on record is the one the parser
began with. -/
theorem not_reports :
    ¬ ∀ (cs : List Call) (p : Parser), History (cs.map .parse) p →
      ∀ c ∈ cs, ∀ e, c.answer = .returned (.error e) → c.after.Reports e := by
  intro h
  have hcall : History ([Call.of parse_method (by simp)].map .parse) _ := History.single .nil
  obtain ⟨hcode, -⟩ := h _ _ hcall _ (List.mem_singleton_self _) .kPartialMessage rfl
  exact absurd hcode (by decide)

end Camille
