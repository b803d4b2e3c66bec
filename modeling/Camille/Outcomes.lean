import Camille.Headers
import Camille.Progress

/-!
# What a Call of the Parser Does

Every call of `Parse` on a parser at `kHeaders` or before falls under one of five heads,
and which one can be read off the data. A `Reading` of the data takes it apart into what
is left of the start line, a header block whose lines split, and the bytes behind the
block; the number of `Host`, `Content-Length` and `Transfer-Encoding` headers and the
bytes behind the block then decide.

## Main results

* `parse_of_noBody`, `parse_of_sized`: the two ways to a message.
* `verdict_message_iff`, `verdict_threw_iff`, `verdict_undefined_iff`,
  `verdict_stalls_iff`: a message, an exception, a read behind the data and a loop without
  end, each exactly for the data it is listed for.
* `verdict_error_iff`: everything else is answered with an error.
* `parse_error_iff`: which error, exactly for the data that is `Refused` with it.
* `Refused.not_accepts`, `BadLength.not_accepts`: no data falls under two of the heads.
* `getHeaderInt_of_reaches`: the `int` that counts headers does not overflow.
-/

open Lib

namespace Camille

/-- Data, taken apart as a parser in state `s` reads it: what is left of the start line,
a header block it can record, and the bytes behind. -/
structure Reading (s : States) (data : Bytes) where
  startLine : StartLine
  block : HeaderBlock
  rest : Bytes
  data_eq : data = startLine.ahead (block.bytes ++ rest) s
  fits : block.Fits rest
  splits : block.Splits

namespace Reading

variable {s : States} {data : Bytes}

/-- Exactly one header is named `Host`. -/
def OneHost (R : Reading s data) : Prop :=
  (R.block.values kHost).length = 1

/-- The message is taken to have no body: not exactly one header is named
`Content-Length`. -/
def NoBody (R : Reading s data) : Prop :=
  R.OneHost ∧ (R.block.values kContentLength).length ≠ 1

/-- One header is named `Content-Length`; `value` is its value. -/
def Announces (R : Reading s data) (value : Bytes) : Prop :=
  R.OneHost ∧ R.block.values kContentLength = [value]

/-- The message has a body of `n` bytes. -/
def Sized (R : Reading s data) (n : ℕ) : Prop :=
  ∃ value, R.Announces value ∧ (R.block.values kTransferEncoding).length ≠ 1 ∧
    validateContentLength value = some n

end Reading

/-- The data is answered with a message. -/
def Accepts (s : States) (data : Bytes) : Prop :=
  ∃ R : Reading s data, R.NoBody ∨ ∃ n, R.Sized n ∧ R.rest ≠ [] ∧ n ≤ R.rest.length

/-- The announced body is longer than the non-empty rest of the data. -/
def Stalls (s : States) (data : Bytes) : Prop :=
  ∃ (R : Reading s data) (n : ℕ), R.Sized n ∧ R.rest ≠ [] ∧ R.rest.length < n

/-- The only content length there is cannot be decoded, and bytes follow the headers. -/
def BadLength (s : States) (data : Bytes) : Prop :=
  ∃ (R : Reading s data) (value : Bytes), R.Announces value ∧
    (R.block.values kTransferEncoding).length ≠ 1 ∧ validateContentLength value = none ∧
    R.rest ≠ []

/-- A host header without a colon is met behind the start line. -/
def BadHost (s : States) (data : Bytes) : Prop :=
  ∃ (sl : StartLine) (pos : Bytes), data = sl.ahead pos s ∧ HostThrows pos

/-- `ParseHeaders` neither records a block of this data nor runs into a bad host. -/
def Malformed (pos : Bytes) : Prop :=
  pos ≠ [] ∧ ¬ HostThrows pos ∧
    ¬ ∃ (B : HeaderBlock) (rest : Bytes), pos = B.bytes ++ rest ∧ B.Fits rest ∧ B.Splits

/-- The data is answered with an error: a state before `kHeaders` does not find its token,
the data ends before the headers do or where a body should begin, or what stands behind
the start line is refused. -/
inductive Refused (s : States) (data : Bytes) : Errors → Prop
  | token {s₁ : States} {r : Bytes} :
      Leads (s, data) (s₁, r) → Refuses s₁ r → Refused s data s₁.refusal
  | cut {s₁ : States} : Leads (s, data) (s₁, []) → Refused s data .kPartialMessage
  | malformed (sl : StartLine) {pos : Bytes} :
      data = sl.ahead pos s → Malformed pos → Refused s data .kBadRequest
  | hosts (R : Reading s data) : ¬ R.OneHost → Refused s data .kBadRequest
  | awaited (R : Reading s data) {value : Bytes} :
      R.Announces value → R.rest = [] → Refused s data .kPartialMessage
  | conflict (R : Reading s data) {value : Bytes} :
      R.Announces value → R.rest ≠ [] → (R.block.values kTransferEncoding).length = 1 →
      Refused s data .kBadRequest

/-- The parser on its way through a call: at `kHeaders`. -/
def Parser.atHeaders (p : Parser) (data : Bytes) : Parser :=
  ({ p with totalConsumed := data.length } : Parser).begun.enter .kHeaders

/-! ### All there is to data -/

/-- A key that is there once has a value. -/
theorem exists_value_of_length {B : HeaderBlock} {key : Bytes}
    (h : (B.values key).length = 1) : ∃ value, B.values key = [value] :=
  List.length_eq_one_iff.mp h

/-- What a reading comes to. -/
theorem Reading.cases {s : States} {data : Bytes} (R : Reading s data) :
    (R.NoBody ∨ ∃ n, R.Sized n ∧ R.rest ≠ [] ∧ n ≤ R.rest.length) ∨
      (∃ n, R.Sized n ∧ R.rest ≠ [] ∧ R.rest.length < n) ∨
      (∃ value, R.Announces value ∧ (R.block.values kTransferEncoding).length ≠ 1 ∧
        validateContentLength value = none ∧ R.rest ≠ []) ∨
      ¬ R.OneHost ∨ (∃ value, R.Announces value ∧ R.rest = []) ∨
      ∃ value, R.Announces value ∧ R.rest ≠ [] ∧
        (R.block.values kTransferEncoding).length = 1 := by
  by_cases hhost : R.OneHost
  swap
  · exact .inr (.inr (.inr (.inl hhost)))
  by_cases hcl : (R.block.values kContentLength).length = 1
  swap
  · exact .inl (.inl ⟨hhost, hcl⟩)
  obtain ⟨value, hcl⟩ := exists_value_of_length hcl
  have hann : R.Announces value := ⟨hhost, hcl⟩
  by_cases hrest : R.rest = []
  · exact .inr (.inr (.inr (.inr (.inl ⟨value, hann, hrest⟩))))
  by_cases hte : (R.block.values kTransferEncoding).length = 1
  · exact .inr (.inr (.inr (.inr (.inr ⟨value, hann, hrest, hte⟩))))
  cases hvalue : validateContentLength value with
  | none => exact .inr (.inr (.inl ⟨value, hann, hte, hvalue, hrest⟩))
  | some n =>
      have hsized : R.Sized n := ⟨value, hann, hte, hvalue⟩
      rcases Nat.lt_or_ge R.rest.length n with hlt | hle
      · exact .inr (.inl ⟨n, hsized, hrest, hlt⟩)
      · exact .inl (.inr ⟨n, hsized, hrest, hle⟩)

/-- **All data falls under one head.** -/
theorem data_cases {s : States} (hs : s.rank ≤ States.kHeaders.rank) (data : Bytes) :
    Accepts s data ∨ Stalls s data ∨ (BadLength s data ∨ BadHost s data) ∨
      ReadsPast s data ∨ ∃ e, Refused s data e := by
  obtain ⟨s₁, pos, hchain, hend⟩ := leads_cases hs data
  rcases hend with rfl | ⟨-, rfl⟩ | ⟨rfl, rfl⟩ | hrefuses
  · by_cases hpos : pos = []
    · subst hpos
      exact .inr (.inr (.inr (.inr ⟨_, .cut hchain⟩)))
    obtain ⟨sl, hsl⟩ := (leads_kHeaders_iff hs).mp hchain
    by_cases hhost : HostThrows pos
    · exact .inr (.inr (.inl (.inr ⟨sl, pos, hsl, hhost⟩)))
    by_cases hblock :
        ∃ (B : HeaderBlock) (rest : Bytes), pos = B.bytes ++ rest ∧ B.Fits rest ∧ B.Splits
    · obtain ⟨B, rest, rfl, hfits, hsplits⟩ := hblock
      let R : Reading s data := ⟨sl, B, rest, hsl, hfits, hsplits⟩
      rcases R.cases with h | h | h | hhost | ⟨_, hann, hrest⟩ | ⟨_, hann, hrest, hte⟩
      · exact .inl ⟨R, h⟩
      · exact .inr (.inl ⟨R, h⟩)
      · exact .inr (.inr (.inl (.inl ⟨R, h⟩)))
      · exact .inr (.inr (.inr (.inr ⟨_, .hosts R hhost⟩)))
      · exact .inr (.inr (.inr (.inr ⟨_, .awaited R hann hrest⟩)))
      · exact .inr (.inr (.inr (.inr ⟨_, .conflict R hann hrest hte⟩)))
    · exact .inr (.inr (.inr (.inr ⟨_, .malformed sl hsl ⟨hpos, hhost, hblock⟩⟩)))
  · exact .inr (.inr (.inr (.inr ⟨_, .cut hchain⟩)))
  · have hle := hchain.rank_le
    obtain ⟨sl, hsl⟩ := (leads_kVersion_iff hle).mp hchain
    exact .inr (.inr (.inr (.inl ⟨hle, sl, hsl⟩)))
  · exact .inr (.inr (.inr (.inr ⟨_, .token hchain hrefuses⟩)))

/-- **What `kPartialMessage` means**: the data ends behind a token, or with the headers of
a message that has a body; or no line feed ends the start line. -/
theorem Refused.awaits_cases {s : States} {data : Bytes} (h : Refused s data .kPartialMessage) :
    (∃ s₁, Leads (s, data) (s₁, [])) ∨
      (∃ (R : Reading s data) (value : Bytes), R.Announces value ∧ R.rest = []) ∨
      ∃ r, Leads (s, data) (.kHeadersWait, r) ∧ Refuses .kHeadersWait r := by
  generalize he : Errors.kPartialMessage = e at h
  cases h with
  | @token s₁ r hchain hrefuses =>
      have hwait : s₁ = .kHeadersWait := by
        have hrank := hrefuses.1
        cases s₁ <;> first | rfl | cases he
      exact .inr (.inr ⟨r, hwait ▸ hchain, hwait ▸ hrefuses⟩)
  | cut hchain => exact .inl ⟨_, hchain⟩
  | awaited R hann hrest => exact .inr (.inl ⟨R, _, hann, hrest⟩)
  | malformed | hosts | conflict => cases he

/-! ### The counter of `GetHeader` -/

section Counter

variable {T : Type} [IsReqResType T]

open IsReqResType

/-- A token leaves no more than there was. -/
theorem Token.length_le {s s' : States} {pos pos' : Bytes} (h : Token s pos s' pos') :
    pos'.length ≤ pos.length := by
  cases h with
  | ready _ | slash _ => exact le_rfl
  | method _ _ | path _ _ | version _ =>
      simp only [List.length_append, List.length_cons]
      omega
  | space₁ _ | space₂ _ | lineFeed _ => exact Nat.le_succ _

/-- **One iteration**: every header that is recorded took at least a byte. -/
theorem step_headers_le {l l' : Loop T} (h : step l = .inl l') :
    (fields l'.dtype).headers.length + l'.pos.length ≤
      (fields l.dtype).headers.length + l.pos.length := by
  have hpos := pos_ne_nil_of_step h
  have hrun := running_of_step h
  obtain ⟨p, pos, d⟩ := l
  by_cases hrank : p.currentState.rank < States.kHeaders.rank
  · by_cases htok : ∃ s' pos', Token p.currentState pos s' pos'
    · obtain ⟨s', pos', htok⟩ := htok
      obtain ⟨d', hstep, hd'⟩ := step_of_token htok d
      obtain rfl := Sum.inl.inj (hstep.symm.trans h)
      rw [hd']
      exact Nat.add_le_add_left htok.length_le _
    · by_cases hhttp : p.currentState = .kVersion ∧ pos = ascii "HTTP"
      · have hundef := step_kVersion_undefined hhttp.1 hpos (hhttp.2 ▸ parseVersion_http d)
        exact absurd (h.symm.trans hundef) (by simp)
      · have hfail := step_of_refuses ⟨hrank, hpos, fun s' pos' ht => htok ⟨s', pos', ht⟩, hhttp⟩ d
        obtain rfl := Sum.inl.inj (hfail.symm.trans h)
        exact le_rfl
  cases hs : p.currentState with
  | kHeaders =>
      rw [step_kHeaders hs hpos, stepHeaders] at h
      split at h
      · cases h
      · cases h
      · obtain rfl := Sum.inl.inj h
        exact le_rfl
      · rename_i hread
        split at h
        · obtain rfl := Sum.inl.inj h
          exact headers_add_length_le hread
        · split at h
          · cases h
          · obtain rfl := Sum.inl.inj h
            exact headers_add_length_le hread
  | kBodyValidation =>
      rw [step_kBodyValidation hs hpos, stepBodyValidation] at h
      split at h
      · obtain rfl := Sum.inl.inj h
        exact le_rfl
      · split at h
        · cases h
        · obtain rfl := Sum.inl.inj h
          simp
      · obtain rfl := Sum.inl.inj h
        exact le_rfl
      · obtain rfl := Sum.inl.inj h
        exact le_rfl
  | kBodyIdentify =>
      rw [step_kBodyIdentify hs hpos, stepBodyIdentify] at h
      split at h
      · cases h
      · split at h
        · cases h
        · obtain rfl := Sum.inl.inj h
          exact le_rfl
  | kBodyChunked =>
      rw [step_kBodyChunked hs hpos] at h
      obtain rfl := Sum.inl.inj h
      exact le_rfl
  | kComplete => exact absurd (.inl hs) hrun
  | kGarbage => exact absurd (.inr hs) hrun
  | _ =>
      rw [hs] at hrank
      exact absurd (by decide) hrank

/-- **The counter of `GetHeader` does not overflow** in a call of `Parse` on fewer than
`2 ^ 31` bytes, on any list of headers that the call asks: that of its message wherever the
loop gets to, and that which `ParseHeaders` hands back there. -/
theorem getHeaderInt_of_reaches {p : Parser} {data : Bytes} (hdata : data.length < 2 ^ 31)
    {l : Loop T} (h : Reaches step (p.start T data) l) (key : Bytes) :
    getHeaderInt (fields l.dtype).headers key = some (getHeader l.dtype key) ∧
      ∀ pos d, parseHeaders l.pos l.dtype = .returned (some (pos, d)) →
        getHeaderInt (fields d).headers key = some (getHeader d key) := by
  have hle : (fields l.dtype).headers.length + l.pos.length ≤ data.length := by
    refine h.of_invariant
      (I := fun l => (fields l.dtype).headers.length + l.pos.length ≤ data.length)
      (fun l l' hl hstep => (step_headers_le hstep).trans hl) ?_
    simp [Parser.start]
  have hcount : ∀ d : T, (fields d).headers.length ≤ intMax →
      getHeaderInt (fields d).headers key = some (getHeader d key) := by
    intro d hd
    rw [getHeader_eq, getHeaderInt_eq ((length_valuesOf_le _ key).trans hd)]
  refine ⟨hcount _ (by unfold intMax; omega), ?_⟩
  intro pos d hread
  have := headers_add_length_le hread
  exact hcount d (by unfold intMax; omega)

end Counter

/-! ### The run behind the start line -/

section Run

variable {T : Type} [IsReqResType T] {p : Parser} {d : T}

open IsReqResType

/-- The header lists a message shows, once a block is recorded in a fresh one. -/
theorem getHeader_recordLines (hd : (fields d).headers = []) (B : HeaderBlock)
    (key : Bytes) : getHeader (recordLines B.lines d) key = getHeaderIn B.fields key := by
  rw [getHeader_eq, fields_recordLines]
  simp [hd, HeaderBlock.fields]

/-- `GetHeader` has no answer for it. -/
theorem getHeaderIn_fields_eq_none {B : HeaderBlock} {key : Bytes}
    (h : (B.values key).length ≠ 1) : getHeaderIn B.fields key = none :=
  getHeaderIn_eq_none_iff.mpr h

/-- `GetHeader` answers with it. -/
theorem getHeaderIn_fields_eq_some {B : HeaderBlock} {key value : Bytes}
    (h : B.values key = [value]) : getHeaderIn B.fields key = some value :=
  getHeaderIn_eq_some_iff.mpr h

section Block

variable {B : HeaderBlock} {rest : Bytes} (hB : B.Splits) (hrest : B.Fits rest)
  (hs : p.currentState = .kHeaders) (hd : (fields d).headers = [])
include hB hrest hs hd

/-- Without exactly one `Host` header the message is refused. -/
theorem exits_block_of_not_oneHost (hhost : (B.values kHost).length ≠ 1) :
    Exits step ⟨p, B.bytes ++ rest, d⟩
      (.returned (.error .kBadRequest), p.fail .kBadRequest) := by
  have hstep : step ⟨p, B.bytes ++ rest, d⟩ =
      .inl ⟨p.fail .kBadRequest, rest, recordLines B.lines d⟩ := by
    rw [step_kHeaders hs (B.bytes_append_ne_nil rest), stepHeaders, parseHeaders_block hB hrest]
    simp only [getHeader_recordLines hd, getHeaderIn_fields_eq_none hhost]
  exact (exits_iff_of_inl hstep).mpr (exits_fail p _ _ _)

/-- Without exactly one `Content-Length` header the message is complete. -/
theorem exits_block_of_noBody (hhost : (B.values kHost).length = 1)
    (hcl : (B.values kContentLength).length ≠ 1) :
    Exits step ⟨p, B.bytes ++ rest, d⟩
      (.returned (.ok (setSize (recordLines B.lines d) p.totalConsumed)),
        (p.enter .kComplete).setUsed) := by
  obtain ⟨host, hhost⟩ := exists_value_of_length hhost
  have hstep : step ⟨p, B.bytes ++ rest, d⟩ =
      .inr (.returned (.ok (setSize (recordLines B.lines d) p.totalConsumed)),
        (p.enter .kComplete).setUsed) := by
    rw [step_kHeaders hs (B.bytes_append_ne_nil rest), stepHeaders, parseHeaders_block hB hrest]
    simp only [getHeader_recordLines hd, getHeaderIn_fields_eq_some hhost,
      getHeaderIn_fields_eq_none hcl]
  exact (exits_iff_of_inr hstep).mpr rfl

/-- With one `Content-Length` header the parser goes on to the body. -/
theorem exits_block_iff (hhost : (B.values kHost).length = 1) {value : Bytes}
    (hcl : B.values kContentLength = [value]) (o : ParseResult T) :
    Exits step ⟨p, B.bytes ++ rest, d⟩ o ↔
      Exits step ⟨p.enter .kBodyValidation, rest, recordLines B.lines d⟩ o := by
  obtain ⟨host, hhost⟩ := exists_value_of_length hhost
  refine exits_iff_of_inl ?_
  rw [step_kHeaders hs (B.bytes_append_ne_nil rest), stepHeaders, parseHeaders_block hB hrest]
  simp only [getHeader_recordLines hd, getHeaderIn_fields_eq_some hhost,
    getHeaderIn_fields_eq_some hcl]

end Block

section Body

variable {B : HeaderBlock} {rest value : Bytes} (hs : p.currentState = .kBodyValidation)
  (hd : (fields d).headers = []) (hcl : B.values kContentLength = [value])
  (hrest : rest ≠ [])
include hs hd hcl hrest

/-- With one header of either kind the message is refused. -/
theorem exits_body_of_conflict (hte : (B.values kTransferEncoding).length = 1) :
    Exits step ⟨p, rest, recordLines B.lines d⟩
      (.returned (.error .kBadRequest), p.fail .kBadRequest) := by
  obtain ⟨te, hte⟩ := exists_value_of_length hte
  have hstep : step ⟨p, rest, recordLines B.lines d⟩ =
      .inl ⟨p.fail .kBadRequest, rest, recordLines B.lines d⟩ := by
    rw [step_kBodyValidation hs hrest, stepBodyValidation]
    simp only [getHeader_recordLines hd, getHeaderIn_fields_eq_some hcl,
      getHeaderIn_fields_eq_some hte]
  exact (exits_iff_of_inl hstep).mpr (exits_fail p _ _ _)

/-- **An invalid content length throws**, although the error is on record by then. -/
theorem exits_body_of_invalid (hte : (B.values kTransferEncoding).length ≠ 1)
    (hvalue : validateContentLength value = none) :
    Exits step ⟨p, rest, recordLines B.lines d⟩
      (.threw .badExpectedAccess, p.fail .kBadContentLength) := by
  refine (exits_iff_of_inr ?_).mpr rfl
  rw [step_kBodyValidation hs hrest, stepBodyValidation]
  simp only [getHeader_recordLines hd, getHeaderIn_fields_eq_some hcl,
    getHeaderIn_fields_eq_none hte, hvalue]

/-- A valid content length takes the parser to the body. -/
theorem exits_body_iff (hte : (B.values kTransferEncoding).length ≠ 1) {n : ℕ}
    (hvalue : validateContentLength value = some n) (o : ParseResult T) :
    Exits step ⟨p, rest, recordLines B.lines d⟩ o ↔
      Exits step
        ⟨p.enter .kBodyIdentify, rest, setContentLength (recordLines B.lines d) n⟩ o := by
  refine exits_iff_of_inl ?_
  rw [step_kBodyValidation hs hrest, stepBodyValidation]
  simp only [getHeader_recordLines hd, getHeaderIn_fields_eq_some hcl,
    getHeaderIn_fields_eq_none hte, hvalue]

end Body

section Identify

variable {rest : Bytes} {n : ℕ} (hs : p.currentState = .kBodyIdentify)
  (hn : (fields d).contentLength = some n) (hrest : rest ≠ [])
include hs hn hrest

/-- With the announced bytes at hand the message is complete. -/
theorem exits_identify_of_le (hle : n ≤ rest.length) :
    Exits step ⟨p, rest, d⟩
      (.returned (.ok (setSize (setBody d (rest.take n)) p.totalConsumed)),
        (p.enter .kComplete).setUsed) := by
  refine (exits_iff_of_inr ?_).mpr rfl
  rw [step_kBodyIdentify hs hrest, stepBodyIdentify, contentLength_eq, hn]
  simp only [parseBodyIdentify, if_neg (not_lt.mpr hle)]

/-- **A body that is not all there stalls the loop.** -/
theorem not_halts_identify_of_lt (hlt : rest.length < n) :
    ¬ Halts step (⟨p, rest, d⟩ : Loop T) := by
  refine not_halts_of_fixed ?_
  rw [step_kBodyIdentify hs hrest, stepBodyIdentify, contentLength_eq, hn]
  simp only [parseBodyIdentify, if_pos hlt]

end Identify

end Run

/-! ### Verdicts -/

section Verdicts

variable {T : Type}

/-- What a call does, as far as the data decides it. -/
inductive Verdict
  | message | error | threw | undefined | stalls
  deriving DecidableEq, Repr

/-- The verdict on a call's result. -/
def verdict : Option (ParseResult T) → Verdict
  | some (.returned (.ok _), _) => .message
  | some (.returned (.error _), _) => .error
  | some (.threw _, _) => .threw
  | some (.undefined, _) => .undefined
  | none => .stalls

/-- A message was returned. -/
theorem verdict_eq_message_iff {o : Option (ParseResult T)} :
    verdict o = .message ↔ ∃ d q, o = some (.returned (.ok d), q) := by
  rcases o with - | ⟨⟨e | d⟩ | e | -, q⟩ <;> simp [verdict]

/-- An error was returned. -/
theorem verdict_eq_error_iff {o : Option (ParseResult T)} :
    verdict o = .error ↔ ∃ e q, o = some (.returned (.error e), q) := by
  rcases o with - | ⟨⟨e | d⟩ | e | -, q⟩ <;> simp [verdict]

/-- The run has no meaning. -/
theorem verdict_eq_undefined_iff {o : Option (ParseResult T)} :
    verdict o = .undefined ↔ ∃ q, o = some (.undefined, q) := by
  rcases o with - | ⟨⟨e | d⟩ | e | -, q⟩ <;> simp [verdict]

/-- The call never ends. -/
theorem verdict_eq_stalls_iff {o : Option (ParseResult T)} :
    verdict o = .stalls ↔ o = none := by
  rcases o with - | ⟨⟨e | d⟩ | e | -, q⟩ <;> simp [verdict]

end Verdicts

/-! ### Calls -/

section Calls

variable {T : Type} [IsReqResType T] {p : Parser} {data : Bytes}

open IsReqResType

/-- The message a reading records up to the end of its header block. -/
def Reading.message {s : States} (R : Reading s data) : T :=
  recordLines R.block.lines (R.startLine.record fresh s)

/-- **The call behind the start line.** -/
theorem parse_eq_some_iff_of_ahead (hs : p.currentState.rank ≤ States.kHeaders.rank)
    {sl : StartLine} {pos : Bytes} (hpos : pos ≠ [])
    (hdata : data = sl.ahead pos p.currentState) (o : ParseResult T) :
    p.parse T data = some o ↔
      Exits step ⟨p.atHeaders data, pos, sl.record fresh p.currentState⟩ o := by
  have hne : data ≠ [] := hdata ▸ sl.ahead_ne_nil hpos p.currentState
  have hstart : p.start T data =
      ⟨{ p with totalConsumed := data.length }, sl.ahead pos p.currentState, fresh⟩ := by
    rw [Parser.start, ← hdata]
  rw [Parser.parse_eq_some_iff hne, hstart]
  exact (reaches_startLine (p := { p with totalConsumed := data.length }) hs _ _).exits_iff o

/-- A call on a start line that is all there is the run from the headers. -/
theorem parse_eq_some_iff_of_reading (hs : p.currentState.rank ≤ States.kHeaders.rank)
    (R : Reading p.currentState data) (o : ParseResult T) :
    p.parse T data = some o ↔
      Exits step ⟨p.atHeaders data, R.block.bytes ++ R.rest,
        R.startLine.record fresh p.currentState⟩ o :=
  parse_eq_some_iff_of_ahead hs (R.block.bytes_append_ne_nil R.rest) R.data_eq o

/-- The size of the data is on record. -/
theorem Parser.atHeaders_totalConsumed (p : Parser) (data : Bytes) :
    (p.atHeaders data).totalConsumed = data.length := by
  simp only [Parser.atHeaders, Parser.begun, Parser.enter_totalConsumed]
  split <;> rfl

section Reading

variable (hs : p.currentState.rank ≤ States.kHeaders.rank) (R : Reading p.currentState data)
include hs

/-- Without exactly one `Host` header the data is refused. -/
theorem parse_of_not_oneHost (h : ¬ R.OneHost) :
    p.parse T data =
      some (.returned (.error .kBadRequest), (p.atHeaders data).fail .kBadRequest) :=
  (parse_eq_some_iff_of_reading hs R _).mpr
    (exits_block_of_not_oneHost R.splits R.fits rfl (by simp) h)

/-- **A message without a body.** -/
theorem parse_of_noBody (h : R.NoBody) :
    p.parse T data =
      some (.returned (.ok (setSize R.message data.length)),
        ((p.atHeaders data).enter .kComplete).setUsed) := by
  have := exits_block_of_noBody (T := T) (p := p.atHeaders data)
    (d := R.startLine.record fresh p.currentState) R.splits R.fits rfl (by simp) h.1 h.2
  rw [Parser.atHeaders_totalConsumed] at this
  exact (parse_eq_some_iff_of_reading hs R _).mpr this

/-- With a content length announced, the call is the run behind the header block. -/
theorem parse_eq_some_iff_of_announces {value : Bytes} (h : R.Announces value)
    (o : ParseResult T) :
    p.parse T data = some o ↔
      Exits step ⟨(p.atHeaders data).enter .kBodyValidation, R.rest, R.message⟩ o :=
  (parse_eq_some_iff_of_reading hs R o).trans
    (exits_block_iff R.splits R.fits rfl (by simp) h.1 h.2 o)

/-- **A message that announces a body is partial** when the data ends with its headers. -/
theorem parse_of_awaited {value : Bytes} (h : R.Announces value) (hrest : R.rest = []) :
    p.parse T data =
      some (.returned (.error .kPartialMessage),
        (p.atHeaders data).enter .kBodyValidation) := by
  rw [parse_eq_some_iff_of_announces hs R h, hrest]
  exact exits_nil (s := .kBodyValidation) rfl (by decide)

/-- One `Content-Length` and one `Transfer-Encoding` header are refused together. -/
theorem parse_of_conflict {value : Bytes} (h : R.Announces value) (hrest : R.rest ≠ [])
    (hte : (R.block.values kTransferEncoding).length = 1) :
    ∃ q, p.parse T data = some (.returned (.error .kBadRequest), q) :=
  ⟨_, (parse_eq_some_iff_of_announces hs R h _).mpr
    (exits_body_of_conflict rfl (by simp) h.2 hrest hte)⟩

/-- **An invalid content length throws.** -/
theorem parse_of_invalid {value : Bytes} (h : R.Announces value) (hrest : R.rest ≠ [])
    (hte : (R.block.values kTransferEncoding).length ≠ 1)
    (hvalue : validateContentLength value = none) :
    p.parse T data =
      some (.threw .badExpectedAccess, (p.atHeaders data).fail .kBadContentLength) :=
  (parse_eq_some_iff_of_announces hs R h _).mpr
    (exits_body_of_invalid rfl (by simp) h.2 hrest hte hvalue)

/-- With a valid length announced, the call is the run at the body. -/
theorem parse_eq_some_iff_of_sized {n : ℕ} (h : R.Sized n) (hrest : R.rest ≠ [])
    (o : ParseResult T) :
    p.parse T data = some o ↔
      Exits step ⟨(p.atHeaders data).enter .kBodyIdentify, R.rest,
        setContentLength R.message n⟩ o := by
  obtain ⟨value, hann, hte, hvalue⟩ := h
  exact (parse_eq_some_iff_of_announces hs R hann o).trans
    (exits_body_iff rfl (by simp) hann.2 hrest hte hvalue o)

/-- **A message with its body.** -/
theorem parse_of_sized {n : ℕ} (h : R.Sized n) (hrest : R.rest ≠ [])
    (hle : n ≤ R.rest.length) :
    p.parse T data =
      some (.returned (.ok (setSize (setBody (setContentLength R.message n)
          (R.rest.take n)) data.length)),
        ((p.atHeaders data).enter .kComplete).setUsed) := by
  have := exits_identify_of_le (T := T) (p := (p.atHeaders data).enter .kBodyIdentify)
    (d := setContentLength R.message n) rfl (by simp) hrest hle
  rw [Parser.enter_totalConsumed, Parser.atHeaders_totalConsumed] at this
  exact (parse_eq_some_iff_of_sized hs R h hrest _).mpr this

/-- **A body that is not all there**: the call does not end. -/
theorem parse_of_short {n : ℕ} (h : R.Sized n) (hrest : R.rest ≠ [])
    (hlt : R.rest.length < n) : p.parse T data = none := by
  cases hp : p.parse T data with
  | none => rfl
  | some o =>
      have := (parse_eq_some_iff_of_sized hs R h hrest o).mp hp
      exact absurd ⟨o, this⟩ (not_halts_identify_of_lt rfl (by simp) hrest hlt)

end Reading

/-! ### The classification -/

section Classification

variable (hs : p.currentState.rank ≤ States.kHeaders.rank)
include hs

/-- A host header without a colon throws. -/
theorem parse_of_badHost (h : BadHost p.currentState data) :
    ∃ q, p.parse T data = some (.threw .lengthError, q) := by
  obtain ⟨sl, pos, hdata, hthrows⟩ := h
  have hpos : pos ≠ [] := hthrows.ne_nil
  refine ⟨p.atHeaders data, (parse_eq_some_iff_of_ahead hs hpos hdata _).mpr ?_⟩
  refine (exits_iff_of_inr ?_).mpr rfl
  rw [step_kHeaders rfl hpos, stepHeaders, parseHeaders_hostThrows hthrows]

/-- A header block that `ParseHeaders` refuses is answered with an error. -/
theorem parse_of_malformed {sl : StartLine} {pos : Bytes}
    (hdata : data = sl.ahead pos p.currentState) (h : Malformed pos) :
    p.parse T data =
      some (.returned (.error .kBadRequest), (p.atHeaders data).fail .kBadRequest) := by
  obtain ⟨hpos, hhost, hblock⟩ := h
  have hrefused := ((headers_cases (T := T) pos hpos).resolve_left hblock).resolve_left hhost
  have hstep : step ⟨p.atHeaders data, pos, sl.record (fresh : T) p.currentState⟩ =
      .inl ⟨(p.atHeaders data).fail .kBadRequest, pos, sl.record fresh p.currentState⟩ := by
    rw [step_kHeaders rfl hpos, stepHeaders, hrefused]
  exact (parse_eq_some_iff_of_ahead hs hpos hdata _).mpr
    ((exits_iff_of_inl hstep).mpr (exits_fail _ _ _ _))

omit hs in
/-- Data that breaks off behind `HTTP` is read beyond its end. -/
theorem parse_of_readsPast (h : ReadsPast p.currentState data) :
    ∃ q, p.parse T data = some (.undefined, q) := by
  have hne : data ≠ [] := by
    obtain ⟨hs, sl, rfl⟩ := h
    exact ((leads_kVersion_iff hs).mpr ⟨sl, rfl⟩).ne_nil (by decide)
  exact ⟨_, (Parser.parse_eq_some_iff hne).mpr
    (exits_of_readsPast (p := { p with totalConsumed := data.length }) h)⟩

omit hs in
/-- **A missing token** is answered with the error of the state that misses it. -/
theorem parse_of_refuses {s₁ : States} {r : Bytes} (h : Leads (p.currentState, data) (s₁, r))
    (hr : Refuses s₁ r) :
    ∃ q, p.parse T data = some (.returned (.error s₁.refusal), q) ∧
      q.currentState = .kGarbage ∧ q.error = s₁.refusal := by
  obtain ⟨q, hexits, hq⟩ :=
    exits_of_refuses (p := { p with totalConsumed := data.length }) (d := (fresh : T)) h hr
  exact ⟨q, (Parser.parse_eq_some_iff (h.ne_nil hr.2.1)).mpr hexits, hq⟩

/-- **Data that ends before the headers** is partial, and the parser stays where it is. -/
theorem parse_of_leads_nil {s₁ : States} (hdata : data ≠ [])
    (h : Leads (p.currentState, data) (s₁, [])) :
    ∃ q, p.parse T data = some (.returned (.error .kPartialMessage), q) ∧
      q.currentState = s₁ := by
  have hrun : s₁.Running :=
    States.running_of_rank_le ((h.rank_le_kHeaders hs).trans (by decide))
  obtain ⟨q, hexits, hq⟩ := exits_of_leads_nil
    (p := { p with totalConsumed := data.length }) (d := (fresh : T)) h hrun
  exact ⟨q, (Parser.parse_eq_some_iff hdata).mpr hexits, hq⟩

/-- **Refused data is answered with its error.** -/
theorem Refused.parse {e : Errors} (h : Refused p.currentState data e) (hdata : data ≠ []) :
    ∃ q, p.parse T data = some (.returned (.error e), q) := by
  cases h with
  | token hchain hrefuses =>
      obtain ⟨q, hq, -⟩ := parse_of_refuses (T := T) hchain hrefuses
      exact ⟨q, hq⟩
  | cut hchain =>
      obtain ⟨q, hq, -⟩ := parse_of_leads_nil (T := T) hs hdata hchain
      exact ⟨q, hq⟩
  | malformed sl hsl hpos => exact ⟨_, parse_of_malformed hs hsl hpos⟩
  | hosts R hhost => exact ⟨_, parse_of_not_oneHost hs R hhost⟩
  | awaited R hann hrest => exact ⟨_, parse_of_awaited hs R hann hrest⟩
  | conflict R hann hrest hte => exact parse_of_conflict hs R hann hrest hte

/-- Data the parser accepts is answered with a message. -/
theorem Accepts.verdict_eq (h : Accepts p.currentState data) :
    verdict (p.parse T data) = .message := by
  obtain ⟨R, hno | ⟨n, hsized, hrest, hle⟩⟩ := h
  · rw [parse_of_noBody hs R hno]
    rfl
  · rw [parse_of_sized hs R hsized hrest hle]
    rfl

/-- What stalls is never answered. -/
theorem Stalls.parse (h : Stalls p.currentState data) : p.parse T data = none := by
  obtain ⟨R, n, hsized, hrest, hlt⟩ := h
  exact parse_of_short hs R hsized hrest hlt

/-- A length that is invalid makes the call throw. -/
theorem BadLength.parse (h : BadLength p.currentState data) :
    ∃ q, p.parse T data = some (.threw .badExpectedAccess, q) := by
  obtain ⟨R, value, hann, hte, hvalue, hrest⟩ := h
  exact ⟨_, parse_of_invalid hs R hann hrest hte hvalue⟩

/-- **Every call falls under one head.** -/
theorem parse_cases (data : Bytes) :
    (Accepts p.currentState data ∧ verdict (p.parse T data) = .message) ∨
      (Stalls p.currentState data ∧ verdict (p.parse T data) = .stalls) ∨
      ((BadLength p.currentState data ∨ BadHost p.currentState data) ∧
        verdict (p.parse T data) = .threw) ∨
      (ReadsPast p.currentState data ∧ verdict (p.parse T data) = .undefined) ∨
      verdict (p.parse T data) = .error := by
  by_cases hdata : data = []
  · exact .inr (.inr (.inr (.inr (by rw [hdata, Parser.parse_nil]; rfl))))
  rcases data_cases hs data with haccepts | hstalls | (hbad | hbad) | hpast | ⟨e, hrefused⟩
  · exact .inl ⟨haccepts, haccepts.verdict_eq hs⟩
  · exact .inr (.inl ⟨hstalls, by rw [hstalls.parse hs]; rfl⟩)
  · obtain ⟨q, hq⟩ := hbad.parse (T := T) hs
    exact .inr (.inr (.inl ⟨.inl hbad, by rw [hq]; rfl⟩))
  · obtain ⟨q, hq⟩ := parse_of_badHost (T := T) hs hbad
    exact .inr (.inr (.inl ⟨.inr hbad, by rw [hq]; rfl⟩))
  · obtain ⟨q, hq⟩ := parse_of_readsPast (T := T) hpast
    exact .inr (.inr (.inr (.inl ⟨hpast, by rw [hq]; rfl⟩)))
  · obtain ⟨q, hq⟩ := hrefused.parse (T := T) hs hdata
    exact .inr (.inr (.inr (.inr (by rw [hq]; rfl))))

/-- **A message is returned** exactly for the data the parser accepts. -/
theorem verdict_message_iff (data : Bytes) :
    verdict (p.parse T data) = .message ↔ Accepts p.currentState data := by
  refine ⟨fun h => ?_, fun h => h.verdict_eq hs⟩
  rcases parse_cases (T := T) hs data with h' | h' | h' | h' | h' <;> simp_all

/-- **The loop never ends** exactly for the data that stalls it. -/
theorem verdict_stalls_iff (data : Bytes) :
    verdict (p.parse T data) = .stalls ↔ Stalls p.currentState data := by
  refine ⟨fun h => ?_, fun h => by rw [h.parse hs]; rfl⟩
  rcases parse_cases (T := T) hs data with h' | h' | h' | h' | h' <;> simp_all

/-- **An exception escapes** exactly for a bad content length and a bad host. -/
theorem verdict_threw_iff (data : Bytes) :
    verdict (p.parse T data) = .threw ↔
      BadLength p.currentState data ∨ BadHost p.currentState data := by
  constructor
  · intro h
    rcases parse_cases (T := T) hs data with h' | h' | h' | h' | h' <;> simp_all
  · rintro (hbad | hbad)
    · obtain ⟨q, hq⟩ := hbad.parse (T := T) hs
      rw [hq]
      rfl
    · obtain ⟨q, hq⟩ := parse_of_badHost (T := T) hs hbad
      rw [hq]
      rfl

/-- **The parser reads behind its data** exactly on a line that breaks off behind
`HTTP`. -/
theorem verdict_undefined_iff (data : Bytes) :
    verdict (p.parse T data) = .undefined ↔ ReadsPast p.currentState data := by
  constructor
  · intro h
    rcases parse_cases (T := T) hs data with h' | h' | h' | h' | h' <;> simp_all
  · intro hpast
    obtain ⟨q, hq⟩ := parse_of_readsPast (T := T) hpast
    rw [hq]
    rfl

/-- **Which error is returned** can be read off the data. -/
theorem parse_error_iff (hdata : data ≠ []) (e : Errors) :
    (∃ q, p.parse T data = some (.returned (.error e), q)) ↔
      Refused p.currentState data e := by
  refine ⟨?_, fun h => h.parse hs hdata⟩
  rintro ⟨q, hq⟩
  rcases data_cases hs data with haccepts | hstalls | (hbad | hbad) | hpast | ⟨e', hrefused⟩
  · have hverdict := haccepts.verdict_eq (T := T) hs
    rw [hq] at hverdict
    cases hverdict
  · cases hq.symm.trans (hstalls.parse (T := T) hs)
  · obtain ⟨q', hq'⟩ := hbad.parse (T := T) hs
    cases hq.symm.trans hq'
  · obtain ⟨q', hq'⟩ := parse_of_badHost (T := T) hs hbad
    cases hq.symm.trans hq'
  · obtain ⟨q', hq'⟩ := parse_of_readsPast (T := T) hpast
    cases hq.symm.trans hq'
  · obtain ⟨q', hq'⟩ := hrefused.parse (T := T) hs hdata
    cases hq.symm.trans hq'
    exact hrefused

/-- **All other data is answered with an error.** -/
theorem verdict_error_iff (data : Bytes) :
    verdict (p.parse T data) = .error ↔
      ¬ (Accepts p.currentState data ∨ Stalls p.currentState data ∨
        BadLength p.currentState data ∨ BadHost p.currentState data ∨
        ReadsPast p.currentState data) := by
  rw [← verdict_message_iff (T := T) hs, ← verdict_stalls_iff (T := T) hs,
    ← verdict_undefined_iff (T := T) hs]
  have hthrew := verdict_threw_iff (T := T) hs data
  cases hv : verdict (p.parse T data) <;> simp_all

end Classification

end Calls

/-! ### The heads exclude each other -/

section Exclusive

variable {s : States} {data : Bytes} (hs : s.rank ≤ States.kHeaders.rank)
include hs

/-- What is refused is not accepted. -/
theorem Refused.not_accepts {e : Errors} (h : Refused s data e) : ¬ Accepts s data := by
  let p : Parser := ({} : Parser).enter s
  intro haccepts
  have hmessage := haccepts.verdict_eq (T := Request) (p := p) hs
  by_cases hdata : data = []
  · rw [hdata, Parser.parse_nil] at hmessage
    cases hmessage
  · obtain ⟨q, hq⟩ := Refused.parse (T := Request) (p := p) hs h hdata
    rw [hq] at hmessage
    cases hmessage

/-- Nor is what has a bad length. -/
theorem BadLength.not_accepts (h : BadLength s data) : ¬ Accepts s data := by
  let p : Parser := ({} : Parser).enter s
  intro haccepts
  have hmessage := haccepts.verdict_eq (T := Request) (p := p) hs
  obtain ⟨q, hq⟩ := BadLength.parse (T := Request) (p := p) hs h
  rw [hq] at hmessage
  cases hmessage

end Exclusive

end Camille
