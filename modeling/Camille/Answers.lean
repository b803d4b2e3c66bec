import Camille.Returned
import Camille.Session

/-!
# What `Parse` Answers

A parser sees the message it fills in through its setters and getters only, so that a call
of `Parse` is the same for every message class: it commutes with looking at the fields. The
fields are a message class themselves, and what a call answers is a value of its own, with
nothing of the class in it. `Answers` lists the answers by the grammar of the data and the
length that `ValidateContentLength` decodes, without the loop and the token functions, and a
parser on its way to the headers gives exactly these.

## Main results

* `step_shown`: one iteration of the loop, seen through the fields.
* `Parser.parse_shown`: a whole call, for every parser in every state.
* `Parser.answer_eq_iff`: the specification of `Parse`.
-/

open Lib

namespace Camille

open IsReqResType

/-- The message class that is nothing but its fields. -/
instance : IsReqResType Fields where
  fresh := {}
  setHost f host := { f with host := host }
  setPort f port := { f with port := port }
  setPath f path := { f with path := path }
  setBody f body := { f with body := body }
  setMethod f method := { f with method := method }
  setVersion f version := { f with version := version }
  setContentLength f contentLength := { f with contentLength := some contentLength }
  addHeader f key value := { f with headers := f.headers ++ [(key, value)] }
  getHeader f key := getHeaderIn f.headers key
  setSize f size := { f with size := size }
  contentLength := Fields.contentLength
  fields f := f
  fields_fresh := rfl
  fields_setHost _ _ := rfl
  fields_setPort _ _ := rfl
  fields_setPath _ _ := rfl
  fields_setBody _ _ := rfl
  fields_setMethod _ _ := rfl
  fields_setVersion _ _ := rfl
  fields_setContentLength _ _ := rfl
  fields_addHeader _ _ _ := rfl
  fields_setSize _ _ := rfl
  getHeader_eq _ _ := rfl
  contentLength_eq _ := rfl

namespace Outcome

variable {α β γ : Type}

/-- The outcome, with another value. -/
def map (f : α → β) : Outcome α → Outcome β
  | returned a => returned (f a)
  | threw e => threw e
  | undefined => undefined

/-- A value is changed. -/
@[simp] theorem map_returned (f : α → β) (a : α) : (returned a).map f = returned (f a) := rfl

/-- An exception stays as it is. -/
@[simp] theorem map_threw (f : α → β) (e : Exception) :
    (threw e : Outcome α).map f = threw e := rfl

/-- So does a run without a meaning. -/
@[simp] theorem map_undefined (f : α → β) : (undefined : Outcome α).map f = undefined := rfl

end Outcome

/-! ### Seen through the fields -/

section Shown

variable {T : Type} [IsReqResType T]

/-- The loop, with the fields of its message. -/
def Loop.shown (l : Loop T) : Loop Fields :=
  ⟨l.parser, l.pos, fields l.dtype⟩

/-- What a call ends in, with the fields of its message. -/
def shownResult (o : ParseResult T) : ParseResult Fields :=
  (o.1.map (Except.map fields), o.2)

/-! Setting a part of a message sets the field. -/

/-- The method. -/
theorem setMethod_fields (d : T) (v : Bytes) :
    setMethod (fields d) v = fields (setMethod d v) := (fields_setMethod d v).symm

/-- The path. -/
theorem setPath_fields (d : T) (v : Bytes) :
    setPath (fields d) v = fields (setPath d v) := (fields_setPath d v).symm

/-- The version. -/
theorem setVersion_fields (d : T) (v : Bytes) :
    setVersion (fields d) v = fields (setVersion d v) := (fields_setVersion d v).symm

/-- The host and the port, which `ParseHost` sets together. -/
theorem setHostPort_fields (d : T) (host port : Bytes) :
    setPort (setHost (fields d) host) port = fields (setPort (setHost d host) port) := by
  rw [fields_setPort, fields_setHost]
  rfl

/-- A header that is added. -/
theorem addHeader_fields (d : T) (k v : Bytes) :
    addHeader (fields d) k v = fields (addHeader d k v) := (fields_addHeader d k v).symm

/-- The body. -/
theorem setBody_fields (d : T) (v : Bytes) :
    setBody (fields d) v = fields (setBody d v) := (fields_setBody d v).symm

/-- The size. -/
theorem setSize_fields (d : T) (n : ℕ) :
    setSize (fields d) n = fields (setSize d n) := (fields_setSize d n).symm

/-- The decoded length. -/
theorem setContentLength_fields (d : T) (n : ℕ) :
    setContentLength (fields d) n = fields (setContentLength d n) :=
  (fields_setContentLength d n).symm

/-- A header is looked up in the fields with the same answer. -/
theorem getHeader_fields (d : T) (key : Bytes) : getHeader (fields d) key = getHeader d key :=
  (getHeader_eq d key).symm

/-! The token functions. -/

/-- `ParseMethod` sets the method at most. -/
theorem parseMethod_fields (pos : Bytes) (d : T) :
    parseMethod pos (fields d) = (parseMethod pos d).map (Prod.map id fields) := by
  rw [parseMethod, parseMethod]
  cases advance (fun b => isSpace b || isLower b) isControl pos with
  | none => rfl
  | some pos' =>
      by_cases h : methodEnum (between pos pos') = .kUnknown <;> simp [h, setMethod_fields]

/-- `ParseUri` sets the path at most. -/
theorem parseUri_fields (pos : Bytes) (d : T) :
    parseUri pos (fields d) = (parseUri pos d).map (Option.map (Prod.map id fields)) := by
  cases pos with
  | nil => rfl
  | cons b pos =>
      by_cases hb : isSlash b = true
      · cases h : parseUriLoop pos <;> simp [parseUri, hb, h, setPath_fields]
      · simp [parseUri, hb]

/-- `ParseHost` sets the host and the port, or fails alike. -/
theorem parseHost_fields (value : Bytes) (d : T) :
    parseHost value (fields d) = (parseHost value d).map fields := by
  rw [parseHost, parseHost]
  cases value.dropWhile fun b => b != ':'.toUInt8 with
  | nil => rfl
  | cons c port => exact congrArg Outcome.returned (setHostPort_fields d _ port)

/-- `ParseVersion` sets the version at most. -/
theorem parseVersion_fields (pos : Bytes) (d : T) :
    parseVersion pos (fields d) = (parseVersion pos d).map (Option.map (Prod.map id fields)) := by
  unfold parseVersion
  cases advance isSlash (fun b => isControl b || (!isChar b || !isUpper b)) pos with
  | none => rfl
  | some pos₁ =>
      by_cases hhttp : between pos pos₁ = ascii "HTTP"
      swap
      · simp [hhttp]
      simp only [hhttp, ne_eq, not_true_eq_false, if_false]
      cases pos₁ with
      | nil => rfl
      | cons b begin =>
          by_cases hb : isSlash b = true
          swap
          · simp [hb]
          simp only [hb, Bool.not_true, Bool.false_eq_true, if_false]
          cases advance isCR (fun b => isControl b || (!isDigit b && b != '.'.toUInt8)) begin with
          | none => rfl
          | some pos₂ =>
              cases pos₂ with
              | nil => rfl
              | cons c pos₂ => by_cases hc : isCR c = true <;> simp [hc, setVersion_fields]

/-- `ParseHeader` adds a header, and hands a host on. -/
theorem parseHeader_fields (pos : Bytes) (d : T) :
    parseHeader pos (fields d) =
      (parseHeader pos d).map (Option.map fun r => (r.1, r.2.1, fields r.2.2)) := by
  unfold parseHeader
  cases advance (fun b => b == ':'.toUInt8) (fun b => !headerKeyTraits b) pos with
  | none => rfl
  | some pos₁ =>
      by_cases hend : pos₁ = pos ∨ pos₁ = []
      · simp only [if_pos hend, Outcome.map_returned, Option.map_none]
      simp only [if_neg hend]
      cases pos₁.tail with
      | nil => rfl
      | cons ws begin =>
          by_cases hws : isSpace ws = true
          swap
          · simp [hws]
          simp only [hws, Bool.not_true, Bool.false_eq_true, if_false]
          cases advance isCR (fun b => !headerValueTraits b) begin with
          | none => rfl
          | some pos₂ =>
              by_cases hkey : isHostKey (between pos pos₁) = true
              · simp only [if_pos hkey, addHeader_fields, parseHost_fields]
                generalize (between begin pos₂).rdropWhile isSpace = value
                cases parseHost value (addHeader d (between pos pos₁) value) <;> rfl
              · simp only [if_neg hkey, addHeader_fields]
                rfl

/-- The loop over the lines, by induction on its rounds. -/
theorem parseHeadersLoop_fields (rounds : ℕ) (pos : Bytes) (d : T) :
    parseHeadersLoop rounds pos (fields d) =
      (parseHeadersLoop rounds pos d).map (Option.map (Prod.map id fields)) := by
  induction rounds generalizing pos d with
  | zero => cases pos <;> rfl
  | succ rounds ih =>
      cases pos with
      | nil => rfl
      | cons b pos =>
          rw [parseHeadersLoop, parseHeadersLoop, parseHeader_fields]
          cases parseHeader (b :: pos) d with
          | threw e => rfl
          | undefined => rfl
          | returned r =>
              rcases r with - | ⟨more, pos', d'⟩
              · rfl
              · cases more with
                | false => rfl
                | true => exact ih pos' d'

/-- `ParseHeaders` runs that loop. -/
theorem parseHeaders_fields (pos : Bytes) (d : T) :
    parseHeaders pos (fields d) =
      (parseHeaders pos d).map (Option.map (Prod.map id fields)) :=
  parseHeadersLoop_fields pos.length pos d

/-- `ParseBodyIdentify` sets the body at most. -/
theorem parseBodyIdentify_fields (pos : Bytes) (d : T) (n : ℕ) :
    parseBodyIdentify pos (fields d) n =
      (parseBodyIdentify pos d n).map (Prod.map id fields) := by
  rw [parseBodyIdentify, parseBodyIdentify]
  split
  · rfl
  · exact congrArg (fun f => some (pos.drop n, f)) (setBody_fields d _)

/-! The loop. -/

/-- The iteration that reads the header block asks for two headers behind it. -/
theorem stepHeaders_shown (p : Parser) (pos : Bytes) (d : T) :
    stepHeaders p pos (fields d) = (stepHeaders p pos d).map Loop.shown shownResult := by
  rw [stepHeaders, stepHeaders, parseHeaders_fields]
  cases parseHeaders pos d with
  | threw e => rfl
  | undefined => rfl
  | returned r =>
      rcases r with - | ⟨pos', d'⟩
      · rfl
      · simp only [Outcome.map_returned, Option.map_some, Prod.map, id, getHeader_fields]
        cases getHeader d' kHost with
        | none => rfl
        | some host =>
            cases getHeader d' kContentLength with
            | none => simp [shownResult, Except.map, setSize_fields]
            | some length => rfl

/-- The one that decides about the body asks for two headers as well. -/
theorem stepBodyValidation_shown (p : Parser) (pos : Bytes) (d : T) :
    stepBodyValidation p pos (fields d) =
      (stepBodyValidation p pos d).map Loop.shown shownResult := by
  rw [stepBodyValidation, stepBodyValidation, getHeader_fields, getHeader_fields]
  cases getHeader d kContentLength with
  | none => cases getHeader d kTransferEncoding <;> rfl
  | some value =>
      cases getHeader d kTransferEncoding with
      | some encoding => rfl
      | none =>
          cases h : validateContentLength value with
          | none => simp [h, shownResult]
          | some n => simp [h, Loop.shown, setContentLength_fields]

/-- The one that reads the body asks for the decoded length. -/
theorem stepBodyIdentify_shown (p : Parser) (pos : Bytes) (d : T) :
    stepBodyIdentify p pos (fields d) =
      (stepBodyIdentify p pos d).map Loop.shown shownResult := by
  have hlength : contentLength (fields d) = contentLength d := (contentLength_eq d).symm
  rw [stepBodyIdentify, stepBodyIdentify, hlength]
  cases contentLength d with
  | none => rfl
  | some n =>
      simp only [parseBodyIdentify_fields]
      rcases parseBodyIdentify pos d n with - | ⟨pos', d'⟩
      · rfl
      · simp [shownResult, Except.map, setSize_fields]

/-- **One iteration, seen through the fields.** -/
theorem step_shown (l : Loop T) : step l.shown = (step l).map Loop.shown shownResult := by
  obtain ⟨p, pos, d⟩ := l
  change step ⟨p, pos, fields d⟩ = _
  by_cases hrun : p.currentState.Running
  swap
  · rw [step_of_not_running hrun, step_of_not_running hrun]
    rfl
  rcases pos with - | ⟨b, pos⟩
  · rw [step_nil hrun, step_nil hrun]
    rfl
  have hpos : b :: pos ≠ [] := List.cons_ne_nil b pos
  cases hs : p.currentState with
  | kReady =>
      rw [step_kReady hs hpos, step_kReady hs hpos]
      rfl
  | kMethod =>
      rw [step_kMethod hs hpos, step_kMethod hs hpos, parseMethod_fields]
      cases parseMethod (b :: pos) d <;> rfl
  | kWaitUri =>
      rw [step_kWaitUri hs, step_kWaitUri hs]
      split <;> rfl
  | kUriStart =>
      rw [step_kUriStart hs, step_kUriStart hs]
      split <;> rfl
  | kUri =>
      obtain ⟨v, hv⟩ := parseUri_returned hpos d
      rw [step_kUri hs hpos hv, step_kUri hs hpos ((parseUri_fields _ d).trans (by rw [hv]; rfl))]
      cases v <;> rfl
  | kWaitVersion =>
      rw [step_kWaitVersion hs, step_kWaitVersion hs]
      split <;> rfl
  | kVersion =>
      have hv := parseVersion_fields (b :: pos) d
      simp only [step, hs, hv]
      rcases parseVersion (b :: pos) d with (- | ⟨pos', d'⟩) | e | - <;> rfl
  | kHeadersWait =>
      rw [step_kHeadersWait hs, step_kHeadersWait hs]
      split <;> rfl
  | kHeaders => rw [step_kHeaders hs hpos, step_kHeaders hs hpos, stepHeaders_shown]
  | kBodyValidation =>
      rw [step_kBodyValidation hs hpos, step_kBodyValidation hs hpos, stepBodyValidation_shown]
  | kBodyIdentify =>
      rw [step_kBodyIdentify hs hpos, step_kBodyIdentify hs hpos, stepBodyIdentify_shown]
  | kBodyChunked =>
      rw [step_kBodyChunked hs hpos, step_kBodyChunked hs hpos]
      rfl
  | kComplete => exact absurd (.inl hs) hrun
  | kGarbage => exact absurd (.inr hs) hrun

namespace Parser

/-- **A call of `Parse` does not depend on the message class**: for every parser, in every
state, and all data, it ends alike, leaves the same parser behind and shows the same
fields. -/
theorem parse_shown (p : Parser) (data : Bytes) :
    p.parse Fields data = (p.parse T data).map shownResult := by
  by_cases hdata : data = []
  · rw [hdata, parse_nil, parse_nil]
    rfl
  · have hstart : p.start Fields data = (p.start T data).shown := by
      rw [start, start, Loop.shown, fields_fresh]
      rfl
    rw [parse, parseWithin, if_neg hdata, parse, parseWithin, if_neg hdata, hstart]
    exact run_map step_shown 14 _

/-- **The two classes are parsed alike.** -/
theorem parse_alike (T' : Type) [IsReqResType T'] (p : Parser) (data : Bytes) :
    (p.parse T data).map shownResult = (p.parse T' data).map shownResult :=
  (p.parse_shown data).symm.trans (p.parse_shown data)

end Parser

end Shown

/-! ### The specification -/

/-- What a call of `Parse` answers, or `none` for a call that never ends. -/
def Parser.answer (T : Type) [IsReqResType T] (p : Parser) (data : Bytes) :
    Option (Outcome (Except Errors Fields)) :=
  (p.parse T data).map fun o => (shownResult o).1

/-- What a parser in state `s` is to answer to data: the fields of a reading that is
accepted, the error the data is refused with, an exception for a length or a host that
cannot be decoded, or no value at all. -/
inductive Answers (s : States) (data : Bytes) : Option (Outcome (Except Errors Fields)) → Prop
  | message (R : Reading s data) {f : Fields} :
      R.Shows f → Answers s data (some (.returned (.ok f)))
  | refused {e : Errors} :
      data ≠ [] → Refused s data e → Answers s data (some (.returned (.error e)))
  | empty : data = [] → Answers s data (some (.returned (.error .kBadRequest)))
  | badLength : BadLength s data → Answers s data (some (.threw .badExpectedAccess))
  | badHost : BadHost s data → Answers s data (some (.threw .lengthError))
  | readsPast : ReadsPast s data → Answers s data (some .undefined)
  | stalls : Stalls s data → Answers s data none

section Specification

variable {T : Type} [IsReqResType T] {p : Parser} {data : Bytes}
  (hs : p.currentState.rank ≤ States.kHeaders.rank)
include hs

/-- What a parser is to answer, it answers: every case is a run of its own. -/
theorem Answers.answer_eq {a : Option (Outcome (Except Errors Fields))}
    (h : Answers p.currentState data a) : p.answer T data = a := by
  rw [Parser.answer]
  cases h with
  | message R hR =>
      obtain ⟨d, q, hparse, rfl⟩ := hR.parse (T := T) hs
      rw [hparse]
      rfl
  | refused hdata h =>
      obtain ⟨q, hparse⟩ := h.parse (T := T) hs hdata
      rw [hparse]
      rfl
  | empty h =>
      rw [h, Parser.parse_nil]
      rfl
  | badLength h =>
      obtain ⟨q, hparse⟩ := h.parse (T := T) hs
      rw [hparse]
      rfl
  | badHost h =>
      obtain ⟨q, hparse⟩ := parse_of_badHost (T := T) hs h
      rw [hparse]
      rfl
  | readsPast h =>
      obtain ⟨q, hparse⟩ := parse_of_readsPast (T := T) h
      rw [hparse]
      rfl
  | stalls h =>
      rw [h.parse (T := T) hs]
      rfl

omit T in
/-- There is an answer to all data. -/
theorem exists_answers (data : Bytes) : ∃ a, Answers p.currentState data a := by
  by_cases hdata : data = []
  · exact ⟨_, .empty hdata⟩
  rcases data_cases hs data with ⟨R, hR⟩ | h | (h | h) | h | ⟨e, h⟩
  · have hR : R.Accepted := hR
    obtain ⟨f, hf⟩ := hR.exists_shows
    exact ⟨_, .message R hf⟩
  · exact ⟨_, .stalls h⟩
  · exact ⟨_, .badLength h⟩
  · exact ⟨_, .badHost h⟩
  · exact ⟨_, .readsPast h⟩
  · exact ⟨_, .refused hdata h⟩

/-- **The specification of `Parse`.** A parser on its way to the headers answers what it
is to answer, and nothing else. -/
theorem Parser.answer_eq_iff (a : Option (Outcome (Except Errors Fields))) :
    p.answer T data = a ↔ Answers p.currentState data a := by
  refine ⟨?_, fun h => h.answer_eq hs⟩
  rintro rfl
  obtain ⟨a, ha⟩ := exists_answers hs data
  rwa [ha.answer_eq hs]

end Specification

/-- A message with a body that is not all there. -/
def shortMessage : Bytes :=
  ascii "GET / HTTP/1.1\r\nHost: a:1\r\nContent-Length: 5\r\n\r\n!"

/-- What a fresh parser is to answer to it, found by running one. -/
theorem answers_shortMessage : Answers .kReady shortMessage none :=
  (Parser.answer_eq_iff (T := Response) (p := {}) Parser.rank_fresh none).mp (by decide)

/-! ### Responses -/

/-- No method begins like a status line. -/
theorem refuses_statusLine (rest : Bytes) : Refuses .kMethod (ascii "HTTP" ++ rest) := by
  have hnames : ∀ m ∈ methodNames, 2 ≤ m.length ∧ m.take 2 ≠ ascii "HT" := by decide
  refine ⟨by decide, List.append_ne_nil_of_left_ne_nil (by decide) rest, ?_, by simp⟩
  intro s' pos' htoken
  generalize hdata : ascii "HTTP" ++ rest = data at htoken
  cases htoken with
  | @method m r hm _ =>
      obtain ⟨hlen, htake⟩ := hnames m (mem_methodNames hm)
      refine htake ?_
      rw [← List.take_append_of_le_length hlen, ← hdata]
      rfl

namespace ResponseHandler

/-- The calls of `ResponseHandler::Parse` on one object, up to one that never ends. -/
def parses (handler : ResponseHandler) : List Bytes → List (Option (Outcome (Option Response)))
  | [] => []
  | data :: later =>
    match handler.parse data with
    | none => [none]
    | some (outcome, handler) => some outcome :: handler.parses later

/-- A handler whose parser has given up refuses all data. -/
theorem parse_of_kGarbage {handler : ResponseHandler}
    (h : handler.parser.currentState = .kGarbage) (data : Bytes) :
    ∃ handler' : ResponseHandler, handler.parse data = some (.returned none, handler') ∧
      handler'.parser.currentState = .kGarbage := by
  have hrun : ¬ handler.parser.currentState.Running := by
    rw [h]
    decide
  by_cases hdata : data = []
  · refine ⟨⟨{ handler.parser with error := .kBadRequest }⟩, ?_, h⟩
    rw [parse, hdata, Parser.parse_nil]
    simp [Parser.complete, h]
  · refine ⟨⟨{ handler.parser with totalConsumed := data.length }⟩, ?_, h⟩
    rw [parse, parse_of_final hrun hdata]
    simp [Parser.complete, h]

/-- **It goes on to do so.** -/
theorem parses_of_kGarbage {handler : ResponseHandler}
    (h : handler.parser.currentState = .kGarbage) (datas : List Bytes) :
    handler.parses datas = List.replicate datas.length (some (.returned none)) := by
  induction datas generalizing handler with
  | nil => rfl
  | cons data later ih =>
      obtain ⟨handler', hparse, hgarbage⟩ := parse_of_kGarbage h data
      rw [parses, hparse, List.length_cons, List.replicate_succ]
      exact congrArg (List.cons _) (ih hgarbage)

/-- **A response handler never parses a response.** Handed data that begins with `HTTP`,
as every status line does, it has no value, and it has none for anything it is handed
afterwards. -/
theorem parses_statusLine (rest : Bytes) (later : List Bytes) :
    ({} : ResponseHandler).parses ((ascii "HTTP" ++ rest) :: later) =
      List.replicate (later.length + 1) (some (.returned none)) := by
  have hrefuses := refuses_statusLine rest
  have hleads : Leads (({} : Parser).currentState, ascii "HTTP" ++ rest)
      (.kMethod, ascii "HTTP" ++ rest) := Leads.single (.ready hrefuses.2.1)
  obtain ⟨q, hparse, hgarbage, -⟩ := parse_of_refuses (T := Response) (p := {}) hleads hrefuses
  have hcomplete : q.complete = false := by simp [Parser.complete, hgarbage]
  have hcall : ({} : ResponseHandler).parse (ascii "HTTP" ++ rest) =
      some (.returned none, ⟨q⟩) := by
    rw [parse, hparse]
    simp [hcomplete]
  rw [parses, hcall, List.replicate_succ]
  exact congrArg (List.cons _) (parses_of_kGarbage hgarbage later)

end ResponseHandler

end Camille
