import Camille.Heads

/-!
# One Read of a Session

`RequestHandler::Parse` and `Session::ReadHandler::operator()`. A session reads up to the
first empty line, and what it has then is handed to the parser: the head of a request and
nothing behind it. The handler asks the request it gets back to print itself, whether or
not there is one.

Every read handler is built with a copy of the session's request handler, which no call
ever touches, so that every read meets a fresh parser.

## Main results

* `RequestHandler.parse_eq_some_iff`: there is a request exactly for a message.
* `ReadHandler.call_returns_iff`: the heads a session survives.
-/

open Lib

namespace Camille

/-- `handler::RequestHandler`. -/
structure RequestHandler where
  parser : Parser := {}
  deriving DecidableEq, Repr

/-- `RequestHandler::Parse`: the `std::optional` it returns, and the handler it leaves
behind; `none` for a call that never ends. What it logs is left out. -/
def RequestHandler.parse (handler : RequestHandler) (data : Bytes) :
    Option (Outcome (Option Request) × RequestHandler) :=
  match handler.parser.parse Request data with
  | none => none
  | some (.threw e, parser) => some (.threw e, ⟨parser⟩)
  | some (.undefined, parser) => some (.undefined, ⟨parser⟩)
  | some (.returned req, parser) =>
    if !parser.complete then some (.returned none, ⟨parser⟩)
    else
      match req with
      | .error _ => some (.returned none, ⟨parser⟩)
      | .ok req => some (.returned (some req), ⟨parser⟩)

/-- `handler::ResponseHandler`. -/
structure ResponseHandler where
  parser : Parser := {}
  deriving DecidableEq, Repr

/-- `ResponseHandler::Parse`, as `RequestHandler::Parse`. -/
def ResponseHandler.parse (handler : ResponseHandler) (data : Bytes) :
    Option (Outcome (Option Response) × ResponseHandler) :=
  match handler.parser.parse Response data with
  | none => none
  | some (.threw e, parser) => some (.threw e, ⟨parser⟩)
  | some (.undefined, parser) => some (.undefined, ⟨parser⟩)
  | some (.returned res, parser) =>
    if !parser.complete then some (.returned none, ⟨parser⟩)
    else
      match res with
      | .error _ => some (.returned none, ⟨parser⟩)
      | .ok res => some (.returned (some res), ⟨parser⟩)

/-- The data members of `network::Session` that a read or a write touches. -/
structure Session where
  requestHandler : RequestHandler := {}
  streamBuffer : Bytes := []
  deriving DecidableEq, Repr

/-- `Session::ReadHandler::operator()` without error code, up to its call of
`DoWrite(bytes)`: the session it leaves behind and the request it had, or `none` when it
never ends. To print a request that is not there is to dereference an empty optional; what
is printed of one that is there is left out. -/
def ReadHandler.call (handler : RequestHandler) (session : Session) (bytes : ℕ) :
    Option (Outcome (Session × Request)) :=
  match handler.parse (session.streamBuffer.take bytes) with
  | none => none
  | some (.threw e, _) => some (.threw e)
  | some (.undefined, _) => some .undefined
  | some (.returned none, _) => some .undefined
  | some (.returned (some request), _) =>
    some (.returned
      ({ session with streamBuffer := session.streamBuffer.drop bytes }, request))

/-! ### The request handler -/

/-- A call that returns a message leaves the parser complete. -/
theorem complete_of_parse {T : Type} [IsReqResType T] {p q : Parser} {data : Bytes} {d : T}
    (hs : p.currentState.rank ≤ States.kHeaders.rank)
    (h : p.parse T data = some (.returned (.ok d), q)) : q.complete = true := by
  obtain ⟨R, hno | ⟨n, hsized, hrest, hle⟩⟩ :=
    (verdict_message_iff hs data).mp (verdict_eq_message_iff.mpr ⟨d, q, h⟩)
  · rw [parse_of_noBody hs R hno] at h
    rw [← (Prod.mk.inj (Option.some.inj h)).2]
    rfl
  · rw [parse_of_sized hs R hsized hrest hle] at h
    rw [← (Prod.mk.inj (Option.some.inj h)).2]
    rfl

/-- **There is a request exactly for a message.** -/
theorem RequestHandler.parse_eq_some_iff {data : Bytes} {request : Request} :
    (∃ h, ({} : RequestHandler).parse data = some (.returned (some request), h)) ↔
      ∃ q, ({} : Parser).parse Request data = some (.returned (.ok request), q) := by
  rw [RequestHandler.parse]
  constructor
  · rintro ⟨h, he⟩
    rcases hp : ({} : Parser).parse Request data with - | ⟨⟨e | d⟩ | e | -, q⟩ <;>
      rw [hp] at he
    · cases he
    · simp only at he
      split at he <;> cases he
    · simp only at he
      split at he
      · cases he
      · obtain ⟨rfl, -⟩ := by simpa using he
        exact ⟨q, rfl⟩
    · cases he
    · cases he
  · rintro ⟨q, hq⟩
    have hcomplete : q.complete = true := complete_of_parse Parser.rank_fresh hq
    exact ⟨⟨q⟩, by simp [hq, hcomplete]⟩

/-- **A read handler returns exactly for a message**, having consumed what it read. -/
theorem ReadHandler.call_eq_some_iff {data rest : Bytes} {session : Session}
    {request : Request} :
    ReadHandler.call {} { streamBuffer := data ++ rest } data.length =
        some (.returned (session, request)) ↔
      session = { streamBuffer := rest } ∧
        ∃ q, ({} : Parser).parse Request data = some (.returned (.ok request), q) := by
  rw [← RequestHandler.parse_eq_some_iff, ReadHandler.call, List.take_left]
  rcases ({} : RequestHandler).parse data with - | ⟨⟨- | r⟩ | e | -, h⟩
  · simp
  · simp
  · simp [eq_comm]
  · simp
  · simp

/-- **The heads a session survives.** On what a read leaves up to its first empty line,
one read handler returns, with no exception escaping and no empty optional dereferenced,
exactly when the head is well formed, all its lines can be recorded, one of them is named
`Host`, and not exactly one is named `Content-Length`. -/
theorem ReadHandler.call_returns_iff {data : Bytes}
    (hdata : firstEnd crlfcrlf data = some data.length) (rest : Bytes) :
    (∃ session request, ReadHandler.call {} { streamBuffer := data ++ rest } data.length =
        some (.returned (session, request))) ↔
      ∃ (sl : StartLine) (B : HeaderBlock), data = sl.bytes ++ B.bytes ∧
        B.ending = .emptyLine ∧ B.Splits ∧ (B.values kHost).length = 1 ∧
        (B.values kContentLength).length ≠ 1 := by
  rw [← accepts_iff_of_head hdata]
  have hmessage := verdict_message_iff (T := Request) (p := {}) Parser.rank_fresh data
  rw [verdict_eq_message_iff] at hmessage
  refine Iff.trans ?_ hmessage
  constructor
  · rintro ⟨session, request, hcall⟩
    obtain ⟨-, q, hq⟩ := ReadHandler.call_eq_some_iff.mp hcall
    exact ⟨request, q, hq⟩
  · rintro ⟨request, q, hq⟩
    exact ⟨_, request, ReadHandler.call_eq_some_iff.mpr ⟨rfl, q, hq⟩⟩

/-- `ReadHandler.call_returns_iff` on a request with a host and nothing else. -/
theorem call_returns_plainRequest :
    ∃ session request, ReadHandler.call {}
        { streamBuffer := ascii "GET / HTTP/1.1\r\nHost: a:1\r\n\r\n" ++ [] }
        (ascii "GET / HTTP/1.1\r\nHost: a:1\r\n\r\n").length =
      some (.returned (session, request)) :=
  (ReadHandler.call_returns_iff (by decide) []).mpr
    ⟨default, ⟨.ofHost, [], .emptyLine⟩, by decide, rfl, by decide,
      by decide, by decide⟩

/-- **An empty line takes a session down**: there is no request in it, and the handler
dereferences the empty optional. A host without a port does it with an exception. -/
theorem call_undefined_emptyLine :
    firstEnd crlfcrlf crlfcrlf = some crlfcrlf.length ∧
      ReadHandler.call {} { streamBuffer := crlfcrlf } crlfcrlf.length = some .undefined ∧
      ReadHandler.call {} { streamBuffer := ascii "GET / HTTP/1.1\r\nHost: a\r\n\r\n" }
          (ascii "GET / HTTP/1.1\r\nHost: a\r\n\r\n").length =
        some (.threw .lengthError) := by
  refine ⟨?_, ?_, ?_⟩ <;> decide

end Camille
