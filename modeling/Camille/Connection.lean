import Camille.Lib.Chunks
import Camille.Lib.Loop
import Camille.Session

/-!
# A Connection

A session and its socket: `DoRead` and `DoWrite` alternate on one stream buffer, and the
client's bytes arrive in chunks, one a socket read. Of asio the model takes what it
documents: `async_read_until` looks at the buffer first and reads on while the delimiter
is not there, so that bytes behind the delimiter stay in the buffer; `async_write` of a
stream buffer sends all that can be read of it, and consumes it; `consume` takes off what
there is. No socket operation fails, except the read behind the last chunk.

`Connection.step` is one socket read, one read handler or one write; the loop of a
connection is left when the client is done, or when the session is lost.

## Main results

* `exits_filled`: a read fills the buffer to the end of the chunk the delimiter ends in.
* `sent_of_exits`: what was written back stays written back.
* `delivers_iff_aligned`: when every request is delivered, and nothing is written back.
* `not_receivesBody`: no body is ever received.
-/

open Lib

namespace Camille

/-- The operation a connection waits for: the read that `DoRead` starts, with the copy of
the request handler in its read handler, or the write that `DoWrite` starts, with the
number of bytes its write handler will consume. -/
inductive Pending
  | read (handler : RequestHandler)
  | write (toConsume : ℕ)
  deriving DecidableEq, Repr

/-- A session on its socket, the chunks still to arrive, and what was seen so far: the
bytes written back, the views handed to `RequestHandler::Parse`, and the requests that
came of them. -/
structure Connection where
  session : Session := {}
  pending : Pending := .read {}
  incoming : List Bytes
  sent : Bytes := []
  views : List Bytes := []
  requests : List Request := []
  deriving DecidableEq, Repr

/-- How a connection ends: with the client's end of file, or in a read handler that never
returns, throws into `io_context::run`, or has no defined behaviour. -/
inductive Close
  | eof
  | hangs
  | threw (e : Exception)
  | undefined
  deriving DecidableEq, Repr

namespace Connection

/-- `DoRead`, up to the read handler's return. -/
def doRead (c : Connection) (handler : RequestHandler) : Connection ⊕ Close × Connection :=
  match firstEnd crlfcrlf c.session.streamBuffer with
  | none =>
    match c.incoming with
    | [] => .inr (.eof, c)
    | chunk :: incoming =>
      .inl { c with
        session := { c.session with streamBuffer := c.session.streamBuffer ++ chunk }
        incoming := incoming }
  | some bytes =>
    let c := { c with views := c.views ++ [c.session.streamBuffer.take bytes] }
    match ReadHandler.call handler c.session bytes with
    | none => .inr (.hangs, c)
    | some (.threw e) => .inr (.threw e, c)
    | some .undefined => .inr (.undefined, c)
    | some (.returned (session, request)) =>
      .inl { c with
        session := session
        requests := c.requests ++ [request]
        pending := .write bytes }

/-- `DoWrite`, and `WriteHandler::operator()` up to its call of `DoRead`: the write has
consumed all of the buffer before the handler consumes its bytes. -/
def doWrite (c : Connection) (toConsume : ℕ) : Connection :=
  { c with
    sent := c.sent ++ c.session.streamBuffer
    session :=
      { c.session with
        streamBuffer :=
          (c.session.streamBuffer.drop c.session.streamBuffer.length).drop toConsume }
    pending := .read c.session.requestHandler }

/-- One socket read, read handler or write. -/
def step (c : Connection) : Connection ⊕ Close × Connection :=
  match c.pending with
  | .read handler => c.doRead handler
  | .write toConsume => .inl (c.doWrite toConsume)

/-- A connection as `Session::Start` begins it. -/
def start (chunks : List Bytes) : Connection :=
  { incoming := chunks }

/-- A connection that waits for its next request with an empty buffer. -/
def Waits (c : Connection) : Prop :=
  c.session = {} ∧ c.pending = .read {}

/-- A new connection waits for its first read. -/
theorem waits_start (chunks : List Bytes) : (start chunks).Waits := ⟨rfl, rfl⟩

/-! ### Reads -/

/-- The connection after `n` more socket reads. -/
def filled (c : Connection) (n : ℕ) : Connection :=
  { c with
    session :=
      { c.session with
        streamBuffer := c.session.streamBuffer ++ (c.incoming.take n).flatten }
    incoming := c.incoming.drop n }

/-- No chunk arrives. -/
theorem filled_zero (c : Connection) : c.filled 0 = c := by
  simp [filled]

/-- The chunks arrive one by one. -/
theorem filled_succ (c : Connection) (n : ℕ) : (c.filled 1).filled n = c.filled (n + 1) := by
  obtain ⟨session, pending, incoming, sent, views, requests⟩ := c
  cases incoming with
  | nil => simp [filled]
  | cons chunk incoming => simp [filled]

/-- Without a delimiter in the buffer, the next chunk is read. -/
theorem step_fill {c : Connection} {handler : RequestHandler}
    (hp : c.pending = .read handler) (hbuf : firstEnd crlfcrlf c.session.streamBuffer = none)
    (hin : c.incoming ≠ []) : step c = .inl (c.filled 1) := by
  obtain ⟨chunk, incoming, hin⟩ := List.exists_cons_of_ne_nil hin
  simp [step, hp, doRead, hbuf, hin, filled]

/-- At the end of the stream, a read without a delimiter ends the connection. -/
theorem step_eof {c : Connection} {handler : RequestHandler}
    (hp : c.pending = .read handler) (hbuf : firstEnd crlfcrlf c.session.streamBuffer = none)
    (hin : c.incoming = []) : step c = .inr (.eof, c) := by
  simp [step, hp, doRead, hbuf, hin]

/-- **A read fills the buffer** to the end of the chunk in which the delimiter ends. -/
theorem exits_filled {c : Connection} {handler : RequestHandler}
    (hp : c.pending = .read handler) {n : ℕ}
    (hn : firstEnd crlfcrlf (c.session.streamBuffer ++ c.incoming.flatten) = some n) :
    ∃ j, n ≤ (c.filled j).session.streamBuffer.length ∧
      (∀ i < j, (c.filled i).session.streamBuffer.length < n) ∧
      ∀ o, Exits step c o ↔ Exits step (c.filled j) o := by
  induction hin : c.incoming generalizing c with
  | nil =>
      rw [hin, List.flatten_nil, List.append_nil] at hn
      exact ⟨0, by rw [filled_zero]; exact firstEnd_le_length hn, by simp,
        fun o => by rw [filled_zero]⟩
  | cons chunk incoming ih =>
      cases hbuf : firstEnd crlfcrlf c.session.streamBuffer with
      | some m =>
          obtain rfl : m = n :=
            Option.some.inj ((firstEnd_append hbuf c.incoming.flatten).symm.trans hn)
          exact ⟨0, by rw [filled_zero]; exact firstEnd_le_length hbuf, by simp,
            fun o => by rw [filled_zero]⟩
      | none =>
          have hne : c.incoming ≠ [] := by simp [hin]
          have hshort : c.session.streamBuffer.length < n := by
            by_contra hle
            have := firstEnd_take (by decide) hn c.session.streamBuffer.length
            rw [List.take_left, hbuf, if_pos (not_lt.mp hle)] at this
            cases this
          obtain ⟨j, hj, hmin, hexits⟩ := ih (c := c.filled 1) hp
            (by simpa [filled, hin] using hn) (by simp [filled, hin])
          refine ⟨j + 1, by rwa [filled_succ] at hj, ?_, ?_⟩
          · intro i hi
            cases i with
            | zero => rwa [filled_zero]
            | succ i =>
                have := hmin i (by omega)
                rwa [filled_succ] at this
          · intro o
            rw [exits_iff_of_inl (step_fill hp hbuf hne), hexits o, filled_succ]

/-- Chunks without a byte in them end in the end of file. -/
theorem exits_eof {c : Connection} (hc : c.Waits) (hin : c.incoming.flatten = []) :
    Exits step c (.eof, { c with incoming := [] }) := by
  obtain ⟨hsession, hp⟩ := hc
  have hbuf : firstEnd crlfcrlf c.session.streamBuffer = none := by rw [hsession]; rfl
  induction hchunks : c.incoming generalizing c with
  | nil =>
      have hc : ({ c with incoming := [] } : Connection) = c := by rw [← hchunks]
      rw [hc]
      exact (exits_iff_of_inr (step_eof hp hbuf hchunks)).mpr rfl
  | cons chunk incoming ih =>
      have hne : c.incoming ≠ [] := by simp [hchunks]
      rw [hchunks, List.flatten_cons, List.append_eq_nil_iff] at hin
      have hfilled : c.filled 1 = { c with incoming := incoming } := by
        simp [filled, hchunks, hin.1]
      rw [exits_iff_of_inl (step_fill hp hbuf hne), hfilled]
      exact ih (c := { c with incoming := incoming }) hin.2 hsession hp hbuf rfl

/-! ### Whole rounds -/

/-- A read writes nothing back. -/
theorem doRead_sent {c : Connection} {handler : RequestHandler} :
    (doRead c handler).elim (·.sent) (·.2.sent) = c.sent := by
  rw [doRead]
  split
  · split <;> rfl
  · dsimp only
    split <;> rfl

/-- What was written back stays written back. -/
theorem sent_of_exits {c c' : Connection} {close : Close}
    (h : Exits step c (close, c')) : c.sent <+: c'.sent := by
  have hstep : ∀ d : Connection, d.sent <+: (step d).elim (·.sent) (·.2.sent) := by
    intro d
    rw [step]
    split
    · rw [doRead_sent]
    · exact List.prefix_append _ _
  refine h.of_invariant (I := fun d => c.sent <+: d.sent) (Q := fun r => c.sent <+: r.2.sent)
    ?_ ?_ (List.prefix_refl _)
  · intro d d' hd hd'
    have hsent := hstep d
    rw [hd'] at hsent
    exact hd.trans hsent
  · intro d r hd hr
    have hsent := hstep d
    rw [hr] at hsent
    exact hd.trans hsent

/-- A request without a body, as a client sends it: a fresh parser accepts it, and its
first empty line is its end. -/
structure IsRequest (m : Bytes) : Prop where
  ends : firstEnd crlfcrlf m = some m.length
  accepted : ∃ r q, ({} : Parser).parse Request m = some (.returned (.ok r), q)

/-- The connection after a request was read from its first `n` chunks, with `extra` bytes
behind it in the last of them. -/
def answered (c : Connection) (n : ℕ) (m extra : Bytes) (r : Request) : Connection :=
  { incoming := c.incoming.drop n
    sent := c.sent ++ extra
    views := c.views ++ [m]
    requests := c.requests ++ [r] }

/-- **One round**: a request is read and handed on, and what came behind it is written
back and dropped. -/
theorem exits_round {c : Connection} {n : ℕ} {m extra : Bytes} (hc : c.Waits)
    (hm : IsRequest m) (hbuf : (c.incoming.take n).flatten = m ++ extra) :
    ∃ r, ∀ o, Exits step (c.filled n) o ↔ Exits step (c.answered n m extra r) o := by
  obtain ⟨hsession, hp⟩ := hc
  obtain ⟨r, q, hq⟩ := hm.accepted
  have hend : firstEnd crlfcrlf (m ++ extra) = some m.length := firstEnd_append hm.ends extra
  have hcall : ReadHandler.call {} { streamBuffer := m ++ extra } m.length =
      some (.returned ({ streamBuffer := extra }, r)) :=
    ReadHandler.call_eq_some_iff.mpr ⟨rfl, q, hq⟩
  have hfilled : (c.filled n).session = { streamBuffer := m ++ extra } := by
    simp [filled, hsession, hbuf]
  have hread : step (c.filled n) = .inl { c.filled n with
      session := { streamBuffer := extra }
      views := c.views ++ [m]
      requests := c.requests ++ [r]
      pending := .write m.length } := by
    have hp : (c.filled n).pending = .read {} := hp
    simp only [step, hp, doRead, hfilled, hend, hcall, List.take_left]
    rfl
  refine ⟨r, fun o => (exits_iff_of_inl hread).trans (exits_iff_of_inl ?_)⟩
  simp [step, doWrite, filled, answered]

/-- Every request is handed to the parser by itself, in order, and nothing is written
back. -/
def DeliversFrom (c : Connection) (ms : List Bytes) : Prop :=
  ∃ c', Exits step c (.eof, c') ∧ c'.views = c.views ++ ms ∧ c'.sent = c.sent

/-- **When every request is delivered**, from a connection that waits. -/
theorem deliversFrom_iff {c : Connection} (hc : c.Waits) {ms : List Bytes}
    (hms : ∀ m ∈ ms, IsRequest m) (hin : c.incoming.flatten = ms.flatten) :
    c.DeliversFrom ms ↔ Aligned c.incoming ms := by
  induction ms generalizing c with
  | nil =>
      exact iff_of_true ⟨_, exits_eof hc (by rw [hin, List.flatten_nil]), by simp, rfl⟩
        (aligned_nil _)
  | cons m ms ih =>
      have hm : IsRequest m := hms m List.mem_cons_self
      have hbuffer : ∀ n, (c.filled n).session.streamBuffer = (c.incoming.take n).flatten :=
        fun n => by simp [filled, hc.1]
      have hend : firstEnd crlfcrlf (c.session.streamBuffer ++ c.incoming.flatten) =
          some m.length := by
        rw [hc.1, hin, List.flatten_cons]
        exact firstEnd_append hm.ends _
      obtain ⟨n, hle, hfirst, hfill⟩ := exits_filled hc.2 hend
      rw [hbuffer] at hle
      simp only [hbuffer] at hfirst
      obtain ⟨extra, hextra⟩ := exists_extra (hin.trans (List.flatten_cons ..)) hle
      obtain ⟨r, hround⟩ := exits_round hc hm hextra
      rw [aligned_cons_iff hle hfirst, hextra]
      by_cases hnil : extra = []
      · subst hnil
        have hrest : (c.incoming.drop n).flatten = ms.flatten := by
          have := congrArg List.flatten (List.take_append_drop n c.incoming)
          rw [List.flatten_append, hextra, hin, List.flatten_cons, List.append_nil] at this
          exact List.append_cancel_left this
        have hnext := ih (c := c.answered n m [] r) ⟨rfl, rfl⟩
          (fun m' hm' => hms m' (List.mem_cons_of_mem _ hm')) hrest
        rw [List.append_nil, eq_self, true_and]
        refine Iff.trans (exists_congr fun c' => ?_) hnext
        rw [hfill, hround]
        simp [answered]
      · -- what was written back is there to stay
        refine iff_of_false ?_ fun h => hnil (List.append_right_eq_self.mp h.1)
        rintro ⟨c', hexits, -, hsent⟩
        have hback := (sent_of_exits ((hround _).mp ((hfill _).mp hexits))).length_le
        rw [hsent] at hback
        simp only [answered, List.length_append] at hback
        exact hnil (List.eq_nil_of_length_eq_zero (by omega))

/-- **When every request is delivered.** Over any number of requests without a body, and
any segmentation of their bytes, the views handed to the parser are the requests, in
order, and nothing is written back, exactly when every request ends where a socket read
does. -/
theorem delivers_iff_aligned {chunks ms : List Bytes} (hms : ∀ m ∈ ms, IsRequest m)
    (hchunks : chunks.flatten = ms.flatten) :
    (∃ c, Exits step (start chunks) (.eof, c) ∧ c.views = ms ∧ c.sent = []) ↔
      ∀ i ≤ ms.length, ∃ j, (chunks.take j).flatten = (ms.take i).flatten :=
  deliversFrom_iff (waits_start chunks) hms hchunks

/-- A request with a host and nothing else. -/
def plainRequest : Bytes :=
  ascii "GET / HTTP/1.1\r\nHost: a:1\r\n\r\n"

/-- It is a request. -/
theorem isRequest_plainRequest : IsRequest plainRequest where
  ends := by decide
  accepted := verdict_eq_message_iff.mp (by decide)

/-- `delivers_iff_aligned` on two requests, the first of them in two chunks. -/
theorem delivers_plainRequests :
    ∃ c, Exits step (start [plainRequest.take 20, plainRequest.drop 20, plainRequest])
        (.eof, c) ∧ c.views = [plainRequest, plainRequest] ∧ c.sent = [] := by
  refine (delivers_iff_aligned (fun m hm => ?_) (by decide)).mpr fun i hi => ?_
  · obtain rfl : m = plainRequest := by simpa using hm
    exact isRequest_plainRequest
  · have hall : ∀ i ≤ 2, ∃ j < 4,
        ([plainRequest.take 20, plainRequest.drop 20, plainRequest].take j).flatten =
          ([plainRequest, plainRequest].take i).flatten := by
      decide
    obtain ⟨j, -, hj⟩ := hall i hi
    exact ⟨j, hj⟩

/-- **A pipelined request is lost.** Of two requests in one chunk, the second is written
back to the client, and the parser never sees it. -/
theorem plainRequests_merged :
    IsRequest plainRequest ∧ ∃ c, Exits step (start [plainRequest ++ plainRequest]) (.eof, c) ∧
      c.views = [plainRequest] ∧ c.sent = plainRequest := by
  have hrun : (run step 4 (start [plainRequest ++ plainRequest])).map
      (fun r => (r.1, r.2.views, r.2.sent)) = some (.eof, [plainRequest], plainRequest) := by
    decide
  obtain ⟨⟨close, c⟩, hc, he⟩ := Option.map_eq_some_iff.mp hrun
  obtain ⟨rfl, hviews, hsent⟩ : close = .eof ∧ c.views = [plainRequest] ∧
      c.sent = plainRequest := by simpa using he
  exact ⟨isRequest_plainRequest, c, ⟨4, hc⟩, hviews, hsent⟩

/-! ### Requests with a body -/

end Connection

/-- A request with a body, in parts: a head with one valid `Content-Length`, and as many
bytes behind it. -/
structure BodyRequest where
  startLine : StartLine
  block : HeaderBlock
  value : Bytes
  body : Bytes
  ends : block.ending = .emptyLine
  splits : block.Splits
  oneHost : (block.values kHost).length = 1
  announced : block.values kContentLength = [value]
  noEncoding : block.values kTransferEncoding = []
  valid : validateContentLength value = some body.length
  body_ne_nil : body ≠ []

namespace BodyRequest

/-- What a read of the request leaves up to its first empty line. -/
def head (m : BodyRequest) : Bytes :=
  m.startLine.bytes ++ m.block.bytes

/-- The request on the wire. -/
def bytes (m : BodyRequest) : Bytes :=
  m.head ++ m.body

/-- Its head ends where the first empty line does. -/
theorem firstEnd_bytes (m : BodyRequest) : firstEnd crlfcrlf m.bytes = some m.head.length := by
  rw [bytes, head, List.append_assoc]
  exact firstEnd_head m.startLine m.ends m.body

/-- So does the head alone. -/
theorem firstEnd_head_self (m : BodyRequest) :
    firstEnd crlfcrlf m.head = some m.head.length :=
  firstEnd_of_append (by decide) m.firstEnd_bytes

/-- In one piece, the request is a message, with its body. -/
theorem parse_bytes {T : Type} [IsReqResType T] (m : BodyRequest) :
    ∃ (d : T) (q : Parser), ({} : Parser).parse T m.bytes = some (.returned (.ok d), q) ∧
      (IsReqResType.fields d).body = m.body := by
  have hdata : m.bytes = m.startLine.ahead (m.block.bytes ++ m.body) .kReady := by
    rw [bytes, head, List.append_assoc, StartLine.bytes_append]
  let R : Reading ({} : Parser).currentState m.bytes :=
    ⟨m.startLine, m.block, m.body, hdata, .inl m.ends, m.splits⟩
  have hsized : R.Sized m.body.length :=
    ⟨m.value, ⟨m.oneHost, m.announced⟩, by rw [m.noEncoding]; simp, m.valid⟩
  refine ⟨_, _, parse_of_sized Parser.rank_fresh R hsized m.body_ne_nil le_rfl, ?_⟩
  simp [R]

/-- The head alone is no message: it announces a body. -/
theorem not_message_head (m : BodyRequest) (r : Request) (q : Parser) :
    ({} : Parser).parse Request m.head ≠ some (.returned (.ok r), q) := by
  intro h
  obtain ⟨R, hR⟩ := (verdict_message_iff (T := Request) (p := {}) Parser.rank_fresh m.head).mp
    (verdict_eq_message_iff.mpr ⟨r, q, h⟩)
  have hrest := (R.of_firstEnd m.firstEnd_head_self).2
  obtain ⟨-, hcl⟩ := hR.resolve_right fun ⟨_, _, hne, _⟩ => hne hrest
  -- both ways to take the head apart show the same headers
  have hnames : headerNames m.head = m.block.lines.map HeaderLine.key := by
    have hfits : m.block.Fits [] := .inl m.ends
    have := headerNames_block m.startLine hfits
    rwa [List.append_nil] at this
  refine hcl ?_
  rw [← R.count_headerNames, hnames]
  have := length_valuesOf m.block.fields kContentLength
  rw [HeaderBlock.fields, List.map_map] at this
  refine this.symm.trans ?_
  have hone := congrArg List.length m.announced
  exact hone

end BodyRequest

namespace Connection

/-- On a head that is no message, the read handler does not return. -/
theorem step_lost {c : Connection} {data extra : Bytes} (hp : c.pending = .read {})
    (hbuf : c.session = { streamBuffer := data ++ extra })
    (hend : firstEnd crlfcrlf data = some data.length)
    (hno : ∀ (r : Request) q, ({} : Parser).parse Request data ≠ some (.returned (.ok r), q)) :
    ∃ close, step c = .inr (close, { c with views := c.views ++ [data] }) ∧
      close ≠ .eof := by
  have hend : firstEnd crlfcrlf (data ++ extra) = some data.length := firstEnd_append hend extra
  have hread : step c = c.doRead {} := by rw [step, hp]
  rw [hread, doRead, hbuf]
  simp only [hend, List.take_left]
  rcases hcall : ReadHandler.call {} { streamBuffer := data ++ extra } data.length with
    - | ⟨⟨session, request⟩⟩ | e | -
  · exact ⟨.hangs, rfl, by simp⟩
  · obtain ⟨-, q, hq⟩ := ReadHandler.call_eq_some_iff.mp hcall
    exact absurd hq (hno request q)
  · exact ⟨.threw e, rfl, by simp⟩
  · exact ⟨.undefined, rfl, by simp⟩

/-- The client's body reaches the program in a request. -/
def ReceivesBody (chunks : List Bytes) (body : Bytes) : Prop :=
  ∃ close c, Exits step (start chunks) (close, c) ∧ ∃ r ∈ c.requests, r.body = body

/-- **No body is ever received.** Whatever the segmentation, the first view of a request
with a body is its head, for which there is no request, and the session is lost in its
first read handler. -/
theorem not_receivesBody (m : BodyRequest) {chunks : List Bytes}
    (hchunks : chunks.flatten = m.bytes) :
    ¬ ReceivesBody chunks m.body ∧
      ∃ close c, Exits step (start chunks) (close, c) ∧ close ≠ .eof ∧
        c.views = [m.head] ∧ c.requests = [] := by
  have hstream : chunks.flatten = m.head ++ m.body := hchunks
  have hend : firstEnd crlfcrlf (({} : Bytes) ++ chunks.flatten) = some m.head.length := by
    rw [hchunks]
    exact m.firstEnd_bytes
  obtain ⟨n, hle, -, hfill⟩ := exits_filled (c := start chunks) rfl hend
  have hbuffer : ((start chunks).filled n).session =
      { streamBuffer := (chunks.take n).flatten } := rfl
  rw [hbuffer] at hle
  obtain ⟨extra, hextra⟩ := exists_extra hstream hle
  rw [hextra] at hbuffer
  obtain ⟨close, hlost, hclose⟩ :=
    step_lost rfl hbuffer m.firstEnd_head_self m.not_message_head
  have hexits := (hfill _).mpr ((exits_iff_of_inr hlost).mpr rfl)
  refine ⟨?_, close, _, hexits, hclose, rfl, rfl⟩
  rintro ⟨close', c, hexits', r, hr, -⟩
  obtain ⟨-, rfl⟩ := Prod.mk.inj (hexits'.unique hexits)
  cases hr

/-- A request with five bytes of body. -/
def helloRequest : BodyRequest where
  startLine := default
  block := ⟨.ofHost, [.ofLength (ascii "5") (by decide)], .emptyLine⟩
  value := ascii "5"
  body := ascii "hello"
  ends := rfl
  splits := by decide
  oneHost := by decide
  announced := by decide
  noEncoding := by decide
  valid := by decide
  body_ne_nil := by decide

/-- `not_receivesBody` on a request in one chunk. -/
theorem helloRequest_not_received :
    ¬ ReceivesBody [helloRequest.bytes] helloRequest.body :=
  (not_receivesBody helloRequest (List.flatten_singleton)).1

/-- **A request with a body takes its session down**: the read handler dereferences an
empty optional. -/
theorem helloRequest_lost :
    ∃ c, Exits step (start [helloRequest.bytes]) (.undefined, c) ∧
      c.views = [helloRequest.head] ∧ c.requests = [] := by
  have hrun : (run step 2 (start [helloRequest.bytes])).map
      (fun r => (r.1, r.2.views, r.2.requests)) =
        some (.undefined, [helloRequest.head], []) := by
    decide
  obtain ⟨⟨close, c⟩, hc, he⟩ := Option.map_eq_some_iff.mp hrun
  obtain ⟨rfl, hviews, hrequests⟩ : close = .undefined ∧ c.views = [helloRequest.head] ∧
      c.requests = [] := by simpa using he
  exact ⟨c, ⟨2, hc⟩, hviews, hrequests⟩

end Connection

end Camille
