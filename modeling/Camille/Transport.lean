import Camille.Fate
import Camille.WriteOp

/-!
# A Session on Its Socket

`network::Session` on asio's own stream buffer and operations: `DoRead` and `DoWrite`, the
read handler and the write handler, with every socket read and every socket write an event
of its own. A read brings what it brings, a write takes what it takes, and either can fail.

`Connection` is the same session at the level of whole operations, on a list of chunks that
never fail and with a write in one piece. Every run of a `Transport` that receives fewer
than `2 ^ 31` bytes is one of those: this is where what was assumed of asio there is proved
of its code. From `2 ^ 31` bytes on, a stream buffer does not keep what it promises.

## Main results

* `shows_of_after`: every run of a session is a run of its connection.
* `balanced_of_after`: where every byte that arrived is, and every byte that was sent comes from.
-/

open Lib

namespace Camille

/-- How a session ends: its operation failed, or one of its handlers did not return. -/
inductive SessionEnd
  | closed (ec : ErrorCode)
  | hangs
  | threw (e : Exception)
  | undefined
  deriving DecidableEq, Repr

/-- How the connection of such a session ends. -/
def SessionEnd.close : SessionEnd → Close
  | closed _ => .eof
  | hangs => .hangs
  | threw e => .threw e
  | undefined => .undefined

/-- What a session waits for, with the stream buffer in the hands of the operation: a read,
with the copy of the request handler in its read handler, or a write, with the number of
bytes its write handler will consume. It waits for nothing before it is started. -/
inductive Operation
  | idle
  | reading (handler : RequestHandler) (op : ReadUntil)
  | writing (toConsume : ℕ) (op : Write)
  | ended (ending : SessionEnd)

/-- A session on its socket, and what was seen so far: the bytes the socket took, the views
handed to `RequestHandler::Parse`, and the requests that came of them. -/
structure Transport where
  requestHandler : RequestHandler := {}
  operation : Operation := .idle
  sent : Bytes := []
  views : List Bytes := []
  requests : List Request := []

/-- A socket read or a socket write, as it completes. -/
inductive SocketEvent
  | read (r : SocketRead)
  | write (w : SocketWrite)
  deriving DecidableEq, Repr

namespace Transport

variable (growth : Growth)

/-- The session is over. -/
def finish (t : Transport) (ending : SessionEnd) : Transport :=
  { t with operation := .ended ending }

/-- Go on with what a call returned. -/
def proceed {α : Type} (t : Transport) (o : Outcome α) (f : α → Transport) : Transport :=
  match o with
  | .returned a => f a
  | .threw e => t.finish (.threw e)
  | .undefined => t.finish .undefined

/-- `Session::DoRead`. -/
def doRead (t : Transport) (s : Streambuf) : Transport :=
  t.proceed (ReadUntil.start growth crlfcrlf s) fun op =>
    { t with operation := .reading t.requestHandler op }

/-- `Session::DoWrite`. -/
def doWrite (t : Transport) (s : Streambuf) (bytesToWrite : ℕ) : Transport :=
  { t with operation := .writing bytesToWrite (Write.start s) }

/-- `Session::ReadHandler::operator()`. -/
def readHandler (t : Transport) (handler : RequestHandler) (s : Streambuf)
    (ec : Option ErrorCode) (bytes : ℕ) : Transport :=
  match ec with
  | some ec => t.finish (.closed ec)
  | none =>
    let t := { t with views := t.views ++ [s.data.take bytes] }
    match handler.parse (s.data.take bytes) with
    | none => t.finish .hangs
    | some (.threw e, _) => t.finish (.threw e)
    | some (.undefined, _) => t.finish .undefined
    | some (.returned none, _) => t.finish .undefined
    | some (.returned (some request), _) =>
      let t := { t with requests := t.requests ++ [request] }
      t.proceed (s.consume bytes) fun s => t.doWrite s bytes

/-- `Session::WriteHandler::operator()`. -/
def writeHandler (t : Transport) (toConsume : ℕ) (s : Streambuf) (ec : Option ErrorCode) :
    Transport :=
  match ec with
  | some ec => t.finish (.closed ec)
  | none => t.proceed (s.consume toConsume) (t.doRead growth)

/-- The session behind a step of its read. -/
def afterRead (t : Transport) (handler : RequestHandler) : ReadUntil → Transport
  | .completed s ec bytes => t.readHandler handler s ec bytes
  | op => { t with operation := .reading handler op }

/-- The session behind a step of its write. -/
def afterWrite (t : Transport) (toConsume : ℕ) : Write → Transport
  | .completed s ec _ => t.writeHandler growth toConsume s ec
  | op => { t with operation := .writing toConsume op }

/-- The session behind an event of its socket. -/
def step (t : Transport) (e : SocketEvent) : Option Transport :=
  match t.operation, e with
  | .reading handler op, .read r =>
    (ReadUntil.step growth crlfcrlf (.returned op) r).map fun o =>
      t.proceed o (t.afterRead handler)
  | .writing toConsume op, .write w =>
    let t := { t with sent := t.sent ++ w.bytes }
    (Write.step (.returned op) w).map fun o => t.proceed o (t.afterWrite growth toConsume)
  | _, _ => none

/-- `Session::Start`, on a stream buffer as `Session` has it. -/
def start : Transport :=
  ({} : Transport).doRead growth (Streambuf.new growth sizeMax)

end Transport

/-- The bytes an event brings. -/
def SocketEvent.received : SocketEvent → Bytes
  | read r => r.bytes
  | write _ => []

/-- The chunks the socket reads of a run brought. -/
def receivedChunks (es : List SocketEvent) : List Bytes :=
  (es.map SocketEvent.received).filter (· ≠ [])

/-- An event that brings nothing is no chunk. -/
theorem receivedChunks_cons (e : SocketEvent) (es : List SocketEvent) :
    receivedChunks (e :: es) =
      if e.received = [] then receivedChunks es else e.received :: receivedChunks es := by
  by_cases h : e.received = [] <;> simp [receivedChunks, h]

/-- The chunks are all that was received. -/
theorem flatten_receivedChunks (es : List SocketEvent) :
    (receivedChunks es).flatten = es.flatMap SocketEvent.received := by
  induction es with
  | nil => rfl
  | cons e es ih =>
      rw [receivedChunks_cons, List.flatMap_cons, ← ih]
      split
      · rename_i h
        rw [h, List.nil_append]
      · rw [List.flatten_cons]

namespace Transport

/-- What the two levels agree on throughout. -/
structure Agrees (t : Transport) (c : Connection) : Prop where
  requestHandler : t.requestHandler = c.session.requestHandler
  views : t.views = c.views
  requests : t.requests = c.requests

/-- What a session shows of its connection: the operation it waits for and how far that
went, or how it ended. A session whose read failed shows a connection that waits for more,
one whose write failed a connection that had still bytes to write, and one with a handler
that did not return a connection that ends in the same way. -/
inductive Shows (c : Connection) (t : Transport) : Prop
  | reading {handler : RequestHandler} {op : ReadUntil} {reads : List SocketRead}
      (hop : t.operation = .reading handler op) (hp : c.pending = .read handler)
      (hstands : ReadUntil.Stands crlfcrlf sizeMax c.session.streamBuffer reads op)
      (hsent : t.sent = c.sent) (hagrees : t.Agrees c)
  | writing {toConsume : ℕ} {op : Write} {s : Streambuf} {writes : List SocketWrite}
      {sent : Bytes} (hop : t.operation = .writing toConsume op)
      (hp : c.pending = .write toConsume) (hstands : Write.Stands s writes sent op)
      (hbuffer : c.session.streamBuffer = s.data) (hmax : s.maxSize = sizeMax)
      (hsent : t.sent = c.sent ++ sent) (hagrees : t.Agrees c)
  | readFailed {handler : RequestHandler} {ec : ErrorCode}
      (hop : t.operation = .ended (.closed ec)) (hp : c.pending = .read handler)
      (hnone : firstEnd crlfcrlf c.session.streamBuffer = none) (hsent : t.sent = c.sent)
      (hagrees : t.Agrees c)
  | writeFailed {toConsume : ℕ} {ec : ErrorCode} {sent rest : Bytes}
      (hop : t.operation = .ended (.closed ec)) (hp : c.pending = .write toConsume)
      (hbuffer : c.session.streamBuffer = sent ++ rest) (hrest : rest ≠ [])
      (hsent : t.sent = c.sent ++ sent) (hagrees : t.Agrees c)
  | lost {ending : SessionEnd} {c' : Connection} (hop : t.operation = .ended ending)
      (hstep : c.step = .inr (ending.close, c')) (hsent : t.sent = c'.sent)
      (hagrees : t.Agrees c')

section Steps

variable {growth : Growth} {t : Transport} {c : Connection} {s : Streambuf}

/-- A value is handed on. -/
@[simp] theorem proceed_returned {α : Type} (t : Transport) (a : α) (f : α → Transport) :
    t.proceed (.returned a) f = f a := rfl

/-- The read handler, where the parser had a request. -/
theorem readHandler_of_request {handler h : RequestHandler} {n : ℕ} {request : Request}
    (hparse : handler.parse (s.data.take n) = some (.returned (some request), h)) :
    t.readHandler handler s none n =
      ({ t with
        views := t.views ++ [s.data.take n]
        requests := t.requests ++ [request] } : Transport).proceed (s.consume n)
          fun u => ({ t with
            views := t.views ++ [s.data.take n]
            requests := t.requests ++ [request] } : Transport).doWrite u n := by
  unfold readHandler
  dsimp only
  rw [hparse]

/-- `DoRead`, where the connection waits for a request. -/
theorem doRead_shows (hp : c.pending = .read t.requestHandler)
    (hbuffer : c.session.streamBuffer = s.data) (hmax : s.maxSize = sizeMax)
    (hshort : c.session.streamBuffer.length < 2 ^ 31) (hsent : t.sent = c.sent)
    (hagrees : t.Agrees c) : Shows c (t.doRead growth s) := by
  have hnotFound : s.data.length < notFound := by
    rw [← hbuffer]
    unfold notFound sizeMax
    omega
  obtain ⟨op, hop, hstands⟩ :=
    ReadUntil.start_stands growth (show crlfcrlf ≠ [] by decide) hnotFound
  rw [hmax, ← hbuffer] at hstands
  have hdo : t.doRead growth s = { t with operation := .reading t.requestHandler op } := by
    rw [doRead, hop, proceed]
  rw [hdo]
  exact .reading rfl hp hstands hsent ⟨hagrees.1, hagrees.2, hagrees.3⟩

/-- The read handler, where the read found its delimiter. -/
theorem readHandler_shows {handler : RequestHandler} {n : ℕ} (hp : c.pending = .read handler)
    (hbuffer : c.session.streamBuffer = s.data) (hmax : s.maxSize = sizeMax)
    (hend : firstEnd crlfcrlf s.data = some n) (hshort : s.data.length < 2 ^ 31)
    (hsent : t.sent = c.sent) (hagrees : t.Agrees c) :
    ∃ c', Reaches Connection.step c c' ∧ Shows c' (t.readHandler handler s none n) ∧
      c'.incoming = c.incoming ∧
      c'.session.streamBuffer.length ≤ c.session.streamBuffer.length ∧
      ∀ m, c'.pending = .write m → m < 2 ^ 31 := by
  have hstep : c.step = c.doRead handler := by rw [Connection.step, hp]
  -- what the connection is left as when the handler does not return
  have hlost : ∀ ending : SessionEnd,
      c.step = .inr (ending.close, { c with views := c.views ++ [s.data.take n] }) →
      t.readHandler handler s none n =
        ({ t with views := t.views ++ [s.data.take n] } : Transport).finish ending →
      ∃ c', Reaches Connection.step c c' ∧ Shows c' (t.readHandler handler s none n) ∧
        c'.incoming = c.incoming ∧
        c'.session.streamBuffer.length ≤ c.session.streamBuffer.length ∧
        ∀ m, c'.pending = .write m → m < 2 ^ 31 := by
    intro ending hc ht
    refine ⟨c, .refl c, ?_, rfl, le_rfl, by simp [hp]⟩
    rw [ht]
    exact .lost rfl hc hsent ⟨hagrees.1, congrArg (· ++ [s.data.take n]) hagrees.2, hagrees.3⟩
  rcases hparse : handler.parse (s.data.take n) with - | ⟨⟨- | request⟩ | e | -, h⟩
  · have hcall : ReadHandler.call handler c.session n = none := by
      rw [ReadHandler.call, hbuffer, hparse]
    refine hlost .hangs ?_ (by simp [readHandler, hparse])
    simp [hstep, Connection.doRead, hend, hcall, SessionEnd.close, hbuffer]
  · have hcall : ReadHandler.call handler c.session n = some .undefined := by
      rw [ReadHandler.call, hbuffer, hparse]
    refine hlost .undefined ?_ (by simp [readHandler, hparse])
    simp [hstep, Connection.doRead, hend, hcall, SessionEnd.close, hbuffer]
  · have hcall : ReadHandler.call handler c.session n = some (.returned
        ({ c.session with streamBuffer := c.session.streamBuffer.drop n }, request)) := by
      rw [ReadHandler.call, hbuffer, hparse]
    have hint : n < 2 ^ 31 := (firstEnd_le_length hend).trans_lt hshort
    obtain ⟨u, hu, hdata, humax⟩ :=
      Streambuf.consume_spec (s := s) (n := n) (by omega) (lt_of_le_of_lt (min_le_left _ _) hint)
    have hc : c.step = .inl { c with
        session := { c.session with streamBuffer := c.session.streamBuffer.drop n }
        views := c.views ++ [s.data.take n]
        requests := c.requests ++ [request]
        pending := .write n } := by
      simp [hstep, Connection.doRead, hend, hcall, hbuffer]
    refine ⟨_, .single hc, ?_, rfl, ?_, ?_⟩
    · rw [readHandler_of_request hparse, hu, proceed_returned]
      refine .writing rfl rfl (Write.start_stands u) ?_ (humax.trans hmax) ?_
        ⟨hagrees.1, congrArg (· ++ [s.data.take n]) hagrees.2,
          congrArg (· ++ [request]) hagrees.3⟩
      · rw [hdata, hbuffer]
      · exact hsent.trans (List.append_nil _).symm
    · rw [List.length_drop]
      exact Nat.sub_le _ _
    · intro m hm
      obtain rfl := Pending.write.inj hm
      exact hint
  · have hcall : ReadHandler.call handler c.session n = some (.threw e) := by
      rw [ReadHandler.call, hbuffer, hparse]
    refine hlost (.threw e) ?_ (by simp [readHandler, hparse])
    simp [hstep, Connection.doRead, hend, hcall, SessionEnd.close, hbuffer]
  · have hcall : ReadHandler.call handler c.session n = some .undefined := by
      rw [ReadHandler.call, hbuffer, hparse]
    refine hlost .undefined ?_ (by simp [readHandler, hparse])
    simp [hstep, Connection.doRead, hend, hcall, SessionEnd.close, hbuffer]

/-- The write handler, where the write took all of the buffer. -/
theorem writeHandler_shows (growth : Growth) {toConsume : ℕ} (hp : c.pending = .write toConsume)
    (hint : toConsume < 2 ^ 31) (hdata : s.data = []) (hmax : s.maxSize = sizeMax)
    (hsent : t.sent = c.sent ++ c.session.streamBuffer) (hagrees : t.Agrees c) :
    Reaches Connection.step c (c.doWrite toConsume) ∧
      Shows (c.doWrite toConsume) (t.writeHandler growth toConsume s none) := by
  have hsize : s.size = 0 := by rw [← s.length_data, hdata, List.length_nil]
  obtain ⟨u, hu, hudata, humax⟩ := Streambuf.consume_spec (s := s) (n := toConsume)
    (by omega) (lt_of_le_of_lt (min_le_left _ _) hint)
  rw [hdata, List.drop_nil] at hudata
  have hbuffer : (c.doWrite toConsume).session.streamBuffer = [] := by
    rw [Connection.doWrite, List.drop_length, List.drop_nil]
  refine ⟨.single (by rw [Connection.step, hp]), ?_⟩
  rw [writeHandler, hu, proceed_returned]
  refine doRead_shows ?_ (hbuffer.trans hudata.symm) (humax.trans hmax) ?_ hsent
    ⟨hagrees.1, hagrees.2, hagrees.3⟩
  · rw [hagrees.1]
    rfl
  · rw [hbuffer]
    exact Nat.two_pow_pos 31

/-- The connection behind a read that brought `bytes`. -/
theorem reaches_received {handler : RequestHandler} (hp : c.pending = .read handler)
    {bytes : Bytes} (hnone : bytes ≠ [] → firstEnd crlfcrlf c.session.streamBuffer = none)
    {chunks : List Bytes} (hin : c.incoming = if bytes = [] then chunks else bytes :: chunks) :
    Reaches Connection.step c { c with
      session := { c.session with streamBuffer := c.session.streamBuffer ++ bytes }
      incoming := chunks } := by
  by_cases hbytes : bytes = []
  · rw [if_pos hbytes] at hin
    subst hbytes hin
    rw [List.append_nil]
    exact .refl c
  · rw [if_neg hbytes] at hin
    refine .single ((Connection.step_fill hp (hnone hbytes) (by simp [hin])).trans ?_)
    simp [Connection.filled, hin]

/-- What the simulation is about: the chunks the connection still waits for are those of the
events to come, and all that arrives fits an `int`, as do the heads that were taken off. -/
structure Follows (es : List SocketEvent) (t : Transport) (c : Connection) : Prop where
  shows : Shows c t
  incoming : c.incoming = receivedChunks es
  short : c.session.streamBuffer.length + (es.flatMap SocketEvent.received).length < 2 ^ 31
  head_short : ∀ n, c.pending = .write n → n < 2 ^ 31

/-- A read, as it completes. -/
theorem read_follows {handler : RequestHandler} {op : ReadUntil} {reads : List SocketRead}
    {r : SocketRead} {es : List SocketEvent} {t' : Transport}
    (hop : t.operation = .reading handler op) (hp : c.pending = .read handler)
    (hstands : ReadUntil.Stands crlfcrlf sizeMax c.session.streamBuffer reads op)
    (hsent : t.sent = c.sent) (hagrees : t.Agrees c)
    (hin : c.incoming = if r.bytes = [] then receivedChunks es else r.bytes :: receivedChunks es)
    (hshort : c.session.streamBuffer.length +
      (r.bytes.length + (es.flatMap SocketEvent.received).length) < 2 ^ 31)
    (hstep : step growth t (.read r) = some t') :
    ∃ c', Reaches Connection.step c c' ∧ Follows es t' c' := by
  cases op with
  | completed s ec bytes => simp [step, hop, ReadUntil.step] at hstep
  | reads op s n =>
      have hr : r.Possible n := by
        by_contra hno
        simp [step, hop, ReadUntil.step, hno] at hstep
      have hlen : (c.session.streamBuffer ++ r.bytes).length +
          (es.flatMap SocketEvent.received).length < 2 ^ 31 := by
        rw [List.length_append]
        omega
      have hnotFound : (c.session.streamBuffer ++ r.bytes).length < notFound := by
        unfold notFound sizeMax
        omega
      have hnone : r.bytes ≠ [] → firstEnd crlfcrlf c.session.streamBuffer = none := by
        intro hbytes
        cases hstands with
        | searching hs hmax hroom hop' hnone hn hle => exact hnone
        | settled hs hmax hfirst hend =>
            cases r with
            | received bytes => exact absurd (hr.2.mpr rfl) hbytes
            | failed ec => exact absurd rfl hbytes
      have hreach := reaches_received hp hnone hin
      obtain ⟨p, hp', hstands'⟩ :=
        ReadUntil.step_stands growth (by decide) hstands hr hnotFound
      have hstep' : some (t.afterRead handler p) = some t' := by
        rw [← hstep]
        unfold step
        rw [hop]
        dsimp only
        rw [hp', Option.map_some, proceed_returned]
      obtain rfl := Option.some.inj hstep'
      have hagrees' : t.Agrees { c with
          session := { c.session with streamBuffer := c.session.streamBuffer ++ r.bytes }
          incoming := receivedChunks es } := ⟨hagrees.1, hagrees.2, hagrees.3⟩
      cases p with
      | reads op' s' n' =>
          exact ⟨_, hreach, .reading rfl hp hstands' hsent ⟨hagrees.1, hagrees.2, hagrees.3⟩,
            rfl, hlen, by simp [hp]⟩
      | completed s' ec bytes =>
          cases hstands' with
          | found hs hmax hreads hend =>
              obtain ⟨c', hc', hshows, hin', hle, hhead⟩ := readHandler_shows (t := t) (s := s')
                (c := { c with
                  session := { c.session with
                    streamBuffer := c.session.streamBuffer ++ r.bytes }
                  incoming := receivedChunks es })
                hp hs.symm hmax (by rw [hs]; exact hend) (by rw [hs]; omega) hsent hagrees'
              exact ⟨c', hreach.trans hc', hshows, hin', by dsimp only at hle; omega, hhead⟩
          | full hs hmax hreads hnone' hfull =>
              unfold sizeMax at hfull
              omega
          | failed hs hmax hlast hnone' =>
              exact ⟨_, hreach, .readFailed rfl hp hnone' hsent
                ⟨hagrees.1, hagrees.2, hagrees.3⟩, rfl, hlen, by simp [hp]⟩

/-- A write, as it completes. -/
theorem write_follows {toConsume : ℕ} {op : Write} {writes : List SocketWrite} {sent : Bytes}
    {w : SocketWrite} {es : List SocketEvent} {t' : Transport}
    (hop : t.operation = .writing toConsume op) (hp : c.pending = .write toConsume)
    (hstands : Write.Stands s writes sent op) (hbuffer : c.session.streamBuffer = s.data)
    (hmax : s.maxSize = sizeMax) (hsent : t.sent = c.sent ++ sent) (hagrees : t.Agrees c)
    (hin : c.incoming = receivedChunks es)
    (hshort : c.session.streamBuffer.length + (es.flatMap SocketEvent.received).length < 2 ^ 31)
    (hint : ∀ n, c.pending = .write n → n < 2 ^ 31)
    (hstep : step growth t (.write w) = some t') :
    ∃ c', Reaches Connection.step c c' ∧ Follows es t' c' := by
  cases op with
  | completed s ec bytes => simp [step, hop, Write.step] at hstep
  | writes buffers s' request =>
      have hw : w.Possible request := by
        by_contra hno
        simp [step, hop, Write.step, hno] at hstep
      obtain ⟨p, hp', hstands'⟩ := Write.step_stands (by rw [← hbuffer]; omega) hstands hw
      have hstep' : some (afterWrite growth { t with sent := t.sent ++ w.bytes } toConsume p) =
          some t' := by
        rw [← hstep]
        unfold step
        rw [hop]
        dsimp only
        rw [hp', Option.map_some, proceed_returned]
      obtain rfl := Option.some.inj hstep'
      have hsent' : t.sent ++ w.bytes = c.sent ++ (sent ++ w.bytes) := by
        rw [hsent, List.append_assoc]
      cases p with
      | writes buffers' s'' request' =>
          exact ⟨c, .refl c, .writing rfl hp hstands' hbuffer hmax hsent'
            ⟨hagrees.1, hagrees.2, hagrees.3⟩, hin, hshort, hint⟩
      | completed u ec bytes =>
          cases hstands' with
          | done hall hempty humax hwrites =>
              obtain ⟨hreach, hshows⟩ := writeHandler_shows growth
                (t := { t with sent := t.sent ++ w.bytes }) hp (hint _ hp) hempty
                (humax.trans hmax) (by rw [hbuffer, ← hall]; exact hsent')
                ⟨hagrees.1, hagrees.2, hagrees.3⟩
              refine ⟨_, hreach, hshows, hin, ?_, by simp [Connection.doWrite]⟩
              rw [Connection.doWrite, List.drop_length, List.drop_nil, List.length_nil]
              omega
          | failed hlast hrest hmore humax =>
              exact ⟨c, .refl c, .writeFailed rfl hp (hbuffer.trans hrest.symm) hmore hsent'
                ⟨hagrees.1, hagrees.2, hagrees.3⟩, hin, hshort, hint⟩

/-- **One event.** -/
theorem step_follows {e : SocketEvent} {es : List SocketEvent} {t' : Transport}
    (h : Follows (e :: es) t c) (hstep : step growth t e = some t') :
    ∃ c', Reaches Connection.step c c' ∧ Follows es t' c' := by
  obtain ⟨hshows, hin, hshort, hint⟩ := h
  rw [receivedChunks_cons] at hin
  rw [List.flatMap_cons, List.length_append] at hshort
  cases hshows with
  | reading hop hp hstands hsent hagrees =>
      cases e with
      | read r => exact read_follows hop hp hstands hsent hagrees hin hshort hstep
      | write w => simp [step, hop] at hstep
  | writing hop hp hstands hbuffer hmax hsent hagrees =>
      cases e with
      | read r => simp [step, hop] at hstep
      | write w =>
          have hnil : (SocketEvent.write w).received = [] := rfl
          rw [if_pos hnil] at hin
          rw [hnil, List.length_nil, Nat.zero_add] at hshort
          exact write_follows hop hp hstands hbuffer hmax hsent hagrees hin hshort hint hstep
  | readFailed hop => simp [step, hop] at hstep
  | writeFailed hop => simp [step, hop] at hstep
  | lost hop => simp [step, hop] at hstep

end Steps

/-- A session that starts, and a connection with all that is to come. -/
theorem start_follows (growth : Growth) {es : List SocketEvent}
    (hshort : (es.flatMap SocketEvent.received).length < 2 ^ 31) :
    Follows es (start growth) (Connection.start (receivedChunks es)) := by
  refine ⟨doRead_shows rfl ?_ rfl ?_ rfl ⟨rfl, rfl, rfl⟩, rfl, ?_, by simp [Connection.start]⟩
  · rw [Streambuf.data_new]
    rfl
  · exact Nat.two_pow_pos 31
  · have hnil : (Connection.start (receivedChunks es)).session.streamBuffer = [] := rfl
    rw [hnil, List.length_nil, Nat.zero_add]
    exact hshort

/-- The connection behind a run. -/
theorem follows_of_after (growth : Growth) {es : List SocketEvent} {t : Transport}
    (h : after (step growth) (start growth) es = some t)
    (hshort : (es.flatMap SocketEvent.received).length < 2 ^ 31) :
    ∃ c, Reaches Connection.step (Connection.start (receivedChunks es)) c ∧ Follows [] t c :=
  simulates_of_after (R := Follows) (fun _ _ _ _ _ hR hstep => step_follows hR hstep) h
    (start_follows growth hshort)

/-- **Every run of a session is a run of its connection**, on fewer than `2 ^ 31` received
bytes. Whatever the socket reads bring and the socket writes take, and wherever one fails,
the session shows a connection that has the chunks that arrived for its input: the same
views and requests, the same bytes sent as far as the write got, and the same end. -/
theorem shows_of_after (growth : Growth) {es : List SocketEvent} {t : Transport}
    (h : after (step growth) (start growth) es = some t)
    (hshort : (es.flatMap SocketEvent.received).length < 2 ^ 31) :
    ∃ c, Reaches Connection.step (Connection.start (receivedChunks es)) c ∧ Shows c t ∧
      c.incoming = [] := by
  obtain ⟨c, hreach, hfollows⟩ := follows_of_after growth h hshort
  exact ⟨c, hreach, hfollows.shows, hfollows.incoming⟩

/-- A session that serves one request, and has nothing to send back. -/
def oneRound : List SocketEvent :=
  [.read (.received Connection.plainRequest), .write (.wrote [])]

/-- The run is one of the session. -/
theorem after_oneRound :
    ∃ t, after (step Growth.doubling) (start Growth.doubling) oneRound = some t :=
  Option.isSome_iff_exists.mp (by decide)

/-- `shows_of_after` on one round. -/
theorem shows_oneRound :
    ∃ t c, after (step Growth.doubling) (start Growth.doubling) oneRound = some t ∧
      Reaches Connection.step (Connection.start (receivedChunks oneRound)) c ∧ Shows c t ∧
      c.incoming = [] := by
  obtain ⟨t, ht⟩ := after_oneRound
  obtain ⟨c, hc⟩ := shows_of_after Growth.doubling ht (by decide)
  exact ⟨t, c, ht, hc⟩

/-- What is in the stream buffer of a session that waits for its socket. -/
def buffer (t : Transport) : Option Bytes :=
  match t.operation with
  | .reading _ (.reads _ s _) => some s.data
  | .writing _ (.writes _ s _) => some s.data
  | _ => none

/-- **The balance of a session**: what it received is the rounds so far, in order, and what
its stream buffer holds. While a write is pending, or when it failed, the last round has its
view, the buffer holds its echo, and a part of the echo may be sent. -/
inductive Balanced (received : Bytes) (t : Transport) : Prop
  | reading (rounds : List Connection.Round) (rest : Bytes)
      (hreceived : received = rounds.flatMap Connection.Round.bytes ++ rest)
      (hviews : t.views = rounds.map Connection.Round.view)
      (hsent : t.sent = rounds.flatMap Connection.Round.echo)
      (hbuffer : ∀ bytes ∈ t.buffer, bytes = rest)
      (hends : ∀ v ∈ t.views, firstEnd crlfcrlf v = some v.length)
  | writing (rounds : List Connection.Round) (view echo taken : Bytes)
      (hreceived : received = rounds.flatMap Connection.Round.bytes ++ (view ++ echo))
      (hviews : t.views = rounds.map Connection.Round.view ++ [view])
      (hsent : t.sent = rounds.flatMap Connection.Round.echo ++ taken) (htaken : taken <+: echo)
      (hbuffer : ∀ bytes ∈ t.buffer, bytes = echo)
      (hends : ∀ v ∈ t.views, firstEnd crlfcrlf v = some v.length)

/-- A session that ended holds nothing. -/
theorem buffer_of_ended {t : Transport} {ending : SessionEnd} (h : t.operation = .ended ending)
    (rest : Bytes) : ∀ bytes ∈ t.buffer, bytes = rest := by
  simp [buffer, h]

/-- **No byte is lost, repeated or moved**, at any point of the life of a session that
received fewer than `2 ^ 31` of them, whatever the socket does. -/
theorem balanced_of_after (growth : Growth) {es : List SocketEvent} {t : Transport}
    (h : after (step growth) (start growth) es = some t)
    (hshort : (es.flatMap SocketEvent.received).length < 2 ^ 31) :
    t.Balanced (es.flatMap SocketEvent.received) := by
  obtain ⟨c, hreach, hshows, hin, -, -⟩ := follows_of_after growth h hshort
  replace hin : c.incoming = [] := hin
  have hbalanced := Connection.balanced_of_reaches hreach
  rw [flatten_receivedChunks] at hbalanced
  cases hbalanced with
  | reading rounds hp hviews hsent hstream hends =>
      rw [hin, List.flatten_nil, List.append_nil] at hstream
      cases hshows with
      | @reading _ op _ hop hp' hstands hsent' hagrees =>
          refine .reading rounds _ hstream (hagrees.views.trans hviews) (hsent'.trans hsent) ?_
            (hagrees.views ▸ hends)
          cases op with
          | reads op s n =>
              cases hstands with
              | searching hs | settled hs => simp [buffer, hop, hs]
          | completed s ec bytes => simp [buffer, hop]
      | writing hop hp' => exact absurd (hp.symm.trans hp') (by simp)
      | readFailed hop hp' hnone hsent' hagrees =>
          exact .reading rounds _ hstream (hagrees.views.trans hviews) (hsent'.trans hsent)
            (buffer_of_ended hop _) (hagrees.views ▸ hends)
      | writeFailed hop hp' => exact absurd (hp.symm.trans hp') (by simp)
      | lost hop hstep hsent' hagrees =>
          obtain ⟨-, -, ⟨-, -, -, rfl⟩ | ⟨bytes, hend, rfl, -⟩⟩ := Connection.step_ends hstep
          · exact .reading rounds _ hstream (hagrees.views.trans hviews) (hsent'.trans hsent)
              (buffer_of_ended hop _) (hagrees.views ▸ hends)
          · rw [← List.take_append_drop bytes c.session.streamBuffer] at hstream
            refine .writing rounds _ _ [] hstream ?_ ?_ List.nil_prefix (buffer_of_ended hop _) ?_
            · rw [hagrees.views, hviews]
            · rw [hsent', hsent, List.append_nil]
            · intro v hv
              rw [hagrees.views] at hv
              rcases List.mem_append.mp hv with hv | hv
              · exact hends v hv
              · rw [List.mem_singleton.mp hv]
                exact Connection.firstEnd_view hend
  | writing rounds view hp hviews hsent hstream hends =>
      rw [hin, List.flatten_nil, List.append_nil] at hstream
      cases hshows with
      | reading hop hp' => exact absurd (hp.symm.trans hp') (by simp)
      | @writing _ op _ _ _ hop hp' hstands hbuffer hmax hsent' hagrees =>
          refine .writing rounds view _ _ hstream (hagrees.views.trans hviews)
            (by rw [hsent', hsent]) (hbuffer ▸ hstands.isPrefix) ?_ (hagrees.views ▸ hends)
          cases op with
          | writes buffers s request =>
              cases hstands with
              | writing => simp [buffer, hop, hbuffer]
          | completed s ec bytes => simp [buffer, hop]
      | readFailed hop hp' => exact absurd (hp.symm.trans hp') (by simp)
      | writeFailed hop hp' hbuffer hrest hsent' hagrees =>
          exact .writing rounds view _ _ hstream (hagrees.views.trans hviews)
            (by rw [hsent', hsent]) ⟨_, hbuffer.symm⟩ (buffer_of_ended hop _)
            (hagrees.views ▸ hends)
      | lost hop hstep =>
          obtain ⟨handler, hp', -⟩ := Connection.step_ends hstep
          exact absurd (hp.symm.trans hp') (by simp)

end Transport

end Camille
