import Camille.Connection

/-!
# What Becomes of a Connection

A connection on any list of chunks: where every byte of the client ends up, and how the
connection ends. Between two reads of a chunk it handles at most one head, and what had
arrived behind that head it writes back; so the stream falls into rounds, each of a head
that was handed to the parser and of what was sent back behind it.

## Main results

* `Connection.balanced_of_reaches`: no byte is lost, repeated or moved.
* `Connection.ends`: every connection ends, and the three ways it can.
-/

open Lib

namespace Camille

namespace Connection

/-! ### One step -/

/-- What a step can do: read a chunk, hand on a head, or write. -/
theorem step_cases {c c' : Connection} (h : c.step = .inl c') :
    (∃ handler chunk incoming, c.pending = .read handler ∧
        firstEnd crlfcrlf c.session.streamBuffer = none ∧ c.incoming = chunk :: incoming ∧
        c' = { c with
          session := { c.session with streamBuffer := c.session.streamBuffer ++ chunk }
          incoming := incoming }) ∨
      (∃ handler bytes request h', c.pending = .read handler ∧
        firstEnd crlfcrlf c.session.streamBuffer = some bytes ∧
        handler.parse (c.session.streamBuffer.take bytes) =
          some (.returned (some request), h') ∧
        c' = { c with
          session := { c.session with streamBuffer := c.session.streamBuffer.drop bytes }
          views := c.views ++ [c.session.streamBuffer.take bytes]
          requests := c.requests ++ [request]
          pending := .write bytes }) ∨
      ∃ toConsume, c.pending = .write toConsume ∧ c' = c.doWrite toConsume := by
  obtain ⟨pending, hp⟩ : ∃ pending, c.pending = pending := ⟨_, rfl⟩
  cases pending with
  | write toConsume =>
      rw [step, hp] at h
      exact .inr (.inr ⟨toConsume, hp, (Sum.inl.inj h).symm⟩)
  | read handler =>
      have hdo : c.doRead handler = .inl c' := by rwa [step, hp] at h
      cases hend : firstEnd crlfcrlf c.session.streamBuffer with
      | none =>
          cases hin : c.incoming with
          | nil => simp [doRead, hend, hin] at hdo
          | cons chunk incoming =>
              refine .inl ⟨handler, chunk, incoming, hp, rfl, rfl, ?_⟩
              simpa [doRead, hend, hin, eq_comm] using hdo
      | some bytes =>
          rcases hparse : handler.parse (c.session.streamBuffer.take bytes) with
            - | ⟨⟨- | request⟩ | e | -, h'⟩
          · simp [doRead, hend, ReadHandler.call, hparse] at hdo
          · simp [doRead, hend, ReadHandler.call, hparse] at hdo
          · refine .inr (.inl ⟨handler, bytes, request, h', hp, rfl, hparse, ?_⟩)
            simpa [doRead, hend, ReadHandler.call, hparse, eq_comm] using hdo
          · simp [doRead, hend, ReadHandler.call, hparse] at hdo
          · simp [doRead, hend, ReadHandler.call, hparse] at hdo

/-- How the last step can go: the client is done, or the read handler does not return. -/
theorem step_ends {c c' : Connection} {close : Close} (h : c.step = .inr (close, c')) :
    ∃ handler, c.pending = .read handler ∧
      ((firstEnd crlfcrlf c.session.streamBuffer = none ∧ c.incoming = [] ∧ close = .eof ∧
          c' = c) ∨
        ∃ bytes, firstEnd crlfcrlf c.session.streamBuffer = some bytes ∧
          c' = { c with views := c.views ++ [c.session.streamBuffer.take bytes] } ∧
          ((handler.parse (c.session.streamBuffer.take bytes) = none ∧ close = .hangs) ∨
            (∃ e h', handler.parse (c.session.streamBuffer.take bytes) =
              some (.threw e, h') ∧ close = .threw e) ∨
            ∃ o h', handler.parse (c.session.streamBuffer.take bytes) = some (o, h') ∧
              (o = .undefined ∨ o = .returned none) ∧ close = .undefined)) := by
  obtain ⟨pending, hp⟩ : ∃ pending, c.pending = pending := ⟨_, rfl⟩
  cases pending with
  | write toConsume =>
      rw [step, hp] at h
      cases h
  | read handler =>
      have hdo : c.doRead handler = .inr (close, c') := by rwa [step, hp] at h
      refine ⟨handler, hp, ?_⟩
      cases hend : firstEnd crlfcrlf c.session.streamBuffer with
      | none =>
          cases hin : c.incoming with
          | nil =>
              simp only [doRead, hend, hin, Sum.inr.injEq, Prod.mk.injEq] at hdo
              exact .inl ⟨rfl, rfl, hdo.1.symm, hdo.2.symm⟩
          | cons chunk incoming => simp [doRead, hend, hin] at hdo
      | some bytes =>
          refine .inr ⟨bytes, rfl, ?_⟩
          rcases hparse : handler.parse (c.session.streamBuffer.take bytes) with
            - | ⟨⟨- | request⟩ | e | -, h'⟩ <;>
            simp only [doRead, hend, ReadHandler.call, hparse, Sum.inr.injEq, Prod.mk.injEq,
              reduceCtorEq] at hdo
          · exact ⟨hdo.2.symm, .inl ⟨rfl, hdo.1.symm⟩⟩
          · exact ⟨hdo.2.symm, .inr (.inr ⟨_, h', rfl, .inr rfl, hdo.1.symm⟩)⟩
          · exact ⟨hdo.2.symm, .inr (.inl ⟨e, h', rfl, hdo.1.symm⟩)⟩
          · exact ⟨hdo.2.symm, .inr (.inr ⟨_, h', rfl, .inl rfl, hdo.1.symm⟩)⟩

/-! ### Where the bytes are -/

/-- A round: the head that was handed to the parser, and what was written back behind it. -/
structure Round where
  view : Bytes
  echo : Bytes
  deriving DecidableEq, Repr

/-- The bytes of the client that a round handled. -/
def Round.bytes (r : Round) : Bytes :=
  r.view ++ r.echo

/-- The bytes of some rounds are those of their views and of their echoes. -/
theorem length_rounds (rounds : List Round) :
    (rounds.flatMap Round.bytes).length =
      (rounds.map Round.view).flatten.length + (rounds.flatMap Round.echo).length := by
  induction rounds with
  | nil => rfl
  | cons r rounds ih =>
      rw [List.flatMap_cons, List.map_cons, List.flatten_cons, List.flatMap_cons]
      simp only [List.length_append, Round.bytes, ih]
      omega

/-- A head has four bytes at least. -/
theorem length_heads_le {views : List Bytes}
    (hends : ∀ v ∈ views, firstEnd crlfcrlf v = some v.length) :
    4 * views.length ≤ views.flatten.length := by
  induction views with
  | nil => exact le_rfl
  | cons v views ih =>
      obtain ⟨hv, hends⟩ := List.forall_mem_cons.mp hends
      have hfour : 4 ≤ v.length := length_le_firstEnd hv
      have hothers := ih hends
      rw [List.length_cons, List.flatten_cons, List.length_append]
      omega

/-- **The balance of a connection**: the client's stream is the rounds so far, in order,
and what is still to be handled. While a write is pending, the last round has its view, and
the buffer is its echo. -/
inductive Balanced (stream : Bytes) (c : Connection) : Prop
  | reading {handler : RequestHandler} (rounds : List Round) (hp : c.pending = .read handler)
      (hviews : c.views = rounds.map Round.view) (hsent : c.sent = rounds.flatMap Round.echo)
      (hstream : stream = rounds.flatMap Round.bytes ++
        (c.session.streamBuffer ++ c.incoming.flatten))
      (hends : ∀ v ∈ c.views, firstEnd crlfcrlf v = some v.length)
  | writing {toConsume : ℕ} (rounds : List Round) (view : Bytes)
      (hp : c.pending = .write toConsume) (hviews : c.views = rounds.map Round.view ++ [view])
      (hsent : c.sent = rounds.flatMap Round.echo)
      (hstream : stream = rounds.flatMap Round.bytes ++
        (view ++ (c.session.streamBuffer ++ c.incoming.flatten)))
      (hends : ∀ v ∈ c.views, firstEnd crlfcrlf v = some v.length)

/-- A new connection balances: it has taken nothing and sent nothing. -/
theorem balanced_start (chunks : List Bytes) : Balanced chunks.flatten (start chunks) :=
  .reading [] rfl rfl rfl rfl (by simp [start])

/-- What a read leaves up to its first empty line ends with it. -/
theorem firstEnd_view {buffer : Bytes} {bytes : ℕ} (h : firstEnd crlfcrlf buffer = some bytes) :
    firstEnd crlfcrlf (buffer.take bytes) = some (buffer.take bytes).length := by
  rw [firstEnd_take (by decide) h, if_pos le_rfl, List.length_take,
    min_eq_left (firstEnd_le_length h)]

/-- **One step keeps the balance.** -/
theorem step_balanced {stream : Bytes} {c c' : Connection} (hc : c.Balanced stream)
    (h : c.step = .inl c') : c'.Balanced stream := by
  obtain ⟨handler, chunk, incoming, hp, -, hin, rfl⟩ |
    ⟨handler, bytes, request, h', hp, hend, -, rfl⟩ | ⟨toConsume, hp, rfl⟩ := step_cases h
  · cases hc with
    | reading rounds hp' hviews hsent hstream hends =>
        refine .reading rounds hp hviews hsent ?_ hends
        rw [hstream, hin, List.flatten_cons, List.append_assoc]
    | writing rounds view hp' => exact absurd (hp.symm.trans hp') (by simp)
  · cases hc with
    | reading rounds hp' hviews hsent hstream hends =>
        refine .writing rounds _ rfl (by rw [hviews]) hsent ?_ ?_
        · rw [hstream, ← List.append_assoc (c.session.streamBuffer.take bytes),
            List.take_append_drop]
        · intro v hv
          rcases List.mem_append.mp hv with hv | hv
          · exact hends v hv
          · rw [List.mem_singleton.mp hv]
            exact firstEnd_view hend
    | writing rounds view hp' => exact absurd (hp.symm.trans hp') (by simp)
  · cases hc with
    | reading rounds hp' => exact absurd (hp.symm.trans hp') (by simp)
    | writing rounds view hp' hviews hsent hstream hends =>
        refine .reading (rounds ++ [⟨view, c.session.streamBuffer⟩]) rfl ?_ ?_ ?_ hends
        · rw [List.map_append]
          exact hviews
        · rw [List.flatMap_append, List.flatMap_singleton, ← hsent]
          rfl
        · rw [hstream, List.flatMap_append, List.flatMap_singleton]
          simp [doWrite, Round.bytes]

/-- **No byte is lost, repeated or moved**, at any point of a connection's life. -/
theorem balanced_of_reaches {chunks : List Bytes} {c : Connection}
    (h : Reaches step (start chunks) c) : c.Balanced chunks.flatten :=
  h.of_invariant (fun _ _ hc hstep => step_balanced hc hstep) (balanced_start chunks)

/-! ### How a connection ends -/

/-- What a connection has to do before it reads the next chunk: up to a delimiter, a read
and a write. -/
def workload (c : Connection) : ℕ :=
  match c.pending with
  | .read _ => if (firstEnd crlfcrlf c.session.streamBuffer).isSome then 2 else 0
  | .write _ => 1

/-- What a connection still does. -/
def rank (c : Connection) : ℕ :=
  3 * c.incoming.length + c.workload

/-- Every step is one less to do. -/
theorem rank_lt_of_step {c c' : Connection} (h : c.step = .inl c') : c'.rank < c.rank := by
  obtain ⟨handler, chunk, incoming, hp, hend, hin, rfl⟩ |
    ⟨handler, bytes, request, h', hp, hend, -, rfl⟩ | ⟨toConsume, hp, rfl⟩ := step_cases h
  · have hlt : ∀ d : Connection, d.incoming = incoming → d.rank < c.rank := by
      intro d hd
      have hle : d.workload ≤ 2 := by
        unfold workload
        split
        · split <;> omega
        · omega
      unfold rank
      rw [hd, hin, List.length_cons]
      omega
    exact hlt _ rfl
  · have hwork : c.workload = 2 := by simp [workload, hp, hend]
    unfold rank
    rw [hwork]
    simp [workload]
  · have hwork : c.workload = 1 := by simp [workload, hp]
    unfold rank
    rw [hwork]
    simp [workload, doWrite, firstEnd]

/-- **A head is a message, or its session is lost**: it names a host without a port, or is
refused. -/
theorem head_cases {v : Bytes} (hv : firstEnd crlfcrlf v = some v.length) :
    Accepts .kReady v ∨ BadHost .kReady v ∨ ∃ e, Refused .kReady v e := by
  rcases data_cases Parser.rank_fresh v with h | ⟨R, n, -, hne, -⟩ |
    (⟨R, value, -, -, -, hne⟩ | h) | ⟨-, sl, hsl⟩ | h
  · exact .inl h
  · exact absurd (R.of_firstEnd hv).2 hne
  · exact absurd (R.of_firstEnd hv).2 hne
  · exact .inr (.inl h)
  · -- a line that breaks off behind `HTTP` ends with no line feed
    exfalso
    obtain ⟨x, y, hxy, hlen⟩ := exists_of_firstEnd hv
    have hy : y = [] := by
      have := congrArg List.length hxy
      simp only [List.length_append] at this
      exact List.eq_nil_of_length_eq_zero (by omega)
    have hfeed : v.getLast? = some 0x0A := by
      rw [hxy, hy, List.append_nil, List.getLast?_append]
      rfl
    have hname : (ascii "HTTP").getLast? = some 0x50 := by decide
    have hline : v = sl.method ++ sl.ws₁ :: (sl.path ++ [sl.ws₂]) ++ ascii "HTTP" := by
      rw [hsl]
      simp [StartLine.target]
    rw [hline, List.getLast?_append, hname] at hfeed
    cases hfeed
  · exact .inr (.inr h)

/-- A fresh request handler takes a message, and nothing else. -/
theorem parse_of_head {v : Bytes} (hv : firstEnd crlfcrlf v = some v.length) :
    (Accepts .kReady v ∧ ∃ r h, ({} : RequestHandler).parse v = some (.returned (some r), h)) ∨
      (BadHost .kReady v ∧ ∃ h, ({} : RequestHandler).parse v = some (.threw .lengthError, h)) ∨
      (∃ e, Refused .kReady v e) ∧
        ∃ h, ({} : RequestHandler).parse v = some (.returned none, h) := by
  have hne : v ≠ [] := by
    rintro rfl
    cases hv
  rcases head_cases hv with h | h | ⟨e, h⟩
  · refine .inl ⟨h, ?_⟩
    have hverdict := (verdict_message_iff (T := Request) (p := {}) Parser.rank_fresh v).mpr h
    obtain ⟨r, q, hq⟩ := verdict_eq_message_iff.mp hverdict
    exact ⟨r, RequestHandler.parse_eq_some_iff.mpr ⟨q, hq⟩⟩
  · obtain ⟨q, hq⟩ := parse_of_badHost (T := Request) (p := {}) Parser.rank_fresh h
    exact .inr (.inl ⟨h, ⟨q⟩, by rw [RequestHandler.parse, hq]⟩)
  · obtain ⟨q, hq⟩ := h.parse (T := Request) (p := {}) Parser.rank_fresh hne
    refine .inr (.inr ⟨⟨e, h⟩, ⟨q⟩, ?_⟩)
    rw [RequestHandler.parse, hq]
    simp

/-- A head and the request a fresh parser makes of it. -/
def Answered (v : Bytes) (r : Request) : Prop :=
  ∃ q, ({} : Parser).parse Request v = some (.returned (.ok r), q)

/-- A connection that runs: its parsers are all fresh, and every head so far was answered
with its request. -/
structure Served (c : Connection) : Prop where
  fresh : c.session.requestHandler = {}
  reads : ∀ handler, c.pending = .read handler → handler = {}
  ends : ∀ v ∈ c.views, firstEnd crlfcrlf v = some v.length
  answered : List.Forall₂ Answered c.views c.requests

/-- A new connection has served nothing yet. -/
theorem served_start (chunks : List Bytes) : (start chunks).Served where
  fresh := rfl
  reads := by
    rintro handler ⟨⟩
    rfl
  ends := by simp [start]
  answered := .nil

/-- **One step** serves one head, or none. -/
theorem step_served {c c' : Connection} (hc : c.Served) (h : c.step = .inl c') : c'.Served := by
  obtain ⟨handler, chunk, incoming, hp, -, hin, rfl⟩ |
    ⟨handler, bytes, request, h', hp, hend, hparse, rfl⟩ | ⟨toConsume, hp, rfl⟩ := step_cases h
  · exact ⟨hc.fresh, hc.reads, hc.ends, hc.answered⟩
  · obtain rfl := hc.reads handler hp
    refine ⟨hc.fresh, by simp, ?_, ?_⟩
    · intro v hv
      rcases List.mem_append.mp hv with hv | hv
      · exact hc.ends v hv
      · rw [List.mem_singleton.mp hv]
        exact firstEnd_view hend
    · refine List.rel_append hc.answered (.cons ?_ .nil)
      exact RequestHandler.parse_eq_some_iff.mp ⟨h', hparse⟩
  · refine ⟨hc.fresh, ?_, hc.ends, hc.answered⟩
    rintro handler ⟨⟩
    exact hc.fresh

/-- How a connection has ended: with the client's end of file behind the last message, or
in the read handler of a head that names a host without a port or is refused. -/
inductive Ended (c : Connection) : Close → Prop
  | eof (h : List.Forall₂ Answered c.views c.requests) : Ended c .eof
  | threw {vs : List Bytes} {v : Bytes} (hviews : c.views = vs ++ [v])
      (h : List.Forall₂ Answered vs c.requests) (hv : BadHost .kReady v) :
      Ended c (.threw .lengthError)
  | undefined {vs : List Bytes} {v : Bytes} {e : Errors} (hviews : c.views = vs ++ [v])
      (h : List.Forall₂ Answered vs c.requests) (hv : Refused .kReady v e) :
      Ended c .undefined

/-- The last step. -/
theorem step_ended {c c' : Connection} {close : Close} (hc : c.Served)
    (h : c.step = .inr (close, c')) : Ended c' close := by
  obtain ⟨handler, hp, ⟨-, -, rfl, rfl⟩ | ⟨bytes, hend, rfl, hclose⟩⟩ := step_ends h
  · exact .eof hc.answered
  · obtain rfl := hc.reads handler hp
    rcases parse_of_head (firstEnd_view hend) with ⟨-, r, h', hparse⟩ | ⟨hbad, h', hparse⟩ |
      ⟨⟨e, hrefused⟩, h', hparse⟩
    · simp [hparse] at hclose
    · obtain rfl : close = .threw .lengthError := by simpa [hparse] using hclose
      exact .threw rfl hc.answered hbad
    · obtain rfl : close = .undefined := by simpa [hparse] using hclose
      exact .undefined rfl hc.answered hrefused

/-- A connection is left within three steps a chunk and one more. -/
theorem exists_run_start (chunks : List Bytes) :
    ∃ r, run step (3 * chunks.length + 1) (start chunks) = some r := by
  have hrank : (start chunks).rank < 3 * chunks.length + 1 := by
    simp [rank, workload, start, firstEnd]
  exact exists_run_of_descend (I := fun _ => True) rank
    (fun _ _ _ h => ⟨trivial, rank_lt_of_step h⟩) trivial hrank

/-- How a connection ends. -/
theorem ended_of_exits {chunks : List Bytes} {close : Close} {c : Connection}
    (h : Exits step (start chunks) (close, c)) : Ended c close :=
  h.of_invariant (Q := fun r => Ended r.2 r.1) (fun _ _ hs h => step_served hs h)
    (fun _ _ hs h => step_ended hs h) (served_start chunks)

/-- **Every connection ends**, on any chunks, within three steps a chunk and one more. The
heads it handed to the parser are each answered with a request, save for the last one where
the session is lost: then that head names a host without a port, and the exception is a
`std::length_error`, or it is refused, and an empty optional is dereferenced. Nothing hangs,
and no other exception gets out. -/
theorem ends (chunks : List Bytes) :
    ∃ close c, run step (3 * chunks.length + 1) (start chunks) = some (close, c) ∧
      Ended c close := by
  obtain ⟨⟨close, c⟩, hrun⟩ := exists_run_start chunks
  exact ⟨close, c, hrun, ended_of_exits ⟨_, hrun⟩⟩

end Connection

end Camille
