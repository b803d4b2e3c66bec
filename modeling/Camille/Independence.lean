import Camille.Connection

/-!
# Requests Do Not Influence Each Other

A `Parser` serves one message, and a session owns a single one for its whole life. What
keeps the requests on a connection apart is where copies are taken: `DoRead` hands the
session's request handler to a read handler by reference, which stores it by value and
parses with the copy, so that the one in the session is never used.

## Main results

* `Connection.Untouched.step`: no operation touches the session's request handler.
* `Connection.views_of_run`: the views of the calls are those the connection saw.
* `Connection.parseCalls_fresh`: every call on a connection is answered as by a fresh
  parser, whatever came before it.
-/

open Lib

namespace Camille

/-- What `RequestHandler::Parse` makes of what its parser returned. -/
def requestOf : Option (ParseResult Request) → Option (Outcome (Option Request))
  | none => none
  | some (.threw e, _) => some (.threw e)
  | some (.undefined, _) => some .undefined
  | some (.returned (.error _), _) => some (.returned none)
  | some (.returned (.ok request), _) => some (.returned (some request))

/-- **A new handler hands on what a fresh parser returns.** -/
theorem RequestHandler.parse_fresh (data : Bytes) :
    (({} : RequestHandler).parse data).map Prod.fst =
      requestOf (({} : Parser).parse Request data) := by
  rw [RequestHandler.parse]
  rcases hp : ({} : Parser).parse Request data with - | ⟨⟨e | d⟩ | e | -, q⟩
  · rfl
  · simp only [requestOf]
    split <;> rfl
  · have hcomplete : q.complete = true := complete_of_parse Parser.rank_fresh hp
    simp [hcomplete, requestOf]
  · rfl
  · rfl

namespace Connection

/-- The call of `RequestHandler::Parse` that the next operation of a connection makes, if
any: the bytes it is handed, and how it ends. -/
def parseCall (c : Connection) : Option (Bytes × Option (Outcome (Option Request))) :=
  match c.pending with
  | .write _ => none
  | .read handler =>
    (firstEnd crlfcrlf c.session.streamBuffer).map fun bytes =>
      (c.session.streamBuffer.take bytes,
        (handler.parse (c.session.streamBuffer.take bytes)).map Prod.fst)

/-- The calls of `RequestHandler::Parse` within the first `n` operations, in order. -/
def parseCalls (n : ℕ) (c : Connection) : List (Bytes × Option (Outcome (Option Request))) :=
  (visited step n c).filterMap parseCall

/-- The session's request handler is as new, and so is the copy in a read handler. -/
def Untouched (c : Connection) : Prop :=
  c.session.requestHandler = {} ∧ ∀ handler, c.pending = .read handler → handler = {}

/-- A new connection has parsed nothing. -/
theorem untouched_start (chunks : List Bytes) : (start chunks).Untouched := by
  refine ⟨rfl, ?_⟩
  intro handler h
  exact (Pending.read.inj h).symm

/-- A read handler leaves the session's request handler alone. -/
theorem requestHandler_of_call {handler : RequestHandler} {session session' : Session}
    {bytes : ℕ} {request : Request}
    (h : ReadHandler.call handler session bytes = some (.returned (session', request))) :
    session'.requestHandler = session.requestHandler := by
  rw [ReadHandler.call] at h
  split at h
  · cases h
  · cases h
  · cases h
  · cases h
  · obtain ⟨rfl, -⟩ := Prod.mk.inj (Outcome.returned.inj (Option.some.inj h))
    rfl

/-- **No operation touches the session's request handler.** -/
theorem Untouched.step {c c' : Connection} (hc : c.Untouched)
    (h : Connection.step c = .inl c') : c'.Untouched := by
  obtain ⟨hsession, hpending⟩ := hc
  rw [Connection.step] at h
  split at h
  · rename_i handler hp
    rw [doRead] at h
    split at h
    · split at h
      · cases h
      · obtain rfl := Sum.inl.inj h
        exact ⟨hsession, hpending⟩
    · dsimp only at h
      split at h
      · cases h
      · cases h
      · cases h
      · rename_i session request hcall
        obtain rfl := Sum.inl.inj h
        refine ⟨(requestHandler_of_call hcall).trans hsession, ?_⟩
        intro handler h
        cases h
  · obtain rfl := Sum.inl.inj h
    refine ⟨hsession, ?_⟩
    intro handler h
    exact (Pending.read.inj h).symm.trans hsession

/-- The call of an untouched connection is answered as by a fresh parser. -/
theorem Untouched.parseCall_eq {c : Connection} (hc : c.Untouched) {view : Bytes}
    {result : Option (Outcome (Option Request))} (h : c.parseCall = some (view, result)) :
    result = requestOf (({} : Parser).parse Request view) := by
  rw [parseCall] at h
  split at h
  · cases h
  · rename_i handler hp
    obtain ⟨bytes, -, he⟩ := Option.map_eq_some_iff.mp h
    obtain ⟨rfl, rfl⟩ := Prod.mk.inj he
    rw [hc.2 handler hp]
    exact RequestHandler.parse_fresh _

/-- The views of the calls are those the connection saw. -/
theorem views_of_run {n : ℕ} {c c' : Connection} {close : Close}
    (h : run step n c = some (close, c')) :
    c'.views = c.views ++ (parseCalls n c).map Prod.fst := by
  -- the one view an operation adds is that of its call
  have hstep : ∀ d : Connection, (step d).elim (·.views) (·.2.views) =
      d.views ++ (d.parseCall.toList).map Prod.fst := by
    intro d
    rw [Connection.step, parseCall]
    cases hp : d.pending with
    | read handler =>
        dsimp only
        rw [doRead]
        split
        · rename_i hend
          split <;> simp [hend]
        · rename_i bytes hend
          dsimp only
          split <;> simp [hend]
    | write toConsume => simp [doWrite]
  induction n generalizing c with
  | zero => cases h
  | succ n ih =>
      have hviews := hstep c
      have hcalls : ∀ l : List Connection, (c :: l).filterMap parseCall =
          c.parseCall.toList ++ l.filterMap parseCall := by
        intro l
        cases hp : c.parseCall <;> simp [hp]
      rw [parseCalls, visited, hcalls, List.map_append, ← List.append_assoc]
      cases hs : step c with
      | inl d =>
          rw [run_succ_of_inl hs] at h
          rw [hs] at hviews
          rw [← hviews]
          exact ih h
      | inr r =>
          rw [run_succ_of_inr hs] at h
          obtain rfl := Option.some.inj h
          rw [hs] at hviews
          rw [← hviews]
          simp

/-- **Requests on one connection do not influence each other.** Over any number of reads,
the `k`-th call of `RequestHandler::Parse` is answered as a fresh parser answers the bytes
of its read; on two connections whose `k`-th reads are alike, whatever was read before, so
are the answers. -/
theorem parseCalls_fresh (chunks : List Bytes) (n k : ℕ) (view : Bytes)
    (result : Option (Outcome (Option Request)))
    (h : (parseCalls n (start chunks))[k]? = some (view, result)) :
    result = requestOf (({} : Parser).parse Request view) ∧
      ∀ chunks' n' result', (parseCalls n' (start chunks'))[k]? = some (view, result') →
        result' = result := by
  have hfresh : ∀ chunks n result, (parseCalls n (start chunks))[k]? = some (view, result) →
      result = requestOf (({} : Parser).parse Request view) := by
    intro chunks n result h
    obtain ⟨c, hc, hcall⟩ := List.mem_filterMap.mp (List.mem_of_getElem? h)
    have huntouched : c.Untouched :=
      (reaches_of_mem_visited hc).of_invariant (fun _ _ hd hstep => hd.step hstep)
        (untouched_start chunks)
    exact huntouched.parseCall_eq hcall
  refine ⟨hfresh chunks n result h, ?_⟩
  intro chunks' n' result' h'
  exact (hfresh chunks' n' result' h').trans (hfresh chunks n result h).symm

/-- Another request, to come first. -/
def otherRequest : Bytes :=
  ascii "PUT /b HTTP/1.0\r\nAccept: *\r\nHost: c:2\r\n\r\n"

/-- `parseCalls_fresh` on the second of two requests. -/
theorem parseCalls_secondRequest :
    some (.returned (some
        { host := ascii "a", port := ascii "1", path := ascii "/", method := ascii "GET",
          version := ascii "1.1", headers := [(kHost, ascii "a:1")],
          requestSize := plainRequest.length })) =
      requestOf (({} : Parser).parse Request plainRequest) :=
  (parseCalls_fresh [otherRequest, plainRequest] 6 1 plainRequest _ (by decide)).1

end Connection

end Camille
