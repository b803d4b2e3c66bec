import Camille.Lib.Family
import Camille.Pool
import Camille.Transport

/-!
# The Process on Its Sockets

`server::Server` with the sessions it started, each on its own stream buffer and its own
socket, down to the single socket read and write. Where `Service` has whole operations on
chunks that are given, here every read and every write of every session is an event, they
come in any order, and each of them can fail.

What is known of a session is known as long as its client sent fewer than `2 ^ 31` bytes:
beyond them its stream buffer consumes other bytes than it was asked to.

## Main results

* `Process.conserves`: no byte is lost, and none gets from one client to another.
* `Process.falls_iff`: when the process is lost, and by which head of which client.
* `Process.answers`: every head is parsed on its own.
-/

open Lib

namespace Camille

/-- The process: the server, its sessions in the order they were started, and how it
fell. -/
structure Process where
  server : Server
  sessions : List Transport := []
  fallen : Option SessionEnd := none

/-- How a session brings its process down: a handler did not return. A session that was
closed is destroyed, and nothing else. -/
def Transport.fall (t : Transport) : Option SessionEnd :=
  match t.operation with
  | .ended (.closed _) => none
  | .ended ending => some ending
  | _ => none

namespace Process

/-- The end of an accept, or of a read or a write on the socket of a session. -/
inductive Event
  | accepted
  | acceptFailed
  | socket (i : ℕ) (e : SocketEvent)
  deriving DecidableEq, Repr

/-- The process behind an event; `none` for an event that cannot happen. -/
def step (growth : Growth) (p : Process) (e : Event) : Option Process :=
  if p.fallen.isSome then none
  else
    match e with
    | .accepted => (p.server.handleAccept false).map fun server =>
        { p with server := server, sessions := p.sessions ++ [Transport.start growth] }
    | .acceptFailed => (p.server.handleAccept true).map fun server =>
        { p with server := server }
    | .socket i e => p.sessions[i]?.bind fun t => (t.step growth e).map fun t' =>
        { p with sessions := p.sessions.set i t', fallen := t'.fall }

/-- The event, when it is on the socket of session `i`. -/
def Event.own (i : ℕ) : Event → Option SocketEvent
  | socket j e => if j = i then some e else none
  | _ => none

/-- The events on the socket of session `i`, in order. -/
def socketEvents (i : ℕ) (es : List Event) : List SocketEvent :=
  es.filterMap (Event.own i)

/-- The bytes that the client of session `i` got through. -/
def received (i : ℕ) (es : List Event) : Bytes :=
  (socketEvents i es).flatMap SocketEvent.received

section Runs

variable {growth : Growth} {server : Server} {es : List Event} {p : Process}

/-- What an event can do: an accept, or an event of one session. -/
theorem step_cases {p' : Process} {e : Event} (h : p.step growth e = some p') :
    p.fallen = none ∧
      ((e = .accepted ∧ ∃ server, p.server.handleAccept false = some server ∧
          p' = { p with server := server, sessions := p.sessions ++ [Transport.start growth] }) ∨
        (e = .acceptFailed ∧ ∃ server, p.server.handleAccept true = some server ∧
          p' = { p with server := server }) ∨
        ∃ i e' t t', e = .socket i e' ∧ p.sessions[i]? = some t ∧
          t.step growth e' = some t' ∧
          p' = { p with sessions := p.sessions.set i t', fallen := t'.fall }) := by
  have hup : p.fallen = none := by
    by_contra hdown
    unfold step at h
    rw [if_pos (Option.isSome_iff_ne_none.mpr hdown)] at h
    cases h
  refine ⟨hup, ?_⟩
  unfold step at h
  rw [hup] at h
  cases e with
  | accepted =>
      obtain ⟨server, hserver, rfl⟩ := Option.map_eq_some_iff.mp h
      exact .inl ⟨rfl, server, hserver, by rw [hup]⟩
  | acceptFailed =>
      obtain ⟨server, hserver, rfl⟩ := Option.map_eq_some_iff.mp h
      exact .inr (.inl ⟨rfl, server, hserver, by rw [hup]⟩)
  | socket i e' =>
      obtain ⟨t, hi, ht⟩ := Option.bind_eq_some_iff.mp h
      obtain ⟨t', hstep, rfl⟩ := Option.map_eq_some_iff.mp ht
      exact .inr (.inr ⟨i, e', t, t', rfl, hi, hstep, rfl⟩)

/-! ### Sessions on their own -/

/-- What an event is to the sessions. -/
def Event.ofSessions (growth : Growth) : Event → Option (FamilyEvent Transport SocketEvent)
  | accepted => some (.added (.start growth))
  | acceptFailed => none
  | socket i e => some (.member i e)

/-- The events of a session are those of its socket. -/
theorem ownEvents_ofSessions (growth : Growth) (i : ℕ) (es : List Event) :
    ownEvents i (es.filterMap (Event.ofSessions growth)) = socketEvents i es := by
  rw [ownEvents, List.filterMap_filterMap, socketEvents]
  refine congrArg (es.filterMap ·) (funext fun e => ?_)
  cases e <;> rfl

/-- Every session begins at the start. -/
theorem eq_start_of_mem {t : Transport}
    (ht : t ∈ inits (es.filterMap (Event.ofSessions growth))) : t = .start growth := by
  rw [inits, List.filterMap_filterMap, List.mem_filterMap] at ht
  obtain ⟨e, -, he⟩ := ht
  cases e with
  | accepted => exact (Option.some.inj he).symm
  | acceptFailed | socket _ _ => cases he

/-- The sessions are a family: they share nothing. -/
theorem family_of_after (h : after (step growth) { server := server } es = some p) :
    after (familyStep (Transport.step growth)) [] (es.filterMap (Event.ofSessions growth)) =
      some p.sessions := by
  induction es using List.reverseRecOn generalizing p with
  | nil =>
      obtain rfl := Option.some.inj h
      rfl
  | append_singleton es e ih =>
      obtain ⟨p₁, h₁, hstep⟩ := after_concat_eq_some.mp h
      rw [List.filterMap_append, after_append, ih h₁, Option.bind_some]
      obtain ⟨-, ⟨rfl, server, -, rfl⟩ | ⟨rfl, server, -, rfl⟩ |
        ⟨i, e', t, t', rfl, hi, hstep', rfl⟩⟩ := step_cases hstep
      · rfl
      · rfl
      · simp [Event.ofSessions, after, familyStep, hi, hstep']

/-- **A session is where the events of its own socket take it**, whatever the others do. -/
theorem session_of_after (h : after (step growth) { server := server } es = some p) {i : ℕ}
    {t : Transport} (hi : p.sessions[i]? = some t) :
    after (Transport.step growth) (.start growth) (socketEvents i es) = some t := by
  have heach := (onTheirOwn_of_after (family_of_after h)).each i
  obtain ⟨t₀, ht₀, hafter⟩ := Option.bind_eq_some_iff.mp (heach.symm.trans hi)
  rw [eq_start_of_mem (List.mem_of_getElem? ht₀), ownEvents_ofSessions] at hafter
  exact hafter

/-- There were no events on the sockets of sessions to come. -/
theorem socketEvents_of_after (h : after (step growth) { server := server } es = some p) {i : ℕ}
    (hi : p.sessions.length ≤ i) : socketEvents i es = [] := by
  rw [← ownEvents_ofSessions growth]
  exact (onTheirOwn_of_after (family_of_after h)).idle i hi

/-- **No byte is lost, and none gets from one client to another.** Whatever the sockets of
all the sessions do, in whatever order: what a session received, as long as it is fewer than
`2 ^ 31` bytes, is a sequence of rounds, each a head that was handed to its parser and the
bytes it sent back behind it, and what its stream buffer holds; of the last head's echo, a
part may be sent. -/
theorem conserves (h : after (step growth) { server := server } es = some p) {i : ℕ}
    {t : Transport} (hi : p.sessions[i]? = some t) (hshort : (received i es).length < 2 ^ 31) :
    t.Balanced (received i es) :=
  Transport.balanced_of_after growth (session_of_after h hi) hshort

/-- Two sessions: the first has served a request, and the second is brought down by an empty
line that came in two reads, one of them between the read and the write of the first. -/
def twoSessions : List Event :=
  [.accepted, .accepted,
    .socket 1 (.read (.received [0x0D, 0x0A])),
    .socket 0 (.read (.received Connection.plainRequest)),
    .socket 0 (.write (.wrote [])),
    .socket 1 (.read (.received [0x0D, 0x0A]))]

set_option maxRecDepth 1000 in
/-- The run is one of the process. -/
theorem after_twoSessions :
    ∃ server p, Server.new "::1" 80 2 = some server ∧
      after (step Growth.doubling) { server := server } twoSessions = some p ∧
        p.fallen = some .undefined ∧ p.sessions.length = 2 := by
  have hsome : ((Server.new "::1" 80 2).bind fun server =>
      (after (step Growth.doubling) { server := server } twoSessions).map fun p =>
        (p.fallen, p.sessions.length)) = some (some .undefined, 2) := by
    decide
  obtain ⟨server, hserver, hp⟩ := Option.bind_eq_some_iff.mp hsome
  obtain ⟨p, hafter, hfallen⟩ := Option.map_eq_some_iff.mp hp
  obtain ⟨hfallen, hlength⟩ := Prod.mk.inj hfallen
  exact ⟨server, p, hserver, hafter, hfallen, hlength⟩

/-- Both sessions receive little. -/
theorem length_received_twoSessions (i : ℕ) : (received i twoSessions).length < 2 ^ 31 := by
  rcases i with - | - | i
  · decide
  · decide
  · simp [received, socketEvents, twoSessions, Event.own, List.filterMap_cons]

/-- `conserves` on the first of two sessions. -/
theorem conserves_twoSessions :
    ∃ (server : Server) (p : Process) (t : Transport),
      after (step Growth.doubling) { server := server } twoSessions = some p ∧
      p.sessions[0]? = some t ∧ t.Balanced Connection.plainRequest := by
  obtain ⟨server, p, -, hafter, -, hlength⟩ := after_twoSessions
  have hreceived : received 0 twoSessions = Connection.plainRequest := by decide
  have hi : p.sessions[0]? = some p.sessions[0] := List.getElem?_eq_getElem (by omega)
  have hbalanced := conserves hafter hi (length_received_twoSessions 0)
  rw [hreceived] at hbalanced
  exact ⟨server, p, _, hafter, hi, hbalanced⟩

/-! ### How the process falls -/

/-- A session that was just started has not fallen. -/
theorem fall_start (growth : Growth) : (Transport.start growth).fall = none := by
  have hshort : (Streambuf.new growth sizeMax).data.length < notFound := by
    rw [Streambuf.data_new]
    decide
  obtain ⟨op, hop, -⟩ :=
    ReadUntil.start_stands growth (show crlfcrlf ≠ [] by decide) hshort
  rw [Transport.start, Transport.doRead, hop, Transport.proceed_returned]
  rfl

/-- A process falls with the first of its sessions that does. -/
theorem step_fallsWith {p' : Process} {e : Event}
    (hp : FallsWith Transport.fall p.sessions p.fallen) (h : p.step growth e = some p') :
    FallsWith Transport.fall p'.sessions p'.fallen := by
  obtain ⟨hup, hcases⟩ := step_cases h
  rw [hup] at hp
  rcases hcases with ⟨-, server, -, rfl⟩ | ⟨-, server, -, rfl⟩ | ⟨i, e', t, t', -, hi, -, rfl⟩
  · dsimp only
    rw [hup]
    exact hp.added (fall_start growth)
  · dsimp only
    rw [hup]
    exact hp
  · exact hp.set hi t'

/-- A process falls by one of its sessions. -/
theorem fallsWith_of_after (h : after (step growth) { server := server } es = some p) :
    FallsWith Transport.fall p.sessions p.fallen :=
  invariant_of_after (I := fun p => FallsWith Transport.fall p.sessions p.fallen)
    (fun _ _ _ hp hstep => step_fallsWith hp hstep) h fallsWith_nil

/-- A session that fell has ended, and not because it was closed. -/
theorem fall_cases {t : Transport} {ending : SessionEnd} (hfall : t.fall = some ending) :
    t.operation = .ended ending ∧ ∀ ec, ending ≠ .closed ec := by
  rw [Transport.fall] at hfall
  cases hop : t.operation with
  | idle | reading _ _ | writing _ _ => simp [hop] at hfall
  | ended ending' =>
      cases ending' with
      | closed ec => simp [hop] at hfall
      | hangs | threw _ | undefined =>
          simp only [hop, Option.some.injEq] at hfall
          subst hfall
          exact ⟨rfl, by simp⟩

/-- A session that fell shows a connection at its last step. -/
theorem last_of_fall {t : Transport} {c : Connection} {ending : SessionEnd} (hshows : t.Shows c)
    (hfall : t.fall = some ending) :
    ending.close ≠ .eof ∧ ∃ c', c.step = .inr (ending.close, c') ∧ t.Agrees c' := by
  obtain ⟨hop, hopen⟩ := fall_cases hfall
  refine ⟨?_, ?_⟩
  · cases ending with
    | closed ec => exact absurd rfl (hopen ec)
    | hangs | threw _ | undefined => simp [SessionEnd.close]
  · cases hshows with
    | reading hop' => exact absurd (hop.symm.trans hop') (by simp)
    | writing hop' => exact absurd (hop.symm.trans hop') (by simp)
    | readFailed hop' =>
        exact absurd (Operation.ended.inj (hop.symm.trans hop')) (hopen _)
    | writeFailed hop' =>
        exact absurd (Operation.ended.inj (hop.symm.trans hop')) (hopen _)
    | @lost ending' c' hop' hstep hsent hagrees =>
        obtain rfl := Operation.ended.inj (hop.symm.trans hop')
        exact ⟨c', hstep, hagrees⟩

/-- How a session falls: in the read handler of a head that names a host without a port or
is refused. -/
theorem fall_eq_some_iff {t : Transport} {events : List SocketEvent}
    (h : after (Transport.step growth) (Transport.start growth) events = some t)
    (hshort : (events.flatMap SocketEvent.received).length < 2 ^ 31) (ending : SessionEnd) :
    t.fall = some ending ↔ t.operation = .ended ending ∧ ∃ v, t.views.getLast? = some v ∧
      ((ending = .threw .lengthError ∧ BadHost .kReady v) ∨
        (ending = .undefined ∧ ∃ e, Refused .kReady v e)) := by
  constructor
  · intro hfall
    refine ⟨(fall_cases hfall).1, ?_⟩
    obtain ⟨c, hreach, hshows, -, -⟩ := Transport.follows_of_after growth h hshort
    obtain ⟨hopen, c', hstep, hagrees⟩ := last_of_fall hshows hfall
    have hexits : Exits Connection.step (.start (receivedChunks events)) (ending.close, c') :=
      (hreach.exits_iff _).mpr ((exits_iff_of_inr hstep).mpr rfl)
    have hended := Connection.ended_of_exits hexits
    rw [hagrees.views]
    generalize hclose : ending.close = close at hended hopen
    cases hended with
    | eof => exact absurd rfl hopen
    | threw hviews _ hv =>
        cases ending with
        | threw e =>
            cases hclose
            exact ⟨_, by simp [hviews], .inl ⟨rfl, hv⟩⟩
        | closed ec | hangs | undefined => cases hclose
    | undefined hviews _ hv =>
        cases ending with
        | undefined => exact ⟨_, by simp [hviews], .inr ⟨rfl, _, hv⟩⟩
        | closed ec | hangs | threw e => cases hclose
  · rintro ⟨hop, v, -, ⟨rfl, -⟩ | ⟨rfl, -⟩⟩ <;> simp [Transport.fall, hop]

/-- **When a process falls**, whatever its sockets do, in whatever order, with fewer than
`2 ^ 31` bytes received by each session: as soon as the last head that one of them handed to
its parser names a host without a port, or is refused. Reads and writes that fail do not
bring it down, nor does anything else. -/
theorem falls_iff (h : after (step growth) { server := server } es = some p)
    (hshort : ∀ i, (received i es).length < 2 ^ 31) (ending : SessionEnd) :
    p.fallen = some ending ↔
      ∃ (i : ℕ) (t : Transport) (v : Bytes), p.sessions[i]? = some t ∧
        t.operation = .ended ending ∧ t.views.getLast? = some v ∧
        ((ending = .threw .lengthError ∧ BadHost .kReady v) ∨
          (ending = .undefined ∧ ∃ e, Refused .kReady v e)) := by
  rw [fallsWith_of_after h ending]
  constructor
  · rintro ⟨t, ht, hfall⟩
    obtain ⟨i, hi⟩ := List.mem_iff_getElem?.mp ht
    obtain ⟨hop, v, hlast, hv⟩ :=
      (fall_eq_some_iff (session_of_after h hi) (hshort i) ending).mp hfall
    exact ⟨i, t, v, hi, hop, hlast, hv⟩
  · rintro ⟨i, t, v, hi, hop, hlast, hv⟩
    exact ⟨t, List.mem_of_getElem? hi,
      (fall_eq_some_iff (session_of_after h hi) (hshort i) ending).mpr ⟨hop, v, hlast, hv⟩⟩

/-- `falls_iff` on two sessions. -/
theorem falls_twoSessions :
    ∃ (server : Server) (p : Process) (i : ℕ) (t : Transport) (v : Bytes),
      after (step Growth.doubling) { server := server } twoSessions = some p ∧
      p.sessions[i]? = some t ∧ t.operation = .ended .undefined ∧
      t.views.getLast? = some v ∧ ∃ e, Refused .kReady v e := by
  obtain ⟨server, p, -, hafter, hfallen, -⟩ := after_twoSessions
  obtain ⟨i, t, v, hi, hop, hlast, hv⟩ :=
    (falls_iff hafter length_received_twoSessions .undefined).mp hfallen
  rcases hv with ⟨hthrew, -⟩ | ⟨-, hv⟩
  · cases hthrew
  · exact ⟨server, p, i, t, v, hafter, hi, hop, hlast, hv⟩

/-! ### What becomes of the heads -/

/-- The connection that a session shows has parsers that are all fresh. -/
theorem served_of_after {t : Transport} {events : List SocketEvent}
    (h : after (Transport.step growth) (.start growth) events = some t)
    (hshort : (events.flatMap SocketEvent.received).length < 2 ^ 31) :
    ∃ c, t.Shows c ∧ c.Served := by
  obtain ⟨c, hreach, hfollows⟩ := Transport.follows_of_after growth h hshort
  exact ⟨c, hfollows.shows,
    hreach.of_invariant (fun _ _ hc hstep => Connection.step_served hc hstep)
      (Connection.served_start _)⟩

/-- **Every head is parsed on its own.** Whatever the sockets of all the sessions do, in
whatever order: the requests of a session that received fewer than `2 ^ 31` bytes are what
fresh parsers make of its heads, one after the other, and where it has fallen of all its
heads but the last. -/
theorem answers (h : after (step growth) { server := server } es = some p) {i : ℕ}
    {t : Transport} (hi : p.sessions[i]? = some t) (hshort : (received i es).length < 2 ^ 31) :
    (t.fall = none ∧ List.Forall₂ Connection.Answered t.views t.requests) ∨
      t.fall ≠ none ∧ ∃ vs v, t.views = vs ++ [v] ∧
        List.Forall₂ Connection.Answered vs t.requests := by
  obtain ⟨c, hshows, hserved⟩ := served_of_after (session_of_after h hi) hshort
  cases hfall : t.fall with
  | none =>
      refine .inl ⟨rfl, ?_⟩
      cases hshows with
      | reading _ _ _ _ hagrees
      | writing _ _ _ _ _ _ hagrees
      | readFailed _ _ _ _ hagrees
      | writeFailed _ _ _ _ _ hagrees =>
          rw [hagrees.views, hagrees.requests]
          exact hserved.answered
      | @lost ending c' hop hstep _ hagrees =>
          cases ending with
          | closed ec =>
              have hended : Connection.Ended c' .eof := Connection.step_ended hserved hstep
              cases hended with
              | eof hanswered =>
                  rw [hagrees.views, hagrees.requests]
                  exact hanswered
          | hangs | threw _ | undefined => simp [Transport.fall, hop] at hfall
  | some ending =>
      obtain ⟨hopen, c', hstep, hagrees⟩ := last_of_fall hshows hfall
      refine .inr ⟨by simp, ?_⟩
      rw [hagrees.views, hagrees.requests]
      generalize ending.close = close at hstep hopen
      cases Connection.step_ended hserved hstep with
      | eof => exact absurd rfl hopen
      | threw hviews hanswered | undefined hviews hanswered => exact ⟨_, _, hviews, hanswered⟩

/-- `answers` on the first of two sessions. -/
theorem answers_twoSessions :
    ∃ (server : Server) (p : Process) (t : Transport),
      after (step Growth.doubling) { server := server } twoSessions = some p ∧
      p.sessions[0]? = some t ∧
      ((t.fall = none ∧ List.Forall₂ Connection.Answered t.views t.requests) ∨
        t.fall ≠ none ∧ ∃ vs v, t.views = vs ++ [v] ∧
          List.Forall₂ Connection.Answered vs t.requests) := by
  obtain ⟨server, p, -, hafter, -, hlength⟩ := after_twoSessions
  have hi : p.sessions[0]? = some p.sessions[0] := List.getElem?_eq_getElem (by omega)
  exact ⟨server, p, _, hafter, hi, answers hafter hi (length_received_twoSessions 0)⟩

end Runs

end Process

end Camille
