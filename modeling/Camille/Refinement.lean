import Camille.Process
import Camille.Service

/-!
# The Process Refines the Service

`Process` has the sockets: every read and every write is an event, brings or takes what it
does, and can fail. `Service` has whole operations on chunks that are given from the start.
Whatever happens to a process whose sessions receive fewer than `2 ^ 31` bytes each, there is
a service with the same accepts, the clients of which send what the sockets brought, that
comes to the same: its sessions are where those of the process are, and it falls in the same
way or not at all.

What the service is told at an accept, the process learns one read at a time: the relation
looks at the events still to come.

## Main results

* `Process.refines`: every run of a process is a run of a service.
-/

open Lib

namespace Camille

namespace Process

/-- The chunks that the client of session `i` gets through. -/
def chunks (i : ℕ) (es : List Event) : List Bytes :=
  receivedChunks (socketEvents i es)

/-- The clients of a process with `n` sessions. -/
def clients (n : ℕ) (es : List Event) : List (List Bytes) :=
  (List.range n).map fun i => chunks i es

/-- One session more, one client more. -/
theorem clients_succ (n : ℕ) (es : List Event) :
    clients (n + 1) es = clients n es ++ [chunks n es] := by
  rw [clients, List.range_succ, List.map_append]
  rfl

/-- An event on the socket of a session is one of its own. -/
theorem socketEvents_self (i : ℕ) (e : SocketEvent) (es : List Event) :
    socketEvents i (.socket i e :: es) = e :: socketEvents i es := by
  simp [socketEvents, Event.own]

/-- It is none of another session. -/
theorem socketEvents_other {i j : ℕ} (hij : i ≠ j) (e : SocketEvent) (es : List Event) :
    socketEvents j (.socket i e :: es) = socketEvents j es := by
  simp [socketEvents, Event.own, hij]

/-- The events of two runs, one after the other. -/
theorem socketEvents_append (i : ℕ) (es es' : List Event) :
    socketEvents i (es ++ es') = socketEvents i es ++ socketEvents i es' :=
  List.filterMap_append

/-- Where a session of the process is, with `own` still to come on its socket, and where
that of the service: it runs, or has had its last turn. -/
inductive Stage (own : List SocketEvent) (t : Transport) : Connection ⊕ Close × Connection → Prop
  | running {c : Connection} (hfollows : t.Follows own c) : Stage own t (.inl c)
  | finished {c : Connection} {r : Close × Connection} {ending : SessionEnd}
      (hop : t.operation = .ended ending) (hshows : t.Shows c) (hlast : c.step = .inr r) :
      Stage own t (.inr r)

/-- The service behind the events `l`, beside a process that still has `rem` to come of
`es`. -/
structure Matches (server : Server) (es rem : List Event) (p : Process)
    (l : List Service.Event) (s : Service) : Prop where
  run : after Service.step { server := server } l = some s
  clients : Service.clients l = clients p.sessions.length es
  server : s.server = p.server
  fallen : s.fallen = p.fallen.map SessionEnd.close
  length : s.sessions.length = p.sessions.length
  stages : ∀ i t, p.sessions[i]? = some t →
    ∃ x, s.sessions[i]? = some x ∧ Stage (socketEvents i rem) t x

section Steps

variable {growth : Growth} {server : Server} {es rem : List Event} {p : Process}
  {l : List Service.Event} {s : Service}

/-- A new session, the socket of which had no event yet. -/
theorem accepted_matches {server' : Server} (h : Matches server es (.accepted :: rem) p l s)
    (hup : p.fallen = none) (hserver : p.server.handleAccept false = some server')
    (hnew : socketEvents p.sessions.length es = socketEvents p.sessions.length rem)
    (hshort : (received p.sessions.length es).length < 2 ^ 31) :
    ∃ l' s', Matches server es rem
      { p with server := server', sessions := p.sessions ++ [Transport.start growth] } l' s' := by
  have hsup : s.fallen = none := by rw [h.fallen, hup, Option.map_none]
  refine ⟨l ++ [.accepted (chunks p.sessions.length es)],
    { s with
      server := server'
      sessions := s.sessions ++ [.inl (.start (chunks p.sessions.length es))] }, ?_, ?_, rfl,
    h.fallen, ?_, ?_⟩
  · rw [after_concat_eq_some]
    exact ⟨s, h.run, by simp [Service.step, hsup, h.server, hserver]⟩
  · rw [Service.clients, List.filterMap_append, ← Service.clients, h.clients, List.length_append,
      List.length_singleton, clients_succ]
    rfl
  · rw [List.length_append, List.length_append, h.length]
    rfl
  · intro i t hi
    rcases Nat.lt_or_ge i p.sessions.length with hlt | hge
    · rw [List.getElem?_append_left hlt] at hi
      obtain ⟨x, hx, hstage⟩ := h.stages i t hi
      exact ⟨x, by rwa [List.getElem?_append_left (h.length ▸ hlt)], hstage⟩
    · rw [List.getElem?_append_right hge, List.getElem?_singleton] at hi
      split at hi
      · rename_i hzero
        obtain rfl := Option.some.inj hi
        obtain rfl : i = p.sessions.length := by omega
        refine ⟨.inl (.start (chunks p.sessions.length es)), ?_, .running ?_⟩
        · rw [List.getElem?_append_right h.length.le, h.length, Nat.sub_self]
          rfl
        · rw [chunks, hnew]
          rw [received, hnew] at hshort
          exact Transport.start_follows growth hshort
      · cases hi

/-- An accept that failed. -/
theorem acceptFailed_matches {server' : Server}
    (h : Matches server es (.acceptFailed :: rem) p l s) (hup : p.fallen = none)
    (hserver : p.server.handleAccept true = some server') :
    ∃ l' s', Matches server es rem { p with server := server' } l' s' := by
  have hsup : s.fallen = none := by rw [h.fallen, hup, Option.map_none]
  refine ⟨l ++ [.acceptFailed], { s with server := server' }, ?_, ?_, rfl, h.fallen, h.length,
    h.stages⟩
  · rw [after_concat_eq_some]
    exact ⟨s, h.run, by simp [Service.step, hsup, h.server, hserver]⟩
  · rw [Service.clients, List.filterMap_append, ← Service.clients, h.clients]
    exact List.append_nil _

/-- Some turns of the session that had an event. -/
theorem turned_matches {i : ℕ} {e : SocketEvent} {t t' : Transport}
    (h : Matches server es (.socket i e :: rem) p l s) (hi : p.sessions[i]? = some t)
    {l' : List Service.Event} {s' : Service} {x : Connection ⊕ Close × Connection}
    (hrun : after Service.step s l' = some s') (hclients : Service.clients l' = [])
    (hserver : s'.server = s.server) (hsessions : s'.sessions = s.sessions.set i x)
    (hfallen : s'.fallen = t'.fall.map SessionEnd.close)
    (hstage : Stage (socketEvents i rem) t' x) :
    Matches server es rem { p with sessions := p.sessions.set i t', fallen := t'.fall }
      (l ++ l') s' := by
  obtain ⟨hlt, -⟩ := List.getElem?_eq_some_iff.mp hi
  refine ⟨?_, ?_, hserver.trans h.server, hfallen, ?_, ?_⟩
  · rw [after_append, h.run]
    exact hrun
  · rw [Service.clients, List.filterMap_append, ← Service.clients, ← Service.clients, hclients,
      List.append_nil, h.clients, List.length_set]
  · rw [hsessions, List.length_set, List.length_set, h.length]
  · intro j u hj
    by_cases hij : i = j
    · subst hij
      rw [List.getElem?_set_self hlt] at hj
      obtain rfl := Option.some.inj hj
      exact ⟨x, by rw [hsessions, List.getElem?_set_self (h.length ▸ hlt)], hstage⟩
    · rw [List.getElem?_set_ne hij] at hj
      obtain ⟨y, hy, hother⟩ := h.stages j u hj
      rw [socketEvents_other hij] at hother
      exact ⟨y, by rw [hsessions, List.getElem?_set_ne hij, hy], hother⟩

/-- A read or a write on the socket of a session. -/
theorem socket_matches {i : ℕ} {e : SocketEvent} {t t' : Transport}
    (h : Matches server es (.socket i e :: rem) p l s) (hup : p.fallen = none)
    (hi : p.sessions[i]? = some t) (hstep : t.step growth e = some t') :
    ∃ l' s', Matches server es rem
      { p with sessions := p.sessions.set i t', fallen := t'.fall } l' s' := by
  have hsup : s.fallen = none := by rw [h.fallen, hup, Option.map_none]
  obtain ⟨x, hx, hstage⟩ := h.stages i t hi
  rw [socketEvents_self] at hstage
  cases hstage with
  | finished hop => simp [Transport.step, hop] at hstep
  | @running c hfollows =>
      obtain ⟨c', hreach, hfollows'⟩ := Transport.step_follows hfollows hstep
      obtain ⟨k, hk⟩ := hreach.exists_turns
      have hturns := Service.after_turns hsup hx hk
      have hclients : ∀ k, Service.clients (List.replicate k (.turn i)) = [] := by
        intro k
        simp [Service.clients, Service.Event.client]
      cases hfall : t'.fall with
      | none =>
          refine ⟨_, _, hfall ▸ turned_matches h hi hturns (hclients k) rfl rfl ?_
            (.running hfollows')⟩
          rw [hfall]
          exact hsup
      | some ending =>
          -- the service needs one more turn, in which the connection ends
          obtain ⟨hopen, c'', hlast, -⟩ := last_of_fall hfollows'.shows hfall
          obtain ⟨hlt, -⟩ := List.getElem?_eq_some_iff.mp hx
          have hend := Service.step_last_turn (s := { s with
            sessions := s.sessions.set i (.inl c') }) hsup (List.getElem?_set_self hlt) hlast
          rw [if_neg hopen] at hend
          have hrun : after Service.step s (List.replicate (k + 1) (.turn i)) = some { s with
              sessions := s.sessions.set i (.inr (ending.close, c''))
              fallen := some ending.close } := by
            rw [List.replicate_succ', after_concat_eq_some]
            refine ⟨_, hturns, hend.trans ?_⟩
            rw [List.set_set]
          refine ⟨_, _, hfall ▸ turned_matches h hi hrun (hclients (k + 1)) rfl rfl ?_
            (.finished (fall_cases hfall).1 hfollows'.shows hlast)⟩
          rw [hfall]
          rfl

end Steps

/-- **Every run of a process**, with fewer than `2 ^ 31` bytes received by each session, **is
a run of a service** with the same accepts and clients that send what the sockets brought.
The sessions of the service are where those of the process are, and it falls in the same way
or not at all. -/
theorem refines {growth : Growth} {server : Server} {es : List Event} {p : Process}
    (h : after (step growth) { server := server } es = some p)
    (hshort : ∀ i, (received i es).length < 2 ^ 31) :
    ∃ l s, after Service.step { server := server } l = some s ∧
      Service.clients l = clients p.sessions.length es ∧ s.server = p.server ∧
      s.fallen = p.fallen.map SessionEnd.close ∧
      ∀ (i : ℕ) (t : Transport), p.sessions[i]? = some t → ∃ c, t.Shows c ∧
        (s.sessions[i]? = some (.inl c) ∨
          ∃ r, c.step = .inr r ∧ s.sessions[i]? = some (.inr r)) := by
  have hmatches : ∀ (before rem : List Event) (p : Process), es = before ++ rem →
      after (step growth) { server := server } before = some p →
        ∃ l s, Matches server es rem p l s := by
    intro before
    induction before using List.reverseRecOn with
    | nil =>
        intro rem p _ hp
        obtain rfl := Option.some.inj hp
        exact ⟨[], { server := server }, rfl, rfl, rfl, rfl, rfl, by simp⟩
    | append_singleton before e ih =>
        intro rem p hes hp
        obtain ⟨p₁, h₁, hstep⟩ := after_concat_eq_some.mp hp
        obtain ⟨l, s, hm⟩ := ih (e :: rem) p₁ (by rw [hes, List.append_assoc]; rfl) h₁
        obtain ⟨hup, ⟨rfl, server', hserver, rfl⟩ | ⟨rfl, server', hserver, rfl⟩ |
          ⟨i, e', t, t', rfl, hi, hstep', rfl⟩⟩ := step_cases hstep
        · refine accepted_matches hm hup hserver ?_ (hshort _)
          rw [hes, List.append_assoc, socketEvents_append, socketEvents_of_after h₁ le_rfl]
          rfl
        · exact acceptFailed_matches hm hup hserver
        · exact socket_matches hm hup hi hstep'
  obtain ⟨l, s, hm⟩ := hmatches es [] p (List.append_nil es).symm h
  refine ⟨l, s, hm.run, hm.clients, hm.server, hm.fallen, fun i t hi => ?_⟩
  obtain ⟨x, hx, hstage⟩ := hm.stages i t hi
  cases hstage with
  | running hfollows => exact ⟨_, hfollows.shows, .inl hx⟩
  | finished hop hshows hlast => exact ⟨_, hshows, .inr ⟨_, hlast, hx⟩⟩

/-- `refines` on two sessions: the service of two clients that falls like them. -/
theorem refines_twoSessions :
    ∃ (server : Server) (l : List Service.Event) (s : Service),
      after Service.step { server := server } l = some s ∧
      Service.clients l = [[Connection.plainRequest], [[0x0D, 0x0A], [0x0D, 0x0A]]] ∧
      s.fallen = some .undefined := by
  obtain ⟨server, p, -, hafter, hfallen, hlength⟩ := after_twoSessions
  obtain ⟨l, s, hrun, hclients, -, hs, -⟩ := refines hafter length_received_twoSessions
  refine ⟨server, l, s, hrun, hclients.trans ?_, by rw [hs, hfallen]; rfl⟩
  rw [hlength]
  decide

end Process

end Camille
