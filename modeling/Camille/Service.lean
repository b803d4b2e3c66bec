import Camille.Fate
import Camille.Lib.Family
import Camille.Rotation

/-!
# The Server and Its Sessions

`server::Server` with the sessions it started, each on its own connection. Every handler
runs to its end on the thread of its session's context, and sessions share no data, so that
any run of the process is an interleaving of accepts and of turns of the sessions. An
exception that leaves a read handler leaves `io_context::run` and the function of its
thread, which ends the process; behind undefined behaviour nothing is known of it either.

## Main results

* `Service.sessions_of_after`: every session is where its own turns take it.
* `Service.fallen_iff`: when the process is lost, and by which head.
* `Service.survives_iff`: which clients a process survives, in any order of turns.
-/

open Lib

namespace Camille

/-- The process: the server, its sessions in the order they were started, and how the
process fell. -/
structure Service where
  server : Server
  sessions : List (Connection ⊕ Close × Connection) := []
  fallen : Option Close := none

namespace Service

/-- How a session brings its process down: not by the end of file of its client. -/
def fall : Connection ⊕ Close × Connection → Option Close
  | .inl _ => none
  | .inr (close, _) => if close = .eof then none else some close

/-- An accept that succeeded, with the chunks its client will send, an accept that failed,
or a turn of a session: one socket read, read handler or write. -/
inductive Event
  | accepted (chunks : List Bytes)
  | acceptFailed
  | turn (i : ℕ)
  deriving DecidableEq, Repr

/-- The process behind an event; `none` for an event that cannot happen. -/
def step (s : Service) (e : Event) : Option Service :=
  if s.fallen.isSome then none
  else
    match e with
    | .accepted chunks => (s.server.handleAccept false).map fun server =>
        { s with server := server, sessions := s.sessions ++ [.inl (.start chunks)] }
    | .acceptFailed => (s.server.handleAccept true).map fun server =>
        { s with server := server }
    | .turn i =>
      match s.sessions[i]? with
      | some (.inl c) =>
        match c.step with
        | .inl c' => some { s with sessions := s.sessions.set i (.inl c') }
        | .inr (close, c') =>
          some { s with
            sessions := s.sessions.set i (.inr (close, c'))
            fallen := if close = .eof then none else some close }
      | _ => none

/-- The client of an event. -/
def Event.client : Event → Option (List Bytes)
  | accepted chunks => some chunks
  | _ => none

/-- The chunks of the clients, in the order they were accepted. -/
def clients (es : List Event) : List (List Bytes) :=
  es.filterMap Event.client

/-- Session `i` on its own, after as many turns as it had. -/
def alone (es : List Event) (i : ℕ) (chunks : List Bytes) : Connection ⊕ Close × Connection :=
  turns Connection.step (es.count (.turn i)) (.inl (.start chunks))

/-! ### One event -/

/-- What an event can do: an accept, or a turn of a session that runs. -/
theorem step_cases {s s' : Service} {e : Event} (h : s.step e = some s') :
    s.fallen = none ∧
      ((∃ chunks, e = .accepted chunks ∧ s'.fallen = none ∧
          s'.sessions = s.sessions ++ [.inl (.start chunks)]) ∨
        (e = .acceptFailed ∧ s'.fallen = none ∧ s'.sessions = s.sessions) ∨
        ∃ i c, e = .turn i ∧ s.sessions[i]? = some (.inl c) ∧
          s'.sessions = s.sessions.set i c.step ∧ s'.fallen = fall c.step) := by
  have hup : s.fallen = none := by
    by_contra hdown
    unfold step at h
    rw [if_pos (Option.isSome_iff_ne_none.mpr hdown)] at h
    cases h
  refine ⟨hup, ?_⟩
  unfold step at h
  rw [hup] at h
  cases e with
  | accepted chunks =>
      obtain ⟨server, -, rfl⟩ := Option.map_eq_some_iff.mp h
      exact .inl ⟨chunks, rfl, rfl, rfl⟩
  | acceptFailed =>
      obtain ⟨server, -, rfl⟩ := Option.map_eq_some_iff.mp h
      exact .inr (.inl ⟨rfl, rfl, rfl⟩)
  | turn i =>
      refine .inr (.inr ?_)
      rcases hi : s.sessions[i]? with - | c | r
      · simp [hi] at h
      · refine ⟨i, c, rfl, hi, ?_⟩
        rcases hc : c.step with c' | ⟨close, c'⟩ <;> simp only [hi, hc] at h <;>
          obtain rfl := Option.some.inj h
        · exact ⟨rfl, rfl⟩
        · exact ⟨rfl, rfl⟩
      · simp [hi] at h

/-! ### Sessions on their own -/

/-- A turn of a session that runs. -/
def turnStep : Connection ⊕ Close × Connection → Unit → Option (Connection ⊕ Close × Connection)
  | .inl c, _ => some c.step
  | .inr _, _ => none

/-- A run of turns is that many turns. -/
theorem eq_turns_of_after {x y : Connection ⊕ Close × Connection} {us : List Unit}
    (h : after turnStep x us = some y) : y = turns Connection.step us.length x := by
  induction us using List.reverseRecOn generalizing y with
  | nil => exact (Option.some.inj h).symm
  | append_singleton us u ih =>
      obtain ⟨z, hz, hstep⟩ := after_concat_eq_some.mp h
      rw [List.length_append, List.length_singleton, turns_succ, ← ih hz]
      cases z with
      | inl c => exact (Option.some.inj hstep).symm
      | inr r => cases hstep

/-- What an event is to the sessions. -/
def Event.ofSessions : Event → Option (FamilyEvent (Connection ⊕ Close × Connection) Unit)
  | accepted chunks => some (.added (.inl (.start chunks)))
  | acceptFailed => none
  | turn i => some (.member i ())

/-- Every session begins with the chunks of its client. -/
theorem inits_ofSessions (es : List Event) :
    inits (es.filterMap Event.ofSessions) =
      (clients es).map fun chunks => .inl (.start chunks) := by
  rw [inits, List.filterMap_filterMap, clients, List.map_filterMap]
  refine congrArg (es.filterMap ·) (funext fun e => ?_)
  cases e <;> rfl

/-- A session has as many events as turns. -/
theorem length_ownEvents (i : ℕ) (es : List Event) :
    (ownEvents i (es.filterMap Event.ofSessions)).length = es.count (.turn i) := by
  induction es with
  | nil => rfl
  | cons e es ih =>
      rw [List.count_cons, ← ih]
      cases e with
      | accepted chunks | acceptFailed => rfl
      | turn j =>
          by_cases hij : j = i <;> simp [ownEvents, Event.ofSessions, FamilyEvent.own, hij]

/-- The sessions are a family: they share nothing. -/
theorem family_of_after {server : Server} {es : List Event} {s : Service}
    (h : after step { server := server } es = some s) :
    after (familyStep turnStep) [] (es.filterMap Event.ofSessions) = some s.sessions := by
  induction es using List.reverseRecOn generalizing s with
  | nil =>
      obtain rfl := Option.some.inj h
      rfl
  | append_singleton es e ih =>
      obtain ⟨s₁, hs₁, hstep⟩ := after_concat_eq_some.mp h
      rw [List.filterMap_append, after_append, ih hs₁, Option.bind_some]
      obtain ⟨-, ⟨chunks, rfl, -, hs⟩ | ⟨rfl, -, hs⟩ | ⟨i, c, rfl, hi, hs, -⟩⟩ := step_cases hstep
      · rw [hs]
        rfl
      · rw [hs]
        rfl
      · rw [hs]
        simp [Event.ofSessions, after, familyStep, turnStep, hi]

/-- Every session is that of its client alone. -/
theorem sessions_alone {server : Server} {es : List Event} {s : Service}
    (h : after step { server := server } es = some s) (i : ℕ) :
    s.sessions[i]? = (clients es)[i]?.map (alone es i) := by
  have hown := onTheirOwn_of_after (family_of_after h)
  have heach := hown.each i
  rw [inits_ofSessions, List.getElem?_map] at heach
  cases hclient : (clients es)[i]? with
  | none =>
      rw [heach, hclient]
      rfl
  | some chunks =>
      obtain ⟨hlt, -⟩ := List.getElem?_eq_some_iff.mp hclient
      have hthere : i < s.sessions.length := by
        rwa [hown.length, inits_ofSessions, List.length_map]
      rw [hclient] at heach
      rw [List.getElem?_eq_getElem hthere] at heach ⊢
      rw [eq_turns_of_after heach.symm, length_ownEvents]
      rfl

/-- **Every session is where its own turns take it**, whatever the others do: its
connection is that of its client alone, after as many steps as it had turns. -/
theorem sessions_of_after {server : Server} {es : List Event} {s : Service}
    (h : after step { server := server } es = some s) (i : ℕ) :
    s.sessions[i]? = (clients es)[i]?.map fun chunks =>
      turns Connection.step (es.count (.turn i)) (.inl (.start chunks)) := by
  rw [sessions_alone h]
  rfl

/-- A process with one context that serves one client and is brought down by another. -/
def twoClients : List Event :=
  [.accepted [Connection.plainRequest], .accepted [crlfcrlf], .turn 0, .turn 1, .turn 0, .turn 1]

/-- The run is one of the service. -/
theorem after_twoClients :
    ∃ server s, Server.new "::1" 80 1 = some server ∧
      after step { server := server } twoClients = some s := by
  have hsome : ((Server.new "::1" 80 1).bind fun server =>
      after step { server := server } twoClients).isSome := by
    decide
  obtain ⟨s, hs⟩ := Option.isSome_iff_exists.mp hsome
  obtain ⟨server, hserver, hafter⟩ := Option.bind_eq_some_iff.mp hs
  exact ⟨server, s, hserver, hafter⟩

/-- `sessions_of_after` on the first of two clients. -/
theorem sessions_twoClients :
    ∃ (server : Server) (s : Service), Server.new "::1" 80 1 = some server ∧
      after step { server := server } twoClients = some s ∧
      s.sessions[0]? =
        some (turns Connection.step 2 (.inl (.start [Connection.plainRequest]))) := by
  obtain ⟨server, s, hserver, hafter⟩ := after_twoClients
  exact ⟨server, s, hserver, hafter, sessions_of_after hafter 0⟩

/-! ### How a process falls -/

/-- A process falls with the first of its sessions that does. -/
theorem step_fallsWith {s s' : Service} {e : Event} (hs : FallsWith fall s.sessions s.fallen)
    (h : s.step e = some s') : FallsWith fall s'.sessions s'.fallen := by
  obtain ⟨hup, hcases⟩ := step_cases h
  rw [hup] at hs
  rcases hcases with ⟨chunks, -, hf, hs'⟩ | ⟨-, hf, hs'⟩ | ⟨i, c, -, hi, hs', hf⟩
  · rw [hs', hf]
    exact hs.added rfl
  · rw [hs', hf]
    exact hs
  · rw [hs', hf]
    exact hs.set hi c.step

/-- The session a process fell with, on its own. -/
theorem fallen_iff_alone {server : Server} {es : List Event} {s : Service}
    (h : after step { server := server } es = some s) (close : Close) :
    s.fallen = some close ↔ ∃ i chunks c, (clients es)[i]? = some chunks ∧
      alone es i chunks = .inr (close, c) ∧ close ≠ .eof := by
  have hfalls : FallsWith fall s.sessions s.fallen :=
    invariant_of_after (I := fun s => FallsWith fall s.sessions s.fallen)
      (fun _ _ _ hs hstep => step_fallsWith hs hstep) h fallsWith_nil
  rw [hfalls close]
  constructor
  · rintro ⟨x, hx, hfall⟩
    obtain ⟨i, hi⟩ := List.mem_iff_getElem?.mp hx
    rw [sessions_alone h] at hi
    obtain ⟨chunks, hchunks, rfl⟩ := Option.map_eq_some_iff.mp hi
    rcases halone : alone es i chunks with c | ⟨close', c⟩
    · rw [halone] at hfall
      cases hfall
    · rw [halone, fall] at hfall
      split at hfall
      · cases hfall
      · rename_i hne
        obtain rfl := Option.some.inj hfall
        exact ⟨i, chunks, c, hchunks, halone, hne⟩
  · rintro ⟨i, chunks, c, hchunks, halone, hne⟩
    refine ⟨alone es i chunks, List.mem_of_getElem? (i := i) ?_, by rw [halone, fall, if_neg hne]⟩
    rw [sessions_alone h, hchunks, Option.map_some]

/-- **When a process falls**: as soon as one of its sessions, on its own and after the turns
it had, has met a head that names a host without a port, or that is refused. Nothing else
brings it down, and no other session is spared. -/
theorem fallen_iff {server : Server} {es : List Event} {s : Service}
    (h : after step { server := server } es = some s) (close : Close) :
    s.fallen = some close ↔
      ∃ i chunks c v, (clients es)[i]? = some chunks ∧
        turns Connection.step (es.count (.turn i)) (.inl (.start chunks)) = .inr (close, c) ∧
        c.views.getLast? = some v ∧
        ((close = .threw .lengthError ∧ BadHost .kReady v) ∨
          (close = .undefined ∧ ∃ e, Refused .kReady v e)) := by
  rw [fallen_iff_alone h]
  constructor
  · rintro ⟨i, chunks, c, hchunks, halone, hne⟩
    have hended := Connection.ended_of_exits ⟨_, turns_eq_inr_iff.mp halone⟩
    cases hended with
    | eof => exact absurd rfl hne
    | threw hviews hanswered hv =>
        exact ⟨i, chunks, c, _, hchunks, halone, by simp [hviews], .inl ⟨rfl, hv⟩⟩
    | undefined hviews hanswered hv =>
        exact ⟨i, chunks, c, _, hchunks, halone, by simp [hviews], .inr ⟨rfl, _, hv⟩⟩
  · rintro ⟨i, chunks, c, v, hchunks, halone, -, ⟨rfl, -⟩ | ⟨rfl, -⟩⟩
    · exact ⟨i, chunks, c, hchunks, halone, by simp⟩
    · exact ⟨i, chunks, c, hchunks, halone, by simp⟩

/-- `fallen_iff` on two clients: the process fell with the second one's empty line. -/
theorem fallen_twoClients :
    ∃ (server : Server) (s : Service), Server.new "::1" 80 1 = some server ∧
      after step { server := server } twoClients = some s ∧ s.fallen = some .undefined := by
  obtain ⟨server, s, hserver, hafter⟩ := after_twoClients
  have hlost : (turns Connection.step 2 (.inl (.start [crlfcrlf]))).map (fun _ => ())
      (fun r => (r.1, r.2.views)) = .inr (.undefined, [crlfcrlf]) := by
    decide
  rcases hc : turns Connection.step 2 (.inl (.start [crlfcrlf])) with c | ⟨close, c⟩
  · rw [hc] at hlost
    cases hlost
  · rw [hc] at hlost
    obtain ⟨rfl, hviews⟩ : close = .undefined ∧ c.views = [crlfcrlf] := by simpa using hlost
    have hrefused : ∃ e, Refused .kReady crlfcrlf e := by
      have hended := Connection.ended_of_exits ⟨_, turns_eq_inr_iff.mp hc⟩
      cases hended with
      | @undefined vs v e hviews' _ hv =>
          rw [hviews] at hviews'
          have hv' : v = crlfcrlf := by
            have := congrArg List.getLast? hviews'
            rw [List.getLast?_concat] at this
            exact (Option.some.inj this).symm
          exact ⟨e, hv' ▸ hv⟩
    exact ⟨server, s, hserver, hafter, (fallen_iff hafter .undefined).mpr
      ⟨1, [crlfcrlf], c, crlfcrlf, rfl, hc, by rw [hviews]; rfl, .inr ⟨rfl, hrefused⟩⟩⟩

/-! ### Which clients a process survives -/

section Schedules

variable {s : Service}

/-- All clients can be accepted. -/
theorem exists_accepted (hup : s.fallen = none)
    (hpool : s.server.ioContextPool.ioContexts.length ≠ 0) (cs : List (List Bytes)) :
    ∃ s', after step s (cs.map .accepted) = some s' ∧ s'.fallen = none ∧
      s'.sessions = s.sessions ++ cs.map fun chunks => .inl (.start chunks) := by
  induction cs generalizing s with
  | nil => exact ⟨s, rfl, hup, (List.append_nil _).symm⟩
  | cons chunks cs ih =>
      obtain ⟨server, hserver, hpool'⟩ := Server.handleAccept_eq_some hpool false
      have hstep : s.step (.accepted chunks) = some { s with
          server := server
          sessions := s.sessions ++ [.inl (.start chunks)] } := by
        simp [step, hup, hserver]
      obtain ⟨s', hs', hup', hsessions⟩ := ih (s := { s with
        server := server
        sessions := s.sessions ++ [.inl (.start chunks)] }) hup hpool'
      refine ⟨s', ?_, hup', ?_⟩
      · rw [List.map_cons, after_cons_eq_some]
        exact ⟨_, hstep, hs'⟩
      · rw [hsessions, List.append_assoc, List.map_cons, List.singleton_append]

/-- A session that runs can have its turns. -/
theorem after_turns (hup : s.fallen = none) {i : ℕ} {c c' : Connection}
    (hi : s.sessions[i]? = some (.inl c)) {k : ℕ}
    (hk : turns Connection.step k (.inl c) = .inl c') :
    after step s (List.replicate k (.turn i)) =
      some { s with sessions := s.sessions.set i (.inl c') } := by
  obtain ⟨hlt, hget⟩ := List.getElem?_eq_some_iff.mp hi
  induction k generalizing c' with
  | zero =>
      obtain rfl := Sum.inl.inj hk
      rw [← hget, List.set_getElem_self]
      rfl
  | succ k ih =>
      rw [turns_succ] at hk
      rcases hc : turns Connection.step k (.inl c) with c₁ | r
      · rw [hc] at hk
        have hturn : c₁.step = .inl c' := hk
        rw [List.replicate_succ', after_concat_eq_some]
        exact ⟨_, ih hc, by simp [step, hup, hlt, hturn]⟩
      · rw [hc] at hk
        cases hk

/-- The last turn of a session. -/
theorem step_last_turn (hup : s.fallen = none) {i : ℕ} {c c' : Connection} {close : Close}
    (hi : s.sessions[i]? = some (.inl c)) (hc : c.step = .inr (close, c')) :
    s.step (.turn i) = some { s with
      sessions := s.sessions.set i (.inr (close, c'))
      fallen := if close = .eof then none else some close } := by
  simp [step, hup, hi, hc]

end Schedules

/-- **Which clients a process survives.** A server with a context survives these clients in
every order of accepts and turns exactly when each of them alone would end with its end of
file: no other order helps, and no client is hurt by another's well-formed requests. -/
theorem survives_iff {server : Server} (hpool : server.ioContextPool.ioContexts.length ≠ 0)
    (cs : List (List Bytes)) :
    (∀ es s, clients es = cs → after step { server := server } es = some s →
        s.fallen = none) ↔
      ∀ chunks ∈ cs, ∃ c, Exits Connection.step (.start chunks) (.eof, c) := by
  constructor
  · intro hall chunks hchunks
    obtain ⟨⟨close, c⟩, hrun⟩ := Connection.exists_run_start chunks
    by_contra hlost
    have hne : close ≠ .eof := by
      rintro rfl
      exact hlost ⟨c, _, hrun⟩
    obtain ⟨i, hlt, hi⟩ := List.mem_iff_getElem.mp hchunks
    obtain ⟨k, c₁, hk, hlast⟩ := exists_last_turn (turns_eq_inr_iff.mpr hrun)
    obtain ⟨s₁, hs₁, hup₁, hsessions⟩ :=
      exists_accepted (s := { server := server }) rfl hpool cs
    have hstart : s₁.sessions[i]? = some (.inl (.start chunks)) := by
      rw [hsessions, List.nil_append, List.getElem?_map, List.getElem?_eq_getElem hlt, hi,
        Option.map_some]
    obtain ⟨hlt₁, -⟩ := List.getElem?_eq_some_iff.mp hstart
    obtain ⟨s₂, hs₂, hup₂, hrunning⟩ : ∃ s₂,
        after step s₁ (List.replicate k (.turn i)) = some s₂ ∧ s₂.fallen = none ∧
          s₂.sessions[i]? = some (.inl c₁) :=
      ⟨_, after_turns hup₁ hstart hk, hup₁, List.getElem?_set_self hlt₁⟩
    have hfalls := step_last_turn hup₂ hrunning hlast
    rw [if_neg hne] at hfalls
    have hafter : after step { server := server }
        ((cs.map .accepted ++ List.replicate k (.turn i)) ++ [.turn i]) = some { s₂ with
          sessions := s₂.sessions.set i (.inr (close, c))
          fallen := some close } := by
      rw [after_concat_eq_some]
      refine ⟨s₂, ?_, hfalls⟩
      rw [after_append, hs₁]
      exact hs₂
    have hclients : clients ((cs.map .accepted ++ List.replicate k (.turn i)) ++ [.turn i]) =
        cs := by
      simp [clients, List.filterMap_append, List.filterMap_map, Function.comp_def, Event.client]
    exact absurd (hall _ _ hclients hafter) (by simp)
  · intro hall es s hcs h
    by_contra hdown
    obtain ⟨close, hclose⟩ := Option.ne_none_iff_exists'.mp hdown
    obtain ⟨i, chunks, c, hchunks, halone, hne⟩ :=
      (fallen_iff_alone h close).mp hclose
    obtain ⟨c', hexits⟩ := hall chunks (hcs ▸ List.mem_of_getElem? hchunks)
    obtain ⟨rfl, -⟩ := Prod.mk.inj (hexits.unique ⟨_, turns_eq_inr_iff.mp halone⟩)
    exact hne rfl

/-- `survives_iff` on a client with one request. -/
theorem survives_plainRequest :
    ∃ server : Server, ∀ es s, clients es = [[Connection.plainRequest]] →
      after step { server := server } es = some s → s.fallen = none := by
  have hpool : ((Server.new "::1" 80 1).map
      fun server => server.ioContextPool.ioContexts.length) = some 1 := by
    decide
  obtain ⟨server, -, hlength⟩ := Option.map_eq_some_iff.mp hpool
  refine ⟨server, (survives_iff (by omega) _).mpr fun chunks hchunks => ?_⟩
  obtain rfl := List.mem_singleton.mp hchunks
  have hrun : (run Connection.step 4 (.start [Connection.plainRequest])).map Prod.fst =
      some .eof := by
    decide
  obtain ⟨⟨close, c⟩, hc, rfl⟩ := Option.map_eq_some_iff.mp hrun
  exact ⟨c, 4, hc⟩

end Service

end Camille
