import Camille.Rotation

/-!
# The Application

The class `Camille`, with which a program starts its server. The server is built by the
first call of `Run` that the system grants its address and its port, with the pool size at
that time; a call that it refuses throws, and leaves the pointer to the server null. Later
calls of `Run` store their address, find the server there, and throw because it runs.
`SetDebug` passes its flag on to the server through the pointer.

`Run` does not come back as long as its workers run; calls that follow it come from other
threads, and the accepts of the server lie between them. A call that threw was caught by
the program, which goes on.

## Main results

* `CamilleClient.after_isSome_iff`: which sequences of calls go through a null pointer.
* `CamilleClient.server_of_after`: in all others the application is its server, and the
  debug flag the state of that.
* `CamilleClient.thrown_of_after`: which calls throw, and what.
-/

namespace Camille

open Lib

/-- `camille::Camille`. The name and the version of the server, the middlewares and the
routers are left out, which nothing reads. -/
structure CamilleClient where
  debug : Bool := false
  host : String := ""
  port : UInt16 := 0
  server : Option Server := none
  poolSize : UInt32

namespace Server

/-- Starting an accept does not change whether the server runs. -/
theorem state_of_startAccept {s s' : Server} (h : s.startAccept = some s') :
    s'.state = s.state := by
  obtain ⟨⟨ctx, pool⟩, -, h⟩ := Option.bind_eq_some_iff.mp h
  obtain rfl := Option.some.inj h
  rfl

/-- A server starts without the flag. -/
theorem state_of_new {host : String} {port : UInt16} {poolSize : ℕ} {s : Server}
    (h : new host port poolSize = some s) : s.state = false := by
  obtain ⟨⟨ctx, pool⟩, -, hstart⟩ := Option.bind_eq_some_iff.mp h
  exact state_of_startAccept hstart

/-- Only `SetState` changes the state of a server. -/
theorem state_of_step {s : Server} {e : Event} {r : CallResult Server} (h : s.step e = some r) :
    r.object.state = e.stateAfter s.state := by
  cases e with
  | setState state | run | close =>
      obtain rfl := Option.some.inj h
      rfl
  | accepted errorCode =>
      obtain ⟨s', hs', rfl⟩ := Option.map_eq_some_iff.mp h
      rw [handleAccept] at hs'
      dsimp only at hs'
      split at hs'
      · exact (state_of_startAccept hs').trans rfl
      · obtain rfl := Option.some.inj hs'
        rfl

end Server

namespace CamilleClient

/-- `Camille()`; the argument is `std::thread::hardware_concurrency()`. -/
def new (hardwareConcurrency : UInt32) : CamilleClient :=
  { poolSize := hardwareConcurrency }

/-- `Camille::IsDebugEnabled`. -/
def isDebugEnabled (c : CamilleClient) : Bool :=
  c.debug

/-- An event of the server that is there, through the pointer to it. -/
def through (c : CamilleClient) (server : Server) (e : Server.Event) :
    Option (CallResult CamilleClient) :=
  (server.step e).map fun r =>
    { object := { c with server := some r.object }, thrown := r.thrown }

/-- `Camille::Run`, as far as the callback and the wait for the workers. The system answers
with `refusal` when a server is constructed. -/
def run (c : CamilleClient) (host : String) (port : UInt16) (refusal : Option SystemCall) :
    Option (CallResult CamilleClient) := do
  let c := { c with host := host, port := port }
  match c.server with
  | some server => c.through server .run
  | none =>
    match ← Server.construct refusal c.host c.port c.poolSize.toNat with
    | .error thrown => return { object := c, thrown := some thrown }
    | .ok server => c.through server .run

/-- `Camille::SetDebug`: undefined when there is no server. -/
def setDebug (c : CamilleClient) (debug : Bool) : Option (CallResult CamilleClient) := do
  let c := { c with debug := debug }
  let server ← c.server
  c.through server (.setState c.debug)

/-- `Camille::SetPoolSize`. -/
def setPoolSize (c : CamilleClient) (poolSize : UInt32) : CamilleClient :=
  { c with poolSize := poolSize }

/-- What happens to an application: a call, with the answer of the system to one of `Run`,
or the end of an accept of its server. -/
inductive Event
  | run (host : String) (port : UInt16) (refusal : Option SystemCall)
  | setDebug (debug : Bool)
  | setPoolSize (poolSize : UInt32)
  | accepted (errorCode : Bool)
  deriving DecidableEq, Repr

/-- What an event does to an application, or `none` when the event is undefined. Where there
is no server, nothing is accepted. -/
def step (c : CamilleClient) : Event → Option (CallResult CamilleClient)
  | .run host port refusal => c.run host port refusal
  | .setDebug debug => c.setDebug debug
  | .setPoolSize poolSize => some { object := c.setPoolSize poolSize }
  | .accepted errorCode =>
    match c.server with
    | none => some { object := c }
    | some server => c.through server (.accepted errorCode)

/-- The application behind an event, whether it threw or not. -/
def next (c : CamilleClient) (e : Event) : Option CamilleClient :=
  (c.step e).map CallResult.object

/-- The pool size behind a sequence of events. -/
def poolSizeAfter (hardwareConcurrency : UInt32) (es : List Event) : UInt32 :=
  es.foldl (fun n e =>
    match e with
    | .setPoolSize poolSize => poolSize
    | _ => n) hardwareConcurrency

/-- What an event is to the server that is there. -/
def Event.server : Event → Option Server.Event
  | run _ _ _ => some .run
  | setDebug debug => some (.setState debug)
  | setPoolSize _ => none
  | accepted errorCode => some (.accepted errorCode)

/-- An event that neither makes a server nor needs one. -/
def Event.isIdle : Event → Bool
  | run _ _ refusal => refusal.isSome
  | setDebug _ => false
  | setPoolSize _ => true
  | accepted _ => true

/-- What an event throws, by whether there is a server. -/
def Event.throws (served : Bool) : Event → Option Thrown
  | run _ _ refusal =>
    if served then some ContextPool.alreadyRunning else refusal.map .systemError
  | _ => none

/-- A `Run` that makes a server, unless there is one. -/
def Event.isGranted : Event → Bool
  | run _ _ refusal => refusal.isNone
  | _ => false

/-! ### Without a server -/

/-- The pool size of an application is never one that leaves a pool empty. -/
theorem length_initialPool_ne_zero (poolSize : UInt32) :
    (Server.initialPool poolSize.toNat).ioContexts.length ≠ 0 := by
  rw [Server.length_initialPool_ne_zero_iff]
  have hlt : poolSize.toNat < 2 ^ 32 := poolSize.toNat_lt
  by_cases hzero : poolSize.toNat = 0
  · exact .inl hzero
  · exact .inr fun hdvd => absurd (Nat.le_of_dvd (Nat.pos_of_ne_zero hzero) hdvd) (by omega)

/-- A `Run` that the system refuses throws, and leaves no server. -/
theorem run_of_refused {c : CamilleClient} (hc : c.server = none) (host : String)
    (port : UInt16) (call : SystemCall) :
    c.run host port (some call) = some
      { object := { c with host := host, port := port }, thrown := some (.systemError call) } := by
  obtain ⟨⟨ctx, pool⟩, hget⟩ :=
    ContextPool.getIOContext_isSome_iff.mpr (length_initialPool_ne_zero c.poolSize)
  simp [run, hc, Server.construct, hget]

/-- Without a server, an idle event changes only what is stored for one. -/
theorem step_of_idle {c : CamilleClient} {e : Event} (he : e.isIdle = true)
    (hc : c.server = none) :
    ∃ c', c.step e = some { object := c', thrown := e.throws false } ∧ c'.server = none ∧
      c'.debug = c.debug ∧ c'.poolSize = poolSizeAfter c.poolSize [e] := by
  cases e with
  | run host port refusal =>
      cases refusal with
      | none => cases he
      | some call =>
          exact ⟨{ c with host := host, port := port }, run_of_refused hc host port call, hc,
            rfl, rfl⟩
  | setDebug debug => cases he
  | setPoolSize poolSize => exact ⟨c.setPoolSize poolSize, rfl, hc, rfl, rfl⟩
  | accepted errorCode => exact ⟨c, by rw [step, hc]; rfl, hc, rfl, rfl⟩

/-- **Before there is a server**, no event is undefined. -/
theorem after_of_idle {es : List Event} (hes : ∀ e ∈ es, e.isIdle = true) {c : CamilleClient}
    (hc : c.server = none) :
    ∃ c', after next c es = some c' ∧ c'.server = none ∧ c'.debug = c.debug ∧
      c'.poolSize = poolSizeAfter c.poolSize es := by
  induction es generalizing c with
  | nil => exact ⟨c, rfl, hc, rfl, rfl⟩
  | cons e es ih =>
      obtain ⟨he, hidle⟩ := List.forall_mem_cons.mp hes
      obtain ⟨c₁, hstep, hc₁, hdebug₁, hsize₁⟩ := step_of_idle he hc
      obtain ⟨c', hafter, hc', hdebug, hsize⟩ := ih hidle hc₁
      refine ⟨c', after_cons_eq_some.mpr ⟨c₁, by rw [next, hstep]; rfl, hafter⟩, hc',
        hdebug.trans hdebug₁, ?_⟩
      rw [hsize, hsize₁]
      rfl

/-! ### With a server -/

/-- The application has a server with contexts that runs, and its flag is the state of
that. -/
structure Serves (c : CamilleClient) (s : Server) : Prop where
  server_eq : c.server = some s
  state_eq : s.state = c.debug
  contexts : s.ioContextPool.ioContexts.length ≠ 0
  running : s.ioContextPool.isRunning = true

/-- An event of the server, through the pointer to it. -/
theorem exists_serves_of_through {c : CamilleClient} {s : Server}
    (hpool : s.ioContextPool.ioContexts.length ≠ 0) {e : Server.Event}
    (hstate : e.stateAfter s.state = c.debug)
    (hruns : s.ioContextPool.isRunning = true ∨ e = .run) :
    ∃ s' r, s.next e = some s' ∧ c.through s e = some r ∧ r.object.Serves s' ∧
      r.thrown = if e = .run ∧ s.ioContextPool.isRunning = true
        then some ContextPool.alreadyRunning else none := by
  obtain ⟨r, hstep, hpool'⟩ := Server.step_eq_some hpool e
  obtain ⟨hthrown, hrunning⟩ := Server.step_throws hstep
  refine ⟨r.object, _, by rw [Server.next, hstep]; rfl, by rw [through, hstep]; rfl, ?_, hthrown⟩
  exact ⟨rfl, (Server.state_of_step hstep).trans hstate, hpool', hrunning.mpr hruns⟩

/-- The first `Run` that the system grants its address builds the server. -/
theorem exists_serves_of_run {c : CamilleClient} (hc : c.server = none)
    (hdebug : c.debug = false) (host : String) (port : UInt16) :
    ∃ s r, ((Server.new host port c.poolSize.toNat).bind fun s => s.next .run) = some s ∧
      c.run host port none = some r ∧ r.object.Serves s ∧ r.thrown = none := by
  obtain ⟨s₀, hnew, hpool₀⟩ :=
    Server.new_eq_some (length_initialPool_ne_zero c.poolSize) host port
  obtain ⟨s, r, hnext, hthrough, hserves, hthrown⟩ := exists_serves_of_through
    (c := { c with host := host, port := port }) hpool₀ (e := .run)
    ((Server.state_of_new hnew).trans hdebug.symm) (.inr rfl)
  refine ⟨s, r, ?_, ?_, hserves, by simp [hthrown, Server.isRunning_of_new hnew]⟩
  · rw [hnew]
    exact hnext
  · rw [← hthrough]
    simp [run, hc, Server.construct, hnew]

/-- An event is one of the server, or none. -/
theorem Serves.step {c : CamilleClient} {s : Server} (h : c.Serves s) (e : Event) :
    ∃ s' r, s.run e.server.toList = some s' ∧ c.step e = some r ∧ r.object.Serves s' ∧
      r.thrown = e.throws true := by
  obtain ⟨hserver, hstate, hpool, hruns⟩ := h
  cases e with
  | run host port refusal =>
      obtain ⟨s', r, hnext, hthrough, hserves, hthrown⟩ := exists_serves_of_through
        (c := { c with host := host, port := port }) hpool (e := .run) hstate (.inr rfl)
      refine ⟨s', r, by simp [Event.server, Server.run, hnext], ?_, hserves, ?_⟩
      · rw [← hthrough]
        simp [CamilleClient.step, run, hserver]
      · rw [hthrown, if_pos ⟨rfl, hruns⟩]
        rfl
  | setDebug debug =>
      obtain ⟨s', r, hnext, hthrough, hserves, hthrown⟩ := exists_serves_of_through
        (c := { c with debug := debug }) hpool (e := .setState debug) rfl (.inl hruns)
      refine ⟨s', r, by simp [Event.server, Server.run, hnext], ?_, hserves, ?_⟩
      · rw [← hthrough]
        simp [CamilleClient.step, setDebug, hserver]
      · rw [hthrown, if_neg (by simp)]
        rfl
  | setPoolSize poolSize =>
      exact ⟨s, { object := c.setPoolSize poolSize }, rfl, rfl,
        ⟨hserver, hstate, hpool, hruns⟩, rfl⟩
  | accepted errorCode =>
      obtain ⟨s', r, hnext, hthrough, hserves, hthrown⟩ := exists_serves_of_through
        (c := c) hpool (e := .accepted errorCode) hstate (.inl hruns)
      refine ⟨s', r, by simp [Event.server, Server.run, hnext], ?_, hserves, ?_⟩
      · rw [← hthrough]
        simp [CamilleClient.step, hserver]
      · rw [hthrown, if_neg (by simp)]
        rfl

/-- **The application goes on as its server does.** -/
theorem Serves.after {c : CamilleClient} {s : Server} (h : c.Serves s) (es : List Event) :
    ∃ s' c', s.run (es.filterMap Event.server) = some s' ∧
      Lib.after next c es = some c' ∧ c'.Serves s' := by
  induction es generalizing c s with
  | nil => exact ⟨s, c, rfl, rfl, h⟩
  | cons e es ih =>
      obtain ⟨s₁, r, hrun₁, hstep, h₁, -⟩ := h.step e
      obtain ⟨s', c', hrun, hafter, h'⟩ := ih h₁
      refine ⟨s', c', ?_, ?_, h'⟩
      · rw [Server.run_eq_after] at hrun₁ hrun ⊢
        have hevents : (e :: es).filterMap Event.server =
            e.server.toList ++ es.filterMap Event.server := by
          cases hserver : e.server <;> simp [hserver]
        rw [hevents, after_append, hrun₁]
        exact hrun
      · exact after_cons_eq_some.mpr ⟨r.object, by rw [next, hstep]; rfl, hafter⟩

/-! ### The application -/

/-- The application behind the call of `Run` that builds its server. -/
theorem exists_serves_after (hardwareConcurrency : UInt32) {before : List Event}
    (hbefore : ∀ e ∈ before, e.isIdle = true) (host : String) (port : UInt16)
    (behind : List Event) :
    ∃ s c, ((Server.new host port (poolSizeAfter hardwareConcurrency before).toNat).bind
          fun s => s.run (.run :: behind.filterMap Event.server)) = some s ∧
      Lib.after next (new hardwareConcurrency) (before ++ .run host port none :: behind) =
          some c ∧
      c.Serves s := by
  obtain ⟨c₀, hidle, hserver₀, hdebug₀, hsize₀⟩ :=
    after_of_idle (c := new hardwareConcurrency) hbefore rfl
  obtain ⟨s₁, r, hnew, hrun, h₁, -⟩ := exists_serves_of_run hserver₀ hdebug₀ host port
  obtain ⟨s, c, hserver, hafter, h⟩ := h₁.after behind
  obtain ⟨s₀, hs₀, hnext⟩ := Option.bind_eq_some_iff.mp hnew
  refine ⟨s, c, ?_, ?_, h⟩
  · rw [hsize₀] at hs₀
    refine Option.bind_eq_some_iff.mpr ⟨s₀, hs₀, ?_⟩
    rw [Server.run, hnext]
    exact hserver
  · rw [after_append, hidle, Option.bind_some]
    exact after_cons_eq_some.mpr ⟨r.object, by rw [next, step, hrun]; rfl, hafter⟩

/-- **The null pointer.** A sequence of calls is undefined exactly when `SetDebug` is called
in it with no call of `Run` before it that the system granted its address. -/
theorem after_isSome_iff (hardwareConcurrency : UInt32) (es : List Event) :
    (∃ c, Lib.after next (new hardwareConcurrency) es = some c) ↔
      ∀ debug, es.find? (fun e => !e.isIdle) ≠ some (.setDebug debug) := by
  cases hfirst : es.find? (fun e => !e.isIdle) with
  | none =>
      have hidle : ∀ e ∈ es, e.isIdle = true := by simpa using hfirst
      obtain ⟨c, hc, -⟩ := after_of_idle (c := new hardwareConcurrency) hidle rfl
      exact iff_of_true ⟨c, hc⟩ (by simp)
  | some e =>
      obtain ⟨he, before, behind, rfl, hbefore⟩ := List.find?_eq_some_iff_append.mp hfirst
      have hidle : ∀ e ∈ before, e.isIdle = true := by simpa using hbefore
      cases e with
      | run host port refusal =>
          obtain rfl : refusal = none := by simpa [Event.isIdle] using he
          obtain ⟨s, c, -, hafter, -⟩ :=
            exists_serves_after hardwareConcurrency hidle host port behind
          exact iff_of_true ⟨c, hafter⟩ (by simp)
      | setDebug debug =>
          refine iff_of_false ?_ (fun h => h debug rfl)
          rintro ⟨c, hc⟩
          obtain ⟨c₀, hc₀, hserver₀, -⟩ :=
            after_of_idle (c := new hardwareConcurrency) hidle rfl
          rw [after_append, hc₀, Option.bind_some] at hc
          obtain ⟨c₁, hnext, -⟩ := after_cons_eq_some.mp hc
          simp [next, step, setDebug, hserver₀] at hnext
      | setPoolSize poolSize => cases he
      | accepted errorCode => cases he

/-- **The application is its server.** Behind the first call of `Run` that the system grants
its address, whatever sizes were set and whatever calls were refused before it and whatever
happens afterwards, its server is the one built from the address of that call and the pool
size at that time; it was told every flag and went through every accept, and
`IsDebugEnabled` is its state, which the next session gets. -/
theorem server_of_after (hardwareConcurrency : UInt32) {before : List Event}
    (hbefore : ∀ e ∈ before, e.isIdle = true) (host : String) (port : UInt16)
    (behind : List Event) :
    ∃ s c, ((Server.new host port (poolSizeAfter hardwareConcurrency before).toNat).bind
          fun s => s.run (.run :: behind.filterMap Event.server)) = some s ∧
      Lib.after next (new hardwareConcurrency) (before ++ .run host port none :: behind) =
          some c ∧
      c.server = some s ∧ c.isDebugEnabled = s.state := by
  obtain ⟨s, c, hrun, hafter, h⟩ :=
    exists_serves_after hardwareConcurrency hbefore host port behind
  exact ⟨s, c, hrun, hafter, h.server_eq, h.state_eq.symm⟩

/-- `server_of_after` where a name is refused, which is no address, and then a second call of
`Run` throws: the server is that of the address in between. -/
theorem server_of_after_threeRuns :
    ∃ s c, ((Server.new "::1" 80 (poolSizeAfter 8
            [.setPoolSize 4, .run "localhost" 80 (some .makeAddress), .setPoolSize 2]).toNat).bind
          fun s => s.run (.run :: [Event.setDebug true, .accepted false, .setPoolSize 1,
            .run "::1" 81 none].filterMap Event.server)) = some s ∧
      Lib.after next (new 8)
          ([.setPoolSize 4, .run "localhost" 80 (some .makeAddress), .setPoolSize 2] ++
            .run "::1" 80 none :: [.setDebug true, .accepted false, .setPoolSize 1,
              .run "::1" 81 none]) = some c ∧
      c.server = some s ∧ c.isDebugEnabled = s.state :=
  server_of_after 8 (by decide) "::1" 80 _

/-- Without a server, an event that makes one. -/
theorem step_of_not_idle {c : CamilleClient} {e : Event} {r : CallResult CamilleClient}
    (he : e.isIdle = false) (hc : c.server = none) (hdebug : c.debug = false)
    (h : c.step e = some r) :
    (∃ s, r.object.Serves s) ∧ e.isGranted = true ∧ r.thrown = e.throws false := by
  cases e with
  | run host port refusal =>
      obtain rfl : refusal = none := by simpa [Event.isIdle] using he
      obtain ⟨s, r', -, hrun, hserves, hthrown⟩ := exists_serves_of_run hc hdebug host port
      obtain rfl := Option.some.inj (hrun.symm.trans h)
      exact ⟨⟨s, hserves⟩, rfl, hthrown⟩
  | setDebug debug => simp [step, setDebug, hc] at h
  | setPoolSize poolSize => cases he
  | accepted errorCode => cases he

/-- There is a server behind a call of `Run` that was granted its address, and else none. -/
theorem serves_or_not_of_after {hardwareConcurrency : UInt32} {es : List Event}
    {c : CamilleClient} (h : Lib.after next (new hardwareConcurrency) es = some c) :
    (c.server = none ∧ c.debug = false ∧ es.any Event.isGranted = false) ∨
      (∃ s, c.Serves s) ∧ es.any Event.isGranted = true := by
  induction es using List.reverseRecOn generalizing c with
  | nil =>
      obtain rfl := Option.some.inj h
      exact .inl ⟨rfl, rfl, rfl⟩
  | append_singleton es e ih =>
      obtain ⟨c₁, h₁, hnext⟩ := after_concat_eq_some.mp h
      obtain ⟨r, hstep, rfl⟩ := Option.map_eq_some_iff.mp hnext
      rw [List.any_append, List.any_cons, List.any_nil, Bool.or_false]
      rcases ih h₁ with ⟨hserver, hdebug, hno⟩ | ⟨⟨s, hserves⟩, hyes⟩
      · cases he : e.isIdle with
        | true =>
            obtain ⟨c', hstep', hserver', hdebug', -⟩ := step_of_idle he hserver
            obtain rfl := Option.some.inj (hstep'.symm.trans hstep)
            refine .inl ⟨hserver', hdebug'.trans hdebug, ?_⟩
            rw [hno, Bool.false_or]
            cases e with
            | run host port refusal => simpa [Event.isGranted, Event.isIdle] using he
            | setDebug debug | setPoolSize poolSize | accepted errorCode => rfl
        | false =>
            obtain ⟨hserves, hgranted, -⟩ := step_of_not_idle he hserver hdebug hstep
            exact .inr ⟨hserves, by rw [hgranted, Bool.or_true]⟩
      · obtain ⟨s', r', -, hstep', hserves', -⟩ := hserves.step e
        obtain rfl := Option.some.inj (hstep'.symm.trans hstep)
        exact .inr ⟨⟨s', hserves'⟩, by rw [hyes, Bool.true_or]⟩

/-- **Which calls throw.** A call of `Run` throws `std::runtime_error` where an earlier one
was granted its address, and else `std::system_error` where it is refused its own; no other
call throws. -/
theorem thrown_of_after {hardwareConcurrency : UInt32} {es : List Event} {c : CamilleClient}
    (h : Lib.after next (new hardwareConcurrency) es = some c) {e : Event}
    {r : CallResult CamilleClient} (hstep : c.step e = some r) :
    r.thrown = e.throws (es.any Event.isGranted) := by
  rcases serves_or_not_of_after h with ⟨hserver, hdebug, hno⟩ | ⟨⟨s, hserves⟩, hyes⟩
  · rw [hno]
    cases he : e.isIdle with
    | true =>
        obtain ⟨c', hstep', -⟩ := step_of_idle he hserver
        obtain rfl := Option.some.inj (hstep'.symm.trans hstep)
        rfl
    | false => exact (step_of_not_idle he hserver hdebug hstep).2.2
  · rw [hyes]
    obtain ⟨s', r', -, hstep', -, hthrown⟩ := hserves.step e
    obtain rfl := Option.some.inj (hstep'.symm.trans hstep)
    exact hthrown

end CamilleClient

end Camille
