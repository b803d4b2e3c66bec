import Mathlib.Algebra.Group.Nat.Defs
import Mathlib.Logic.Relation

/-!
# The Context Pool

`pool::ContextPool` and the part of `server::Server` that stands on it. A pool creates its
contexts once, in its constructor, and hands them out in turn: `GetIOContext` takes the
value of a 64-bit counter modulo their number.

`Server` replaces a pool size of zero by one before it passes it on, in the type the size
has; the pool keeps the size as an `unsigned`, which has 32 bits. A size is modelled by its
value, whatever unsigned type it has, so that every width is covered at once.

A call that throws leaves its object as it was, and what it threw is kept beside it. The
system decides whether a server gets its address and its port; memory and threads it always
has.

## Main results

* `ContextPool.length_new`: how many contexts a pool is created with.
* `ContextPool.length_of_reaches`: their number never changes.
* `Server.pool_sound_iff`: when the pool of a server is never empty.
* `Server.serves_iff`: when no run of a server takes a remainder by zero.
* `Server.thrown_of_run`: which calls of a server throw.
-/

namespace Camille

/-- The calls in a constructor of a server that ask the system: `asio::ip::make_address` for
an address, and those that open an acceptor. -/
inductive SystemCall
  | makeAddress | openSocket | setOption | bind | listen
  deriving DecidableEq, Repr

/-- What a call throws: `std::runtime_error` with a text, or `std::system_error` where the
system refused a call. -/
inductive Thrown
  | runtimeError (what : String)
  | systemError (call : SystemCall)
  deriving DecidableEq, Repr

/-- An object behind a call, and what the call threw. -/
structure CallResult (σ : Type) where
  object : σ
  thrown : Option Thrown := none

/-- `types::aio::AsioIOContext`: an `asio::io_context`, by the place of its creation in
the pool, and whether `stop` was called on it. -/
structure AsioIOContext where
  place : ℕ
  stopped : Bool := false
  deriving DecidableEq, Repr

/-- `pool::ContextPool`. A work guard is the context it guards, a thread the context it
runs. -/
structure ContextPool where
  poolSize : UInt32
  isRunning : Bool := false
  nextIoContext : UInt64 := 0
  ioContexts : List AsioIOContext := []
  workGuards : List AsioIOContext := []
  threads : List AsioIOContext := []

namespace ContextPool

/-- One round of the loop of the constructor. -/
def emplaceBack (p : ContextPool) (i : ℕ) : ContextPool :=
  let ctx : AsioIOContext := { place := i }
  { p with ioContexts := p.ioContexts ++ [ctx], workGuards := p.workGuards ++ [ctx] }

/-- `ContextPool(concepts::UnsignedIntegral auto pool_size)`: the size is narrowed first,
and the narrowed one bounds the loop. -/
def new (poolSize : ℕ) : ContextPool :=
  let narrowed := UInt32.ofNat poolSize
  (List.range narrowed.toNat).foldl emplaceBack { poolSize := narrowed }

/-- What a second call of `Run` throws. -/
def alreadyRunning : Thrown :=
  .runtimeError "Error when trying to run context pool"

/-- `ContextPool::Run`. -/
def run (p : ContextPool) : CallResult ContextPool :=
  if p.isRunning then { object := p, thrown := some alreadyRunning }
  else { object := { p with isRunning := true, threads := p.threads ++ p.ioContexts } }

/-- `ContextPool::Stop`. -/
def stop (p : ContextPool) : ContextPool :=
  { p with
    workGuards := []
    ioContexts := p.ioContexts.map fun ctx => { ctx with stopped := true } }

/-- The index in `GetIOContext`. -/
def index (p : ContextPool) : ℕ :=
  p.nextIoContext.toNat % p.ioContexts.length

/-- `ContextPool::GetIOContext`. The remainder by zero and the access behind the end of
the vector are undefined. -/
def getIOContext (p : ContextPool) : Option (AsioIOContext × ContextPool) :=
  if p.ioContexts.length = 0 then none
  else do
    let ctx ← p.ioContexts[p.index]?
    return (ctx, { p with nextIoContext := p.nextIoContext + 1 })

/-- The calls of a pool after its construction. -/
inductive Op
  | run | stop | getIOContext
  deriving DecidableEq, Repr

/-- What a call does to a pool; `none` when it is undefined. -/
def step (p : ContextPool) : Op → Option (CallResult ContextPool)
  | .run => some p.run
  | .stop => some { object := p.stop }
  | .getIOContext => p.getIOContext.map fun r => { object := r.2 }

/-- Some calls take the one pool to the other, whether they throw or not. -/
def Reaches (p q : ContextPool) : Prop :=
  Relation.ReflTransGen (fun p q => ∃ op thrown, step p op = some ⟨q, thrown⟩) p q

/-! ### The number of contexts -/

/-- As many contexts more as are put in. -/
theorem length_foldl_emplaceBack (l : List ℕ) (p : ContextPool) :
    (l.foldl emplaceBack p).ioContexts.length = p.ioContexts.length + l.length := by
  induction l generalizing p with
  | nil => rfl
  | cons i l ih =>
      rw [List.foldl_cons, ih, emplaceBack, List.length_append, List.length_singleton,
        List.length_cons]
      omega

/-- **A pool has as many contexts as its narrowed size says.** -/
theorem length_new (poolSize : ℕ) : (new poolSize).ioContexts.length = poolSize % 2 ^ 32 := by
  rw [new, length_foldl_emplaceBack, List.length_range, UInt32.toNat_ofNat']
  exact Nat.zero_add _

/-- With a context in the pool there is one to hand out. -/
theorem getIOContext_isSome_iff {p : ContextPool} :
    (∃ r, p.getIOContext = some r) ↔ p.ioContexts.length ≠ 0 := by
  constructor
  · rintro ⟨r, hr⟩ hzero
    rw [getIOContext, if_pos hzero] at hr
    cases hr
  · intro hne
    have hlt : p.index < p.ioContexts.length := Nat.mod_lt _ (Nat.pos_of_ne_zero hne)
    rw [getIOContext, if_neg hne, List.getElem?_eq_getElem hlt]
    exact ⟨_, rfl⟩

/-- `GetIOContext` changes the counter, and nothing else. -/
theorem of_getIOContext {p q : ContextPool} {ctx : AsioIOContext}
    (h : p.getIOContext = some (ctx, q)) : q = { p with nextIoContext := p.nextIoContext + 1 } := by
  rw [getIOContext] at h
  split at h
  · cases h
  · obtain ⟨ctx', -, he⟩ := Option.bind_eq_some_iff.mp h
    exact (Prod.mk.inj (Option.some.inj he)).2.symm

/-- Giving a context out keeps them all. -/
theorem ioContexts_of_getIOContext {p q : ContextPool} {ctx : AsioIOContext}
    (h : p.getIOContext = some (ctx, q)) : q.ioContexts = p.ioContexts := by
  rw [of_getIOContext h]

/-- It starts and stops nothing. -/
theorem isRunning_of_getIOContext {p q : ContextPool} {ctx : AsioIOContext}
    (h : p.getIOContext = some (ctx, q)) : q.isRunning = p.isRunning := by
  rw [of_getIOContext h]

/-- No call changes the number of contexts. -/
theorem length_of_step {p : ContextPool} {op : Op} {r : CallResult ContextPool}
    (h : step p op = some r) : r.object.ioContexts.length = p.ioContexts.length := by
  cases op with
  | run =>
      obtain rfl := Option.some.inj h
      rw [run]
      split <;> rfl
  | stop =>
      obtain rfl := Option.some.inj h
      exact List.length_map _
  | getIOContext =>
      obtain ⟨⟨ctx, q'⟩, hget, rfl⟩ := Option.map_eq_some_iff.mp h
      exact congrArg List.length (ioContexts_of_getIOContext hget)

/-- **The number of contexts never changes.** -/
theorem length_of_reaches {p q : ContextPool} (h : Reaches p q) :
    q.ioContexts.length = p.ioContexts.length := by
  induction h with
  | refl => rfl
  | tail _ hstep ih =>
      obtain ⟨op, thrown, hstep⟩ := hstep
      exact (length_of_step hstep).trans ih

/-- `Run` throws on a pool that runs, and leaves one that runs. -/
theorem run_cases (p : ContextPool) :
    p.run.object.isRunning = true ∧
      ((p.isRunning = true ∧ p.run.object = p ∧ p.run.thrown = some alreadyRunning) ∨
        p.isRunning = false ∧ p.run.thrown = none) := by
  rw [run]
  cases hp : p.isRunning with
  | true => exact ⟨hp, .inl ⟨rfl, rfl, rfl⟩⟩
  | false => exact ⟨rfl, .inr ⟨rfl, rfl⟩⟩

end ContextPool

/-! ### The server -/

/-- `types::aio::AsioIOAcceptor`, as far as `Server` uses it: the context it runs on, its
endpoint, and whether it is open. -/
structure AsioIOAcceptor where
  context : AsioIOContext
  host : String
  port : UInt16
  isOpen : Bool := true

/-- `server::Server`, with the context of the socket it waits on, and the sessions it has
started: the context of their socket, and the state they were given. -/
structure Server where
  state : Bool := false
  ioContextPool : ContextPool
  acceptor : AsioIOAcceptor
  newSocket : Option AsioIOContext := none
  sessions : List (AsioIOContext × Bool) := []

namespace Server

/-- `io_context_pool_(pool_size == 0 ? 1 : pool_size)`. -/
def initialPool (poolSize : ℕ) : ContextPool :=
  ContextPool.new (if poolSize = 0 then 1 else poolSize)

/-- `Server::StartAccept`. -/
def startAccept (s : Server) : Option Server := do
  let (clientCtx, pool) ← s.ioContextPool.getIOContext
  return { s with ioContextPool := pool, newSocket := some clientCtx }

/-- `Server(host, port, pool_size)`, where the system grants the address and the port. -/
def new (host : String) (port : UInt16) (poolSize : ℕ) : Option Server := do
  let (ctx, pool) ← (initialPool poolSize).getIOContext
  startAccept { ioContextPool := pool, acceptor := { context := ctx, host := host, port := port } }

/-- `Server(host, port, pool_size)`: where the system refuses a call, the exception leaves
the constructor, and there is no server. -/
def construct (refusal : Option SystemCall) (host : String) (port : UInt16) (poolSize : ℕ) :
    Option (Except Thrown Server) :=
  match refusal with
  | none => (new host port poolSize).map .ok
  | some call => (initialPool poolSize).getIOContext.map fun _ => .error (.systemError call)

/-- The completion handler of `async_accept`. -/
def handleAccept (s : Server) (errorCode : Bool) : Option Server :=
  let started := if errorCode then [] else s.newSocket.toList.map fun ctx => (ctx, s.state)
  let s := { s with sessions := s.sessions ++ started }
  if s.acceptor.isOpen then s.startAccept else some s

/-- What happens to a server after its construction. -/
inductive Event
  | setState (state : Bool)
  | run
  | accepted (errorCode : Bool)
  | close
  deriving DecidableEq, Repr

/-- What an event does to a server. `Run` and the destructor call the pool; the destructor
closes the acceptor. -/
def step (s : Server) : Event → Option (CallResult Server)
  | .setState state => some { object := { s with state := state } }
  | .run =>
    let r := s.ioContextPool.run
    some { object := { s with ioContextPool := r.object }, thrown := r.thrown }
  | .accepted errorCode => (s.handleAccept errorCode).map fun s => { object := s }
  | .close =>
    some { object := { s with
      ioContextPool := s.ioContextPool.stop
      acceptor := { s.acceptor with isOpen := false } } }

/-- The server after an event. -/
def next (s : Server) (e : Event) : Option Server :=
  (s.step e).map CallResult.object

/-- The server after a sequence of events, whether they threw or not. -/
def run : Server → List Event → Option Server
  | s, [] => some s
  | s, e :: es => do
    let s ← s.next e
    run s es

/-! #### The pool of a server -/

/-- The pool of a server is empty when the size is a multiple of `2 ^ 32`, but not zero. -/
theorem length_initialPool_ne_zero_iff (poolSize : ℕ) :
    (initialPool poolSize).ioContexts.length ≠ 0 ↔ poolSize = 0 ∨ ¬ 2 ^ 32 ∣ poolSize := by
  rw [initialPool, ContextPool.length_new]
  by_cases hzero : poolSize = 0
  · rw [if_pos hzero]
    exact iff_of_true (by decide) (.inl hzero)
  · rw [if_neg hzero, or_iff_right hzero, Nat.dvd_iff_mod_eq_zero]

/-- **When the pool behind a server is never empty.** It has a context, and whatever calls
were made the modulus in `GetIOContext` is not zero and the index within the contexts,
exactly when the size passed to the server is zero or no multiple of `2 ^ 32`. -/
theorem pool_sound_iff (poolSize : ℕ) :
    ((initialPool poolSize).ioContexts ≠ [] ∧
      ∀ p, (initialPool poolSize).Reaches p →
        p.ioContexts.length ≠ 0 ∧ p.index < p.ioContexts.length) ↔
      poolSize = 0 ∨ ¬ 2 ^ 32 ∣ poolSize := by
  rw [← length_initialPool_ne_zero_iff]
  constructor
  · rintro ⟨hne, -⟩
    exact mt List.length_eq_zero_iff.mp hne
  · intro hne
    refine ⟨mt List.length_eq_zero_iff.mpr hne, fun p hp => ?_⟩
    have hlength : p.ioContexts.length ≠ 0 := by
      rw [ContextPool.length_of_reaches hp]
      exact hne
    exact ⟨hlength, Nat.mod_lt _ (Nat.pos_of_ne_zero hlength)⟩

/-- A size of type `size_t` whose lower half is zero leaves the pool empty. -/
theorem not_pool_sound :
    ¬ ∀ poolSize : ℕ, poolSize < 2 ^ 64 →
      (initialPool poolSize).ioContexts ≠ [] ∧
        ∀ p, (initialPool poolSize).Reaches p →
          p.ioContexts.length ≠ 0 ∧ p.index < p.ioContexts.length := by
  intro h
  have hlength : (initialPool (2 ^ 32)).ioContexts.length = 2 ^ 32 % 2 ^ 32 :=
    ContextPool.length_new (2 ^ 32)
  exact (h (2 ^ 32) (by decide)).1 (List.length_eq_zero_iff.mp hlength)

/-! #### The runs of a server -/

/-- Where there is a context, the next accept is started. -/
theorem startAccept_eq_some {s : Server} (h : s.ioContextPool.ioContexts.length ≠ 0) :
    ∃ s', s.startAccept = some s' ∧ s'.ioContextPool.ioContexts.length ≠ 0 := by
  obtain ⟨⟨ctx, pool⟩, hget⟩ := ContextPool.getIOContext_isSome_iff.mpr h
  refine ⟨{ s with ioContextPool := pool, newSocket := some ctx }, ?_, ?_⟩
  · rw [startAccept, hget]
    rfl
  · show pool.ioContexts.length ≠ 0
    rw [ContextPool.ioContexts_of_getIOContext hget]
    exact h

/-- Where there is a context, a server with contexts is constructed. -/
theorem new_eq_some {poolSize : ℕ} (h : (initialPool poolSize).ioContexts.length ≠ 0)
    (host : String) (port : UInt16) :
    ∃ s, new host port poolSize = some s ∧ s.ioContextPool.ioContexts.length ≠ 0 := by
  obtain ⟨⟨ctx, pool⟩, hget⟩ := ContextPool.getIOContext_isSome_iff.mpr h
  have hpool : pool.ioContexts.length ≠ 0 := by
    rwa [ContextPool.ioContexts_of_getIOContext hget]
  obtain ⟨s, hstart, hs⟩ := startAccept_eq_some
    (s := { ioContextPool := pool, acceptor := { context := ctx, host := host, port := port } })
    hpool
  refine ⟨s, ?_, hs⟩
  rw [new, hget]
  exact hstart

/-- The end of an accept leaves a server with contexts. -/
theorem handleAccept_eq_some {s : Server} (h : s.ioContextPool.ioContexts.length ≠ 0)
    (errorCode : Bool) :
    ∃ s', s.handleAccept errorCode = some s' ∧ s'.ioContextPool.ioContexts.length ≠ 0 := by
  rw [handleAccept]
  dsimp only
  split
  · exact startAccept_eq_some h
  · exact ⟨_, rfl, h⟩

/-- An event leaves a server with contexts. -/
theorem step_eq_some {s : Server} (h : s.ioContextPool.ioContexts.length ≠ 0) (e : Event) :
    ∃ r, s.step e = some r ∧ r.object.ioContextPool.ioContexts.length ≠ 0 := by
  have hpool : ∀ (op : ContextPool.Op) {r : CallResult ContextPool},
      s.ioContextPool.step op = some r → r.object.ioContexts.length ≠ 0 := by
    intro op r hstep
    rw [ContextPool.length_of_step hstep]
    exact h
  cases e with
  | setState state => exact ⟨_, rfl, h⟩
  | run => exact ⟨_, rfl, hpool .run rfl⟩
  | close => exact ⟨_, rfl, hpool .stop rfl⟩
  | accepted errorCode =>
      obtain ⟨s', hs', hlength⟩ := handleAccept_eq_some h errorCode
      exact ⟨{ object := s' }, by rw [step, hs']; rfl, hlength⟩

/-- Where there is a context, every run of the server goes on. -/
theorem run_eq_some {s : Server} (h : s.ioContextPool.ioContexts.length ≠ 0)
    (es : List Event) : ∃ s', s.run es = some s' := by
  induction es generalizing s with
  | nil => exact ⟨s, rfl⟩
  | cons e es ih =>
      obtain ⟨r, hstep, h₁⟩ := step_eq_some h e
      obtain ⟨s', hrun⟩ := ih h₁
      exact ⟨s', by rw [run, next, hstep]; exact hrun⟩

/-- **A server that was constructed runs**, whatever happens to it, exactly when its pool is
not empty. -/
theorem serves_iff (host : String) (port : UInt16) (poolSize : ℕ) :
    (∀ es, ∃ s, ((new host port poolSize).bind fun s => s.run es) = some s) ↔
      poolSize = 0 ∨ ¬ 2 ^ 32 ∣ poolSize := by
  rw [← length_initialPool_ne_zero_iff]
  constructor
  · intro hall
    obtain ⟨s, hs⟩ := hall []
    obtain ⟨s₁, hnew, -⟩ := Option.bind_eq_some_iff.mp hs
    obtain ⟨r, hget, -⟩ := Option.bind_eq_some_iff.mp hnew
    exact ContextPool.getIOContext_isSome_iff.mp ⟨r, hget⟩
  · intro hsize es
    obtain ⟨s₁, hnew, h₁⟩ := new_eq_some hsize host port
    obtain ⟨s', hrun⟩ := run_eq_some h₁ es
    exact ⟨s', Option.bind_eq_some_iff.mpr ⟨s₁, hnew, hrun⟩⟩

/-! #### What a server throws -/

/-- Starting an accept neither runs the pool nor stops it. -/
theorem isRunning_of_startAccept {s s' : Server} (h : s.startAccept = some s') :
    s'.ioContextPool.isRunning = s.ioContextPool.isRunning := by
  obtain ⟨⟨ctx, pool⟩, hget, h⟩ := Option.bind_eq_some_iff.mp h
  obtain rfl := Option.some.inj h
  exact ContextPool.isRunning_of_getIOContext hget

/-- Only `Run` throws, and only where the pool runs, as it does behind every `Run`. -/
theorem step_throws {s : Server} {e : Event} {r : CallResult Server} (h : s.step e = some r) :
    (r.thrown = if e = .run ∧ s.ioContextPool.isRunning = true
        then some ContextPool.alreadyRunning else none) ∧
      (r.object.ioContextPool.isRunning = true ↔
        s.ioContextPool.isRunning = true ∨ e = .run) := by
  cases e with
  | setState state | close =>
      obtain rfl := Option.some.inj h
      exact ⟨rfl, by simp [ContextPool.stop]⟩
  | run =>
      obtain rfl := Option.some.inj h
      obtain ⟨hruns, ⟨hp, -, hthrown⟩ | ⟨hp, hthrown⟩⟩ := ContextPool.run_cases s.ioContextPool
      · exact ⟨by simp [hp, hthrown], by simp [hruns]⟩
      · exact ⟨by simp [hp, hthrown], by simp [hruns]⟩
  | accepted errorCode =>
      obtain ⟨s', hs', rfl⟩ := Option.map_eq_some_iff.mp h
      refine ⟨rfl, ?_⟩
      rw [handleAccept] at hs'
      dsimp only at hs'
      split at hs'
      · rw [isRunning_of_startAccept hs']
        simp
      · obtain rfl := Option.some.inj hs'
        simp

/-- The pool of a server runs behind its first `Run`. -/
theorem isRunning_of_run {s s' : Server} {es : List Event} (h : s.run es = some s') :
    s'.ioContextPool.isRunning = true ↔ s.ioContextPool.isRunning = true ∨ .run ∈ es := by
  induction es generalizing s with
  | nil =>
      obtain rfl := Option.some.inj h
      simp
  | cons e es ih =>
      obtain ⟨s₁, hnext, hrun⟩ := Option.bind_eq_some_iff.mp h
      obtain ⟨r, hstep, rfl⟩ := Option.map_eq_some_iff.mp hnext
      rw [ih hrun, (step_throws hstep).2, List.mem_cons, eq_comm (a := e), or_assoc]

/-- A pool that is filled runs as little as before. -/
theorem isRunning_foldl_emplaceBack (l : List ℕ) (p : ContextPool) :
    (l.foldl ContextPool.emplaceBack p).isRunning = p.isRunning := by
  induction l generalizing p with
  | nil => rfl
  | cons i l ih => exact ih _

/-- The pool of a server that was just constructed does not run. -/
theorem isRunning_of_new {host : String} {port : UInt16} {poolSize : ℕ} {s : Server}
    (h : new host port poolSize = some s) : s.ioContextPool.isRunning = false := by
  obtain ⟨⟨ctx, pool⟩, hget, hstart⟩ := Option.bind_eq_some_iff.mp h
  rw [isRunning_of_startAccept hstart]
  exact (ContextPool.isRunning_of_getIOContext hget).trans (isRunning_foldl_emplaceBack _ _)

/-- **Which calls of a server throw**: every `Run` but the first one, whatever happened
before, and nothing else. -/
theorem thrown_of_run {host : String} {port : UInt16} {poolSize : ℕ} {es : List Event}
    {s : Server} (h : ((new host port poolSize).bind fun s => s.run es) = some s) {e : Event}
    {r : CallResult Server} (hstep : s.step e = some r) :
    r.thrown = if e = .run ∧ .run ∈ es then some ContextPool.alreadyRunning else none := by
  obtain ⟨s₀, hnew, hrun⟩ := Option.bind_eq_some_iff.mp h
  have hruns : s.ioContextPool.isRunning = true ↔ .run ∈ es := by
    rw [isRunning_of_run hrun, isRunning_of_new hnew]
    simp
  rw [(step_throws hstep).1]
  simp only [hruns]

end Server

end Camille
