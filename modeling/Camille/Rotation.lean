import Camille.Lib.Machine
import Camille.Pool
import Mathlib.Data.Int.CardIntervalMod

/-!
# Contexts in Turn

The order in which `ContextPool::GetIOContext` hands out its contexts, and the context every
session of a server gets. The counter is a `size_t`: it goes on from zero behind the last
value, and there the turn breaks off unless the number of contexts is a power of two.

## Main results

* `ContextPool.count_handOut`: no context is ahead of another by more than one.
* `Server.sessions_of_run`: the context and the state of every session.
-/

namespace Camille

namespace ContextPool

/-- The places of the contexts that a sequence of calls hands out. -/
def handOut (p : ContextPool) : List Op → Option (List ℕ)
  | [] => some []
  | .getIOContext :: ops => do
    let (ctx, p) ← p.getIOContext
    return ctx.place :: (← p.handOut ops)
  | op :: ops => do
    let r ← p.step op
    r.object.handOut ops

/-- A pool of `n` contexts, `k` of which were handed out. -/
structure Turns (n k : ℕ) (p : ContextPool) : Prop where
  places : p.ioContexts.map AsioIOContext.place = List.range n
  counter : p.nextIoContext.toNat = k % 2 ^ 64

/-- The contexts are put behind those there are. -/
theorem places_foldl_emplaceBack (l : List ℕ) (p : ContextPool) :
    (l.foldl emplaceBack p).ioContexts.map AsioIOContext.place =
        p.ioContexts.map AsioIOContext.place ++ l ∧
      (l.foldl emplaceBack p).nextIoContext = p.nextIoContext := by
  induction l generalizing p with
  | nil => simp
  | cons i l ih =>
      obtain ⟨hplaces, hcounter⟩ := ih (p.emplaceBack i)
      rw [List.foldl_cons, hplaces, hcounter]
      simp [emplaceBack]

/-- A new pool is at its first context. -/
theorem turns_new (poolSize : ℕ) : Turns (poolSize % 2 ^ 32) 0 (new poolSize) := by
  obtain ⟨hplaces, hcounter⟩ :=
    places_foldl_emplaceBack (List.range (UInt32.ofNat poolSize).toNat)
      { poolSize := UInt32.ofNat poolSize }
  refine ⟨?_, ?_⟩
  · rw [new, hplaces, UInt32.toNat_ofNat']
    rfl
  · rw [new, hcounter]
    rfl

/-- The pool has as many contexts as there are turns. -/
theorem Turns.length_eq {n k : ℕ} {p : ContextPool} (hp : Turns n k p) :
    p.ioContexts.length = n := by
  have := congrArg List.length hp.places
  rwa [List.length_map, List.length_range] at this

/-- `GetIOContext` takes the next context in turn. -/
theorem Turns.getIOContext {n k : ℕ} {p : ContextPool} (hn : n ≠ 0) (hp : Turns n k p) :
    ∃ ctx q, p.getIOContext = some (ctx, q) ∧ ctx.place = k % 2 ^ 64 % n ∧
      Turns n (k + 1) q := by
  have hlength := hp.length_eq
  have hne : p.ioContexts.length ≠ 0 := by rwa [hlength]
  have hlt : p.index < p.ioContexts.length := Nat.mod_lt _ (Nat.pos_of_ne_zero hne)
  have hplace : (p.ioContexts[p.index]).place = p.index := by
    have := congrArg (fun l => l[p.index]?) hp.places
    simp only [List.getElem?_map, List.getElem?_eq_getElem hlt, Option.map_some] at this
    rw [List.getElem?_range (hlength ▸ hlt)] at this
    exact Option.some.inj this
  refine ⟨p.ioContexts[p.index], { p with nextIoContext := p.nextIoContext + 1 }, ?_, ?_,
    hp.places, ?_⟩
  · rw [ContextPool.getIOContext, if_neg hne, List.getElem?_eq_getElem hlt]
    rfl
  · rw [hplace, index, hlength, hp.counter]
  · show (p.nextIoContext + 1).toNat = _
    rw [UInt64.toNat_add, hp.counter, UInt64.toNat_one, Nat.mod_add_mod]

/-- Any other call leaves the turn where it is. -/
theorem Turns.step {n k : ℕ} {p : ContextPool} {r : CallResult ContextPool} (hp : Turns n k p)
    {op : Op} (hop : op ≠ .getIOContext) (h : p.step op = some r) : Turns n k r.object := by
  cases op with
  | run =>
      obtain rfl := Option.some.inj h
      rw [run]
      split
      · exact hp
      · exact ⟨hp.places, hp.counter⟩
  | stop =>
      obtain rfl := Option.some.inj h
      refine ⟨?_, hp.counter⟩
      dsimp only
      rw [stop, List.map_map]
      exact hp.places
  | getIOContext => exact absurd rfl hop

/-- **Contexts are handed out in turn**, whatever calls come between. -/
theorem Turns.handOut_eq {n k : ℕ} {p : ContextPool} (hn : n ≠ 0) (hp : Turns n k p)
    (ops : List Op) :
    p.handOut ops =
      some ((List.range' k (ops.count .getIOContext)).map fun j => j % 2 ^ 64 % n) := by
  induction ops generalizing k p with
  | nil => rfl
  | cons op ops ih =>
      by_cases hop : op = .getIOContext
      · subst hop
        obtain ⟨ctx, q, hget, hplace, hq⟩ := hp.getIOContext hn
        rw [handOut, hget, List.count_cons_self, List.range'_succ, List.map_cons, ← hplace]
        simp [ih hq]
      · obtain ⟨r, hstep⟩ : ∃ r, p.step op = some r := by
          cases op with
          | run => exact ⟨_, rfl⟩
          | stop => exact ⟨_, rfl⟩
          | getIOContext => exact absurd rfl hop
        have hcalls : p.handOut (op :: ops) =
            (p.step op).bind fun r => r.object.handOut ops := by
          cases op with
          | run => rfl
          | stop => rfl
          | getIOContext => exact absurd rfl hop
        rw [hcalls, hstep, Option.bind_some, ih (hp.step hop hstep),
          List.count_cons_of_ne hop]

/-- How often a residue occurs among the first numbers. -/
theorem count_map_mod {n : ℕ} (hn : 0 < n) {c : ℕ} (hc : c < n) (m : ℕ) :
    ((List.range m).map (· % n)).count c = m / n + if c < m % n then 1 else 0 := by
  have hcount := Nat.count_modEq_card m hn c
  rw [Nat.mod_eq_of_lt hc] at hcount
  rw [← hcount]
  clear hcount
  induction m with
  | zero => simp
  | succ m ih =>
      rw [List.range_succ, List.map_append, List.count_append, ih, Nat.count_succ]
      congr 1
      simp [List.count_singleton, Nat.ModEq, Nat.mod_eq_of_lt hc]

/-- **No context is ahead of another by more than one.** Over any sequence of calls of a
pool, as long as the counter does not start again, the contexts in front of the turn were
handed out once more than the others. -/
theorem count_handOut (poolSize : ℕ) (hsize : poolSize % 2 ^ 32 ≠ 0) {ops : List Op}
    (hops : ops.count .getIOContext ≤ 2 ^ 64) {c : ℕ} (hc : c < poolSize % 2 ^ 32) :
    ∃ places, (new poolSize).handOut ops = some places ∧
      places.count c = ops.count .getIOContext / (poolSize % 2 ^ 32) +
        if c < ops.count .getIOContext % (poolSize % 2 ^ 32) then 1 else 0 := by
  refine ⟨_, (turns_new poolSize).handOut_eq hsize ops, ?_⟩
  rw [← count_map_mod (Nat.pos_of_ne_zero hsize) hc, ← List.range_eq_range']
  congr 1
  refine List.map_congr_left fun j hj => ?_
  rw [Nat.mod_eq_of_lt ((List.mem_range.mp hj).trans_le hops)]

/-- `count_handOut` on three contexts, the first two of which were handed out twice. -/
theorem count_handOut_three :
    ∃ places, (new 3).handOut [.getIOContext, .getIOContext, .run, .getIOContext,
        .getIOContext, .stop, .getIOContext] = some places ∧ places.count 1 = 5 / 3 + 1 :=
  count_handOut 3 (by decide) (by decide) (by decide)

end ContextPool

namespace Server

/-- A server takes one event after the other. -/
theorem run_eq_after (s : Server) (es : List Event) : s.run es = Lib.after next s es := by
  induction es generalizing s with
  | nil => rfl
  | cons e es ih => exact congrArg (Option.bind (s.next e)) (funext ih)

/-- Whether an event is the end of an accept. -/
def Event.isAccept : Event → Bool
  | accepted _ => true
  | _ => false

/-- The state behind an event. -/
def Event.stateAfter (state : Bool) : Event → Bool
  | setState state => state
  | _ => state

/-- The state a server was last told. -/
def lastState (es : List Event) : Bool :=
  es.foldl Event.stateAfter false

/-- The number of contexts behind a server. -/
def contexts (poolSize : ℕ) : ℕ :=
  (if poolSize = 0 then 1 else poolSize) % 2 ^ 32

/-- The events that started a session. -/
def starts (es : List Event) : List ℕ :=
  (List.range es.length).filter fun i => es[i]? = some (.accepted false)

/-- The session that event `i` started: the place of its context, and its state. -/
def sessionAt (n : ℕ) (es : List Event) (i : ℕ) : ℕ × Bool :=
  (((es.take i).countP Event.isAccept + 1) % 2 ^ 64 % n, lastState (es.take i))

/-- One accept more, one session more if there was no error. -/
theorem starts_concat (es : List Event) (e : Event) :
    starts (es ++ [e]) = starts es ++ if e = .accepted false then [es.length] else [] := by
  rw [starts, List.length_append, List.length_singleton, List.range_succ, List.filter_append]
  congr 1
  · refine List.filter_congr fun i hi => ?_
    rw [List.getElem?_append_left (List.mem_range.mp hi)]
  · simp [List.filter_singleton]

/-- Later events do not change the session that an event started. -/
theorem sessionAt_append (n : ℕ) {es : List Event} (es' : List Event) {i : ℕ}
    (hi : i ≤ es.length) : sessionAt n (es ++ es') i = sessionAt n es i := by
  rw [sessionAt, sessionAt, List.take_append_of_le_length hi]

/-- A server behind a sequence of events, in which nobody closed it. -/
structure InTurn (n : ℕ) (es : List Event) (s : Server) : Prop where
  pool : s.ioContextPool.Turns n (es.countP Event.isAccept + 2)
  socket : ∃ ctx, s.newSocket = some ctx ∧
    ctx.place = (es.countP Event.isAccept + 1) % 2 ^ 64 % n
  state : s.state = lastState es
  isOpen : s.acceptor.isOpen = true
  sessions : s.sessions.map (fun x => (x.1.place, x.2)) = (starts es).map (sessionAt n es)

/-- A new server is about to give out its first context. -/
theorem inTurn_new {host : String} {port : UInt16} {poolSize : ℕ} {s : Server}
    (hsize : contexts poolSize ≠ 0) (h : new host port poolSize = some s) :
    InTurn (contexts poolSize) [] s := by
  obtain ⟨ctx, pool, hget, -, hpool⟩ :=
    (ContextPool.turns_new (if poolSize = 0 then 1 else poolSize)).getIOContext hsize
  obtain ⟨clientCtx, pool', hget', hplace, hpool'⟩ := hpool.getIOContext hsize
  have hinit : (initialPool poolSize).getIOContext = some (ctx, pool) := hget
  rw [new, hinit] at h
  have hstart : startAccept { ioContextPool := pool, acceptor := ⟨ctx, host, port, true⟩ } =
      some s := h
  rw [startAccept, hget'] at hstart
  obtain rfl := Option.some.inj hstart
  exact ⟨hpool', ⟨clientCtx, rfl, hplace⟩, rfl, rfl, rfl⟩

/-- The sessions behind one more event. -/
theorem map_sessionAt_concat (n : ℕ) (es : List Event) (e : Event) :
    (starts (es ++ [e])).map (sessionAt n (es ++ [e])) =
      (starts es).map (sessionAt n es) ++ if e = .accepted false then
        [((es.countP Event.isAccept + 1) % 2 ^ 64 % n, lastState es)] else [] := by
  rw [starts_concat, List.map_append]
  congr 1
  · exact List.map_congr_left fun i hi =>
      sessionAt_append n [e] (List.mem_range.mp (List.mem_filter.mp hi).1).le
  · split
    · rw [List.map_singleton, sessionAt_append n [e] le_rfl, sessionAt, List.take_length]
    · rfl

/-- **One event.** -/
theorem step_inTurn {n : ℕ} (hn : n ≠ 0) {es : List Event} {s s' : Server} {e : Event}
    (hs : InTurn n es s) (he : e ≠ .close) (h : s.next e = some s') :
    InTurn n (es ++ [e]) s' := by
  have hcount : (es ++ [e]).countP Event.isAccept =
      es.countP Event.isAccept + if e.isAccept then 1 else 0 := by
    rw [List.countP_append, List.countP_singleton]
  have hstate : lastState (es ++ [e]) = e.stateAfter (lastState es) := by
    rw [lastState, List.foldl_append]
    rfl
  obtain ⟨hpool, ⟨ctx, hsocket, hplace⟩, hstate', hopen, hsessions⟩ := hs
  cases e with
  | close => exact absurd rfl he
  | setState state =>
      obtain rfl := Option.some.inj h
      refine ⟨?_, ⟨ctx, hsocket, ?_⟩, hstate.symm, hopen, ?_⟩
      · rw [hcount]
        exact hpool
      · rw [hcount]
        exact hplace
      · rw [map_sessionAt_concat, if_neg (by simp), List.append_nil]
        exact hsessions
  | run =>
      obtain rfl := Option.some.inj h
      refine ⟨?_, ⟨ctx, hsocket, ?_⟩, hstate'.trans hstate.symm, hopen, ?_⟩
      · rw [hcount]
        exact hpool.step (show ContextPool.Op.run ≠ .getIOContext by simp) rfl
      · rw [hcount]
        exact hplace
      · rw [map_sessionAt_concat, if_neg (by simp), List.append_nil]
        exact hsessions
  | accepted errorCode =>
      obtain ⟨clientCtx, q, hget, hplace', hq⟩ := hpool.getIOContext hn
      have hnext : s.next (.accepted errorCode) = some { s with
          sessions := s.sessions ++
            if errorCode then [] else s.newSocket.toList.map fun ctx => (ctx, s.state)
          ioContextPool := q
          newSocket := some clientCtx } := by
        simp [next, step, handleAccept, hopen, startAccept, hget]
      obtain rfl := Option.some.inj (hnext.symm.trans h)
      refine ⟨?_, ⟨clientCtx, rfl, ?_⟩, hstate'.trans hstate.symm, hopen, ?_⟩
      · rw [hcount, Event.isAccept, if_pos rfl]
        exact hq
      · rw [hcount, Event.isAccept, if_pos rfl, hplace']
      · rw [map_sessionAt_concat, List.map_append, hsessions]
        cases errorCode with
        | true => simp
        | false => simp [hsocket, hplace, hstate']

/-- **The context and the state of every session.** As long as nobody closes the server, the
sessions stand for the accepts that succeeded, in order; each runs on the context whose
turn it was, counting the acceptor and the accepts that failed, and has the state the server
was last told before. -/
theorem sessions_of_run {host : String} {port : UInt16} {poolSize : ℕ} {es : List Event}
    {s : Server} (hsize : contexts poolSize ≠ 0) (hes : .close ∉ es)
    (h : ((new host port poolSize).bind fun s => s.run es) = some s) :
    s.sessions.map (fun x => (x.1.place, x.2)) =
      (starts es).map (sessionAt (contexts poolSize) es) := by
  obtain ⟨s₀, hnew, hrun⟩ := Option.bind_eq_some_iff.mp h
  rw [run_eq_after] at hrun
  have hturn : InTurn (contexts poolSize) es s := by
    clear h
    induction es using List.reverseRecOn generalizing s with
    | nil =>
        obtain rfl := Option.some.inj hrun
        exact inTurn_new hsize hnew
    | append_singleton es e ih =>
        obtain ⟨s₁, hs₁, hstep⟩ := Lib.after_concat_eq_some.mp hrun
        refine step_inTurn hsize (ih (fun hmem => hes ?_) hs₁) ?_ hstep
        · exact List.mem_append_left _ hmem
        · rintro rfl
          exact hes (List.mem_append_right _ List.mem_cons_self)
  exact hturn.sessions

/-- `sessions_of_run` on two contexts: the accept that failed takes a turn. -/
theorem sessions_of_run_two :
    ∃ s, ((new "::1" 80 2).bind fun s =>
        s.run [.accepted false, .accepted true, .setState true, .accepted false]) = some s ∧
      s.sessions.map (fun x => (x.1.place, x.2)) = [(1, false), (1, true)] := by
  obtain ⟨s, hs⟩ : ∃ s, ((new "::1" 80 2).bind fun s =>
      s.run [.accepted false, .accepted true, .setState true, .accepted false]) = some s :=
    Option.isSome_iff_exists.mp (by decide)
  refine ⟨s, hs, ?_⟩
  have := sessions_of_run (by decide) (by decide) hs
  rw [this]
  decide

end Server

end Camille
