import Camille.Process

/-!
# How Often a Session Uses Its Socket

A read that brings nothing more and a write that takes nothing end their operations, and a
session starts a new one only behind a head that it parsed. It cannot go on reading and
writing for nothing: what it does on its socket is paid for by what its client sends, as
long as that is fewer than `2 ^ 31` bytes.

## Main results

* `Transport.length_le_earned`: what a session pays its reads and writes with.
* `Process.length_socketEvents_le`: the number of its reads and writes.
-/

open Lib

namespace Camille

/-- What a session still has to pay for: a read it waits for ends some time, and so do a
write and the read behind it. -/
def Operation.owes : Operation → ℕ
  | idle => 0
  | reading _ _ => 1
  | writing _ _ => 2
  | ended _ => 0

namespace Transport

/-- What a session has earned: every byte it sent pays for a write, and every head it parsed
for the ends of a read and a write. -/
def earned (t : Transport) : ℕ :=
  t.sent.length + 2 * t.views.length

/-- The session `t'` behind `t` owes at most `n` more than it has earned on the way. -/
def Pays (n : ℕ) (t t' : Transport) : Prop :=
  t'.operation.owes + t.earned ≤ n + t'.earned

/-- What is owed may be rounded up. -/
theorem Pays.mono {n m : ℕ} {t t' : Transport} (h : Pays n t t') (hle : n ≤ m) :
    Pays m t t' :=
  h.trans (Nat.add_le_add_right hle _)

section Pays

variable {growth : Growth} {n : ℕ} {t : Transport}

/-- A session that ends pays whatever is asked. -/
theorem pays_finish (n : ℕ) (t : Transport) (ending : SessionEnd) :
    Pays n t (t.finish ending) := by
  simp [Pays, finish, Operation.owes, earned]

/-- A call that does not return ends the session. -/
theorem pays_proceed {α : Type} {t₀ : Transport} {f : α → Transport}
    (hend : ∀ ending, Pays n t₀ (t.finish ending)) (hf : ∀ a, Pays n t₀ (f a)) (o : Outcome α) :
    Pays n t₀ (t.proceed o f) := by
  cases o with
  | returned a => exact hf a
  | threw e => exact hend _
  | undefined => exact hend _

/-- A read that is begun costs one event. -/
theorem pays_doRead (t : Transport) (s : Streambuf) : Pays 1 t (t.doRead growth s) := by
  refine pays_proceed (fun ending => pays_finish 1 t ending) (fun op => ?_) _
  simp [Pays, Operation.owes, earned]

/-- A head pays for its write. -/
theorem pays_readHandler (t : Transport) (handler : RequestHandler) (s : Streambuf)
    (ec : Option ErrorCode) (bytes : ℕ) : Pays 0 t (t.readHandler handler s ec bytes) := by
  unfold readHandler
  cases ec with
  | some ec => exact pays_finish 0 t _
  | none =>
      dsimp only
      have hlost : ∀ ending, Pays 0 t
          (({ t with views := t.views ++ [s.data.take bytes] } : Transport).finish ending) := by
        intro ending
        simp only [Pays, finish, Operation.owes, earned, List.length_append]
        omega
      rcases handler.parse (s.data.take bytes) with - | ⟨⟨- | request⟩ | e | -, h⟩
      · exact hlost _
      · exact hlost _
      · refine pays_proceed (fun ending => ?_) (fun u => ?_) _
        · exact hlost ending
        · simp only [Pays, doWrite, Operation.owes, earned, List.length_append,
            List.length_singleton]
          omega
      · exact hlost _
      · exact hlost _

/-- A write that is handled costs one. -/
theorem pays_writeHandler (t : Transport) (toConsume : ℕ) (s : Streambuf)
    (ec : Option ErrorCode) : Pays 1 t (t.writeHandler growth toConsume s ec) := by
  unfold writeHandler
  cases ec with
  | some ec => exact pays_finish 1 t _
  | none => exact pays_proceed (fun ending => pays_finish 1 t ending) (pays_doRead t) _

end Pays

end Transport

/-- A read goes on only with bytes. -/
theorem ReadUntil.bytes_ne_nil_of_step {growth : Growth} {delim : Bytes} {op op' : ReadUntilOp}
    {s s' : Streambuf} {n n' : ℕ} {r : SocketRead}
    (h : step growth delim (.returned (.reads op s n)) r = some (.returned (.reads op' s' n'))) :
    r.bytes ≠ [] := by
  have hends : ∀ ec (bytes : Bytes), (ec.isSome ∨ bytes.length = 0) →
      resume growth delim op s ec bytes ≠ .returned (.reads op' s' n') := by
    intro ec bytes hdone hgo
    rw [resume] at hgo
    cases hfill : (s.fill bytes).bind fun s => s.commit bytes.length with
    | returned u =>
        rw [hfill, Outcome.returned_bind, if_pos hdone] at hgo
        cases hgo
    | threw e =>
        rw [hfill] at hgo
        cases hgo
    | undefined =>
        rw [hfill] at hgo
        cases hgo
  intro hnil
  unfold step at h
  dsimp only at h
  split at h
  · cases r with
    | received bytes =>
        obtain rfl : bytes = [] := hnil
        exact hends none [] (.inr rfl) (Option.some.inj h)
    | failed ec => exact hends (some ec) [] (.inl rfl) (Option.some.inj h)
  · cases h

/-- A write goes on only when it took bytes. -/
theorem Write.bytes_ne_nil_of_step {buffers buffers' : ConsumingBuffer} {s s' : Streambuf}
    {request request' : Bytes} {w : SocketWrite}
    (h : step (.returned (.writes buffers s request)) w =
      some (.returned (.writes buffers' s' request'))) : w.bytes ≠ [] := by
  have hends : ∀ ec n, complete s ec n ≠ .returned (.writes buffers' s' request') := by
    intro ec n hgo
    rw [complete] at hgo
    cases hconsume : s.consume n <;> rw [hconsume] at hgo <;> cases hgo
  intro hnil
  unfold step at h
  dsimp only at h
  split at h
  · cases w with
    | wrote bytes =>
        obtain rfl : bytes = [] := hnil
        have hresume : resume buffers s none 0 =
            complete s none (buffers.consume 0).totalConsumed := by
          unfold resume
          exact if_pos (.inl ⟨rfl, rfl⟩)
        exact hends _ _ (hresume.symm.trans (Option.some.inj h))
    | failed ec => exact hends _ _ ((resume_failed ec).symm.trans (Option.some.inj h))
  · cases h

namespace Transport

variable {growth : Growth}

/-- A read that completed. -/
theorem pays_read (t : Transport) (handler : RequestHandler) {op : ReadUntil} {r : SocketRead}
    {o : Outcome ReadUntil} (ho : ReadUntil.step growth crlfcrlf (.returned op) r = some o) :
    Pays r.bytes.length t (t.proceed o (t.afterRead handler)) := by
  cases o with
  | returned p =>
      cases p with
      | completed s ec bytes => exact (pays_readHandler t handler s ec bytes).mono (Nat.zero_le _)
      | reads op' s' n' =>
          cases op with
          | completed s ec bytes => cases ho
          | reads op s n =>
              have hbytes := List.length_pos_of_ne_nil (ReadUntil.bytes_ne_nil_of_step ho)
              simp only [Pays, proceed, afterRead, Operation.owes, earned]
              omega
  | threw e => exact pays_finish _ t _
  | undefined => exact pays_finish _ t _

/-- A write that completed. -/
theorem pays_write (t : Transport) (toConsume : ℕ) {op : Write} {w : SocketWrite}
    {o : Outcome Write} (ho : Write.step (.returned op) w = some o) :
    Pays (1 + w.bytes.length) t (t.proceed o (t.afterWrite growth toConsume)) := by
  cases o with
  | returned p =>
      cases p with
      | completed s ec bytes =>
          exact (pays_writeHandler t toConsume s ec).mono (Nat.le_add_right _ _)
      | writes buffers' s' request' =>
          cases op with
          | completed s ec bytes => cases ho
          | writes buffers s request =>
              have hbytes := List.length_pos_of_ne_nil (Write.bytes_ne_nil_of_step ho)
              simp only [Pays, proceed, afterWrite, Operation.owes, earned]
              omega
  | threw e => exact pays_finish _ t _
  | undefined => exact pays_finish _ t _

/-- **One event.** -/
theorem step_pays {t t' : Transport} {e : SocketEvent} (h : t.step growth e = some t') :
    1 + t'.operation.owes + t.earned ≤ e.received.length + t.operation.owes + t'.earned := by
  unfold step at h
  split at h
  · rename_i handler op r hop
    obtain ⟨o, ho, rfl⟩ := Option.map_eq_some_iff.mp h
    have hpays := pays_read t handler ho
    have howes : t.operation.owes = 1 := by rw [hop, Operation.owes]
    rw [howes, SocketEvent.received]
    rw [Pays] at hpays
    omega
  · rename_i toConsume op w hop
    obtain ⟨o, ho, rfl⟩ := Option.map_eq_some_iff.mp h
    have hpays : Pays _ _ (proceed _ _ (afterWrite growth _ toConsume)) :=
      pays_write { t with sent := t.sent ++ w.bytes } toConsume ho
    have hsent : ({ t with sent := t.sent ++ w.bytes } : Transport).earned =
        t.earned + w.bytes.length := by
      simp only [earned, List.length_append]
      omega
    have howes : t.operation.owes = 2 := by rw [hop, Operation.owes]
    rw [howes, SocketEvent.received, List.length_nil]
    rw [Pays, hsent] at hpays
    omega
  · cases h

/-- **What a session pays its reads and writes with**: the bytes it received, those it sent
and the heads it parsed. -/
theorem length_le_earned {es : List SocketEvent} {t : Transport}
    (h : after (step growth) (start growth) es = some t) :
    es.length ≤ (es.flatMap SocketEvent.received).length + 1 + t.earned := by
  have hall := length_le_of_after (fun _ _ _ hstep => step_pays hstep) h
  have hstart : Pays 1 {} (start growth) := pays_doRead {} _
  have hnothing : ({} : Transport).earned = 0 := rfl
  rw [Pays, hnothing] at hstart
  rw [List.length_flatMap]
  omega

/-- Heads and bytes sent are bytes received, when these are fewer than `2 ^ 31`. -/
theorem earned_le {es : List SocketEvent} {t : Transport}
    (h : after (step growth) (start growth) es = some t)
    (hshort : (es.flatMap SocketEvent.received).length < 2 ^ 31) :
    t.earned ≤ (es.flatMap SocketEvent.received).length := by
  cases balanced_of_after growth h hshort with
  | reading rounds rest hreceived hviews hsent hbuffer hends =>
      have hheads := Connection.length_heads_le hends
      have hrounds := Connection.length_rounds rounds
      rw [hviews] at hheads
      rw [hreceived, earned, hsent, hviews, List.length_append]
      omega
  | writing rounds view echo taken hreceived hviews hsent htaken hbuffer hends =>
      have hheads := Connection.length_heads_le hends
      have hrounds := Connection.length_rounds rounds
      have hle := htaken.length_le
      rw [hviews, List.flatten_append, List.flatten_singleton] at hheads
      rw [hreceived, earned, hsent, hviews]
      simp only [List.length_append] at hheads ⊢
      omega

/-- **A session uses its socket at most twice a byte it receives**, and once more, as long as
these are fewer than `2 ^ 31`. -/
theorem length_le_of_received {es : List SocketEvent} {t : Transport}
    (h : after (step growth) (start growth) es = some t)
    (hshort : (es.flatMap SocketEvent.received).length < 2 ^ 31) :
    es.length ≤ 2 * (es.flatMap SocketEvent.received).length + 1 := by
  have hpaid := length_le_earned h
  have hearned := earned_le h hshort
  omega

end Transport

/-- **No session goes on for nothing**: whatever the sockets of a process do, in whatever
order, each of its sessions that received fewer than `2 ^ 31` bytes has used its own at most
twice a byte that it received, and once more. -/
theorem Process.length_socketEvents_le {growth : Growth} {server : Server} {es : List Event}
    {p : Process} (h : after (step growth) { server := server } es = some p) {i : ℕ}
    {t : Transport} (hi : p.sessions[i]? = some t) (hshort : (received i es).length < 2 ^ 31) :
    (socketEvents i es).length ≤ 2 * (received i es).length + 1 :=
  Transport.length_le_of_received (session_of_after h hi) hshort

/-- `length_socketEvents_le` on the second of two sessions. -/
theorem Process.length_socketEvents_twoSessions :
    ∃ (server : Server) (p : Process),
      after (step Growth.doubling) { server := server } twoSessions = some p ∧
      (socketEvents 1 twoSessions).length ≤ 2 * 4 + 1 := by
  obtain ⟨server, p, -, hafter, -, hlength⟩ := after_twoSessions
  have hi : p.sessions[1]? = some p.sessions[1] := List.getElem?_eq_getElem (by omega)
  have hreceived : (received 1 twoSessions).length = 4 := by decide
  have hle := length_socketEvents_le hafter hi (by omega)
  rw [hreceived] at hle
  exact ⟨server, p, hafter, hle⟩

end Camille
