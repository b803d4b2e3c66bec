import Camille.ReadUntil

/-!
# Writing a Stream Buffer

`asio::async_write` of a stream buffer: `write_op` with `transfer_all`, and
`write_dynbuf_v1_op` around it. The operation writes what can be read of the buffer, at most
65536 bytes at a time and from where the last write ended, until all is written or a write
fails, and then consumes what was written.

A write to a stream socket takes at least one byte, unless it was given none; a write that
failed takes none. Nothing cancels the operation.

## Main results

* `write_of_after`: what was written is the front of the buffer, and is consumed.
* `length_writes_le`: how many writes there can be.
-/

open Lib

namespace Camille

/-- `default_max_transfer_size`. -/
def defaultMaxTransferSize : ℕ := 65536

/-- `transfer_all_t`: how much more to transfer. -/
def transferAll (ec : Option ErrorCode) : ℕ :=
  if ec.isSome then 0 else defaultMaxTransferSize

/-- `consuming_single_buffer`: a buffer, and how much of it was consumed. -/
structure ConsumingBuffer where
  buffer : Bytes
  totalConsumed : ℕ := 0
  deriving DecidableEq, Repr

namespace ConsumingBuffer

/-- `empty()`. -/
def empty (b : ConsumingBuffer) : Bool :=
  decide (b.buffer.length ≤ b.totalConsumed)

/-- `prepare`. -/
def prepare (b : ConsumingBuffer) (maxSize : ℕ) : Bytes :=
  (b.buffer.drop b.totalConsumed).take maxSize

/-- `consume`. -/
def consume (b : ConsumingBuffer) (size : ℕ) : ConsumingBuffer :=
  { b with totalConsumed := b.totalConsumed + size }

end ConsumingBuffer

/-- Where a write of the stream buffer `s` stands: it waits for a write of `request`, or has
completed. -/
inductive Write
  | writes (buffers : ConsumingBuffer) (s : Streambuf) (request : Bytes)
  | completed (s : Streambuf) (ec : Option ErrorCode) (bytes : ℕ)

/-- What a write to the socket comes to: it took these bytes, or it failed. -/
inductive SocketWrite
  | wrote (bytes : Bytes)
  | failed (ec : ErrorCode)
  deriving DecidableEq, Repr

namespace SocketWrite

/-- The bytes a write took. -/
def bytes : SocketWrite → Bytes
  | wrote bytes => bytes
  | failed _ => []

/-- The error of a write. -/
def error : SocketWrite → Option ErrorCode
  | wrote _ => none
  | failed ec => some ec

/-- What a write of `request` to a stream socket can come to. -/
def Possible (request : Bytes) : SocketWrite → Prop
  | wrote bytes => bytes <+: request ∧ (bytes = [] ↔ request = [])
  | failed _ => request ≠ []

/-- Whether a write is possible can be computed. -/
instance (request : Bytes) (w : SocketWrite) : Decidable (w.Possible request) := by
  cases w with
  | wrote bytes =>
      exact inferInstanceAs (Decidable (bytes <+: request ∧ (bytes = [] ↔ request = [])))
  | failed ec => exact inferInstanceAs (Decidable (request ≠ []))

end SocketWrite

namespace Write

/-- `async_write` of a stream buffer. -/
def start (s : Streambuf) : Write :=
  let buffers : ConsumingBuffer := { buffer := s.data }
  .writes buffers s (buffers.prepare (transferAll none))

/-- `write_dynbuf_v1_op::operator()`, called by the end of the write. -/
def complete (s : Streambuf) (ec : Option ErrorCode) (bytes : ℕ) : Outcome Write :=
  (s.consume bytes).bind fun s => .returned (.completed s ec bytes)

/-- `write_op::operator()`, called by a write that took `bytes` bytes. -/
def resume (buffers : ConsumingBuffer) (s : Streambuf) (ec : Option ErrorCode) (bytes : ℕ) :
    Outcome Write :=
  let buffers := buffers.consume bytes
  if (ec = none ∧ bytes = 0) ∨ buffers.empty then complete s ec buffers.totalConsumed
  else if transferAll ec = 0 then complete s ec buffers.totalConsumed
  else .returned (.writes buffers s (buffers.prepare (transferAll ec)))

/-- The operation behind a write to the socket. -/
def step (o : Outcome Write) (w : SocketWrite) : Option (Outcome Write) :=
  match o with
  | .returned (.writes buffers s request) =>
    if w.Possible request then some (resume buffers s w.error w.bytes.length) else none
  | _ => none

/-- Where an operation stands behind a sequence of writes that took `sent`. -/
inductive Stands (s : Streambuf) (writes : List SocketWrite) (sent : Bytes) : Write → Prop
  | writing {request : Bytes} {buffers : ConsumingBuffer} (hbuffer : buffers.buffer = s.data)
      (htotal : buffers.totalConsumed = sent.length) (hsent : sent <+: s.data)
      (hmore : writes = [] ∨ sent.length < s.data.length) (hcount : writes.length ≤ sent.length)
      (hrequest : request = (s.data.drop sent.length).take defaultMaxTransferSize) :
      Stands s writes sent (.writes buffers s request)
  | done {t : Streambuf} (hsent : sent = s.data) (ht : t.data = []) (hmax : t.maxSize = s.maxSize)
      (hwrites : writes ≠ []) : Stands s writes sent (.completed t none sent.length)
  | failed {t : Streambuf} {ec : ErrorCode} (hlast : writes.getLast? = some (.failed ec))
      (hsent : sent ++ t.data = s.data) (hmore : t.data ≠ []) (hmax : t.maxSize = s.maxSize) :
      Stands s writes sent (.completed t (some ec) sent.length)

variable {s : Streambuf}

/-- What was sent is a beginning of the data. -/
theorem Stands.isPrefix {writes : List SocketWrite} {sent : Bytes} {op : Write}
    (h : Stands s writes sent op) : sent <+: s.data := by
  cases h with
  | writing hbuffer htotal hsent => exact hsent
  | done hsent => rw [hsent]
  | failed hlast hsent => exact ⟨_, hsent⟩

/-- A new write has sent nothing. -/
theorem start_stands (s : Streambuf) : Stands s [] [] (start s) := by
  refine .writing rfl rfl List.nil_prefix (.inl rfl) le_rfl ?_
  rw [List.length_nil, List.drop_zero]
  rfl

section Resume

variable {buffers : ConsumingBuffer} {n : ℕ}

/-- Nothing is left once all has been consumed. -/
theorem empty_consume_iff :
    (buffers.consume n).empty = true ↔ buffers.buffer.length ≤ buffers.totalConsumed + n :=
  decide_eq_true_iff

/-- All is written. -/
theorem resume_of_all (h : buffers.buffer.length ≤ buffers.totalConsumed + n)
    (ec : Option ErrorCode) :
    resume buffers s ec n = complete s ec (buffers.totalConsumed + n) :=
  if_pos (.inr (empty_consume_iff.mpr h))

/-- Bytes are left, and the last write took some. -/
theorem resume_of_more (hn : n ≠ 0) (h : buffers.totalConsumed + n < buffers.buffer.length) :
    resume buffers s none n = .returned (.writes (buffers.consume n) s
      ((buffers.buffer.drop (buffers.totalConsumed + n)).take defaultMaxTransferSize)) := by
  have hmore : ¬ ((none : Option ErrorCode) = none ∧ n = 0 ∨ (buffers.consume n).empty) := by
    rw [empty_consume_iff]
    omega
  exact (if_neg hmore).trans (if_neg (by simp [transferAll, defaultMaxTransferSize]))

/-- The last write failed. -/
theorem resume_failed (ec : ErrorCode) :
    resume buffers s (some ec) n = complete s (some ec) (buffers.totalConsumed + n) := by
  unfold resume
  dsimp only
  split
  · rfl
  · exact if_pos rfl

end Resume

/-- **One write**, as far as the end of the operation: it goes on, or it completes with all
that was written, because that is everything or because the write failed. -/
theorem step_cases {writes : List SocketWrite} {sent : Bytes} {buffers : ConsumingBuffer}
    {t : Streambuf} {request : Bytes} {w : SocketWrite}
    (h : Stands s writes sent (.writes buffers t request)) (hw : w.Possible request) :
    (∃ buffers' request',
        step (.returned (.writes buffers t request)) w =
            some (.returned (.writes buffers' s request')) ∧
          Stands s (writes ++ [w]) (sent ++ w.bytes) (.writes buffers' s request')) ∨
      step (.returned (.writes buffers t request)) w =
          some (complete s w.error (sent ++ w.bytes).length) ∧
        ((w.error = none ∧ sent ++ w.bytes = s.data) ∨
          ∃ ec, w = .failed ec ∧ sent <+: s.data ∧ sent ≠ s.data) := by
  rw [step, if_pos hw]
  cases h with
  | writing hbuffer htotal hsent hmore hcount hrequest =>
      obtain ⟨rest, hrest⟩ := hsent
      have hdrop : s.data.drop sent.length = rest := by rw [← hrest, List.drop_left]
      rw [hdrop] at hrequest
      have hfront : request <+: rest := hrequest ▸ List.take_prefix _ _
      cases w with
      | wrote bytes =>
          obtain ⟨htaken, hnil⟩ := hw
          dsimp only [SocketWrite.bytes, SocketWrite.error]
          have hsent' : sent ++ bytes <+: s.data := by
            rw [← hrest]
            exact (List.prefix_append_right_inj sent).mpr (htaken.trans hfront)
          have hlen := hsent'.length_le
          rw [List.length_append] at hlen
          by_cases hall : sent ++ bytes = s.data
          · have hdone : buffers.buffer.length ≤ buffers.totalConsumed + bytes.length := by
              rw [hbuffer, htotal, ← hall, List.length_append]
            rw [resume_of_all hdone, htotal, ← List.length_append]
            exact .inr ⟨rfl, .inl ⟨rfl, hall⟩⟩
          · -- bytes are left, so that some were asked for, and taken
            have hlt : sent.length + bytes.length < s.data.length :=
              lt_of_le_of_ne hlen fun heq =>
                hall (hsent'.eq_of_length (by rw [List.length_append, heq]))
            have hne : request ≠ [] := by
              rintro rfl
              have hrest' : rest.length ≠ 0 := by
                rw [← hrest, List.length_append] at hlt
                omega
              have := congrArg List.length hrequest
              rw [List.length_nil, List.length_take, defaultMaxTransferSize] at this
              omega
            have hbytes : bytes.length ≠ 0 := fun h0 =>
              hne (hnil.mp (List.eq_nil_of_length_eq_zero h0))
            rw [resume_of_more hbytes (by rw [hbuffer, htotal]; exact hlt)]
            refine .inl ⟨_, _, rfl, .writing hbuffer ?_ hsent' (.inr ?_) ?_ ?_⟩
            · rw [List.length_append, ← htotal]
              rfl
            · rwa [List.length_append]
            · rw [List.length_append, List.length_append, List.length_singleton]
              omega
            · rw [hbuffer, htotal, List.length_append]
      | failed ec =>
          dsimp only [SocketWrite.bytes, SocketWrite.error]
          rw [resume_failed, List.length_nil, Nat.add_zero, htotal, List.append_nil]
          refine .inr ⟨rfl, .inr ⟨ec, rfl, ⟨rest, hrest⟩, ?_⟩⟩
          intro hall
          have hnil : rest = [] := List.append_right_eq_self.mp (hrest.trans hall.symm)
          exact hw (by rw [hrequest, hnil]; rfl)

/-- What was written is consumed. -/
theorem complete_spec {sent : Bytes} (hshort : s.data.length < 2 ^ 31) (hsent : sent <+: s.data)
    (ec : Option ErrorCode) :
    ∃ t, complete s ec sent.length = .returned (.completed t ec sent.length) ∧
      sent ++ t.data = s.data ∧ t.maxSize = s.maxSize := by
  have hle := hsent.length_le
  obtain ⟨rest, hrest⟩ := hsent
  obtain ⟨t, ht, hdata, hmax⟩ :=
    Streambuf.consume_spec (s := s) (n := sent.length) (by omega) (by omega)
  refine ⟨t, by rw [complete, ht]; rfl, ?_, hmax⟩
  rw [hdata, ← hrest, List.drop_left]

/-- **One write**, and what is consumed at the end. -/
theorem step_stands {writes : List SocketWrite} {sent : Bytes} {buffers : ConsumingBuffer}
    {t : Streambuf} {request : Bytes} {w : SocketWrite} (hshort : s.data.length < 2 ^ 31)
    (h : Stands s writes sent (.writes buffers t request)) (hw : w.Possible request) :
    ∃ p, step (.returned (.writes buffers t request)) w = some (.returned p) ∧
      Stands s (writes ++ [w]) (sent ++ w.bytes) p := by
  rcases step_cases h hw with
    ⟨buffers', request', hstep, hstands⟩ | ⟨hstep, ⟨hec, hall⟩ | ⟨ec, rfl, hsent, hne⟩⟩
  · exact ⟨_, hstep, hstands⟩
  · have hwhole : sent ++ w.bytes <+: s.data := by rw [hall]
    obtain ⟨u, hu, hdata, hmax⟩ := complete_spec hshort hwhole w.error
    have hempty : u.data = [] := by
      rw [hall] at hdata
      exact List.append_right_eq_self.mp hdata
    rw [hu, hec] at hstep
    exact ⟨_, hstep, .done hall hempty hmax (by simp)⟩
  · have hnil : (SocketWrite.failed ec).bytes = [] := rfl
    rw [hnil, List.append_nil] at hstep ⊢
    obtain ⟨u, hu, hdata, hmax⟩ := complete_spec hshort hsent (some ec)
    refine ⟨_, hstep.trans (congrArg some hu), .failed List.getLast?_concat hdata ?_ hmax⟩
    intro hmore
    rw [hmore, List.append_nil] at hdata
    exact hne hdata

/-- A write that was waited for is possible. -/
theorem possible_of_step {buffers : ConsumingBuffer} {t : Streambuf} {request : Bytes}
    {w : SocketWrite} {o : Outcome Write}
    (h : step (.returned (.writes buffers t request)) w = some o) : w.Possible request := by
  by_contra hno
  simp [step, hno] at h

/-- **What was written is the front of the buffer**, whatever the writes of fewer than
`2 ^ 31` bytes come to: in order, each byte once, and all of it when no write fails. It is
consumed at the end, and no other byte is. -/
theorem write_of_after {s : Streambuf} (hshort : s.data.length < 2 ^ 31)
    {writes : List SocketWrite} {o : Outcome Write}
    (h : after step (.returned (start s)) writes = some o) :
    ∃ p, o = .returned p ∧ Stands s writes (writes.flatMap SocketWrite.bytes) p := by
  induction writes using List.reverseRecOn generalizing o with
  | nil =>
      obtain rfl := Option.some.inj h
      exact ⟨_, rfl, start_stands s⟩
  | append_singleton writes w ih =>
      obtain ⟨o₁, ho₁, hstep⟩ := after_concat_eq_some.mp h
      obtain ⟨p, rfl, hp⟩ := ih ho₁
      rw [List.flatMap_append, List.flatMap_singleton]
      cases p with
      | completed t ec bytes => cases hstep
      | writes buffers t request =>
          obtain ⟨q, hq, hstands⟩ := step_stands hshort hp (possible_of_step hstep)
          exact ⟨q, Option.some.inj (hstep.symm.trans hq), hstands⟩

/-- The run is one of the operation. -/
theorem after_threeBytes :
    ∃ o, after step (.returned (start Streambuf.threeBytes)) [.wrote [1], .failed .brokenPipe] =
      some o :=
  Option.isSome_iff_exists.mp (by decide)

/-- `write_of_after` on a write that fails behind its first byte. -/
theorem write_threeBytes :
    ∃ p, after step (.returned (start Streambuf.threeBytes))
        [.wrote [1], .failed .brokenPipe] = some (.returned p) ∧
      Stands Streambuf.threeBytes [.wrote [1], .failed .brokenPipe] [1] p := by
  obtain ⟨o, ho⟩ := after_threeBytes
  obtain ⟨p, rfl, hp⟩ := write_of_after (by decide) ho
  exact ⟨p, ho, hp⟩

/-- Nothing happens behind the end of an operation. -/
theorem step_complete (ec : Option ErrorCode) (n : ℕ) (w : SocketWrite) :
    step (complete s ec n) w = none := by
  rw [complete]
  cases s.consume n <;> rfl

/-- As long as an operation waits for a write, the writes so far stand in its buffer. -/
theorem stands_or_ended_of_after {writes : List SocketWrite} {o : Outcome Write}
    (h : after step (.returned (start s)) writes = some o) :
    (∃ buffers request, o = .returned (.writes buffers s request) ∧
        Stands s writes (writes.flatMap SocketWrite.bytes) (.writes buffers s request)) ∨
      ∀ w, step o w = none := by
  induction writes using List.reverseRecOn generalizing o with
  | nil =>
      obtain rfl := Option.some.inj h
      exact .inl ⟨_, _, rfl, start_stands s⟩
  | append_singleton writes w ih =>
      obtain ⟨o₁, ho₁, hstep⟩ := after_concat_eq_some.mp h
      rw [List.flatMap_append, List.flatMap_singleton]
      rcases ih ho₁ with ⟨buffers, request, rfl, hstands⟩ | hended
      · rcases step_cases hstands (possible_of_step hstep) with
          ⟨buffers', request', hnext, hstands'⟩ | ⟨hend, -⟩
        · obtain rfl := Option.some.inj (hnext.symm.trans hstep)
          exact .inl ⟨_, _, rfl, hstands'⟩
        · obtain rfl := Option.some.inj (hend.symm.trans hstep)
          exact .inr (step_complete _ _)
      · rw [hended] at hstep
        cases hstep

/-- **How many writes there can be**: one for an empty buffer, and otherwise no more than
there are bytes. -/
theorem length_writes_le {s : Streambuf} {writes : List SocketWrite} {o : Outcome Write}
    (h : after step (.returned (start s)) writes = some o) :
    writes.length ≤ max 1 s.data.length := by
  cases writes using List.reverseRecOn with
  | nil => exact Nat.zero_le _
  | append_singleton writes w =>
      obtain ⟨o₁, ho₁, hstep⟩ := after_concat_eq_some.mp h
      rw [List.length_append, List.length_singleton]
      rcases stands_or_ended_of_after ho₁ with ⟨buffers, request, rfl, hstands⟩ | hended
      · cases hstands with
        | writing hbuffer htotal hsent hmore hcount hrequest =>
            rcases hmore with rfl | hmore
            · exact le_max_left _ _
            · omega
      · rw [hended] at hstep
        cases hstep

/-- `length_writes_le` on the same write. -/
theorem length_writes_threeBytes :
    [SocketWrite.wrote [1], .failed .brokenPipe].length ≤
      max 1 Streambuf.threeBytes.data.length := by
  obtain ⟨o, ho⟩ := after_threeBytes
  exact length_writes_le ho

end Write

end Camille
