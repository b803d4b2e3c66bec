import Camille.Tokens

/-!
# The Stream Buffer

`asio::basic_streambuf`, as far as a session uses it: one vector with a get area in front of
a put area, and four positions in it. A read prepares room in the put area, which may move
what is there to the front of the vector or make the vector longer, lets the socket fill
it, and commits what came. `consume` takes bytes off the front of the get area.

Positions are offsets from the first element of the vector, where `eback` always stands.
`gbump` and `pbump` take an `int`, so that every amount is narrowed before it is added.
`consume` adds its amount to a pointer before it compares: objects are taken to lie in the
lower half of a 64-bit address space, so that an amount below `2 ^ 63` gives the sum of the
numbers, and a larger one can leave the address space, where a sum is undefined. What
`reserve` does to the vector before it throws is left out.

## Main results

* `run_refines`: any sequence of reads and consumes is that of a bounded byte queue.
* `consume_takes_iff`: what the narrowing leaves of a consume.
-/

namespace Camille

/-- How a `std::vector` chooses its capacity when its elements do not fit: from its length
and the length it needs. -/
structure Growth where
  next : ℕ → ℕ → ℕ
  le_next : ∀ length n, n ≤ next length n

/-- The growth of a vector that at least doubles. -/
def Growth.doubling : Growth where
  next length n := max n (2 * length)
  le_next _ _ := le_max_left _ _

/-- `asio::basic_streambuf`. The get area is between `gptr` and `egptr`, the put area between
`pptr` and `epptr`. -/
structure Streambuf where
  maxSize : ℕ
  buffer : Bytes
  capacity : ℕ
  gptr : ℕ
  egptr : ℕ
  pptr : ℕ
  epptr : ℕ
  gptr_le : gptr ≤ egptr
  egptr_le : egptr ≤ pptr
  pptr_le : pptr ≤ epptr
  epptr_le : epptr ≤ maxSize
  length_buffer : buffer.length = max epptr 1
  le_capacity : buffer.length ≤ capacity

/-- `static_cast<int>` of a `size_t`. -/
def toInt (n : ℕ) : ℤ :=
  Int.bmod n (2 ^ 32)

/-- `std::memmove(&buffer[0], &buffer[0] + from, n)`. -/
def memmoveFront (buffer : Bytes) (start n : ℕ) : Bytes :=
  (buffer.drop start).take n ++ buffer.drop n

/-- `std::vector::resize`. -/
def resize (buffer : Bytes) (n : ℕ) : Bytes :=
  buffer.take n ++ List.replicate (n - buffer.length) 0

/-- A vector has the length it is resized to. -/
theorem length_resize (buffer : Bytes) (n : ℕ) : (resize buffer n).length = n := by
  simp only [resize, List.length_append, List.length_take, List.length_replicate]
  omega

namespace Streambuf

/-- `size()`. -/
def size (s : Streambuf) : ℕ :=
  s.pptr - s.gptr

/-- `data()`: the bytes that can be read. -/
def data (s : Streambuf) : Bytes :=
  (s.buffer.drop s.gptr).take s.size

/-- `buffer_delta`. -/
def bufferDelta : ℕ := 128

/-- The constructor. -/
def new (growth : Growth) (maximumSize : ℕ) : Streambuf :=
  let pend := min maximumSize bufferDelta
  { maxSize := maximumSize
    buffer := resize [] (max pend 1)
    capacity := growth.next 0 (max pend 1)
    gptr := 0
    egptr := 0
    pptr := 0
    epptr := pend
    gptr_le := le_rfl
    egptr_le := le_rfl
    pptr_le := Nat.zero_le _
    epptr_le := min_le_left _ _
    length_buffer := length_resize _ _
    le_capacity := by rw [length_resize]; exact growth.le_next _ _ }

/-- `reserve`, up to its move to the front: the vector behind it. -/
def shifted (s : Streambuf) : Bytes :=
  if 0 < s.gptr then memmoveFront s.buffer s.gptr s.size else s.buffer

/-- The readable bytes lie before the end of the put area. -/
theorem size_le (s : Streambuf) : s.size ≤ s.epptr := by
  have := s.pptr_le
  unfold size
  omega

/-- The put area lies inside the vector. -/
theorem epptr_le_length (s : Streambuf) : s.epptr ≤ s.buffer.length := by
  rw [s.length_buffer]
  exact le_max_left _ _

/-- Shifting the bytes leaves the vector as long as it was. -/
theorem length_shifted (s : Streambuf) : s.shifted.length = s.buffer.length := by
  have hend := s.epptr_le_length
  have := s.pptr_le
  have := s.gptr_le
  have := s.egptr_le
  unfold shifted memmoveFront size
  split
  · simp only [List.length_append, List.length_take, List.length_drop]
    omega
  · rfl

/-- `reserve`. -/
def reserve (growth : Growth) (s : Streambuf) (n : ℕ) : Outcome Streambuf :=
  if n ≤ s.epptr - s.pptr then .returned s
  else
    let pnext := s.size
    if n ≤ s.epptr - pnext then
      .returned { s with
        buffer := s.shifted
        gptr := 0
        egptr := pnext
        pptr := pnext
        gptr_le := Nat.zero_le _
        egptr_le := le_rfl
        pptr_le := s.size_le
        length_buffer := by rw [length_shifted]; exact s.length_buffer
        le_capacity := by rw [length_shifted]; exact s.le_capacity }
    else if h : n ≤ s.maxSize ∧ pnext ≤ s.maxSize - n then
      let pend := pnext + n
      .returned { s with
        buffer := resize s.shifted (max pend 1)
        capacity :=
          if max pend 1 ≤ s.capacity then s.capacity
          else growth.next s.buffer.length (max pend 1)
        gptr := 0
        egptr := pnext
        pptr := pnext
        epptr := pend
        gptr_le := Nat.zero_le _
        egptr_le := le_rfl
        pptr_le := Nat.le_add_right _ _
        epptr_le := by omega
        length_buffer := length_resize _ _
        le_capacity := by
          rw [length_resize]
          split
          · assumption
          · exact growth.le_next _ _ }
    else .threw .lengthError

/-- `prepare`: the buffer it returns is the first `n` bytes of the put area. -/
def prepare (growth : Growth) (s : Streambuf) (n : ℕ) : Outcome Streambuf :=
  s.reserve growth n

/-- What a socket read does with a prepared buffer: `bytes` are written to the front of the
put area. Behind it there is nothing to be written to. -/
def fill (s : Streambuf) (bytes : Bytes) : Outcome Streambuf :=
  if h : s.pptr + bytes.length ≤ s.epptr then
    .returned { s with
      buffer := s.buffer.take s.pptr ++ bytes ++ s.buffer.drop (s.pptr + bytes.length)
      length_buffer := by
        have := s.epptr_le_length
        rw [← s.length_buffer]
        simp only [List.length_append, List.length_take, List.length_drop]
        omega
      le_capacity := by
        have := s.epptr_le_length
        refine le_trans (le_of_eq ?_) s.le_capacity
        simp only [List.length_append, List.length_take, List.length_drop]
        omega }
  else .undefined

/-- `setg(&buffer_[0], gptr(), pptr())`. -/
def syncGet (s : Streambuf) : Streambuf :=
  { s with
    egptr := s.pptr
    gptr_le := s.gptr_le.trans s.egptr_le
    egptr_le := le_rfl }

/-- `pbump(n)`, and the `setg` behind it. An amount can be negative, and take the positions
out of order. -/
def pbump (s : Streambuf) (n : ℤ) : Outcome Streambuf :=
  if h : (s.gptr : ℤ) ≤ s.pptr + n ∧ s.pptr + n ≤ s.epptr then
    .returned { s with
      egptr := (s.pptr + n).toNat
      pptr := (s.pptr + n).toNat
      gptr_le := by omega
      egptr_le := le_rfl
      pptr_le := by omega }
  else .undefined

/-- `gbump(n)`. -/
def gbump (s : Streambuf) (n : ℤ) : Outcome Streambuf :=
  if h : 0 ≤ s.gptr + n ∧ s.gptr + n ≤ s.egptr then
    .returned { s with
      gptr := (s.gptr + n).toNat
      gptr_le := by omega }
  else .undefined

/-- `commit`. -/
def commit (s : Streambuf) (n : ℕ) : Outcome Streambuf :=
  s.pbump (toInt (min n (s.epptr - s.pptr)))

/-- `consume`. The sum `gptr() + n` is undefined when it leaves the address space: in
practice it wraps around there, nothing is cut, and `gbump` goes back for `n = 2 ^ 64 - 1`. -/
def consume (s : Streambuf) (n : ℕ) : Outcome Streambuf :=
  let s := if s.egptr < s.pptr then s.syncGet else s
  if 2 ^ 63 ≤ n then .undefined
  else s.gbump (toInt (if s.pptr < s.gptr + n then s.pptr - s.gptr else n))

/-- What happens to the stream buffer of a session: a read that prepares `n` bytes and is
given `bytes`, and a consume. -/
inductive Call
  | receive (n : ℕ) (bytes : Bytes)
  | consume (n : ℕ)
  deriving DecidableEq, Repr

/-- The stream buffer behind a call. -/
def call (growth : Growth) (s : Streambuf) : Call → Outcome Streambuf
  | .receive n bytes =>
    (s.prepare growth n).bind fun s => (s.fill bytes).bind fun s => s.commit bytes.length
  | .consume n => s.consume n

/-- The stream buffer behind a sequence of calls. -/
def run (growth : Growth) (s : Streambuf) : List Call → Outcome Streambuf
  | [] => .returned s
  | c :: cs => (s.call growth c).bind fun s => run growth s cs

/-! ### What can be read -/

/-- As many bytes are readable as `size` says. -/
theorem length_data (s : Streambuf) : s.data.length = s.size := by
  have := s.pptr_le
  have := s.epptr_le_length
  rw [data, List.length_take, List.length_drop]
  unfold size
  omega

/-- A new buffer is empty. -/
@[simp] theorem data_new (growth : Growth) (m : ℕ) : (new growth m).data = [] :=
  List.take_zero

/-- The move to the front moves what can be read. -/
theorem take_shifted (s : Streambuf) : s.shifted.take s.size = s.data := by
  have hlen : ((s.buffer.drop s.gptr).take s.size).length = s.size := s.length_data
  unfold shifted memmoveFront data
  split
  · rw [List.take_left' hlen]
  · rename_i h
    rw [Nat.eq_zero_of_not_pos h, List.drop_zero]

/-- **Room is made** without touching what can be read, exactly when the limit allows. -/
theorem reserve_spec (growth : Growth) (s : Streambuf) (n : ℕ) :
    (s.maxSize < s.size + n ∧ s.reserve growth n = .threw .lengthError) ∨
      (s.size + n ≤ s.maxSize ∧ ∃ t, s.reserve growth n = .returned t ∧ t.data = s.data ∧
        t.maxSize = s.maxSize ∧ t.pptr + n ≤ t.epptr) := by
  have hsize := s.size_le
  have hlimit := s.epptr_le
  have hput := s.pptr_le
  have hlong := s.epptr_le_length
  have hget : s.gptr ≤ s.pptr := s.gptr_le.trans s.egptr_le
  unfold reserve
  by_cases hroom : n ≤ s.epptr - s.pptr
  · rw [if_pos hroom]
    refine .inr ⟨?_, s, rfl, rfl, rfl, by omega⟩
    unfold size
    omega
  rw [if_neg hroom]
  dsimp only
  by_cases hmoved : n ≤ s.epptr - s.size
  · rw [if_pos hmoved]
    refine .inr ⟨by omega, _, rfl, ?_, rfl, ?_⟩
    · exact s.take_shifted
    · dsimp only
      omega
  rw [if_neg hmoved]
  by_cases hmax : n ≤ s.maxSize ∧ s.size ≤ s.maxSize - n
  · rw [dif_pos hmax]
    refine .inr ⟨by omega, _, rfl, ?_, rfl, le_rfl⟩
    have hle : s.size ≤ s.shifted.length := by rw [length_shifted]; omega
    have hfront : s.size ≤ (s.shifted.take (max (s.size + n) 1)).length := by
      rw [List.length_take]
      omega
    unfold data resize
    dsimp only [size]
    rw [Nat.sub_zero, List.drop_zero, ← size, List.take_append_of_le_length hfront,
      List.take_take, min_eq_left (by omega), take_shifted]
    rfl
  · rw [dif_neg hmax]
    exact .inl ⟨by omega, rfl⟩

end Streambuf

/-- An amount that is an `int` stays what it is. -/
theorem toInt_of_lt {n : ℕ} (h : n < 2 ^ 31) : toInt n = n :=
  Int.bmod_eq_of_le (by omega) (by omega)

/-- An amount that is no `int` becomes a smaller one. -/
theorem toInt_lt {n : ℕ} (h : 2 ^ 31 ≤ n) : toInt n < n := by
  have := Int.bmod_lt (x := n) (show 0 < 2 ^ 32 by omega)
  unfold toInt
  omega

namespace Streambuf

/-- What the socket wrote, and was committed, can be read behind what was there. -/
theorem fill_commit_spec (s : Streambuf) (bytes : Bytes)
    (hroom : s.pptr + bytes.length ≤ s.epptr) (hint : bytes.length < 2 ^ 31) :
    ∃ t, ((s.fill bytes).bind fun s => s.commit bytes.length) = .returned t ∧
      t.data = s.data ++ bytes ∧ t.maxSize = s.maxSize := by
  have hlong := s.epptr_le_length
  have hget : s.gptr ≤ s.pptr := s.gptr_le.trans s.egptr_le
  have hamount : min bytes.length (s.epptr - s.pptr) = bytes.length := by omega
  have hsum : ((s.pptr : ℤ) + bytes.length).toNat = s.pptr + bytes.length := by omega
  have hfront : s.gptr ≤ (s.buffer.take s.pptr).length := by
    rw [List.length_take]
    omega
  have hlen : (((s.buffer.take s.pptr).drop s.gptr) ++ bytes).length =
      s.pptr + bytes.length - s.gptr := by
    rw [List.length_append, List.length_drop, List.length_take]
    omega
  unfold fill
  rw [dif_pos hroom, Outcome.returned_bind]
  unfold commit
  dsimp only
  rw [hamount, toInt_of_lt hint]
  unfold pbump
  rw [dif_pos (by dsimp only; omega)]
  refine ⟨_, rfl, ?_, rfl⟩
  unfold data size
  dsimp only
  rw [hsum, List.append_assoc, List.drop_append_of_le_length hfront, ← List.append_assoc,
    List.take_left' hlen, List.drop_take]

/-- `gbump` moves the position of the get area, where that leaves it in the get area. -/
theorem gbump_cases (s : Streambuf) (n : ℤ) :
    (∃ t, s.gbump n = .returned t ∧ t.buffer = s.buffer ∧ t.maxSize = s.maxSize ∧
        t.pptr = s.pptr ∧ (t.gptr : ℤ) = s.gptr + n) ∨
      s.gbump n = .undefined ∧ ¬ (0 ≤ s.gptr + n ∧ s.gptr + n ≤ s.egptr) := by
  unfold gbump
  by_cases h : 0 ≤ s.gptr + n ∧ s.gptr + n ≤ s.egptr
  · rw [dif_pos h]
    exact .inl ⟨_, rfl, rfl, rfl, rfl, Int.toNat_of_nonneg h.1⟩
  · rw [dif_neg h]
    exact .inr ⟨rfl, h⟩

/-- `consume` moves the position of the get area by the amount that is there, narrowed,
where that leaves it in the get area. -/
theorem consume_cases (s : Streambuf) {n : ℕ} (hn : n < 2 ^ 63) :
    (∃ t, s.consume n = .returned t ∧ t.buffer = s.buffer ∧ t.maxSize = s.maxSize ∧
        t.pptr = s.pptr ∧ (t.gptr : ℤ) = s.gptr + toInt (min n s.size)) ∨
      s.consume n = .undefined ∧
        ¬ (0 ≤ s.gptr + toInt (min n s.size) ∧ s.gptr + toInt (min n s.size) ≤ s.pptr) := by
  have hget : s.gptr ≤ s.pptr := s.gptr_le.trans s.egptr_le
  have hsync : ∃ t : Streambuf, t = (if s.egptr < s.pptr then s.syncGet else s) ∧
      t.buffer = s.buffer ∧ t.maxSize = s.maxSize ∧ t.gptr = s.gptr ∧ t.pptr = s.pptr ∧
      t.egptr = s.pptr := by
    by_cases h : s.egptr < s.pptr
    · exact ⟨_, rfl, by rw [if_pos h]; exact ⟨rfl, rfl, rfl, rfl, rfl⟩⟩
    · refine ⟨_, rfl, ?_⟩
      rw [if_neg h]
      exact ⟨rfl, rfl, rfl, rfl, le_antisymm s.egptr_le (not_lt.mp h)⟩
  obtain ⟨t, ht, hbuffer, hmax, hgptr, hpptr, hegptr⟩ := hsync
  have hmin : (if s.pptr < s.gptr + n then s.pptr - s.gptr else n) = min n s.size := by
    unfold size
    split <;> omega
  have hconsume : s.consume n = t.gbump (toInt (min n s.size)) := by
    unfold consume
    rw [← ht]
    dsimp only
    rw [if_neg (not_le.mpr hn), hgptr, hpptr, hmin]
  rw [hconsume]
  rcases t.gbump_cases (toInt (min n s.size)) with ⟨u, hu, hub, hum, hup, hug⟩ | ⟨hu, hout⟩
  · exact .inl ⟨u, hu, hub.trans hbuffer, hum.trans hmax, hup.trans hpptr, by rw [hug, hgptr]⟩
  · rw [hgptr, hegptr] at hout
    exact .inr ⟨hu, hout⟩

/-- **Bytes are taken off the front**, no more than there are. -/
theorem consume_spec {s : Streambuf} {n : ℕ} (hn : n < 2 ^ 63) (h : min n s.size < 2 ^ 31) :
    ∃ t, s.consume n = .returned t ∧ t.data = s.data.drop n ∧ t.maxSize = s.maxSize := by
  have hget : s.gptr ≤ s.pptr := s.gptr_le.trans s.egptr_le
  have hle : min n s.size ≤ s.pptr - s.gptr := min_le_right _ _
  rcases consume_cases s hn with ⟨t, ht, hbuffer, hmax, hpptr, hgptr⟩ | ⟨-, hout⟩
  · rw [toInt_of_lt h] at hgptr
    have hnat : t.gptr = s.gptr + min n s.size := by omega
    have hsize : t.size = s.size - min n s.size := by
      rw [size, hpptr, hnat, size]
      omega
    refine ⟨t, ht, ?_, hmax⟩
    rw [data, hbuffer, hsize, hnat, data, List.drop_take, List.drop_drop]
    rcases Nat.le_total n s.size with hle | hle
    · rw [min_eq_left hle]
    · rw [min_eq_right hle, Nat.sub_self, Nat.sub_eq_zero_of_le hle, List.take_zero,
        List.take_zero]
  · rw [toInt_of_lt h] at hout
    exact absurd (by omega) hout

/-- **What the narrowing leaves of a consume** of fewer than `2 ^ 63` bytes. The bytes asked
for are gone from the front, and no others, exactly when there were fewer than `2 ^ 31` of
them to take. -/
theorem consume_takes_iff (s : Streambuf) {n : ℕ} (hn : n < 2 ^ 63) :
    (∃ t, s.consume n = .returned t ∧ t.data = s.data.drop n) ↔
      min n s.data.length < 2 ^ 31 := by
  rw [length_data]
  constructor
  · rintro ⟨t, ht, hdata⟩
    rcases consume_cases s hn with ⟨t', ht', -, -, hpptr, hgptr⟩ | ⟨hundefined, -⟩
    swap
    · rw [ht] at hundefined
      cases hundefined
    obtain rfl := Outcome.returned.inj (ht.symm.trans ht')
    have hlen := congrArg List.length hdata
    rw [List.length_drop, length_data, length_data] at hlen
    by_contra hge
    have hlt := toInt_lt (not_lt.mp hge)
    have hget : s.gptr ≤ s.pptr := s.gptr_le.trans s.egptr_le
    have hget' : t.gptr ≤ t.pptr := t.gptr_le.trans t.egptr_le
    unfold size at hlen hlt hgptr
    omega
  · intro h
    obtain ⟨t, ht, hdata, -⟩ := consume_spec hn h
    exact ⟨t, ht, hdata⟩

/-- A stream buffer with three bytes to read. -/
def threeBytes : Streambuf where
  maxSize := 4
  buffer := [1, 2, 3, 0]
  capacity := 4
  gptr := 0
  egptr := 3
  pptr := 3
  epptr := 4
  gptr_le := by decide
  egptr_le := by decide
  pptr_le := by decide
  epptr_le := by decide
  length_buffer := by decide
  le_capacity := by decide

/-- `consume_takes_iff` on more bytes than there are: all of them are taken. -/
theorem consume_takes_threeBytes :
    ∃ t, threeBytes.consume 5 = .returned t ∧ t.data = [] :=
  (consume_takes_iff threeBytes (n := 5) (by decide)).mpr (by decide)

end Streambuf

/-! ### The queue it stands for -/

/-- What a stream buffer is for: a queue of at most `m` bytes, which refuses a read that
could take it over its limit. -/
def Queue.call (m : ℕ) (q : Bytes) : Streambuf.Call → Outcome Bytes
  | .receive n bytes => if m < q.length + n then .threw .lengthError else .returned (q ++ bytes)
  | .consume n => .returned (q.drop n)

/-- The queue behind a sequence of calls. -/
def Queue.run (m : ℕ) (q : Bytes) : List Streambuf.Call → Outcome Bytes
  | [] => .returned q
  | c :: cs => (Queue.call m q c).bind fun q => Queue.run m q cs

namespace Streambuf

/-- A call as a session makes it: the socket writes no more than was prepared, and the
amounts are of type `int`. -/
def Call.Valid : Call → Prop
  | .receive n bytes => bytes.length ≤ n ∧ bytes.length < 2 ^ 31
  | .consume n => n < 2 ^ 31

/-- Whether a call keeps to the contract can be computed. -/
instance (c : Call) : Decidable c.Valid := by
  cases c with
  | receive n bytes => exact inferInstanceAs (Decidable (bytes.length ≤ n ∧ bytes.length < 2 ^ 31))
  | consume n => exact inferInstanceAs (Decidable (n < 2 ^ 31))

/-- One call. -/
theorem call_refines (growth : Growth) (s : Streambuf) {c : Call} (hc : c.Valid) :
    (s.call growth c = .threw .lengthError ∧
        Queue.call s.maxSize s.data c = .threw .lengthError) ∨
      ∃ t, s.call growth c = .returned t ∧ t.maxSize = s.maxSize ∧
        Queue.call s.maxSize s.data c = .returned t.data := by
  cases c with
  | receive n bytes =>
      unfold call Queue.call prepare
      dsimp only
      rw [length_data]
      rcases reserve_spec growth s n with ⟨hlt, hthrew⟩ | ⟨hle, t, ht, hdata, hmax, hroom⟩
      · rw [hthrew, if_pos hlt]
        exact .inl ⟨rfl, rfl⟩
      · have hfits : t.pptr + bytes.length ≤ t.epptr := by
          have := hc.1
          omega
        obtain ⟨u, hu, hudata, humax⟩ := fill_commit_spec t bytes hfits hc.2
        rw [ht, Outcome.returned_bind, hu, if_neg (by omega)]
        exact .inr ⟨u, rfl, humax.trans hmax, by rw [hudata, hdata]⟩
  | consume n =>
      have hc : n < 2 ^ 31 := hc
      obtain ⟨t, ht, hdata, hmax⟩ :=
        consume_spec (s := s) (by omega) (lt_of_le_of_lt (min_le_left _ _) hc)
      exact .inr ⟨t, ht, hmax, by rw [Queue.call, hdata]⟩

/-- **A stream buffer is a bounded queue.** Over any sequence of reads and consumes, from
any stream buffer, what can be read is what the queue holds, whatever was moved or
reallocated on the way, and `std::length_error` is thrown exactly where the queue
refuses. -/
theorem run_refines (growth : Growth) (s : Streambuf) {cs : List Call}
    (hcs : ∀ c ∈ cs, c.Valid) :
    ((s.run growth cs).bind fun t => .returned t.data) = Queue.run s.maxSize s.data cs := by
  induction cs generalizing s with
  | nil => rfl
  | cons c cs ih =>
      rw [run, Queue.run]
      rcases call_refines growth s (hcs c List.mem_cons_self) with
        ⟨hs, hq⟩ | ⟨t, ht, hmax, hq⟩
      · rw [hs, hq]
        rfl
      · rw [ht, hq, Outcome.returned_bind, Outcome.returned_bind, ← hmax]
        exact ih t fun c hc => hcs c (List.mem_cons_of_mem _ hc)

/-- `run_refines` on a buffer of four bytes: what is moved to the front is still there, and
a fifth byte is refused. -/
theorem run_refines_four :
    (((new Growth.doubling 4).run Growth.doubling
        [.receive 3 [1, 2, 3], .consume 2, .receive 3 [4, 5, 6]]).bind
          fun t => .returned t.data) = .returned [3, 4, 5, 6] ∧
      (((new Growth.doubling 4).run Growth.doubling
        [.receive 3 [1, 2, 3], .consume 2, .receive 3 [4, 5, 6], .receive 1 [7]]).bind
          fun t => .returned t.data) = .threw .lengthError := by
  constructor
  · exact run_refines _ _ (by decide)
  · exact run_refines _ _ (by decide)

end Streambuf

end Camille
