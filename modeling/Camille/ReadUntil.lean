import Camille.Lib.Delimiter
import Camille.Lib.Machine
import Camille.Streambuf

/-!
# Reading up to a Delimiter

`asio::async_read_until` with a string delimiter: `partial_search` and
`read_until_delim_string_op_v1`. The operation searches the stream buffer from a position it
keeps, reads more while there is no delimiter, and goes on from where a delimiter can still
begin. It starts with a read even where the delimiter is there already: then it reads no
bytes.

An operation is given what its socket reads come to, one at a time. A read of a stream
socket brings at least one byte, unless it asked for none; a read that failed brings none.
Nothing cancels the operation.

## Main results

* `partialSearch_eq_iff`: what the search returns.
* `readUntil_of_after`: the operation ends with the first delimiter, however the bytes
  arrive.
-/

open Lib

namespace Camille

/-! ### The search -/

section PartialSearch

variable {α : Type*} [DecidableEq α]

/-- How the comparison of a delimiter with what begins at one position ends: the delimiter
is used up, the data is, or there is a difference. -/
inductive Comparison
  | full
  | cut
  | differs
  deriving DecidableEq, Repr

/-- The inner loop of `partial_search`. `moved` tells whether it has left its first pair. -/
def compareAt (moved : Bool) : List α → List α → Comparison
  | [], _ => .full
  | _ :: _, [] => if moved then .cut else .differs
  | d :: delim, b :: data => if b ≠ d then .differs else compareAt true delim data

/-- `partial_search`: the position it returns, from where the search began, and whether it
is that of a full match. -/
def partialSearch (delim : List α) : List α → ℕ × Bool
  | [] => (0, false)
  | b :: data =>
    match compareAt false delim (b :: data) with
    | .full => (0, true)
    | .cut => (0, false)
    | .differs =>
      let (position, found) := partialSearch delim data
      (position + 1, found)

/-- The three ways in which the delimiter and the data compare. -/
theorem compareAt_cases (moved : Bool) (delim data : List α) (hdata : moved = false → data ≠ []) :
    (compareAt moved delim data = .full ∧ delim <+: data) ∨
      (compareAt moved delim data = .cut ∧ data <+: delim ∧ ¬ delim <+: data) ∨
      (compareAt moved delim data = .differs ∧ ¬ delim <+: data ∧ ¬ data <+: delim) := by
  induction delim generalizing moved data with
  | nil => exact .inl ⟨rfl, List.nil_prefix⟩
  | cons d delim ih =>
      cases data with
      | nil =>
          cases moved with
          | true => exact .inr (.inl ⟨rfl, List.nil_prefix, by simp⟩)
          | false => exact absurd rfl (hdata rfl)
      | cons b data =>
          rw [compareAt, List.cons_prefix_cons, List.cons_prefix_cons]
          by_cases hb : b = d
          · subst hb
            simp only [ne_eq, not_true_eq_false, if_false, true_and]
            exact ih true data (by simp)
          · rw [if_pos hb]
            exact .inr (.inr ⟨rfl, fun h => hb h.1.symm, fun h => hb h.1⟩)

/-- What the search returns: the first position from which the data and the delimiter agree
as far as both go, and whether the delimiter is used up there. -/
theorem partialSearch_spec {delim : List α} (hdelim : delim ≠ []) (data : List α) :
    (partialSearch delim data).1 ≤ data.length ∧
      (∀ j < (partialSearch delim data).1,
        ¬ delim <+: data.drop j ∧ ¬ data.drop j <+: delim) ∧
      if (partialSearch delim data).2 then delim <+: data.drop (partialSearch delim data).1
      else data.drop (partialSearch delim data).1 <+: delim ∧
        ¬ delim <+: data.drop (partialSearch delim data).1 := by
  induction data with
  | nil => simp [partialSearch, hdelim]
  | cons b data ih =>
      rcases compareAt_cases false delim (b :: data) (by simp) with
        ⟨hcmp, hfull⟩ | ⟨hcmp, hcut, hno⟩ | ⟨hcmp, hno, hcut⟩
      · simp [partialSearch, hcmp, hfull]
      · simp [partialSearch, hcmp, hcut, hno]
      · obtain ⟨hle, hskip, hlast⟩ := ih
        simp only [partialSearch, hcmp, List.length_cons, List.drop_succ_cons]
        refine ⟨Nat.succ_le_succ hle, ?_, hlast⟩
        intro j hj
        cases j with
        | zero => exact ⟨hno, hcut⟩
        | succ j => exact hskip j (Nat.lt_of_succ_lt_succ hj)

/-- **What the search finds** is the first delimiter. -/
theorem firstEnd_eq_partialSearch {delim : List α} (hdelim : delim ≠ []) (data : List α) :
    firstEnd delim data =
      if (partialSearch delim data).2 then some ((partialSearch delim data).1 + delim.length)
      else none := by
  obtain ⟨hle, hskip, hlast⟩ := partialSearch_spec hdelim data
  have hgo := firstEnd_append_of_skip hle hskip []
  rw [List.append_nil, List.append_nil] at hgo
  rw [hgo]
  split at hlast
  · obtain ⟨y, hy⟩ := hlast
    obtain ⟨m, hm, hend⟩ := firstEnd_le_of_occurs hdelim [] y
    rw [List.nil_append] at hend
    have hge := length_le_firstEnd hend
    rw [if_pos ‹_›, ← hy, hend, Option.map_some, Nat.add_comm]
    simp only [List.length_nil, Nat.zero_add] at hm
    rw [le_antisymm hm hge]
  · rw [if_neg ‹_›]
    cases hend : firstEnd delim (data.drop (partialSearch delim data).1) with
    | none => rfl
    | some m =>
        have hge := (length_le_firstEnd hend).trans (firstEnd_le_length hend)
        have hwhole := hlast.1.eq_of_length_le hge
        exact absurd ⟨[], by rw [List.append_nil, hwhole]⟩ hlast.2

/-- **What the search returns**: the first position from which the data and the delimiter
agree as far as both go, which is behind all of the data when nothing there could begin a
delimiter. It is reported as found when the delimiter is used up there. -/
theorem partialSearch_eq_iff {delim : List α} (hdelim : delim ≠ []) (data : List α) (i : ℕ)
    (found : Bool) :
    partialSearch delim data = (i, found) ↔
      (delim <+: data.drop i ∨ data.drop i <+: delim) ∧ i ≤ data.length ∧
        (∀ j < i, ¬ delim <+: data.drop j ∧ ¬ data.drop j <+: delim) ∧
        (found = true ↔ delim <+: data.drop i) := by
  obtain ⟨hle, hskip, hlast⟩ := partialSearch_spec hdelim data
  have hagree : delim <+: data.drop (partialSearch delim data).1 ∨
      data.drop (partialSearch delim data).1 <+: delim := by
    split at hlast
    · exact .inl hlast
    · exact .inr hlast.1
  have hfound : (partialSearch delim data).2 = true ↔
      delim <+: data.drop (partialSearch delim data).1 := by
    split at hlast
    · simp [*]
    · simp [*]
  constructor
  · intro h
    rw [h] at hle hskip hagree hfound
    exact ⟨hagree, hle, hskip, hfound⟩
  · rintro ⟨hagree', -, hskip', hfound'⟩
    have hi : (partialSearch delim data).1 = i := by
      rcases Nat.lt_trichotomy (partialSearch delim data).1 i with hlt | heq | hgt
      · obtain ⟨hno, hcut⟩ := hskip' _ hlt
        exact absurd hagree (by simp [hno, hcut])
      · exact heq
      · obtain ⟨hno, hcut⟩ := hskip _ hgt
        exact absurd hagree' (by simp [hno, hcut])
    refine Prod.ext hi (Bool.eq_iff_iff.mpr ?_)
    rw [hfound, hi, hfound']

/-- `partialSearch_eq_iff` where a delimiter begins at the end of the data. -/
theorem partialSearch_cut :
    partialSearch crlfcrlf (ascii "Host: a:1\r\n\r") = (9, false) :=
  (partialSearch_eq_iff (by decide) _ _ _).mpr (by decide)

end PartialSearch

/-! ### The operation -/

/-- The error codes an operation on a stream can complete with. -/
inductive ErrorCode
  | eof
  | connectionReset
  | brokenPipe
  | notFound
  | other
  deriving DecidableEq, Repr

/-- What is kept of `read_until_delim_string_op_v1` between two reads. -/
structure ReadUntilOp where
  searchPosition : ℕ := 0
  deriving DecidableEq, Repr

/-- `not_found`. -/
def notFound : ℕ := sizeMax

namespace ReadUntilOp

/-- How many bytes to read, while there is no delimiter and the buffer is not full. -/
def bytesToRead (s : Streambuf) : ℕ :=
  min (max 512 (s.capacity - s.size)) (min 65536 (s.maxSize - s.size))

/-- One look at the buffer: the operation behind it, and the bytes to read. -/
def search (delim : Bytes) (op : ReadUntilOp) (s : Streambuf) : ReadUntilOp × ℕ :=
  let (position, found) := partialSearch delim (s.data.drop op.searchPosition)
  let position := op.searchPosition + position
  if position ≠ s.data.length ∧ found then (⟨position + delim.length⟩, 0)
  else if s.size = s.maxSize then (⟨notFound⟩, 0)
  else (⟨if position ≠ s.data.length then position else s.data.length⟩, bytesToRead s)

/-- What the operation completes with. -/
def result (op : ReadUntilOp) (ec : Option ErrorCode) : Option ErrorCode × ℕ :=
  (if op.searchPosition = notFound then some .notFound else ec,
    if ec.isSome ∨ op.searchPosition = notFound then 0 else op.searchPosition)

end ReadUntilOp

/-- Where a read up to a delimiter stands: it waits for a read of `n` bytes into the
stream buffer, or has completed. -/
inductive ReadUntil
  | reads (op : ReadUntilOp) (s : Streambuf) (n : ℕ)
  | completed (s : Streambuf) (ec : Option ErrorCode) (bytes : ℕ)

namespace ReadUntil

variable (growth : Growth) (delim : Bytes)

/-- One round of the loop of `operator()`. The first one goes on to a read in any case. -/
def round (start : Bool) (op : ReadUntilOp) (s : Streambuf) : Outcome ReadUntil :=
  let (op, n) := op.search delim s
  if start = false ∧ n = 0 then
    let (ec, bytes) := op.result none
    .returned (.completed s ec bytes)
  else (s.prepare growth n).bind fun s => .returned (.reads op s n)

/-- `async_read_until`. -/
def start (s : Streambuf) : Outcome ReadUntil :=
  round growth delim true {} s

/-- `operator()`, called by a read that wrote `bytes` to the buffer it was given. -/
def resume (op : ReadUntilOp) (s : Streambuf) (ec : Option ErrorCode) (bytes : Bytes) :
    Outcome ReadUntil :=
  ((s.fill bytes).bind fun s => s.commit bytes.length).bind fun s =>
    if ec.isSome ∨ bytes.length = 0 then
      let (ec, bytes) := op.result ec
      .returned (.completed s ec bytes)
    else round growth delim false op s

end ReadUntil

/-- What a read of the socket comes to. -/
inductive SocketRead
  | received (bytes : Bytes)
  | failed (ec : ErrorCode)
  deriving DecidableEq, Repr

/-- The bytes a read brings. -/
def SocketRead.bytes : SocketRead → Bytes
  | received bytes => bytes
  | failed _ => []

/-- What a read of at most `n` bytes from a stream socket can come to. -/
def SocketRead.Possible (n : ℕ) : SocketRead → Prop
  | received bytes => bytes.length ≤ n ∧ (bytes = [] ↔ n = 0)
  | failed _ => n ≠ 0

/-- Whether a read is possible can be computed. -/
instance (n : ℕ) (r : SocketRead) : Decidable (r.Possible n) := by
  cases r with
  | received bytes => exact inferInstanceAs (Decidable (bytes.length ≤ n ∧ (bytes = [] ↔ n = 0)))
  | failed ec => exact inferInstanceAs (Decidable (n ≠ 0))

namespace ReadUntil

variable (growth : Growth) (delim : Bytes)

/-- The operation behind a socket read. -/
def step (o : Outcome ReadUntil) (r : SocketRead) : Option (Outcome ReadUntil) :=
  match o with
  | .returned (.reads op s n) =>
    if r.Possible n then
      match r with
      | .received bytes => some (resume growth delim op s none bytes)
      | .failed ec => some (resume growth delim op s (some ec) [])
    else none
  | _ => none

end ReadUntil

/-! ### Searching on -/

/-- From the position an operation keeps, every delimiter is found that the content and
whatever arrives behind it have. -/
def ReadUntilOp.Resumes (op : ReadUntilOp) (delim content : Bytes) : Prop :=
  op.searchPosition ≤ content.length ∧ ∀ r, firstEnd delim (content ++ r) =
    (firstEnd delim (content.drop op.searchPosition ++ r)).map (· + op.searchPosition)

namespace ReadUntilOp

variable {delim content : Bytes} {op : ReadUntilOp} {s : Streambuf}

/-- A new search has nothing behind it. -/
theorem resumes_start (delim content : Bytes) : Resumes {} delim content :=
  ⟨Nat.zero_le _, fun r => by simp⟩

/-- More content does not change where to go on. -/
theorem Resumes.append (h : op.Resumes delim content) (bytes : Bytes) :
    op.Resumes delim (content ++ bytes) := by
  refine ⟨by have := h.1; rw [List.length_append]; omega, fun r => ?_⟩
  rw [List.drop_append_of_le_length h.1, List.append_assoc, List.append_assoc]
  exact h.2 _

/-- Where there is room, something is asked for. -/
theorem bytesToRead_pos (h : s.size < s.maxSize) : 0 < bytesToRead s := by
  unfold bytesToRead
  omega

/-- No more is asked for than there is room, or than a read takes at once. -/
theorem bytesToRead_le (s : Streambuf) :
    s.size + bytesToRead s ≤ s.maxSize ∧ bytesToRead s ≤ 65536 := by
  have hsize := s.size_le
  have hmax := s.epptr_le
  unfold bytesToRead
  omega

/-- **One look at the buffer.** Either it shows the first delimiter, or there is none, and
the buffer is full, or more has to be read and the search goes on where it has to. -/
theorem search_spec (hdelim : delim ≠ []) (hop : op.Resumes delim s.data) :
    (∃ n, firstEnd delim s.data = some n ∧ op.search delim s = (⟨n⟩, 0)) ∨
      (firstEnd delim s.data = none ∧ s.size = s.maxSize ∧
        op.search delim s = (⟨notFound⟩, 0)) ∨
      (firstEnd delim s.data = none ∧ s.size < s.maxSize ∧
        ∃ op' : ReadUntilOp, op.search delim s = (op', bytesToRead s) ∧
          op'.Resumes delim s.data) := by
  obtain ⟨hpos, hresume⟩ := hop
  obtain ⟨hle, hskip, hlast⟩ := partialSearch_spec hdelim (s.data.drop op.searchPosition)
  have hend : firstEnd delim s.data =
      (firstEnd delim (s.data.drop op.searchPosition)).map (· + op.searchPosition) := by
    have := hresume []
    rwa [List.append_nil, List.append_nil] at this
  rw [firstEnd_eq_partialSearch hdelim (s.data.drop op.searchPosition)] at hend
  rw [List.length_drop] at hle
  unfold search
  rcases hsearch : partialSearch delim (s.data.drop op.searchPosition) with ⟨i, found⟩
  rw [hsearch] at hle hskip hlast hend
  dsimp only at hle hskip hlast hend ⊢
  cases found with
  | true =>
      -- a delimiter does not stand behind all of the data
      have hne : op.searchPosition + i ≠ s.data.length := by
        intro heq
        rw [if_pos rfl, List.drop_drop, heq, List.drop_length] at hlast
        exact hdelim (List.prefix_nil.mp hlast)
      rw [if_pos ⟨hne, rfl⟩]
      refine .inl ⟨op.searchPosition + i + delim.length, ?_, rfl⟩
      rw [hend, if_pos rfl, Option.map_some]
      exact congrArg some (by omega)
  | false =>
      have hnone : firstEnd delim s.data = none := by rw [hend, if_neg (by simp)]; rfl
      rw [if_neg (by simp)]
      by_cases hfull : s.size = s.maxSize
      · rw [if_pos hfull]
        exact .inr (.inl ⟨hnone, hfull, rfl⟩)
      · rw [if_neg hfull]
        have hlt : s.size < s.maxSize :=
          lt_of_le_of_ne (s.size_le.trans s.epptr_le) hfull
        refine .inr (.inr ⟨hnone, hlt, _, rfl, ?_⟩)
        have hat : (if op.searchPosition + i ≠ s.data.length then op.searchPosition + i
            else s.data.length) = op.searchPosition + i := by
          split <;> omega
        refine ⟨by dsimp only; omega, fun r => ?_⟩
        dsimp only
        have hgo := firstEnd_append_of_skip (by rw [List.length_drop]; exact hle) hskip r
        rw [hat, hresume, hgo, Option.map_map, List.drop_drop]
        congr 1
        funext m
        exact (by omega : m + i + op.searchPosition = m + (op.searchPosition + i))

/-- What a search that found its delimiter completes with, unless a read failed. -/
theorem result_found {n : ℕ} (hn : n < notFound) :
    ReadUntilOp.result ⟨n⟩ none = (none, n) := by
  have hne : n ≠ notFound := Nat.ne_of_lt hn
  simp [result, hne]

/-- A full buffer ends in `not_found`. -/
theorem result_full : ReadUntilOp.result ⟨notFound⟩ none = (some .notFound, 0) := by
  simp [result]

/-- An error ends the read with itself. -/
theorem result_failed {ec : ErrorCode} (h : op.searchPosition < notFound) :
    op.result (some ec) = (some ec, 0) := by
  have hne : op.searchPosition ≠ notFound := Nat.ne_of_lt h
  simp [result, hne]

end ReadUntilOp

namespace ReadUntil

variable {delim : Bytes} {op : ReadUntilOp} {s : Streambuf}

/-- Where an operation stands behind a sequence of reads, with `content` in its buffer, the
limit of which is `m`. It waits for bytes while there is no delimiter; where its first look
settles what it will complete with, it waits for a read of no bytes; and it has completed
with the end of the first delimiter, with a full buffer, or with the error of its last
read. -/
inductive Stands (delim : Bytes) (m : ℕ) (content : Bytes) (reads : List SocketRead) :
    ReadUntil → Prop
  | searching {op : ReadUntilOp} {s : Streambuf} {n : ℕ} (hs : s.data = content)
      (hmax : s.maxSize = m) (hroom : s.pptr + n ≤ s.epptr) (hop : op.Resumes delim content)
      (hnone : firstEnd delim content = none) (hn : 0 < n) (hle : n ≤ 65536) :
      Stands delim m content reads (.reads op s n)
  | settled {s : Streambuf} {position : ℕ} (hs : s.data = content) (hmax : s.maxSize = m)
      (hfirst : reads = [])
      (hend : firstEnd delim content = some position ∨
        firstEnd delim content = none ∧ content.length = m ∧ position = notFound) :
      Stands delim m content reads (.reads ⟨position⟩ s 0)
  | found {s : Streambuf} {n : ℕ} (hs : s.data = content) (hmax : s.maxSize = m)
      (hreads : reads ≠ []) (hend : firstEnd delim content = some n) :
      Stands delim m content reads (.completed s none n)
  | full {s : Streambuf} (hs : s.data = content) (hmax : s.maxSize = m) (hreads : reads ≠ [])
      (hnone : firstEnd delim content = none) (hfull : content.length = m) :
      Stands delim m content reads (.completed s (some .notFound) 0)
  | failed {s : Streambuf} {ec : ErrorCode} (hs : s.data = content) (hmax : s.maxSize = m)
      (hlast : reads.getLast? = some (.failed ec)) (hnone : firstEnd delim content = none) :
      Stands delim m content reads (.completed s (some ec) 0)

/-- **One round**, from wherever the search can go on. -/
theorem round_stands (growth : Growth) (hdelim : delim ≠ []) (hop : op.Resumes delim s.data)
    (hshort : s.data.length < notFound) (first : Bool) (reads : List SocketRead)
    (hfirst : reads = [] ↔ first = true) :
    ∃ p, round growth delim first op s = .returned p ∧
      Stands delim s.maxSize s.data reads p := by
  unfold round
  have hmade : ∀ n, s.size + n ≤ s.maxSize → ∃ t, s.prepare growth n = .returned t ∧
      t.data = s.data ∧ t.maxSize = s.maxSize ∧ t.pptr + n ≤ t.epptr := by
    intro n hn
    rcases s.reserve_spec growth n with ⟨hlt, -⟩ | ⟨-, t, ht⟩
    · omega
    · exact ⟨t, ht⟩
  have hne : first = false → reads ≠ [] := by
    rintro rfl h
    exact absurd (hfirst.mp h) (by simp)
  rcases ReadUntilOp.search_spec hdelim hop with ⟨n, hend, hsearch⟩ |
    ⟨hnone, hfull, hsearch⟩ | ⟨hnone, hlt, op', hsearch, hop'⟩ <;> rw [hsearch] <;> dsimp only
  · cases first with
    | true =>
        obtain ⟨t, ht, hdata, hmax, hroom⟩ := hmade 0 (s.size_le.trans s.epptr_le)
        rw [if_neg (by simp), ht]
        exact ⟨_, rfl, .settled hdata hmax (hfirst.mpr rfl) (.inl hend)⟩
    | false =>
        have hn : n < notFound := lt_of_le_of_lt (firstEnd_le_length hend) hshort
        rw [if_pos ⟨rfl, rfl⟩, ReadUntilOp.result_found hn]
        exact ⟨_, rfl, .found rfl rfl (hne rfl) hend⟩
  · have hlen : s.data.length = s.maxSize := s.length_data.trans hfull
    cases first with
    | true =>
        obtain ⟨t, ht, hdata, hmax, hroom⟩ := hmade 0 (s.size_le.trans s.epptr_le)
        rw [if_neg (by simp), ht]
        exact ⟨_, rfl, .settled hdata hmax (hfirst.mpr rfl) (.inr ⟨hnone, hlen, rfl⟩)⟩
    | false =>
        rw [if_pos ⟨rfl, rfl⟩, ReadUntilOp.result_full]
        exact ⟨_, rfl, .full rfl rfl (hne rfl) hnone hlen⟩
  · have hpos := ReadUntilOp.bytesToRead_pos hlt
    obtain ⟨hle, hlimit⟩ := ReadUntilOp.bytesToRead_le s
    obtain ⟨t, ht, hdata, hmax, hroom⟩ := hmade _ hle
    rw [if_neg (by omega), ht]
    exact ⟨_, rfl, .searching hdata hmax hroom hop' hnone hpos hlimit⟩

/-- The operation as it starts. -/
theorem start_stands (growth : Growth) (hdelim : delim ≠ []) (hshort : s.data.length < notFound) :
    ∃ p, start growth delim s = .returned p ∧ Stands delim s.maxSize s.data [] p :=
  round_stands growth hdelim (ReadUntilOp.resumes_start delim s.data) hshort true [] (by simp)

/-- **One read.** -/
theorem step_stands (growth : Growth) (hdelim : delim ≠ []) {m n : ℕ} {content : Bytes}
    {reads : List SocketRead} {r : SocketRead}
    (h : Stands delim m content reads (.reads op s n)) (hr : r.Possible n)
    (hshort : (content ++ r.bytes).length < notFound) :
    ∃ p, step growth delim (.returned (.reads op s n)) r = some (.returned p) ∧
      Stands delim m (content ++ r.bytes) (reads ++ [r]) p := by
  cases r with
  | received bytes =>
      obtain ⟨hfits, hnil⟩ := hr
      dsimp only [SocketRead.bytes] at hshort ⊢
      have hstep : step growth delim (.returned (.reads op s n)) (.received bytes) =
          some (resume growth delim op s none bytes) := by
        rw [step, if_pos ⟨hfits, hnil⟩]
      rw [hstep]
      cases h with
      | searching hs hmax hroom hop hnone hn hle =>
          have hlen : bytes.length ≠ 0 := fun h0 =>
            hn.ne' (hnil.mp (List.eq_nil_of_length_eq_zero h0))
          obtain ⟨t, ht, hdata, htmax⟩ := Streambuf.fill_commit_spec s bytes
            (by omega) (by omega)
          rw [hs] at hdata
          have hop' : op.Resumes delim t.data := by
            rw [hdata]
            exact hop.append bytes
          obtain ⟨p, hp, hstands⟩ := round_stands growth hdelim hop'
            (by rwa [hdata]) false (reads ++ [.received bytes]) (by simp)
          refine ⟨p, ?_, by rwa [htmax, hmax, hdata] at hstands⟩
          rw [resume, ht, Outcome.returned_bind, if_neg (by simp [hlen]), hp]
      | settled hs hmax hfirst hend =>
          obtain rfl : bytes = [] := hnil.mpr rfl
          rw [List.append_nil] at hshort ⊢
          obtain ⟨t, ht, hdata, htmax⟩ := Streambuf.fill_commit_spec s []
            s.pptr_le (by simp)
          rw [hs, List.append_nil] at hdata
          rw [resume, ht, Outcome.returned_bind, if_pos (.inr List.length_nil)]
          rcases hend with hend | ⟨hnone, hfull, rfl⟩
          · have hposition := lt_of_le_of_lt (firstEnd_le_length hend) hshort
            rw [ReadUntilOp.result_found hposition]
            exact ⟨_, rfl, .found hdata (htmax.trans hmax) (by simp) hend⟩
          · rw [ReadUntilOp.result_full]
            exact ⟨_, rfl, .full hdata (htmax.trans hmax) (by simp) hnone hfull⟩
  | failed ec =>
      dsimp only [SocketRead.bytes] at hshort ⊢
      rw [List.append_nil] at hshort ⊢
      have hstep : step growth delim (.returned (.reads op s n)) (.failed ec) =
          some (resume growth delim op s (some ec) []) := by
        rw [step, if_pos hr]
      rw [hstep]
      cases h with
      | searching hs hmax hroom hop hnone hn hle =>
          obtain ⟨t, ht, hdata, htmax⟩ := Streambuf.fill_commit_spec s []
            s.pptr_le (by simp)
          rw [hs, List.append_nil] at hdata
          rw [resume, ht, Outcome.returned_bind, if_pos (.inl rfl),
            ReadUntilOp.result_failed (lt_of_le_of_lt hop.1 hshort)]
          exact ⟨_, rfl, .failed hdata (htmax.trans hmax) (by simp) hnone⟩
      | settled hs hmax hfirst hend => exact absurd rfl hr

/-- **However the bytes arrive**, an operation that runs on a stream buffer keeps all of
them behind what was there, and ends with the first delimiter: at the read that completes
it, and no later. It ends without one only with a full buffer or a failed read, and it
neither throws nor leaves a position out of order. -/
theorem readUntil_of_after (growth : Growth) {delim : Bytes} (hdelim : delim ≠ [])
    (s : Streambuf) {reads : List SocketRead} {o : Outcome ReadUntil}
    (h : after (step growth delim) (start growth delim s) reads = some o)
    (hshort : (s.data ++ reads.flatMap SocketRead.bytes).length < notFound) :
    ∃ p, o = .returned p ∧
      Stands delim s.maxSize (s.data ++ reads.flatMap SocketRead.bytes) reads p := by
  induction reads using List.reverseRecOn generalizing o with
  | nil =>
      obtain rfl := Option.some.inj h
      rw [List.flatMap_nil, List.append_nil] at hshort ⊢
      exact start_stands growth hdelim hshort
  | append_singleton reads r ih =>
      obtain ⟨o₁, ho₁, hstep⟩ := after_concat_eq_some.mp h
      rw [List.flatMap_append, List.flatMap_singleton, ← List.append_assoc] at hshort ⊢
      have hbefore := hshort
      rw [List.length_append] at hbefore
      obtain ⟨p, rfl, hp⟩ := ih ho₁ (by omega)
      cases p with
      | completed s ec bytes => cases hstep
      | reads op t n =>
          have hr : r.Possible n := by
            by_contra hno
            simp [step, hno] at hstep
          obtain ⟨q, hq, hstands⟩ := step_stands growth hdelim hp hr hshort
          exact ⟨q, Option.some.inj (hstep.symm.trans hq), hstands⟩

/-- `readUntil_of_after` on a delimiter that arrives in two pieces. -/
theorem readUntil_twoReads :
    ∃ p, after (step Growth.doubling crlf) (start Growth.doubling crlf
        (Streambuf.new Growth.doubling 64)) [.received [0x41, 0x0D], .received [0x0A, 0x42]] =
          some (.returned p) ∧
      Stands crlf 64 [0x41, 0x0D, 0x0A, 0x42]
        [.received [0x41, 0x0D], .received [0x0A, 0x42]] p := by
  obtain ⟨o, ho⟩ : ∃ o, after (step Growth.doubling crlf) (start Growth.doubling crlf
      (Streambuf.new Growth.doubling 64)) [.received [0x41, 0x0D], .received [0x0A, 0x42]] =
        some o :=
    Option.isSome_iff_exists.mp (by decide)
  obtain ⟨p, rfl, hp⟩ := readUntil_of_after Growth.doubling (by decide) _ ho (by decide)
  exact ⟨p, ho, hp⟩

end ReadUntil

end Camille
