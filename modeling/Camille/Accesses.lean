import Camille.Fate
import Camille.Lib.Budget
import Camille.Reads
import Mathlib.Algebra.GroupWithZero.Nat

/-!
# How Often the Data Is Touched

`Parse` is linear: it touches its data, to read a byte, to copy one into a view or to move
its cursor, at most eight times a byte and twenty-eight times more, whatever the data,
whatever the parser and however often its loop is run, also where it never ends. Every
state pays eight for each byte it leaves behind, and has a toll of its own for the bytes
that it looks at and leaves.

## Main results

* `scan_affords`, `parseMethod_affords` to `parseBodyIdentify_affords`: what every token
  function costs.
* `step_affords`: what one iteration costs.
* `touched_length_le`: what a call costs.
* `Connection.touched_le_of_run`: what all the calls of a connection cost.
-/

open Lib

namespace Camille

namespace Reads

open Cursor

section Costs

variable {T : Type} {data : Bytes} {pos k : ℕ}

/-- From `pos` with the budget `k` to `pos'` with `k'`, at a rate for each byte passed and a
flat charge. -/
structure Spends (rate flat : ℕ) (data : Bytes) (pos k pos' k' : ℕ) : Prop where
  le : pos ≤ pos'
  le_length : pos' ≤ data.length
  budget : k ≤ k' + rate * (pos' - pos) + flat

/-! ### The token functions -/

/-- **A scan** reads and steps over every byte it passes, and reads the one it stops at. -/
theorem scanLoop_affords (stop bad : UInt8 → Bool) (rounds : ℕ) (hle : pos ≤ data.length)
    (hk : 2 * (data.length - pos) + 1 ≤ k) :
    (scanLoop stop bad rounds).Affords data pos k fun _ pos' k' =>
      Spends 2 1 data pos k pos' k' := by
  induction rounds generalizing pos k with
  | zero => exact affords_pure ⟨le_rfl, hle, by omega⟩
  | succ rounds ih =>
      refine affords_bind (affords_remaining ?_)
      split
      · exact affords_pure ⟨le_rfl, hle, by omega⟩
      · refine affords_bind (affords_peek (by omega) fun token _ => ?_)
        split
        · exact affords_pure ⟨le_rfl, hle, by omega⟩
        · split
          · exact affords_pure ⟨le_rfl, hle, by omega⟩
          · refine affords_bind (affords_skip (by omega) fun hnext => ?_)
            refine (ih hnext (by omega)).mono fun _ pos' k' h => ?_
            obtain ⟨h₁, h₂, h₃⟩ := h
            exact ⟨by omega, h₂, by omega⟩

/-- The scan over all that is left. -/
theorem scan_affords (stop bad : UInt8 → Bool) (hle : pos ≤ data.length)
    (hk : 2 * (data.length - pos) + 1 ≤ k) :
    (scan stop bad).Affords data pos k fun _ pos' k' => Spends 2 1 data pos k pos' k' :=
  affords_bind (affords_remaining (scanLoop_affords stop bad _ hle hk))

/-- A view up to the cursor costs its bytes. -/
theorem viewFrom_affords {begin : ℕ} {Q : Bytes → ℕ → ℕ → Prop} (hk : pos - begin ≤ k)
    (h : ∀ as, Q as pos (k - (pos - begin))) : (viewFrom begin).Affords data pos k Q :=
  affords_bind (affords_here (affords_view hk h))

variable [IsReqResType T]

open IsReqResType

/-- **The method** is scanned and copied. -/
theorem parseMethod_affords (d : T) (hle : pos ≤ data.length)
    (hk : 3 * (data.length - pos) + 1 ≤ k) :
    (parseMethod d).Affords data pos k fun _ pos' k' => Spends 3 1 data pos k pos' k' := by
  refine affords_bind (affords_here (affords_bind ?_))
  refine (scan_affords _ _ hle (by omega)).mono fun found pos' k' h => ?_
  obtain ⟨h₁, h₂, h₃⟩ := h
  split
  · exact affords_pure ⟨h₁, h₂, by omega⟩
  · refine affords_bind (viewFrom_affords (by omega) fun method => ?_)
    split <;> exact affords_pure ⟨h₁, h₂, by omega⟩

/-- **The bytes of a target**: an escape reads three of them before it moves. -/
theorem parseUriLoop_affords (rounds : ℕ) (hle : pos ≤ data.length)
    (hk : 2 * (data.length - pos) + 3 ≤ k) :
    (parseUriLoop rounds).Affords data pos k fun _ pos' k' => Spends 2 3 data pos k pos' k' := by
  induction rounds generalizing pos k with
  | zero => exact affords_pure ⟨le_rfl, hle, by omega⟩
  | succ rounds ih =>
      have hnext : ∀ {i k₁ : ℕ}, pos + i ≤ data.length → 1 ≤ i → k ≤ k₁ + 2 * i →
          (parseUriLoop rounds).Affords data (pos + i) k₁ fun _ pos' k' =>
            Spends 2 3 data pos k pos' k' := by
        intro i k₁ hi hone hk₁
        refine (ih hi (by omega)).mono fun _ pos' k' h => ?_
        obtain ⟨h₁, h₂, h₃⟩ := h
        exact ⟨by omega, h₂, by omega⟩
      refine affords_bind (affords_remaining ?_)
      split
      · exact affords_pure ⟨le_rfl, hle, by omega⟩
      refine affords_bind (affords_peek (by omega) fun token _ => ?_)
      split
      · exact affords_pure ⟨le_rfl, hle, by omega⟩
      split
      · exact affords_pure ⟨le_rfl, hle, by omega⟩
      split
      · exact affords_pure ⟨le_rfl, hle, by omega⟩
      split
      · -- an escape: three bytes are read, and passed in two moves
        split
        · exact affords_pure ⟨le_rfl, hle, by omega⟩
        refine affords_bind (affords_peek (by omega) fun h₁ _ => ?_)
        split
        · exact affords_pure ⟨le_rfl, hle, by omega⟩
        refine affords_bind (affords_peek (by omega) fun h₂ _ => ?_)
        split
        · exact affords_pure ⟨le_rfl, hle, by omega⟩
        refine affords_bind (affords_skip (by omega) fun _ => ?_)
        refine affords_bind (affords_skip (by omega) fun hthree => ?_)
        exact hnext (i := 3) hthree (by omega) (by omega)
      · refine affords_bind (affords_skip (by omega) fun hone => ?_)
        exact hnext hone le_rfl (by omega)

/-- **A target** is passed byte by byte, and copied. -/
theorem parseUri_affords (d : T) (hlt : pos < data.length)
    (hk : 3 * (data.length - pos) + 3 ≤ k) :
    (parseUri d).Affords data pos k fun _ pos' k' => Spends 3 3 data pos k pos' k' := by
  refine affords_bind (affords_here (affords_bind (affords_peek (by omega) fun token _ => ?_)))
  split
  · exact affords_pure ⟨le_rfl, hlt.le, by omega⟩
  refine affords_bind (affords_skip (by omega) fun hone => ?_)
  refine affords_bind (affords_remaining (affords_bind ?_))
  refine (parseUriLoop_affords _ hone (by omega)).mono fun found pos' k' h => ?_
  obtain ⟨h₁, h₂, h₃⟩ := h
  split
  · exact affords_pure ⟨by omega, h₂, by omega⟩
  · exact affords_bind (viewFrom_affords (by omega) fun path =>
      affords_pure ⟨by omega, h₂, by omega⟩)

/-- **The version** is scanned in two parts, each of which is copied. -/
theorem parseVersion_affords (d : T) (hle : pos ≤ data.length)
    (hk : 3 * (data.length - pos) + 5 ≤ k) :
    (parseVersion d).Affords data pos k fun _ pos' k' => Spends 3 5 data pos k pos' k' := by
  refine affords_bind (affords_here (affords_bind ?_))
  refine (scan_affords _ _ hle (by omega)).mono fun found pos₁ k₁ h => ?_
  obtain ⟨h₁, h₂, h₃⟩ := h
  split
  · exact affords_pure ⟨h₁, h₂, by omega⟩
  refine affords_bind (viewFrom_affords (by omega) fun http => ?_)
  split
  · exact affords_pure ⟨h₁, h₂, by omega⟩
  -- the read behind `HTTP` is paid for, whether or not there is a byte
  refine affords_bind (affords_peek (by omega) fun token _ => ?_)
  split
  · exact affords_pure ⟨h₁, h₂, by omega⟩
  refine affords_bind (affords_skip (by omega) fun hone => ?_)
  refine affords_bind (affords_here (affords_bind ?_))
  refine (scan_affords _ _ hone (by omega)).mono fun found pos₂ k₂ h => ?_
  obtain ⟨h₄, h₅, h₆⟩ := h
  split
  · exact affords_pure ⟨by omega, h₅, by omega⟩
  refine affords_bind (viewFrom_affords (by omega) fun version => ?_)
  refine affords_bind (affords_remaining ?_)
  split
  · exact affords_pure ⟨by omega, h₅, by omega⟩
  refine affords_bind (affords_peek (by omega) fun token _ => ?_)
  split
  · exact affords_bind (affords_skip (by omega) fun htwo =>
      affords_pure ⟨by omega, htwo, by omega⟩)
  · exact affords_pure ⟨by omega, h₅, by omega⟩

/-- The test for a line end reads two bytes and moves past none. -/
theorem atLineEnd_affords (hk : 2 ≤ k) :
    atLineEnd.Affords data pos k fun lineEnd pos' k' =>
      pos' = pos ∧ k ≤ k' + 2 ∧ (lineEnd = true → pos + 2 ≤ data.length) := by
  refine affords_bind (affords_remaining ?_)
  split
  · exact affords_pure ⟨rfl, by omega, by simp⟩
  refine affords_bind (affords_peek (by omega) fun a _ => ?_)
  split
  · exact affords_pure ⟨rfl, by omega, by simp⟩
  · exact affords_bind (affords_peek (by omega) fun b _ =>
      affords_pure ⟨rfl, by omega, fun _ => by omega⟩)

/-- The test for the end of the block pays for both line ends in advance. -/
theorem isHeadersEnd_affords (hle : pos ≤ data.length) (hk : 6 ≤ k) :
    isHeadersEnd.Affords data pos k fun _ pos' k' => Spends 0 6 data pos k pos' k' := by
  refine affords_bind ((atLineEnd_affords (by omega)).mono fun lineEnd pos₁ k₁ h => ?_)
  obtain ⟨rfl, h₁, -⟩ := h
  split
  · exact affords_pure ⟨le_rfl, hle, by omega⟩
  refine affords_bind (affords_skip (by omega) fun htwo => ?_)
  refine affords_bind ((atLineEnd_affords (by omega)).mono fun emptyLine pos₂ k₂ h => ?_)
  obtain ⟨rfl, h₂, -⟩ := h
  split
  · exact affords_pure ⟨by omega, htwo, by omega⟩
  · exact affords_bind (affords_skip (by omega) fun hfour =>
      affords_pure ⟨by omega, hfour, by omega⟩)

/-- **Trimming** reads no byte in front of the value. -/
theorem trim_affords {begin owsit : ℕ} (hk : owsit - begin ≤ k) :
    (trim begin owsit).Affords data pos k fun owsit' pos' k' =>
      pos' = pos ∧ owsit' ≤ owsit ∧ k ≤ k' + (owsit - begin) := by
  induction owsit generalizing k with
  | zero => exact affords_pure ⟨rfl, le_rfl, by omega⟩
  | succ owsit ih =>
      rw [trim]
      split
      · refine affords_bind (affords_readAt (by omega) fun token _ => ?_)
        split
        · refine (ih (by omega)).mono fun owsit' pos' k' h => ?_
          obtain ⟨h₁, h₂, h₃⟩ := h
          exact ⟨h₁, by omega, by omega⟩
        · exact affords_pure ⟨rfl, le_rfl, by omega⟩
      · exact affords_pure ⟨rfl, le_rfl, by omega⟩

/-- **A header line**: each of its bytes is read, passed, read again from behind, and
copied. A line that was recorded has three bytes at least. -/
theorem parseHeader_affords (d : T) (hle : pos ≤ data.length)
    (hk : 4 * (data.length - pos) + 11 ≤ k) :
    (parseHeader d).Affords data pos k fun result pos' k' =>
      Spends 4 11 data pos k pos' k' ∧
        ∀ r, result = .returned (some r) → pos + 3 ≤ pos' := by
  refine affords_bind (affords_here (affords_bind ?_))
  refine (scan_affords _ _ hle (by omega)).mono fun found pos₁ k₁ h => ?_
  obtain ⟨h₁, h₂, h₃⟩ := h
  refine affords_bind (affords_here (affords_bind (affords_remaining ?_)))
  split
  · exact affords_pure ⟨⟨h₁, h₂, by omega⟩, by simp⟩
  split
  · exact affords_pure ⟨⟨h₁, h₂, by omega⟩, by simp⟩
  rename_i hkey
  refine affords_bind (affords_view (by omega) fun currentKey => ?_)
  refine affords_bind (affords_skip (by omega) fun hcolon => ?_)
  refine affords_bind (affords_remaining ?_)
  split
  · exact affords_pure ⟨⟨by omega, hcolon, by omega⟩, by simp⟩
  refine affords_bind (affords_peek (by omega) fun token _ => ?_)
  split
  · exact affords_pure ⟨⟨by omega, hcolon, by omega⟩, by simp⟩
  refine affords_bind (affords_skip (by omega) fun hspace => ?_)
  refine affords_bind (affords_here (affords_bind ?_))
  refine (scan_affords _ _ hspace (by omega)).mono fun found pos₂ k₂ h => ?_
  obtain ⟨h₄, h₅, h₆⟩ := h
  split
  · exact affords_pure ⟨⟨by omega, h₅, by omega⟩, by simp⟩
  refine affords_bind (affords_here (affords_bind ?_))
  refine (trim_affords (by omega)).mono fun owsit pos₃ k₃ h => ?_
  obtain ⟨rfl, h₇, h₈⟩ := h
  refine affords_bind (affords_view (by omega) fun currentValue => ?_)
  dsimp only
  generalize (if isHostKey currentKey then
      parseHost currentValue (addHeader d currentKey currentValue)
    else .returned (addHeader d currentKey currentValue) : Outcome T) = outcome
  cases outcome with
  | threw e => exact affords_pure (And.intro ⟨by omega, h₅, by omega⟩ (by simp))
  | undefined => exact affords_pure (And.intro ⟨by omega, h₅, by omega⟩ (by simp))
  | returned d' =>
      refine affords_bind ((isHeadersEnd_affords h₅ (by omega)).mono fun more pos₄ k₄ h => ?_)
      obtain ⟨h₉, h₁₀, h₁₁⟩ := h
      exact affords_pure (And.intro ⟨by omega, h₁₀, by omega⟩ fun r _ => by omega)

/-- **The header block**: at twice the rate of a line, a line that was recorded pays for
what it costs beside its bytes. -/
theorem parseHeadersLoop_affords (rounds : ℕ) (d : T) (hle : pos ≤ data.length)
    (hk : 8 * (data.length - pos) + 11 ≤ k) :
    (parseHeadersLoop rounds d).Affords data pos k fun _ pos' k' =>
      Spends 8 11 data pos k pos' k' := by
  induction rounds generalizing pos k d with
  | zero =>
      rw [parseHeadersLoop]
      refine affords_bind (affords_remaining ?_)
      split <;> exact affords_pure ⟨le_rfl, hle, by omega⟩
  | succ rounds ih =>
      rw [parseHeadersLoop]
      refine affords_bind (affords_remaining ?_)
      split
      · exact affords_pure ⟨le_rfl, hle, by omega⟩
      refine affords_bind ((parseHeader_affords d hle (by omega)).mono fun result pos₁ k₁ h => ?_)
      obtain ⟨⟨h₁, h₂, h₃⟩, hline⟩ := h
      rcases result with (- | ⟨more, d'⟩) | e | -
      · exact affords_pure ⟨h₁, h₂, by omega⟩
      · have hthree := hline _ rfl
        cases more with
        | false => exact affords_pure ⟨h₁, h₂, by omega⟩
        | true =>
            refine (ih d' h₂ (by omega)).mono fun _ pos' k' h => ?_
            obtain ⟨h₄, h₅, h₆⟩ := h
            exact ⟨by omega, h₅, by omega⟩
      · exact affords_pure ⟨h₁, h₂, by omega⟩
      · exact affords_pure ⟨h₁, h₂, by omega⟩

/-- The block, with as many rounds as there are bytes. -/
theorem parseHeaders_affords (d : T) (hle : pos ≤ data.length)
    (hk : 8 * (data.length - pos) + 11 ≤ k) :
    (parseHeaders d).Affords data pos k fun _ pos' k' => Spends 8 11 data pos k pos' k' :=
  affords_bind (affords_remaining (parseHeadersLoop_affords _ d hle hk))

/-- **A body** is copied and passed; one that is not all there costs nothing. -/
theorem parseBodyIdentify_affords (d : T) (n : ℕ) (hk : data.length - pos + 1 ≤ k) :
    (parseBodyIdentify d n).Affords data pos k fun result pos' k' =>
      result = none ∧ pos' = pos ∧ k' = k ∨ ∃ d', result = some d' := by
  refine affords_bind (affords_remaining ?_)
  split
  · exact affords_pure (.inl ⟨rfl, rfl, rfl⟩)
  refine affords_bind (affords_here (affords_bind (affords_view (by omega) fun body => ?_)))
  exact affords_bind (affords_skip (by omega) fun _ => affords_pure (.inr ⟨_, rfl⟩))

/-! ### The call -/

/-- What the states from the given one on may cost beside what they pay for bytes. -/
def toll : States → ℕ
  | .kReady | .kMethod => 28
  | .kWaitUri => 27
  | .kUriStart => 25
  | .kUri => 24
  | .kWaitVersion => 21
  | .kVersion => 19
  | .kHeadersWait => 14
  | .kHeaders => 12
  | .kBodyValidation | .kBodyIdentify => 1
  | .kBodyChunked | .kComplete | .kGarbage => 0

/-- The loop may go on from here with the budget. -/
def GoesOn (data : Bytes) (next : (Parser × T) ⊕ ParseResult T) (pos k : ℕ) : Prop :=
  pos ≤ data.length ∧
    ∀ p d, next = .inl (p, d) → 8 * (data.length - pos) + toll p.currentState ≤ k

omit [IsReqResType T] in
/-- A call that is over needs no budget. -/
theorem goesOn_inr (r : ParseResult T) (hle : pos ≤ data.length) :
    GoesOn data (.inr r) pos k :=
  ⟨hle, fun _ _ h => nomatch h⟩

omit [IsReqResType T] in
/-- A loop that goes on needs what its state asks for. -/
theorem goesOn_inl {p : Parser} {d : T} (hle : pos ≤ data.length)
    (hk : 8 * (data.length - pos) + toll p.currentState ≤ k) :
    GoesOn data (.inl (p, d)) pos k := by
  refine ⟨hle, fun p' d' h => ?_⟩
  obtain ⟨rfl, rfl⟩ := Prod.mk.inj (Sum.inl.inj h)
  exact hk

omit [IsReqResType T] in
/-- A parser that gives its data up costs nothing from there on. -/
theorem goesOn_fail (p : Parser) (e : Errors) (d : T) (hle : pos ≤ data.length)
    (hk : 8 * (data.length - pos) ≤ k) : GoesOn data (.inl (p.fail e, d)) pos k :=
  goesOn_inl hle hk

/-- The iteration that reads the block pays for its lines. -/
theorem stepHeaders_affords (p : Parser) (d : T) (hle : pos ≤ data.length)
    (hk : 8 * (data.length - pos) + 12 ≤ k) :
    (stepHeaders p d).Affords data pos k (GoesOn data) := by
  refine affords_bind ((parseHeaders_affords d hle (by omega)).mono fun result pos' k' h => ?_)
  obtain ⟨h₁, h₂, h₃⟩ := h
  rcases result with (- | d') | e | -
  · exact affords_pure (goesOn_fail p _ d h₂ (by omega))
  · dsimp only
    split
    · exact affords_pure (goesOn_fail p _ d' h₂ (by omega))
    · split
      · exact affords_pure (goesOn_inr _ h₂)
      · exact affords_pure (goesOn_inl h₂ (show _ + 1 ≤ k' by omega))
  · exact affords_pure (goesOn_inr _ h₂)
  · exact affords_pure (goesOn_inr _ h₂)

/-- The iteration that decides about the body reads no byte. -/
theorem stepBodyValidation_affords (p : Parser) (d : T) (hs : p.currentState = .kBodyValidation)
    (hle : pos ≤ data.length) (hk : 8 * (data.length - pos) + 1 ≤ k) :
    (stepBodyValidation p d).Affords data pos k (GoesOn data) := by
  have hstay : 8 * (data.length - pos) + toll p.currentState ≤ k := by rwa [hs]
  rw [stepBodyValidation]
  split
  · exact affords_pure (goesOn_fail p _ d hle (by omega))
  · split
    · exact affords_pure (goesOn_inr _ hle)
    · exact affords_pure (goesOn_inl hle hk)
  · exact affords_pure (goesOn_fail _ _ d hle (by omega))
  · exact affords_pure (goesOn_inl hle hstay)

/-- The iteration that reads the body pays for it, or waits for nothing. -/
theorem stepBodyIdentify_affords (p : Parser) (d : T) (hs : p.currentState = .kBodyIdentify)
    (hle : pos ≤ data.length) (hk : 8 * (data.length - pos) + 1 ≤ k) :
    (stepBodyIdentify p d).Affords data pos k (GoesOn data) := by
  rw [stepBodyIdentify]
  split
  · exact affords_pure (goesOn_inr _ hle)
  · rename_i n _
    have hbody := (parseBodyIdentify_affords d n (by omega : _ ≤ k)).bounded hle
    refine affords_bind (hbody.mono fun result pos' k' h => ?_)
    obtain ⟨⟨rfl, rfl, rfl⟩ | ⟨d', rfl⟩, hle'⟩ := h
    · exact affords_pure (goesOn_inl hle' (by rwa [hs]))
    · exact affords_pure (goesOn_inr _ hle')

/-- **One iteration** pays for the bytes it passes and for its own state. -/
theorem step_affords (p : Parser) (d : T) (hle : pos ≤ data.length)
    (hk : 8 * (data.length - pos) + toll p.currentState ≤ k) :
    (step p d).Affords data pos k (GoesOn data) := by
  rw [step]
  split
  · exact affords_pure (goesOn_inr _ hle)
  refine affords_bind (affords_remaining ?_)
  split
  · exact affords_pure (goesOn_inr _ hle)
  have hlt : pos < data.length := by omega
  cases hs : p.currentState with
  | kReady =>
      rw [hs] at hk
      exact affords_pure (goesOn_inl hle hk)
  | kMethod =>
      rw [hs, toll] at hk
      refine affords_bind ((parseMethod_affords d hle (by omega)).mono fun r pos' k' h => ?_)
      obtain ⟨h₁, h₂, h₃⟩ := h
      cases r with
      | none => exact affords_pure (goesOn_fail p _ d h₂ (by omega))
      | some d' => exact affords_pure (goesOn_inl h₂ (show _ + 27 ≤ k' by omega))
  | kWaitUri =>
      rw [hs, toll] at hk
      refine affords_bind (affords_peek (by omega) fun token _ => ?_)
      split
      · exact affords_bind (affords_skip (by omega) fun hone =>
          affords_pure (goesOn_inl hone (show _ + 25 ≤ _ by omega)))
      · exact affords_pure (goesOn_fail p _ d hle (by omega))
  | kUriStart =>
      rw [hs, toll] at hk
      refine affords_bind (affords_peek (by omega) fun token _ => ?_)
      split
      · exact affords_pure (goesOn_inl hle (show _ + 24 ≤ _ by omega))
      · exact affords_pure (goesOn_fail p _ d hle (by omega))
  | kUri =>
      rw [hs, toll] at hk
      refine affords_bind ((parseUri_affords d hlt (by omega)).mono fun r pos' k' h => ?_)
      obtain ⟨h₁, h₂, h₃⟩ := h
      cases r with
      | none => exact affords_pure (goesOn_fail p _ d h₂ (by omega))
      | some d' => exact affords_pure (goesOn_inl h₂ (show _ + 21 ≤ k' by omega))
  | kWaitVersion =>
      rw [hs, toll] at hk
      refine affords_bind (affords_peek (by omega) fun token _ => ?_)
      split
      · exact affords_bind (affords_skip (by omega) fun hone =>
          affords_pure (goesOn_inl hone (show _ + 19 ≤ _ by omega)))
      · exact affords_pure (goesOn_fail p _ d hle (by omega))
  | kVersion =>
      rw [hs, toll] at hk
      refine affords_bind ((parseVersion_affords d hle (by omega)).mono fun r pos' k' h => ?_)
      obtain ⟨h₁, h₂, h₃⟩ := h
      cases r with
      | none => exact affords_pure (goesOn_fail p _ d h₂ (by omega))
      | some d' => exact affords_pure (goesOn_inl h₂ (show _ + 14 ≤ k' by omega))
  | kHeadersWait =>
      rw [hs, toll] at hk
      refine affords_bind (affords_peek (by omega) fun token _ => ?_)
      split
      · exact affords_bind (affords_skip (by omega) fun hone =>
          affords_pure (goesOn_inl hone (show _ + 12 ≤ _ by omega)))
      · exact affords_pure (goesOn_fail p _ d hle (by omega))
  | kHeaders =>
      rw [hs] at hk
      exact stepHeaders_affords p d hle hk
  | kBodyValidation =>
      rw [hs] at hk
      exact stepBodyValidation_affords p d hs hle hk
  | kBodyIdentify =>
      rw [hs] at hk
      exact stepBodyIdentify_affords p d hs hle hk
  | kBodyChunked =>
      rw [hs] at hk
      exact affords_pure (goesOn_fail p _ d hle hk)
  | kComplete => exact affords_pure (goesOn_inr _ hle)
  | kGarbage => exact affords_pure (goesOn_inr _ hle)

/-- **Any number of iterations** stays within the budget of the first. -/
theorem loop_affords (n : ℕ) (p : Parser) (d : T) (hle : pos ≤ data.length)
    (hk : 8 * (data.length - pos) + toll p.currentState ≤ k) :
    (loop n p d).Affords data pos k fun _ _ _ => True := by
  induction n generalizing p d pos k with
  | zero => exact affords_pure trivial
  | succ n ih =>
      refine affords_bind ((step_affords p d hle hk).mono fun next pos' k' h => ?_)
      obtain ⟨hle', hgoes⟩ := h
      cases next with
      | inl s => exact ih s.1 s.2 hle' (hgoes s.1 s.2 rfl)
      | inr r => exact affords_pure trivial

/-- No state asks for more than the first. -/
theorem toll_le (s : States) : toll s ≤ 28 := by
  cases s <;> decide

/-- **A call** stays within the budget of its bytes and its first state. -/
theorem parse_affords (n : ℕ) (p : Parser) (data : Bytes) :
    (parse T n p).Affords data 0 (8 * data.length + 28) fun _ _ _ => True := by
  refine affords_bind (affords_remaining ?_)
  split
  · exact affords_pure trivial
  · have htoll := toll_le p.currentState
    exact loop_affords n _ _ (Nat.zero_le _) (by simpa using htoll)

/-- **`Parse` is linear.** In any number of iterations of its loop, of any parser on any
data, it touches the data at most eight times a byte and twenty-eight times more. -/
theorem touched_length_le (n : ℕ) (p : Parser) (data : Bytes) :
    ((parse T n p).touched data 0).length ≤ 8 * data.length + 28 :=
  (parse_affords n p data).length_le

end Costs

end Reads

/-! ### A connection -/

namespace Connection

/-- The views of a connection are heads, and lie apart in its stream. -/
theorem Balanced.length_views_le {stream : Bytes} {c : Connection} (h : c.Balanced stream) :
    c.views.flatten.length + c.session.streamBuffer.length ≤ stream.length ∧
      ∀ v ∈ c.views, firstEnd crlfcrlf v = some v.length := by
  cases h with
  | reading rounds hp hviews hsent hstream hends =>
      refine ⟨?_, hends⟩
      have := length_rounds rounds
      rw [hviews, hstream, List.length_append, List.length_append]
      omega
  | writing rounds view hp hviews hsent hstream hends =>
      refine ⟨?_, hends⟩
      have := length_rounds rounds
      rw [hviews, hstream, List.flatten_append, List.flatten_singleton]
      simp only [List.length_append]
      omega

/-- All the views of a connection that has ended. -/
theorem length_views_of_run {chunks : List Bytes} {n : ℕ} {close : Close} {c : Connection}
    (h : run step n (start chunks) = some (close, c)) :
    c.views.flatten.length ≤ chunks.flatten.length ∧
      ∀ v ∈ c.views, firstEnd crlfcrlf v = some v.length := by
  refine Exits.of_invariant (I := Balanced chunks.flatten)
    (Q := fun r => r.2.views.flatten.length ≤ chunks.flatten.length ∧
      ∀ v ∈ r.2.views, firstEnd crlfcrlf v = some v.length)
    (fun _ _ hc hstep => step_balanced hc hstep) ?_ ⟨n, h⟩ (balanced_start chunks)
  intro c r hc hstep
  obtain ⟨hle, hends⟩ := hc.length_views_le
  obtain ⟨handler, hp, ⟨-, -, -, hc'⟩ | ⟨bytes, hend, hc', -⟩⟩ := step_ends hstep
  · rw [hc']
    exact ⟨by omega, hends⟩
  · -- the last view is taken from the buffer
    rw [hc']
    refine ⟨?_, ?_⟩
    · rw [List.flatten_append, List.flatten_singleton, List.length_append, List.length_take]
      omega
    · intro v hv
      rcases List.mem_append.mp hv with hv | hv
      · exact hends v hv
      · rw [List.mem_singleton.mp hv]
        exact firstEnd_view hend

/-- **The parsers of a connection are linear in what it receives**: over its whole life, all
its calls of `Parse` together touch their data at most fifteen times a byte. -/
theorem touched_le_of_run {chunks : List Bytes} {n : ℕ} {close : Close} {c : Connection}
    (h : run step n (start chunks) = some (close, c)) (iterations : ℕ) :
    (c.views.map fun view =>
        ((Reads.parse Request iterations {}).touched view 0).length).sum ≤
      15 * chunks.flatten.length := by
  obtain ⟨hle, hends⟩ := length_views_of_run h
  have hsum : ∀ views : List Bytes, (∀ v ∈ views, firstEnd crlfcrlf v = some v.length) →
      (views.map fun view =>
        ((Reads.parse Request iterations {}).touched view 0).length).sum ≤
        15 * views.flatten.length := by
    intro views hviews
    induction views with
    | nil => exact le_rfl
    | cons v views ih =>
        obtain ⟨hv, hviews⟩ := List.forall_mem_cons.mp hviews
        have hfour : 4 ≤ v.length := length_le_firstEnd hv
        have htouched := (Reads.parse_affords (T := Request) iterations {} v).length_le
        have := ih hviews
        rw [List.map_cons, List.sum_cons, List.flatten_cons, List.length_append]
        omega
  exact (hsum c.views hends).trans (Nat.mul_le_mul_left 15 hle)

/-- `touched_le_of_run` on a request in two chunks, and the end of file. -/
theorem touched_le_of_run_twoChunks :
    ∃ close c, run step 6 (start [ascii "GET / HTTP/1.1\r\nHost: a:1", crlfcrlf]) =
        some (close, c) ∧
      (c.views.map fun view =>
        ((Reads.parse Request 14 {}).touched view 0).length).sum ≤ 15 * 29 := by
  obtain ⟨⟨close, c⟩, h⟩ : ∃ r, run step 6
      (start [ascii "GET / HTTP/1.1\r\nHost: a:1", crlfcrlf]) = some r :=
    Option.isSome_iff_exists.mp (by decide)
  exact ⟨close, c, h, touched_le_of_run h 14⟩

end Connection

end Camille
