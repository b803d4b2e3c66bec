import Camille.Framing

/-!
# Truncated Header Blocks

The loop of `ParseHeaders` also ends when the data does, and nothing behind it asks
whether the empty line was there. A head that is cut off inside a header value or behind a
header line is therefore a header block like any other, and so is the message it makes.

## Main results

* `parse_of_cut`: what becomes of a head that is cut off.
* `parse_truncation_iff`: when truncation is noticed.
-/

open Lib

namespace Camille

/-- The data is a head that is cut off inside a header value or behind a header line. -/
def IsCut (data : Bytes) (sl : StartLine) (B : HeaderBlock) : Prop :=
  B.ending ≠ .emptyLine ∧ data = sl.bytes ++ B.bytes

/-- **A truncated head is never accepted**: a message holds an empty line, and a head that
is cut off inside a header value or behind a header line is reported as incomplete. -/
def NoticesTruncation (T : Type) [IsReqResType T] (data : Bytes) : Prop :=
  (∀ d q, ({} : Parser).parse T data = some (.returned (.ok d), q) → crlfcrlf <:+: data) ∧
    ∀ sl B, IsCut data sl B →
      ∃ q, ({} : Parser).parse T data = some (.returned (.error .kPartialMessage), q)

section Calls

variable {T : Type} [IsReqResType T] {data : Bytes}

open IsReqResType

/-- A reading that fits ends with an empty line, or is a head that is cut off. -/
theorem Reading.cut_or_infix (R : Reading .kReady data) :
    IsCut data R.startLine R.block ∨ crlfcrlf <:+: data := by
  by_cases he : R.block.ending = .emptyLine
  · refine .inr ⟨R.startLine.bytes ++ joinLines R.block.first R.block.others, R.rest, ?_⟩
    refine Eq.trans ?_ R.data_eq_bytes.symm
    simp [HeaderBlock.bytes, he, Ending.bytes]
  · have hrest : R.rest = [] := R.fits.resolve_left he
    refine .inl ⟨he, R.data_eq_bytes.trans ?_⟩
    rw [hrest, List.append_nil]

/-- The reading of a head that is cut off. -/
theorem IsCut.data_eq_ahead {sl : StartLine} {B : HeaderBlock} (h : IsCut data sl B) :
    data = sl.ahead (B.bytes ++ []) .kReady := by
  rw [h.2, List.append_nil, sl.bytes_append]

/-- **What becomes of a head that is cut off.** It is reported as incomplete exactly when
its lines can be recorded, one of them is named `Host` and one `Content-Length`. -/
theorem parse_of_cut {sl : StartLine} {B : HeaderBlock} (h : IsCut data sl B) :
    (∃ q, ({} : Parser).parse T data = some (.returned (.error .kPartialMessage), q)) ↔
      B.Splits ∧ (B.values kHost).length = 1 ∧ (B.values kContentLength).length = 1 := by
  have hrank := Parser.rank_fresh
  by_cases hsplits : B.Splits
  swap
  · obtain ⟨q, hq⟩ := parse_of_badHost (T := T) hrank
      ⟨sl, _, h.data_eq_ahead, B.hostThrows hsplits (.inr rfl)⟩
    simp [hq, hsplits]
  let R : Reading ({} : Parser).currentState data :=
    ⟨sl, B, [], h.data_eq_ahead, .inr rfl, hsplits⟩
  by_cases hhost : (B.values kHost).length = 1
  swap
  · rw [parse_of_not_oneHost hrank R hhost]
    simp [hhost]
  by_cases hcl : (B.values kContentLength).length = 1
  · obtain ⟨value, hvalue⟩ := exists_value_of_length hcl
    have hann : R.Announces value := ⟨hhost, hvalue⟩
    rw [parse_of_awaited hrank R hann rfl]
    simp [hsplits, hhost, hcl]
  · rw [parse_of_noBody hrank R ⟨hhost, hcl⟩]
    simp [hcl]

/-- **When truncation is noticed**: exactly on data that is no head cut off, and on cut
heads whose lines can be recorded and name one `Host` and one `Content-Length`. -/
theorem parse_truncation_iff (data : Bytes) :
    NoticesTruncation T data ↔
      ∀ sl B, IsCut data sl B →
        B.Splits ∧ (B.values kHost).length = 1 ∧ (B.values kContentLength).length = 1 := by
  constructor
  · rintro ⟨-, hcut⟩ sl B h
    exact (parse_of_cut h).mp (hcut sl B h)
  · intro hcut
    refine ⟨?_, fun sl B h => (parse_of_cut h).mpr (hcut sl B h)⟩
    intro d q hmessage
    obtain ⟨R, -⟩ := (verdict_message_iff (T := T) (p := {}) Parser.rank_fresh data).mp
      (verdict_eq_message_iff.mpr ⟨d, q, hmessage⟩)
    rcases R.cut_or_infix with h | h
    · -- a cut head is incomplete, not a message
      obtain ⟨q', hq'⟩ := (parse_of_cut (T := T) h).mpr (hcut _ _ h)
      rw [hmessage] at hq'
      cases hq'
    · exact h

end Calls

/-- A head that is cut off inside the value of its second header. -/
def cutHead : Bytes :=
  ascii "GET / HTTP/1.1\r\nHost: a:1\r\nCookie: se"

/-- **A truncated head is accepted**, with the value as far as it came. -/
theorem cutHead_message :
    ¬ crlfcrlf <:+: cutHead ∧
      ({} : Parser).parse Request cutHead =
        some (.returned (.ok
          { host := ascii "a", port := ascii "1", path := ascii "/", method := ascii "GET",
            version := ascii "1.1",
            headers := [(kHost, ascii "a:1"), (ascii "Cookie", ascii "se")],
            requestSize := cutHead.length }),
          { used := true, totalConsumed := cutHead.length, currentState := .kComplete }) := by
  constructor <;> decide

end Camille
