import Camille.Partials

/-!
# Messages With More Data Behind Them

`Parse` sets `total_consumed_` to the size of its data before it reads any of it, and
`Size()` of the message it returns is that number, wherever the cursor is by then. A
message is `IsWhole` when its data is taken up by it: the header block is closed by an
empty line, and the body is all there is behind it.

## Main results

* `size_of_parse`: the size of every message that is returned.
* `size_append_iff`: when the size of a message is its own.
-/

open Lib

namespace Camille

section Pipelining

variable {T : Type} [IsReqResType T]

open IsReqResType

/-- **The size of a message is that of the data** it was returned for. -/
theorem size_of_parse {p q : Parser} {data : Bytes} {d : T}
    (h : p.parse T data = some (.returned (.ok d), q)) :
    (fields d).size = data.length ∧ q.totalConsumed = data.length := by
  have hs := rank_le_of_parse h
  have hconsumed : ((p.atHeaders data).enter .kComplete).setUsed.totalConsumed = data.length :=
    p.atHeaders_totalConsumed data
  obtain ⟨R, hno | ⟨n, hsized, hrest, hle⟩⟩ :=
    (verdict_message_iff hs data).mp (verdict_eq_message_iff.mpr ⟨d, q, h⟩)
  · rw [parse_of_noBody hs R hno] at h
    obtain ⟨hd, rfl⟩ := Prod.mk.inj (Option.some.inj h)
    obtain rfl := Except.ok.inj (Outcome.returned.inj hd)
    exact ⟨by rw [fields_setSize], hconsumed⟩
  · rw [parse_of_sized hs R hsized hrest hle] at h
    obtain ⟨hd, rfl⟩ := Prod.mk.inj (Option.some.inj h)
    obtain rfl := Except.ok.inj (Outcome.returned.inj hd)
    exact ⟨by rw [fields_setSize], hconsumed⟩

/-- The reading takes up the data: an empty line closes the header block, nothing stands
behind it without a content length, and as many bytes as announced with one. -/
structure Reading.Closed {s : States} {data : Bytes} (R : Reading s data) : Prop where
  ending : R.block.ending = .emptyLine
  bare : R.block.values kContentLength = [] → R.rest = []
  sized : ∀ n, R.Sized n → R.rest.length = n

/-- A message a fresh parser accepts, and nothing behind it. -/
def IsWhole (m : Bytes) : Prop :=
  ∃ R : Reading .kReady m, R.Accepted ∧ R.Closed

/-- More data behind an empty line does not keep a message from being accepted. -/
theorem Reading.Accepted.extend {s : States} {data : Bytes} {R : Reading s data}
    (h : R.Accepted) (hend : R.block.ending = .emptyLine) (e : Bytes) :
    (R.extend hend e).Accepted := by
  rcases h with hno | ⟨n, hsized, hrest, hle⟩
  · exact .inl hno
  · refine .inr ⟨n, hsized, List.append_ne_nil_of_left_ne_nil hrest e, hle.trans ?_⟩
    rw [Reading.extend, List.length_append]
    exact Nat.le_add_right _ _

/-- **When the size of a message is its own.** A whole message is returned whatever
follows it, and its size and the number of bytes consumed are its length exactly when
nothing follows it. -/
theorem size_append_iff {m : Bytes} (hm : IsWhole m) (r : Bytes) :
    (∃ (d : T) (q : Parser), ({} : Parser).parse T (m ++ r) = some (.returned (.ok d), q)) ∧
      ((∃ (d : T) (q : Parser), ({} : Parser).parse T (m ++ r) = some (.returned (.ok d), q) ∧
        (fields d).size = m.length ∧ q.totalConsumed = m.length) ↔ r = []) := by
  obtain ⟨R, haccepted, hclosed⟩ := hm
  obtain ⟨f, hf⟩ := (haccepted.extend hclosed.ending r).exists_shows
  obtain ⟨d, q, hparse, -⟩ := Reading.Shows.parse (T := T) (p := {}) hf Parser.rank_fresh
  refine ⟨⟨d, q, hparse⟩, ?_, ?_⟩
  · rintro ⟨d', q', hparse', hsize, -⟩
    rw [(size_of_parse hparse').1, List.length_append] at hsize
    exact List.length_eq_zero_iff.mp (by omega)
  · rintro rfl
    have hsize := size_of_parse hparse
    rw [List.append_nil] at hsize
    exact ⟨d, q, hparse, hsize⟩

end Pipelining

/-- It is a whole request. -/
theorem isWhole_oneByteRequest : IsWhole oneByteRequest := by
  refine ⟨oneByteReading, .inr ⟨1, sized_oneByteReading, by decide, by decide⟩, ?_⟩
  have hvalues : oneByteReading.block.values kContentLength = [ascii "1"] := by decide
  refine ⟨rfl, fun hbare => ?_, ?_⟩
  · rw [hvalues] at hbare
    cases hbare
  · rintro n ⟨value, ⟨-, hvalue⟩, -, hn⟩
    obtain rfl : ascii "1" = value := List.singleton_inj.mp (hvalues.symm.trans hvalue)
    have hone : validateContentLength (ascii "1") = some 1 := by decide
    rw [hone] at hn
    exact Option.some.inj hn

/-- A request with a body of one byte, and the beginning of the next one. -/
theorem oneByteRequest_size :
    (∃ (d : Request) (q : Parser), ({} : Parser).parse Request (oneByteRequest ++ ascii "GET") =
        some (.returned (.ok d), q)) ∧
      ((∃ (d : Request) (q : Parser), ({} : Parser).parse Request (oneByteRequest ++ ascii "GET") =
          some (.returned (.ok d), q) ∧
        (IsReqResType.fields d).size = oneByteRequest.length ∧
        q.totalConsumed = oneByteRequest.length) ↔ ascii "GET" = []) :=
  size_append_iff isWhole_oneByteRequest _

/-- The size counts the bytes behind the message. -/
theorem not_size_append :
    ¬ ∀ m r : Bytes, IsWhole m → ∃ (d : Request) (q : Parser),
      ({} : Parser).parse Request (m ++ r) = some (.returned (.ok d), q) ∧
        (IsReqResType.fields d).size = m.length := by
  intro h
  obtain ⟨d, q, hparse, hsize⟩ := h oneByteRequest (ascii "GET") isWhole_oneByteRequest
  rw [(size_of_parse hparse).1] at hsize
  exact absurd hsize (by decide)

end Camille
