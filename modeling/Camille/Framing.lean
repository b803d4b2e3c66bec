import Camille.ContentLength
import Camille.Lib.Delimiter
import Camille.Outcomes

/-!
# Lengths and Encodings

What a fresh parser makes of the two headers that frame a body. `GetHeader` shows a
header that is given twice as one that is not there, so that the checks on
`Content-Length` and `Transfer-Encoding` see no more than one header of each; and with no
`Content-Length` to be seen a message is complete at the end of its headers, before any of
the checks.

`headerNames` reads the names of the headers off arbitrary data, by its line structure
alone; on data the parser can take apart it agrees with the header block
(`Reading.headerNames_eq`).

## Main results

* `parse_invalidLength`: an invalid length is never reported as `kBadContentLength`.
* `parse_error_iff_of_repeated`: when a repeated `Content-Length` is refused.
* `parse_error_iff_of_chunked`: when a `Transfer-Encoding` without a length is refused.
* `parse_no_message_iff_of_both`: when both headers together are refused.
-/

open Lib

namespace Camille

/-! ### Headers of arbitrary data -/

/-- The lines between the first line end and the empty line. -/
def headLines (data : Bytes) : List Bytes :=
  (splitLines 0x0D 0x0A data).tail.takeWhile fun line => line ≠ []

/-- The names of the headers: in every such line, what stands before the colon. -/
def headerNames (data : Bytes) : List Bytes :=
  ((headLines data).filter fun line => ':'.toUInt8 ∈ line).map
    fun line => line.takeWhile fun b => b != ':'.toUInt8

/-- The line structure of a header block. -/
theorem takeWhile_splitLines_joinLines (h : HeaderLine) (hs : List HeaderLine) (e : Ending)
    {rest : Bytes} (hrest : e = .emptyLine ∨ rest = []) :
    (splitLines 0x0D 0x0A (joinLines h hs ++ (e.bytes ++ rest))).takeWhile
        (fun line => line ≠ []) = (h :: hs).map HeaderLine.bytes := by
  induction hs generalizing h with
  | nil =>
      cases e with
      | emptyLine =>
          have hbytes : joinLines h [] ++ (Ending.emptyLine.bytes ++ rest) =
              h.bytes ++ 0x0D :: 0x0A :: ([] ++ 0x0D :: 0x0A :: rest) := by
            simp [joinLines, Ending.bytes, crlfcrlf, crlf]
          rw [hbytes, splitLines_append h.not_cr_mem_bytes, splitLines_append (by simp)]
          simp [h.bytes_ne_nil]
      | afterLine =>
          have hbytes : joinLines h [] ++ (Ending.afterLine.bytes ++ rest) =
              h.bytes ++ 0x0D :: 0x0A :: [] := by
            simp [joinLines, Ending.bytes, crlf, hrest.resolve_left (by decide)]
          rw [hbytes, splitLines_append h.not_cr_mem_bytes, splitLines_of_notMem (by simp)]
          simp [h.bytes_ne_nil]
      | inValue =>
          have hbytes : joinLines h [] ++ (Ending.inValue.bytes ++ rest) = h.bytes := by
            simp [joinLines, Ending.bytes, hrest.resolve_left (by decide)]
          rw [hbytes, splitLines_of_notMem h.not_cr_mem_bytes]
          simp [h.bytes_ne_nil]
  | cons h' hs ih =>
      have hbytes : joinLines h (h' :: hs) ++ (e.bytes ++ rest) =
          h.bytes ++ 0x0D :: 0x0A :: (joinLines h' hs ++ (e.bytes ++ rest)) := by
        simp [joinLines, crlf]
      rw [hbytes, splitLines_append h.not_cr_mem_bytes,
        List.takeWhile_cons_of_pos (by simpa using h.bytes_ne_nil), ih h']
      rfl

/-- The name a header line shows. -/
theorem HeaderLine.takeWhile_bytes (h : HeaderLine) :
    h.bytes.takeWhile (fun b => b != ':'.toUInt8) = h.key :=
  takeWhile_bne_append h.not_colon_mem_key (h.ws :: h.raw)

/-- A start line and a header block: the lines are those of the block. -/
theorem headLines_block (sl : StartLine) {B : HeaderBlock} {rest : Bytes}
    (hfits : B.Fits rest) :
    headLines (sl.bytes ++ (B.bytes ++ rest)) = B.lines.map HeaderLine.bytes := by
  have hdata : sl.bytes ++ (B.bytes ++ rest) =
      sl.line ++ 0x0D :: 0x0A :: (joinLines B.first B.others ++ (B.ending.bytes ++ rest)) := by
    simp [sl.bytes_eq, HeaderBlock.bytes, crlf]
  rw [headLines, hdata, splitLines_append sl.not_cr_mem_line, List.tail_cons]
  exact takeWhile_splitLines_joinLines B.first B.others B.ending hfits

/-- A start line and a header block: the headers are those of the block. -/
theorem headerNames_block (sl : StartLine) {B : HeaderBlock} {rest : Bytes}
    (hfits : B.Fits rest) :
    headerNames (sl.bytes ++ (B.bytes ++ rest)) = B.lines.map HeaderLine.key := by
  have hcolon : ∀ line ∈ B.lines.map HeaderLine.bytes,
      decide (':'.toUInt8 ∈ line) = true := by
    simp [HeaderLine.bytes]
  rw [headerNames, headLines_block sl hfits, List.filter_eq_self.mpr hcolon, List.map_map]
  exact List.map_congr_left fun h _ => h.takeWhile_bytes

namespace Reading

variable {data : Bytes} (R : Reading .kReady data)
include R

/-- A reading from the start is a start line, a block and a rest. -/
theorem data_eq_bytes : data = R.startLine.bytes ++ (R.block.bytes ++ R.rest) :=
  R.data_eq.trans (R.startLine.bytes_append _).symm

/-- **On data the parser can take apart, the names are those of the header block.** -/
theorem headerNames_eq : headerNames data = R.block.lines.map HeaderLine.key :=
  (congrArg headerNames R.data_eq_bytes).trans (headerNames_block R.startLine R.fits)

/-- How often a name occurs is how many values are on record under it. -/
theorem count_headerNames (key : Bytes) :
    (headerNames data).count key = (R.block.values key).length := by
  rw [R.headerNames_eq, HeaderBlock.values, length_valuesOf, HeaderBlock.fields, List.map_map]
  rfl

end Reading

/-- A line that breaks off behind `HTTP` has no line end. -/
theorem not_cr_mem_of_readsPast {data : Bytes} (h : ReadsPast .kReady data) :
    (0x0D : UInt8) ∉ data := by
  obtain ⟨-, sl, rfl⟩ := h
  have hline := ({ sl with version := [], version_valid := by simp } : StartLine).not_cr_mem_line
  rw [StartLine.line, ascii_http_slash] at hline
  simp only [StartLine.target, List.mem_append, List.mem_cons, not_or] at hline ⊢
  tauto

/-- Without a start line there are no header names. -/
theorem headerNames_of_readsPast {data : Bytes} (h : ReadsPast .kReady data) :
    headerNames data = [] := by
  simp [headerNames, headLines, splitLines_of_notMem (not_cr_mem_of_readsPast h)]

/-! ### A length given more than once, or not at all -/

section Calls

variable {T : Type} [IsReqResType T] {data : Bytes}

open IsReqResType

/-- **A first line that is no start line is answered with an error**, the same whatever
follows the line. -/
theorem exists_error_of_line {first : Bytes} (hfirst : ¬ crlf <:+: first)
    (hno : ¬ ∃ sl : StartLine, sl.bytes = first ++ crlf) :
    ∃ e, ∀ rest, ∃ q,
      ({} : Parser).parse T (first ++ crlf ++ rest) = some (.returned (.error e), q) := by
  have hline : ¬ ∃ (sl : StartLine) (pos : Bytes), first ++ crlf = sl.ahead pos .kReady := by
    rintro ⟨sl, pos, he⟩
    rw [← sl.bytes_append, sl.bytes_eq] at he
    have hsame := line_append_inj (by decide) hfirst
      (fun hin => sl.not_cr_mem_line (hin.subset (by simp))) ((List.append_nil _).trans he)
    exact hno ⟨sl, by rw [sl.bytes_eq, hsame.1]⟩
  obtain ⟨s₁, hrefuses⟩ :=
    exists_refuses_of_line Parser.rank_fresh (x := first ++ crlf) (by simp [crlf]) hline
  refine ⟨s₁.refusal, fun rest => ?_⟩
  obtain ⟨r, hchain, hr⟩ := hrefuses rest
  obtain ⟨q, hq, -⟩ := parse_of_refuses (T := T) (p := {}) hchain hr
  exact ⟨q, hq⟩

/-- **A repeated length is a message without a body.** `Content-Length` headers in any
number from two on are refused exactly when the rest of the head is not in order: the
data cannot be taken apart, or not exactly one header is named `Host`. -/
theorem parse_error_iff_of_repeated (h : 2 ≤ (headerNames data).count kContentLength) :
    (∃ e q, ({} : Parser).parse T data = some (.returned (.error e), q)) ↔
      ¬ (∃ R : Reading .kReady data, R.OneHost) ∧ ¬ BadHost .kReady data := by
  -- no reading of the data shows a `Content-Length`
  have hcl : ∀ R : Reading .kReady data, (R.block.values kContentLength).length ≠ 1 := by
    intro R
    rw [R.count_headerNames] at h
    omega
  have hann : ∀ (R : Reading .kReady data) (value : Bytes), ¬ R.Announces value := by
    intro R value hR
    exact hcl R (by rw [hR.2]; rfl)
  have haccepts : Accepts .kReady data ↔ ∃ R : Reading .kReady data, R.OneHost := by
    constructor
    · rintro ⟨R, hR | ⟨n, ⟨value, hR, -⟩, -⟩⟩
      · exact ⟨R, hR.1⟩
      · exact ⟨R, hR.1⟩
    · rintro ⟨R, hR⟩
      exact ⟨R, .inl ⟨hR, hcl R⟩⟩
  have hstalls : ¬ Stalls .kReady data := by
    rintro ⟨R, _, ⟨value, hR, -⟩, -⟩
    exact hann R value hR
  have hlength : ¬ BadLength .kReady data := by
    rintro ⟨R, value, hR, -⟩
    exact hann R value hR
  have hpast : ¬ ReadsPast .kReady data := by
    intro hp
    rw [headerNames_of_readsPast hp] at h
    simp at h
  rw [← verdict_eq_error_iff, verdict_error_iff Parser.rank_fresh]
  change ¬ (Accepts .kReady data ∨ Stalls .kReady data ∨ BadLength .kReady data ∨
    BadHost .kReady data ∨ ReadsPast .kReady data) ↔ _
  rw [haccepts]
  tauto

/-- A request with two different lengths. -/
def repeatedLength : Bytes :=
  ascii "GET / HTTP/1.1\r\nHost: a:1\r\nContent-Length: 1\r\nContent-Length: 2\r\n\r\nx"

/-- **Two different lengths are guessed away.** The request is returned without a body. -/
theorem repeatedLength_message :
    2 ≤ (headerNames repeatedLength).count kContentLength ∧
      ({} : Parser).parse Request repeatedLength =
        some (.returned (.ok
          { host := ascii "a", port := ascii "1", path := ascii "/", method := ascii "GET",
            version := ascii "1.1",
            headers := [(kHost, ascii "a:1"), (kContentLength, ascii "1"),
              (kContentLength, ascii "2")],
            requestSize := repeatedLength.length }),
          { used := true, totalConsumed := repeatedLength.length,
            currentState := .kComplete }) := by
  constructor <;> decide

/-- A request with two lengths and no host. -/
def hostless : Bytes :=
  ascii "GET / HTTP/1.1\r\nContent-Length: 1\r\nContent-Length: 2\r\n\r\nx"

/-- `parse_error_iff_of_repeated` on a request that is refused. -/
theorem hostless_refused :
    2 ≤ (headerNames hostless).count kContentLength ∧
      (¬ ∃ R : Reading .kReady hostless, R.OneHost) ∧ ¬ BadHost .kReady hostless := by
  have htwo : 2 ≤ (headerNames hostless).count kContentLength := by decide
  have herror : verdict (({} : Parser).parse Request hostless) = .error := by decide
  exact ⟨htwo, (parse_error_iff_of_repeated htwo).mp (verdict_eq_error_iff.mp herror)⟩

/-- **A chunked message is a message without a body.** With a well-formed header block
that names a `Transfer-Encoding` and no `Content-Length`, behind any first line, the data
is refused exactly when the first line is not a start line, or every line of the block
can be recorded and not exactly one is named `Host`. -/
theorem parse_error_iff_of_chunked {first : Bytes} (hfirst : ¬ crlf <:+: first)
    {B : HeaderBlock} (hB : B.ending = .emptyLine)
    (_hte : 1 ≤ (B.values kTransferEncoding).length) (hcl : B.values kContentLength = [])
    (rest : Bytes) :
    (∃ e q, ({} : Parser).parse T (first ++ crlf ++ (B.bytes ++ rest)) =
        some (.returned (.error e), q)) ↔
      (¬ ∃ sl : StartLine, sl.bytes = first ++ crlf) ∨
        (B.Splits ∧ (B.values kHost).length ≠ 1) := by
  rw [← verdict_eq_error_iff]
  have hrank := Parser.rank_fresh
  by_cases hsl : ∃ sl : StartLine, sl.bytes = first ++ crlf
  · obtain ⟨sl, hsl⟩ := id hsl
    have hdata : first ++ crlf ++ (B.bytes ++ rest) = sl.ahead (B.bytes ++ rest) .kReady := by
      rw [← hsl, sl.bytes_append]
    have hfits : B.Fits rest := .inl hB
    by_cases hsplits : B.Splits
    · let R : Reading ({} : Parser).currentState (first ++ crlf ++ (B.bytes ++ rest)) :=
        ⟨sl, B, rest, hdata, hfits, hsplits⟩
      by_cases hhost : R.OneHost
      · have hno : R.NoBody := by
          refine ⟨hhost, ?_⟩
          rw [show R.block.values kContentLength = [] from hcl]
          exact Nat.zero_ne_one
        have hhost : (B.values kHost).length = 1 := hhost
        rw [parse_of_noBody hrank R hno]
        simp [verdict, hhost, show ∃ sl : StartLine, sl.bytes = first ++ crlf from ⟨sl, hsl⟩]
      · rw [parse_of_not_oneHost hrank R hhost]
        exact iff_of_true rfl (.inr ⟨hsplits, hhost⟩)
    · have hbad : BadHost ({} : Parser).currentState (first ++ crlf ++ (B.bytes ++ rest)) :=
        ⟨sl, _, hdata, B.hostThrows hsplits hfits⟩
      rw [(verdict_threw_iff (T := T) hrank _).mpr (.inr hbad)]
      simp [hsplits, show ∃ sl : StartLine, sl.bytes = first ++ crlf from ⟨sl, hsl⟩]
  · obtain ⟨e, herror⟩ := exists_error_of_line (T := T) hfirst hsl
    exact iff_of_true (verdict_eq_error_iff.mpr ⟨e, herror _⟩) (.inl hsl)

/-- A chunked request's headers. -/
def chunkedBlock : HeaderBlock :=
  ⟨.ofHost, [.ofChunked], .emptyLine⟩

/-- **A chunked request is taken for one without a body.** -/
theorem chunkedBlock_message :
    1 ≤ (chunkedBlock.values kTransferEncoding).length ∧
      chunkedBlock.values kContentLength = [] ∧
      verdict (({} : Parser).parse Request (ascii "GET / HTTP/1.1" ++ crlf ++
        (chunkedBlock.bytes ++ ascii "5\r\nhello\r\n0\r\n\r\n"))) = .message := by
  refine ⟨?_, ?_, ?_⟩ <;> decide

/-- `parse_error_iff_of_chunked` on a block without a host. -/
theorem chunked_hostless_refused :
    ∃ e q, ({} : Parser).parse Request (ascii "GET / HTTP/1.1" ++ crlf ++
      ((⟨.ofChunked, [], .emptyLine⟩ : HeaderBlock).bytes ++ [])) =
        some (.returned (.error e), q) :=
  (parse_error_iff_of_chunked (by decide) rfl (by decide)
    (by decide) []).mpr (.inr ⟨by decide, by decide⟩)

/-- **Both headers together.** Data that names a `Content-Length` and a
`Transfer-Encoding`, each at least once, is never a message exactly when it is not one of
two things: a head with a repeated `Content-Length`, or one with a single valid length, a
repeated `Transfer-Encoding` and a whole body. -/
theorem parse_no_message_iff_of_both (hcl : 1 ≤ (headerNames data).count kContentLength)
    (hte : 1 ≤ (headerNames data).count kTransferEncoding) :
    (∀ d q, ({} : Parser).parse T data ≠ some (.returned (.ok d), q)) ↔
      ¬ ∃ R : Reading .kReady data, R.OneHost ∧
        (2 ≤ (R.block.values kContentLength).length ∨
          ∃ value n, R.block.values kContentLength = [value] ∧
            2 ≤ (R.block.values kTransferEncoding).length ∧
            validateContentLength value = some n ∧ R.rest ≠ [] ∧ n ≤ R.rest.length) := by
  have hmessage : (∀ d q, ({} : Parser).parse T data ≠ some (.returned (.ok d), q)) ↔
      ¬ Accepts .kReady data := by
    have hiff := verdict_message_iff (T := T) (p := {}) Parser.rank_fresh data
    rw [verdict_eq_message_iff] at hiff
    rw [← not_iff_not, not_not, ← hiff]
    simp only [ne_eq, not_forall, not_not]
  rw [hmessage]
  refine not_congr (exists_congr ?_)
  intro R
  rw [R.count_headerNames] at hcl hte
  constructor
  · rintro (⟨hhost, hno⟩ | ⟨n, ⟨value, ⟨hhost, hvalue⟩, hone, hn⟩, hrest, hle⟩)
    · exact ⟨hhost, .inl (by omega)⟩
    · exact ⟨hhost, .inr ⟨value, n, hvalue, by omega, hn, hrest, hle⟩⟩
  · rintro ⟨hhost, htwo | ⟨value, n, hvalue, htwo, hn, hrest, hle⟩⟩
    · exact .inl ⟨hhost, by omega⟩
    · exact .inr ⟨n, ⟨value, ⟨hhost, hvalue⟩, by omega, hn⟩, hrest, hle⟩

/-- A request with a length and two encodings. -/
def lengthAndEncodings : Bytes :=
  ascii "GET / HTTP/1.1\r\nHost: a:1\r\nContent-Length: 1\r\n" ++
    ascii "Transfer-Encoding: chunked\r\nTransfer-Encoding: chunked\r\n\r\nx"

/-- **A length and two encodings make a message**, with the length's body. -/
theorem lengthAndEncodings_message :
    1 ≤ (headerNames lengthAndEncodings).count kContentLength ∧
      1 ≤ (headerNames lengthAndEncodings).count kTransferEncoding ∧
      verdict (({} : Parser).parse Request lengthAndEncodings) = .message := by
  refine ⟨?_, ?_, ?_⟩ <;> decide

/-- A request with one of each. -/
def lengthAndEncoding : Bytes :=
  ascii "GET / HTTP/1.1\r\nHost: a:1\r\nContent-Length: 1\r\n" ++
    ascii "Transfer-Encoding: chunked\r\n\r\nx"

/-- `parse_no_message_iff_of_both` on a request with one of each, which is refused. -/
theorem lengthAndEncoding_refused :
    ¬ ∃ R : Reading .kReady lengthAndEncoding, R.OneHost ∧
      (2 ≤ (R.block.values kContentLength).length ∨
        ∃ value n, R.block.values kContentLength = [value] ∧
          2 ≤ (R.block.values kTransferEncoding).length ∧
          validateContentLength value = some n ∧ R.rest ≠ [] ∧ n ≤ R.rest.length) := by
  have herror : verdict (({} : Parser).parse Request lengthAndEncoding) = .error := by
    decide
  refine (parse_no_message_iff_of_both (T := Request) (by decide)
    (by decide)).mp fun d q he => ?_
  rw [he] at herror
  cases herror

/-! ### A length that is no length -/

/-- **An invalid length is never reported.** Behind a well-formed start line and a
well-formed header block with one `Host` and one invalid `Content-Length`, no call returns
`kBadContentLength`; with bytes behind the block, the error is put on record and then an
exception leaves the call. -/
theorem parse_invalidLength (sl : StartLine) {B : HeaderBlock} (hB : B.ending = .emptyLine)
    (hhost : (B.values kHost).length = 1) (hte : B.values kTransferEncoding = [])
    {value : Bytes} (hcl : B.values kContentLength = [value]) (hvalue : InvalidLength value)
    (rest : Bytes) :
    (¬ ∃ q, ({} : Parser).parse T (sl.bytes ++ (B.bytes ++ rest)) =
        some (.returned (.error .kBadContentLength), q)) ∧
      (B.Splits → rest ≠ [] → decimalValue value ≤ sizeMax →
        ∃ q, ({} : Parser).parse T (sl.bytes ++ (B.bytes ++ rest)) =
            some (.threw .badExpectedAccess, q) ∧
          q.currentState = .kGarbage ∧ q.error = .kBadContentLength) := by
  have hrank := Parser.rank_fresh
  have hdata := sl.bytes_append (B.bytes ++ rest)
  have hfits : B.Fits rest := .inl hB
  by_cases hsplits : B.Splits
  · let R : Reading ({} : Parser).currentState (sl.bytes ++ (B.bytes ++ rest)) :=
      ⟨sl, B, rest, hdata, hfits, hsplits⟩
    have hann : R.Announces value := ⟨hhost, hcl⟩
    have hte : (R.block.values kTransferEncoding).length ≠ 1 := by rw [hte]; simp
    by_cases hrest : rest = []
    · refine ⟨?_, fun _ hne => absurd hrest hne⟩
      rw [parse_of_awaited hrank R hann hrest]
      simp
    · refine ⟨?_, fun _ _ hle => ⟨_, parse_of_invalid hrank R hann hrest hte
        (validateContentLength_of_invalid hvalue hle), rfl, rfl⟩⟩
      cases hn : validateContentLength value with
      | none =>
          rw [parse_of_invalid hrank R hann hrest hte hn]
          simp
      | some n =>
          have hsized : R.Sized n := ⟨value, hann, hte, hn⟩
          by_cases hle : n ≤ rest.length
          · rw [parse_of_sized hrank R hsized hrest hle]
            simp
          · rw [parse_of_short hrank R hsized hrest (not_le.mp hle)]
            simp
  · refine ⟨?_, fun h => absurd h hsplits⟩
    obtain ⟨q, hq⟩ := parse_of_badHost (T := T) hrank
      ⟨sl, _, hdata, B.hostThrows hsplits hfits⟩
    simp [hq]

/-- The headers of a request with a length that is no number. -/
def lettersBlock : HeaderBlock :=
  ⟨.ofHost, [.ofLength (ascii "x") (by decide)], .emptyLine⟩

/-- **An invalid length throws**, in place of the error on record. -/
theorem lettersBlock_throws :
    InvalidLength (ascii "x") ∧ lettersBlock.values kContentLength = [ascii "x"] ∧
      ∃ q, ({} : Parser).parse Request
          ((default : StartLine).bytes ++ (lettersBlock.bytes ++ ascii "hello")) =
        some (.threw .badExpectedAccess, q) := by
  refine ⟨.inr (.inl ⟨'x'.toUInt8, by decide, by decide⟩), by decide,
    { totalConsumed := 53, currentState := .kGarbage, error := .kBadContentLength }, ?_⟩
  decide

/-- `parse_invalidLength` on the same request. -/
theorem lettersBlock_not_reported :
    ¬ ∃ q, ({} : Parser).parse Request
        ((default : StartLine).bytes ++ (lettersBlock.bytes ++ ascii "hello")) =
      some (.returned (.error .kBadContentLength), q) := by
  have hhost : (lettersBlock.values kHost).length = 1 := by decide
  have hte : lettersBlock.values kTransferEncoding = [] := by decide
  have hcl : lettersBlock.values kContentLength = [ascii "x"] := by decide
  have hvalue : InvalidLength (ascii "x") :=
    .inr (.inl ⟨'x'.toUInt8, by decide, by decide⟩)
  exact (parse_invalidLength default rfl hhost hte hcl hvalue _).1

end Calls

end Camille
