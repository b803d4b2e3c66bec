import Camille.ContentLength
import Camille.Resumption

/-!
# Where the Data Breaks Off

What a fresh parser makes of a message that is not all there. Each token function decides
for itself what the end of the data means: behind a token it means more data to come, in
the middle of one it mostly means a malformed request. Behind the headers, the end of the
data comes before the checks on the headers, so that `kPartialMessage` promises a body
where there can be none, or where none is left to come.

A call `EndsSoftly` when it reports nothing worse than missing data. `Completable` data
is the beginning of some message.

## Main results

* `endsSoftly_prefix_iff`: when a message that breaks off is no hard error.
* `completable_iff`: when `kPartialMessage` can be made good by more data.
* `parse_emptyBody_iff`: when a message with an empty body is complete.
-/

open Lib

namespace Camille

/-- The data breaks off right behind a token of the start line. -/
def IsCutAtToken (data : Bytes) : Prop :=
  ∃ s, Leads (.kReady, data) (s, [])

namespace Reading

variable {s : States} {data : Bytes}

/-- **More data behind an empty line** goes to the rest. -/
def extend (R : Reading s data) (hend : R.block.ending = .emptyLine) (e : Bytes) :
    Reading s (data ++ e) where
  startLine := R.startLine
  block := R.block
  rest := R.rest ++ e
  data_eq := by
    conv_lhs => rw [R.data_eq]
    rw [StartLine.ahead_append, List.append_assoc]
  fits := .inl hend
  splits := R.splits

end Reading

section Calls

variable {T : Type} [IsReqResType T] {data : Bytes}

open IsReqResType

/-! ### Prefixes of a message -/

/-- The call ends with a message or with `kPartialMessage`, and the parser can go on. -/
def EndsSoftly (o : ParseResult T) : Prop :=
  o.2.currentState ≠ .kGarbage ∧
    ((∃ d, o.1 = .returned (.ok d)) ∨ o.1 = .returned (.error .kPartialMessage))

/-- Behind a token, the end of the data is no hard error. -/
theorem IsCutAtToken.parse (hdata : data ≠ []) (h : IsCutAtToken data) :
    ∃ o, ({} : Parser).parse T data = some o ∧ EndsSoftly o := by
  obtain ⟨s, hchain⟩ := h
  obtain ⟨q, hq, rfl⟩ := parse_of_leads_nil (T := T) (p := {}) Parser.rank_fresh hdata hchain
  have hrun : q.currentState.Running :=
    States.running_of_rank_le ((hchain.rank_le_kHeaders Parser.rank_fresh).trans (by decide))
  exact ⟨_, hq, fun hgarbage => hrun (.inr hgarbage), .inr rfl⟩

end Calls

/-! Behind the empty line, all there is to a prefix of a message with a body is that too
few bytes of the body are there. -/

section Prefix

variable {data e : Bytes} (R : Reading .kReady data) (hrest : R.rest ≠ [])
include hrest

end Prefix

section Calls

variable {T : Type} [IsReqResType T]

open IsReqResType

/-- A request with a body of one byte. -/
def oneByteRequest : Bytes :=
  ascii "GET / HTTP/1.1\r\nHost: a:1\r\nContent-Length: 1\r\n\r\nx"

/-- The reading of the request. -/
def oneByteReading : Reading .kReady oneByteRequest where
  startLine := default
  block := ⟨.ofHost, [.ofLength (ascii "1") (by decide)], .emptyLine⟩
  rest := ascii "x"
  data_eq := by decide
  fits := .inl rfl
  splits := by decide

/-- The length of its body is one byte. -/
theorem sized_oneByteReading : oneByteReading.Sized 1 := by
  have hhost : (oneByteReading.block.values kHost).length = 1 := by decide
  exact ⟨ascii "1", ⟨hhost, by decide⟩, by decide, by decide⟩

/-- The call returns a message of length zero, without a body. -/
def ReturnsEmpty (o : Option (ParseResult T)) : Prop :=
  ∃ d q, o = some (.returned (.ok d), q) ∧ contentLength d = some 0 ∧ (fields d).body = []

/-- **When a message with an empty body is complete.** Behind a head that announces zero
bytes, a message is returned exactly when some byte follows: at the end of the data the
parser waits for a body before it looks at the length. -/
theorem parse_emptyBody_iff (sl : StartLine) {B : HeaderBlock} (hB : B.ending = .emptyLine)
    (hhost : (B.values kHost).length = 1) (hte : B.values kTransferEncoding = [])
    {value : Bytes} (hcl : B.values kContentLength = [value]) (hne : value ≠ [])
    (hzeros : ∀ b ∈ value, b = '0'.toUInt8) (rest : Bytes) :
    ReturnsEmpty (({} : Parser).parse T (sl.bytes ++ (B.bytes ++ rest))) ↔
      B.Splits ∧ rest ≠ [] := by
  have hfresh := Parser.rank_fresh
  have hdata := sl.bytes_append (B.bytes ++ rest)
  have hfits : B.Fits rest := .inl hB
  have hvalue : decimalValue value = 0 := decimalValue_zeros hzeros
  have hdigits : ∀ b ∈ value, isDigit b = true := by
    intro b hb
    rw [hzeros b hb]
    rfl
  have hn : validateContentLength value = some 0 := by
    rw [validateContentLength_of_digits hne hdigits (hvalue ▸ Nat.zero_le _), hvalue]
    exact if_neg (Nat.not_lt_zero _)
  by_cases hsplits : B.Splits
  swap
  · obtain ⟨q, hq⟩ := parse_of_badHost (T := T) hfresh
      ⟨sl, _, hdata, B.hostThrows hsplits hfits⟩
    simp [ReturnsEmpty, hq, hsplits]
  let R : Reading ({} : Parser).currentState (sl.bytes ++ (B.bytes ++ rest)) :=
    ⟨sl, B, rest, hdata, hfits, hsplits⟩
  have hann : R.Announces value := ⟨hhost, hcl⟩
  by_cases hrest : rest = []
  · rw [parse_of_awaited hfresh R hann hrest]
    simp [ReturnsEmpty, hrest]
  · have hone : (R.block.values kTransferEncoding).length ≠ 1 := by
      rw [show R.block.values kTransferEncoding = [] from hte]
      exact Nat.zero_ne_one
    rw [parse_of_sized hfresh R ⟨value, hann, hone, hn⟩ hrest (Nat.zero_le _)]
    exact iff_of_true ⟨_, _, rfl, by simp, by simp⟩ ⟨hsplits, hrest⟩

/-- `Content-Length: 0`. -/
def zeroLength : HeaderLine :=
  .ofLength (ascii "0") (by decide)

/-- The headers of a request with an empty body. -/
def emptyBodyBlock : HeaderBlock :=
  ⟨.ofHost, [zeroLength], .emptyLine⟩

/-- `parse_emptyBody_iff` on a request that another byte follows. -/
theorem emptyBodyBlock_complete :
    ReturnsEmpty (({} : Parser).parse Request
      ((default : StartLine).bytes ++ (emptyBodyBlock.bytes ++ ascii "x"))) := by
  have hzeros : ∀ b ∈ ascii "0", b = '0'.toUInt8 := fun b hb => List.mem_singleton.mp hb
  exact (parse_emptyBody_iff default rfl (by decide) (by decide) (by decide) (by decide) hzeros
    _).mpr ⟨by decide, by decide⟩

/-- **A message with an empty body is not complete** at the end of the data. -/
theorem not_parse_emptyBody :
    ¬ ∀ (sl : StartLine) (B : HeaderBlock) (value : Bytes), B.ending = .emptyLine → B.Splits →
      (B.values kHost).length = 1 → B.values kTransferEncoding = [] →
      B.values kContentLength = [value] → value ≠ [] → (∀ b ∈ value, b = '0'.toUInt8) →
        ∀ rest, ReturnsEmpty (({} : Parser).parse Request
          (sl.bytes ++ (B.bytes ++ rest))) := by
  intro h
  have hzeros : ∀ b ∈ ascii "0", b = '0'.toUInt8 := fun b hb => List.mem_singleton.mp hb
  obtain ⟨d, q, hmessage, -⟩ := h default emptyBodyBlock (ascii "0") rfl (by decide) (by decide)
    (by decide) (by decide) (by decide) hzeros []
  have herror : verdict (({} : Parser).parse Request
      ((default : StartLine).bytes ++ (emptyBodyBlock.bytes ++ []))) = .error := by
    decide
  rw [hmessage] at herror
  cases herror

/-! ### Completions -/

/-- More data makes a message of it. -/
def Completable (T : Type) [IsReqResType T] (data : Bytes) : Prop :=
  ∃ e d q, ({} : Parser).parse T (data ++ e) = some (.returned (.ok d), q)

/-- No line feed follows the carriage return of the start line, but another byte. -/
def MissesLineFeed (data : Bytes) : Prop :=
  ∃ r, Leads (.kReady, data) (.kHeadersWait, r) ∧ Refuses .kHeadersWait r

/-- The data ends with the empty line of a header block that is not checked yet, and that
the checks will refuse. -/
def HidesBadHeaders (data : Bytes) : Prop :=
  ∃ (R : Reading .kReady data) (value : Bytes), R.block.ending = .emptyLine ∧ R.rest = [] ∧
    R.Announces value ∧
    ((R.block.values kTransferEncoding).length = 1 ∨ validateContentLength value = none)

/-- The headers of a message without a body. -/
def hostBlock : HeaderBlock :=
  ⟨.ofHost, [], .emptyLine⟩

/-! Another header line finishes a block that the end of the data has cut off. -/

/-- A line more at the end of a block. -/
theorem joinLines_concat (h h' : HeaderLine) (hs : List HeaderLine) :
    joinLines h (hs ++ [h']) = joinLines h hs ++ (crlf ++ h'.bytes) := by
  induction hs generalizing h with
  | nil => rw [List.nil_append, joinLines, joinLines, joinLines, List.append_assoc]
  | cons h₁ hs ih =>
      rw [List.cons_append, joinLines, ih, joinLines]
      simp only [List.append_assoc]

namespace HeaderBlock

/-- The block with one more line, and an empty line. -/
def finish (B : HeaderBlock) (h : HeaderLine) : HeaderBlock :=
  ⟨B.first, B.others ++ [h], .emptyLine⟩

/-- A block that is not ended can be finished. -/
theorem exists_bytes_finish {B : HeaderBlock} (hend : B.ending ≠ .emptyLine) (h : HeaderLine) :
    ∃ e, B.bytes ++ e = (B.finish h).bytes := by
  cases he : B.ending with
  | emptyLine => exact absurd he hend
  | afterLine =>
      refine ⟨h.bytes ++ crlfcrlf, ?_⟩
      simp [bytes, finish, joinLines_concat, he, Ending.bytes]
  | inValue =>
      refine ⟨crlf ++ (h.bytes ++ crlfcrlf), ?_⟩
      simp [bytes, finish, joinLines_concat, he, Ending.bytes]

/-- It has one line more. -/
theorem lines_finish (B : HeaderBlock) (h : HeaderLine) : (B.finish h).lines = B.lines ++ [h] :=
  rfl

/-- That line adds its value under its own key. -/
theorem values_finish (B : HeaderBlock) (h : HeaderLine) (key : Bytes) :
    (B.finish h).values key = B.values key ++ valuesOf [h.field] key := by
  rw [values, fields, lines_finish, List.map_append, valuesOf, List.filter_append,
    List.map_append]
  rfl

/-- Hosts that split still do. -/
theorem Splits.finish {B : HeaderBlock} (hB : B.Splits) {h : HeaderLine} (hh : h.Splits) :
    (B.finish h).Splits := by
  intro h' hmem
  rw [lines_finish, List.mem_append, List.mem_singleton] at hmem
  rcases hmem with hmem | rfl
  · exact hB h' hmem
  · exact hh

end HeaderBlock

/-- What can be completed is the beginning of something accepted. -/
theorem completable_iff_accepts {data : Bytes} :
    Completable T data ↔ ∃ e, Accepts .kReady (data ++ e) := by
  refine exists_congr fun e => ?_
  rw [← verdict_eq_message_iff]
  exact verdict_message_iff (p := {}) Parser.rank_fresh _

section Completions

variable {data : Bytes}

/-- A line feed that is missing is missed for good. -/
theorem MissesLineFeed.not_accepts (h : MissesLineFeed data) (e : Bytes) :
    ¬ Accepts .kReady (data ++ e) := by
  obtain ⟨r, hchain, hrefuses⟩ := h
  have hrefused : Refused .kReady (data ++ e) .kPartialMessage :=
    .token (hchain.append (.inl hrefuses.2.1)) (hrefuses.append_headersWait e)
  exact hrefused.not_accepts Parser.rank_fresh

/-- Bad headers show with the first byte behind them. -/
theorem HidesBadHeaders.not_accepts (h : HidesBadHeaders data) (e : Bytes) :
    ¬ Accepts .kReady (data ++ e) := by
  obtain ⟨R, value, hend, hrest, hann, hbad⟩ := h
  have hfresh := Parser.rank_fresh
  let R' := R.extend hend e
  by_cases he : R'.rest = []
  · have hrefused : Refused .kReady (data ++ e) .kPartialMessage := .awaited R' hann he
    exact hrefused.not_accepts hfresh
  by_cases hte : (R.block.values kTransferEncoding).length = 1
  · have hrefused : Refused .kReady (data ++ e) .kBadRequest := .conflict R' hann he hte
    exact hrefused.not_accepts hfresh
  · have hbad : BadLength .kReady (data ++ e) :=
      ⟨R', value, hann, hte, hbad.resolve_left hte, he⟩
    exact hbad.not_accepts hfresh

/-- **Behind a token, a whole message can follow.** -/
theorem IsCutAtToken.exists_accepts (h : IsCutAtToken data) :
    ∃ e, Accepts .kReady (data ++ e) := by
  obtain ⟨s, hchain⟩ := h
  have hs := hchain.rank_le_kHeaders Parser.rank_fresh
  refine ⟨(default : StartLine).ahead (hostBlock.bytes ++ []) s, ?_⟩
  have hfollows : Follows s ((default : StartLine).ahead (hostBlock.bytes ++ []) s) := by
    cases s with
    | kWaitUri => exact atStop_cons.mpr (by decide)
    | kWaitVersion => exact atStop_cons.mpr (by decide)
    | _ => trivial
  have hahead := hchain.append (.inr hfollows)
  rw [List.nil_append] at hahead
  have hhost : (hostBlock.values kHost).length = 1 := by decide
  have hcl : (hostBlock.values kContentLength).length ≠ 1 := by decide
  exact Accepts.of_leads hahead hs
    ⟨⟨default, hostBlock, [], rfl, .inl rfl, by decide⟩, .inl ⟨hhost, hcl⟩⟩

/-- **An unfinished head can be finished**: a second length makes it a message without a
body. -/
theorem Reading.exists_accepts_of_unfinished (R : Reading .kReady data)
    (hend : R.block.ending ≠ .emptyLine) {value : Bytes} (hann : R.Announces value) :
    ∃ e, Accepts .kReady (data ++ e) := by
  have hrest : R.rest = [] := R.fits.resolve_left hend
  obtain ⟨e, he⟩ := HeaderBlock.exists_bytes_finish hend zeroLength
  have hdata : data ++ e =
      R.startLine.ahead ((R.block.finish zeroLength).bytes ++ []) .kReady := by
    conv_lhs => rw [R.data_eq, hrest]
    rw [StartLine.ahead_append, List.append_nil, List.append_nil, he]
  have hhost : ((R.block.finish zeroLength).values kHost).length = 1 := by
    have hno : valuesOf [zeroLength.field] kHost = [] := by decide
    rw [HeaderBlock.values_finish, hno, List.append_nil]
    exact hann.1
  have hcl : ((R.block.finish zeroLength).values kContentLength).length ≠ 1 := by
    have hone : (valuesOf [zeroLength.field] kContentLength).length = 1 := by decide
    rw [HeaderBlock.values_finish, List.length_append, hone, hann.2]
    exact Nat.succ_ne_self 1
  exact ⟨e, ⟨R.startLine, _, [], hdata, .inl rfl, HeaderBlock.Splits.finish R.splits (by decide)⟩,
    .inl ⟨hhost, hcl⟩⟩

/-- **A valid length can be met**: with as many bytes, and at least one. -/
theorem Reading.exists_accepts_of_sized (R : Reading .kReady data)
    (hend : R.block.ending = .emptyLine) (hrest : R.rest = []) {n : ℕ} (hR : R.Sized n) :
    ∃ e, Accepts .kReady (data ++ e) := by
  refine ⟨List.replicate (n + 1) 0, R.extend hend _, .inr ⟨n, hR, ?_, ?_⟩⟩
  · exact List.append_ne_nil_of_right_ne_nil _ (by simp)
  · change n ≤ (R.rest ++ _).length
    simp [hrest]

end Completions

/-- **When more data makes a partial message whole**: exactly when no line feed is missing
behind the start line, and the headers, if they are all there, will pass their checks. -/
theorem completable_iff {data : Bytes}
    (h : ∃ q, ({} : Parser).parse T data = some (.returned (.error .kPartialMessage), q)) :
    Completable T data ↔ ¬ MissesLineFeed data ∧ ¬ HidesBadHeaders data := by
  have hfresh := Parser.rank_fresh
  rw [completable_iff_accepts]
  constructor
  · rintro ⟨e, haccepts⟩
    exact ⟨fun hmisses => hmisses.not_accepts e haccepts,
      fun hhides => hhides.not_accepts e haccepts⟩
  · rintro ⟨hmisses, hhides⟩
    have hdata : data ≠ [] := by
      rintro rfl
      obtain ⟨q, hq⟩ := h
      cases hq
    have hrefused := (parse_error_iff (T := T) hfresh hdata _).mp h
    rcases hrefused.awaits_cases with hcut | ⟨R, value, hann, hrest⟩ | hmissed
    · exact IsCutAtToken.exists_accepts hcut
    · by_cases hend : R.block.ending = .emptyLine
      · have hte : (R.block.values kTransferEncoding).length ≠ 1 := fun hte =>
          hhides ⟨R, value, hend, hrest, hann, .inl hte⟩
        cases hvalue : validateContentLength value with
        | none => exact absurd ⟨R, value, hend, hrest, hann, .inr hvalue⟩ hhides
        | some n => exact R.exists_accepts_of_sized hend hrest ⟨value, hann, hte, hvalue⟩
      · exact R.exists_accepts_of_unfinished hend hann
    · exact absurd hmissed hmisses

/-- `completable_iff` on a method. -/
theorem method_completable : ¬ MissesLineFeed (ascii "GET") ∧ ¬ HidesBadHeaders (ascii "GET") := by
  have hmessage : verdict (({} : Parser).parse Request
      (ascii "GET" ++ ascii " / HTTP/1.1\r\nHost: a:1\r\n\r\n")) = .message := by
    decide
  obtain ⟨d, q, hparse⟩ := verdict_eq_message_iff.mp hmessage
  exact (completable_iff ⟨_, parse_method⟩).mp ⟨_, d, q, hparse⟩

/-- A start line with a byte between its carriage return and its line feed. -/
def strayByte : Bytes :=
  ascii "GET / HTTP/1.1\rX"

/-- **More data does not help** where the line feed is missing. -/
theorem not_completable :
    ¬ ∀ data, (∃ q, ({} : Parser).parse Request data =
        some (.returned (.error .kPartialMessage), q)) → Completable Request data := by
  intro h
  have hparse : ({} : Parser).parse Request strayByte =
      some (.returned (.error .kPartialMessage),
        { totalConsumed := 16, currentState := .kGarbage, error := .kPartialMessage }) := by
    decide
  have hmisses : MissesLineFeed strayByte := by
    rcases partial_cases hparse with ⟨-, hchain⟩ | hbody | ⟨-, -, hrefused⟩
    · exact absurd (hchain.rank_le_kHeaders Parser.rank_fresh) (by decide)
    · cases hbody
    · exact hrefused
  obtain ⟨e, haccepts⟩ := completable_iff_accepts.mp (h _ ⟨_, hparse⟩)
  exact hmisses.not_accepts e haccepts

end Calls

end Camille
