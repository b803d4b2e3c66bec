import Camille.Returned
import Camille.RoundTrip

/-!
# Header Names in Another Letter Case

A `Recasing` is one head in two spellings: only the letter case of header names differs.
`ParseHeaders` takes a name for `host` in any letter case, so both spellings are split,
or refused, alike. Which headers frame the message is decided by their exact names, and
there the two may come apart: `HeaderBlock.FramedAs` says what a block comes to, and the
two spellings are answered alike exactly when their blocks come to the same.

## Main results

* `Recasing.splits_iff`, `Reading.answer_congr`: what does not depend on the spelling.
* `sameAnswer_iff`: when the spelling of header names does not matter.
-/

open Lib

namespace Camille

/-! ### Two spellings -/

/-- The same line, with its name in another letter case. -/
structure HeaderLine.Recased (h h' : HeaderLine) : Prop where
  key : h.key.map lowerCase = h'.key.map lowerCase
  ws : h.ws = h'.ws
  raw : h.raw = h'.raw

/-- A message in two spellings: any first line, a complete header block with its names in
one letter case and another, and the bytes behind it. -/
structure Recasing where
  line : Bytes
  block : HeaderBlock
  block' : HeaderBlock
  rest : Bytes
  line_end : ¬ crlf <:+: line
  complete : block.ending = .emptyLine
  complete' : block'.ending = .emptyLine
  recased : List.Forall₂ HeaderLine.Recased block.lines block'.lines

namespace Recasing

/-- The one spelling. -/
def bytes (m : Recasing) : Bytes :=
  m.line ++ crlf ++ (m.block.bytes ++ m.rest)

/-- The other spelling. -/
def bytes' (m : Recasing) : Bytes :=
  m.line ++ crlf ++ (m.block'.bytes ++ m.rest)

/-- The two spellings, the other way round. -/
def symm (m : Recasing) : Recasing where
  line := m.line
  block := m.block'
  block' := m.block
  rest := m.rest
  line_end := m.line_end
  complete := m.complete'
  complete' := m.complete
  recased := (List.Forall₂.flip m.recased).imp fun _ _ h =>
    ⟨h.key.symm, h.ws.symm, h.raw.symm⟩

end Recasing

namespace HeaderLine.Recased

variable {h h' : HeaderLine}

/-- The test for a host key does not tell two spellings apart. -/
theorem isHostKey_eq (hr : h.Recased h') : isHostKey h.key = isHostKey h'.key := by
  have hiff : isHostKey h.key = true ↔ isHostKey h'.key = true := by
    rw [isHostKey_iff, isHostKey_iff, IsHostName, IsHostName, hr.key]
  exact Bool.eq_iff_iff.mpr hiff

/-- The value is the same. -/
theorem value_eq (hr : h.Recased h') : h.value = h'.value := by
  rw [HeaderLine.value, HeaderLine.value, hr.raw]

/-- So is whether it splits. -/
theorem splits_iff (hr : h.Recased h') : h.Splits ↔ h'.Splits := by
  rw [HeaderLine.Splits, HeaderLine.Splits, hr.isHostKey_eq, hr.value_eq]

end HeaderLine.Recased

section Lines

variable {hs hs' : List HeaderLine}

/-- The lines that decide host and port have one value. -/
theorem hostLine_map_value (h : List.Forall₂ HeaderLine.Recased hs hs') :
    (hostLine hs).map HeaderLine.value = (hostLine hs').map HeaderLine.value := by
  have hfilter : (hs.filter fun h => isHostKey h.key).map HeaderLine.value =
      (hs'.filter fun h => isHostKey h.key).map HeaderLine.value := by
    induction h with
    | nil => rfl
    | cons hr _ ih =>
        rw [List.filter_cons, List.filter_cons, hr.isHostKey_eq]
        split
        · rw [List.map_cons, List.map_cons, hr.value_eq, ih]
        · exact ih
  rw [hostLine, hostLine, ← List.getLast?_map, ← List.getLast?_map, hfilter]

/-- Line by line the values are the same. -/
theorem map_value (h : List.Forall₂ HeaderLine.Recased hs hs') :
    hs.map HeaderLine.value = hs'.map HeaderLine.value := by
  induction h with
  | nil => rfl
  | cons hr _ ih => rw [List.map_cons, List.map_cons, hr.value_eq, ih]

/-- So is whether all of them split. -/
theorem splits_iff (h : List.Forall₂ HeaderLine.Recased hs hs') :
    (∀ l ∈ hs, l.Splits) ↔ ∀ l ∈ hs', l.Splits := by
  induction h with
  | nil => simp
  | cons hr _ ih => rw [List.forall_mem_cons, List.forall_mem_cons, hr.splits_iff, ih]

end Lines

/-! ### Answers -/

/-- What a message shows beside the names of its headers. -/
structure Visible where
  method : Bytes
  path : Bytes
  version : Bytes
  host : Bytes
  port : Bytes
  body : Bytes
  values : List Bytes
  deriving DecidableEq

/-- What these fields show so. -/
def Fields.visible (f : Fields) : Visible where
  method := f.method
  path := f.path
  version := f.version
  host := f.host
  port := f.port
  body := f.body
  values := f.headers.map Prod.snd

/-- The answer of a fresh parser, when it returns one: a message or an error. -/
def answer (T : Type) [IsReqResType T] (data : Bytes) : Option (Except Errors Visible) :=
  match ({} : Parser).parse T data with
  | some (.returned (.ok d), _) => some (.ok (IsReqResType.fields d).visible)
  | some (.returned (.error e), _) => some (.error e)
  | _ => none

/-- Both are answered with a message that shows the same, or with the same error. -/
def SameAnswer (T : Type) [IsReqResType T] (data data' : Bytes) : Prop :=
  ∃ a, answer T data = some a ∧ answer T data' = some a

/-! ### What a block comes to -/

/-- What a header block and the bytes behind it come to: a bad request, a message whose
body is still awaited, or a message with a body of `n` bytes. -/
inductive Framing
  | refused
  | awaited
  | body (n : ℕ)

/-- How the exact names of its headers frame a block with `rest` behind it. -/
def HeaderBlock.FramedAs (B : HeaderBlock) (rest : Bytes) : Framing → Prop
  | .refused =>
      (B.values kHost).length ≠ 1 ∨
        ((B.values kContentLength).length = 1 ∧ rest ≠ [] ∧
          (B.values kTransferEncoding).length = 1)
  | .awaited =>
      (B.values kHost).length = 1 ∧ (B.values kContentLength).length = 1 ∧ rest = []
  | .body n =>
      (B.values kHost).length = 1 ∧
        (((B.values kContentLength).length ≠ 1 ∧ n = 0) ∨
          ∃ value, B.values kContentLength = [value] ∧
            (B.values kTransferEncoding).length ≠ 1 ∧
            validateContentLength value = some n ∧ rest ≠ [] ∧ n ≤ rest.length)

section Answers

variable {T : Type} [IsReqResType T] {data data' : Bytes}

open IsReqResType

/-- What a block is framed as, if anything, is answered. -/
def Reading.answer (R : Reading .kReady data) : Framing → Except Errors Visible
  | .refused => .error .kBadRequest
  | .awaited => .error .kPartialMessage
  | .body n => .ok { R.shown.visible with body := R.rest.take n }

/-- The answer does not depend on the spelling of the names. -/
theorem Reading.answer_congr {R : Reading .kReady data} {R' : Reading .kReady data'}
    (hline : R.startLine = R'.startLine) (hrest : R.rest = R'.rest)
    (h : List.Forall₂ HeaderLine.Recased R.block.lines R'.block.lines) (f : Framing) :
    R.answer f = R'.answer f := by
  have hvalues : R.block.fields.map Prod.snd = R'.block.fields.map Prod.snd := by
    simp only [HeaderBlock.fields, List.map_map]
    exact map_value h
  have hpart : ∀ part : Bytes → Bytes,
      (hostLine R.block.lines).elim [] (part ∘ HeaderLine.value) =
        (hostLine R'.block.lines).elim [] (part ∘ HeaderLine.value) := by
    intro part
    have hmap := congrArg (fun o : Option Bytes => o.elim [] part) (hostLine_map_value h)
    simpa only [Option.elim_map] using hmap
  have hvisible : R.shown.visible = R'.shown.visible := by
    simp only [Fields.visible, Reading.shown, hline, hvalues, Visible.mk.injEq, and_true, true_and]
    exact ⟨hpart (fun v => v.takeWhile fun b => b != ':'.toUInt8),
      hpart (fun v => (v.dropWhile fun b => b != ':'.toUInt8).tail)⟩
  cases f with
  | refused => rfl
  | awaited => rfl
  | body n => rw [Reading.answer, Reading.answer, hvisible, hrest]

/-- A framed block is answered. -/
theorem Reading.answer_eq (R : Reading .kReady data) {f : Framing}
    (h : R.block.FramedAs R.rest f) : Camille.answer T data = some (R.answer f) := by
  have hs := Parser.rank_fresh
  cases f with
  | refused =>
      have hparse :
          ∃ q, ({} : Parser).parse T data = some (.returned (.error .kBadRequest), q) := by
        rcases h with hhost | ⟨hcl, hrest, hte⟩
        · exact ⟨_, parse_of_not_oneHost hs R hhost⟩
        · by_cases hhost : R.OneHost
          · obtain ⟨value, hcl⟩ := exists_value_of_length hcl
            exact parse_of_conflict hs R ⟨hhost, hcl⟩ hrest hte
          · exact ⟨_, parse_of_not_oneHost hs R hhost⟩
      obtain ⟨q, hq⟩ := hparse
      rw [Camille.answer, hq]
      rfl
  | awaited =>
      obtain ⟨hhost, hcl, hrest⟩ := h
      obtain ⟨value, hcl⟩ := exists_value_of_length hcl
      rw [Camille.answer, parse_of_awaited hs R ⟨hhost, hcl⟩ hrest]
      rfl
  | body n =>
      have hshows :
          ∃ f, R.Shows f ∧ f.visible = { R.shown.visible with body := R.rest.take n } := by
        obtain ⟨hhost, ⟨hcl, rfl⟩ | ⟨value, hcl, hte, hn, hrest, hle⟩⟩ := h
        · exact ⟨_, .inl ⟨⟨hhost, hcl⟩, rfl⟩, rfl⟩
        · exact ⟨_, .inr ⟨n, ⟨value, ⟨hhost, hcl⟩, hte, hn⟩, hrest, hle, rfl⟩, rfl⟩
      obtain ⟨f, hf, hvisible⟩ := hshows
      obtain ⟨d, q, hparse, rfl⟩ := hf.parse (T := T) (p := {}) hs
      rw [Camille.answer, hparse]
      exact congrArg (some ∘ Except.ok) hvisible

/-- Any other reading has no answer. -/
theorem Reading.framed_of_answer (R : Reading .kReady data) {a : Except Errors Visible}
    (h : Camille.answer T data = some a) : ∃ f, R.block.FramedAs R.rest f := by
  have hs := Parser.rank_fresh
  rcases R.cases with (⟨hhost, hcl⟩ | ⟨n, ⟨value, ⟨hhost, hcl⟩, hte, hn⟩, hrest, hle⟩) |
    ⟨n, hsized, hrest, hlt⟩ | ⟨value, hann, hte, hn, hrest⟩ | hhost | ⟨value, ⟨hhost, hcl⟩, hrest⟩ |
    ⟨value, ⟨hhost, hcl⟩, hrest, hte⟩
  · exact ⟨.body 0, hhost, .inl ⟨hcl, rfl⟩⟩
  · exact ⟨.body n, hhost, .inr ⟨value, hcl, hte, hn, hrest, hle⟩⟩
  · rw [Camille.answer, parse_of_short hs R hsized hrest hlt] at h
    cases h
  · rw [Camille.answer, parse_of_invalid hs R hann hrest hte hn] at h
    cases h
  · exact ⟨.refused, .inl hhost⟩
  · exact ⟨.awaited, hhost, by rw [hcl]; rfl, hrest⟩
  · exact ⟨.refused, .inr ⟨by rw [hcl]; rfl, hrest, hte⟩⟩

/-- Different framings are answered differently. -/
theorem Reading.framing_eq_of_answer (R : Reading .kReady data) {B B' : HeaderBlock}
    {f f' : Framing} (h : B.FramedAs R.rest f) (h' : B'.FramedAs R.rest f')
    (he : R.answer f = R.answer f') : f = f' := by
  have hle : ∀ {B : HeaderBlock} {n : ℕ}, B.FramedAs R.rest (.body n) → n ≤ R.rest.length := by
    rintro B n ⟨-, ⟨-, rfl⟩ | ⟨_, -, -, -, -, hle⟩⟩
    · exact Nat.zero_le _
    · exact hle
  cases f with
  | refused =>
      cases f' with
      | refused => rfl
      | awaited => cases he
      | body n => cases he
  | awaited =>
      cases f' with
      | refused => cases he
      | awaited => rfl
      | body n => cases he
  | body n =>
      cases f' with
      | refused => cases he
      | awaited => cases he
      | body n' =>
          have hbody : R.rest.take n = R.rest.take n' :=
            congrArg Visible.body (Except.ok.inj he)
          have hlen := congrArg List.length hbody
          rw [List.length_take, List.length_take, Nat.min_eq_left (hle h),
            Nat.min_eq_left (hle h')] at hlen
          rw [hlen]

end Answers

/-! ### When the spelling does not matter -/

section Recasing

variable {T : Type} [IsReqResType T]

namespace Recasing

variable (m : Recasing)

/-- The one spelling behind a start line, as a reading. -/
def reading (sl : StartLine) (hsl : sl.bytes = m.line ++ crlf) (hsplits : m.block.Splits) :
    Reading .kReady m.bytes where
  startLine := sl
  block := m.block
  rest := m.rest
  data_eq := by rw [bytes, ← hsl, sl.bytes_append]
  fits := .inl m.complete
  splits := hsplits

/-- Both blocks can be recorded, or neither. -/
theorem splits_iff : m.block.Splits ↔ m.block'.Splits :=
  Camille.splits_iff m.recased

/-- A block with a host header that has no colon is not answered. -/
theorem answer_eq_none (sl : StartLine) (hsl : sl.bytes = m.line ++ crlf)
    (hsplits : ¬ m.block.Splits) : answer T m.bytes = none := by
  have hbad : BadHost ({} : Parser).currentState m.bytes :=
    ⟨sl, _, by rw [bytes, ← hsl, sl.bytes_append], m.block.hostThrows hsplits (.inl m.complete)⟩
  obtain ⟨q, hq⟩ := parse_of_badHost (T := T) Parser.rank_fresh hbad
  rw [answer, hq]

/-- A first line that is no start line is answered with one error, whatever follows it. -/
theorem sameAnswer_of_line (hno : ¬ ∃ sl : StartLine, sl.bytes = m.line ++ crlf) :
    SameAnswer T m.bytes m.bytes' := by
  obtain ⟨e, herror⟩ := exists_error_of_line (T := T) m.line_end hno
  have hanswer : ∀ x, answer T (m.line ++ crlf ++ x) = some (.error e) := by
    intro x
    obtain ⟨q, hq⟩ := herror x
    rw [answer, hq]
  exact ⟨_, hanswer _, hanswer _⟩

end Recasing

/-- **When the spelling of header names does not matter**: in front of a first line that
is no start line, and where the blocks of both spellings can be recorded and their exact
names frame them alike. -/
theorem sameAnswer_iff (m : Recasing) :
    SameAnswer T m.bytes m.bytes' ↔
      (¬ ∃ sl : StartLine, sl.bytes = m.line ++ crlf) ∨
        (m.block.Splits ∧ ∃ f, m.block.FramedAs m.rest f ∧ m.block'.FramedAs m.rest f) := by
  by_cases hsl : ∃ sl : StartLine, sl.bytes = m.line ++ crlf
  swap
  · exact iff_of_true (m.sameAnswer_of_line hsl) (.inl hsl)
  obtain ⟨sl, hline⟩ := id hsl
  by_cases hsplits : m.block.Splits
  swap
  · refine iff_of_false ?_ (by simp [hsl, hsplits])
    rintro ⟨a, ha, -⟩
    rw [m.answer_eq_none sl hline hsplits] at ha
    cases ha
  let R := m.reading sl hline hsplits
  let R' := m.symm.reading sl hline (m.splits_iff.mp hsplits)
  have hcongr : ∀ f, R.answer f = R'.answer f := Reading.answer_congr rfl rfl m.recased
  constructor
  · rintro ⟨a, ha, ha'⟩
    obtain ⟨f, hf⟩ := R.framed_of_answer ha
    obtain ⟨f', hf'⟩ := R'.framed_of_answer ha'
    have he : R.answer f = R.answer f' := by
      have ha := (R.answer_eq hf).symm.trans ha
      have ha' := (R'.answer_eq hf').symm.trans ha'
      rw [hcongr f', Option.some.inj ha, Option.some.inj ha']
    obtain rfl := R.framing_eq_of_answer hf hf' he
    exact .inr ⟨hsplits, f, hf, hf'⟩
  · rintro (hno | ⟨-, f, hf, hf'⟩)
    · exact absurd hsl hno
    · exact ⟨R.answer f, R.answer_eq hf, (R'.answer_eq hf').trans (by rw [hcongr])⟩

end Recasing

/-! ### A length nobody reads -/

/-- `content-length: 2`. -/
def lowerLength : HeaderLine :=
  .of (ascii "content-length") (ascii "2") (by decide) (by decide) (by decide)

/-- A request with a body of two bytes, its `Content-Length` in upper and in lower case. -/
def recasedLength : Recasing where
  line := ascii "PUT / HTTP/1.1"
  block := ⟨.ofHost, [.ofLength (ascii "2") (by decide)], .emptyLine⟩
  block' := ⟨.ofHost, [lowerLength], .emptyLine⟩
  rest := ascii "hi"
  line_end := by decide
  complete := rfl
  complete' := rfl
  recased := .cons ⟨rfl, rfl, rfl⟩ (.cons ⟨by decide, rfl, by decide⟩ .nil)

/-- **The spelling of `Content-Length` decides whether there is a body.** -/
theorem recasedLength_not_sameAnswer :
    ¬ SameAnswer Request recasedLength.bytes recasedLength.bytes' := by
  have hbody : (answer Request recasedLength.bytes).map (Except.map Visible.body) =
      some (.ok (ascii "hi")) := by
    decide
  have hnone : (answer Request recasedLength.bytes').map (Except.map Visible.body) =
      some (.ok []) := by
    decide
  rintro ⟨a, ha, ha'⟩
  rw [ha] at hbody
  rw [ha'] at hnone
  cases hbody.symm.trans hnone

end Camille
