import Camille.Heads
import Camille.Termination

/-!
# Messages That Are Returned

What can be said of every message a call returns, whatever the state of the parser and
whatever the data. Only a parser at `kHeaders` or before returns one
(`exists_reading_of_parse`), and then the message is what a reading of the data records;
that the body begins behind the first empty line, and that no byte that could end a line
gets into a field, are facts about readings.

`Host()` and `Port()` are written by every header line whose name is `host` in any letter
case, but the `Host` header that must be there exactly once is looked up by its exact name.

## Main results

* `body_eq_of_parse`: a message with one `Content-Length` has the bytes behind the first
  empty line for its body.
* `clean_of_parse`: what bytes the fields of a message consist of.
* `hostChecked_iff`: when `Host()` and `Port()` come from the header that was checked.
-/

open Lib

namespace Camille

section Returned

variable {T : Type} [IsReqResType T] {p q : Parser} {data : Bytes} {d : T}

open IsReqResType

/-! ### Where a message comes from -/

/-- **A parser behind the headers is at an end**, or has lost its headers: it returns an
error and nothing else. -/
theorem parse_cases_of_behind (hrank : ¬ p.currentState.rank ≤ States.kHeaders.rank)
    (hdata : data ≠ []) :
    p.parse T data = none ∨ (∃ q, p.parse T data = some (.undefined, q)) ∨
      ∃ e q, p.parse T data = some (.returned (.error e), q) ∧ ¬ q.currentState.Running := by
  cases hs : p.currentState with
  | kBodyValidation => exact .inl (parse_of_bodyValidation hs hdata)
  | kBodyIdentify =>
      -- a message that was only just set up has no content length
      have hstep : step (p.start T data) =
          .inr (.undefined, { p with totalConsumed := data.length }) := by
        have hstate : (p.start T data).parser.currentState = .kBodyIdentify := hs
        refine (step_kBodyIdentify hstate hdata).trans ?_
        simp only [stepBodyIdentify, Parser.start, contentLength_eq, fields_fresh]
      exact .inr (.inl ⟨_, (Parser.parse_eq_some_iff hdata).mpr ((exits_iff_of_inr hstep).mpr rfl)⟩)
  | kBodyChunked =>
      have hstate : (p.start T data).parser.currentState = .kBodyChunked := hs
      have hstep : step (p.start T data) = _ := step_kBodyChunked hstate hdata
      exact .inr (.inr ⟨_, _, (Parser.parse_eq_some_iff hdata).mpr
        ((exits_iff_of_inl hstep).mpr (exits_fail _ _ _ _)), by simp [States.Running]⟩)
  | kComplete | kGarbage =>
      have hend : ¬ p.currentState.Running := by
        rw [hs]
        decide
      exact .inr (.inr ⟨_, _, parse_of_final hend hdata, hend⟩)
  | kReady | kMethod | kWaitUri | kUriStart | kUri | kWaitVersion | kVersion | kHeadersWait
  | kHeaders =>
      rw [hs] at hrank
      exact absurd (by decide) hrank

/-- A parser behind the headers returns no message. -/
theorem rank_le_of_parse (h : p.parse T data = some (.returned (.ok d), q)) :
    p.currentState.rank ≤ States.kHeaders.rank := by
  by_contra hrank
  by_cases hdata : data = []
  · rw [hdata, Parser.parse_nil] at h
    cases h
  rcases parse_cases_of_behind (T := T) hrank hdata with hp | ⟨q', hp⟩ | ⟨e, q', hp, -⟩ <;>
    cases hp.symm.trans h

/-- What reading a start line from the given state on shows in a message. -/
theorem StartLine.fields_record (sl : StartLine) {s : States}
    (hs : s.rank ≤ States.kHeaders.rank) :
    fields (sl.record (fresh : T) s) =
      { method := if s.rank ≤ States.kMethod.rank then sl.method else []
        path := if s.rank ≤ States.kUri.rank then sl.path else []
        version := if s.rank ≤ States.kVersion.rank then sl.version else [] } := by
  cases s with
  | kBodyValidation | kBodyIdentify | kBodyChunked | kComplete | kGarbage =>
      exact absurd hs (by decide)
  | _ => simp [StartLine.record, StartLine.recordTarget, States.rank]

/-- What a message without a body shows, read as the reading has it. -/
def Reading.shown {s : States} (R : Reading s data) : Fields where
  host := (hostLine R.block.lines).elim [] HeaderLine.hostPart
  port := (hostLine R.block.lines).elim [] HeaderLine.portPart
  method := if s.rank ≤ States.kMethod.rank then R.startLine.method else []
  path := if s.rank ≤ States.kUri.rank then R.startLine.path else []
  version := if s.rank ≤ States.kVersion.rank then R.startLine.version else []
  headers := R.block.fields
  size := data.length

/-- The message of a reading shows its fields, before its size is set. -/
theorem Reading.fields_message {s : States} (R : Reading s data)
    (hs : s.rank ≤ States.kHeaders.rank) :
    fields (R.message : T) = { R.shown with size := 0 } := by
  rw [Reading.message, fields_recordLines, R.startLine.fields_record hs]
  rfl

/-- The reading is answered with a message. -/
def Reading.Accepted {s : States} (R : Reading s data) : Prop :=
  R.NoBody ∨ ∃ n, R.Sized n ∧ R.rest ≠ [] ∧ n ≤ R.rest.length

/-- The reading is answered with a message that shows these fields. -/
def Reading.Shows {s : States} (R : Reading s data) (f : Fields) : Prop :=
  (R.NoBody ∧ f = R.shown) ∨
    ∃ n, R.Sized n ∧ R.rest ≠ [] ∧ n ≤ R.rest.length ∧
      f = { R.shown with contentLength := some n, body := R.rest.take n }

/-- A reading that is accepted shows a message. -/
theorem Reading.Accepted.exists_shows {s : States} {R : Reading s data} (h : R.Accepted) :
    ∃ f, R.Shows f := by
  rcases h with hno | ⟨n, hsized, hrest, hle⟩
  · exact ⟨_, .inl ⟨hno, rfl⟩⟩
  · exact ⟨_, .inr ⟨n, hsized, hrest, hle, rfl⟩⟩

/-- Only a reading that is accepted does. -/
theorem Reading.Shows.accepted {s : States} {R : Reading s data} {f : Fields}
    (h : R.Shows f) : R.Accepted := by
  rcases h with ⟨hno, -⟩ | ⟨n, hsized, hrest, hle, -⟩
  · exact .inl hno
  · exact .inr ⟨n, hsized, hrest, hle⟩

/-- A message is returned on data that is read so. -/
theorem Reading.Shows.parse {R : Reading p.currentState data} {f : Fields} (h : R.Shows f)
    (hs : p.currentState.rank ≤ States.kHeaders.rank) :
    ∃ (d : T) (q : Parser), p.parse T data = some (.returned (.ok d), q) ∧ fields d = f := by
  have hmessage := R.fields_message (T := T) hs
  rcases h with ⟨hno, rfl⟩ | ⟨n, hsized, hrest, hle, rfl⟩
  · exact ⟨_, _, parse_of_noBody hs R hno, by simp [hmessage, Reading.shown]⟩
  · exact ⟨_, _, parse_of_sized hs R hsized hrest hle, by simp [hmessage, Reading.shown]⟩

/-- **Every message is what a reading of the data records**, with the body that its
content length announces. -/
theorem exists_reading_of_parse (h : p.parse T data = some (.returned (.ok d), q)) :
    ∃ R : Reading p.currentState data, R.Shows (fields d) := by
  have hs := rank_le_of_parse h
  obtain ⟨R, hR⟩ := (verdict_message_iff hs data).mp (verdict_eq_message_iff.mpr ⟨d, q, h⟩)
  have hR : R.Accepted := hR
  obtain ⟨f, hf⟩ := hR.exists_shows
  obtain ⟨d', q', hparse, rfl⟩ := hf.parse (T := T) hs
  obtain ⟨rfl, -⟩ : d' = d ∧ q' = q := by simpa [hparse] using h
  exact ⟨R, hf⟩

/-! ### Where the body comes from -/

/-- A length that is decoded is within the limit. -/
theorem validateContentLength_le {value : Bytes} {n : ℕ}
    (h : validateContentLength value = some n) : n ≤ kBodyLimit := by
  rw [validateContentLength] at h
  split at h
  · cases h
  · split at h
    · cases h
    · split at h
      · cases h
      · rename_i hle
        obtain rfl := Option.some.inj h
        exact not_lt.mp hle

/-- What is left of the data behind a header block that an empty line ends. -/
theorem Reading.drop_eq {s : States} (R : Reading s data) :
    data.drop (data.length - R.rest.length) = R.rest := by
  have hdrop : ∀ x y : Bytes, data = x ++ y → data.drop (data.length - y.length) = y := by
    rintro x y rfl
    rw [List.length_append, Nat.add_sub_cancel, List.drop_left]
  exact hdrop _ _ (R.data_eq.trans (R.startLine.ahead_append _ _ s).symm)

/-- **The body is framed by the content length.** A message with exactly one
`Content-Length` header has a length within the limit on record, and as many bytes from
behind the first empty line of the data for its body. -/
theorem body_eq_of_parse (h : p.parse T data = some (.returned (.ok d), q))
    (hcl : (valuesOf (fields d).headers kContentLength).length = 1) :
    ∃ k n, firstEnd crlfcrlf data = some k ∧ contentLength d = some n ∧ n ≤ kBodyLimit ∧
      k + n ≤ data.length ∧ (fields d).body = (data.drop k).take n := by
  obtain ⟨R, ⟨⟨-, hno⟩, hd⟩ | ⟨n, ⟨value, -, -, hn⟩, hrest, hle, hd⟩⟩ :=
    exists_reading_of_parse h
  · rw [hd] at hcl
    exact absurd hcl hno
  · have he : R.block.ending = .emptyLine := R.fits.resolve_right hrest
    refine ⟨data.length - R.rest.length, n, ?_, ?_, validateContentLength_le hn, ?_, ?_⟩
    · rw [R.firstEnd_eq, if_pos he]
    · rw [contentLength_eq, hd]
    · have hlen := congrArg List.length R.drop_eq
      rw [List.length_drop] at hlen
      omega
    · rw [hd, R.drop_eq]

end Returned

/-- A message with a body of five bytes, and more data behind it. -/
def framedMessage : Bytes :=
  ascii "PUT /a HTTP/1.1\r\nHost: a:1\r\nContent-Length: 5\r\n\r\n\r\n\r\n!?"

/-- What a parser makes of it. -/
def framedRequest : Request where
  host := ascii "a"
  port := ascii "1"
  path := ascii "/a"
  body := ascii "\r\n\r\n!"
  method := ascii "PUT"
  version := ascii "1.1"
  contentLength := some 5
  headers := [(kHost, ascii "a:1"), (kContentLength, ascii "5")]
  requestSize := framedMessage.length

/-- A request with one byte of body, parsed. -/
theorem parse_framedMessage :
    ({} : Parser).parse Request framedMessage = some (.returned (.ok framedRequest),
      { used := true, totalConsumed := framedMessage.length, currentState := .kComplete }) := by
  decide

/-- `body_eq_of_parse` on it. -/
theorem framedRequest_body :
    ∃ k n, firstEnd crlfcrlf framedMessage = some k ∧
      IsReqResType.contentLength framedRequest = some n ∧ n ≤ kBodyLimit ∧
      k + n ≤ framedMessage.length ∧
      (IsReqResType.fields framedRequest).body = (framedMessage.drop k).take n :=
  body_eq_of_parse parse_framedMessage (by decide)

/-! ### What the fields consist of -/

/-- The symbols of a token, beside letters and digits. -/
def tokenSymbols : List Char :=
  ['!', '#', '$', '%', '&', '\'', '*', '+', '-', '.', '^', '_', '\x60', '|', '~']

/-- A token character: a letter, a digit or one of the symbols. -/
def isTokenByte (b : UInt8) : Bool :=
  (0x30 ≤ b && b ≤ 0x39) || (0x41 ≤ b && b ≤ 0x5A) || (0x61 ≤ b && b ≤ 0x7A) ||
    (tokenSymbols.map Char.toUInt8).contains b

/-- A byte of a line of text: a horizontal tab, or `0x20..0x7E`. -/
def isTextByte (b : UInt8) : Bool :=
  b == 0x09 || (0x20 ≤ b && b ≤ 0x7E)

/-- A hexadecimal digit, in either case. -/
def isHexByte (b : UInt8) : Bool :=
  (0x30 ≤ b && b ≤ 0x39) || (0x41 ≤ b && b ≤ 0x46) || (0x61 ≤ b && b ≤ 0x66)

/-- The digits of an escape are hexadecimal by any account. -/
theorem isHexByte_of_isHexDigit : ∀ {b : UInt8}, isHexDigit b = true → isHexByte b = true := by
  decide +kernel

/-- The fields of a message consist of the bytes they may consist of. -/
structure Clean (f : Fields) : Prop where
  key_ne_nil : ∀ h ∈ f.headers, h.1 ≠ []
  key_token : ∀ h ∈ f.headers, ∀ b ∈ h.1, isTokenByte b = true
  value_text : ∀ h ∈ f.headers, ∀ b ∈ h.2, isTextByte b = true
  value_trimmed : ∀ h ∈ f.headers, ∀ b ∈ h.2.getLast?, b ≠ 0x20 ∧ b ≠ 0x09
  host_text : ∀ b ∈ f.host, isTextByte b = true
  port_text : ∀ b ∈ f.port, isTextByte b = true
  path_visible : ∀ b ∈ f.path, 0x21 ≤ b ∧ b ≤ 0x7E
  path_escapes : ∀ t, 0x25 :: t <:+ f.path →
    ∃ h₁ h₂ t', t = h₁ :: h₂ :: t' ∧ isHexByte h₁ = true ∧ isHexByte h₂ = true
  version_digits : ∀ b ∈ f.version, (0x30 ≤ b ∧ b ≤ 0x39) ∨ b = 0x2E
  method_upper : ∀ b ∈ f.method, 0x41 ≤ b ∧ b ≤ 0x5A

/-- **Nothing but text** gets into a field beside the body: in particular no carriage
return, line feed, NUL or byte from 128 on. -/
theorem Clean.text {f : Fields} (hf : Clean f) {b : UInt8}
    (hb : b ∈ f.method ++ f.path ++ f.version ++ f.host ++ f.port ++
      f.headers.flatMap fun h => h.1 ++ h.2) : isTextByte b = true := by
  have hvisible : ∀ b : UInt8, 0x21 ≤ b ∧ b ≤ 0x7E → isTextByte b = true := by decide +kernel
  have htoken : ∀ b : UInt8, isTokenByte b = true → isTextByte b = true := by decide +kernel
  have hupper : ∀ b : UInt8, 0x41 ≤ b ∧ b ≤ 0x5A → isTextByte b = true := by decide +kernel
  have hdigit : ∀ b : UInt8, (0x30 ≤ b ∧ b ≤ 0x39) ∨ b = 0x2E → isTextByte b = true := by
    decide +kernel
  simp only [List.mem_append, List.mem_flatMap] at hb
  rcases hb with ((((hb | hb) | hb) | hb) | hb) | ⟨h, hh, hb | hb⟩
  · exact hupper b (hf.method_upper b hb)
  · exact hvisible b (hf.path_visible b hb)
  · exact hdigit b (hf.version_digits b hb)
  · exact hf.host_text b hb
  · exact hf.port_text b hb
  · exact htoken b (hf.key_token h hh b hb)
  · exact hf.value_text h hh b hb

/-- Every `%` of a path tail stands in front of two hexadecimal digits. -/
theorem PathTail.escapes {path : Bytes} (hpath : PathTail path) {t : Bytes}
    (ht : 0x25 :: t <:+ path) :
    ∃ h₁ h₂ t', t = h₁ :: h₂ :: t' ∧ isHexByte h₁ = true ∧ isHexByte h₂ = true := by
  have hpercent : ¬ isHexDigit 0x25 = true := by decide
  induction hpath with
  | nil => simp at ht
  | plain _ hb _ ih =>
      rcases List.suffix_cons_iff.mp ht with he | ht
      · exact absurd (List.cons.inj he).1.symm hb
      · exact ih ht
  | escape hh₁ hh₂ _ ih =>
      rcases List.suffix_cons_iff.mp ht with he | ht
      · exact ⟨_, _, _, (List.cons.inj he).2, isHexByte_of_isHexDigit hh₁,
          isHexByte_of_isHexDigit hh₂⟩
      · rcases List.suffix_cons_iff.mp ht with he | ht
        · exact absurd hh₁ ((List.cons.inj he).1 ▸ hpercent)
        · rcases List.suffix_cons_iff.mp ht with he | ht
          · exact absurd hh₂ ((List.cons.inj he).1 ▸ hpercent)
          · exact ih ht

/-- Behind a percent sign there are two hexadecimal digits. -/
theorem IsPath.escapes {path : Bytes} (hpath : IsPath path) {t : Bytes}
    (ht : 0x25 :: t <:+ path) :
    ∃ h₁ h₂ t', t = h₁ :: h₂ :: t' ∧ isHexByte h₁ = true ∧ isHexByte h₂ = true := by
  obtain ⟨u, rfl, hu⟩ := hpath
  rcases List.suffix_cons_iff.mp ht with he | ht
  · exact absurd (List.cons.inj he).1 (by decide)
  · exact hu.escapes ht

/-- A method consists of capital letters. -/
theorem StartLine.method_upper (sl : StartLine) : ∀ b ∈ sl.method, 0x41 ≤ b ∧ b ≤ 0x5A := by
  have hall : methodNames.all (fun m => m.all fun b => 0x41 ≤ b && b ≤ 0x5A) = true := by
    decide
  intro b hb
  simpa using List.all_eq_true.mp
    (List.all_eq_true.mp hall _ (mem_methodNames sl.method_known)) b hb

/-- A version consists of digits and dots. -/
theorem StartLine.version_digits (sl : StartLine) :
    ∀ b ∈ sl.version, (0x30 ≤ b ∧ b ≤ 0x39) ∨ b = 0x2E := by
  have hall : ∀ b : UInt8, isVersionByte b = true → (0x30 ≤ b ∧ b ≤ 0x39) ∨ b = 0x2E := by
    decide +kernel
  exact fun b hb => hall b (sl.version_valid b hb)

/-- What a header line puts on record is clean. -/
theorem HeaderLine.field_clean (h : HeaderLine) :
    h.field.1 ≠ [] ∧ (∀ b ∈ h.field.1, isTokenByte b = true) ∧
      (∀ b ∈ h.field.2, isTextByte b = true) ∧ ∀ b ∈ h.field.2.getLast?, b ≠ 0x20 ∧ b ≠ 0x09 := by
  refine ⟨h.key_ne_nil, ?_, ?_, ?_⟩
  · intro b hb
    exact ParserTraits.of_isValid (p := isTokenByte) (by decide) (h.key_valid b hb)
  · intro b hb
    have hmem : b ∈ h.raw := (List.rdropWhile_prefix isSpace h.raw).subset hb
    exact ParserTraits.of_isValid (p := isTextByte) (by decide) (h.raw_valid b hmem)
  · intro b hb
    obtain ⟨hne, rfl⟩ := List.mem_getLast?_eq_getLast hb
    have hlast := List.rdropWhile_last_not isSpace h.raw hne
    refine ⟨fun he => hlast ?_, fun he => hlast ?_⟩
    · change isSpace (h.value.getLast hne) = true
      exact (congrArg isSpace he).trans (by decide)
    · change isSpace (h.value.getLast hne) = true
      exact (congrArg isSpace he).trans (by decide)

section Clean

variable {T : Type} [IsReqResType T] {p q : Parser} {data : Bytes} {d : T}

open IsReqResType

/-- What a reading records is clean. -/
theorem Reading.clean_shown {s : States} (R : Reading s data) : Clean R.shown := by
  have hheader : ∀ f ∈ R.block.fields, ∃ h : HeaderLine, h.field = f := by
    intro f hf
    obtain ⟨h, -, he⟩ := List.mem_map.mp hf
    exact ⟨h, he⟩
  -- host and port are parts of the value of some header
  have hpart : ∀ (part : HeaderLine → Bytes), (∀ h, part h <:+: h.value) →
      ∀ b ∈ (hostLine R.block.lines).elim [] part, isTextByte b = true := by
    intro part hpart b hb
    cases hl : hostLine R.block.lines with
    | none => simp [hl] at hb
    | some h =>
        rw [hl] at hb
        exact h.field_clean.2.2.1 b ((hpart h).subset hb)
  -- what was read before this call is not in the message
  have hpresent : ∀ {c : Prop} [Decidable c] {t : Bytes} {P : UInt8 → Prop},
      (∀ b ∈ t, P b) → ∀ b ∈ (if c then t else []), P b := by
    intro c _ t P ht b hb
    split at hb
    · exact ht b hb
    · cases hb
  exact {
    key_ne_nil := fun f hf => by
      obtain ⟨h, rfl⟩ := hheader f hf
      exact h.field_clean.1
    key_token := fun f hf => by
      obtain ⟨h, rfl⟩ := hheader f hf
      exact h.field_clean.2.1
    value_text := fun f hf => by
      obtain ⟨h, rfl⟩ := hheader f hf
      exact h.field_clean.2.2.1
    value_trimmed := fun f hf => by
      obtain ⟨h, rfl⟩ := hheader f hf
      exact h.field_clean.2.2.2
    host_text := hpart _ fun h => (List.takeWhile_prefix _).isInfix
    port_text := hpart _ fun h =>
      (List.tail_suffix _).isInfix.trans (List.dropWhile_suffix _).isInfix
    path_visible := hpresent R.startLine.path_valid.visible
    path_escapes := fun t ht => by
      simp only [Reading.shown] at ht
      split at ht
      · exact R.startLine.path_valid.escapes ht
      · simp at ht
    version_digits := hpresent R.startLine.version_digits
    method_upper := hpresent R.startLine.method_upper }

/-- **Nothing is injected into a field.** Every message a call returns is clean. -/
theorem clean_of_parse (h : p.parse T data = some (.returned (.ok d), q)) :
    Clean (fields d) := by
  obtain ⟨R, ⟨-, hd⟩ | ⟨n, -, -, -, hd⟩⟩ := exists_reading_of_parse h
  · rw [hd]
    exact R.clean_shown
  · have hclean := R.clean_shown
    rw [hd]
    exact { hclean with }

end Clean

/-- `clean_of_parse` on a message whose body is nothing but line ends. -/
theorem framedRequest_clean : Clean (IsReqResType.fields framedRequest) :=
  clean_of_parse parse_framedMessage

/-! ### Where host and port come from -/

/-- In every message that a fresh parser returns on the data, exactly one header is named
`Host`, and host and port are the two sides of the first colon of its value. -/
def HostChecked (T : Type) [IsReqResType T] (data : Bytes) : Prop :=
  ∀ (d : T) (q : Parser), ({} : Parser).parse T data = some (.returned (.ok d), q) →
    ∃ value, valuesOf (IsReqResType.fields d).headers kHost = [value] ∧
      value = (IsReqResType.fields d).host ++ ':'.toUInt8 :: (IsReqResType.fields d).port ∧
      ':'.toUInt8 ∉ (IsReqResType.fields d).host

/-- The line that decides host and port is one of the lines, and has a host key. -/
theorem mem_of_hostLine {hs : List HeaderLine} {h : HeaderLine} (hh : hostLine hs = some h) :
    h ∈ hs ∧ isHostKey h.key = true :=
  List.mem_filter.mp (List.mem_of_getLast? hh)

/-- With a `Host` header, there is such a line. -/
theorem exists_hostLine_of_values {B : HeaderBlock} {value : Bytes}
    (h : B.values kHost = [value]) : ∃ l, hostLine B.lines = some l := by
  have hmem : value ∈ valuesOf B.fields kHost := by
    have hvalues : valuesOf B.fields kHost = [value] := h
    rw [hvalues]
    exact List.mem_singleton_self value
  obtain ⟨f, hf, -⟩ := List.mem_map.mp hmem
  obtain ⟨hfield, hkey⟩ := List.mem_filter.mp hf
  obtain ⟨l, hl, rfl⟩ := List.mem_map.mp hfield
  have hkey : kHost = l.key := of_decide_eq_true hkey
  have hhost : l ∈ B.lines.filter fun h => isHostKey h.key :=
    List.mem_filter.mpr ⟨hl, by rw [← hkey]; decide⟩
  rw [hostLine, List.getLast?_eq_some_getLast (List.ne_nil_of_mem hhost)]
  exact ⟨_, rfl⟩

section Host

variable {T : Type} [IsReqResType T] {data : Bytes}

open IsReqResType

/-- What decides host and port in a message. -/
theorem Reading.Shows.host {s : States} {R : Reading s data} {f : Fields} (h : R.Shows f) :
    ∃ l, hostLine R.block.lines = some l ∧ l.value = f.host ++ ':'.toUInt8 :: f.port ∧
      ':'.toUInt8 ∉ f.host ∧ ∃ value, R.block.values kHost = [value] ∧
        valuesOf f.headers kHost = [value] := by
  have hone : R.OneHost := by
    rcases h with ⟨hno, -⟩ | ⟨n, ⟨value, hann, -⟩, -⟩
    · exact hno.1
    · exact hann.1
  obtain ⟨value, hvalue⟩ := exists_value_of_length hone
  obtain ⟨l, hl⟩ := exists_hostLine_of_values hvalue
  obtain ⟨hmem, hkey⟩ := mem_of_hostLine hl
  have hsplit := l.value_eq_of_splits (R.splits l hmem) hkey
  refine ⟨l, hl, ?_⟩
  rcases h with ⟨-, rfl⟩ | ⟨n, -, -, -, rfl⟩ <;>
    exact ⟨by simpa [Reading.shown, hl] using hsplit.1, by simpa [Reading.shown, hl] using hsplit.2,
      value, hvalue, hvalue⟩

/-- **When host and port come from the header that was checked**: exactly when, however the
data is taken apart and accepted, the last header whose name is `host` in any letter case
has the value of the one named `Host`. -/
theorem hostChecked_iff (data : Bytes) :
    HostChecked T data ↔
      ∀ R : Reading .kReady data, R.Accepted →
        ∀ h, hostLine R.block.lines = some h → R.block.values kHost = [h.value] := by
  constructor
  · intro hchecked R hR h hh
    obtain ⟨f, hf⟩ := hR.exists_shows
    obtain ⟨d, q, hparse, rfl⟩ := Reading.Shows.parse (T := T) (p := {}) hf Parser.rank_fresh
    obtain ⟨l, hl, hvalue, -, value, hone, hheaders⟩ := hf.host
    obtain ⟨value', hvalue', hsplit, -⟩ := hchecked d q hparse
    obtain rfl : l = h := Option.some.inj (hl.symm.trans hh)
    obtain rfl : value = value' := by simpa using hheaders.symm.trans hvalue'
    rw [hone, hvalue, ← hsplit]
  · intro hlast d q hparse
    obtain ⟨R, hR⟩ := exists_reading_of_parse hparse
    obtain ⟨l, hl, hvalue, hcolon, value, hone, hheaders⟩ := hR.host
    have hsame := hlast R hR.accepted l hl
    exact ⟨l.value, by rw [hheaders, ← hone, hsame], hvalue, hcolon⟩

end Host

/-- Two names for one header, and two hosts. -/
def twoHosts : Bytes :=
  ascii "GET / HTTP/1.1\r\nHost: a:1\r\nhost: b:2\r\n\r\n"

/-- **Host and port are not those of the header that was checked.** -/
theorem twoHosts_not_hostChecked : ¬ HostChecked Request twoHosts := by
  intro h
  have hparse : ({} : Parser).parse Request twoHosts = some (.returned (.ok
      { host := ascii "b", port := ascii "2", path := ascii "/", method := ascii "GET",
        version := ascii "1.1", headers := [(kHost, ascii "a:1"), (ascii "host", ascii "b:2")],
        requestSize := twoHosts.length }),
      { used := true, totalConsumed := twoHosts.length, currentState := .kComplete }) := by
    decide
  obtain ⟨value, hvalue, hsplit, -⟩ := h _ _ hparse
  obtain rfl : ascii "a:1" = value := List.singleton_inj.mp hvalue
  exact absurd hsplit (by decide)

end Camille
