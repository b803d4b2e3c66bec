import Camille.Heads
import Camille.RoundTrip

/-!
# The Language of Heads

What the server hands to the parser ends with its first empty line. On such data the four
token functions that read a head succeed, one after the other, exactly when the data is a
word of the grammar (`headBytes`): every byte that does not fit is caught by the function
that meets it or by the state behind it, and no word is turned down.

A host header without a colon makes `ParseHost` throw. The statement leaves it out by a
condition on the lines of the data (`headerFields`), which does not ask for the data to be
well formed.

## Main results

* `succeeds_unique`: a token function is called in its state at most once.
* `splits_of_headerFields`: the condition on the lines of the data, for its header block.
* `heads_iff`: the four functions succeed exactly on the words of the grammar.
-/

open Lib

namespace Camille

/-! ### Calls of the token functions -/

section Succeeds

variable {T : Type} [IsReqResType T] {data : Bytes}

open IsReqResType

/-- The token function a state calls, as far as it succeeds. -/
def States.call (s : States) (pos : Bytes) (dtype : T) : Option (Bytes × T) :=
  match s with
  | .kMethod => parseMethod pos dtype
  | .kUri => (parseUri pos dtype).success
  | .kVersion => (parseVersion pos dtype).success
  | .kHeaders => (parseHeaders pos dtype).success
  | _ => none

/-- The states that call a token function, in order. -/
def callingStates : List States :=
  [.kMethod, .kUri, .kVersion, .kHeaders]

/-- A fresh parser gets to the state on its way over the data, with data left, and the
token function it calls there succeeds, leaving this cursor and this message. -/
def Succeeds (T : Type) [IsReqResType T] (data : Bytes) (s : States) (pos : Bytes) (dtype : T) :
    Prop :=
  ∃ l : Loop T, Reaches step (({} : Parser).start T data) l ∧ l.parser.currentState = s ∧
    l.pos ≠ [] ∧ s.call l.pos l.dtype = some (pos, dtype)

/-- The loop is in every state at most once. -/
theorem eq_of_state {l l₁ l₂ : Loop T} (h₁ : Reaches step l l₁)
    (h₂ : Reaches step l l₂) (hs : l₁.parser.currentState = l₂.parser.currentState) :
    l₁ = l₂ := by
  have hrank : l₁.rank = l₂.rank := congrArg States.rank hs
  rcases h₁.total h₂ with h | h
  · rcases h.climbs Loop.rank step_climbs with he | hlt
    · exact he.symm
    · exact absurd hlt (by omega)
  · rcases h.climbs Loop.rank step_climbs with he | hlt
    · exact he
    · exact absurd hlt (by omega)

/-- **A token function is called in its state at most once.** -/
theorem succeeds_unique {s : States} {pos₁ pos₂ : Bytes} {d₁ d₂ : T}
    (h₁ : Succeeds T data s pos₁ d₁) (h₂ : Succeeds T data s pos₂ d₂) :
    pos₁ = pos₂ ∧ d₁ = d₂ := by
  obtain ⟨l₁, hreach₁, hs₁, -, hcall₁⟩ := h₁
  obtain ⟨l₂, hreach₂, hs₂, -, hcall₂⟩ := h₂
  obtain rfl := eq_of_state hreach₁ hreach₂ (hs₁.trans hs₂.symm)
  exact Prod.mk.inj (Option.some.inj (hcall₁.symm.trans hcall₂))

/-- A token that is there is read with success. -/
theorem exists_call_of_token {s s' : States} {pos pos' : Bytes} (h : Token s pos s' pos')
    (hs : s ∈ callingStates) (d : T) : ∃ d', s.call pos d = some (pos', d') := by
  cases h with
  | @method m _ hm hr =>
      exact ⟨setMethod d m, parseMethod_eq_some_iff.mpr ⟨m, rfl, hm, hr, rfl⟩⟩
  | @path path _ hpath hr =>
      exact ⟨setPath d path, by
        rw [States.call, parseUri_eq_some_iff.mpr ⟨path, rfl, hpath, hr, rfl⟩]; rfl⟩
  | @version v _ hv =>
      exact ⟨setVersion d v, by
        rw [States.call, parseVersion_eq_some_iff.mpr ⟨v, rfl, hv, rfl⟩]; rfl⟩
  | ready | space₁ | slash | space₂ | lineFeed => exact absurd hs (by decide)

/-- A token on the way is read with success. -/
theorem succeeds_of_token {s s' : States} {pos pos' : Bytes}
    (hchain : Leads (.kReady, data) (s, pos)) (htok : Token s pos s' pos')
    (hs : s ∈ callingStates) : ∃ (pos : Bytes) (d : T), Succeeds T data s pos d := by
  obtain ⟨p', d', hreach, hs', -⟩ := reaches_of_leads
    (p := { ({} : Parser) with totalConsumed := data.length }) hchain (fresh : T)
  obtain ⟨d'', hcall⟩ := exists_call_of_token htok hs d'
  exact ⟨pos', d'', _, hreach, hs', htok.pos_ne_nil, hcall⟩

/-- **The calls before the headers** succeed on data that begins with a start line. -/
theorem succeeds_of_startLine (sl : StartLine) (rest : Bytes) {s : States}
    (hs : s ∈ [.kMethod, .kUri, .kVersion]) :
    ∃ (pos : Bytes) (d : T), Succeeds T (sl.ahead rest .kReady) s pos d := by
  have hcalling : s ∈ callingStates := by
    simp only [callingStates, List.mem_cons, List.not_mem_nil, or_false] at hs ⊢
    tauto
  by_cases hversion : s = .kVersion
  · subst hversion
    exact succeeds_of_token (leads_target sl _ (by decide) le_rfl)
      (.version (r := 0x0A :: rest) sl.version_valid) hcalling
  · have hlt : s.rank < States.kVersion.rank := by
      simp only [List.mem_cons, List.not_mem_nil, or_false] at hs
      rcases hs with rfl | rfl | rfl
      · decide
      · decide
      · exact absurd rfl hversion
    have hle := hlt.le
    obtain ⟨s', htok⟩ :=
      exists_token_target sl (ascii "HTTP/" ++ (sl.version ++ 0x0D :: 0x0A :: rest)) hlt
    exact succeeds_of_token (leads_target sl _ (Nat.zero_le _) hle) htok hcalling

/-- **The call of `ParseHeaders`** on a start line and a header block. -/
theorem succeeds_kHeaders (sl : StartLine) {B : HeaderBlock} (hB : B.Splits) {rest : Bytes}
    (hfits : B.Fits rest) :
    Succeeds T (sl.ahead (B.bytes ++ rest) .kReady) .kHeaders rest
      (recordLines B.lines (sl.record fresh .kReady)) := by
  have hcall : States.kHeaders.call (B.bytes ++ rest) (sl.record (fresh : T) .kReady) =
      some (rest, recordLines B.lines (sl.record fresh .kReady)) := by
    rw [States.call, parseHeaders_block hB hfits]
    rfl
  exact ⟨_, reaches_startLine (p := { totalConsumed := _ }) (Nat.zero_le _) sl
    (B.bytes ++ rest), rfl, B.bytes_append_ne_nil rest, hcall⟩

/-- Where `ParseHeaders` succeeds there is a reading of the data. -/
theorem exists_reading_of_succeeds {pos : Bytes} {d : T} (h : Succeeds T data .kHeaders pos d) :
    Nonempty (Reading .kReady data) := by
  obtain ⟨l, hreach, hs, hpos, hcall⟩ := h
  have hchain := leads_of_reaches hreach (le_of_eq (by rw [Loop.rank, hs]))
  rw [hs] at hchain
  obtain ⟨sl, hsl⟩ := (leads_kHeaders_iff (Nat.zero_le _)).mp hchain
  rcases headers_cases (T := T) l.pos hpos with
    ⟨B, rest, hbytes, hfits, hB⟩ | hthrows | hrefused
  · exact ⟨⟨sl, B, rest, hbytes ▸ hsl, hfits, hB⟩⟩
  · rw [States.call, parseHeaders_hostThrows hthrows] at hcall
    cases hcall
  · rw [States.call, hrefused] at hcall
    cases hcall

end Succeeds

/-! ### The grammar -/

/-- A word of the grammar: method, white space, path, white space, `HTTP/`, version and
line end, then header lines with a line end each, then the empty line. -/
def headBytes (sl : StartLine) (hs : List HeaderLine) : Bytes :=
  sl.method ++ [sl.ws₁] ++ sl.path ++ [sl.ws₂] ++ ascii "HTTP/" ++ sl.version ++ crlf ++
    hs.flatMap (fun h => h.key ++ [':'.toUInt8] ++ [h.ws] ++ h.raw ++ crlf) ++ crlf

/-- A head with headers is a start line and a block. -/
theorem headBytes_eq (sl : StartLine) (h : HeaderLine) (hs : List HeaderLine) :
    headBytes sl (h :: hs) = sl.bytes ++ (⟨h, hs, .emptyLine⟩ : HeaderBlock).bytes := by
  have hlines := Message.joinLines_append_crlf h hs
  have hbytes : (⟨h, hs, .emptyLine⟩ : HeaderBlock).bytes =
      ((h :: hs).flatMap fun h => h.bytes ++ crlf) ++ crlf := by
    rw [← hlines]
    simp [HeaderBlock.bytes, Ending.bytes, crlfcrlf]
  rw [hbytes, headBytes, sl.bytes_eq]
  simp [StartLine.line, StartLine.target, HeaderLine.bytes]

/-- The headers of arbitrary data: in every line between the first line end and the empty
line that has a colon, what stands before the first one and behind it. -/
def headerFields (data : Bytes) : CamilleHeaders :=
  ((headLines data).filter fun line => ':'.toUInt8 ∈ line).map fun line =>
    (line.takeWhile (fun b => b != ':'.toUInt8),
      (line.dropWhile fun b => b != ':'.toUInt8).tail)

/-- Only white space is cut off the value of a line. -/
theorem HeaderLine.mem_value_of_mem_raw {h : HeaderLine} {b : UInt8} (hb : b ∈ h.raw)
    (hspace : isSpace b = false) : b ∈ h.value := by
  have hsplit := List.takeWhile_append_dropWhile (p := isSpace) (l := h.raw.reverse)
  have hmem : b ∈ h.raw.reverse.takeWhile isSpace ++ h.raw.reverse.dropWhile isSpace := by
    rw [hsplit]
    exact List.mem_reverse.mpr hb
  rcases List.mem_append.mp hmem with htake | hdrop
  · have hspace' := List.mem_takeWhile_imp htake
    rw [hspace] at hspace'
    cases hspace'
  · exact List.mem_reverse.mpr hdrop

/-- The field a header line shows in arbitrary data. -/
theorem HeaderLine.mem_headerFields {data : Bytes} {h : HeaderLine}
    (hh : h.bytes ∈ headLines data) : (h.key, h.ws :: h.raw) ∈ headerFields data := by
  have hdrop : h.bytes.dropWhile (fun b => b != ':'.toUInt8) =
      ':'.toUInt8 :: h.ws :: h.raw := by
    have hsplit := List.takeWhile_append_dropWhile
      (p := fun b => b != ':'.toUInt8) (l := h.bytes)
    rw [h.takeWhile_bytes] at hsplit
    exact List.append_cancel_left hsplit
  refine List.mem_map.mpr ⟨h.bytes, List.mem_filter.mpr ⟨hh, ?_⟩, ?_⟩
  · simp [HeaderLine.bytes]
  · rw [h.takeWhile_bytes, hdrop]
    rfl

/-- **Host headers with a colon**, on the lines of the data and in its header block. -/
theorem splits_of_headerFields {data : Bytes} {B : HeaderBlock}
    (hlines : headLines data = B.lines.map HeaderLine.bytes)
    (hhost : ∀ f ∈ headerFields data, IsHostName f.1 → ':'.toUInt8 ∈ f.2) : B.Splits := by
  intro h hh hkey
  have hmem : h.bytes ∈ headLines data := by
    rw [hlines]
    exact List.mem_map_of_mem hh
  have hcolon := hhost _ (HeaderLine.mem_headerFields hmem) (isHostKey_iff.mp hkey)
  rcases List.mem_cons.mp hcolon with hws | hraw
  · have hspace := h.ws_space
    rw [← hws] at hspace
    exact absurd hspace (by decide)
  · exact HeaderLine.mem_value_of_mem_raw hraw (by decide)

section Language

variable {T : Type} [IsReqResType T] {data : Bytes}

open IsReqResType

/-- What `ParseHeaders` leaves of a word of the grammar, and what is on record by then. -/
theorem succeeds_of_headBytes {h : HeaderLine} {hs : List HeaderLine} {sl : StartLine}
    (hdata : data = headBytes sl (h :: hs))
    (hhost : ∀ f ∈ headerFields data, IsHostName f.1 → ':'.toUInt8 ∈ f.2) :
    Succeeds T data .kHeaders [] (recordLines (h :: hs) (sl.record fresh .kReady)) := by
  have hfits : (⟨h, hs, .emptyLine⟩ : HeaderBlock).Fits [] := .inl rfl
  rw [headBytes_eq] at hdata
  have hlines := headLines_block sl hfits
  rw [List.append_nil, ← hdata] at hlines
  have hsucceeds := succeeds_kHeaders (T := T) sl (splits_of_headerFields hlines hhost) hfits
  rwa [List.append_nil, ← sl.bytes_append, ← hdata] at hsucceeds

/-- **The language of heads.** On data that ends with its first empty line, and whose host
headers have a colon, the four token functions succeed exactly when the data is a word of
the grammar. `ParseHeaders` then leaves nothing of the data, and on record are the method,
the path, the version and the headers of the word, every value without the white space at
its end. -/
theorem heads_iff (hend : firstEnd crlfcrlf data = some data.length)
    (hhost : ∀ f ∈ headerFields data, IsHostName f.1 → ':'.toUInt8 ∈ f.2) :
    ((∀ s ∈ callingStates, ∃ (pos : Bytes) (d : T), Succeeds T data s pos d) ↔
      ∃ (sl : StartLine) (hs : List HeaderLine), hs ≠ [] ∧ data = headBytes sl hs) ∧
    ∀ (sl : StartLine) (hs : List HeaderLine), hs ≠ [] → data = headBytes sl hs →
      ∀ (pos : Bytes) (d : T), Succeeds T data .kHeaders pos d →
        pos = [] ∧ (fields d).method = sl.method ∧ (fields d).path = sl.path ∧
          (fields d).version = sl.version ∧
          (fields d).headers = hs.map fun h => (h.key, h.raw.rdropWhile isSpace) := by
  refine ⟨⟨?_, ?_⟩, ?_⟩
  · intro hall
    obtain ⟨pos, d, hheaders⟩ := hall .kHeaders (by decide)
    obtain ⟨R⟩ := exists_reading_of_succeeds hheaders
    obtain ⟨hempty, hrest⟩ := R.of_firstEnd hend
    refine ⟨R.startLine, R.block.lines, by simp [HeaderBlock.lines], ?_⟩
    have hblock : R.block = ⟨R.block.first, R.block.others, .emptyLine⟩ := by rw [← hempty]
    rw [HeaderBlock.lines, headBytes_eq, ← hblock]
    exact R.data_eq_bytes.trans (by rw [hrest, List.append_nil])
  · rintro ⟨sl, hs, hne, hdata⟩ s hmem
    obtain ⟨h, hs, rfl⟩ := List.exists_cons_of_ne_nil hne
    by_cases hheaders : s = .kHeaders
    · subst hheaders
      exact ⟨_, _, succeeds_of_headBytes hdata hhost⟩
    · have hahead := hdata.trans ((headBytes_eq sl h hs).trans (sl.bytes_append _))
      rw [hahead]
      refine succeeds_of_startLine sl _ ?_
      simp only [callingStates, List.mem_cons, List.not_mem_nil, or_false] at hmem ⊢
      tauto
  · intro sl hs hne hdata pos d hheaders
    obtain ⟨h, hs, rfl⟩ := List.exists_cons_of_ne_nil hne
    obtain ⟨rfl, rfl⟩ := succeeds_unique hheaders (succeeds_of_headBytes hdata hhost)
    rw [fields_recordLines]
    simp [StartLine.record, StartLine.recordTarget, HeaderLine.field, HeaderLine.value]

end Language

/-- `heads_iff` on a head with white space behind a value. -/
theorem paddedHead_succeeds :
    ∃ (pos : Bytes) (d : Request),
      Succeeds Request (ascii "GET / HTTP/1.1\r\nHost: a:1 \t\r\n\r\n") .kHeaders pos d :=
  (heads_iff (by decide) (by decide)).1.mpr
    ⟨default, [.of kHost (ascii "a:1 \t") (by decide) (by decide) (by decide)], by simp,
      by decide⟩ .kHeaders (by simp [callingStates])

end Camille
