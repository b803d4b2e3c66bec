import Camille.ContentLength
import Camille.Outcomes

/-!
# Parsing Undoes Serialising

A `Message` is what a client means to send, with the proofs that every part of it is
within the grammar; `serialise` writes it out. A fresh parser reads it back, whatever
follows it on the wire.

## Main results

* `isHostKey_iff`: the test of `ParseHeaders` is for the name `host`, ignoring case.
* `Message.exists_lines`: the headers of a message, as header lines.
* `Message.fields_of_parse`: either message class shows what was serialised.
* `Message.parse_serialise`: the round trip.
-/

open Lib

namespace Camille

/-- The lower-case letter for an upper-case one, and any other byte itself. -/
def lowerCase (b : UInt8) : UInt8 :=
  if isUpper b then b + 32 else b

/-- The name is `host`, ignoring case. -/
def IsHostName (key : Bytes) : Prop :=
  key.map lowerCase = ascii "host"

/-- Whether a key is host-like can be computed. -/
instance (key : Bytes) : Decidable (IsHostName key) :=
  inferInstanceAs (Decidable (_ = _))

/-- **The test for a host key ignores case**, and accepts nothing else. -/
theorem isHostKey_iff {key : Bytes} : isHostKey key = true ↔ IsHostName key := by
  have hletters : ∀ c ∈ [104, 111, 115, 116], ∀ b : UInt8,
      ((b ||| 0x20) == c) = decide (lowerCase b = c) := by
    decide +kernel
  have hh := hletters 104 (by simp)
  have ho := hletters 111 (by simp)
  have hs := hletters 115 (by simp)
  have ht := hletters 116 (by simp)
  have hhost : ascii "host" = [104, 111, 115, 116] := by decide
  rw [IsHostName, hhost]
  rcases key with - | ⟨k₀, - | ⟨k₁, - | ⟨k₂, - | ⟨k₃, - | ⟨k₄, key⟩⟩⟩⟩⟩
  · simp [isHostKey]
  · simp [isHostKey]
  · simp [isHostKey]
  · simp [isHostKey]
  · change ((k₀ ||| 0x20) == 104 && (k₁ ||| 0x20) == 111 && (k₂ ||| 0x20) == 115 &&
      (k₃ ||| 0x20) == 116) = true ↔ _
    rw [hh, ho, hs, ht]
    simp [and_assoc]
  · simp [isHostKey]

/-- What stands on a header line, within the grammar. -/
structure IsField (h : Bytes × Bytes) : Prop where
  key_ne_nil : h.1 ≠ []
  key_valid : ∀ b ∈ h.1, headerKeyTraits b = true
  value_valid : ∀ b ∈ h.2, headerValueTraits b = true
  value_trimmed : ∀ b ∈ h.2.getLast?, isSpace b = false

/-- A field, from checks that can be computed. -/
theorem IsField.of {key value : Bytes} (hne : key ≠ [])
    (hkey : key.all headerKeyTraits = true) (hvalue : value.all headerValueTraits = true)
    (htrim : value.getLast?.all (!isSpace ·) = true) : IsField (key, value) where
  key_ne_nil := hne
  key_valid := List.all_eq_true.mp hkey
  value_valid := List.all_eq_true.mp hvalue
  value_trimmed b hb := by
    have hb : value.getLast? = some b := hb
    simpa [hb] using htrim

/-- A message to be sent. The body is announced by its length, or empty and not
announced at all. -/
structure Message where
  method : Bytes
  path : Bytes
  version : Bytes
  headers : CamilleHeaders
  body : Bytes
  method_known : method ∈ methodNames
  path_valid : IsPath path
  version_valid : ∀ b ∈ version, isVersionByte b = true
  headers_valid : ∀ h ∈ headers, IsField h
  host_once : (headers.map Prod.fst).count kHost = 1
  host_colon : ∀ h ∈ headers, IsHostName h.1 → ':'.toUInt8 ∈ h.2
  framed : (body = [] ∧ kContentLength ∉ headers.map Prod.fst ∧
      kTransferEncoding ∉ headers.map Prod.fst) ∨
    (1 ≤ body.length ∧ body.length ≤ kBodyLimit ∧
      valuesOf headers kContentLength = [decimal body.length] ∧
      kTransferEncoding ∉ headers.map Prod.fst)

/-- A header on the wire. -/
def serialiseHeader (h : Bytes × Bytes) : Bytes :=
  h.1 ++ ':'.toUInt8 :: ' '.toUInt8 :: (h.2 ++ crlf)

namespace Message

/-- A message on the wire. -/
def serialise (m : Message) : Bytes :=
  m.method ++ ' '.toUInt8 :: (m.path ++ ' '.toUInt8 :: (ascii "HTTP/" ++ (m.version ++ crlf))) ++
    m.headers.flatMap serialiseHeader ++ crlf ++ m.body

/-- The header that decides `Host()` and `Port()`: the last one whose name is `host`. -/
def hostField (m : Message) : Option (Bytes × Bytes) :=
  (m.headers.filter fun h => IsHostName h.1).getLast?

/-- The start line of the message. -/
def startLine (m : Message) : StartLine where
  method := m.method
  ws₁ := ' '.toUInt8
  path := m.path
  ws₂ := ' '.toUInt8
  version := m.version
  method_known := by
    have hall : methodNames.all (fun name => methodEnum name ≠ .kUnknown) = true := by
      decide
    simpa using List.all_eq_true.mp hall m.method m.method_known
  ws₁_space := isSpace_blank
  path_valid := m.path_valid
  ws₂_space := isSpace_blank
  version_valid := m.version_valid

/-- The line of a header. -/
def line {h : Bytes × Bytes} (hh : IsField h) : HeaderLine where
  key := h.1
  ws := ' '.toUInt8
  raw := h.2
  key_ne_nil := hh.key_ne_nil
  key_valid := hh.key_valid
  ws_space := isSpace_blank
  raw_valid := hh.value_valid

/-- Nothing is cut off the value of such a line. -/
theorem value_line {h : Bytes × Bytes} (hh : IsField h) : (line hh).value = h.2 := by
  have htrim : h.2.rdropWhile isSpace = h.2 := by
    refine List.rdropWhile_eq_self_iff.mpr ?_
    intro hne
    simp [hh.value_trimmed (h.2.getLast hne) (List.getLast?_eq_some_getLast hne)]
  exact htrim

/-- **The headers of a message, as header lines.** -/
theorem exists_lines {headers : CamilleHeaders} (hvalid : ∀ h ∈ headers, IsField h) :
    ∃ hs : List HeaderLine, hs.map HeaderLine.field = headers ∧
      (hs.flatMap fun h => h.bytes ++ crlf) = headers.flatMap serialiseHeader := by
  induction headers with
  | nil => exact ⟨[], rfl, rfl⟩
  | cons h headers ih =>
      obtain ⟨hs, hfields, hbytes⟩ := ih fun h' hm => hvalid h' (List.mem_cons_of_mem _ hm)
      have hh : IsField h := hvalid h List.mem_cons_self
      refine ⟨line hh :: hs, ?_, ?_⟩
      · rw [List.map_cons, hfields, HeaderLine.field, value_line]
        rfl
      · rw [List.flatMap_cons, List.flatMap_cons, hbytes]
        simp [HeaderLine.bytes, line, serialiseHeader]

/-- Lines with line ends between them, and one more. -/
theorem joinLines_append_crlf (h : HeaderLine) (hs : List HeaderLine) :
    joinLines h hs ++ crlf = (h :: hs).flatMap fun h => h.bytes ++ crlf := by
  induction hs generalizing h with
  | nil => simp [joinLines]
  | cons h' hs ih =>
      have := ih h'
      rw [joinLines, List.append_assoc, this]
      simp

/-- **The header block of a message**, with the start line before it. -/
theorem exists_block (m : Message) :
    ∃ B : HeaderBlock, B.ending = .emptyLine ∧ B.fields = m.headers ∧ B.Splits ∧
      ∀ rest, m.serialise ++ rest =
        m.startLine.ahead (B.bytes ++ (m.body ++ rest)) .kReady := by
  obtain ⟨hs, hfields, hbytes⟩ := exists_lines m.headers_valid
  rcases hs with - | ⟨h, hs⟩
  · -- there is a header, the one named `Host`
    have hhost := m.host_once
    rw [← hfields] at hhost
    cases hhost
  · refine ⟨⟨h, hs, .emptyLine⟩, rfl, hfields, ?_, ?_⟩
    · intro l hl hk
      have hmem : l.field ∈ m.headers := by
        rw [← hfields]
        exact List.mem_map_of_mem hl
      exact m.host_colon l.field hmem (isHostKey_iff.mp hk)
    · intro rest
      rw [serialise, ← hbytes, ← joinLines_append_crlf, ← StartLine.bytes_append]
      simp [StartLine.bytes_eq, StartLine.line, StartLine.target, startLine,
        HeaderBlock.bytes, Ending.bytes, crlfcrlf]

/-- The line that decides `Host()` and `Port()`, and the header it stands for. -/
theorem exists_hostLine {m : Message} {B : HeaderBlock} (hB : B.fields = m.headers) :
    ∃ host, hostLine B.lines = some host ∧ m.hostField = some host.field := by
  have hfilter : (m.headers.filter fun h => IsHostName h.1) =
      (B.lines.filter fun h => isHostKey h.key).map HeaderLine.field := by
    rw [← hB, HeaderBlock.fields, List.filter_map]
    congr 2
    funext h
    exact Bool.eq_iff_iff.mpr (decide_eq_true_iff.trans isHostKey_iff.symm)
  have hmem : kHost ∈ m.headers.map Prod.fst :=
    List.count_pos_iff.mp (by rw [m.host_once]; exact Nat.one_pos)
  obtain ⟨h, hh, hkey⟩ := List.mem_map.mp hmem
  have hhost : h ∈ m.headers.filter fun h => IsHostName h.1 :=
    List.mem_filter.mpr ⟨hh, by rw [hkey]; decide⟩
  rw [hfilter] at hhost
  obtain ⟨l, hl, -⟩ := List.mem_map.mp hhost
  obtain ⟨host, hhost⟩ : ∃ host, hostLine B.lines = some host := by
    rw [hostLine, List.getLast?_eq_some_getLast (List.ne_nil_of_mem hl)]
    exact ⟨_, rfl⟩
  refine ⟨host, hhost, ?_⟩
  rw [hostLine] at hhost
  rw [hostField, hfilter, List.getLast?_map, hhost]
  rfl

/-- The body is announced by its length, or not at all. -/
theorem noBody_or_sized {m : Message} {B : HeaderBlock} (hB : B.fields = m.headers)
    {s : States} {data : Bytes} (R : Reading s data) (hR : R.block = B) :
    (m.body = [] ∧ R.NoBody) ∨ (m.body ≠ [] ∧ R.Sized m.body.length) := by
  have hvalues : ∀ key, R.block.values key = valuesOf m.headers key := by
    intro key
    rw [hR, HeaderBlock.values, hB]
  have habsent : ∀ key, key ∉ m.headers.map Prod.fst → (R.block.values key).length ≠ 1 := by
    intro key hkey
    rw [hvalues, length_valuesOf, List.count_eq_zero.mpr hkey]
    exact Nat.zero_ne_one
  have hhost : R.OneHost := by
    rw [Reading.OneHost, hvalues, length_valuesOf]
    exact m.host_once
  rcases m.framed with ⟨hbody, hcl, -⟩ | ⟨hpos, hle, hcl, hte⟩
  · exact .inl ⟨hbody, hhost, habsent _ hcl⟩
  · exact .inr ⟨List.length_pos_iff.mp hpos, _, ⟨hhost, (hvalues _).trans hcl⟩, habsent _ hte,
      validateContentLength_decimal hle⟩

section Parse

variable {T : Type} [IsReqResType T]

open IsReqResType

/-- What either message class shows of a message that was sent. -/
def shown (m : Message) (size : ℕ) (host : HeaderLine) : Fields where
  host := host.hostPart
  port := host.portPart
  path := m.path
  body := m.body
  method := m.method
  version := m.version
  contentLength := if m.body = [] then none else some m.body.length
  headers := m.headers
  size := size

/-- **Either message class shows what was serialised.** -/
theorem fields_of_parse (m : Message) (rest : Bytes) :
    ∃ (d : T) (q : Parser) (host : HeaderLine),
      ({} : Parser).parse T (m.serialise ++ rest) = some (.returned (.ok d), q) ∧
        m.hostField = some host.field ∧ isHostKey host.key = true ∧ host.Splits ∧
        fields d = m.shown (m.serialise ++ rest).length host := by
  obtain ⟨B, hend, hB, hsplits, hdata⟩ := m.exists_block
  let R : Reading ({} : Parser).currentState (m.serialise ++ rest) :=
    ⟨m.startLine, B, m.body ++ rest, hdata rest, .inl hend, hsplits⟩
  obtain ⟨host, hhost, hfield⟩ := exists_hostLine hB
  have hmem : host ∈ B.lines.filter fun h => isHostKey h.key := List.mem_of_getLast? hhost
  obtain ⟨hhostmem, hhostkey⟩ := List.mem_filter.mp hmem
  have hrank := Parser.rank_fresh
  have hmessage : fields (R.message : T) =
      { m.shown 0 host with body := [], contentLength := none } := by
    have hheaders : B.lines.map HeaderLine.field = m.headers := hB
    rw [Reading.message, fields_recordLines]
    simp [R, shown, StartLine.record, StartLine.recordTarget, startLine, hhost, hheaders]
  rcases noBody_or_sized hB R rfl with ⟨hbody, hno⟩ | ⟨hbody, hsized⟩
  · refine ⟨_, _, host, parse_of_noBody hrank R hno, hfield, hhostkey, hsplits _ hhostmem, ?_⟩
    rw [fields_setSize, hmessage]
    simp [shown, hbody]
  · have hrest : R.rest ≠ [] := List.append_ne_nil_of_left_ne_nil hbody rest
    have hle : m.body.length ≤ R.rest.length := by simp [R]
    refine ⟨_, _, host, parse_of_sized hrank R hsized hrest hle, hfield, hhostkey,
      hsplits _ hhostmem, ?_⟩
    rw [fields_setSize, fields_setBody, fields_setContentLength, hmessage]
    simp [shown, hbody, R]

end Parse

/-- **Parsing undoes serialising.** A fresh parser reads back what was sent, whatever
follows it, and splits the value of the last header named `host` at its first colon. -/
theorem parse_serialise (m : Message) (rest : Bytes) :
    ∃ (r : Request) (q : Parser) (host : Bytes × Bytes),
      ({} : Parser).parse Request (m.serialise ++ rest) = some (.returned (.ok r), q) ∧
        r.method = m.method ∧ r.path = m.path ∧ r.version = m.version ∧
        r.headers = m.headers ∧ r.body = m.body ∧
        m.hostField = some host ∧ host.2 = r.host ++ ':'.toUInt8 :: r.port ∧
        ':'.toUInt8 ∉ r.host := by
  obtain ⟨r, q, host, hparse, hfield, hkey, hsplits, hshown⟩ :=
    m.fields_of_parse (T := Request) rest
  have hsplit := host.value_eq_of_splits hsplits hkey
  obtain ⟨hhost, hport, hpath, hbody, hmethod, hversion, -, hheaders, -⟩ :=
    Fields.mk.inj hshown
  have hhost : r.host = host.hostPart := hhost
  have hport : r.port = host.portPart := hport
  refine ⟨r, q, host.field, hparse, hmethod, hpath, hversion, hheaders, hbody, hfield, ?_⟩
  rw [hhost, hport]
  exact hsplit

/-- `POST / HTTP/1.1` with a host and a body of five bytes. -/
instance : Inhabited Message :=
  ⟨{ method := ascii "POST", path := ascii "/", version := ascii "1.1",
     headers := [(kHost, ascii "a:1"), (kContentLength, decimal 5)], body := ascii "hello",
     method_known := by decide
     path_valid := (default : StartLine).path_valid
     version_valid := (default : StartLine).version_valid
     headers_valid := by
       simp only [List.forall_mem_cons, List.not_mem_nil, false_imp_iff, implies_true, and_true]
       exact ⟨.of (by decide) (by decide) (by decide) (by decide),
         .of (by decide) (by decide) (by decide) (by decide)⟩
     host_once := by decide
     host_colon := by decide
     framed := .inr (by decide) }⟩

end Message

end Camille
