import Camille.Returned
import Camille.RoundTrip

/-!
# One Reading, One Canonical Form

Behind a fresh parser the grammar of messages is unambiguous: data is taken apart in at
most one way, so that a message that is returned is the reading of its data, not one of
several. Written out again, with one blank wherever a line has one byte of white space and
with an empty line behind the headers, a message is read back as it was. The only messages
that are not are those with a single content length of zero: there a parser waits for a
body unless something follows.

## Main results

* `HeaderBlock.append_inj`, `StartLine.append_inj`: unique decomposition, part by part.
* `exists_unique_reading_of_parse`: what is returned is the one reading of the data.
* `Fields.parse_serialise_iff`: parsing, writing out and parsing again.
-/

open Lib

namespace Camille

/-! ### Unique decomposition -/

/-- Two header lines that agree up to where their values are over are one. -/
theorem HeaderLine.append_inj {h h' : HeaderLine} {r r' : Bytes}
    (heq : h.bytes ++ r = h'.bytes ++ r') (hr : AtStop isCR r) (hr' : AtStop isCR r') :
    h = h' ∧ r = r' := by
  have hplain : ∀ l : HeaderLine, ∀ b ∈ l.bytes, isCR b = false := by
    intro l b hb
    have hne : b ≠ 0x0D := fun he => l.not_cr_mem_bytes (he ▸ hb)
    simpa [isCR] using hne
  obtain ⟨hbytes, hrest⟩ := append_inj_of_atStop heq (hplain h) hr (hplain h') hr'
  obtain ⟨hkey, htail⟩ :=
    append_cons_inj_of_notMem hbytes h.not_colon_mem_key h'.not_colon_mem_key
  obtain ⟨hws, hraw⟩ := List.cons.inj htail
  cases h
  cases h'
  cases hkey
  cases hws
  cases hraw
  exact ⟨rfl, hrest⟩

/-- What stands behind the first line of a block. -/
def behindLine (hs : List HeaderLine) (e : Ending) (rest : Bytes) : Bytes :=
  match hs with
  | [] => e.bytes ++ rest
  | h :: hs => crlf ++ (joinLines h hs ++ (e.bytes ++ rest))

/-- A line, with what stands behind it. -/
theorem joinLines_append (h : HeaderLine) (hs : List HeaderLine) (e : Ending) (rest : Bytes) :
    joinLines h hs ++ (e.bytes ++ rest) = h.bytes ++ behindLine hs e rest := by
  cases hs with
  | nil => rfl
  | cons h' hs => simp [joinLines, behindLine]

/-- A line ends at what stands behind it. -/
theorem atStop_behindLine (hs : List HeaderLine) {e : Ending} {rest : Bytes}
    (he : e = .emptyLine ∨ rest = []) : AtStop isCR (behindLine hs e rest) := by
  cases hs with
  | nil => exact Ending.atStop_append he
  | cons h hs => exact atStop_cons.mpr isCR_cr

/-- A line end that another header line follows is not the end of a block. -/
theorem behindLine_cons_ne (h : HeaderLine) (hs : List HeaderLine) (e e' : Ending)
    {rest rest' : Bytes} (he' : e' = .emptyLine ∨ rest' = []) :
    behindLine (h :: hs) e rest ≠ e'.bytes ++ rest' := by
  obtain ⟨k, key, hkey⟩ := List.exists_cons_of_ne_nil h.key_ne_nil
  have hk : k ≠ 0x0D := by
    have hcr := not_isCR_of_headerKeyTraits (h.key_valid k (by simp [hkey]))
    simpa [isCR] using hcr
  rw [behindLine, joinLines_append]
  cases e' with
  | emptyLine => simp [Ending.bytes, crlfcrlf, crlf, HeaderLine.bytes, hkey, hk]
  | afterLine => simp [Ending.bytes, crlf, HeaderLine.bytes, hkey, he'.resolve_left (by decide)]
  | inValue => simp [Ending.bytes, crlf, he'.resolve_left (by decide)]

/-- The ends of two blocks that agree. -/
theorem Ending.append_inj {e e' : Ending} {rest rest' : Bytes}
    (heq : e.bytes ++ rest = e'.bytes ++ rest') (he : e = .emptyLine ∨ rest = [])
    (he' : e' = .emptyLine ∨ rest' = []) : e = e' ∧ rest = rest' := by
  cases e <;> cases e' <;> simp_all [Ending.bytes, crlfcrlf, crlf]

/-- Lines that agree up to the end of their block are the same lines. -/
theorem joinLines_append_inj {h h' : HeaderLine} {hs hs' : List HeaderLine} {e e' : Ending}
    {rest rest' : Bytes} (he : e = .emptyLine ∨ rest = []) (he' : e' = .emptyLine ∨ rest' = [])
    (heq : joinLines h hs ++ (e.bytes ++ rest) = joinLines h' hs' ++ (e'.bytes ++ rest')) :
    h = h' ∧ hs = hs' ∧ e = e' ∧ rest = rest' := by
  induction hs generalizing h h' hs' with
  | nil =>
      rw [joinLines_append, joinLines_append] at heq
      obtain ⟨rfl, htail⟩ := HeaderLine.append_inj heq (atStop_behindLine [] he)
        (atStop_behindLine hs' he')
      cases hs' with
      | nil => exact ⟨rfl, rfl, Ending.append_inj htail he he'⟩
      | cons h' hs' => exact absurd htail.symm (behindLine_cons_ne h' hs' e' e he)
  | cons l hs ih =>
      rw [joinLines_append, joinLines_append] at heq
      obtain ⟨rfl, htail⟩ := HeaderLine.append_inj heq (atStop_behindLine (l :: hs) he)
        (atStop_behindLine hs' he')
      cases hs' with
      | nil => exact absurd htail (behindLine_cons_ne l hs e e' he')
      | cons l' hs' =>
          obtain ⟨rfl, rfl, rfl, rfl⟩ := ih (List.append_cancel_left htail)
          exact ⟨rfl, rfl, rfl, rfl⟩

/-- **Two header blocks that agree with what follows them are one.** -/
theorem HeaderBlock.append_inj {B B' : HeaderBlock} {rest rest' : Bytes}
    (heq : B.bytes ++ rest = B'.bytes ++ rest') (hB : B.Fits rest) (hB' : B'.Fits rest') :
    B = B' ∧ rest = rest' := by
  rw [HeaderBlock.bytes, HeaderBlock.bytes, List.append_assoc, List.append_assoc] at heq
  obtain ⟨hfirst, hothers, hending, hrest⟩ := joinLines_append_inj hB hB' heq
  cases B
  cases B'
  cases hfirst
  cases hothers
  cases hending
  exact ⟨rfl, hrest⟩

/-- **Two start lines that agree with what follows them are one**, read from their first
byte. -/
theorem StartLine.append_inj {sl sl' : StartLine} {pos pos' : Bytes}
    (heq : sl.ahead pos .kReady = sl'.ahead pos' .kReady) : sl = sl' ∧ pos = pos' := by
  have hmethod : ∀ l : StartLine, ∀ b ∈ l.method, isSpace b = false := by
    intro l b hb
    have hplain := (plain_of_methodEnum l.method_known b hb).1
    simp_all
  have hpath : ∀ l : StartLine, ∀ b ∈ l.path, isSpace b = false := by
    intro l b hb
    have hvisible : ∀ b : UInt8, 0x21 ≤ b ∧ b ≤ 0x7E → isSpace b = false := by
      decide +kernel
    exact hvisible b (l.path_valid.visible b hb)
  have hspace : ∀ {ws : UInt8}, isSpace ws = true → ∀ r, AtStop isSpace (ws :: r) :=
    fun hws r => atStop_cons.mpr hws
  simp only [StartLine.ahead, StartLine.target] at heq
  obtain ⟨hm, htail⟩ := append_inj_of_atStop heq (hmethod sl) (hspace sl.ws₁_space _)
    (hmethod sl') (hspace sl'.ws₁_space _)
  obtain ⟨hws₁, htail⟩ := List.cons.inj htail
  obtain ⟨hp, htail⟩ := append_inj_of_atStop htail (hpath sl) (hspace sl.ws₂_space _)
    (hpath sl') (hspace sl'.ws₂_space _)
  obtain ⟨hws₂, htail⟩ := List.cons.inj htail
  obtain ⟨hv, htail⟩ := append_cons_inj_of_notMem (List.append_cancel_left htail)
    sl.not_cr_mem_version sl'.not_cr_mem_version
  obtain ⟨-, hpos⟩ := List.cons.inj htail
  cases sl
  cases sl'
  cases hm
  cases hws₁
  cases hp
  cases hws₂
  cases hv
  exact ⟨rfl, hpos⟩

/-- **The grammar is unambiguous.** -/
theorem Reading.eq {data : Bytes} (R R' : Reading .kReady data) : R = R' := by
  obtain ⟨hline, htail⟩ := StartLine.append_inj (R.data_eq.symm.trans R'.data_eq)
  obtain ⟨hblock, hrest⟩ := HeaderBlock.append_inj htail R.fits R'.fits
  cases R
  cases R'
  cases hline
  cases hblock
  cases hrest
  rfl

/-- **What a fresh parser returns is the reading of its data**: there is one, it shows in
the message, and there is no other. -/
theorem exists_unique_reading_of_parse {T : Type} [IsReqResType T] {data : Bytes} {d : T}
    {q : Parser} (h : ({} : Parser).parse T data = some (.returned (.ok d), q)) :
    ∃ R : Reading .kReady data, R.Shows (IsReqResType.fields d) ∧
      ∀ R' : Reading .kReady data, R' = R := by
  obtain ⟨R, hR⟩ := exists_reading_of_parse h
  exact ⟨R, hR, fun R' => R'.eq R⟩

/-- The one reading of a message with a body. -/
theorem exists_unique_reading_of_framedMessage :
    ∃ R : Reading .kReady framedMessage, R.Shows (IsReqResType.fields framedRequest) ∧
      ∀ R' : Reading .kReady framedMessage, R' = R :=
  exists_unique_reading_of_parse parse_framedMessage

/-! ### The canonical form -/

/-- What a message shows, written out again. -/
def Fields.serialise (f : Fields) : Bytes :=
  f.method ++ ' '.toUInt8 :: (f.path ++ ' '.toUInt8 :: (ascii "HTTP/" ++ (f.version ++ crlf))) ++
    f.headers.flatMap serialiseHeader ++ crlf ++ f.body

/-- The line with blanks between its parts. -/
def StartLine.canonical (sl : StartLine) : StartLine where
  method := sl.method
  ws₁ := ' '.toUInt8
  path := sl.path
  ws₂ := ' '.toUInt8
  version := sl.version
  method_known := sl.method_known
  ws₁_space := isSpace_blank
  path_valid := sl.path_valid
  ws₂_space := isSpace_blank
  version_valid := sl.version_valid

namespace HeaderLine

/-- The line with a blank before its value and nothing behind it. -/
def canonical (h : HeaderLine) : HeaderLine where
  key := h.key
  ws := ' '.toUInt8
  raw := h.value
  key_ne_nil := h.key_ne_nil
  key_valid := h.key_valid
  ws_space := isSpace_blank
  raw_valid b hb := h.raw_valid b ((List.rdropWhile_prefix isSpace h.raw).subset hb)

/-- The value is the one that was recorded. -/
@[simp] theorem value_canonical (h : HeaderLine) : h.canonical.value = h.value :=
  List.rdropWhile_idempotent isSpace h.raw

/-- So is the header. -/
@[simp] theorem field_canonical (h : HeaderLine) : h.canonical.field = h.field := by
  rw [field, value_canonical]
  rfl

/-- A host-like line has the same host. -/
@[simp] theorem hostPart_canonical (h : HeaderLine) : h.canonical.hostPart = h.hostPart := by
  rw [hostPart, value_canonical, hostPart]

/-- It has the same port. -/
@[simp] theorem portPart_canonical (h : HeaderLine) : h.canonical.portPart = h.portPart := by
  rw [portPart, value_canonical, portPart]

/-- It has a colon if it had one. -/
theorem splits_canonical {h : HeaderLine} : h.canonical.Splits ↔ h.Splits := by
  rw [Splits, value_canonical]
  rfl

/-- The line is what `serialise` writes for its header. -/
theorem bytes_canonical (h : HeaderLine) : h.canonical.bytes ++ crlf = serialiseHeader h.field := by
  simp [bytes, canonical, serialiseHeader, field]

end HeaderLine

/-- The last host-like line stays the last one. -/
theorem hostLine_map_canonical (hs : List HeaderLine) :
    hostLine (hs.map HeaderLine.canonical) = (hostLine hs).map HeaderLine.canonical := by
  rw [hostLine, List.filter_map, List.getLast?_map]
  rfl

namespace HeaderBlock

/-- The block with its lines rewritten, and an empty line behind them. -/
def canonical (B : HeaderBlock) : HeaderBlock where
  first := B.first.canonical
  others := B.others.map HeaderLine.canonical
  ending := .emptyLine

/-- The block has its lines, rewritten. -/
theorem lines_canonical (B : HeaderBlock) :
    B.canonical.lines = B.lines.map HeaderLine.canonical := rfl

/-- It records the same headers. -/
@[simp] theorem fields_canonical (B : HeaderBlock) : B.canonical.fields = B.fields := by
  rw [fields, lines_canonical, List.map_map, fields]
  exact List.map_congr_left fun h _ => h.field_canonical

/-- It has the same values under every key. -/
@[simp] theorem values_canonical (B : HeaderBlock) (key : Bytes) :
    B.canonical.values key = B.values key := by
  rw [values, fields_canonical, values]

/-- Its hosts split as they did. -/
theorem Splits.canonical {B : HeaderBlock} (hB : B.Splits) : B.canonical.Splits := by
  intro h hh
  rw [lines_canonical] at hh
  obtain ⟨l, hl, rfl⟩ := List.mem_map.mp hh
  exact HeaderLine.splits_canonical.mpr (hB l hl)

/-- The block, header by header. -/
theorem bytes_canonical (B : HeaderBlock) :
    B.canonical.bytes = B.fields.flatMap serialiseHeader ++ crlf := by
  have hlines : (B.canonical.lines.flatMap fun h => h.bytes ++ crlf) =
      B.fields.flatMap serialiseHeader := by
    rw [lines_canonical, List.flatMap_map, fields, List.flatMap_map]
    simp only [HeaderLine.bytes_canonical]
  rw [← hlines, lines, ← Message.joinLines_append_crlf, List.append_assoc]
  rfl

end HeaderBlock

namespace Reading

variable {data : Bytes} {f : Fields}

/-- A message has the headers of its reading. -/
theorem Shows.headers_eq {R : Reading .kReady data} (h : R.Shows f) :
    f.headers = R.block.fields := by
  obtain ⟨-, rfl⟩ | ⟨n, -, -, -, rfl⟩ := h <;> rfl

/-- What is written out, taken apart. -/
theorem Shows.serialise_append {R : Reading .kReady data} (h : R.Shows f) (rest : Bytes) :
    f.serialise ++ rest =
      R.startLine.canonical.ahead (R.block.canonical.bytes ++ (f.body ++ rest)) .kReady := by
  have hline : f.method = R.startLine.method ∧ f.path = R.startLine.path ∧
      f.version = R.startLine.version := by
    obtain ⟨-, rfl⟩ | ⟨n, -, -, -, rfl⟩ := h <;> exact ⟨rfl, rfl, rfl⟩
  obtain ⟨hmethod, hpath, hversion⟩ := hline
  rw [HeaderBlock.bytes_canonical, Fields.serialise, hmethod, hpath, hversion, h.headers_eq]
  simp [StartLine.ahead, StartLine.target, StartLine.canonical, crlf]

/-- The reading of a message written out. -/
def Shows.canonical {R : Reading .kReady data} (h : R.Shows f) (rest : Bytes) :
    Reading .kReady (f.serialise ++ rest) where
  startLine := R.startLine.canonical
  block := R.block.canonical
  rest := f.body ++ rest
  data_eq := h.serialise_append rest
  fits := .inl rfl
  splits := R.splits.canonical

variable {R : Reading .kReady data} (h : R.Shows f) (rest : Bytes)
include h

/-- The message written out has the same values under every key. -/
theorem Shows.values_canonical (key : Bytes) :
    (h.canonical rest).block.values key = R.block.values key :=
  R.block.values_canonical key

/-- It shows the same, but for its size. -/
theorem Shows.shown_canonical :
    (h.canonical rest).shown = { R.shown with size := (f.serialise ++ rest).length } := by
  have hhost : hostLine (h.canonical rest).block.lines =
      (hostLine R.block.lines).map HeaderLine.canonical := hostLine_map_canonical R.block.lines
  have hfields : (h.canonical rest).block.fields = R.block.fields := R.block.fields_canonical
  rw [shown, hhost, hfields]
  cases hl : hostLine R.block.lines <;> simp [shown, hl, Shows.canonical, StartLine.canonical]

/-- **A message written out is read back**, unless a single content length of zero makes
the parser wait. -/
theorem Shows.shows_canonical (hready : f.contentLength ≠ some 0 ∨ rest ≠ []) :
    (h.canonical rest).Shows { f with size := (f.serialise ++ rest).length } := by
  have hvalues := h.values_canonical rest
  have hshown := h.shown_canonical rest
  rcases id h with ⟨⟨hhost, hlength⟩, hf⟩ |
    ⟨n, ⟨value, ⟨hhost, hcl⟩, hte, hn⟩, -, hle, hf⟩
  · refine .inl ⟨⟨?_, ?_⟩, ?_⟩
    · rwa [OneHost, hvalues]
    · rwa [hvalues]
    · rw [hshown, hf]
  · have hlen : f.body.length = n := by
      rw [hf]
      exact List.length_take_of_le hle
    have hbody : f.body ++ rest ≠ [] := by
      intro hnil
      obtain ⟨hbody, hrest⟩ := List.append_eq_nil_iff.mp hnil
      have hzero : f.contentLength = some 0 := by
        rw [hf, ← hlen, hbody]
        rfl
      exact hready.elim (fun hne => hne hzero) (fun hne => hne hrest)
    refine .inr ⟨n, ⟨value, ⟨?_, ?_⟩, ?_, hn⟩, hbody, ?_, ?_⟩
    · rwa [OneHost, hvalues]
    · rwa [hvalues]
    · rwa [hvalues]
    · change n ≤ (f.body ++ rest).length
      rw [List.length_append]
      omega
    · have htake : (f.body ++ rest).take n = f.body := by rw [← hlen, List.take_left]
      change _ = { (h.canonical rest).shown with
        contentLength := some n, body := (f.body ++ rest).take n }
      rw [hshown, htake, hf]

omit rest in
/-- With such a length and nothing behind it, the parser asks for more. -/
theorem Shows.refused_canonical (hzero : f.contentLength = some 0) :
    Refused .kReady (f.serialise ++ []) .kPartialMessage := by
  rcases id h with ⟨-, hf⟩ | ⟨n, ⟨value, ⟨hhost, hcl⟩, -, -⟩, -, hle, hf⟩
  · rw [hf] at hzero
    cases hzero
  · rw [hf] at hzero
    obtain rfl : n = 0 := Option.some.inj hzero
    have hann : (h.canonical []).Announces value :=
      ⟨by rwa [OneHost, h.values_canonical], by rwa [h.values_canonical]⟩
    have hbody : f.body = [] := by
      rw [hf]
      rfl
    exact .awaited (h.canonical []) hann (by simp [Shows.canonical, hbody])

end Reading

section Parse

variable {T T' : Type} [IsReqResType T] [IsReqResType T']

open IsReqResType

/-- **Written out and parsed again, a message is what it was**, whatever follows it and
whichever message class reads it, exactly when it does not announce an empty body with
nothing behind it. -/
theorem Fields.parse_serialise_iff {data : Bytes} {d : T} {q : Parser}
    (h : ({} : Parser).parse T data = some (.returned (.ok d), q)) (rest : Bytes) :
    (∃ (d' : T') (q' : Parser),
      ({} : Parser).parse T' ((fields d).serialise ++ rest) = some (.returned (.ok d'), q') ∧
        fields d' = { fields d with size := ((fields d).serialise ++ rest).length }) ↔
      (fields d).contentLength ≠ some 0 ∨ rest ≠ [] := by
  obtain ⟨R, hR⟩ := exists_reading_of_parse h
  have hR : Reading.Shows (s := .kReady) R (fields d) := hR
  constructor
  · rintro ⟨d', q', hparse, -⟩
    by_contra hready
    obtain ⟨hzero, rfl⟩ : (fields d).contentLength = some 0 ∧ rest = [] := by
      simpa using hready
    obtain ⟨q'', hpartial⟩ := Refused.parse (T := T') (p := {}) Parser.rank_fresh
      (hR.refused_canonical hzero) (by simp [Fields.serialise])
    cases hparse.symm.trans hpartial
  · intro hready
    exact Reading.Shows.parse (T := T') (p := {}) (hR.shows_canonical rest hready)
      Parser.rank_fresh

end Parse

/-- A message with a body, written out and read back by the other class. -/
theorem parse_serialise_framedMessage :
    ∃ (r : Response) (q : Parser),
      ({} : Parser).parse Response ((IsReqResType.fields framedRequest).serialise ++ []) =
          some (.returned (.ok r), q) ∧
        IsReqResType.fields r = { IsReqResType.fields framedRequest with
          size := ((IsReqResType.fields framedRequest).serialise ++ []).length } :=
  (Fields.parse_serialise_iff parse_framedMessage []).mpr (.inl (by decide))

end Camille
