import Camille.StartLine

/-!
# The Header Block

What `ParseHeaders` accepts, as a grammar: a `HeaderLine` is a key, one white-space byte
and the bytes of the value, with the proofs that they are well formed; a `HeaderBlock` is
a non-empty list of lines with one of three `Ending`s. Only one of them is the empty
line: the loop of `ParseHeaders` also ends, successfully, when the data does, inside the
last value or behind its line end.

A key that is `host` in any letter case makes `ParseHost` run over the value, which
throws when the value has no colon (`HeaderLine.Splits`, `HostThrows`).

## Main results

* `parseHeader_line`, `parseHeader_cases`: one round of the loop reads a line or fails.
* `parseHeaders_block`: `ParseHeaders` reads a block and records its lines.
* `parseHeaders_hostThrows`: it throws at the first line that does not split.
* `headers_cases`: any data is one of the two, or is refused.
-/

open Lib

namespace Camille

/-! ### Lines -/

/-- A header line, taken apart: `key ":" ws raw`, without its line end. -/
structure HeaderLine where
  key : Bytes
  ws : UInt8
  raw : Bytes
  key_ne_nil : key ≠ []
  key_valid : ∀ b ∈ key, headerKeyTraits b = true
  ws_space : isSpace ws = true
  raw_valid : ∀ b ∈ raw, headerValueTraits b = true

namespace HeaderLine

/-- `key ": " value`. -/
def of (key value : Bytes) (hne : key ≠ []) (hkey : key.all headerKeyTraits = true)
    (hvalue : value.all headerValueTraits = true) : HeaderLine where
  key := key
  ws := ' '.toUInt8
  raw := value
  key_ne_nil := hne
  key_valid := List.all_eq_true.mp hkey
  ws_space := isSpace_blank
  raw_valid := List.all_eq_true.mp hvalue

/-- The bytes of the line. -/
def bytes (h : HeaderLine) : Bytes :=
  h.key ++ ':'.toUInt8 :: h.ws :: h.raw

/-- The value on record: without the white space at its end. -/
def value (h : HeaderLine) : Bytes :=
  h.raw.rdropWhile isSpace

/-- The pair on record. -/
def field (h : HeaderLine) : Bytes × Bytes :=
  (h.key, h.value)

/-- The line can be recorded: when its key is a host key, its value has a colon. -/
def Splits (h : HeaderLine) : Prop :=
  isHostKey h.key = true → ':'.toUInt8 ∈ h.value

/-- Whether there is a colon can be computed. -/
instance (h : HeaderLine) : Decidable h.Splits :=
  inferInstanceAs (Decidable (_ → _))

/-- The part of the value before its first colon. -/
def hostPart (h : HeaderLine) : Bytes :=
  h.value.takeWhile fun b => b != ':'.toUInt8

/-- The part of the value behind its first colon. -/
def portPart (h : HeaderLine) : Bytes :=
  (h.value.dropWhile fun b => b != ':'.toUInt8).tail

/-- A line has a key, and is not empty. -/
theorem bytes_ne_nil (h : HeaderLine) : h.bytes ≠ [] := by
  simp [bytes]

/-- A key holds no colon. -/
theorem not_colon_mem_key (h : HeaderLine) : ':'.toUInt8 ∉ h.key := by
  intro hmem
  have hcolon := ne_colon_of_headerKeyTraits (h.key_valid _ hmem)
  rw [beq_self_eq_true] at hcolon
  cases hcolon

/-- A line holds no carriage return. -/
theorem not_cr_mem_bytes (h : HeaderLine) : (0x0D : UInt8) ∉ h.bytes := by
  intro hmem
  simp only [bytes, List.mem_append, List.mem_cons] at hmem
  rcases hmem with hk | hc | hw | hr
  · exact absurd isCR_cr (by simp [not_isCR_of_headerKeyTraits (h.key_valid _ hk)])
  · exact absurd hc (by decide)
  · have hspace := h.ws_space
    rw [← hw, isSpace_cr] at hspace
    cases hspace
  · exact absurd isCR_cr (by simp [not_isCR_of_headerValueTraits (h.raw_valid _ hr)])

/-! Three lines of an ordinary message, for concrete data. -/

/-- `Host: a:1`. -/
def ofHost : HeaderLine :=
  .of kHost (ascii "a:1") (by decide) (by decide) (by decide)

/-- `Host: ` and a value. -/
def ofHostValue (value : Bytes) (hvalue : value.all headerValueTraits = true) : HeaderLine :=
  .of kHost value (by decide) (by decide) hvalue

/-- `Content-Length: ` and a value. -/
def ofLength (value : Bytes) (hvalue : value.all headerValueTraits = true) : HeaderLine :=
  .of kContentLength value (by decide) (by decide) hvalue

/-- `Transfer-Encoding: chunked`. -/
def ofChunked : HeaderLine :=
  .of kTransferEncoding (ascii "chunked") (by decide) (by decide)
    (by decide)

section Record

variable {T : Type} [IsReqResType T]

open IsReqResType

/-- What reading the line records, when it splits. -/
def record (h : HeaderLine) (d : T) : T :=
  if isHostKey h.key then
    setPort (setHost (addHeader d h.key h.value) h.hostPart) h.portPart
  else addHeader d h.key h.value

/-- What a line leaves in the message: its header, and its host if it has one. -/
theorem fields_record (h : HeaderLine) (d : T) :
    fields (h.record d) =
      { fields d with
        headers := (fields d).headers ++ [h.field]
        host := if isHostKey h.key then h.hostPart else (fields d).host
        port := if isHostKey h.key then h.portPart else (fields d).port } := by
  rw [record]
  split <;> simp [field]

end Record

end HeaderLine

/-- The parts of a host value, and the colon between them. -/
theorem HeaderLine.value_eq_of_splits {h : HeaderLine} (hsplits : h.Splits)
    (hkey : isHostKey h.key = true) :
    h.value = h.hostPart ++ ':'.toUInt8 :: h.portPart ∧ ':'.toUInt8 ∉ h.hostPart := by
  obtain ⟨host, port, hvalue, hhost⟩ := List.eq_append_cons_of_mem (hsplits hkey)
  rw [hostPart, portPart, hvalue, takeWhile_bne_append hhost, dropWhile_bne_append hhost]
  exact ⟨rfl, hhost⟩

section ParseHeader

variable {T : Type} [IsReqResType T]

open IsReqResType

/-- **`ParseHost` splits a value at its first colon.** -/
theorem parseHost_of_colon {value : Bytes} (h : ':'.toUInt8 ∈ value) (d : T) :
    parseHost value d =
      .returned (setPort (setHost d (value.takeWhile fun b => b != ':'.toUInt8))
        (value.dropWhile fun b => b != ':'.toUInt8).tail) := by
  obtain ⟨host, port, rfl, hhost⟩ := List.eq_append_cons_of_mem h
  simp only [parseHost, takeWhile_bne_append hhost, dropWhile_bne_append hhost, between_append,
    List.tail_cons]

/-- **`ParseHost` throws** on a value without a colon. -/
theorem parseHost_of_no_colon {value : Bytes} (h : ':'.toUInt8 ∉ value) (d : T) :
    parseHost value d = .threw .lengthError := by
  simp only [parseHost, dropWhile_bne_of_notMem h]

/-- The bytes of a key run up to the colon. -/
theorem plain_key {key : Bytes} (h : ∀ b ∈ key, headerKeyTraits b = true) :
    Plain (fun b => b == ':'.toUInt8) (fun b => !headerKeyTraits b) key := fun b hb =>
  ⟨ne_colon_of_headerKeyTraits (h b hb), by simp [h b hb]⟩

/-- The bytes of a value run up to the carriage return. -/
theorem plain_raw {raw : Bytes} (h : ∀ b ∈ raw, headerValueTraits b = true) :
    Plain isCR (fun b => !headerValueTraits b) raw := fun b hb =>
  ⟨not_isCR_of_headerValueTraits (h b hb), by simp [h b hb]⟩

/-- **One round of `ParseHeaders` reads one line**, and looks for the line end behind
it. -/
theorem parseHeader_line (h : HeaderLine) {r : Bytes} (hr : AtStop isCR r) (d : T) :
    parseHeader (h.bytes ++ r) d =
      (if h.Splits then .returned (h.record d) else .threw .lengthError : Outcome T).bind
        fun d' => .returned (some ((isHeadersEnd r).1, (isHeadersEnd r).2, d')) := by
  have hbytes : h.bytes ++ r = h.key ++ ':'.toUInt8 :: (h.ws :: (h.raw ++ r)) := by
    simp [HeaderLine.bytes]
  have hkey : advance (fun b => b == ':'.toUInt8) (fun b => !headerKeyTraits b)
      (h.bytes ++ r) = some (':'.toUInt8 :: (h.ws :: (h.raw ++ r))) :=
    advance_eq_some_iff.mpr ⟨h.key, hbytes, plain_key h.key_valid, by simp⟩
  have hraw : advance isCR (fun b => !headerValueTraits b) (h.raw ++ r) = some r :=
    advance_eq_some_iff.mpr ⟨h.raw, rfl, plain_raw h.raw_valid, hr⟩
  have hne : ¬ (':'.toUInt8 :: (h.ws :: (h.raw ++ r)) = h.bytes ++ r ∨
      ':'.toUInt8 :: (h.ws :: (h.raw ++ r)) = []) := by
    rw [hbytes]
    simp [h.key_ne_nil]
  have hbet : between (h.bytes ++ r) (':'.toUInt8 :: (h.ws :: (h.raw ++ r))) = h.key := by
    rw [hbytes, between_append]
  rw [parseHeader, hkey]
  simp only [if_neg hne, hbet, List.tail_cons, h.ws_space, Bool.not_true, Bool.false_eq_true,
    if_false, hraw, between_append]
  congr 1
  by_cases hk : isHostKey h.key = true
  · by_cases hc : ':'.toUInt8 ∈ h.value
    · have hs : h.Splits := fun _ => hc
      rw [if_pos hk, if_pos hs, HeaderLine.record, if_pos hk]
      exact parseHost_of_colon hc _
    · have hs : ¬ h.Splits := fun hs => hc (hs hk)
      rw [if_pos hk, if_neg hs]
      exact parseHost_of_no_colon hc _
  · have hs : h.Splits := fun h' => absurd h' hk
    rw [if_neg hk, if_pos hs, HeaderLine.record, if_neg hk]
    rfl

/-- **A round of `ParseHeaders` reads a line or fails.** -/
theorem parseHeader_cases (pos : Bytes) (d : T) :
    parseHeader pos d = .returned none ∨
      ∃ (h : HeaderLine) (r : Bytes), pos = h.bytes ++ r ∧ AtStop isCR r := by
  cases hkey : advance (fun b => b == ':'.toUInt8) (fun b => !headerKeyTraits b) pos with
  | none => exact .inl (by rw [parseHeader, hkey])
  | some pos₁ =>
      obtain ⟨key, rfl, hplain, hstop⟩ := advance_eq_some_iff.mp hkey
      by_cases hend : pos₁ = key ++ pos₁ ∨ pos₁ = []
      · exact .inl (by rw [parseHeader, hkey]; simp only [if_pos hend])
      · rcases pos₁ with - | ⟨c, - | ⟨ws, begin⟩⟩
        · exact absurd (.inr rfl) hend
        · exact .inl (by rw [parseHeader, hkey]; simp only [if_neg hend, List.tail_cons])
        · obtain rfl : c = ':'.toUInt8 := by simpa using hstop
          by_cases hws : isSpace ws = true
          · cases hraw : advance isCR (fun b => !headerValueTraits b) begin with
            | none =>
                refine .inl ?_
                rw [parseHeader, hkey]
                simp [hws, hraw]
            | some pos₂ =>
                obtain ⟨raw, rfl, hrawp, hr⟩ := advance_eq_some_iff.mp hraw
                have hne : key ≠ [] := fun e => hend (.inl (by simp [e]))
                exact .inr ⟨⟨key, ws, raw, hne, fun b hb => by simpa using (hplain b hb).2,
                  hws, fun b hb => by simpa using (hrawp b hb).2⟩, pos₂,
                  by simp [HeaderLine.bytes], hr⟩
          · refine .inl ?_
            rw [parseHeader, hkey]
            simp [hws]

end ParseHeader

/-! ### Blocks -/

/-- How the loop of `ParseHeaders` comes to its end: at the empty line, behind the line
end of a header, or at the end of the data inside a value. -/
inductive Ending
  | emptyLine
  | afterLine
  | inValue
  deriving DecidableEq, Repr

/-- What stands behind the last value. -/
def Ending.bytes : Ending → Bytes
  | .emptyLine => crlfcrlf
  | .afterLine => crlf
  | .inValue => []

/-- A line ends at the end of its block. -/
theorem Ending.atStop_append {e : Ending} {r : Bytes} (h : e = .emptyLine ∨ r = []) :
    AtStop isCR (e.bytes ++ r) := by
  cases e with
  | emptyLine => simp [Ending.bytes, crlfcrlf, crlf, isCR]
  | afterLine => simp [Ending.bytes, crlf, isCR]
  | inValue => simp [Ending.bytes, h.resolve_left (by decide)]

/-- Header lines with line ends between them. -/
def joinLines : HeaderLine → List HeaderLine → Bytes
  | h, [] => h.bytes
  | h, h' :: hs => h.bytes ++ crlf ++ joinLines h' hs

/-- A header block, taken apart. -/
structure HeaderBlock where
  first : HeaderLine
  others : List HeaderLine
  ending : Ending

namespace HeaderBlock

/-- The lines of the block, in order. -/
def lines (B : HeaderBlock) : List HeaderLine :=
  B.first :: B.others

/-- The bytes of the block. -/
def bytes (B : HeaderBlock) : Bytes :=
  joinLines B.first B.others ++ B.ending.bytes

/-- The pairs on record. -/
def fields (B : HeaderBlock) : CamilleHeaders :=
  B.lines.map HeaderLine.field

/-- The values on record under a key. -/
def values (B : HeaderBlock) (key : Bytes) : List Bytes :=
  valuesOf B.fields key

/-- Every line can be recorded. -/
def Splits (B : HeaderBlock) : Prop :=
  ∀ h ∈ B.lines, h.Splits

/-- Whether every host has its colon can be computed. -/
instance (B : HeaderBlock) : Decidable B.Splits :=
  inferInstanceAs (Decidable (∀ h ∈ B.lines, h.Splits))

/-- What may follow the block: anything behind an empty line, nothing otherwise. -/
def Fits (B : HeaderBlock) (rest : Bytes) : Prop :=
  B.ending = .emptyLine ∨ rest = []

end HeaderBlock

/-- Some line behind well-formed ones has a host key and a value without a colon, and
the value is over. -/
def HostThrows (pos : Bytes) : Prop :=
  ∃ (hs : List HeaderLine) (h : HeaderLine) (r : Bytes),
    pos = hs.flatMap (fun h => h.bytes ++ crlf) ++ (h.bytes ++ r) ∧
      (∀ h ∈ hs, h.Splits) ∧ ¬ h.Splits ∧ AtStop isCR r

/-- Where a host throws, there is a line. -/
theorem HostThrows.ne_nil {pos : Bytes} (h : HostThrows pos) : pos ≠ [] := by
  obtain ⟨hs, h, r, rfl, -⟩ := h
  simp [h.bytes_ne_nil]

/-- At the end of the data the block goes on. -/
@[simp] theorem isHeadersEnd_nil : isHeadersEnd [] = (true, []) := rfl

/-- An empty line ends it. -/
@[simp] theorem isHeadersEnd_crlfcrlf (r : Bytes) :
    isHeadersEnd (crlfcrlf ++ r) = (false, r) := by
  simp [isHeadersEnd, crlfcrlf, crlf, isCR, isLF]

/-- A line end that no empty line follows. -/
theorem isHeadersEnd_crlf {r : Bytes} (h : ∀ b ∈ r.head?, isCR b = false) :
    isHeadersEnd (crlf ++ r) = (true, r) := by
  rcases r with - | ⟨b, - | ⟨c, r⟩⟩
  · simp [isHeadersEnd, crlf, isCR, isLF]
  · simp [isHeadersEnd, crlf, isCR, isLF]
  · have hb : isCR b = false := h b rfl
    simp [isHeadersEnd, crlf, hb]
    simp [isCR, isLF]

/-- A header line does not look like an empty one. -/
theorem head?_bytes_append (h : HeaderLine) (r : Bytes) :
    ∀ b ∈ (h.bytes ++ r).head?, isCR b = false := by
  obtain ⟨k, key, hkey⟩ := List.exists_cons_of_ne_nil h.key_ne_nil
  have hk : isCR k = false := not_isCR_of_headerKeyTraits (h.key_valid k (by simp [hkey]))
  simp [HeaderLine.bytes, hkey, hk]

/-- A block begins with its first line. -/
theorem exists_joinLines (h : HeaderLine) (hs : List HeaderLine) :
    ∃ r, joinLines h hs = h.bytes ++ r := by
  cases hs with
  | nil => exact ⟨[], (List.append_nil _).symm⟩
  | cons h' hs => exact ⟨_, List.append_assoc _ _ _⟩

section ParseHeaders

variable {T : Type} [IsReqResType T]

/-- What reading lines that split records. -/
def recordLines (hs : List HeaderLine) (d : T) : T :=
  hs.foldl (fun d h => h.record d) d

/-- The line that decides `Host()` and `Port()`: the last one with a host key. -/
def hostLine (hs : List HeaderLine) : Option HeaderLine :=
  (hs.filter fun h => isHostKey h.key).getLast?

/-- What a message shows after lines were recorded. -/
theorem fields_recordLines (hs : List HeaderLine) (d : T) :
    IsReqResType.fields (recordLines hs d) =
      { IsReqResType.fields d with
        headers := (IsReqResType.fields d).headers ++ hs.map HeaderLine.field
        host := (hostLine hs).elim (IsReqResType.fields d).host HeaderLine.hostPart
        port := (hostLine hs).elim (IsReqResType.fields d).port HeaderLine.portPart } := by
  induction hs generalizing d with
  | nil => simp [recordLines, hostLine]
  | cons h hs ih =>
      rw [recordLines, List.foldl_cons]
      refine (ih (h.record d)).trans ?_
      rw [h.fields_record]
      by_cases hk : isHostKey h.key = true
      · cases hl : (hs.filter fun h => isHostKey h.key).getLast? <;>
          simp [hostLine, hk, hl, List.getLast?_cons]
      · simp [hostLine, hk]

/-- One round of the loop on a well-formed line. -/
theorem parseHeadersLoop_line (rounds : ℕ) (h : HeaderLine) {r : Bytes}
    (hr : AtStop isCR r) (d : T) :
    parseHeadersLoop (rounds + 1) (h.bytes ++ r) d =
      if h.Splits then
        if (isHeadersEnd r).1 then parseHeadersLoop rounds (isHeadersEnd r).2 (h.record d)
        else .returned (some ((isHeadersEnd r).2, h.record d))
      else .threw .lengthError := by
  obtain ⟨b, pos, hpos⟩ := List.exists_cons_of_ne_nil
    (List.append_ne_nil_of_left_ne_nil h.bytes_ne_nil r)
  have hround := parseHeader_line h hr d
  rw [hpos] at hround ⊢
  rw [parseHeadersLoop, hround]
  by_cases hs : h.Splits <;> simp [hs]

/-- The lines of a block, read by enough rounds. -/
theorem parseHeadersLoop_block {rounds : ℕ} (h : HeaderLine) (hs : List HeaderLine)
    (hrounds : hs.length < rounds) (e : Ending) {r : Bytes}
    (hr : e = .emptyLine ∨ r = []) (hsplits : ∀ l ∈ h :: hs, l.Splits) (d : T) :
    parseHeadersLoop rounds (joinLines h hs ++ (e.bytes ++ r)) d =
      .returned (some (r, recordLines (h :: hs) d)) := by
  induction hs generalizing rounds h d with
  | nil =>
      obtain ⟨rounds, rfl⟩ : ∃ n, rounds = n + 1 := ⟨rounds - 1, by omega⟩
      have hsplit : h.Splits := hsplits h (by simp)
      rw [joinLines, parseHeadersLoop_line _ _ (Ending.atStop_append hr), if_pos hsplit]
      cases e with
      | emptyLine => simp [Ending.bytes, recordLines]
      | afterLine =>
          obtain rfl : r = [] := hr.resolve_left (by decide)
          rw [Ending.bytes, isHeadersEnd_crlf (by simp)]
          cases rounds <;> simp [parseHeadersLoop, recordLines]
      | inValue =>
          obtain rfl : r = [] := hr.resolve_left (by decide)
          cases rounds <;> simp [Ending.bytes, parseHeadersLoop, recordLines]
  | cons h' hs ih =>
      obtain ⟨rounds, rfl⟩ : ∃ n, rounds = n + 1 := ⟨rounds - 1, by omega⟩
      have hsplit : h.Splits := hsplits h (by simp)
      obtain ⟨r', hr'⟩ := exists_joinLines h' hs
      have hcr : ∀ b ∈ (joinLines h' hs ++ (e.bytes ++ r)).head?, isCR b = false := by
        rw [hr', List.append_assoc]
        exact head?_bytes_append h' _
      have hbytes : joinLines h (h' :: hs) ++ (e.bytes ++ r) =
          h.bytes ++ (crlf ++ (joinLines h' hs ++ (e.bytes ++ r))) := by
        simp [joinLines]
      rw [hbytes, parseHeadersLoop_line _ _ (by simp [crlf, isCR]), if_pos hsplit,
        isHeadersEnd_crlf hcr, if_pos rfl]
      exact ih h' (by simpa using hrounds) (fun l hl => hsplits l (by simp [hl])) _

/-- The loop throws at the first line that does not split. -/
theorem parseHeadersLoop_hostThrows {rounds : ℕ} (hs : List HeaderLine) (h : HeaderLine)
    (hrounds : hs.length < rounds) {r : Bytes} (hsplits : ∀ l ∈ hs, l.Splits)
    (hthrow : ¬ h.Splits) (hr : AtStop isCR r) (d : T) :
    parseHeadersLoop rounds (hs.flatMap (fun h => h.bytes ++ crlf) ++ (h.bytes ++ r)) d =
      .threw .lengthError := by
  induction hs generalizing rounds d with
  | nil =>
      obtain ⟨rounds, rfl⟩ : ∃ n, rounds = n + 1 := ⟨rounds - 1, by omega⟩
      rw [List.flatMap_nil, List.nil_append, parseHeadersLoop_line _ _ hr, if_neg hthrow]
  | cons h' hs ih =>
      obtain ⟨rounds, rfl⟩ : ∃ n, rounds = n + 1 := ⟨rounds - 1, by omega⟩
      have hsplit : h'.Splits := hsplits h' (by simp)
      have hcr : ∀ b ∈ (hs.flatMap (fun h => h.bytes ++ crlf) ++ (h.bytes ++ r)).head?,
          isCR b = false := by
        cases hs with
        | nil => exact head?_bytes_append h r
        | cons h'' hs =>
            rw [List.flatMap_cons, List.append_assoc, List.append_assoc]
            exact head?_bytes_append h'' _
      rw [List.flatMap_cons, List.append_assoc, List.append_assoc,
        parseHeadersLoop_line _ _ (by simp [crlf, isCR]), if_pos hsplit,
        isHeadersEnd_crlf hcr, if_pos rfl]
      exact ih (by simpa using hrounds) (fun l hl => hsplits l (by simp [hl])) _

/-- There are fewer lines behind the first than bytes. -/
theorem length_lt_joinLines (h : HeaderLine) (hs : List HeaderLine) :
    hs.length < (joinLines h hs).length := by
  induction hs generalizing h with
  | nil => simpa [joinLines, List.length_pos_iff] using h.bytes_ne_nil
  | cons h' hs ih =>
      have := ih h'
      simp only [joinLines, List.length_append, List.length_cons]
      have : 0 < h.bytes.length := List.length_pos_iff.mpr h.bytes_ne_nil
      omega

/-- There are not more lines than bytes. -/
theorem length_le_flatMap (hs : List HeaderLine) :
    hs.length ≤ (hs.flatMap fun h => h.bytes ++ crlf).length := by
  induction hs with
  | nil => simp
  | cons h hs ih =>
      simp only [List.flatMap_cons, List.length_append, List.length_cons, crlf] at ih ⊢
      omega

/-- A block is not empty. -/
theorem HeaderBlock.bytes_append_ne_nil (B : HeaderBlock) (rest : Bytes) :
    B.bytes ++ rest ≠ [] := by
  have hlen := length_lt_joinLines B.first B.others
  refine List.ne_nil_of_length_pos ?_
  simp only [HeaderBlock.bytes, List.length_append]
  omega

/-- **`ParseHeaders` reads a header block** whose lines split, and records them. -/
theorem parseHeaders_block {B : HeaderBlock} (hB : B.Splits) {rest : Bytes}
    (hrest : B.Fits rest) (d : T) :
    parseHeaders (B.bytes ++ rest) d = .returned (some (rest, recordLines B.lines d)) := by
  have hlen := length_lt_joinLines B.first B.others
  rw [parseHeaders, HeaderBlock.bytes, List.append_assoc]
  exact parseHeadersLoop_block _ _ (by simp only [List.length_append]; omega) _ hrest hB d

/-- **`ParseHeaders` throws** at a line that does not split. -/
theorem parseHeaders_hostThrows {pos : Bytes} (h : HostThrows pos) (d : T) :
    parseHeaders pos d = .threw .lengthError := by
  obtain ⟨hs, h, r, rfl, hsplits, hthrow, hr⟩ := h
  have hlen := length_le_flatMap hs
  have hpos : 0 < h.bytes.length := List.length_pos_iff.mpr h.bytes_ne_nil
  exact parseHeadersLoop_hostThrows _ _ (by simp only [List.length_append]; omega) hsplits
    hthrow hr d

/-- One more line in front of a block that can be read. -/
theorem exists_block_cons {h : HeaderLine} (hsplit : h.Splits) {pos : Bytes}
    (hpos : ∃ (B : HeaderBlock) (rest : Bytes), pos = B.bytes ++ rest ∧ B.Fits rest ∧ B.Splits) :
    ∃ (B : HeaderBlock) (rest : Bytes),
      h.bytes ++ (crlf ++ pos) = B.bytes ++ rest ∧ B.Fits rest ∧ B.Splits := by
  obtain ⟨B, rest, rfl, hfits, hB⟩ := hpos
  refine ⟨⟨h, B.lines, B.ending⟩, rest, by simp [HeaderBlock.bytes, HeaderBlock.lines, joinLines],
    hfits, ?_⟩
  intro l hl
  rcases List.mem_cons.mp hl with rfl | hl
  · exact hsplit
  · exact hB l hl

/-- A block of one line. -/
theorem exists_block_single {h : HeaderLine} (hsplit : h.Splits) (e : Ending) {rest : Bytes}
    (hrest : e = .emptyLine ∨ rest = []) :
    ∃ (B : HeaderBlock) (rest' : Bytes),
      h.bytes ++ (e.bytes ++ rest) = B.bytes ++ rest' ∧ B.Fits rest' ∧ B.Splits := by
  refine ⟨⟨h, [], e⟩, rest, by simp [HeaderBlock.bytes, joinLines], hrest, ?_⟩
  intro l hl
  obtain rfl : l = h := by simpa [HeaderBlock.lines] using hl
  exact hsplit

/-- A host that throws may stand behind any lines that do not. -/
theorem HostThrows.cons {h : HeaderLine} (hsplit : h.Splits) {pos : Bytes}
    (hpos : HostThrows pos) : HostThrows (h.bytes ++ (crlf ++ pos)) := by
  obtain ⟨hs, l, r, rfl, hsplits, hthrow, hr⟩ := hpos
  refine ⟨h :: hs, l, r, by simp, ?_, hthrow, hr⟩
  intro l' hl
  rcases List.mem_cons.mp hl with rfl | hl
  · exact hsplit
  · exact hsplits l' hl

/-- **A block with a line that does not split throws.** -/
theorem hostThrows_joinLines (h : HeaderLine) (hs : List HeaderLine)
    (hbad : ∃ l ∈ h :: hs, ¬ l.Splits) {r : Bytes} (hr : AtStop isCR r) :
    HostThrows (joinLines h hs ++ r) := by
  induction hs generalizing h with
  | nil =>
      obtain ⟨l, hl, hthrow⟩ := hbad
      obtain rfl : l = h := by simpa using hl
      exact ⟨[], l, r, rfl, by simp, hthrow, hr⟩
  | cons h' hs ih =>
      have hbytes : joinLines h (h' :: hs) ++ r =
          h.bytes ++ (crlf ++ (joinLines h' hs ++ r)) := by
        simp [joinLines]
      rw [hbytes]
      by_cases hsplit : h.Splits
      · obtain ⟨l, hl, hthrow⟩ := hbad
        have hl' : l ∈ h' :: hs :=
          (List.mem_cons.mp hl).resolve_left fun e => hthrow (e ▸ hsplit)
        exact (ih h' ⟨l, hl', hthrow⟩).cons hsplit
      · exact ⟨[], h, _, rfl, by simp, hsplit, by simp [crlf, isCR]⟩

/-- A block with a host that does not split throws. -/
theorem HeaderBlock.hostThrows {B : HeaderBlock} (hB : ¬ B.Splits) {rest : Bytes}
    (hfits : B.Fits rest) : HostThrows (B.bytes ++ rest) := by
  rw [HeaderBlock.bytes, List.append_assoc]
  have hbad : ∃ l ∈ B.lines, ¬ l.Splits := by
    simpa only [HeaderBlock.Splits, not_forall, exists_prop] using hB
  exact hostThrows_joinLines B.first B.others hbad (Ending.atStop_append hfits)

/-- What may stand behind a value: nothing, a carriage return that starts no line end, a
line end and the end of the data, an empty line, or another line. -/
theorem isHeadersEnd_cases {r : Bytes} (hr : AtStop isCR r) :
    r = [] ∨ (∃ r', r = 0x0D :: r' ∧ isHeadersEnd r = (true, r)) ∨ r = crlf ∨
      (∃ rest, r = crlfcrlf ++ rest) ∨
      ∃ pos, pos ≠ [] ∧ r = crlf ++ pos ∧ isHeadersEnd r = (true, pos) := by
  rcases r with - | ⟨c, - | ⟨c', pos⟩⟩
  · exact .inl rfl
  · obtain rfl : c = 0x0D := by simpa [isCR] using hr
    exact .inr (.inl ⟨[], rfl, rfl⟩)
  · obtain rfl : c = 0x0D := by simpa [isCR] using hr
    by_cases hlf : c' = 0x0A
    · subst hlf
      rcases pos with - | ⟨b, - | ⟨b', rest⟩⟩
      · exact .inr (.inr (.inl rfl))
      · exact .inr (.inr (.inr (.inr ⟨[b], by simp, rfl, by simp [isHeadersEnd, isCR, isLF]⟩)))
      · by_cases hb : b = 0x0D ∧ b' = 0x0A
        · obtain ⟨rfl, rfl⟩ := hb
          exact .inr (.inr (.inr (.inl ⟨rest, rfl⟩)))
        · refine .inr (.inr (.inr (.inr ⟨b :: b' :: rest, by simp, rfl, ?_⟩)))
          have hb : (isCR b && isLF b') = false := by simpa [isCR, isLF] using hb
          simp [isHeadersEnd, isCR_cr, isLF_lf, hb]
    · exact .inr (.inl ⟨c' :: pos, rfl, by simp [isHeadersEnd, isLF, hlf]⟩)

/-- A carriage return that starts no line end is refused. -/
theorem parseHeadersLoop_cr (rounds : ℕ) (r : Bytes) (d : T) :
    parseHeadersLoop rounds (0x0D :: r) d = .returned none := by
  cases rounds with
  | zero => rfl
  | succ rounds =>
      rcases parseHeader_cases (0x0D :: r) d with hnone | ⟨h, r', he, -⟩
      · rw [parseHeadersLoop, hnone]
        rfl
      · have := head?_bytes_append h r' 0x0D (by simp [← he])
        exact absurd this (by decide)

/-- The loop, given enough rounds, reads a block, throws, or refuses. -/
theorem headersLoop_cases (rounds : ℕ) (pos : Bytes) (hpos : pos ≠ [])
    (hlen : pos.length ≤ rounds) :
    (∃ (B : HeaderBlock) (rest : Bytes), pos = B.bytes ++ rest ∧ B.Fits rest ∧ B.Splits) ∨
      HostThrows pos ∨ ∀ d : T, parseHeadersLoop rounds pos d = .returned none := by
  induction rounds generalizing pos with
  | zero => exact absurd (List.eq_nil_of_length_eq_zero (by omega)) hpos
  | succ rounds ih =>
      by_cases hline : ∃ (h : HeaderLine) (r : Bytes), pos = h.bytes ++ r ∧ AtStop isCR r
      swap
      · refine .inr (.inr ?_)
        intro d
        have hnone := (parseHeader_cases pos d).resolve_right hline
        obtain ⟨b, pos, rfl⟩ := List.exists_cons_of_ne_nil hpos
        rw [parseHeadersLoop, hnone]
        rfl
      obtain ⟨h, r, rfl, hr⟩ := hline
      by_cases hsplit : h.Splits
      swap
      · exact .inr (.inl ⟨[], h, r, rfl, by simp, hsplit, hr⟩)
      rcases isHeadersEnd_cases hr with
        rfl | ⟨r', rfl, hend⟩ | rfl | ⟨rest, rfl⟩ | ⟨next, hne, rfl, hend⟩
      · exact .inl (exists_block_single hsplit .inValue (.inr rfl))
      · refine .inr (.inr ?_)
        intro d
        rw [parseHeadersLoop_line _ _ hr, if_pos hsplit, hend, if_pos rfl]
        exact parseHeadersLoop_cr _ _ _
      · exact .inl (exists_block_single hsplit .afterLine (Or.inr (rfl : ([] : Bytes) = [])))
      · exact .inl (exists_block_single hsplit .emptyLine (.inl rfl))
      · have hshort : next.length ≤ rounds := by
          have : 0 < h.bytes.length := List.length_pos_iff.mpr h.bytes_ne_nil
          simp only [List.length_append, crlf, List.length_cons] at hlen
          omega
        rcases ih next hne hshort with hblock | hthrow | hnone
        · exact .inl (exists_block_cons hsplit hblock)
        · exact .inr (.inl (hthrow.cons hsplit))
        · refine .inr (.inr ?_)
          intro d
          rw [parseHeadersLoop_line _ _ hr, if_pos hsplit, hend, if_pos rfl]
          exact hnone _

/-- **What `ParseHeaders` makes of its data**: a header block and more, a line that
throws, or a refusal. -/
theorem headers_cases (pos : Bytes) (hpos : pos ≠ []) :
    (∃ (B : HeaderBlock) (rest : Bytes), pos = B.bytes ++ rest ∧ B.Fits rest ∧ B.Splits) ∨
      HostThrows pos ∨ ∀ d : T, parseHeaders pos d = .returned none :=
  headersLoop_cases pos.length pos hpos le_rfl

/-- Every header that is recorded took at least a byte. -/
theorem headers_add_length_le {pos pos' : Bytes} {d d' : T}
    (h : parseHeaders pos d = .returned (some (pos', d'))) :
    (IsReqResType.fields d').headers.length + pos'.length ≤
      (IsReqResType.fields d).headers.length + pos.length := by
  by_cases hpos : pos = []
  · subst hpos
    obtain ⟨rfl, rfl⟩ := Prod.mk.inj (Option.some.inj (Outcome.returned.inj h))
    exact le_rfl
  rcases headers_cases (T := T) pos hpos with ⟨B, rest, rfl, hfits, hsplits⟩ | hthrow | hnone
  · rw [parseHeaders_block hsplits hfits] at h
    obtain ⟨rfl, rfl⟩ := Prod.mk.inj (Option.some.inj (Outcome.returned.inj h))
    have hlines := length_lt_joinLines B.first B.others
    rw [fields_recordLines]
    simp only [HeaderBlock.bytes, HeaderBlock.lines, List.length_append, List.length_map,
      List.length_cons]
    omega
  · rw [parseHeaders_hostThrows hthrow] at h
    cases h
  · rw [hnone] at h
    cases h

end ParseHeaders

end Camille
