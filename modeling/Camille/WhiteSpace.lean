import Camille.Framing
import Camille.RoundTrip

/-!
# White Space around Header Values

A header value on the wire may have white space on both sides. Behind it `ParseHeaders`
trims any amount; before it one byte is required and no more is dropped, so that a second
one becomes part of the value on record.

## Main results

* `PaddedHeader.read_iff`: when a padded value is read back as the value.
* `parseHeaders_padded_iff`: when a padded header block is read back as its headers.
-/

open Lib

namespace Camille

/-- A header with white space around its value. -/
structure PaddedHeader where
  key : Bytes
  left : Bytes
  value : Bytes
  right : Bytes
  key_ne_nil : key ≠ []
  key_valid : ∀ b ∈ key, headerKeyTraits b = true
  left_space : ∀ b ∈ left, isSpace b = true
  right_space : ∀ b ∈ right, isSpace b = true
  head_trimmed : ∀ b ∈ value.head?, isSpace b = false
  last_trimmed : ∀ b ∈ value.getLast?, isSpace b = false

namespace PaddedHeader

/-- What stands behind the colon. -/
def padded (h : PaddedHeader) : Bytes :=
  h.left ++ (h.value ++ h.right)

/-- The header line, without its line end. -/
def line (h : PaddedHeader) : Bytes :=
  h.key ++ ':'.toUInt8 :: h.padded

/-- The pair the line stands for. -/
def field (h : PaddedHeader) : Bytes × Bytes :=
  (h.key, h.value)

/-- The white space that is read away: one byte before a value, and at least one on some
side when there is none. -/
def Spaced (h : PaddedHeader) : Prop :=
  (h.value ≠ [] → h.left.length = 1) ∧ (h.value = [] → h.left ++ h.right ≠ [])

/-- White space at the end is trimmed. -/
theorem rdropWhile_append_space {x y : Bytes} (hy : ∀ b ∈ y, isSpace b = true)
    (hx : ∀ b ∈ x.getLast?, isSpace b = false) : (x ++ y).rdropWhile isSpace = x := by
  have hself : x.rdropWhile isSpace = x := by
    refine List.rdropWhile_eq_self_iff.2 fun hne => ?_
    rw [hx _ (List.getLast?_eq_some_getLast hne)]
    exact Bool.false_ne_true
  have hreverse : ∀ b ∈ y.reverse, isSpace b = true := fun b hb => hy b (List.mem_reverse.1 hb)
  rw [List.rdropWhile, List.reverse_append, List.dropWhile_append_of_pos hreverse]
  exact hself

/-- White space is made of field bytes. -/
theorem headerValueTraits_of_isSpace {b : UInt8} (hb : isSpace b = true) :
    headerValueTraits b = true := by
  have hall : ∀ b : UInt8, isSpace b = true → headerValueTraits b = true := by decide +kernel
  exact hall b hb

/-- A value that is read back was spaced. -/
theorem spaced_of_read (h : PaddedHeader) {ws : UInt8} {raw : Bytes}
    (hpadded : h.padded = ws :: raw) (hws : isSpace ws = true)
    (htrim : raw.rdropWhile isSpace = h.value) : h.Spaced := by
  refine ⟨fun hv => ?_, fun hv hnil => ?_⟩
  · cases hl : h.left with
    | nil =>
        -- the value would begin with the white space
        obtain ⟨b, value, hvalue⟩ := List.exists_cons_of_ne_nil hv
        have hb := h.head_trimmed b (by rw [hvalue]; rfl)
        rw [padded, hl, hvalue] at hpadded
        obtain ⟨rfl, -⟩ := List.cons.inj hpadded
        rw [hws] at hb
        cases hb
    | cons c left =>
        rw [padded, hl] at hpadded
        obtain ⟨-, rfl⟩ := List.cons.inj hpadded
        have hlast : ∀ b ∈ (left ++ h.value).getLast?, isSpace b = false := by
          intro b hb
          rw [List.getLast?_append_of_ne_nil _ hv] at hb
          exact h.last_trimmed b hb
        rw [List.append_eq, ← List.append_assoc,
          rdropWhile_append_space h.right_space hlast] at htrim
        rw [List.append_left_eq_self.1 htrim]
        rfl
  · rw [padded, hv, List.nil_append, hnil] at hpadded
    cases hpadded

/-- A value that is spaced is read back. -/
theorem Spaced.read {h : PaddedHeader} (hs : h.Spaced) :
    ∃ ws raw, h.padded = ws :: raw ∧ isSpace ws = true ∧ raw.rdropWhile isSpace = h.value := by
  obtain ⟨hone, hsome⟩ := hs
  by_cases hv : h.value = []
  · obtain ⟨ws, raw, hcons⟩ := List.exists_cons_of_ne_nil (hsome hv)
    have hspace : ∀ b ∈ ws :: raw, isSpace b = true := by
      intro b hb
      rw [← hcons] at hb
      exact (List.mem_append.1 hb).elim (h.left_space b) (h.right_space b)
    refine ⟨ws, raw, ?_, hspace ws List.mem_cons_self, ?_⟩
    · rw [padded, hv, List.nil_append, hcons]
    · rw [hv, List.rdropWhile_eq_nil_iff]
      exact fun b hb => hspace b (List.mem_cons_of_mem ws hb)
  · obtain ⟨ws, hws⟩ := List.length_eq_one_iff.1 (hone hv)
    refine ⟨ws, h.value ++ h.right, ?_, h.left_space ws (by rw [hws]; simp), ?_⟩
    · rw [padded, hws]
      rfl
    · exact rdropWhile_append_space h.right_space h.last_trimmed

/-- **A padded value is read back** when the white space is as `ParseHeaders` wants it. -/
theorem read_iff (h : PaddedHeader) :
    (∃ ws raw, h.padded = ws :: raw ∧ isSpace ws = true ∧ raw.rdropWhile isSpace = h.value) ↔
      h.Spaced := by
  constructor
  · rintro ⟨ws, raw, hpadded, hws, htrim⟩
    exact h.spaced_of_read hpadded hws htrim
  · exact Spaced.read

/-- The line is one that `ParseHeaders` reads back: field bytes, a colon for a host, and
the white space it wants. -/
structure Plain (h : PaddedHeader) : Prop where
  value_valid : ∀ b ∈ h.value, headerValueTraits b = true
  splits : isHostKey h.key = true → ':'.toUInt8 ∈ h.value
  spaced : h.Spaced

/-- **The line of a plain header** is a header line of the parser, and no other header has
one that records it. -/
theorem exists_line_iff (h : PaddedHeader) :
    (∃ l : HeaderLine, l.bytes = h.line ∧ l.field = h.field ∧ l.Splits) ↔ h.Plain := by
  constructor
  · rintro ⟨l, hbytes, hfield, hsplits⟩
    obtain ⟨hkey, hvalue⟩ := Prod.mk.inj hfield
    have hpadded : h.padded = l.ws :: l.raw := by
      rw [HeaderLine.bytes, line, hkey] at hbytes
      exact (List.cons.inj (List.append_cancel_left hbytes)).2.symm
    have hvalid : ∀ b ∈ h.value, headerValueTraits b = true := by
      intro b hb
      rw [← hvalue] at hb
      exact l.raw_valid b ((List.rdropWhile_prefix isSpace l.raw).subset hb)
    exact ⟨hvalid, fun hk => hvalue ▸ hsplits (hkey ▸ hk),
      h.read_iff.1 ⟨l.ws, l.raw, hpadded, l.ws_space, hvalue⟩⟩
  · rintro ⟨hvalid, hsplits, hspaced⟩
    obtain ⟨ws, raw, hpadded, hws, htrim⟩ := h.read_iff.2 hspaced
    have hraw : ∀ b ∈ raw, headerValueTraits b = true := by
      intro b hb
      have hb : b ∈ h.padded := hpadded ▸ List.mem_cons_of_mem ws hb
      rcases List.mem_append.1 hb with hb | hb
      · exact headerValueTraits_of_isSpace (h.left_space b hb)
      rcases List.mem_append.1 hb with hb | hb
      · exact hvalid b hb
      · exact headerValueTraits_of_isSpace (h.right_space b hb)
    let l : HeaderLine := ⟨h.key, ws, raw, h.key_ne_nil, h.key_valid, hws, hraw⟩
    refine ⟨l, ?_, Prod.ext rfl htrim, fun hk => ?_⟩
    · rw [HeaderLine.bytes, line, hpadded]
    · have hvalue : l.value = h.value := htrim
      rw [hvalue]
      exact hsplits hk

/-- The line holds no carriage return. -/
theorem not_cr_mem_line {h : PaddedHeader} (hvalid : ∀ b ∈ h.value, headerValueTraits b = true) :
    (0x0D : UInt8) ∉ h.line := by
  intro hmem
  have hspace : isSpace 0x0D = true → False := by
    rw [isSpace_cr]
    exact Bool.false_ne_true
  simp only [line, padded, List.mem_append, List.mem_cons] at hmem
  rcases hmem with hk | hc | hl | hv | hr
  · exact absurd isCR_cr (by simp [not_isCR_of_headerKeyTraits (h.key_valid _ hk)])
  · exact absurd hc (by decide)
  · exact hspace (h.left_space _ hl)
  · exact absurd isCR_cr (by simp [not_isCR_of_headerValueTraits (hvalid _ hv)])
  · exact hspace (h.right_space _ hr)

/-- A block of padded headers. -/
def block (hs : List PaddedHeader) : Bytes :=
  hs.flatMap (fun h => h.line ++ crlf) ++ crlf

/-- The line structure of the block. -/
theorem takeWhile_splitLines_block {hs : List PaddedHeader}
    (hvalid : ∀ h ∈ hs, ∀ b ∈ h.value, headerValueTraits b = true) :
    (splitLines 0x0D 0x0A (block hs)).takeWhile (fun line => line ≠ []) = hs.map line := by
  induction hs with
  | nil => decide
  | cons h hs ih =>
      have hcr := not_cr_mem_line (hvalid h List.mem_cons_self)
      have hne : h.line ≠ [] := by simp [line]
      have hbytes : block (h :: hs) = h.line ++ 0x0D :: 0x0A :: block hs := by
        simp [block, crlf]
      rw [hbytes, splitLines_append hcr, List.takeWhile_cons_of_pos (by simpa using hne),
        ih fun h' hm => hvalid h' (List.mem_cons_of_mem h hm), List.map_cons]

/-- **The lines of plain headers.** -/
theorem exists_lines {hs : List PaddedHeader} (hplain : ∀ h ∈ hs, h.Plain) :
    ∃ ls : List HeaderLine, ls.flatMap (fun l => l.bytes ++ crlf) =
        hs.flatMap (fun h => h.line ++ crlf) ∧
      ls.map HeaderLine.field = hs.map field ∧ ∀ l ∈ ls, l.Splits := by
  induction hs with
  | nil => exact ⟨[], rfl, rfl, fun _ h => absurd h List.not_mem_nil⟩
  | cons h hs ih =>
      obtain ⟨ls, hbytes, hfields, hsplits⟩ :=
        ih fun h' hm => hplain h' (List.mem_cons_of_mem h hm)
      obtain ⟨l, hline, hfield, hsplit⟩ :=
        h.exists_line_iff.2 (hplain h List.mem_cons_self)
      refine ⟨l :: ls, ?_, ?_, List.forall_mem_cons.2 ⟨hsplit, hsplits⟩⟩
      · rw [List.flatMap_cons, List.flatMap_cons, hline, hbytes]
      · rw [List.map_cons, List.map_cons, hfield, hfields]

/-- The lines of a block that is read back are plain. -/
theorem plain_of_block {hs : List PaddedHeader} {B : HeaderBlock} {rest : Bytes}
    (hbytes : block hs = B.bytes ++ rest) (hfits : B.Fits rest) (hsplits : B.Splits)
    (hfields : B.fields = hs.map field) : ∀ h ∈ hs, h.Plain := by
  have hvalid : ∀ h ∈ hs, ∀ b ∈ h.value, headerValueTraits b = true := by
    intro h hm b hb
    have hmem : h.field ∈ B.fields := hfields ▸ List.mem_map_of_mem hm
    obtain ⟨l, -, hl⟩ := List.mem_map.1 hmem
    have hvalue : l.value = h.value := (Prod.mk.inj hl).2
    rw [← hvalue] at hb
    exact l.raw_valid b ((List.rdropWhile_prefix isSpace l.raw).subset hb)
  have hlines : B.lines.map HeaderLine.bytes = hs.map line := by
    have hsplit := takeWhile_splitLines_joinLines B.first B.others B.ending hfits
    rw [← takeWhile_splitLines_block hvalid, hbytes, HeaderBlock.bytes, List.append_assoc]
    exact hsplit.symm
  have hpairs : B.lines.map (fun l => (l.bytes, l.field)) =
      hs.map fun h => (h.line, h.field) := by
    have hzip := congrArg₂ List.zip hlines hfields
    rwa [HeaderBlock.fields, List.zip_map', List.zip_map'] at hzip
  intro h hm
  have hmem : (h.line, h.field) ∈ B.lines.map fun l => (l.bytes, l.field) := by
    rw [hpairs]
    exact List.mem_map.2 ⟨h, hm, rfl⟩
  obtain ⟨l, hl, he⟩ := List.mem_map.1 hmem
  obtain ⟨hline, hfield⟩ := Prod.mk.inj he
  exact h.exists_line_iff.1 ⟨l, hline, hfield, hsplits l hl⟩

section Parse

variable {T : Type} [IsReqResType T]

open IsReqResType

/-- **Padded headers are read back** exactly when there is one, and every line of them is
plain. -/
theorem parseHeaders_padded_iff (hs : List PaddedHeader) (d : T) :
    (∃ rest d', parseHeaders (block hs) d = .returned (some (rest, d')) ∧
      (fields d').headers = (fields d).headers ++ hs.map field) ↔
      hs ≠ [] ∧ ∀ h ∈ hs, h.Plain := by
  constructor
  · rintro ⟨rest, d', hparse, hheaders⟩
    rcases headers_cases (T := T) (block hs) (by simp [block, crlf]) with
      ⟨B, rest', hbytes, hfits, hsplits⟩ | hthrow | hnone
    · have hblock := parseHeaders_block hsplits hfits d
      rw [← hbytes, hparse] at hblock
      obtain ⟨-, rfl⟩ := Prod.mk.inj (Option.some.inj (Outcome.returned.inj hblock))
      rw [fields_recordLines] at hheaders
      have hfields : B.fields = hs.map field := List.append_cancel_left hheaders
      refine ⟨?_, plain_of_block hbytes hfits hsplits hfields⟩
      rintro rfl
      cases hfields
    · rw [parseHeaders_hostThrows hthrow] at hparse
      cases hparse
    · rw [hnone d] at hparse
      cases hparse
  · rintro ⟨hne, hplain⟩
    obtain ⟨ls, hbytes, hfields, hsplits⟩ := exists_lines hplain
    rcases ls with - | ⟨l, ls⟩
    · exact absurd (List.map_eq_nil_iff.1 hfields.symm) hne
    · let B : HeaderBlock := ⟨l, ls, .emptyLine⟩
      have hblock : block hs = B.bytes ++ [] := by
        rw [block, ← hbytes, ← Message.joinLines_append_crlf]
        simp [B, HeaderBlock.bytes, Ending.bytes, crlfcrlf]
      refine ⟨[], recordLines B.lines d, ?_, ?_⟩
      · rw [hblock]
        exact parseHeaders_block (B := B) hsplits (.inl rfl) d
      · rw [fields_recordLines]
        exact congrArg _ hfields

end Parse

/-- `Host:  a:1 `, with two blanks before the value and one behind it. -/
def spacedHost : PaddedHeader where
  key := kHost
  left := [' '.toUInt8, ' '.toUInt8]
  value := ascii "a:1"
  right := [' '.toUInt8]
  key_ne_nil := HeaderLine.ofHost.key_ne_nil
  key_valid := HeaderLine.ofHost.key_valid
  left_space := by simp [isSpace_blank]
  right_space := by simp [isSpace_blank]
  head_trimmed := by
    intro b hb
    obtain rfl : 97 = b := Option.some.inj hb
    decide
  last_trimmed := by
    intro b hb
    obtain rfl : 49 = b := Option.some.inj hb
    decide

/-- Of the white space before the value all but one byte is put on record. -/
theorem not_parseHeaders_padded :
    ¬ ∀ (hs : List PaddedHeader) (d : Request), ∃ rest d',
      parseHeaders (block hs) d = .returned (some (rest, d')) ∧
        (IsReqResType.fields d').headers =
          (IsReqResType.fields d).headers ++ hs.map field := by
  intro h
  obtain ⟨rest, d', hparse, hheaders⟩ := h [spacedHost] {}
  have hread : parseHeaders (block [spacedHost]) ({} : Request) = .returned (some ([],
      { host := ascii " a", port := ascii "1", headers := [(kHost, ascii " a:1")] })) := by
    decide
  obtain ⟨-, rfl⟩ := Prod.mk.inj
    (Option.some.inj (Outcome.returned.inj (hread.symm.trans hparse)))
  exact absurd hheaders (by decide)

end PaddedHeader

end Camille
