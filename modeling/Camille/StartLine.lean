import Camille.Parser

/-!
# The Start Line

What `ParseMethod`, `ParseUri` and `ParseVersion` accept, as a grammar: a `StartLine` is
a method name, a path, a version string and the two white-space bytes between them, with
the proofs that they are well formed. `StartLine.ahead s` is the part of the line that a
parser in state `s` has still to read, so that resumed calls are covered as well as fresh
ones.

## Main results

* `parseMethod_eq_some_iff`, `parseUri_eq_some_iff`, `parseVersion_eq_some_iff`: each
  token function accepts exactly its token.
* `reaches_startLine`: a start line takes the parser to `kHeaders`.
-/

open Lib

namespace Camille

/-! ### Tokens of the start line -/

/-- A visible ASCII byte. -/
def isVisible (b : UInt8) : Bool :=
  0x21 ≤ b && b ≤ 0x7E

/-- What may follow the slash of a path: visible bytes, with `%` only in front of two
hexadecimal digits. -/
inductive PathTail : Bytes → Prop
  | nil : PathTail []
  | plain {b : UInt8} {t : Bytes} :
      isVisible b = true → b ≠ '%'.toUInt8 → PathTail t → PathTail (b :: t)
  | escape {h₁ h₂ : UInt8} {t : Bytes} :
      isHexDigit h₁ = true → isHexDigit h₂ = true → PathTail t →
      PathTail ('%'.toUInt8 :: h₁ :: h₂ :: t)

/-- A path: a slash and a tail. -/
def IsPath (path : Bytes) : Prop :=
  ∃ t, path = '/'.toUInt8 :: t ∧ PathTail t

/-- The bytes of a version string. -/
def isVersionByte (b : UInt8) : Bool :=
  isDigit b || b == '.'.toUInt8

/-- A start line, taken apart. -/
structure StartLine where
  method : Bytes
  ws₁ : UInt8
  path : Bytes
  ws₂ : UInt8
  version : Bytes
  method_known : methodEnum method ≠ .kUnknown
  ws₁_space : isSpace ws₁ = true
  path_valid : IsPath path
  ws₂_space : isSpace ws₂ = true
  version_valid : ∀ b ∈ version, isVersionByte b = true

namespace StartLine

/-- `GET / HTTP/1.1`. -/
instance : Inhabited StartLine :=
  ⟨{ method := ascii "GET", ws₁ := ' '.toUInt8, path := ascii "/", ws₂ := ' '.toUInt8,
     version := ascii "1.1",
     method_known := by decide
     ws₁_space := isSpace_blank
     path_valid := ⟨[], by decide, .nil⟩
     ws₂_space := isSpace_blank
     version_valid := List.all_eq_true.mp (by decide : (ascii "1.1").all isVersionByte = true) }⟩

/-- What a parser in the given state, at `kVersion` or before, reads of the method and
the path, followed by `tail`. -/
def target (sl : StartLine) (tail : Bytes) : States → Bytes
  | .kReady | .kMethod => sl.method ++ sl.ws₁ :: (sl.path ++ sl.ws₂ :: tail)
  | .kWaitUri => sl.ws₁ :: (sl.path ++ sl.ws₂ :: tail)
  | .kUriStart | .kUri => sl.path ++ sl.ws₂ :: tail
  | .kWaitVersion => sl.ws₂ :: tail
  | _ => tail

/-- What a parser in the given state, at `kHeaders` or before, reads of the line,
followed by `rest`. -/
def ahead (sl : StartLine) (rest : Bytes) : States → Bytes
  | .kHeadersWait => 0x0A :: rest
  | .kHeaders => rest
  | s => sl.target (ascii "HTTP/" ++ (sl.version ++ 0x0D :: 0x0A :: rest)) s

/-- The line, with the line end. -/
def bytes (sl : StartLine) : Bytes :=
  sl.ahead [] .kReady

/-- The line comes before what follows it. -/
theorem ahead_append (sl : StartLine) (x y : Bytes) (s : States) :
    sl.ahead x s ++ y = sl.ahead (x ++ y) s := by
  cases s <;> simp [ahead, target]

/-- A start line that is all there. -/
theorem bytes_append (sl : StartLine) (rest : Bytes) :
    sl.bytes ++ rest = sl.ahead rest .kReady :=
  sl.ahead_append [] rest .kReady

/-- The line, without the line end. -/
def line (sl : StartLine) : Bytes :=
  sl.target (ascii "HTTP/" ++ sl.version) .kReady

/-- It ends in a line end. -/
theorem bytes_eq (sl : StartLine) : sl.bytes = sl.line ++ crlf := by
  simp [bytes, line, ahead, target, crlf]

/-- With something behind it, there is something left in every state. -/
theorem ahead_ne_nil {rest : Bytes} (h : rest ≠ []) (sl : StartLine) (s : States) :
    sl.ahead rest s ≠ [] := by
  cases s <;> simp [ahead, target, h]

section Record

variable {T : Type} [IsReqResType T]

open IsReqResType

/-- What reading method and path from the given state on records. -/
def recordTarget (sl : StartLine) (d : T) : States → T
  | .kReady | .kMethod => setPath (setMethod d sl.method) sl.path
  | .kWaitUri | .kUriStart | .kUri => setPath d sl.path
  | _ => d

/-- What reading the line from the given state on records. -/
def record (sl : StartLine) (d : T) : States → T
  | .kHeadersWait | .kHeaders => d
  | s => setVersion (sl.recordTarget d s) sl.version

/-- The start line leaves the headers of a message alone. -/
@[simp] theorem headers_record (sl : StartLine) (d : T) (s : States) :
    (fields (sl.record d s)).headers = (fields d).headers := by
  cases s <;> simp [record, recordTarget]

end Record

end StartLine

/-! ### What the token functions accept -/

section Tokens

variable {T : Type} [IsReqResType T]

open IsReqResType

/-- The nine names `MethodEnum` knows. -/
def methodNames : List Bytes :=
  [ascii "GET", ascii "POST", ascii "PUT", ascii "DELETE", ascii "PATCH", ascii "HEAD",
   ascii "OPTIONS", ascii "TRACE", ascii "CONNECT"]

/-- A name that is known is one of the nine. -/
theorem mem_methodNames {m : Bytes} (h : methodEnum m ≠ .kUnknown) : m ∈ methodNames := by
  by_contra hno
  simp only [methodNames, List.mem_cons, List.not_mem_nil, or_false, not_or] at hno
  obtain ⟨h₁, h₂, h₃, h₄, h₅, h₆, h₇, h₈, h₉⟩ := hno
  refine h ?_
  rw [methodEnum, if_neg h₁, if_neg h₂, if_neg h₃, if_neg h₄, if_neg h₅, if_neg h₆, if_neg h₇,
    if_neg h₈, if_neg h₉]

/-- The known methods consist of upper-case letters. -/
theorem plain_of_methodEnum {m : Bytes} (h : methodEnum m ≠ .kUnknown) :
    Plain (fun b => isSpace b || isLower b) isControl m := by
  have hall : methodNames.all
      (fun m => m.all fun b => !(isSpace b || isLower b) && !isControl b) = true := by
    decide
  intro b hb
  simpa using List.all_eq_true.mp (List.all_eq_true.mp hall m (mem_methodNames h)) b hb

/-- **`ParseMethod` accepts a known method name** that the end of the data, white space
or a lower-case letter follows. -/
theorem parseMethod_eq_some_iff {pos r : Bytes} {d d' : T} :
    parseMethod pos d = some (r, d') ↔
      ∃ m, pos = m ++ r ∧ methodEnum m ≠ .kUnknown ∧
        AtStop (fun b => isSpace b || isLower b) r ∧ d' = setMethod d m := by
  constructor
  · intro h
    rw [parseMethod] at h
    split at h
    · cases h
    · rename_i pos' hadv
      obtain ⟨m, rfl, hm, hr⟩ := advance_eq_some_iff.mp hadv
      simp only [between_append] at h
      split at h
      · cases h
      · rename_i hk
        obtain ⟨rfl, rfl⟩ := Prod.mk.inj (Option.some.inj h)
        exact ⟨m, rfl, hk, hr, rfl⟩
  · rintro ⟨m, rfl, hm, hr, rfl⟩
    have hadv : advance (fun b => isSpace b || isLower b) isControl (m ++ r) = some r :=
      advance_eq_some_iff.mpr ⟨m, rfl, plain_of_methodEnum hm, hr⟩
    rw [parseMethod, hadv]
    simp only [between_append, if_neg hm]

/-- A URI symbol is an ASCII character. -/
theorem isChar_of_uriTraits {b : UInt8} (h : uriTraits b = true) : isChar b = true :=
  ParserTraits.of_isValid (by decide) h

/-- So is the slash. -/
theorem isChar_of_isSlash {b : UInt8} (h : isSlash b = true) : isChar b = true := by
  obtain rfl := eq_of_beq h
  decide

/-- The three tests of the loop of `ParseUri` come down to one: the byte is visible. The
table of URI symbols plays no part in it. -/
theorem uri_byte_cases : ∀ b : UInt8, isSpace b = false →
    ((isControl b || (!isChar b && !uriTraits b && !isSlash b)) = !isVisible b) := by
  have hvisible : ∀ b : UInt8, isSpace b = false →
      (isControl b || !isChar b) = !isVisible b := by
    decide +kernel
  intro b hs
  -- a byte that is no character is in no table, and no slash
  have htests : (!isChar b && !uriTraits b && !isSlash b) = !isChar b := by
    cases hchar : isChar b with
    | true => rfl
    | false =>
        have huri : uriTraits b = false :=
          Bool.eq_false_iff.mpr fun h => absurd (isChar_of_uriTraits h) (by simp [hchar])
        have hslash : isSlash b = false :=
          Bool.eq_false_iff.mpr fun h => absurd (isChar_of_isSlash h) (by simp [hchar])
        rw [huri, hslash]
        rfl
  rw [htests, hvisible b hs]

/-- The percent sign is visible. -/
theorem isVisible_percent : isVisible '%'.toUInt8 = true := by decide

/-- The bytes a path may hold end no token before it. -/
theorem isVisible_cases {b : UInt8} (h : isVisible b = true) :
    isSpace b = false ∧ isControl b = false ∧
      (!isChar b && !uriTraits b && !isSlash b) = false := by
  have hs : isSpace b = false := by
    rw [Bool.eq_false_iff]
    intro hs
    have hb : b = ' '.toUInt8 ∨ b = '\t'.toUInt8 := by simpa [isSpace] using hs
    rcases hb with rfl | rfl <;> exact absurd h (by decide)
  have := uri_byte_cases b hs
  rw [h] at this
  simp only [Bool.not_true, Bool.or_eq_false_iff] at this
  exact ⟨hs, this⟩

/-- One byte of the loop of `ParseUri`, the tests on it brought together. -/
theorem parseUriLoop_cons (b : UInt8) (pos : Bytes) :
    parseUriLoop (b :: pos) =
      if isSpace b then some (b :: pos)
      else if !isVisible b then none
      else if b = '%'.toUInt8 then
        match pos with
        | h₁ :: h₂ :: pos' =>
          if isHexDigit h₁ && isHexDigit h₂ then parseUriLoop pos' else none
        | _ => none
      else parseUriLoop pos := by
  rw [parseUriLoop.eq_def]
  by_cases hs : isSpace b = true
  · simp [hs]
  · have hv := uri_byte_cases b (by simpa using hs)
    simp only [hs, ← hv]
    cases isControl b <;> cases !isChar b && !uriTraits b && !isSlash b <;> simp
    split
    · rcases pos with - | ⟨h₁, - | ⟨h₂, pos⟩⟩ <;> simp
      cases isHexDigit h₁ <;> cases isHexDigit h₂ <;> simp
    · rfl

/-- The loop of `ParseUri` runs over a path tail. -/
theorem parseUriLoop_append {t : Bytes} (ht : PathTail t) {r : Bytes}
    (hr : AtStop isSpace r) : parseUriLoop (t ++ r) = some r := by
  induction ht with
  | nil =>
      cases r with
      | nil => rfl
      | cons b r => rw [List.nil_append, parseUriLoop_cons, if_pos (atStop_cons.mp hr)]
  | @plain b t hb hp _ ih =>
      have hs := (isVisible_cases hb).1
      simp [parseUriLoop_cons, hs, hb, hp, ih]
  | @escape h₁ h₂ t hh₁ hh₂ _ ih =>
      have hs := (isVisible_cases isVisible_percent).1
      simp [parseUriLoop_cons, hs, isVisible_percent, hh₁, hh₂, ih]

/-- What the loop of `ParseUri` runs over is a path tail. -/
theorem exists_of_parseUriLoop (l : Bytes) {r : Bytes} (h : parseUriLoop l = some r) :
    ∃ t, l = t ++ r ∧ PathTail t ∧ AtStop isSpace r := by
  induction n : l.length using Nat.strong_induction_on generalizing l with
  | _ n ih =>
      cases l with
      | nil =>
          obtain rfl : [] = r := Option.some.inj h
          exact ⟨[], rfl, .nil, by simp⟩
      | cons b pos =>
          subst n
          rw [parseUriLoop_cons] at h
          split at h
          · rename_i hs
            obtain rfl := Option.some.inj h
            exact ⟨[], rfl, .nil, by simpa using hs⟩
          · split at h
            · cases h
            · rename_i hv
              split at h
              · rename_i hp
                -- an escape takes three bytes off the data at once
                split at h
                · rename_i h₁ h₂ pos'
                  split at h
                  · rename_i hh
                    obtain ⟨t, rfl, ht, hr⟩ := ih _ (by simp; omega) pos' h rfl
                    rw [Bool.and_eq_true] at hh
                    exact ⟨b :: h₁ :: h₂ :: t, rfl, hp ▸ .escape hh.1 hh.2 ht, hr⟩
                  · cases h
                · cases h
              · rename_i hp
                obtain ⟨t, rfl, ht, hr⟩ := ih _ (by simp) pos h rfl
                exact ⟨b :: t, rfl, .plain (by simpa using hv) hp ht, hr⟩

/-- **`ParseUri` accepts a path** that the end of the data or white space follows. -/
theorem parseUri_eq_some_iff {pos r : Bytes} {d d' : T} :
    parseUri pos d = .returned (some (r, d')) ↔
      ∃ p, pos = p ++ r ∧ IsPath p ∧ AtStop isSpace r ∧ d' = setPath d p := by
  constructor
  · intro h
    cases pos with
    | nil => cases h
    | cons b pos₁ =>
        simp only [parseUri] at h
        split at h
        · cases h
        · rename_i hb
          split at h
          · cases h
          · rename_i pos₂ hl
            obtain ⟨t, rfl, ht, hr⟩ := exists_of_parseUriLoop pos₁ hl
            have hb : b = '/'.toUInt8 := by simpa [isSlash] using hb
            rw [show between (b :: (t ++ pos₂)) pos₂ = b :: t from
              between_append (b :: t) pos₂] at h
            obtain ⟨rfl, rfl⟩ := Prod.mk.inj (Option.some.inj (Outcome.returned.inj h))
            exact ⟨b :: t, rfl, ⟨t, by rw [hb], ht⟩, hr, rfl⟩
  · rintro ⟨_, rfl, ⟨t, rfl, ht⟩, hr, rfl⟩
    have hs : isSlash '/'.toUInt8 = true := by decide
    have hb := between_append ('/'.toUInt8 :: t) r
    rw [List.cons_append] at hb ⊢
    simp [parseUri, hs, parseUriLoop_append ht hr, hb]

/-- With a byte to read, `ParseUri` returns. -/
theorem parseUri_returned {pos : Bytes} (hp : pos ≠ []) (d : T) :
    ∃ v, parseUri pos d = .returned v := by
  obtain ⟨b, pos, rfl⟩ := List.exists_cons_of_ne_nil hp
  rw [parseUri]
  split
  · exact ⟨_, rfl⟩
  · split <;> exact ⟨_, rfl⟩

/-! ### The version -/

/-- The protocol name is what the first loop of `ParseVersion` runs over. -/
theorem plain_http :
    Plain isSlash (fun b => isControl b || (!isChar b || !isUpper b)) (ascii "HTTP") := by
  have h : (ascii "HTTP").all
      (fun b => !isSlash b && !(isControl b || (!isChar b || !isUpper b))) = true := by
    decide
  intro b hb
  simpa using List.all_eq_true.mp h b hb

/-- The name of the protocol ends at the slash. -/
theorem ascii_http_slash : ascii "HTTP/" = ascii "HTTP" ++ ['/'.toUInt8] := by decide

/-- The bytes of a version string are what its loop runs over. -/
theorem plain_version_iff {v : Bytes} :
    Plain isCR (fun b => isControl b || (!isDigit b && b != '.'.toUInt8)) v ↔
      ∀ b ∈ v, isVersionByte b = true := by
  have h : ∀ b : UInt8, (isCR b = false ∧
      (isControl b || (!isDigit b && b != '.'.toUInt8)) = false) ↔
        isVersionByte b = true := by
    decide +kernel
  exact forall₂_congr fun b _ => h b

/-- The second half of `ParseVersion`, behind the slash. -/
theorem parseVersion_http_slash (begin : Bytes) (d : T) :
    parseVersion (ascii "HTTP/" ++ begin) d =
      match advance isCR (fun b => isControl b || (!isDigit b && b != '.'.toUInt8)) begin with
      | none => .returned none
      | some [] => .returned none
      | some (c :: pos₂) =>
        if isCR c then .returned (some (pos₂, setVersion d (between begin (c :: pos₂))))
        else .returned none := by
  have hs : isSlash '/'.toUInt8 = true := by decide
  have hadv : advance isSlash (fun b => isControl b || (!isChar b || !isUpper b))
      (ascii "HTTP/" ++ begin) = some ('/'.toUInt8 :: begin) := by
    rw [ascii_http_slash, List.append_assoc, List.singleton_append, advance_append plain_http]
    exact advance_of_atStop (by simpa using hs)
  have hname : ¬ between (ascii "HTTP/" ++ begin) ('/'.toUInt8 :: begin) ≠ ascii "HTTP" := by
    rw [ascii_http_slash, List.append_assoc, List.singleton_append, between_append]
    exact not_not.mpr rfl
  have hslash : ¬ (!isSlash '/'.toUInt8) = true := by simp [hs]
  rw [parseVersion, hadv]
  exact (if_neg hname).trans (if_neg hslash)

/-- What `ParseVersion` asks of its data before it looks behind the slash: the protocol
name and a slash, or the protocol name alone. -/
theorem parseVersion_cases (pos : Bytes) (d : T) :
    parseVersion pos d = .returned none ∨ pos = ascii "HTTP" ∨
      ∃ begin, pos = ascii "HTTP/" ++ begin := by
  rw [parseVersion]
  split
  · exact .inl rfl
  · rename_i pos₁ hadv
    obtain ⟨t, rfl, -, -⟩ := advance_eq_some_iff.mp hadv
    rw [between_append]
    split
    · exact .inl rfl
    · rename_i ht
      obtain rfl : t = ascii "HTTP" := not_not.mp ht
      split
      · exact .inr (.inl (List.append_nil _))
      · split
        · exact .inl rfl
        · rename_i b begin hb
          obtain rfl : b = '/'.toUInt8 := by simpa [isSlash] using hb
          exact .inr (.inr ⟨begin, by simp [ascii_http_slash]⟩)

/-- **`ParseVersion` reads `*end`** on the bare protocol name. -/
theorem parseVersion_http (d : T) : parseVersion (ascii "HTTP") d = .undefined := by
  have hadv : advance isSlash (fun b => isControl b || (!isChar b || !isUpper b))
      (ascii "HTTP") = some [] := by
    simpa [advance] using advance_append plain_http []
  have hbet : between (ascii "HTTP") [] = ascii "HTTP" := by
    simpa using between_append (ascii "HTTP") []
  simp [parseVersion, hadv, hbet]

/-- **`ParseVersion` accepts a version** that a carriage return ends. -/
theorem parseVersion_eq_some_iff {pos r : Bytes} {d d' : T} :
    parseVersion pos d = .returned (some (r, d')) ↔
      ∃ v, pos = ascii "HTTP/" ++ (v ++ 0x0D :: r) ∧ (∀ b ∈ v, isVersionByte b = true) ∧
        d' = setVersion d v := by
  have hcr := isCR_cr
  constructor
  · intro h
    rcases parseVersion_cases pos d with hn | rfl | ⟨begin, rfl⟩
    · rw [hn] at h
      cases h
    · rw [parseVersion_http] at h
      cases h
    · rw [parseVersion_http_slash] at h
      split at h
      · cases h
      · cases h
      · rename_i c pos₂ hadv
        obtain ⟨v, rfl, hv, hc⟩ := advance_eq_some_iff.mp hadv
        have hc : isCR c = true := atStop_cons.mp hc
        rw [if_pos hc, between_append] at h
        obtain ⟨rfl, rfl⟩ := Prod.mk.inj (Option.some.inj (Outcome.returned.inj h))
        obtain rfl : c = 0x0D := by simpa [isCR] using hc
        exact ⟨v, rfl, plain_version_iff.mp hv, rfl⟩
  · rintro ⟨v, rfl, hv, rfl⟩
    have hadv : advance isCR (fun b => isControl b || (!isDigit b && b != '.'.toUInt8))
        (v ++ 0x0D :: r) = some (0x0D :: r) :=
      advance_eq_some_iff.mpr ⟨v, rfl, plain_version_iff.mpr hv, by simpa using hcr⟩
    rw [parseVersion_http_slash, hadv]
    simp [hcr]

/-- Except on the bare protocol name, `ParseVersion` returns. -/
theorem parseVersion_returned {pos : Bytes} (hp : pos ≠ ascii "HTTP") (d : T) :
    ∃ v, parseVersion pos d = .returned v := by
  rcases parseVersion_cases pos d with hn | rfl | ⟨begin, rfl⟩
  · exact ⟨none, hn⟩
  · exact absurd rfl hp
  · rw [parseVersion_http_slash]
    split
    · exact ⟨_, rfl⟩
    · exact ⟨_, rfl⟩
    · split <;> exact ⟨_, rfl⟩

end Tokens

/-! ### The line as a whole -/

/-- The tail of a path consists of visible bytes. -/
theorem PathTail.visible {path : Bytes} (hpath : PathTail path) :
    ∀ b ∈ path, isVisible b = true := by
  have hhex : ∀ b : UInt8, isHexDigit b = true → isVisible b = true := by decide +kernel
  induction hpath with
  | nil => simp
  | plain hb _ _ ih => exact List.forall_mem_cons.mpr ⟨hb, ih⟩
  | escape hh₁ hh₂ _ ih =>
      exact List.forall_mem_cons.mpr ⟨isVisible_percent, List.forall_mem_cons.mpr
        ⟨hhex _ hh₁, List.forall_mem_cons.mpr ⟨hhex _ hh₂, ih⟩⟩⟩

/-- A path consists of visible bytes. -/
theorem IsPath.visible {path : Bytes} (hpath : IsPath path) :
    ∀ b ∈ path, 0x21 ≤ b ∧ b ≤ 0x7E := by
  obtain ⟨t, rfl, ht⟩ := hpath
  refine List.forall_mem_cons.mpr ⟨by decide, ?_⟩
  intro b hb
  simpa [isVisible] using ht.visible b hb

/-- No byte of a version ends it. -/
theorem not_isCR_of_isVersionByte : ∀ {b : UInt8}, isVersionByte b = true → isCR b = false := by
  decide +kernel

/-- A version holds no carriage return. -/
theorem StartLine.not_cr_mem_version (sl : StartLine) : (0x0D : UInt8) ∉ sl.version := by
  intro hmem
  have hcr := not_isCR_of_isVersionByte (sl.version_valid 0x0D hmem)
  rw [isCR_cr] at hcr
  cases hcr

/-- A start line holds no carriage return before its line end. -/
theorem StartLine.not_cr_mem_line (sl : StartLine) : (0x0D : UInt8) ∉ sl.line := by
  have hmethod : (0x0D : UInt8) ∉ sl.method := by
    intro hmem
    have hplain := (plain_of_methodEnum sl.method_known 0x0D hmem).2
    exact absurd hplain (by decide)
  have hws : ∀ ws : UInt8, isSpace ws = true → 0x0D ≠ ws := by
    rintro ws hspace rfl
    rw [isSpace_cr] at hspace
    cases hspace
  have hpath : (0x0D : UInt8) ∉ sl.path := fun hmem =>
    absurd (sl.path_valid.visible 0x0D hmem).1 (by decide)
  have hhttp : (0x0D : UInt8) ∉ ascii "HTTP/" := by decide
  simp only [StartLine.line, StartLine.target, List.mem_append, List.mem_cons, not_or]
  exact ⟨hmethod, hws _ sl.ws₁_space, hpath, hws _ sl.ws₂_space, hhttp, sl.not_cr_mem_version⟩

/-! ### The run over a start line -/

section Run

variable {T : Type} [IsReqResType T] {p : Parser} {pos : Bytes} {d : T}

open IsReqResType

/-- The parser on its way to `kHeaders`: a used one has its error overwritten. -/
def Parser.begun (p : Parser) : Parser :=
  if p.currentState = .kReady ∧ p.used = true then p.fail .kStaleParser else p

/-- In a later state nothing is reported. -/
theorem Parser.begun_of_ne {p : Parser} (h : p.currentState ≠ .kReady) : p.begun = p := by
  simp [Parser.begun, h]

/-- From the blank behind the target. -/
theorem reaches_kWaitVersion (hs : p.currentState = .kWaitVersion) {ws : UInt8}
    (hws : isSpace ws = true) (tail : Bytes) :
    Reaches step ⟨p, ws :: tail, d⟩ ⟨p.enter .kVersion, tail, d⟩ :=
  .single (by rw [step_kWaitVersion hs, if_pos hws])

/-- From the target. -/
theorem reaches_kUri (hs : p.currentState = .kUri) {path : Bytes} (hpath : IsPath path)
    {ws : UInt8} (hws : isSpace ws = true) (tail : Bytes) :
    Reaches step ⟨p, path ++ ws :: tail, d⟩ ⟨p.enter .kVersion, tail, setPath d path⟩ := by
  have huri : parseUri (path ++ ws :: tail) d =
      .returned (some (ws :: tail, setPath d path)) :=
    parseUri_eq_some_iff.mpr ⟨path, rfl, hpath, by simpa using hws, rfl⟩
  have hstep : step ⟨p, path ++ ws :: tail, d⟩ =
      .inl ⟨p.enter .kWaitVersion, ws :: tail, setPath d path⟩ := by
    rw [step_kUri hs (by simp) huri]
    rfl
  exact (Reaches.single hstep).trans (reaches_kWaitVersion rfl hws tail)

/-- From the slash that it begins with. -/
theorem reaches_kUriStart (hs : p.currentState = .kUriStart) {path : Bytes}
    (hpath : IsPath path) {ws : UInt8} (hws : isSpace ws = true) (tail : Bytes) :
    Reaches step ⟨p, path ++ ws :: tail, d⟩ ⟨p.enter .kVersion, tail, setPath d path⟩ := by
  obtain ⟨t, rfl, -⟩ := id hpath
  have hstep : step ⟨p, '/'.toUInt8 :: t ++ ws :: tail, d⟩ =
      .inl ⟨p.enter .kUri, '/'.toUInt8 :: t ++ ws :: tail, d⟩ := by
    rw [List.cons_append, step_kUriStart hs, if_pos (by decide)]
  exact (Reaches.single hstep).trans (reaches_kUri rfl hpath hws tail)

/-- From the blank behind the method. -/
theorem reaches_kWaitUri (hs : p.currentState = .kWaitUri) {path : Bytes}
    (hpath : IsPath path) {ws₁ ws₂ : UInt8} (hws₁ : isSpace ws₁ = true)
    (hws₂ : isSpace ws₂ = true) (tail : Bytes) :
    Reaches step ⟨p, ws₁ :: (path ++ ws₂ :: tail), d⟩
      ⟨p.enter .kVersion, tail, setPath d path⟩ := by
  have hstep : step ⟨p, ws₁ :: (path ++ ws₂ :: tail), d⟩ =
      .inl ⟨p.enter .kUriStart, path ++ ws₂ :: tail, d⟩ := by
    rw [step_kWaitUri hs, if_pos hws₁]
  exact (Reaches.single hstep).trans (reaches_kUriStart rfl hpath hws₂ tail)

/-- From the method. -/
theorem reaches_kMethod (hs : p.currentState = .kMethod) (sl : StartLine) (tail : Bytes) :
    Reaches step ⟨p, sl.target tail .kMethod, d⟩
      ⟨p.enter .kVersion, tail, sl.recordTarget d .kMethod⟩ := by
  have hmethod : parseMethod (sl.target tail .kMethod) d =
      some (sl.target tail .kWaitUri, setMethod d sl.method) :=
    parseMethod_eq_some_iff.mpr
      ⟨sl.method, rfl, sl.method_known, by simp [StartLine.target, sl.ws₁_space], rfl⟩
  have hstep : step ⟨p, sl.target tail .kMethod, d⟩ =
      .inl ⟨p.enter .kWaitUri, sl.target tail .kWaitUri, setMethod d sl.method⟩ := by
    rw [step_kMethod hs (by simp [StartLine.target]), hmethod]
    rfl
  exact (Reaches.single hstep).trans
    (reaches_kWaitUri rfl sl.path_valid sl.ws₁_space sl.ws₂_space tail)

/-- Method, path and the white space behind each take the parser to `kVersion`. -/
theorem reaches_target (hs : p.currentState.rank ≤ States.kVersion.rank)
    (sl : StartLine) (tail : Bytes) :
    Reaches step ⟨p, sl.target tail p.currentState, d⟩
      ⟨p.begun.enter .kVersion, tail, sl.recordTarget d p.currentState⟩ := by
  cases h : p.currentState with
  | kReady =>
      have hne : sl.target tail .kReady ≠ [] := by simp [StartLine.target]
      have hstep := step_kReady (d := d) h hne
      have hbegun : p.begun = if p.used then p.fail .kStaleParser else p := by
        simp only [Parser.begun, h, true_and]
      rw [← hbegun] at hstep
      exact (Reaches.single hstep).trans (reaches_kMethod rfl sl tail)
  | kMethod =>
      rw [Parser.begun_of_ne (by simp [h])]
      exact reaches_kMethod h sl tail
  | kWaitUri =>
      rw [Parser.begun_of_ne (by simp [h])]
      exact reaches_kWaitUri h sl.path_valid sl.ws₁_space sl.ws₂_space tail
  | kUriStart =>
      rw [Parser.begun_of_ne (by simp [h])]
      exact reaches_kUriStart h sl.path_valid sl.ws₂_space tail
  | kUri =>
      rw [Parser.begun_of_ne (by simp [h])]
      exact reaches_kUri h sl.path_valid sl.ws₂_space tail
  | kWaitVersion =>
      rw [Parser.begun_of_ne (by simp [h])]
      exact reaches_kWaitVersion h sl.ws₂_space tail
  | kVersion =>
      have henter : p.enter .kVersion = p := by rw [Parser.enter, ← h]
      rw [Parser.begun_of_ne (by simp [h]), henter]
      exact .refl _
  | kHeadersWait | kHeaders | kBodyValidation | kBodyIdentify | kBodyChunked | kComplete
  | kGarbage => exact absurd hs (by rw [h]; decide)

/-- The version takes the parser to `kHeaders`. -/
theorem reaches_kVersion (hs : p.currentState = .kVersion) {version : Bytes}
    (hv : ∀ b ∈ version, isVersionByte b = true) (rest : Bytes) :
    Reaches step ⟨p, ascii "HTTP/" ++ (version ++ 0x0D :: 0x0A :: rest), d⟩
      ⟨p.enter .kHeaders, rest, setVersion d version⟩ := by
  have hne : ascii "HTTP/" ++ (version ++ 0x0D :: 0x0A :: rest) ≠ [] := by simp
  have hversion : parseVersion (ascii "HTTP/" ++ (version ++ 0x0D :: 0x0A :: rest)) d =
      .returned (some (0x0A :: rest, setVersion d version)) :=
    parseVersion_eq_some_iff.mpr ⟨version, rfl, hv, rfl⟩
  have hstep := step_kVersion hs hne hversion
  have hwait : step ⟨p.enter .kHeadersWait, 0x0A :: rest, setVersion d version⟩ =
      .inl ⟨(p.enter .kHeadersWait).enter .kHeaders, rest, setVersion d version⟩ := by
    rw [step_kHeadersWait rfl, if_pos isLF_lf]
  exact (Reaches.single hstep).trans (.single hwait)

/-- What is left of a start line, seen from the states before its end. -/
theorem StartLine.ahead_eq (sl : StartLine) {s : States} (hs : s.rank ≤ States.kVersion.rank)
    (rest : Bytes) :
    sl.ahead rest s =
      sl.target (ascii "HTTP/" ++ (sl.version ++ 0x0D :: 0x0A :: rest)) s := by
  cases s <;> first | rfl | exact absurd hs (by decide)

/-- **A start line takes the parser to `kHeaders`**, from whatever part of it is still
to be read. -/
theorem reaches_startLine (hs : p.currentState.rank ≤ States.kHeaders.rank)
    (sl : StartLine) (rest : Bytes) :
    Reaches step ⟨p, sl.ahead rest p.currentState, d⟩
      ⟨p.begun.enter .kHeaders, rest, sl.record d p.currentState⟩ := by
  by_cases hv : p.currentState.rank ≤ States.kVersion.rank
  · have hrec : sl.record d p.currentState =
        setVersion (sl.recordTarget d p.currentState) sl.version := by
      cases h : p.currentState <;> simp_all [StartLine.record, States.rank]
    rw [sl.ahead_eq hv, hrec]
    exact (reaches_target hv sl _).trans (reaches_kVersion rfl sl.version_valid rest)
  · rcases States.eq_of_rank hv hs with h | h
    · rw [Parser.begun_of_ne (by simp [h]), h]
      exact .single (by rw [StartLine.ahead, step_kHeadersWait h, if_pos isLF_lf]; rfl)
    · have henter : p.enter .kHeaders = p := by rw [Parser.enter, ← h]
      rw [Parser.begun_of_ne (by simp [h]), henter, h]
      exact .refl _

end Run

end Camille
