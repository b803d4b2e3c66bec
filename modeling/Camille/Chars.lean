import Mathlib.Data.FinEnum
import Mathlib.Data.List.Basic
import Mathlib.Logic.Function.Basic

/-!
# Characters, Tables and Constants

The vocabulary of `parser.h`, `infra.h` and `error.h`: bytes and the character
predicates over them, the lookup tables of `ParserTraits`, the method names, the header
names the parser asks for, and the error codes with their texts.

A `char` is a signed 8-bit integer (`signed`); the predicates compare as the source
does, on the signed value or on the unsigned one. `decide` over the 256 bytes then
settles what each of them accepts.
-/

namespace Camille

/-- A byte string: what a `std::string_view` spans or a `std::string` owns. -/
abbrev Bytes := List UInt8

/-- The bytes of a string literal. -/
def ascii (s : String) : Bytes :=
  s.toUTF8.data.toList

/-- A table of character literals. -/
def placements (tokens : List Char) : Bytes :=
  tokens.map Char.toUInt8

/-- The value of a plain `char`, which is signed. -/
def signed (token : UInt8) : ℤ :=
  token.toInt8.toInt

/-! ### Character predicates -/

/-- Blank or tab. -/
def isSpace (token : UInt8) : Bool :=
  token == ' '.toUInt8 || token == '\t'.toUInt8

/-- A decimal digit. -/
def isDigit (token : UInt8) : Bool :=
  signed token ≥ signed '0'.toUInt8 && signed token ≤ signed '9'.toUInt8

/-- A hexadecimal digit, in either case. -/
def isHexDigit (token : UInt8) : Bool :=
  (signed token ≥ signed '0'.toUInt8 && signed token ≤ signed '9'.toUInt8) ||
  (signed token ≥ signed 'a'.toUInt8 && signed token ≤ signed 'f'.toUInt8) ||
  (signed token ≥ signed 'A'.toUInt8 && signed token ≤ signed 'F'.toUInt8)

/-- A lower case letter. -/
def isLower (token : UInt8) : Bool :=
  token ≥ 'a'.toUInt8 && token ≤ 'z'.toUInt8

/-- An upper case letter. -/
def isUpper (token : UInt8) : Bool :=
  token ≥ 'A'.toUInt8 && token ≤ 'Z'.toUInt8

/-- An ASCII character: a byte from 128 on is negative as a `char`. -/
def isChar (token : UInt8) : Bool :=
  signed token ≥ 0 && signed token ≤ 127

/-- A control character. -/
def isControl (token : UInt8) : Bool :=
  (signed token ≥ 0 && signed token ≤ 31) || signed token == 127

/-- The slash. -/
def isSlash (token : UInt8) : Bool :=
  token == '/'.toUInt8

/-- The carriage return. -/
def isCR (token : UInt8) : Bool :=
  token == 0x0D

/-- The line feed. -/
def isLF (token : UInt8) : Bool :=
  token == 0x0A

/-- The two bytes that end a line. -/
def crlf : Bytes := [0x0D, 0x0A]

/-- The empty line that ends a header block, with the line end before it. -/
def crlfcrlf : Bytes := crlf ++ crlf

/-! ### The tables of `ParserTraits` -/

namespace ParserTraits

/-- The lookup table of a list of requirements: every placement holds its own symbol,
every other entry is zero. -/
def kLookup (requirements : List Bytes) : UInt8 → UInt8 :=
  requirements.flatten.foldl (fun table token => Function.update table token token) fun _ => 0

/-- A token is valid when its table entry is not zero. -/
def isValid (requirements : List Bytes) (token : UInt8) : Bool :=
  kLookup requirements token != 0

end ParserTraits

/-- `AlphaNumericRequirement::placements`. -/
def alphaNumericRequirement : Bytes :=
  placements
    ['0', '1', '2', '3', '4', '5', '6', '7', '8', '9', 'A', 'B', 'C', 'D', 'E', 'F',
     'G', 'H', 'I', 'J', 'K', 'L', 'M', 'N', 'O', 'P', 'Q', 'R', 'S', 'T', 'U', 'V',
     'W', 'X', 'Y', 'Z', 'a', 'b', 'c', 'd', 'e', 'f', 'g', 'h', 'i', 'j', 'k', 'l',
     'm', 'n', 'o', 'p', 'q', 'r', 's', 't', 'u', 'v', 'w', 'x', 'y', 'z']

/-- `HeaderKeySymbolRequirement::placements`. -/
def headerKeySymbolRequirement : Bytes :=
  placements ['!', '#', '$', '%', '&', '\'', '*', '+', '-', '.', '^', '_', '\x60', '|', '~']

/-- `HeaderValueSymbolRequirement::placements`: the 95 bytes from 32 on. -/
def headerValueSymbolRequirement : Bytes :=
  (List.range 95).map fun i => UInt8.ofNat (32 + i)

/-- `TabRequirement::placements`. -/
def tabRequirement : Bytes := placements ['\t']

/-- `ReservedSymbolRequirement::placements`. -/
def reservedSymbolRequirement : Bytes := placements ['#', '&', '=', '?']

/-- `UnreservedSymbolRequirement::placements`. -/
def unreservedSymbolRequirement : Bytes := placements ['-', '.', '_', '~']

/-- `UriTraits::IsValid`. -/
def uriTraits : UInt8 → Bool :=
  ParserTraits.isValid [unreservedSymbolRequirement, reservedSymbolRequirement]

/-- `HeaderKeyTraits::IsValid`. -/
def headerKeyTraits : UInt8 → Bool :=
  ParserTraits.isValid [alphaNumericRequirement, headerKeySymbolRequirement]

/-- `HeaderValueTraits::IsValid`. -/
def headerValueTraits : UInt8 → Bool :=
  ParserTraits.isValid [headerValueSymbolRequirement, tabRequirement]

/-! ### Methods, header names and errors -/

/-- `infra::Methods`. -/
inductive Methods
  | kGet | kHead | kPost | kPatch | kPut | kDelete | kOptions | kConnect | kTrace
  | kUnknown
  deriving DecidableEq, Repr

/-- `infra::MethodEnum`. -/
def methodEnum (method : Bytes) : Methods :=
  if method = ascii "GET" then .kGet
  else if method = ascii "POST" then .kPost
  else if method = ascii "PUT" then .kPut
  else if method = ascii "DELETE" then .kDelete
  else if method = ascii "PATCH" then .kPatch
  else if method = ascii "HEAD" then .kHead
  else if method = ascii "OPTIONS" then .kOptions
  else if method = ascii "TRACE" then .kTrace
  else if method = ascii "CONNECT" then .kConnect
  else .kUnknown

/-- `infra::headers::kHost`. -/
def kHost : Bytes := ascii "Host"

/-- `infra::headers::kContentLength`. -/
def kContentLength : Bytes := ascii "Content-Length"

/-- `infra::headers::kTransferEncoding`. -/
def kTransferEncoding : Bytes := ascii "Transfer-Encoding"

/-- `error::Errors`. -/
inductive Errors
  | kGeneralError | kBadMethod | kBadUri | kBadRequest | kStaleParser | kBadVersion
  | kBadKey | kBadHeader | kEndOfStream | kSizeLimit | kBodyLimit | kBadBody
  | kBadContentLength | kBufferOverflow | kPartialMessage | kShortRead | kGarbageRequest
  deriving DecidableEq, Repr

/-- The largest body the parser accepts. -/
def kBodyLimit : ℕ := 64 * 1024

/-- `std::numeric_limits<size_t>::max()`. -/
def sizeMax : ℕ := 2 ^ 64 - 1

/-! ### What the tables and predicates accept -/

namespace ParserTraits

/-- A table entry is a placement's own symbol, and zero elsewhere. -/
theorem kLookup_eq (requirements : List Bytes) (token : UInt8) :
    kLookup requirements token = if token ∈ requirements.flatten then token else 0 := by
  have hfold : ∀ (placements : Bytes) (table : UInt8 → UInt8),
      placements.foldl (fun table token => Function.update table token token) table token =
        if token ∈ placements then token else table token := by
    intro placements
    induction placements with
    | nil => simp
    | cons p placements ih =>
        intro table
        rw [List.foldl_cons, ih]
        by_cases hp : token = p
        · subst hp; simp
        · simp [hp]
  exact hfold _ _

/-- **A table accepts its placements**, NUL apart, whose entry reads as zero. -/
theorem isValid_iff {requirements : List Bytes} {token : UInt8} :
    isValid requirements token = true ↔ token ≠ 0 ∧ token ∈ requirements.flatten := by
  rw [isValid, kLookup_eq]
  split <;> rename_i h <;> simp [h]

end ParserTraits

/-! The facts about single bytes which the tokenisers rest on; those about a table are
settled over its placements. -/

/-- What holds of every placement of a table holds of every byte the table accepts. -/
theorem ParserTraits.of_isValid {requirements : List Bytes} {p : UInt8 → Bool}
    (h : requirements.flatten.all p = true) {b : UInt8}
    (hb : ParserTraits.isValid requirements b = true) : p b = true :=
  List.all_eq_true.mp h b (ParserTraits.isValid_iff.mp hb).2

/-- A header key holds no colon. -/
theorem ne_colon_of_headerKeyTraits {b : UInt8} (h : headerKeyTraits b = true) :
    (b == ':'.toUInt8) = false := by
  simpa using ParserTraits.of_isValid (p := fun b => !(b == ':'.toUInt8))
    (by decide) h

/-- A header key holds no carriage return. -/
theorem not_isCR_of_headerKeyTraits {b : UInt8} (h : headerKeyTraits b = true) :
    isCR b = false := by
  simpa using ParserTraits.of_isValid (p := fun b => !isCR b) (by decide) h

/-- A header value holds no carriage return. -/
theorem not_isCR_of_headerValueTraits {b : UInt8} (h : headerValueTraits b = true) :
    isCR b = false := by
  simpa using ParserTraits.of_isValid (p := fun b => !isCR b) (by decide) h

/-- A blank is white space. -/
theorem isSpace_blank : isSpace ' '.toUInt8 = true := by decide

/-- A carriage return is not white space. -/
theorem isSpace_cr : isSpace 0x0D = false := by decide

/-- A carriage return is one. -/
theorem isCR_cr : isCR 0x0D = true := by decide

/-- A line feed is one. -/
theorem isLF_lf : isLF 0x0A = true := by decide

end Camille
