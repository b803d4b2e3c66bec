import Mathlib.Data.List.DropRight
import Camille.Lib.Scan
import Camille.Message

/-!
# The Token Functions

`ParseMethod`, `ParseUri`, `ParseVersion`, `ParseHost`, `ParseHeaders`,
`ParseBodyIdentify`, and the helpers `IsHeadersEnd` and `ValidateContentLength`, as
`parser.h` writes them.

A cursor pair `(pos, end)` is the list of the bytes it spans: `*pos` is the head,
`++pos` the tail, `pos == end` emptiness, and `std::string_view(begin, pos - begin)` is
`between begin pos`. A function that reports success as a `bool` and moves `pos` and
`dtype` by reference returns both in an `Option`; after `return false` the caller uses
neither.

Three of them need more than a result: reading `*end` is undefined behaviour, and
`ParseHost` can throw. `Outcome` has a case for each.
-/

open Lib

namespace Camille

/-- The exceptions the code can raise: `std::bad_expected_access` from
`std::expected::value`, and `std::length_error` from the constructor of a `std::string`
too long to exist. -/
inductive Exception
  | badExpectedAccess
  | lengthError
  deriving DecidableEq, Repr

/-- How a call ends: with a value, with an exception, or in undefined behaviour. -/
inductive Outcome (α : Type)
  | returned (a : α)
  | threw (e : Exception)
  | undefined
  deriving DecidableEq, Repr

namespace Outcome

variable {α β : Type}

/-- Go on with the value of a call that returned. -/
def bind (o : Outcome α) (f : α → Outcome β) : Outcome β :=
  match o with
  | returned a => f a
  | threw e => threw e
  | undefined => undefined

/-- A value is handed on. -/
@[simp] theorem returned_bind (a : α) (f : α → Outcome β) : (returned a).bind f = f a := rfl

/-- An exception is not caught. -/
@[simp] theorem threw_bind (e : Exception) (f : α → Outcome β) :
    (threw e : Outcome α).bind f = threw e := rfl

/-- Nothing follows a run without a meaning. -/
@[simp] theorem undefined_bind (f : α → Outcome β) :
    (undefined : Outcome α).bind f = undefined := rfl

/-- What a call that returned was successful with. -/
def success (o : Outcome (Option α)) : Option α :=
  match o with
  | returned result => result
  | _ => none

end Outcome

/-! ### Helpers -/

/-- `IsHeadersEnd`: step over a line end, and over the empty line behind it. The result
is `false` exactly when the empty line was there. -/
def isHeadersEnd (pos : Bytes) : Bool × Bytes :=
  match pos with
  | a :: b :: pos' =>
    if isCR a && isLF b then
      match pos' with
      | c :: d :: pos'' => if isCR c && isLF d then (false, pos'') else (true, pos')
      | _ => (true, pos')
    else (true, pos)
  | _ => (true, pos)

/-- The loop of `ValidateContentLength`, in the arithmetic of a 64-bit `size_t`. -/
def validateContentLengthLoop : ℕ → Bytes → Option ℕ
  | contentLength, [] => some contentLength
  | contentLength, token :: value =>
    if !isDigit token then none
    else if contentLength > sizeMax / 10 then none
    else
      validateContentLengthLoop
        ((contentLength * 10 + (token.toNat - '0'.toNat)) % (sizeMax + 1)) value

/-- `ValidateContentLength`; its error carries no information. -/
def validateContentLength (value : Bytes) : Option ℕ :=
  if value = [] then none
  else
    match validateContentLengthLoop 0 value with
    | none => none
    | some contentLength => if contentLength > kBodyLimit then none else some contentLength

/-- The test of `ParseHeaders` for a key that is `host` in any letter case. -/
def isHostKey (key : Bytes) : Bool :=
  match key with
  | [k₀, k₁, k₂, k₃] =>
    (k₀ ||| 0x20) == 'h'.toUInt8 && (k₁ ||| 0x20) == 'o'.toUInt8 &&
      (k₂ ||| 0x20) == 's'.toUInt8 && (k₃ ||| 0x20) == 't'.toUInt8
  | _ => false

section Tokens

variable {T : Type} [IsReqResType T]

open IsReqResType

/-! ### The start line -/

/-- `ParseMethod`. -/
def parseMethod (pos : Bytes) (dtype : T) : Option (Bytes × T) :=
  match advance (fun b => isSpace b || isLower b) isControl pos with
  | none => none
  | some pos' =>
    let method := between pos pos'
    if methodEnum method = .kUnknown then none
    else some (pos', setMethod dtype method)

/-- The loop of `ParseUri`: the cursor behind the path. -/
def parseUriLoop : Bytes → Option Bytes
  | [] => some []
  | b :: pos =>
    if isSpace b then some (b :: pos)
    else if isControl b then none
    else if !isChar b && !uriTraits b && !isSlash b then none
    else if b == '%'.toUInt8 then
      match pos with
      | h₁ :: h₂ :: pos' =>
        if !isHexDigit h₁ || !isHexDigit h₂ then none else parseUriLoop pos'
      | _ => none  -- `(pos + 2) >= end`
    else parseUriLoop pos

/-- `ParseUri`. -/
def parseUri (pos : Bytes) (dtype : T) : Outcome (Option (Bytes × T)) :=
  match pos with
  | [] => .undefined
  | b :: pos₁ =>
    if !isSlash b then .returned none
    else
      match parseUriLoop pos₁ with
      | none => .returned none
      | some pos₂ => .returned (some (pos₂, setPath dtype (between pos pos₂)))

/-- `ParseVersion`. The first loop may stop at the end of the data, behind which the
test for the slash reads. -/
def parseVersion (pos : Bytes) (dtype : T) : Outcome (Option (Bytes × T)) :=
  match advance isSlash (fun b => isControl b || (!isChar b || !isUpper b)) pos with
  | none => .returned none
  | some pos₁ =>
    if between pos pos₁ ≠ ascii "HTTP" then .returned none
    else
      match pos₁ with
      | [] => .undefined
      | b :: begin =>
        if !isSlash b then .returned none
        else
          match advance isCR
              (fun b => isControl b || (!isDigit b && b != '.'.toUInt8)) begin with
          | none => .returned none
          | some [] => .returned none
          | some (c :: pos₂) =>
            let dtype := setVersion dtype (between begin (c :: pos₂))
            if isCR c then .returned (some (pos₂, dtype)) else .returned none

/-! ### Headers and body -/

/-- `ParseHost`. When the value holds no colon the cursor ends behind the value, the
port's length `value.end() - pos` is `-1` taken as a `size_t`, and copying that many
bytes into a `std::string` throws. -/
def parseHost (value : Bytes) (dtype : T) : Outcome T :=
  let pos := value.dropWhile fun b => b != ':'.toUInt8
  let host := between value pos
  match pos with
  | [] => .threw .lengthError
  | _ :: port => .returned (setPort (setHost dtype host) port)

/-- One round of the loop of `ParseHeaders`: `can_consume_more`, the cursor and the
message behind one header line. -/
def parseHeader (pos : Bytes) (dtype : T) : Outcome (Option (Bool × Bytes × T)) :=
  match advance (fun b => b == ':'.toUInt8) (fun b => !headerKeyTraits b) pos with
  | none => .returned none
  | some pos₁ =>
    if pos₁ = pos ∨ pos₁ = [] then .returned none
    else
      let currentKey := between pos pos₁
      match pos₁.tail with
      | [] => .returned none
      | ws :: begin =>
        if !isSpace ws then .returned none
        else
          match advance isCR (fun b => !headerValueTraits b) begin with
          | none => .returned none
          | some pos₂ =>
            let currentValue := (between begin pos₂).rdropWhile isSpace
            let dtype := addHeader dtype currentKey currentValue
            (if isHostKey currentKey then parseHost currentValue dtype
              else .returned dtype).bind fun dtype =>
            let headersEnd := isHeadersEnd pos₂
            .returned (some (headersEnd.1, headersEnd.2, dtype))

/-- The loop of `ParseHeaders`. Every round that goes on has moved the cursor, so the
length of the data bounds the number of rounds and the second case is not reached. -/
def parseHeadersLoop : ℕ → Bytes → T → Outcome (Option (Bytes × T))
  | _, [], dtype => .returned (some ([], dtype))
  | 0, _ :: _, _ => .returned none
  | rounds + 1, b :: pos, dtype =>
    (parseHeader (b :: pos) dtype).bind fun
    | none => .returned none
    | some (canConsumeMore, pos', dtype') =>
      if canConsumeMore then parseHeadersLoop rounds pos' dtype'
      else .returned (some (pos', dtype'))

/-- `ParseHeaders`. -/
def parseHeaders (pos : Bytes) (dtype : T) : Outcome (Option (Bytes × T)) :=
  parseHeadersLoop pos.length pos dtype

/-- `ParseBodyIdentify`. -/
def parseBodyIdentify (pos : Bytes) (dtype : T) (expectedLength : ℕ) :
    Option (Bytes × T) :=
  if pos.length < expectedLength then none
  else some (pos.drop expectedLength, setBody dtype (pos.take expectedLength))

end Tokens

end Camille
