import Camille.Lib.Cursor
import Camille.Termination

/-!
# What the Parser Reads

`Parse` and the token functions over the data with an index for the cursor, so that what
is read has an address: the same functions as in `Camille.Tokens` and `Camille.Parser`,
where the cursor is the list of what is left, one level closer to `parser.h`.

## Main results

* `scan_safe`, `parseMethod_safe` to `parseBodyIdentify_safe`: every token function reads
  within the data and does what it does on lists; `parseVersion_safe` has the exception.
* `step_safe`, `loop_safe`, `parse_safe`: the same for a call.
* `reads_within_iff`: when everything that is read lies within the data.
-/

open Lib

namespace Camille.Reads

open Cursor

/-! ### The token functions -/

/-- The loop `while (pos != end && !stop(*pos))`, which gives up on a bad byte. It makes
at most as many rounds as there are bytes left. -/
def scanLoop (stop bad : UInt8 → Bool) : ℕ → Cursor UInt8 Bool
  | 0 => pure true
  | rounds + 1 => do
    let left ← remaining
    if left = 0 then return true
    else
      let token ← peek 0
      if stop token then return true
      else if bad token then return false
      else
        skip 1
        scanLoop stop bad rounds

/-- The loop, from the cursor on. -/
def scan (stop bad : UInt8 → Bool) : Cursor UInt8 Bool := do
  let rounds ← remaining
  scanLoop stop bad rounds

/-- `std::string_view(begin, pos - begin)`. -/
def viewFrom (begin : ℕ) : Cursor UInt8 Bytes := do
  let pos ← here
  view begin (pos - begin)

/-- The test `(end - pos) >= 2 && IsCR(*pos) && IsLF(*(pos + 1))`. -/
def atLineEnd : Cursor UInt8 Bool := do
  let left ← remaining
  if left < 2 then return false
  else
    let a ← peek 0
    if !isCR a then return false
    else
      let b ← peek 1
      return isLF b

/-- `IsHeadersEnd`. -/
def isHeadersEnd : Cursor UInt8 Bool := do
  let lineEnd ← atLineEnd
  if !lineEnd then return true
  else
    skip 2
    let emptyLine ← atLineEnd
    if !emptyLine then return true
    else
      skip 2
      return false

section Tokens

variable {T : Type} [IsReqResType T]

open IsReqResType

/-- `ParseMethod`. -/
def parseMethod (dtype : T) : Cursor UInt8 (Option T) := do
  let begin ← here
  let found ← scan (fun b => isSpace b || isLower b) isControl
  if !found then return none
  else
    let method ← viewFrom begin
    if methodEnum method = .kUnknown then return none
    else return some (setMethod dtype method)

/-- The loop of `ParseUri`, with the look-ahead behind a percent sign. -/
def parseUriLoop : ℕ → Cursor UInt8 Bool
  | 0 => pure true
  | rounds + 1 => do
    let left ← remaining
    if left = 0 then return true
    else
      let token ← peek 0
      if isSpace token then return true
      else if isControl token then return false
      else if !isChar token && !uriTraits token && !isSlash token then return false
      else if token == '%'.toUInt8 then
        -- `(pos + 2) >= end`
        if left ≤ 2 then return false
        else
          let h₁ ← peek 1
          if !isHexDigit h₁ then return false
          else
            let h₂ ← peek 2
            if !isHexDigit h₂ then return false
            else
              skip 2
              skip 1
              parseUriLoop rounds
      else
        skip 1
        parseUriLoop rounds

/-- `ParseUri`. -/
def parseUri (dtype : T) : Cursor UInt8 (Option T) := do
  let begin ← here
  let token ← peek 0
  if !isSlash token then return none
  else
    skip 1
    let rounds ← remaining
    let found ← parseUriLoop rounds
    if !found then return none
    else
      let path ← viewFrom begin
      return some (setPath dtype path)

/-- `ParseVersion`. The test for the slash reads where the first loop stopped. -/
def parseVersion (dtype : T) : Cursor UInt8 (Option T) := do
  let begin ← here
  let found ← scan isSlash fun b => isControl b || (!isChar b || !isUpper b)
  if !found then return none
  else
    let http ← viewFrom begin
    if http ≠ ascii "HTTP" then return none
    else
      let token ← peek 0
      if !isSlash token then return none
      else
        skip 1
        let begin ← here
        let found ← scan isCR fun b => isControl b || (!isDigit b && b != '.'.toUInt8)
        if !found then return none
        else
          let version ← viewFrom begin
          let dtype := setVersion dtype version
          let left ← remaining
          if left = 0 then return none
          else
            let token ← peek 0
            if isCR token then
              skip 1
              return some dtype
            else return none

/-- The trimming loop of `ParseHeaders`, `while (owsit > begin && IsSpace(*(owsit - 1)))`. -/
def trim (begin : ℕ) : ℕ → Cursor UInt8 ℕ
  | 0 => pure 0
  | owsit + 1 =>
    if begin < owsit + 1 then do
      let token ← readAt owsit
      if isSpace token then trim begin owsit
      else return owsit + 1
    else return owsit + 1

/-- One round of the loop of `ParseHeaders`: `can_consume_more` and the message behind
one header line. -/
def parseHeader (dtype : T) : Cursor UInt8 (Outcome (Option (Bool × T))) := do
  let begin ← here
  let found ← scan (fun b => b == ':'.toUInt8) fun b => !headerKeyTraits b
  let pos ← here
  let left ← remaining
  if !found then return .returned none
  else if pos = begin ∨ left = 0 then return .returned none
  else
    let currentKey ← view begin (pos - begin)
    skip 1
    let left ← remaining
    if left = 0 then return .returned none
    else
      let token ← peek 0
      if !isSpace token then return .returned none
      else
        skip 1
        let begin ← here
        let found ← scan isCR fun b => !headerValueTraits b
        if !found then return .returned none
        else
          let pos ← here
          let owsit ← trim begin pos
          let currentValue ← view begin (owsit - begin)
          let dtype := addHeader dtype currentKey currentValue
          match (if isHostKey currentKey then parseHost currentValue dtype
            else .returned dtype) with
          | .threw e => return .threw e
          | .undefined => return .undefined
          | .returned dtype =>
            let canConsumeMore ← isHeadersEnd
            return .returned (some (canConsumeMore, dtype))

/-- The loop of `ParseHeaders`. -/
def parseHeadersLoop : ℕ → T → Cursor UInt8 (Outcome (Option T))
  | rounds, dtype => do
    let left ← remaining
    if left = 0 then return .returned (some dtype)
    else
      match rounds with
      | 0 => return .returned none
      | rounds + 1 =>
        match ← parseHeader dtype with
        | .threw e => return .threw e
        | .undefined => return .undefined
        | .returned none => return .returned none
        | .returned (some (canConsumeMore, dtype)) =>
          if canConsumeMore then parseHeadersLoop rounds dtype
          else return .returned (some dtype)

/-- `ParseHeaders`. -/
def parseHeaders (dtype : T) : Cursor UInt8 (Outcome (Option T)) := do
  let rounds ← remaining
  parseHeadersLoop rounds dtype

/-- `ParseBodyIdentify`. -/
def parseBodyIdentify (dtype : T) (expectedLength : ℕ) : Cursor UInt8 (Option T) := do
  let available ← remaining
  if available < expectedLength then return none
  else
    let begin ← here
    let bodyDate ← view begin expectedLength
    skip expectedLength
    return some (setBody dtype bodyDate)

/-! ### The call -/

/-- The state `kHeaders`. -/
def stepHeaders (p : Parser) (dtype : T) : Cursor UInt8 ((Parser × T) ⊕ ParseResult T) := do
  match ← parseHeaders dtype with
  | .threw e => return .inr (.threw e, p)
  | .undefined => return .inr (.undefined, p)
  | .returned none => return .inl (p.fail .kBadRequest, dtype)
  | .returned (some dtype) =>
    match getHeader dtype kHost with
    | none => return .inl (p.fail .kBadRequest, dtype)
    | some _ =>
      match getHeader dtype kContentLength with
      | none =>
        return .inr
          (.returned (.ok (setSize dtype p.totalConsumed)), (p.enter .kComplete).setUsed)
      | some _ => return .inl (p.enter .kBodyValidation, dtype)

/-- The state `kBodyValidation`. -/
def stepBodyValidation (p : Parser) (dtype : T) :
    Cursor UInt8 ((Parser × T) ⊕ ParseResult T) :=
  match getHeader dtype kContentLength, getHeader dtype kTransferEncoding with
  | some _, some _ => return .inl (p.fail .kBadRequest, dtype)
  | some clHeader, none =>
    match validateContentLength clHeader with
    | none => return .inr (.threw .badExpectedAccess, p.fail .kBadContentLength)
    | some contentLength =>
      return .inl (p.enter .kBodyIdentify, setContentLength dtype contentLength)
  | none, some _ => return .inl ((p.enter .kBodyChunked).fail .kBadRequest, dtype)
  | none, none => return .inl (p, dtype)

/-- The state `kBodyIdentify`. -/
def stepBodyIdentify (p : Parser) (dtype : T) :
    Cursor UInt8 ((Parser × T) ⊕ ParseResult T) :=
  match contentLength dtype with
  | none => return .inr (.undefined, p)
  | some expectedLength => do
    match ← parseBodyIdentify dtype expectedLength with
    | some dtype =>
      return .inr
        (.returned (.ok (setSize dtype p.totalConsumed)), (p.enter .kComplete).setUsed)
    | none => return .inl (p, dtype)

/-- One iteration of the loop of `Parse`. -/
def step (p : Parser) (dtype : T) : Cursor UInt8 ((Parser × T) ⊕ ParseResult T) := do
  if p.currentState = .kComplete ∨ p.currentState = .kGarbage then
    return .inr (.returned (.error p.error), p)
  else
    let left ← remaining
    if left = 0 then return .inr (.returned (.error .kPartialMessage), p)
    else
      match p.currentState with
      | .kReady =>
        let p := if p.used then p.fail .kStaleParser else p
        return .inl (p.enter .kMethod, dtype)
      | .kMethod =>
        match ← parseMethod dtype with
        | none => return .inl (p.fail .kBadMethod, dtype)
        | some dtype => return .inl (p.enter .kWaitUri, dtype)
      | .kWaitUri =>
        let token ← peek 0
        if isSpace token then
          skip 1
          return .inl (p.enter .kUriStart, dtype)
        else return .inl (p.fail .kBadRequest, dtype)
      | .kUriStart =>
        let token ← peek 0
        if isSlash token then return .inl (p.enter .kUri, dtype)
        else return .inl (p.fail .kBadUri, dtype)
      | .kUri =>
        match ← parseUri dtype with
        | none => return .inl (p.fail .kBadUri, dtype)
        | some dtype => return .inl (p.enter .kWaitVersion, dtype)
      | .kWaitVersion =>
        let token ← peek 0
        if isSpace token then
          skip 1
          return .inl (p.enter .kVersion, dtype)
        else return .inl (p.fail .kBadRequest, dtype)
      | .kVersion =>
        match ← parseVersion dtype with
        | none => return .inl (p.fail .kBadVersion, dtype)
        | some dtype => return .inl (p.enter .kHeadersWait, dtype)
      | .kHeadersWait =>
        let token ← peek 0
        if isLF token then
          skip 1
          return .inl (p.enter .kHeaders, dtype)
        else return .inl (p.fail .kPartialMessage, dtype)
      | .kHeaders => stepHeaders p dtype
      | .kBodyValidation => stepBodyValidation p dtype
      | .kBodyIdentify => stepBodyIdentify p dtype
      | .kBodyChunked => return .inl (p.fail .kBadBody, dtype)
      | .kComplete =>
        return .inr (.returned (.ok (setSize dtype p.totalConsumed)), p.setUsed)
      | .kGarbage => return .inr (.returned (.error p.error), p)

/-- The loop of `Parse`, for a number of iterations. -/
def loop : ℕ → Parser → T → Cursor UInt8 ((Parser × T) ⊕ ParseResult T)
  | 0, p, dtype => return .inl (p, dtype)
  | iterations + 1, p, dtype => do
    match ← step p dtype with
    | .inl (p, dtype) => loop iterations p dtype
    | .inr result => return .inr result

variable (T) in
/-- `Parser::Parse`, for a number of iterations of its loop. -/
def parse (iterations : ℕ) (p : Parser) : Cursor UInt8 ((Parser × T) ⊕ ParseResult T) := do
  let size ← remaining
  if size = 0 then
    return .inr (.returned (.error .kBadRequest), { p with error := .kBadRequest })
  else loop iterations { p with totalConsumed := size } fresh

end Tokens

/-! ### The same functions on lists -/

section Lists

variable {T : Type} [IsReqResType T] {data : Bytes} {pos : ℕ}

open IsReqResType

/-- In front of the end there is a byte, and the rest behind it. -/
theorem drop_cases (data : Bytes) (pos : ℕ) :
    data.length - pos = 0 ∧ data.drop pos = [] ∨
      ∃ b, pos < data.length ∧ data[pos]? = some b ∧ data.drop pos = b :: data.drop (pos + 1) := by
  by_cases h : pos < data.length
  · exact .inr ⟨data[pos], h, List.getElem?_eq_getElem h, List.drop_eq_getElem_cons h⟩
  · exact .inl ⟨by omega, List.drop_eq_nil_of_le (by omega)⟩

/-- **The scan** stops where it does on the list of what is left. -/
theorem scanLoop_safe (stop bad : UInt8 → Bool) (rounds : ℕ) (hle : pos ≤ data.length)
    (hrounds : data.length - pos ≤ rounds) :
    (scanLoop stop bad rounds).Safe data pos fun found pos' =>
      pos ≤ pos' ∧ pos' ≤ data.length ∧
        advance stop bad (data.drop pos) = if found then some (data.drop pos') else none := by
  induction rounds generalizing pos with
  | zero =>
      have hnil : data.drop pos = [] := List.drop_eq_nil_of_le (by omega)
      rw [scanLoop, safe_pure, hnil]
      exact ⟨le_rfl, hle, rfl⟩
  | succ rounds ih =>
      rw [scanLoop, safe_bind, safe_remaining]
      rcases drop_cases data pos with ⟨hleft, hnil⟩ | ⟨b, hlt, hb, hcons⟩
      · rw [if_pos hleft, safe_pure, hnil]
        exact ⟨le_rfl, hle, rfl⟩
      · rw [if_neg (by omega), safe_bind, safe_peek]
        refine ⟨b, hb, ?_⟩
        rw [hcons, advance]
        split
        · rw [safe_pure, ← hcons]
          exact ⟨le_rfl, hle, rfl⟩
        · split
          · rw [safe_pure]
            exact ⟨le_rfl, hle, rfl⟩
          · rw [safe_bind, safe_skip]
            refine ⟨hlt, (ih hlt (by omega)).mono fun found pos' h => ?_⟩
            exact ⟨(Nat.le_succ pos).trans h.1, h.2⟩

/-- **A scan** stays inside, and stops where that of the lists does. -/
theorem scan_safe (stop bad : UInt8 → Bool) (hle : pos ≤ data.length) :
    (scan stop bad).Safe data pos fun found pos' =>
      pos ≤ pos' ∧ pos' ≤ data.length ∧
        advance stop bad (data.drop pos) = if found then some (data.drop pos') else none := by
  rw [scan, safe_bind, safe_remaining]
  exact scanLoop_safe stop bad _ hle le_rfl

/-- The view between two places is the view between two lists. -/
theorem between_drop {begin : ℕ} (h : begin ≤ pos) (hle : pos ≤ data.length) :
    between (data.drop begin) (data.drop pos) = (data.drop begin).take (pos - begin) := by
  have hlength : (data.drop begin).length - (data.drop pos).length = pos - begin := by
    rw [List.length_drop, List.length_drop]
    omega
  rw [between, hlength]

/-- **A view** up to the cursor is what lies between. -/
theorem viewFrom_safe {begin : ℕ} (h : begin ≤ pos) (hle : pos ≤ data.length)
    {Q : Bytes → ℕ → Prop} :
    (viewFrom begin).Safe data pos Q ↔ Q (between (data.drop begin) (data.drop pos)) pos := by
  rw [viewFrom, safe_bind, safe_here, safe_view (by omega), between_drop h hle]

/-- The result of a token function, with the list of what is left. -/
def listed (data : Bytes) (pos : ℕ) (result : Option T) : Option (Bytes × T) :=
  result.map fun dtype => (data.drop pos, dtype)

/-- **`ParseMethod`** stays inside, with the same result. -/
theorem parseMethod_safe (d : T) (hle : pos ≤ data.length) :
    (parseMethod d).Safe data pos fun result pos' =>
      listed data pos' result = Camille.parseMethod (data.drop pos) d := by
  rw [parseMethod, safe_bind, safe_here, safe_bind]
  refine (scan_safe _ _ hle).mono ?_
  rintro found pos' ⟨hpos, hle', hadvance⟩
  rw [Camille.parseMethod, hadvance]
  cases found with
  | false => exact safe_pure.2 rfl
  | true =>
      rw [Bool.not_true, if_neg Bool.false_ne_true, safe_bind, viewFrom_safe hpos hle']
      simp only [if_true]
      split <;> exact safe_pure.2 rfl

/-- **The loop of `ParseUri`** stays inside: an escape is measured before it is read. -/
theorem parseUriLoop_safe (rounds : ℕ) (hle : pos ≤ data.length)
    (hrounds : data.length - pos ≤ rounds) :
    (parseUriLoop rounds).Safe data pos fun found pos' =>
      pos ≤ pos' ∧ pos' ≤ data.length ∧
        Camille.parseUriLoop (data.drop pos) =
          if found then some (data.drop pos') else none := by
  induction rounds generalizing pos with
  | zero =>
      have hnil : data.drop pos = [] := List.drop_eq_nil_of_le (by omega)
      rw [parseUriLoop, safe_pure, hnil, Camille.parseUriLoop]
      exact ⟨le_rfl, hle, rfl⟩
  | succ rounds ih =>
      rw [parseUriLoop, safe_bind, safe_remaining]
      rcases drop_cases data pos with ⟨hleft, hnil⟩ | ⟨b, hlt, hb, hcons⟩
      · rw [if_pos hleft, safe_pure, hnil, Camille.parseUriLoop]
        exact ⟨le_rfl, hle, rfl⟩
      · rw [if_neg (by omega), safe_bind, safe_peek]
        refine ⟨b, hb, ?_⟩
        rw [hcons, Camille.parseUriLoop.eq_def]
        dsimp only
        split
        · rw [safe_pure, ← hcons]
          exact ⟨le_rfl, hle, rfl⟩
        split
        · exact safe_pure.2 ⟨le_rfl, hle, rfl⟩
        split
        · exact safe_pure.2 ⟨le_rfl, hle, rfl⟩
        split
        · -- the look-ahead is two bytes long, and both are there
          rcases drop_cases data (pos + 1) with ⟨hleft, hnil⟩ | ⟨h₁, hlt₁, hb₁, hcons₁⟩
          · rw [if_pos (by omega), safe_pure, hnil]
            exact ⟨le_rfl, hle, rfl⟩
          rcases drop_cases data (pos + 2) with ⟨hleft, hnil⟩ | ⟨h₂, hlt₂, hb₂, hcons₂⟩
          · rw [if_pos (by omega), safe_pure, hcons₁, hnil]
            exact ⟨le_rfl, hle, rfl⟩
          rw [if_neg (by omega), safe_bind, safe_peek, hcons₁, hcons₂]
          dsimp only
          refine ⟨h₁, hb₁, ?_⟩
          cases isHexDigit h₁ with
          | false => exact safe_pure.2 ⟨le_rfl, hle, rfl⟩
          | true =>
              rw [Bool.not_true, if_neg Bool.false_ne_true, safe_bind, safe_peek]
              refine ⟨h₂, hb₂, ?_⟩
              cases isHexDigit h₂ with
              | false => exact safe_pure.2 ⟨le_rfl, hle, rfl⟩
              | true =>
                  rw [Bool.not_true, if_neg Bool.false_ne_true, safe_bind, safe_skip]
                  refine ⟨hlt₂.le, ?_⟩
                  rw [safe_bind, safe_skip]
                  refine ⟨hlt₂, (ih hlt₂ (by omega)).mono fun found pos' h => ?_⟩
                  exact ⟨by omega, h.2⟩
        · rw [safe_bind, safe_skip]
          refine ⟨hlt, (ih hlt (by omega)).mono fun found pos' h => ?_⟩
          exact ⟨(Nat.le_succ pos).trans h.1, h.2⟩

/-- **`ParseUri`** stays inside where there is a byte. -/
theorem parseUri_safe (d : T) (hlt : pos < data.length) :
    (parseUri d).Safe data pos fun result pos' =>
      .returned (listed data pos' result) = Camille.parseUri (data.drop pos) d := by
  rcases drop_cases data pos with ⟨hleft, -⟩ | ⟨b, -, hb, hcons⟩
  · omega
  rw [parseUri, safe_bind, safe_here, safe_bind, safe_peek]
  refine ⟨b, hb, ?_⟩
  rw [hcons, Camille.parseUri, ← hcons]
  split
  · exact safe_pure.2 rfl
  · rw [safe_bind, safe_skip]
    refine ⟨hlt, ?_⟩
    rw [safe_bind, safe_remaining, safe_bind]
    refine (parseUriLoop_safe _ hlt le_rfl).mono ?_
    rintro found pos' ⟨hpos, hle', hloop⟩
    rw [hloop]
    cases found with
    | false => exact safe_pure.2 rfl
    | true =>
        rw [Bool.not_true, if_neg Bool.false_ne_true, safe_bind, viewFrom_safe (by omega) hle']
        exact safe_pure.2 rfl

/-- With nothing left behind `HTTP`, the byte read for the slash is behind the data. -/
theorem parseVersion_result_of_http (d : T) (hle : pos ≤ data.length)
    (hhttp : data.drop pos = ascii "HTTP") : (parseVersion d).result data pos = none := by
  have hscan := scan_safe isSlash (fun b => isControl b || (!isChar b || !isUpper b)) hle
  refine safe_or_eq_none.resolve_left fun hsafe => ?_
  have hend : advance isSlash (fun b => isControl b || (!isChar b || !isUpper b))
      (ascii "HTTP") = some [] := by decide
  rw [parseVersion, safe_bind, safe_here, safe_bind] at hsafe
  obtain ⟨found, pos₁, -, hrest, hpos, hle₁, hadvance⟩ := hsafe.and hscan
  rw [hhttp, hend] at hadvance
  cases found with
  | false => cases hadvance
  | true =>
      have hnil : data.drop pos₁ = [] := (Option.some.inj hadvance).symm
      have hview : between (ascii "HTTP") [] = ascii "HTTP" := by decide
      rw [Bool.not_true, if_neg Bool.false_ne_true, safe_bind, viewFrom_safe hpos hle₁, hhttp,
        hnil, hview, if_neg (not_not.2 rfl), safe_bind, safe_peek] at hrest
      obtain ⟨a, ha, -⟩ := hrest
      have hlt := (List.getElem?_eq_some_iff.1 ha).1
      have hge := List.drop_eq_nil_iff.1 hnil
      omega

/-- **`ParseVersion`** stays inside where the list model has a result. -/
theorem parseVersion_safe_of_ne (d : T) (hle : pos ≤ data.length)
    (hundef : Camille.parseVersion (data.drop pos) d ≠ .undefined) :
    (parseVersion d).Safe data pos fun result pos' =>
      .returned (listed data pos' result) = Camille.parseVersion (data.drop pos) d := by
  rw [parseVersion, safe_bind, safe_here, safe_bind]
  refine (scan_safe isSlash (fun b => isControl b || (!isChar b || !isUpper b)) hle).mono ?_
  rintro found pos₁ ⟨hpos, hle₁, hadvance⟩
  rw [Camille.parseVersion, hadvance] at hundef ⊢
  cases found with
  | false => exact safe_pure.2 rfl
  | true =>
      rw [Bool.not_true, if_neg Bool.false_ne_true, safe_bind, viewFrom_safe hpos hle₁]
      simp only [if_true] at hundef ⊢
      by_cases hhttp : between (data.drop pos) (data.drop pos₁) = ascii "HTTP"
      · rw [if_neg (not_not.2 hhttp)] at hundef ⊢
        rw [if_neg (not_not.2 hhttp)]
        rcases drop_cases data pos₁ with ⟨-, hnil⟩ | ⟨b, hlt₁, hb, hcons⟩
        · rw [hnil] at hundef
          exact absurd rfl hundef
        · rw [hcons, safe_bind, safe_peek]
          refine ⟨b, hb, ?_⟩
          dsimp only
          cases isSlash b with
          | false => exact safe_pure.2 rfl
          | true =>
              simp only [Bool.not_true, Bool.false_eq_true, if_false]
              rw [safe_bind, safe_skip]
              refine ⟨hlt₁, ?_⟩
              rw [safe_bind, safe_here, safe_bind]
              refine (scan_safe _ _ hlt₁).mono ?_
              rintro found pos₂ ⟨hpos₂, hle₂, hadvance₂⟩
              rw [hadvance₂]
              cases found with
              | false => exact safe_pure.2 rfl
              | true =>
                  rw [Bool.not_true, if_neg Bool.false_ne_true, safe_bind,
                    viewFrom_safe hpos₂ hle₂, safe_bind, safe_remaining]
                  rcases drop_cases data pos₂ with ⟨hleft, hnil⟩ | ⟨c, hlt₂, hc, hcons₂⟩
                  · rw [if_pos hleft, hnil]
                    exact safe_pure.2 rfl
                  · rw [if_neg (by omega), safe_bind, safe_peek]
                    refine ⟨c, hc, ?_⟩
                    rw [hcons₂]
                    simp only [if_true]
                    cases isCR c with
                    | false => exact safe_pure.2 rfl
                    | true => exact safe_bind.2 (safe_skip.2 ⟨hlt₂, safe_pure.2 rfl⟩)
      · rw [if_pos hhttp, if_pos hhttp]
        exact safe_pure.2 rfl

/-- **`ParseVersion` reads behind the data** in one case: nothing is left behind `HTTP`. -/
theorem parseVersion_safe (d : T) (hle : pos ≤ data.length) :
    (Camille.parseVersion (data.drop pos) d = .undefined ∧
        (parseVersion d).result data pos = none) ∨
      (parseVersion d).Safe data pos fun result pos' =>
        .returned (listed data pos' result) = Camille.parseVersion (data.drop pos) d := by
  by_cases hundef : Camille.parseVersion (data.drop pos) d = .undefined
  · have hhttp : data.drop pos = ascii "HTTP" := by
      by_contra hne
      obtain ⟨v, hv⟩ := parseVersion_returned hne d
      rw [hv] at hundef
      cases hundef
    exact .inl ⟨hundef, parseVersion_result_of_http d hle hhttp⟩
  · exact .inr (parseVersion_safe_of_ne d hle hundef)

/-- The test for a line end leaves the cursor where it is. -/
theorem atLineEnd_safe :
    atLineEnd.Safe data pos fun lineEnd pos' => pos' = pos ∧
      (lineEnd = true → ∃ a b, data.drop pos = a :: b :: data.drop (pos + 2) ∧
        pos + 2 ≤ data.length ∧ isCR a = true ∧ isLF b = true) ∧
      (lineEnd = false → ∀ a b rest, data.drop pos = a :: b :: rest →
        (isCR a && isLF b) = false) := by
  rw [atLineEnd, safe_bind, safe_remaining]
  rcases drop_cases data pos with ⟨hleft, hnil⟩ | ⟨a, hlt, ha, hcons⟩
  · rw [if_pos (by omega), safe_pure, hnil]
    exact ⟨rfl, by simp, by simp⟩
  rcases drop_cases data (pos + 1) with ⟨hleft, hnil⟩ | ⟨b, hlt₁, hb, hcons₁⟩
  · rw [if_pos (by omega), safe_pure, hcons, hnil]
    exact ⟨rfl, by simp, by simp⟩
  rw [if_neg (by omega), safe_bind, safe_peek]
  refine ⟨a, ha, ?_⟩
  rw [hcons, hcons₁]
  cases hcr : isCR a with
  | false => exact safe_pure.2 ⟨rfl, by simp, by simp [hcr]⟩
  | true =>
      rw [Bool.not_true, if_neg Bool.false_ne_true, safe_bind, safe_peek]
      refine ⟨b, hb, safe_pure.2 ⟨rfl, fun hlf => ⟨a, b, rfl, hlt₁, hcr, hlf⟩, ?_⟩⟩
      intro hlf
      simp [hlf]

/-- Without a line end there is nothing to pass. -/
theorem isHeadersEnd_of_false {rest : Bytes} (h : ∀ a b tail, rest = a :: b :: tail →
    (isCR a && isLF b) = false) : Camille.isHeadersEnd rest = (true, rest) := by
  rcases rest with - | ⟨a, - | ⟨b, tail⟩⟩
  · rfl
  · rfl
  · simp only [Camille.isHeadersEnd, h a b tail rfl, Bool.false_eq_true, if_false]

/-- One line end is passed, and the block goes on. -/
theorem isHeadersEnd_of_lineEnd {a b : UInt8} {rest : Bytes} (ha : isCR a = true)
    (hb : isLF b = true) (h : ∀ a b tail, rest = a :: b :: tail → (isCR a && isLF b) = false) :
    Camille.isHeadersEnd (a :: b :: rest) = (true, rest) := by
  rcases rest with - | ⟨c, - | ⟨d, tail⟩⟩
  · simp only [Camille.isHeadersEnd, ha, hb, Bool.and_self, if_true]
  · simp only [Camille.isHeadersEnd, ha, hb, Bool.and_self, if_true]
  · simp only [Camille.isHeadersEnd, ha, hb, h c d tail rfl, Bool.and_self, if_true,
      Bool.false_eq_true, if_false]

/-- **The test for the end of the block** stays inside. -/
theorem isHeadersEnd_safe (hle : pos ≤ data.length) :
    isHeadersEnd.Safe data pos fun more pos' =>
      pos ≤ pos' ∧ pos' ≤ data.length ∧
        Camille.isHeadersEnd (data.drop pos) = (more, data.drop pos') := by
  rw [isHeadersEnd, safe_bind]
  refine atLineEnd_safe.mono ?_
  rintro lineEnd _ ⟨rfl, hyes, hno⟩
  cases lineEnd with
  | false => exact safe_pure.2 ⟨le_rfl, hle, isHeadersEnd_of_false (hno rfl)⟩
  | true =>
      obtain ⟨a, b, hcons, hle₂, hcr, hlf⟩ := hyes rfl
      rw [Bool.not_true, if_neg Bool.false_ne_true, safe_bind, safe_skip]
      refine ⟨hle₂, ?_⟩
      rw [safe_bind]
      refine atLineEnd_safe.mono ?_
      rintro emptyLine _ ⟨rfl, hyes₂, hno₂⟩
      rw [hcons]
      cases emptyLine with
      | false =>
          exact safe_pure.2 ⟨by omega, hle₂, isHeadersEnd_of_lineEnd hcr hlf (hno₂ rfl)⟩
      | true =>
          obtain ⟨a', b', hcons', hle', hcr', hlf'⟩ := hyes₂ rfl
          rw [Bool.not_true, if_neg Bool.false_ne_true, safe_bind, safe_skip]
          refine ⟨hle', safe_pure.2 ⟨by omega, hle', ?_⟩⟩
          rw [hcons']
          simp only [Camille.isHeadersEnd, hcr, hlf, hcr', hlf', Bool.and_self, if_true]

/-- **The trimming loop** drops the white space at the end of the view. -/
theorem trim_safe {begin owsit : ℕ} (h : begin ≤ owsit) (hle : owsit ≤ data.length) :
    (trim begin owsit).Safe data pos fun last pos' => pos' = pos ∧ begin ≤ last ∧
      last ≤ owsit ∧ (data.drop begin).take (last - begin) =
        ((data.drop begin).take (owsit - begin)).rdropWhile isSpace := by
  induction owsit with
  | zero =>
      obtain rfl : begin = 0 := by omega
      exact safe_pure.2 ⟨rfl, le_rfl, le_rfl, rfl⟩
  | succ owsit ih =>
      rw [trim]
      split
      · rename_i hlt
        obtain ⟨a, ha⟩ : ∃ a, data[owsit]? = some a :=
          ⟨_, List.getElem?_eq_getElem (Nat.lt_of_succ_le hle)⟩
        have hconcat : (data.drop begin).take (owsit + 1 - begin) =
            (data.drop begin).take (owsit - begin) ++ [a] := by
          have hindex : (data.drop begin)[owsit - begin]? = some a := by
            rw [List.getElem?_drop, ← ha]
            congr 1
            omega
          rw [show owsit + 1 - begin = owsit - begin + 1 by omega, List.take_add_one, hindex]
          rfl
        rw [safe_bind, safe_readAt]
        refine ⟨a, ha, ?_⟩
        rw [hconcat]
        cases hspace : isSpace a with
        | true =>
            rw [if_pos rfl, List.rdropWhile_concat_pos _ _ _ hspace]
            refine (ih (by omega) (by omega)).mono fun last pos' hlast => ?_
            exact ⟨hlast.1, hlast.2.1, hlast.2.2.1.trans (Nat.le_succ owsit), hlast.2.2.2⟩
        | false =>
            have hneg : ¬ isSpace a = true := by rw [hspace]; exact Bool.false_ne_true
            rw [if_neg Bool.false_ne_true, safe_pure, List.rdropWhile_concat_neg _ _ _ hneg,
              ← hconcat]
            exact ⟨rfl, h, le_rfl, rfl⟩
      · obtain rfl : begin = owsit + 1 := by omega
        rw [safe_pure, Nat.sub_self, List.take_zero]
        exact ⟨rfl, le_rfl, le_rfl, rfl⟩

/-- Inside the data, a position is known by what is left. -/
theorem drop_eq_drop_iff {i j : ℕ} (hi : i ≤ data.length) (hj : j ≤ data.length) :
    data.drop i = data.drop j ↔ i = j := by
  refine ⟨fun h => ?_, fun h => congrArg data.drop h⟩
  have hlength := congrArg List.length h
  rw [List.length_drop, List.length_drop] at hlength
  omega

/-- The outcome of a round of `ParseHeaders`, with the list of what is left. -/
def listedHeader (data : Bytes) (pos : ℕ) (outcome : Outcome (Option (Bool × T))) :
    Outcome (Option (Bool × Bytes × T)) :=
  outcome.bind fun result => .returned (result.map fun r => (r.1, data.drop pos, r.2))

/-- The outcome of `ParseHeaders`, with the list of what is left. -/
def listedHeaders (data : Bytes) (pos : ℕ) (outcome : Outcome (Option T)) :
    Outcome (Option (Bytes × T)) :=
  outcome.bind fun result => .returned (listed data pos result)

/-- **`ParseHeader`** stays inside, with the same result. -/
theorem parseHeader_safe (d : T) (hle : pos ≤ data.length) :
    (parseHeader d).Safe data pos fun outcome pos' =>
      pos' ≤ data.length ∧
        listedHeader data pos' outcome = Camille.parseHeader (data.drop pos) d := by
  rw [parseHeader, safe_bind, safe_here, safe_bind]
  refine (scan_safe _ _ hle).mono ?_
  rintro found pos₁ ⟨hpos, hle₁, hadvance⟩
  rw [safe_bind, safe_here, safe_bind, safe_remaining, Camille.parseHeader, hadvance]
  cases found with
  | false => exact safe_pure.2 ⟨hle₁, rfl⟩
  | true =>
      have hend : (pos₁ = pos ∨ data.length - pos₁ = 0) ↔
          (data.drop pos₁ = data.drop pos ∨ data.drop pos₁ = []) := by
        rw [drop_eq_drop_iff hle₁ hle, List.drop_eq_nil_iff, Nat.sub_eq_zero_iff_le]
      simp only [Bool.not_true, Bool.false_eq_true, if_false, if_true, hend]
      split
      · exact safe_pure.2 ⟨hle₁, rfl⟩
      rename_i hkey
      rw [not_or] at hkey
      rcases drop_cases data pos₁ with ⟨-, hnil⟩ | ⟨b, hlt₁, -, hcons⟩
      · exact absurd hnil hkey.2
      rw [safe_bind, safe_view (by omega), ← between_drop hpos hle₁, safe_bind, safe_skip]
      refine ⟨hlt₁, ?_⟩
      rw [safe_bind, safe_remaining, List.tail_drop]
      rcases drop_cases data (pos₁ + 1) with ⟨hleft, hnil⟩ | ⟨ws, hlt₂, hws, hcons₂⟩
      · rw [if_pos hleft, hnil]
        exact safe_pure.2 ⟨hlt₁, rfl⟩
      rw [if_neg (by omega), safe_bind, safe_peek, hcons₂]
      refine ⟨ws, hws, ?_⟩
      dsimp only
      cases isSpace ws with
      | false => exact safe_pure.2 ⟨hlt₁, rfl⟩
      | true =>
          simp only [Bool.not_true, Bool.false_eq_true, if_false]
          rw [safe_bind, safe_skip]
          refine ⟨hlt₂, ?_⟩
          rw [safe_bind, safe_here, safe_bind]
          refine (scan_safe _ _ hlt₂).mono ?_
          rintro found pos₂ ⟨hpos₂, hle₂, hadvance₂⟩
          rw [hadvance₂]
          cases found with
          | false => exact safe_pure.2 ⟨hle₂, rfl⟩
          | true =>
              rw [Bool.not_true, if_neg Bool.false_ne_true, safe_bind, safe_here, safe_bind]
              refine (trim_safe hpos₂ hle₂).mono ?_
              rintro owsit _ ⟨rfl, hbegin, howsit, htrim⟩
              rw [safe_bind, safe_view (by omega), htrim, ← between_drop hpos₂ hle₂]
              simp only [if_true]
              generalize (if isHostKey (between (data.drop pos) (data.drop pos₁)) = true then _
                else _) = recorded
              cases recorded with
              | threw e => exact safe_pure.2 ⟨hle₂, rfl⟩
              | undefined => exact safe_pure.2 ⟨hle₂, rfl⟩
              | returned d' =>
                  refine safe_bind.2 ((isHeadersEnd_safe hle₂).mono ?_)
                  rintro more pos₃ ⟨hpos₃, hle₃, hend₃⟩
                  rw [safe_pure, Outcome.returned_bind, hend₃]
                  exact ⟨hle₃, rfl⟩

/-- **The loop over the lines** stays inside, by induction on its rounds. -/
theorem parseHeadersLoop_safe (rounds : ℕ) (d : T) (hle : pos ≤ data.length) :
    (parseHeadersLoop rounds d).Safe data pos fun outcome pos' =>
      listedHeaders data pos' outcome =
        Camille.parseHeadersLoop rounds (data.drop pos) d := by
  induction rounds generalizing pos d with
  | zero =>
      rw [parseHeadersLoop, safe_bind, safe_remaining]
      rcases drop_cases data pos with ⟨hleft, hnil⟩ | ⟨b, hlt, -, hcons⟩
      · rw [if_pos hleft, safe_pure, hnil, Camille.parseHeadersLoop, ← hnil]
        rfl
      · rw [if_neg (by omega), safe_pure, hcons]
        rfl
  | succ rounds ih =>
      rw [parseHeadersLoop, safe_bind, safe_remaining]
      rcases drop_cases data pos with ⟨hleft, hnil⟩ | ⟨b, hlt, -, hcons⟩
      · rw [if_pos hleft, safe_pure, hnil, Camille.parseHeadersLoop, ← hnil]
        rfl
      · rw [if_neg (by omega), hcons, Camille.parseHeadersLoop, ← hcons]
        refine safe_bind.2 ((parseHeader_safe d hle).mono ?_)
        rintro outcome pos' ⟨hle', hround⟩
        rw [← hround]
        rcases outcome with (- | ⟨more, d'⟩) | e | -
        · exact safe_pure.2 rfl
        · cases more with
          | true => exact ih d' hle'
          | false => exact safe_pure.2 rfl
        · exact safe_pure.2 rfl
        · exact safe_pure.2 rfl

/-- **`ParseHeaders`** runs that loop. -/
theorem parseHeaders_safe (d : T) (hle : pos ≤ data.length) :
    (parseHeaders d).Safe data pos fun outcome pos' =>
      listedHeaders data pos' outcome = Camille.parseHeaders (data.drop pos) d := by
  rw [parseHeaders, safe_bind, safe_remaining, Camille.parseHeaders, List.length_drop]
  exact parseHeadersLoop_safe _ d hle

/-- A body that is too short leaves the cursor where it is. -/
theorem parseBodyIdentify_safe (d : T) (n : ℕ) (hle : pos ≤ data.length) :
    (parseBodyIdentify d n).Safe data pos fun result pos' =>
      listed data pos' result = Camille.parseBodyIdentify (data.drop pos) d n ∧
        (result = none → pos' = pos) := by
  rw [parseBodyIdentify, safe_bind, safe_remaining, Camille.parseBodyIdentify, List.length_drop]
  split
  · exact safe_pure.2 ⟨rfl, fun _ => rfl⟩
  · rw [safe_bind, safe_here, safe_bind, safe_view (by omega), safe_bind, safe_skip, safe_pure,
      List.drop_drop]
    exact ⟨by omega, rfl, fun h => by cases h⟩

/-! ### The loop on lists -/

/-- What an iteration by index ends in, against the iteration on lists: the same state of
the loop, or, once the data is given up, the same parser; or the same result. A result
that is undefined for another reason leaves the parser elsewhere than at `kVersion`. -/
inductive Agrees (data : Bytes) (pos : ℕ) :
    (Parser × T) ⊕ ParseResult T → Loop T ⊕ ParseResult T → Prop
  | goes (p : Parser) (d : T) : Agrees data pos (.inl (p, d)) (.inl ⟨p, data.drop pos, d⟩)
  | ends {p : Parser} (d : T) {l : Loop T} : ¬ p.currentState.Running → l.parser = p →
      Agrees data pos (.inl (p, d)) (.inl l)
  | exits {r : ParseResult T} : (r.1 = .undefined → r.2.currentState ≠ .kVersion) →
      Agrees data pos (.inr r) (.inr r)

omit [IsReqResType T] in
/-- Both give the data up with the same error. -/
theorem Agrees.fail (p : Parser) (e : Errors) (d d' : T) (rest : Bytes) :
    Agrees data pos (.inl (p.fail e, d)) (.inl ⟨p.fail e, rest, d'⟩) :=
  .ends d (fun h => h (.inr rfl)) rfl

/-- **The header block.** -/
theorem stepHeaders_safe (p : Parser) (d : T) (hle : pos ≤ data.length)
    (hs : p.currentState = .kHeaders) :
    (stepHeaders p d).Safe data pos fun next pos' =>
      Agrees data pos' next (Camille.stepHeaders p (data.drop pos) d) := by
  rw [stepHeaders, safe_bind]
  refine (parseHeaders_safe d hle).mono ?_
  rintro outcome pos' hheaders
  rw [Camille.stepHeaders, ← hheaders]
  have hexit : p.currentState ≠ .kVersion := by rw [hs]; decide
  rcases outcome with (- | d') | e | -
  · exact safe_pure.2 (.fail _ _ _ _ _)
  · simp only [listedHeaders, Outcome.returned_bind, listed, Option.map_some]
    cases getHeader d' kHost with
    | none => exact safe_pure.2 (.fail _ _ _ _ _)
    | some host =>
        cases getHeader d' kContentLength with
        | none => exact safe_pure.2 (.exits fun h => by cases h)
        | some clHeader => exact safe_pure.2 (.goes _ _)
  · exact safe_pure.2 (.exits fun h => by cases h)
  · exact safe_pure.2 (.exits fun _ => hexit)

/-- **The decision about the body** reads no byte. -/
theorem stepBodyValidation_safe (p : Parser) (d : T) :
    (stepBodyValidation p d).Safe data pos fun next pos' =>
      Agrees data pos' next (Camille.stepBodyValidation p (data.drop pos) d) := by
  rw [stepBodyValidation, Camille.stepBodyValidation]
  cases getHeader d kContentLength with
  | none =>
      cases getHeader d kTransferEncoding with
      | none => exact safe_pure.2 (.goes _ _)
      | some _ => exact safe_pure.2 (.fail _ _ _ _ _)
  | some clHeader =>
      cases getHeader d kTransferEncoding with
      | some _ => exact safe_pure.2 (.fail _ _ _ _ _)
      | none =>
          dsimp only
          cases validateContentLength clHeader with
          | none => exact safe_pure.2 (.exits fun h => by cases h)
          | some n => exact safe_pure.2 (.goes _ _)

/-- **A body of known length.** -/
theorem stepBodyIdentify_safe (p : Parser) (d : T) (hle : pos ≤ data.length)
    (hs : p.currentState = .kBodyIdentify) :
    (stepBodyIdentify p d).Safe data pos fun next pos' =>
      Agrees data pos' next (Camille.stepBodyIdentify p (data.drop pos) d) := by
  have hexit : p.currentState ≠ .kVersion := by rw [hs]; decide
  rw [stepBodyIdentify, Camille.stepBodyIdentify]
  cases contentLength d with
  | none => exact safe_pure.2 (.exits fun _ => hexit)
  | some n =>
      dsimp only
      rw [safe_bind]
      refine (parseBodyIdentify_safe d n hle).mono ?_
      rintro (- | d') pos' ⟨hbody, hstay⟩
      · obtain rfl := hstay rfl
        rw [← hbody]
        exact safe_pure.2 (.goes _ _)
      · rw [← hbody]
        exact safe_pure.2 (.exits fun h => by cases h)

omit [IsReqResType T] in
/-- The states that take one byte. -/
theorem token_safe {test : UInt8 → Bool} (p : Parser) (s : States) (e : Errors) (d : T)
    {b : UInt8} (hlt : pos < data.length) (hb : data[pos]? = some b) :
    (do
      let token ← peek 0
      if test token then
        skip 1
        return .inl (p.enter s, d)
      else return .inl (p.fail e, d) :
      Cursor UInt8 ((Parser × T) ⊕ ParseResult T)).Safe data pos fun next pos' =>
      Agrees data pos' next
        (if test b then .inl ⟨p.enter s, data.drop (pos + 1), d⟩
        else .inl ⟨p.fail e, b :: data.drop (pos + 1), d⟩) := by
  rw [safe_bind, safe_peek]
  refine ⟨b, hb, ?_⟩
  cases test b with
  | false => exact safe_pure.2 (.fail _ _ _ _ _)
  | true => exact safe_bind.2 (safe_skip.2 ⟨hlt, safe_pure.2 (.goes _ _)⟩)

/-- At the end of the loop or of the data nothing is read. -/
theorem step_safe_of_end {p : Parser} (d : T)
    (h : ¬ p.currentState.Running ∨ data.length - pos = 0) :
    (step p d).Safe data pos fun next pos' =>
      Agrees data pos' next (Camille.step ⟨p, data.drop pos, d⟩) := by
  by_cases hrun : p.currentState.Running
  · have hleft := h.resolve_left (not_not.2 hrun)
    have hnil : data.drop pos = [] := List.drop_eq_nil_of_le (by omega)
    rw [step, if_neg hrun, safe_bind, safe_remaining, if_pos hleft, hnil, step_nil hrun]
    exact safe_pure.2 (.exits fun h => by cases h)
  · rw [step, if_pos (not_not.1 hrun), step_of_not_running hrun]
    exact safe_pure.2 (.exits fun h => by cases h)

/-- **One iteration by index** is the iteration on lists, everywhere but at `kVersion`. -/
theorem step_safe_of_ne {p : Parser} (hversion : p.currentState ≠ .kVersion) (d : T)
    (hle : pos ≤ data.length) :
    (step p d).Safe data pos fun next pos' =>
      Agrees data pos' next (Camille.step ⟨p, data.drop pos, d⟩) := by
  by_cases hrun : p.currentState.Running
  swap
  · exact step_safe_of_end d (.inl hrun)
  rcases drop_cases data pos with ⟨hleft, -⟩ | ⟨b, hlt, hb, hcons⟩
  · exact step_safe_of_end d (.inr hleft)
  have hne : data.drop pos ≠ [] := by
    rw [hcons]
    exact List.cons_ne_nil b _
  rw [step, if_neg hrun, safe_bind, safe_remaining, if_neg (by omega)]
  cases hs : p.currentState with
  | kReady =>
      rw [step_kReady hs hne]
      exact safe_pure.2 (.goes _ _)
  | kMethod =>
      rw [step_kMethod hs hne, safe_bind]
      refine (parseMethod_safe d hle).mono ?_
      rintro (- | d') pos' hmethod
      · rw [← hmethod]
        exact safe_pure.2 (.fail _ _ _ _ _)
      · rw [← hmethod]
        exact safe_pure.2 (.goes _ _)
  | kWaitUri =>
      rw [hcons, step_kWaitUri hs]
      exact token_safe p .kUriStart .kBadRequest d hlt hb
  | kUriStart =>
      rw [hcons, step_kUriStart hs, ← hcons]
      dsimp only
      rw [safe_bind, safe_peek]
      refine ⟨b, hb, ?_⟩
      cases isSlash b with
      | false => exact safe_pure.2 (.fail _ _ _ _ _)
      | true => exact safe_pure.2 (.goes _ _)
  | kUri =>
      dsimp only
      rw [safe_bind]
      refine (parseUri_safe d hlt).mono ?_
      rintro result pos' huri
      rw [step_kUri hs hne huri.symm]
      cases result with
      | none => exact safe_pure.2 (.fail _ _ _ _ _)
      | some d' => exact safe_pure.2 (.goes _ _)
  | kWaitVersion =>
      rw [hcons, step_kWaitVersion hs]
      exact token_safe p .kVersion .kBadRequest d hlt hb
  | kVersion => exact absurd hs hversion
  | kHeadersWait =>
      rw [hcons, step_kHeadersWait hs]
      exact token_safe p .kHeaders .kPartialMessage d hlt hb
  | kHeaders =>
      rw [step_kHeaders hs hne]
      exact stepHeaders_safe p d hle hs
  | kBodyValidation =>
      rw [step_kBodyValidation hs hne]
      exact stepBodyValidation_safe p d
  | kBodyIdentify =>
      rw [step_kBodyIdentify hs hne]
      exact stepBodyIdentify_safe p d hle hs
  | kBodyChunked =>
      rw [step_kBodyChunked hs hne]
      exact safe_pure.2 (.fail _ _ _ _ _)
  | kComplete => exact absurd (.inl hs) hrun
  | kGarbage => exact absurd (.inr hs) hrun

/-- At `kVersion` an iteration is `ParseVersion`. -/
theorem step_safe_iff_of_version {p : Parser} (hs : p.currentState = .kVersion) (d : T)
    (hlt : pos < data.length) {Q : (Parser × T) ⊕ ParseResult T → ℕ → Prop} :
    (step p d).Safe data pos Q ↔ (parseVersion d).Safe data pos fun result pos' =>
      Q (.inl (result.elim (p.fail .kBadVersion, d) fun d' => (p.enter .kHeadersWait, d')))
        pos' := by
  have hrun : p.currentState.Running := by
    rw [hs]
    decide
  rw [step, if_neg hrun, safe_bind, safe_remaining, if_neg (by omega), hs]
  dsimp only
  rw [safe_bind]
  constructor
  · refine fun h => h.mono ?_
    rintro (- | d') pos' hq
    · exact safe_pure.1 hq
    · exact safe_pure.1 hq
  · refine fun h => h.mono ?_
    rintro (- | d') pos' hq
    · exact safe_pure.2 hq
    · exact safe_pure.2 hq

/-- **One iteration by index** is the iteration on lists, unless it reads behind the data,
at `kVersion`. -/
theorem step_safe (p : Parser) (d : T) (hle : pos ≤ data.length) :
    (p.currentState = .kVersion ∧ Camille.step ⟨p, data.drop pos, d⟩ = .inr (.undefined, p) ∧
        (step p d).result data pos = none) ∨
      (step p d).Safe data pos fun next pos' =>
        Agrees data pos' next (Camille.step ⟨p, data.drop pos, d⟩) := by
  by_cases hs : p.currentState = .kVersion
  swap
  · exact .inr (step_safe_of_ne hs d hle)
  rcases drop_cases data pos with ⟨hleft, -⟩ | ⟨b, hlt, -, hcons⟩
  · exact .inr (step_safe_of_end d (.inr hleft))
  have hne : data.drop pos ≠ [] := by
    rw [hcons]
    exact List.cons_ne_nil b _
  rcases parseVersion_safe d hle with ⟨hundef, hnone⟩ | hsafe
  · refine .inl ⟨hs, step_kVersion_undefined hs hne hundef, ?_⟩
    refine safe_or_eq_none.resolve_left fun h => ?_
    obtain ⟨_, _, hr, -⟩ := (step_safe_iff_of_version hs d hlt).1 h
    rw [hnone] at hr
    cases hr
  · refine .inr ((step_safe_iff_of_version hs d hlt).2 (hsafe.mono ?_))
    rintro result pos' hversion
    rw [step_kVersion hs hne hversion.symm]
    cases result with
    | none => exact .fail _ _ _ _ _
    | some d' => exact .goes _ _

/-- What the loop by index ends in, against the loop on lists: the same result, or both
are still running. A result that is undefined for another reason than a read behind the
data leaves the parser elsewhere than at `kVersion`. -/
def Answers (next : (Parser × T) ⊕ ParseResult T) (answer : Option (ParseResult T)) : Prop :=
  next.getRight? = answer ∧
    ∀ r ∈ answer, r.1 = .undefined → r.2.currentState ≠ .kVersion

/-- **The loop by index** is the loop on lists, unless it reads behind the data, where the
other ends undefined at `kVersion`. -/
theorem loop_safe (n : ℕ) {p : Parser} {d : T} {l : Loop T}
    (h : Agrees data pos (.inl (p, d)) (.inl l)) (hle : pos ≤ data.length) :
    ((loop n p d).result data pos = none ∧ ∃ q, q.currentState = .kVersion ∧
        run Camille.step n l = some (.undefined, q)) ∨
      (loop n p d).Safe data pos fun next _ => Answers next (run Camille.step n l) := by
  induction n generalizing p d l pos with
  | zero => exact .inr (safe_pure.2 ⟨rfl, fun r hr => by cases hr⟩)
  | succ n ih =>
      have hloop : loop (n + 1) p d = step p d >>= Sum.elim (fun s => loop n s.1 s.2)
          fun result => pure (.inr result) := by
        rw [loop]
        congr 1
        funext next
        cases next <;> rfl
      cases h with
      | ends _ hend hl =>
          have hstep : Camille.step l = .inr (.returned (.error l.parser.error), l.parser) :=
            step_of_not_running (hl ▸ hend)
          refine .inr ?_
          rw [hloop, safe_bind, step, if_pos (not_not.1 hend), safe_pure,
            run_succ_of_inr hstep, hl]
          exact safe_pure.2 ⟨rfl, fun r hr hu => by cases hr; cases hu⟩
      | goes =>
          rcases step_safe p d hle with ⟨hs, hstep, hnone⟩ | hsafe
          · refine .inl ⟨?_, p, hs, run_succ_of_inr hstep n⟩
            rw [hloop, result_bind, hnone]
            rfl
          · obtain ⟨next, pos', hres, hagrees, hle'⟩ := hsafe.bounded hle
            have hresult : (loop (n + 1) p d).result data pos =
                (Sum.elim (fun s => loop n s.1 s.2) (fun result => pure (.inr result))
                  next).result data pos' := by
              rw [hloop, result_bind, hres]
              rfl
            generalize hstep : Camille.step ⟨p, data.drop pos, d⟩ = out at hagrees
            cases hagrees with
            | goes p' d' =>
                rw [run_succ_of_inl hstep]
                exact (ih (.goes p' d') hle').imp (fun h => ⟨hresult.trans h.1, h.2⟩)
                  fun h => h.congr hresult
            | ends d' hend hl =>
                rw [run_succ_of_inl hstep]
                exact (ih (.ends d' hend hl) hle').imp (fun h => ⟨hresult.trans h.1, h.2⟩)
                  fun h => h.congr hresult
            | @exits r hversion =>
                refine .inr ⟨.inr r, pos', hresult, ?_⟩
                rw [run_succ_of_inr hstep]
                exact ⟨rfl, fun r' hr' => Option.some.inj hr' ▸ hversion⟩

/-- **`Parse` by index** is `Parse` on lists, unless it reads behind the data, where the
other ends undefined at `kVersion`. -/
theorem parse_safe (n : ℕ) (p : Parser) (data : Bytes) :
    ((parse T n p).result data 0 = none ∧ ∃ q, q.currentState = .kVersion ∧
        p.parseWithin T n data = some (.undefined, q)) ∨
      (parse T n p).Safe data 0 fun next _ => Answers next (p.parseWithin T n data) := by
  rw [parse, Parser.parseWithin]
  by_cases hdata : data = []
  · subst hdata
    refine .inr (safe_bind.2 (safe_remaining.2 (safe_pure.2 ⟨rfl, ?_⟩)))
    intro r hr hu
    cases hr
    cases hu
  · have hsize : data.length - 0 ≠ 0 := fun h => hdata (List.length_eq_zero_iff.1 h)
    have hstart : Agrees data 0
        (.inl ({ p with totalConsumed := data.length - 0 }, (fresh : T)))
        (.inl (p.start T data)) := .goes _ _
    rw [if_neg hdata]
    rcases loop_safe n hstart (Nat.zero_le _) with ⟨hnone, hundef⟩ | hsafe
    · refine .inl ⟨?_, hundef⟩
      rw [result_bind]
      show (ite (data.length - 0 = 0) _ _ : Cursor _ _).result data 0 = none
      rw [if_neg hsize, hnone]
    · exact .inr (safe_bind.2 (safe_remaining.2 (by rwa [if_neg hsize])))

/-- **Reads within the data.** In every call, on every reachable parser, everything that
is read and every place of the cursor lies within the data, exactly when the data does not
break off behind `HTTP`. -/
theorem reads_within_iff {p : Parser} (hp : Reachable p) (data : Bytes) :
    (∀ n, ∀ a ∈ (parse T n p).touched data 0, a.Within data.length) ↔
      ¬ ReadsPast p.currentState data := by
  simp only [within_iff]
  constructor
  · intro hall hpast
    have hne : data ≠ [] := by
      obtain ⟨q, hq⟩ := parse_of_readsPast (T := T) hpast
      rintro rfl
      rw [Parser.parse_nil] at hq
      cases hq
    have hparse := (Parser.parse_eq_some_iff (T := T) hne).2
      (exits_of_readsPast (p := { p with totalConsumed := data.length }) hpast)
    rcases parse_safe (T := T) 14 p data with ⟨hnone, -⟩ | hsafe
    · obtain ⟨_, _, hr, -⟩ := hall 14
      rw [hnone] at hr
      cases hr
    · obtain ⟨_, _, -, -, hversion⟩ := hsafe
      exact hversion _ hparse rfl rfl
  · intro hpast n
    rcases parse_safe (T := T) n p data with ⟨-, q, -, hundef⟩ | hsafe
    · refine absurd ((parse_eq_undefined_iff (T := T) hp.rests).1 ⟨q, ?_⟩) hpast
      have hne : data ≠ [] := by
        rintro rfl
        cases hundef
      rw [Parser.parseWithin, if_neg hne] at hundef
      exact (Parser.parse_eq_some_iff hne).2 ⟨n, hundef⟩
    · exact hsafe.mono fun _ _ _ => trivial

/-- `reads_within_iff` on a start line that breaks off behind `HTTP`. -/
theorem reads_within_iff_http :
    (∀ n, ∀ a ∈ (parse Request n {}).touched (ascii "GET / HTTP") 0,
        a.Within (ascii "GET / HTTP").length) ↔
      ¬ ReadsPast States.kReady (ascii "GET / HTTP") :=
  reads_within_iff .default _

/-- Not every byte read is one of the data: behind `HTTP` the byte at its end is read. -/
theorem not_reads_within :
    ¬ ∀ p : Parser, Reachable p → ∀ (data : Bytes) (n : ℕ),
      ∀ a ∈ (parse Request n p).touched data 0, a.Within data.length := by
  intro h
  have hread : Access.read 10 ∈ (parse Request 7 {}).touched (ascii "GET / HTTP") 0 := by decide
  exact absurd (h {} .default (ascii "GET / HTTP") 7 _ hread) (by decide)

end Lists

end Camille.Reads
