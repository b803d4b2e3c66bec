import Camille.Chars

/-!
# Requests and Responses

The two message classes of `request.h` and `response.h`, and the concept
`IsReqResType` the parser is a template over. Both classes keep the same data (`Fields`)
under the same setters; an instance of the concept says, beside the setters, which
fields a message shows and that each setter writes its own field and no other, so that
everything proved about the parser holds of both classes at once.

`content_length_` has no initialiser: until `SetContentLength` its value is
indeterminate, which is `none` here.

## Main results

* `getHeaderIn_eq_some_iff`: `GetHeader` finds a header exactly when its name occurs
  once.
* `getHeaderInt_eq`: its counter, an `int`, does not overflow over fewer than `2 ^ 31`
  headers.
* `instIsReqResTypeRequest`, `instIsReqResTypeResponse`: both classes meet the concept.
* `getHeader_exact`: what `GetHeader` answers after a sequence of `AddHeader` calls.
-/

namespace Camille

/-- `types::camille::CamilleHeaders`: key and value, in order of arrival. -/
abbrev CamilleHeaders := List (Bytes × Bytes)

/-! ### Looking a header up -/

/-- The body of `GetHeader`, which both classes write out: the last value under the key
and the number of entries with that key, and the value only when there is one entry.
The count is an `int`, taken as unbounded here: `getHeaderInt` has the bound, and
`getHeaderInt_of_reaches` carries it to the headers the parser records. -/
def getHeaderIn (headers : CamilleHeaders) (headerKey : Bytes) : Option Bytes :=
  let found := headers.foldl
    (fun (acc : Bytes × ℕ) (header : Bytes × Bytes) =>
      if headerKey = header.1 then (header.2, acc.2 + 1) else acc)
    ([], 0)
  if found.2 = 1 then some found.1 else none

/-- The values a header list holds under a key, in order. -/
def valuesOf (headers : CamilleHeaders) (key : Bytes) : List Bytes :=
  (headers.filter fun header => key = header.1).map Prod.snd

/-- No header, no value. -/
@[simp] theorem valuesOf_nil (key : Bytes) : valuesOf [] key = [] := rfl

/-- A header is one value more under its own key. -/
theorem valuesOf_cons (header : Bytes × Bytes) (headers : CamilleHeaders) (key : Bytes) :
    valuesOf (header :: headers) key =
      if key = header.1 then header.2 :: valuesOf headers key else valuesOf headers key := by
  by_cases h : key = header.1 <;> simp [valuesOf, h]

/-- There is a value for each header under the key. -/
theorem length_valuesOf (headers : CamilleHeaders) (key : Bytes) :
    (valuesOf headers key).length = (headers.map Prod.fst).count key := by
  induction headers with
  | nil => rfl
  | cons header headers ih =>
      obtain ⟨k, v⟩ := header
      rw [valuesOf_cons, List.map_cons, List.count_cons, ← ih]
      by_cases h : key = k
      · simp [h]
      · simp [h, Ne.symm h]

/-- The two accumulators of the loop: the last value under the key, and how many. -/
theorem foldl_getHeader (headers : CamilleHeaders) (key : Bytes) (acc : Bytes × ℕ) :
    headers.foldl
      (fun (acc : Bytes × ℕ) (header : Bytes × Bytes) =>
        if key = header.1 then (header.2, acc.2 + 1) else acc) acc =
      ((valuesOf headers key).getLastD acc.1, acc.2 + (valuesOf headers key).length) := by
  induction headers generalizing acc with
  | nil => simp
  | cons header headers ih =>
      rw [List.foldl_cons, ih, valuesOf_cons]
      by_cases h : key = header.1
      · rw [if_pos h, if_pos h, List.getLastD_cons, List.length_cons]
        exact Prod.ext rfl (by simp only; omega)
      · rw [if_neg h, if_neg h]

/-- **`GetHeader` finds a value exactly when the key occurs once**; an absent key and a
repeated one both give `nullopt`. -/
theorem getHeaderIn_eq_some_iff {headers : CamilleHeaders} {key value : Bytes} :
    getHeaderIn headers key = some value ↔ valuesOf headers key = [value] := by
  rw [getHeaderIn, foldl_getHeader]
  rcases valuesOf headers key with - | ⟨v, - | ⟨w, vs⟩⟩ <;> simp

/-- **There is no answer** unless the key is there once. -/
theorem getHeaderIn_eq_none_iff {headers : CamilleHeaders} {key : Bytes} :
    getHeaderIn headers key = none ↔ (valuesOf headers key).length ≠ 1 := by
  rw [getHeaderIn, foldl_getHeader]
  rcases valuesOf headers key with - | ⟨v, - | ⟨w, vs⟩⟩ <;> simp

/-- `std::numeric_limits<int>::max()`. -/
def intMax : ℕ := 2 ^ 31 - 1

/-- The loop of `GetHeader` with `dup` as the `int` it is declared as: counting past its
maximum is undefined. -/
def getHeaderLoop (headerKey : Bytes) : Bytes × ℕ → CamilleHeaders → Option (Bytes × ℕ)
  | found, [] => some found
  | (headerValue, dup), header :: headers =>
    if headerKey = header.1 then
      if dup = intMax then none else getHeaderLoop headerKey (header.2, dup + 1) headers
    else getHeaderLoop headerKey (headerValue, dup) headers

/-- `GetHeader` with an `int` for its counter; `none` when that overflows. -/
def getHeaderInt (headers : CamilleHeaders) (headerKey : Bytes) : Option (Option Bytes) :=
  (getHeaderLoop headerKey ([], 0) headers).map fun found =>
    if found.2 = 1 then some found.1 else none

/-- The loop of `GetHeader` counts right as long as its counter does not overflow. -/
theorem getHeaderLoop_eq {headers : CamilleHeaders} {key : Bytes} {found : Bytes × ℕ}
    (h : found.2 + (valuesOf headers key).length ≤ intMax) :
    getHeaderLoop key found headers =
      some ((valuesOf headers key).getLastD found.1,
        found.2 + (valuesOf headers key).length) := by
  induction headers generalizing found with
  | nil => rfl
  | cons header headers ih =>
      obtain ⟨value, dup⟩ := found
      rw [valuesOf_cons] at h ⊢
      by_cases hk : key = header.1
      · rw [if_pos hk, List.length_cons] at h
        have hdup : dup ≠ intMax := by
          dsimp only at h
          omega
        rw [getHeaderLoop, if_pos hk, if_neg hdup, ih (by dsimp only at h ⊢; omega), if_pos hk,
          List.getLastD_cons, List.length_cons]
        exact congrArg some (Prod.ext rfl (by dsimp only; omega))
      · rw [if_neg hk] at h
        rw [getHeaderLoop, if_neg hk, if_neg hk]
        exact ih h

/-- **The counter does not overflow** when no key occurs more often than it can count. -/
theorem getHeaderInt_eq {headers : CamilleHeaders} {key : Bytes}
    (h : (valuesOf headers key).length ≤ intMax) :
    getHeaderInt headers key = some (getHeaderIn headers key) := by
  rw [getHeaderInt, getHeaderLoop_eq (by simpa using h), getHeaderIn, foldl_getHeader]
  rfl

/-- There are not more values than headers. -/
theorem length_valuesOf_le (headers : CamilleHeaders) (key : Bytes) :
    (valuesOf headers key).length ≤ headers.length := by
  rw [valuesOf, List.length_map]
  exact List.length_filter_le _ headers

/-- One value under a key: one entry has the key. -/
theorem valuesOf_eq_singleton_iff {headers : CamilleHeaders} {key value : Bytes} :
    valuesOf headers key = [value] ↔
      ∃ before behind, headers = before ++ (key, value) :: behind ∧
        key ∉ before.map Prod.fst ∧ key ∉ behind.map Prod.fst := by
  have habsent : ∀ headers : CamilleHeaders,
      valuesOf headers key = [] ↔ key ∉ headers.map Prod.fst := by
    intro headers
    rw [← List.length_eq_zero_iff, length_valuesOf, List.count_eq_zero]
  constructor
  · intro h
    induction headers with
    | nil => cases h
    | cons header headers ih =>
        rw [valuesOf_cons] at h
        by_cases hk : key = header.1
        · rw [if_pos hk] at h
          obtain ⟨hvalue, hrest⟩ := List.cons.inj h
          exact ⟨[], headers, by rw [hk, ← hvalue]; rfl, List.not_mem_nil, (habsent _).mp hrest⟩
        · rw [if_neg hk] at h
          obtain ⟨before, behind, rfl, hbefore, hbehind⟩ := ih h
          refine ⟨header :: before, behind, rfl, ?_, hbehind⟩
          rw [List.map_cons, List.mem_cons, not_or]
          exact ⟨hk, hbefore⟩
  · rintro ⟨before, behind, rfl, hbefore, hbehind⟩
    have happend : valuesOf (before ++ (key, value) :: behind) key =
        valuesOf before key ++ valuesOf ((key, value) :: behind) key := by
      rw [valuesOf, List.filter_append, List.map_append]
      rfl
    rw [happend, (habsent _).mpr hbefore, valuesOf_cons, if_pos rfl, (habsent _).mpr hbehind]
    rfl

/-- Entries with other keys do not matter. -/
theorem valuesOf_filter (headers : CamilleHeaders) (key : Bytes) :
    valuesOf (headers.filter fun header => header.1 = key) key = valuesOf headers key := by
  rw [valuesOf, List.filter_filter, valuesOf]
  congr 2
  funext header
  by_cases h : key = header.1 <;> simp [h]

/-! ### The two classes -/

/-- `request::Request`. -/
structure Request where
  host : Bytes := []
  port : Bytes := []
  path : Bytes := []
  body : Bytes := []
  method : Bytes := []
  version : Bytes := []
  contentLength : Option ℕ := none
  headers : CamilleHeaders := []
  hasAuth : Bool := false
  requestSize : ℕ := 0
  deriving DecidableEq, Repr

/-- `response::Response`. -/
structure Response where
  host : Bytes := []
  port : Bytes := []
  path : Bytes := []
  body : Bytes := []
  method : Bytes := []
  version : Bytes := []
  contentLength : Option ℕ := none
  headers : CamilleHeaders := []
  responseSize : ℕ := 0
  deriving DecidableEq, Repr

/-- `Request::GetHeader`. -/
def Request.getHeader (r : Request) (headerKey : Bytes) : Option Bytes :=
  getHeaderIn r.headers headerKey

/-- `Response::GetHeader`. -/
def Response.getHeader (r : Response) (headerKey : Bytes) : Option Bytes :=
  getHeaderIn r.headers headerKey

/-- `Request::GetHeader`, with its counter as declared. -/
def Request.getHeaderInt (r : Request) (headerKey : Bytes) : Option (Option Bytes) :=
  Camille.getHeaderInt r.headers headerKey

/-- `Response::GetHeader`, with its counter as declared. -/
def Response.getHeaderInt (r : Response) (headerKey : Bytes) : Option (Option Bytes) :=
  Camille.getHeaderInt r.headers headerKey

/-- What both classes hold, as a reader of the message sees it. -/
structure Fields where
  host : Bytes := []
  port : Bytes := []
  path : Bytes := []
  body : Bytes := []
  method : Bytes := []
  version : Bytes := []
  contentLength : Option ℕ := none
  headers : CamilleHeaders := []
  size : ℕ := 0
  deriving DecidableEq, Repr

/-- `concepts::IsReqResType`, with `ContentLength()`, which the parser also calls, and
with the fields a message shows. -/
class IsReqResType (T : Type) where
  /-- `T dtype;` -/
  fresh : T
  setHost : T → Bytes → T
  setPort : T → Bytes → T
  setPath : T → Bytes → T
  setBody : T → Bytes → T
  setMethod : T → Bytes → T
  setVersion : T → Bytes → T
  setContentLength : T → ℕ → T
  addHeader : T → Bytes → Bytes → T
  getHeader : T → Bytes → Option Bytes
  setSize : T → ℕ → T
  contentLength : T → Option ℕ
  fields : T → Fields
  fields_fresh : fields fresh = {}
  fields_setHost : ∀ d v, fields (setHost d v) = { fields d with host := v }
  fields_setPort : ∀ d v, fields (setPort d v) = { fields d with port := v }
  fields_setPath : ∀ d v, fields (setPath d v) = { fields d with path := v }
  fields_setBody : ∀ d v, fields (setBody d v) = { fields d with body := v }
  fields_setMethod : ∀ d v, fields (setMethod d v) = { fields d with method := v }
  fields_setVersion : ∀ d v, fields (setVersion d v) = { fields d with version := v }
  fields_setContentLength : ∀ d n,
    fields (setContentLength d n) = { fields d with contentLength := some n }
  fields_addHeader : ∀ d k v,
    fields (addHeader d k v) = { fields d with headers := (fields d).headers ++ [(k, v)] }
  fields_setSize : ∀ d n, fields (setSize d n) = { fields d with size := n }
  getHeader_eq : ∀ d k, getHeader d k = getHeaderIn (fields d).headers k
  contentLength_eq : ∀ d, contentLength d = (fields d).contentLength

attribute [simp] IsReqResType.fields_fresh IsReqResType.fields_setHost
  IsReqResType.fields_setPort IsReqResType.fields_setPath IsReqResType.fields_setBody
  IsReqResType.fields_setMethod IsReqResType.fields_setVersion
  IsReqResType.fields_setContentLength IsReqResType.fields_addHeader
  IsReqResType.fields_setSize IsReqResType.getHeader_eq IsReqResType.contentLength_eq

/-- A request is a message. -/
instance : IsReqResType Request where
  fresh := {}
  setHost r host := { r with host := host }
  setPort r port := { r with port := port }
  setPath r path := { r with path := path }
  setBody r body := { r with body := body }
  setMethod r method := { r with method := method }
  setVersion r version := { r with version := version }
  setContentLength r contentLength := { r with contentLength := some contentLength }
  addHeader r key value := { r with headers := r.headers ++ [(key, value)] }
  getHeader := Request.getHeader
  setSize r size := { r with requestSize := size }
  contentLength := Request.contentLength
  fields r :=
    { host := r.host, port := r.port, path := r.path, body := r.body, method := r.method,
      version := r.version, contentLength := r.contentLength, headers := r.headers,
      size := r.requestSize }
  fields_fresh := rfl
  fields_setHost _ _ := rfl
  fields_setPort _ _ := rfl
  fields_setPath _ _ := rfl
  fields_setBody _ _ := rfl
  fields_setMethod _ _ := rfl
  fields_setVersion _ _ := rfl
  fields_setContentLength _ _ := rfl
  fields_addHeader _ _ _ := rfl
  fields_setSize _ _ := rfl
  getHeader_eq _ _ := rfl
  contentLength_eq _ := rfl

/-- A response is a message. -/
instance : IsReqResType Response where
  fresh := {}
  setHost r host := { r with host := host }
  setPort r port := { r with port := port }
  setPath r path := { r with path := path }
  setBody r body := { r with body := body }
  setMethod r method := { r with method := method }
  setVersion r version := { r with version := version }
  setContentLength r contentLength := { r with contentLength := some contentLength }
  addHeader r key value := { r with headers := r.headers ++ [(key, value)] }
  getHeader := Response.getHeader
  setSize r size := { r with responseSize := size }
  contentLength := Response.contentLength
  fields r :=
    { host := r.host, port := r.port, path := r.path, body := r.body, method := r.method,
      version := r.version, contentLength := r.contentLength, headers := r.headers,
      size := r.responseSize }
  fields_fresh := rfl
  fields_setHost _ _ := rfl
  fields_setPort _ _ := rfl
  fields_setPath _ _ := rfl
  fields_setBody _ _ := rfl
  fields_setMethod _ _ := rfl
  fields_setVersion _ _ := rfl
  fields_setContentLength _ _ := rfl
  fields_addHeader _ _ _ := rfl
  fields_setSize _ _ := rfl
  getHeader_eq _ _ := rfl
  contentLength_eq _ := rfl

/-! ### Added headers -/

/-- An object of a message class after a sequence of `AddHeader` calls. -/
def addHeaders (T : Type) [IsReqResType T] (added : CamilleHeaders) : T :=
  added.foldl (fun d header => IsReqResType.addHeader d header.1 header.2) IsReqResType.fresh

/-- **Every header that was added is kept**, in order. -/
theorem headers_addHeaders {T : Type} [IsReqResType T] (added : CamilleHeaders) :
    (IsReqResType.fields (addHeaders T added)).headers = added := by
  have hfold : ∀ (added : CamilleHeaders) (d : T),
      (IsReqResType.fields
        (added.foldl (fun d header => IsReqResType.addHeader d header.1 header.2) d)).headers =
        (IsReqResType.fields d).headers ++ added := by
    intro added
    induction added with
    | nil => simp
    | cons header added ih =>
        intro d
        rw [List.foldl_cons, ih, IsReqResType.fields_addHeader, List.append_assoc]
        rfl
  rw [addHeaders, hfold, IsReqResType.fields_fresh]
  rfl

/-- An exact look-up among added pairs: a value is found when one pair and no other has
the key, nothing when no pair has it or several do, and only the pairs with the key
count. -/
structure ExactLookup (lookup : CamilleHeaders → Bytes → Option (Option Bytes))
    (added : CamilleHeaders) : Prop where
  found : ∀ key value, lookup added key = some (some value) ↔
    ∃ before behind, added = before ++ (key, value) :: behind ∧
      key ∉ before.map Prod.fst ∧ key ∉ behind.map Prod.fst
  refused : ∀ key, lookup added key = some none ↔ (added.map Prod.fst).count key ≠ 1
  own : ∀ key, lookup added key = lookup (added.filter fun header => header.1 = key) key

/-- **`GetHeader` looks up exactly**, as long as its counter does not overflow. -/
theorem exactLookup_getHeaderInt {added : CamilleHeaders} (h : added.length ≤ intMax) :
    ExactLookup getHeaderInt added := by
  have hcount : ∀ key, getHeaderInt added key = some (getHeaderIn added key) := fun key =>
    getHeaderInt_eq ((length_valuesOf_le added key).trans h)
  refine ⟨fun key value => ?_, fun key => ?_, fun key => ?_⟩
  · rw [hcount, Option.some_inj, getHeaderIn_eq_some_iff, valuesOf_eq_singleton_iff]
  · rw [hcount, Option.some_inj, getHeaderIn_eq_none_iff, length_valuesOf]
  · have hown : (valuesOf (added.filter fun header => header.1 = key) key).length ≤ intMax := by
      rw [valuesOf_filter]
      exact (length_valuesOf_le added key).trans h
    rw [hcount, getHeaderInt_eq hown, getHeaderIn, foldl_getHeader, getHeaderIn, foldl_getHeader,
      valuesOf_filter]

/-- **`GetHeader` is exact** in both classes, after fewer than `2 ^ 31` calls of
`AddHeader`. -/
theorem getHeader_exact (added : CamilleHeaders) (h : added.length < 2 ^ 31) :
    ExactLookup (fun added => (addHeaders Request added).getHeaderInt) added ∧
      ExactLookup (fun added => (addHeaders Response added).getHeaderInt) added := by
  have hexact : ExactLookup getHeaderInt added :=
    exactLookup_getHeaderInt (Nat.le_sub_one_of_lt h)
  have hrequest : (fun added => (addHeaders Request added).getHeaderInt) = getHeaderInt := by
    funext added
    exact congrArg getHeaderInt (headers_addHeaders (T := Request) added)
  have hresponse : (fun added => (addHeaders Response added).getHeaderInt) = getHeaderInt := by
    funext added
    exact congrArg getHeaderInt (headers_addHeaders (T := Response) added)
  rw [hrequest, hresponse]
  exact ⟨hexact, hexact⟩

/-- A key among others, and one that was added twice. -/
theorem getHeader_exact_twice :
    ExactLookup (fun added => (addHeaders Request added).getHeaderInt)
        [(kHost, ascii "a:1"), (kContentLength, ascii "5"), (kContentLength, ascii "5")] ∧
      ExactLookup (fun added => (addHeaders Response added).getHeaderInt)
        [(kHost, ascii "a:1"), (kContentLength, ascii "5"), (kContentLength, ascii "5")] :=
  getHeader_exact _ (by decide)

end Camille
