import Camille.Returned

/-!
# The Checks on Paths and Versions

`ParseUri` asks of each byte that it is a character, a URI symbol or a slash, and refuses
it when it is none of the three. Every ASCII byte is a character, so the table of URI
symbols refuses nothing. `ParseVersion` asks of each byte that it is a digit or a dot, and
nothing of the text they make up.

## Main results

* `allowListEffective_iff`: when the symbols of a path are those a URI may hold.
* `onlyHttpVersions_iff`: when no text but an HTTP version passes for one.
-/

open Lib

namespace Camille

section Checks

variable {T : Type} [IsReqResType T]

open IsReqResType

/-! ### Paths -/

/-- The symbols a path or a query may hold unescaped, beside those of `UriTraits`. -/
def pathSymbols : List Char :=
  ['!', '$', '\'', '(', ')', '*', '+', ',', ';', ':', '@']

/-- A byte a path may hold: a letter, a digit, a slash, the sign of an escape, a symbol of
`UriTraits` or one of the other symbols. -/
def isUriByte (b : UInt8) : Bool :=
  (0x30 ≤ b && b ≤ 0x39) || (0x41 ≤ b && b ≤ 0x5A) || (0x61 ≤ b && b ≤ 0x7A) ||
    b == '/'.toUInt8 || b == '%'.toUInt8 || uriTraits b ||
    (pathSymbols.map Char.toUInt8).contains b

/-- A path of such bytes, with escapes of two hexadecimal digits. -/
structure IsUriPath (path : Bytes) : Prop where
  bytes : ∀ b ∈ path, isUriByte b = true
  escapes : ∀ t, 0x25 :: t <:+ path →
    ∃ h₁ h₂ t', t = h₁ :: h₂ :: t' ∧ isHexByte h₁ = true ∧ isHexByte h₂ = true

/-- The other visible bytes: the two quotation marks, angle, square and curly brackets, the
backslash, the circumflex and the vertical bar. -/
def deniedSymbols : Bytes :=
  [0x22, 0x3C, 0x3E, 0x5B, 0x5C, 0x5D, 0x5E, 0x60, 0x7B, 0x7C, 0x7D]

/-- `ParseUri` lets the data through only with the path of a URI, and refuses it when any
other byte stands before the white space that ends the path. -/
def AllowListEffective (T : Type) [IsReqResType T] (data : Bytes) : Prop :=
  ∀ d : T,
    (∀ r d', parseUri data d = .returned (some (r, d')) → IsUriPath (fields d').path) ∧
    ((∃ b ∈ data.takeWhile (fun b => !isSpace b), isUriByte b = false) →
      parseUri data d = .returned none)

/-- The data begins with a path that holds one of the denied symbols. -/
def HasDeniedSymbol (data : Bytes) : Prop :=
  ∃ path rest, data = path ++ rest ∧ IsPath path ∧ AtStop isSpace rest ∧
    ∃ b ∈ path, b ∈ deniedSymbols

/-- The visible bytes that no URI holds are those of the table. -/
theorem isUriByte_eq_false_iff :
    ∀ b : UInt8, isVisible b = true → (isUriByte b = false ↔ b ∈ deniedSymbols) := by
  decide +kernel

/-- A path passes the test for visible bytes. -/
theorem IsPath.isVisible {path : Bytes} (h : IsPath path) : ∀ b ∈ path, isVisible b = true := by
  intro b hb
  simpa [Camille.isVisible] using h.visible b hb

/-- No white space stands in a path. -/
theorem IsPath.not_isSpace {path : Bytes} (h : IsPath path) : ∀ b ∈ path, isSpace b = false :=
  fun b hb => (isVisible_cases (h.isVisible b hb)).1

/-- **When the allow-list of `ParseUri` has an effect**: exactly when the data does not
begin with a path that holds one of the denied symbols. -/
theorem allowListEffective_iff (data : Bytes) :
    AllowListEffective T data ↔ ¬ HasDeniedSymbol data := by
  constructor
  · rintro heffective ⟨path, rest, rfl, hpath, hrest, b, hb, hdenied⟩
    have hparse : parseUri (path ++ rest) (fresh : T) =
        .returned (some (rest, setPath fresh path)) :=
      parseUri_eq_some_iff.mpr ⟨path, rfl, hpath, hrest, rfl⟩
    have huri := ((heffective fresh).1 _ _ hparse).bytes b (by simpa using hb)
    rw [(isUriByte_eq_false_iff b (hpath.isVisible b hb)).mpr hdenied] at huri
    cases huri
  · intro hno d
    have hbytes : ∀ path r, data = path ++ r → IsPath path → AtStop isSpace r →
        ∀ b ∈ path, isUriByte b = true := by
      intro path r hdata hpath hr b hb
      by_contra huri
      have hdenied := (isUriByte_eq_false_iff b (hpath.isVisible b hb)).mp
        (Bool.eq_false_iff.mpr huri)
      exact hno ⟨path, r, hdata, hpath, hr, b, hb, hdenied⟩
    constructor
    · intro r d' hparse
      obtain ⟨path, hdata, hpath, hr, rfl⟩ := parseUri_eq_some_iff.mp hparse
      rw [fields_setPath]
      exact ⟨hbytes path r hdata hpath hr, fun t ht => hpath.escapes ht⟩
    · rintro ⟨b, hb, huri⟩
      have hdata : data ≠ [] := by
        rintro rfl
        cases hb
      obtain ⟨v, hparse⟩ := parseUri_returned hdata d
      rcases v with - | ⟨r, d'⟩
      · exact hparse
      · obtain ⟨path, rfl, hpath, hr, -⟩ := parseUri_eq_some_iff.mp hparse
        rw [takeWhile_append_of_atStop hpath.not_isSpace hr] at hb
        rw [hbytes path r rfl hpath hr b hb] at huri
        cases huri

/-- An angle bracket gets into a path. -/
theorem not_allowListEffective : ¬ ∀ data : Bytes, AllowListEffective Request data := by
  intro h
  have hpath := (h (ascii "/<") {}).1 [] { path := ascii "/<" } (by decide)
  exact absurd (hpath.bytes 0x3C (by decide)) (by decide)

/-! ### Versions -/

/-- An HTTP version: one digit, a dot and one digit. -/
def IsHttpVersion (version : Bytes) : Prop :=
  ∃ major minor, version = [major, '.'.toUInt8, minor] ∧
    isDigit major = true ∧ isDigit minor = true

/-- Only HTTP versions pass: they are what the messages show, and any other text between
`HTTP/` and a carriage return, or the end of the data, is refused. -/
def OnlyHttpVersions (T : Type) [IsReqResType T] (data : Bytes) : Prop :=
  (∀ (d : T) (q : Parser), ({} : Parser).parse T data = some (.returned (.ok d), q) →
    IsHttpVersion (fields d).version) ∧
  ∀ (sl : StartLine) (version rest : Bytes),
    data = sl.target (ascii "HTTP/" ++ (version ++ rest)) .kReady →
      (0x0D : UInt8) ∉ version → AtStop isCR rest → ¬ IsHttpVersion version →
      ∃ q, ({} : Parser).parse T data = some (.returned (.error .kBadVersion), q)

/-- The data begins with a start line, up to its carriage return, whose version consists of
digits and dots but is no HTTP version. -/
def HasLooseVersion (data : Bytes) : Prop :=
  ∃ (sl : StartLine) (rest : Bytes),
    data = sl.target (ascii "HTTP/" ++ (sl.version ++ 0x0D :: rest)) .kReady ∧
      ¬ IsHttpVersion sl.version

/-- Data that is refused for its version leads to it, and there to no token. -/
theorem Refused.version_cases {s : States} {data : Bytes} (h : Refused s data .kBadVersion) :
    ∃ r, Leads (s, data) (.kVersion, r) ∧ Refuses .kVersion r := by
  generalize he : Errors.kBadVersion = e at h
  cases h with
  | @token s₁ r hchain hrefuses =>
      have hversion : s₁ = .kVersion := by
        have hrank := hrefuses.1
        cases s₁ <;> first | rfl | cases he
      exact ⟨r, hversion ▸ hchain, hversion ▸ hrefuses⟩
  | cut | malformed | hosts | awaited | conflict => cases he

/-- **A version of digits and dots is not refused**, whatever its shape. -/
theorem not_refused_of_version (sl : StartLine) (rest : Bytes) :
    ¬ Refused .kReady (sl.target (ascii "HTTP/" ++ (sl.version ++ 0x0D :: rest)) .kReady)
      .kBadVersion := by
  intro hrefused
  obtain ⟨r, hchain, hrefuses⟩ := hrefused.version_cases
  have hversion : Leads (.kReady, sl.target (ascii "HTTP/" ++ (sl.version ++ 0x0D :: rest)) .kReady)
      (.kVersion, ascii "HTTP/" ++ (sl.version ++ 0x0D :: rest)) :=
    (leads_kVersion_iff (by decide)).mpr ⟨sl, rfl⟩
  have hr : r = ascii "HTTP/" ++ (sl.version ++ 0x0D :: rest) := hchain.eq_of_state hversion
  have htok : Token .kVersion r .kHeadersWait rest := hr ▸ Token.version sl.version_valid
  exact hrefuses.2.2.1 _ _ htok

/-- A text that is no run of digits and dots in front of a carriage return is refused as a
version. -/
theorem refuses_version {version rest : Bytes} (hcr : (0x0D : UInt8) ∉ version)
    (hrest : AtStop isCR rest)
    (hbyte : ¬ ((∀ b ∈ version, isVersionByte b = true) ∧ ∃ r, rest = 0x0D :: r)) :
    Refuses .kVersion (ascii "HTTP/" ++ (version ++ rest)) := by
  have hhttp : (ascii "HTTP/").length = 5 ∧ (ascii "HTTP").length = 4 := by decide
  have hne : ascii "HTTP/" ++ (version ++ rest) ≠ [] := by
    refine List.append_ne_nil_of_left_ne_nil (List.ne_nil_of_length_pos ?_) _
    omega
  refine ⟨by decide, hne, ?_, ?_⟩
  · intro s' pos' htok
    generalize hx : ascii "HTTP/" ++ (version ++ rest) = x at htok
    cases htok with
    | @version v r hv =>
        have hv' : ∀ b ∈ v, isCR b = false := fun b hb => not_isCR_of_isVersionByte (hv b hb)
        obtain ⟨rfl, rfl⟩ := append_inj_of_atStop (List.append_cancel_left hx)
          (beq_eq_false_of_notMem hcr) hrest hv' (atStop_cons.mpr isCR_cr)
        exact hbyte ⟨hv, _, rfl⟩
  · rintro ⟨-, he⟩
    have hlength := congrArg List.length he
    rw [List.length_append] at hlength
    omega

/-- **When only HTTP versions pass**: exactly when the data does not begin with a start line
whose version is loose. -/
theorem onlyHttpVersions_iff (data : Bytes) :
    OnlyHttpVersions T data ↔ ¬ HasLooseVersion data := by
  constructor
  · rintro ⟨-, hrefused⟩ ⟨sl, rest, hdata, hloose⟩
    obtain ⟨q, hparse⟩ := hrefused sl sl.version (0x0D :: rest) hdata sl.not_cr_mem_version
      (atStop_cons.mpr isCR_cr) hloose
    have hne : data ≠ [] := by
      rintro rfl
      simp [StartLine.target] at hdata
    have hr := (parse_error_iff (p := {}) Parser.rank_fresh hne .kBadVersion).mp ⟨q, hparse⟩
    exact not_refused_of_version sl rest (hdata ▸ hr)
  · intro hno
    constructor
    · intro d q hparse
      obtain ⟨R, hR⟩ := exists_reading_of_parse hparse
      have hversion : (fields d).version = R.startLine.version := by
        rcases hR with ⟨-, hd⟩ | ⟨n, -, -, -, hd⟩ <;> rw [hd] <;> rfl
      by_contra hloose
      rw [hversion] at hloose
      have hdata : data = R.startLine.ahead (R.block.bytes ++ R.rest) .kReady := R.data_eq
      rw [R.startLine.ahead_eq (by decide)] at hdata
      exact hno ⟨R.startLine, _, hdata, hloose⟩
    · intro sl version rest hdata hcr hrest hloose
      have hbyte : ¬ ((∀ b ∈ version, isVersionByte b = true) ∧ ∃ r, rest = 0x0D :: r) := by
        rintro ⟨hvalid, r, rfl⟩
        let loose : StartLine := { sl with version := version, version_valid := hvalid }
        exact hno ⟨loose, r, hdata, hloose⟩
      have hchain : Leads (.kReady, data) (.kVersion, ascii "HTTP/" ++ (version ++ rest)) :=
        (leads_kVersion_iff (by decide)).mpr ⟨sl, hdata⟩
      obtain ⟨q, hparse, -⟩ := parse_of_refuses (T := T) (p := {}) hchain
        (refuses_version hcr hrest hbyte)
      exact ⟨q, hparse⟩

/-- A start line without any version, in front of a host. -/
def noVersion : Bytes :=
  ascii "GET / HTTP/\r\nHost: a:1\r\n\r\n"

/-- A message without a version is returned. -/
theorem not_onlyHttpVersions : ¬ ∀ data : Bytes, OnlyHttpVersions Request data := by
  intro h
  have hparse : ({} : Parser).parse Request noVersion = some (.returned (.ok
      { host := ascii "a", port := ascii "1", path := ascii "/", method := ascii "GET",
        headers := [(kHost, ascii "a:1")], requestSize := noVersion.length }),
      { used := true, totalConsumed := noVersion.length, currentState := .kComplete }) := by
    decide
  obtain ⟨major, minor, hversion, -⟩ := (h noVersion).1 _ _ hparse
  cases hversion

end Checks

end Camille
