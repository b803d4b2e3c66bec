import Camille.Returned

/-!
# Hosts With Colons

HTTP separates a port from its host by a colon, and the host may be an IPv6 literal in
square brackets, full of colons. `ParseHost` cuts the value at the first colon there is.

## Main results

* `value_of_bytes`: the value of a line `Host: host:port`.
* `host_port_iff`: when host and port are recovered from such a line.
-/

open Lib

namespace Camille

/-- A host in a `Host` header: a name or an IPv4 address, without a colon, or an IPv6
literal in square brackets. -/
inductive UriHost : Bytes → Prop
  | name {host : Bytes} : ':'.toUInt8 ∉ host → UriHost host
  | literal (address : Bytes) : UriHost ('['.toUInt8 :: (address ++ [']'.toUInt8]))

/-- **The value of a line `Host: host:port`**: nothing is trimmed behind the digits of the
port. -/
theorem HeaderLine.value_of_bytes {l : HeaderLine} {host port : Bytes}
    (hline : l.bytes = ascii "Host: " ++ (host ++ ':'.toUInt8 :: port)) (hne : port ≠ [])
    (hport : ∀ b ∈ port, isDigit b = true) : l.value = host ++ ':'.toUInt8 :: port := by
  have hprefix : ascii "Host: " = kHost ++ ':'.toUInt8 :: [' '.toUInt8] := by decide
  rw [HeaderLine.bytes, hprefix, List.append_assoc, List.cons_append] at hline
  obtain ⟨-, hrest⟩ := append_cons_inj_of_notMem hline l.not_colon_mem_key (by decide)
  have hraw : l.raw = host ++ ':'.toUInt8 :: port := (List.cons.inj hrest).2
  have hdigit : ∀ b : UInt8, isDigit b = true → isSpace b = false := by decide +kernel
  rw [HeaderLine.value, hraw]
  refine List.rdropWhile_eq_self_iff.mpr fun hvalue => ?_
  have hlast : (host ++ ':'.toUInt8 :: port).getLast hvalue = port.getLast hne := by
    rw [List.getLast_append_of_right_ne_nil _ _ (List.cons_ne_nil _ _), List.getLast_cons hne]
  rw [hlast, hdigit _ (hport _ (List.getLast_mem hne))]
  exact Bool.false_ne_true

section Hosts

variable {T : Type} [IsReqResType T] {data : Bytes}

open IsReqResType

/-- **When host and port are recovered**, from a message in which one header and no other
is named `host` in any letter case, and its line is `Host: host:port`: exactly when there
is no colon in the host. -/
theorem host_port_iff (R : Reading .kReady data) (hR : R.Accepted) {l : HeaderLine}
    (hl : (R.block.lines.filter fun h => isHostKey h.key) = [l]) {host port : Bytes}
    (hline : l.bytes = ascii "Host: " ++ (host ++ ':'.toUInt8 :: port)) (hne : port ≠ [])
    (hport : ∀ b ∈ port, isDigit b = true) :
    (∃ (d : T) (q : Parser), ({} : Parser).parse T data = some (.returned (.ok d), q) ∧
      (fields d).host = host ∧ (fields d).port = port) ↔ ':'.toUInt8 ∉ host := by
  have hvalue := l.value_of_bytes hline hne hport
  have hhostLine : hostLine R.block.lines = some l := by
    rw [hostLine, hl]
    rfl
  obtain ⟨f, hf⟩ := hR.exists_shows
  obtain ⟨d, q, hparse, rfl⟩ := Reading.Shows.parse (T := T) (p := {}) hf Parser.rank_fresh
  obtain ⟨l', hl', hsplit, hcolon, -⟩ := hf.host
  obtain rfl : l = l' := Option.some.inj (hhostLine.symm.trans hl')
  rw [hvalue] at hsplit
  constructor
  · rintro ⟨d', q', hparse', hhost, -⟩
    obtain ⟨rfl, -⟩ : d = d' ∧ q = q' := by simpa [hparse] using hparse'
    exact hhost ▸ hcolon
  · intro hname
    obtain ⟨hhost, hport⟩ := append_cons_inj_of_notMem hsplit hname hcolon
    exact ⟨d, q, hparse, hhost.symm, hport.symm⟩

end Hosts

/-- A request to a host in its block, and nothing else. -/
def requestTo (l : HeaderLine) : Bytes :=
  (default : StartLine).ahead ((⟨l, [], .emptyLine⟩ : HeaderBlock).bytes ++ []) .kReady

/-- The reading of such a request. -/
def readingTo (l : HeaderLine) (hl : l.Splits) : Reading .kReady (requestTo l) where
  startLine := default
  block := ⟨l, [], .emptyLine⟩
  rest := []
  data_eq := rfl
  fits := .inl rfl
  splits := fun h hh => by
    obtain rfl : h = l := List.mem_singleton.mp hh
    exact hl

/-- It has no body. -/
theorem noBody_readingTo {l : HeaderLine} (hl : l.Splits) (hkey : l.key = kHost) :
    (readingTo l hl).NoBody := by
  have hfields : (readingTo l hl).block.fields = [(kHost, l.value)] := by
    rw [← hkey]
    rfl
  constructor
  · rw [Reading.OneHost, HeaderBlock.values, hfields]
    rfl
  · have hne : kContentLength ≠ kHost := by decide
    rw [HeaderBlock.values, hfields, valuesOf_cons, if_neg hne]
    exact Nat.zero_ne_one

/-- Its only host-like line is the given one. -/
theorem filter_readingTo {l : HeaderLine} (hl : l.Splits) (hkey : l.key = kHost) :
    ((readingTo l hl).block.lines.filter fun h => isHostKey h.key) = [l] := by
  have hhost : isHostKey l.key = true := by
    rw [hkey]
    decide
  exact List.filter_eq_self.mpr fun h hh => by
    obtain rfl : h = l := List.mem_singleton.mp hh
    exact hhost

/-- `Host: [::1]:80`. -/
def ipv6Host : HeaderLine :=
  .ofHostValue (ascii "[::1]:80") (by decide)

/-- A name and its port. -/
theorem ofHost_host_port :
    (∃ (d : Request) (q : Parser),
      ({} : Parser).parse Request (requestTo .ofHost) = some (.returned (.ok d), q) ∧
        (IsReqResType.fields d).host = ascii "a" ∧ (IsReqResType.fields d).port = ascii "1") ↔
      ':'.toUInt8 ∉ ascii "a" :=
  host_port_iff (readingTo .ofHost (by decide)) (.inl (noBody_readingTo _ rfl))
    (filter_readingTo _ rfl) (by decide) (by decide) (List.all_eq_true.mp (by decide))

/-- The host of an IPv6 literal is its opening bracket. -/
theorem not_host_port :
    ¬ ∀ (data : Bytes) (R : Reading .kReady data) (l : HeaderLine) (host port : Bytes),
      R.Accepted → (R.block.lines.filter fun h => isHostKey h.key) = [l] → UriHost host →
      l.bytes = ascii "Host: " ++ (host ++ ':'.toUInt8 :: port) → port ≠ [] →
      (∀ b ∈ port, isDigit b = true) →
      ∃ (d : Request) (q : Parser), ({} : Parser).parse Request data = some (.returned (.ok d), q) ∧
        (IsReqResType.fields d).host = host ∧ (IsReqResType.fields d).port = port := by
  intro h
  obtain ⟨d, q, hparse, hhost, -⟩ := h _ (readingTo ipv6Host (by decide)) ipv6Host
    (ascii "[::1]") (ascii "80") (.inl (noBody_readingTo _ rfl)) (filter_readingTo _ rfl)
    (.literal (ascii "::1")) (by decide) (by decide) (List.all_eq_true.mp (by decide))
  have hbracket : ({} : Parser).parse Request (requestTo ipv6Host) = some (.returned (.ok
      { host := ascii "[", port := ascii ":1]:80", path := ascii "/", method := ascii "GET",
        version := ascii "1.1", headers := [(kHost, ascii "[::1]:80")],
        requestSize := (requestTo ipv6Host).length }),
      { used := true, totalConsumed := (requestTo ipv6Host).length,
        currentState := .kComplete }) := by
    decide
  obtain ⟨rfl, -⟩ : _ = d ∧ _ = q := by simpa [hparse] using hbracket.symm
  exact absurd hhost (by decide)

end Camille
