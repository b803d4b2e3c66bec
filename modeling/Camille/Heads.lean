import Camille.Framing

/-!
# Heads

Where the head of a message ends. The empty line behind the headers is the first `CRLFCRLF`
of the data, whatever the headers are: no token of the grammar holds a carriage return, and
no header line is empty. A reader that cuts the stream at its first `CRLFCRLF`, as the
server does, hands over heads and nothing behind them.

## Main results

* `firstEnd_block`: the first empty line stands behind the header lines, from whatever part
  of the start line is still to be read.
* `Reading.firstEnd_eq`: a reading ends with the first empty line, or with the data.
* `accepts_iff_of_head`: the heads a fresh parser accepts.
-/

open Lib

namespace Camille

/-- A line end that no line end follows is skipped. -/
theorem firstEnd_crlf {l : Bytes} (h : ∀ b ∈ l.head?, isCR b = false) :
    firstEnd crlfcrlf (crlf ++ l) = (firstEnd crlfcrlf l).map (· + 2) := by
  have hcr : ¬ crlfcrlf <+: crlf ++ l := by
    rintro ⟨t, ht⟩
    have hl : crlf ++ t = l := by simpa [crlfcrlf] using ht
    have := h 0x0D (by rw [← hl]; rfl)
    exact absurd this (by decide)
  have hlf : ¬ crlfcrlf <+: 0x0A :: l := fun hp =>
    absurd (List.cons_prefix_cons.mp hp).1 (by decide)
  rw [crlf, List.cons_append, List.cons_append, List.nil_append] at hcr ⊢
  rw [firstEnd, if_neg hcr, firstEnd, if_neg hlf, Option.map_map]
  rfl

/-- No empty line starts before the last header line ends. -/
theorem firstEnd_joinLines (h : HeaderLine) (hs : List HeaderLine) (l : Bytes) :
    firstEnd crlfcrlf (joinLines h hs ++ l) =
      (firstEnd crlfcrlf l).map (· + (joinLines h hs).length) := by
  induction hs generalizing h with
  | nil => exact firstEnd_append_of_notMem h.not_cr_mem_bytes _ _
  | cons h' hs ih =>
      obtain ⟨r, hr⟩ := exists_joinLines h' hs
      have hcr : ∀ b ∈ (joinLines h' hs ++ l).head?, isCR b = false := by
        rw [hr, List.append_assoc]
        exact head?_bytes_append h' _
      have hline := firstEnd_append_of_notMem h.not_cr_mem_bytes [0x0A, 0x0D, 0x0A]
        (crlf ++ (joinLines h' hs ++ l))
      rw [joinLines, List.append_assoc, List.append_assoc]
      refine hline.trans ?_
      change (firstEnd crlfcrlf (crlf ++ (joinLines h' hs ++ l))).map _ = _
      rw [firstEnd_crlf hcr, ih h', Option.map_map, Option.map_map]
      congr 1
      funext n
      simp [crlf]
      omega

/-- Of what is left of a start line, a carriage return stands in its line end only. -/
theorem StartLine.exists_ahead (sl : StartLine) (s : States) :
    ∃ y, (0x0D : UInt8) ∉ y ∧
      ((∀ x, sl.ahead x s = y ++ (crlf ++ x)) ∨ ∀ x, sl.ahead x s = y ++ x) := by
  by_cases hs : s = .kHeadersWait ∨ s = .kHeaders
  · rcases hs with rfl | rfl
    · exact ⟨[0x0A], by decide, .inr fun _ => rfl⟩
    · exact ⟨[], by simp, .inr fun _ => rfl⟩
  · refine ⟨sl.target (ascii "HTTP/" ++ sl.version) s, ?_, .inl ?_⟩
    · have hline := sl.not_cr_mem_line
      simp only [StartLine.line, StartLine.target, List.mem_append, List.mem_cons,
        not_or] at hline
      cases s <;> simp only [StartLine.target, List.mem_append, List.mem_cons, not_or] <;> tauto
    · intro x
      cases s <;> simp_all [StartLine.ahead, StartLine.target, crlf]

/-- No empty line stands in what is left of a start line, nor does one begin there. -/
theorem firstEnd_ahead (sl : StartLine) (s : States) {l : Bytes}
    (h : ∀ b ∈ l.head?, isCR b = false) :
    firstEnd crlfcrlf (sl.ahead l s) =
      (firstEnd crlfcrlf l).map (· + (sl.ahead [] s).length) := by
  obtain ⟨y, hy, hahead | hahead⟩ := sl.exists_ahead s
  · rw [hahead l, hahead []]
    refine (firstEnd_append_of_notMem hy [0x0A, 0x0D, 0x0A] (crlf ++ l)).trans ?_
    change (firstEnd crlfcrlf (crlf ++ l)).map _ = _
    rw [firstEnd_crlf h, Option.map_map]
    congr 1
    funext n
    simp [crlf]
    omega
  · rw [hahead l, hahead [], List.append_nil]
    exact firstEnd_append_of_notMem hy [0x0A, 0x0D, 0x0A] l

/-- What stands behind the header lines shows an empty line only if it is one. -/
theorem Ending.firstEnd_append {e : Ending} {rest : Bytes}
    (h : e = .emptyLine ∨ rest = []) :
    firstEnd crlfcrlf (e.bytes ++ rest) = if e = .emptyLine then some 4 else none := by
  cases e with
  | emptyLine =>
      have hp : crlfcrlf <+: crlfcrlf ++ rest := ⟨rest, rfl⟩
      exact (if_pos hp).trans rfl
  | afterLine =>
      rw [h.resolve_left (by decide)]
      decide
  | inValue =>
      rw [h.resolve_left (by decide)]
      decide

/-- **Where the first empty line of a head is**: behind its header lines, when the block
ends with it. -/
theorem firstEnd_block (sl : StartLine) (s : States) {B : HeaderBlock} {rest : Bytes}
    (hfits : B.Fits rest) :
    firstEnd crlfcrlf (sl.ahead (B.bytes ++ rest) s) =
      if B.ending = .emptyLine then some (sl.ahead B.bytes s).length else none := by
  obtain ⟨r, hr⟩ := exists_joinLines B.first B.others
  have hcr : ∀ b ∈ (B.bytes ++ rest).head?, isCR b = false := by
    rw [HeaderBlock.bytes, hr, List.append_assoc, List.append_assoc]
    exact head?_bytes_append B.first _
  rw [firstEnd_ahead sl s hcr, HeaderBlock.bytes, List.append_assoc, firstEnd_joinLines,
    Ending.firstEnd_append hfits]
  split
  · rename_i he
    have hlen := congrArg List.length (sl.ahead_append [] B.bytes s)
    simp only [List.length_append, List.nil_append, HeaderBlock.bytes, he] at hlen
    simp only [Option.map_some, he, Option.some.injEq]
    rw [← hlen]
    simp [Ending.bytes, crlfcrlf, crlf]
    omega
  · rfl

/-- **A head ends with its empty line**, whatever follows it. -/
theorem firstEnd_head (sl : StartLine) {B : HeaderBlock} (hB : B.ending = .emptyLine)
    (rest : Bytes) :
    firstEnd crlfcrlf (sl.bytes ++ (B.bytes ++ rest)) = some (sl.bytes ++ B.bytes).length := by
  have hfits : B.Fits rest := .inl hB
  rw [sl.bytes_append, sl.bytes_append, firstEnd_block sl .kReady hfits, if_pos hB]

/-- A reading ends with the first empty line, or with the data. -/
theorem Reading.firstEnd_eq {s : States} {data : Bytes} (R : Reading s data) :
    firstEnd crlfcrlf data =
      if R.block.ending = .emptyLine then some (data.length - R.rest.length) else none := by
  have hend := firstEnd_block R.startLine s R.fits
  rw [← R.data_eq] at hend
  rw [hend]
  have hlen := congrArg List.length (R.startLine.ahead_append R.block.bytes R.rest s)
  rw [← R.data_eq, List.length_append] at hlen
  rw [← hlen, Nat.add_sub_cancel]

/-- Data that ends with its first empty line is read as a head and nothing else. -/
theorem Reading.of_firstEnd {s : States} {data : Bytes} (R : Reading s data)
    (hdata : firstEnd crlfcrlf data = some data.length) :
    R.block.ending = .emptyLine ∧ R.rest = [] := by
  rw [R.firstEnd_eq] at hdata
  split at hdata
  · rename_i he
    have hle := congrArg List.length R.data_eq
    rw [← R.startLine.ahead_append, List.length_append] at hle
    have hlen := Option.some.inj hdata
    exact ⟨he, List.eq_nil_of_length_eq_zero (by omega)⟩
  · cases hdata

/-- **The heads a fresh parser accepts**: well formed, with one `Host` and without one
`Content-Length`. -/
theorem accepts_iff_of_head {data : Bytes}
    (hdata : firstEnd crlfcrlf data = some data.length) :
    Accepts .kReady data ↔
      ∃ (sl : StartLine) (B : HeaderBlock), data = sl.bytes ++ B.bytes ∧
        B.ending = .emptyLine ∧ B.Splits ∧ (B.values kHost).length = 1 ∧
        (B.values kContentLength).length ≠ 1 := by
  constructor
  · rintro ⟨R, hR⟩
    obtain ⟨he, hrest⟩ := R.of_firstEnd hdata
    obtain ⟨hhost, hcl⟩ := hR.resolve_right fun ⟨_, _, hne, _⟩ => hne hrest
    refine ⟨R.startLine, R.block, R.data_eq_bytes.trans ?_, he, R.splits, hhost, hcl⟩
    rw [hrest, List.append_nil]
  · rintro ⟨sl, B, hdata, he, hsplits, hhost, hcl⟩
    have hahead : data = sl.ahead (B.bytes ++ []) .kReady := by
      rw [hdata, List.append_nil, sl.bytes_append]
    exact ⟨⟨sl, B, [], hahead, .inl he, hsplits⟩, .inl ⟨hhost, hcl⟩⟩

end Camille
