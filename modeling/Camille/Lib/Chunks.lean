import Mathlib.Data.List.Basic
import Mathlib.Data.List.Infix

/-!
# Streams in Chunks

A stream of messages that arrives in chunks. The chunks are aligned with the messages
when every message ends where some chunk does; a chunk may hold several parts of
messages otherwise, and a message may take several chunks.

## Main results

* `exists_extra`: a number of chunks that is large enough for a message starts with it.
* `aligned_cons_iff`: alignment, read off the chunk the first message ends in.
-/

namespace Lib

variable {α : Type*}

/-- Every message ends where some chunk does. -/
def Aligned (chunks messages : List (List α)) : Prop :=
  ∀ i ≤ messages.length, ∃ j, (chunks.take j).flatten = (messages.take i).flatten

/-- No message ends anywhere. -/
theorem aligned_nil (chunks : List (List α)) : Aligned chunks [] :=
  fun i hi => ⟨0, by rw [Nat.le_zero.mp hi]; rfl⟩

/-- Further chunks behind a number of them. -/
theorem flatten_take_add (chunks : List (List α)) (j k : ℕ) :
    (chunks.take (j + k)).flatten =
      (chunks.take j).flatten ++ ((chunks.drop j).take k).flatten := by
  rw [List.take_add, List.flatten_append]

/-- Enough chunks to hold a message hold it, and what came behind it. -/
theorem exists_extra {chunks : List (List α)} {m rest : List α} {n : ℕ}
    (h : chunks.flatten = m ++ rest) (hn : m.length ≤ (chunks.take n).flatten.length) :
    ∃ extra, (chunks.take n).flatten = m ++ extra := by
  have htake : (chunks.take n).flatten <+: chunks.flatten :=
    ⟨(chunks.drop n).flatten, by rw [← List.flatten_append, List.take_append_drop]⟩
  obtain ⟨extra, he⟩ := List.prefix_of_prefix_length_le ⟨rest, h.symm⟩ htake hn
  exact ⟨extra, he.symm⟩

/-- **The chunk the first message ends in** decides: it ends with the message, and what
is left is aligned. -/
theorem aligned_cons_iff {chunks messages : List (List α)} {m : List α} {j : ℕ}
    (hj : m.length ≤ (chunks.take j).flatten.length)
    (hfirst : ∀ i < j, (chunks.take i).flatten.length < m.length) :
    Aligned chunks (m :: messages) ↔
      (chunks.take j).flatten = m ∧ Aligned (chunks.drop j) messages := by
  constructor
  · intro h
    have hpast : ∀ k, m.length ≤ (chunks.take k).flatten.length → j ≤ k := by
      intro k hk
      by_contra hlt
      have := hfirst k (by omega)
      omega
    have hm : (chunks.take j).flatten = m := by
      obtain ⟨k, hk⟩ := h 1 (by simp)
      have hk : (chunks.take k).flatten = m := by simpa using hk
      obtain ⟨k, rfl⟩ := Nat.exists_eq_add_of_le (hpast k (by rw [hk]))
      have hprefix : (chunks.take j).flatten <+: m := by
        rw [← hk, flatten_take_add]
        exact List.prefix_append _ _
      exact hprefix.eq_of_length_le hj
    refine ⟨hm, ?_⟩
    intro i hi
    obtain ⟨k, hk⟩ := h (i + 1) (by simpa using hi)
    rw [List.take_succ_cons, List.flatten_cons] at hk
    obtain ⟨k, rfl⟩ := Nat.exists_eq_add_of_le (hpast k (by rw [hk]; simp))
    rw [flatten_take_add, hm] at hk
    exact ⟨k, List.append_cancel_left hk⟩
  · rintro ⟨hm, h⟩ i hi
    cases i with
    | zero => exact ⟨0, rfl⟩
    | succ i =>
        obtain ⟨k, hk⟩ := h i (by simpa using hi)
        exact ⟨j + k, by rw [flatten_take_add, hm, hk, List.take_succ_cons, List.flatten_cons]⟩

end Lib
