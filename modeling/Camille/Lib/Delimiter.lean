import Mathlib.Data.List.Basic
import Mathlib.Data.List.Infix
import Mathlib.Data.List.TakeWhile

/-!
# Delimiters in a Stream

Where a stream is first closed by a delimiter, and how it falls into lines.
`firstEnd d l` is the position behind the first occurrence of `d` in `l`;
`splitLines a b l` cuts `l` at every occurrence of the two-symbol delimiter `a b`.

## Main results

* `firstEnd_append`: more data behind a found delimiter does not move it.
* `firstEnd_take`: a truncated stream shows the delimiter exactly when it is long enough.
* `splitLines_append`, `splitLines_of_notMem`: the line structure, read off from the left.
-/

namespace Lib

variable {α : Type*} [DecidableEq α]

/-- The position behind the first occurrence of the delimiter `d`. -/
def firstEnd (d : List α) : List α → Option ℕ
  | [] => none
  | b :: l => if d <+: b :: l then some d.length else (firstEnd d l).map (· + 1)

section FirstEnd

variable {d l : List α} {n : ℕ}

/-- An end lies inside the text. -/
theorem firstEnd_le_length (h : firstEnd d l = some n) : n ≤ l.length := by
  induction l generalizing n with
  | nil => simp [firstEnd] at h
  | cons b l ih =>
      rw [firstEnd] at h
      split at h
      · rename_i hp
        obtain rfl := Option.some.inj h
        exact hp.length_le
      · obtain ⟨m, hm, rfl⟩ := Option.map_eq_some_iff.mp h
        exact Nat.succ_le_succ (ih hm)

/-- The delimiter lies before its end. -/
theorem length_le_firstEnd (h : firstEnd d l = some n) : d.length ≤ n := by
  by_contra hlt
  induction l generalizing n with
  | nil => simp [firstEnd] at h
  | cons b l ih =>
      rw [firstEnd] at h
      split at h
      · obtain rfl := Option.some.inj h
        exact hlt le_rfl
      · obtain ⟨m, hm, rfl⟩ := Option.map_eq_some_iff.mp h
        exact ih hm (by omega)

/-- Symbols that cannot start the delimiter are skipped. -/
theorem firstEnd_append_of_notMem {a : α} {x : List α} (h : a ∉ x) (d l : List α) :
    firstEnd (a :: d) (x ++ l) = (firstEnd (a :: d) l).map (· + x.length) := by
  induction x with
  | nil => simp
  | cons b x ih =>
      have hp : ¬ a :: d <+: b :: (x ++ l) := fun hp =>
        h (by rw [(List.cons_prefix_cons.mp hp).1]; exact List.mem_cons_self)
      rw [List.cons_append, firstEnd, if_neg hp, ih fun hm => h (List.mem_cons_of_mem _ hm),
        Option.map_map]
      congr 1

/-- **A found delimiter stays where it is** when more data arrives behind it. -/
theorem firstEnd_append (h : firstEnd d l = some n) (r : List α) :
    firstEnd d (l ++ r) = some n := by
  induction l generalizing n with
  | nil => simp [firstEnd] at h
  | cons b l ih =>
      rw [firstEnd] at h
      rw [List.cons_append, firstEnd]
      split at h
      · rename_i hp
        have hp' : d <+: b :: (l ++ r) := hp.trans ⟨r, rfl⟩
        rw [if_pos hp']
        exact h
      · rename_i hp
        obtain ⟨m, hm, rfl⟩ := Option.map_eq_some_iff.mp h
        have hlen := length_le_firstEnd hm
        have hle := firstEnd_le_length hm
        have hp' : ¬ d <+: b :: (l ++ r) := by
          intro hc
          -- the occurrence would already fit into `b :: l`
          have hl : b :: l <+: b :: (l ++ r) := ⟨r, rfl⟩
          exact hp (List.prefix_of_prefix_length_le hc hl (by simp; omega))
        rw [if_neg hp', ih hm]
        rfl

/-- Where the first occurrence stands. -/
theorem exists_of_firstEnd (h : firstEnd d l = some n) :
    ∃ x y, l = x ++ d ++ y ∧ n = x.length + d.length := by
  induction l generalizing n with
  | nil => simp [firstEnd] at h
  | cons b l ih =>
      rw [firstEnd] at h
      split at h
      · rename_i hp
        obtain ⟨y, hy⟩ := hp
        obtain rfl := Option.some.inj h
        exact ⟨[], y, hy.symm, by simp⟩
      · obtain ⟨m, hm, rfl⟩ := Option.map_eq_some_iff.mp h
        obtain ⟨x, y, rfl, rfl⟩ := ih hm
        exact ⟨b :: x, y, rfl, by simp; omega⟩

/-- An occurrence of a delimiter bounds the first one. -/
theorem firstEnd_le_of_occurs (hd : d ≠ []) (x y : List α) :
    ∃ m ≤ x.length + d.length, firstEnd d (x ++ d ++ y) = some m := by
  induction x with
  | nil =>
      obtain ⟨b, d', rfl⟩ := List.exists_cons_of_ne_nil hd
      refine ⟨_, le_of_eq (Nat.zero_add _).symm, ?_⟩
      rw [List.nil_append, List.cons_append, firstEnd, if_pos ⟨y, rfl⟩]
  | cons b x ih =>
      obtain ⟨m, hm, he⟩ := ih
      rw [List.cons_append, List.cons_append, firstEnd]
      split
      · exact ⟨_, by simp, rfl⟩
      · exact ⟨m + 1, by simp; omega, by rw [he]; rfl⟩

/-- **A truncated stream shows the delimiter exactly when it is long enough.** -/
theorem firstEnd_take (hd : d ≠ []) (h : firstEnd d l = some n) (k : ℕ) :
    firstEnd d (l.take k) = if n ≤ k then some n else none := by
  have hback : ∀ m, firstEnd d (l.take k) = some m → m = n := by
    intro m hm
    have := firstEnd_append hm (l.drop k)
    rw [List.take_append_drop, h] at this
    exact (Option.some.inj this).symm
  split
  · rename_i hk
    obtain ⟨x, y, rfl, rfl⟩ := exists_of_firstEnd h
    have htake : (x ++ d ++ y).take k = x ++ d ++ y.take (k - (x ++ d).length) := by
      rw [List.take_append, List.take_of_length_le (by simpa using hk)]
    rw [htake] at hback ⊢
    obtain ⟨m, -, hm⟩ := firstEnd_le_of_occurs hd x (y.take (k - (x ++ d).length))
    rw [hm, hback m hm]
  · rename_i hk
    cases hm : firstEnd d (l.take k) with
    | none => rfl
    | some m =>
        have hle := firstEnd_le_length hm
        rw [hback m hm, List.length_take] at hle
        omega

/-- A stream that ends with its first delimiter keeps it in front of any continuation. -/
theorem firstEnd_of_append (hd : d ≠ []) {x y : List α}
    (h : firstEnd d (x ++ y) = some x.length) : firstEnd d x = some x.length := by
  have := firstEnd_take hd h x.length
  rwa [List.take_left, if_pos le_rfl] at this

/-- Where no delimiter starts, and what is left of the stream could not begin one, the
search goes on behind it, whatever arrives. -/
theorem firstEnd_append_of_skip {i : ℕ} (hi : i ≤ l.length)
    (hskip : ∀ j < i, ¬ d <+: l.drop j ∧ ¬ l.drop j <+: d) (r : List α) :
    firstEnd d (l ++ r) = (firstEnd d (l.drop i ++ r)).map (· + i) := by
  induction i generalizing l with
  | zero => simp
  | succ i ih =>
      cases l with
      | nil => simp at hi
      | cons b l =>
          have hp : ¬ d <+: b :: (l ++ r) := by
            intro hp
            obtain ⟨hno, hcut⟩ := hskip 0 (Nat.succ_pos i)
            rcases List.prefix_or_prefix_of_prefix hp (show b :: l <+: b :: (l ++ r) from ⟨r, rfl⟩)
              with h | h
            · exact hno h
            · exact hcut h
          rw [List.cons_append, firstEnd, if_neg hp, List.drop_succ_cons,
            ih (Nat.le_of_succ_le_succ hi) fun j hj => hskip (j + 1) (Nat.succ_lt_succ hj),
            Option.map_map]
          rfl

/-- A delimiter of two different symbols ends the first line right behind it. -/
theorem firstEnd_pair {a b : α} (hab : a ≠ b) {x : List α} (hx : ¬ [a, b] <:+: x)
    (y : List α) : firstEnd [a, b] (x ++ [a, b] ++ y) = some (x.length + 2) := by
  obtain ⟨m, hm, he⟩ := firstEnd_le_of_occurs (d := [a, b]) (by simp) x y
  obtain ⟨x', y', hl, rfl⟩ := exists_of_firstEnd he
  rw [he]
  have hm : x'.length + 2 ≤ x.length + 2 := hm
  rcases lt_trichotomy (x'.length + 1) x.length with hlt | heq | hgt
  · -- the occurrence lies in `x`
    have hp' : x' ++ [a, b] <+: x ++ [a, b] ++ y := ⟨y', hl.symm⟩
    have hx'' : x <+: x ++ [a, b] ++ y := ⟨[a, b] ++ y, by simp⟩
    have hp : x' ++ [a, b] <+: x :=
      List.prefix_of_prefix_length_le hp' hx'' (by simp; omega)
    exact absurd ((List.suffix_append x' [a, b]).isInfix.trans hp.isInfix) hx
  · -- the occurrence ends on the first symbol of the delimiter
    have hb := congrArg (·[x.length]?) hl
    simp [← heq] at hb
    exact absurd hb hab
  · exact congrArg some (by simp; omega)

/-- **The first line of a stream** is determined by the stream. -/
theorem line_append_inj {a b : α} (hab : a ≠ b) {x x' y y' : List α}
    (hx : ¬ [a, b] <:+: x) (hx' : ¬ [a, b] <:+: x')
    (h : x ++ [a, b] ++ y = x' ++ [a, b] ++ y') : x = x' ∧ y = y' := by
  have hlen : x.length + 2 = x'.length + 2 := by
    have := firstEnd_pair hab hx y
    rw [h, firstEnd_pair hab hx' y'] at this
    exact (Option.some.inj this).symm
  obtain ⟨h₁, h₂⟩ := List.append_inj h (by simpa using hlen)
  exact ⟨List.append_cancel_right h₁, h₂⟩

end FirstEnd

/-! ### Lines -/

/-- Cut a list at every occurrence of `a` directly followed by `b`. -/
def splitLines (a b : α) : List α → List (List α)
  | [] => [[]]
  | [c] => [[c]]
  | c :: c' :: l =>
    if c = a ∧ c' = b then [] :: splitLines a b l
    else (splitLines a b (c' :: l)).modifyHead (c :: ·)

section SplitLines

variable {a b : α}

/-- A list without the first delimiter symbol is one line. -/
theorem splitLines_of_notMem {x : List α} (h : a ∉ x) : splitLines a b x = [x] := by
  fun_induction splitLines a b x with
  | case1 => rfl
  | case2 c => rfl
  | case3 c c' l hc ih => exact absurd (by simp [hc.1]) h
  | case4 c c' l hc ih =>
      rw [ih (fun hm => h (List.mem_cons_of_mem _ hm))]
      rfl

/-- The first line of a list, and the rest. -/
theorem splitLines_append {x : List α} (h : a ∉ x) (y : List α) :
    splitLines a b (x ++ a :: b :: y) = x :: splitLines a b y := by
  induction x with
  | nil => simp [splitLines]
  | cons c x ih =>
      have hc : c ≠ a := fun e => h (by simp [e])
      have hx : a ∉ x := fun hm => h (List.mem_cons_of_mem _ hm)
      cases x with
      | nil =>
          have ih := ih hx
          rw [List.nil_append] at ih
          simp [splitLines, hc]
      | cons c' x =>
          have ih := ih hx
          rw [List.cons_append] at ih
          rw [List.cons_append, List.cons_append, splitLines, if_neg (fun e => hc e.1), ih]
          rfl

end SplitLines

end Lib
