import Mathlib.Data.List.Basic

/-!
# Least Recently Used

The list of pairs an LRU map stands for: the pairs held, most recently used first.
`get` and `put` move the key to the front, `put` on a present key replaces its value,
and `put` on an absent key at full capacity drops the last pair. `results` is what a
sequence of calls answers.

## Main results

* `get_append_cons`, `put_append_cons`: a hit, with the pair that is hit in view.
* `get_of_notMem`, `put_of_room`, `put_of_full`: the misses.
* `get_mapValues`, `put_mapValues`: the order does not depend on the values.
-/

namespace Lib.Lru

variable {κ β γ : Type*}

/-- The calls of an LRU map. -/
inductive Op (κ β : Type*)
  | get (key : κ)
  | put (key : κ) (value : β)
  deriving DecidableEq, Repr

/-- The keys held, most recently used first. -/
def keys (l : List (κ × β)) : List κ :=
  l.map Prod.fst

/-- The values of the pairs, changed by a function. -/
def mapValues (f : β → γ) (l : List (κ × β)) : List (κ × γ) :=
  l.map (Prod.map id f)

/-- Nothing is held under no key. -/
@[simp] theorem keys_nil : keys ([] : List (κ × β)) = [] := rfl

/-- The key of the pair used last comes first. -/
@[simp] theorem keys_cons (e : κ × β) (l : List (κ × β)) : keys (e :: l) = e.1 :: keys l := rfl

/-- The keys of two parts, one after the other. -/
@[simp] theorem keys_append (l₁ l₂ : List (κ × β)) : keys (l₁ ++ l₂) = keys l₁ ++ keys l₂ :=
  List.map_append

/-- The keys stay where they are. -/
@[simp] theorem keys_mapValues (f : β → γ) (l : List (κ × β)) :
    keys (mapValues f l) = keys l := by
  simp [keys, mapValues]

variable [DecidableEq κ]

/-- The pairs held under other keys. -/
def remove (key : κ) (l : List (κ × β)) : List (κ × β) :=
  l.eraseP fun e => e.1 = key

/-- The answer to a `get`, and the pairs held after it. -/
def get (key : κ) (l : List (κ × β)) : Option β × List (κ × β) :=
  match l.find? fun e => e.1 = key with
  | some e => (some e.2, e :: remove key l)
  | none => (none, l)

/-- The pairs held after a `put` under the capacity `c`. -/
def put (c : ℕ) (key : κ) (value : β) (l : List (κ × β)) : List (κ × β) :=
  if key ∈ keys l then (key, value) :: remove key l
  else if l.length = c then (key, value) :: l.dropLast
  else (key, value) :: l

/-- The pairs held after a call. -/
def next (c : ℕ) (l : List (κ × β)) : Op κ β → List (κ × β)
  | .get key => (get key l).2
  | .put key value => put c key value l

/-- What a call answers: one value or none for a `get`, nothing for a `put`. -/
def answers (l : List (κ × β)) : Op κ β → List (Option β)
  | .get key => [(get key l).1]
  | .put _ _ => []

/-- What the calls of a sequence answer, in order. -/
def results (c : ℕ) : List (κ × β) → List (Op κ β) → List (Option β)
  | _, [] => []
  | l, op :: ops => answers l op ++ results c (next c l op) ops

/-! ### Searching by key -/

/-- An absent key is not found. -/
theorem find?_key_of_notMem {f : γ → κ} {k : κ} {l : List γ}
    (h : k ∉ l.map f) : l.find? (fun x => f x = k) = none := by
  rw [List.find?_eq_none]
  intro x hx hk
  exact h (List.mem_map.2 ⟨x, hx, of_decide_eq_true hk⟩)

/-- The first entry under a key is the one that is found. -/
theorem find?_key_append_cons {f : γ → κ} {x : γ} {l₁ l₂ : List γ} (h : f x ∉ l₁.map f) :
    (l₁ ++ x :: l₂).find? (fun y => f y = f x) = some x := by
  rw [List.find?_append, find?_key_of_notMem h, Option.none_or, List.find?_cons_of_pos (by simp)]

/-- It is also the one that is removed. -/
theorem eraseP_key_append_cons {f : γ → κ} {x : γ} {l₁ l₂ : List γ} (h : f x ∉ l₁.map f) :
    (l₁ ++ x :: l₂).eraseP (fun y => f y = f x) = l₁ ++ l₂ := by
  have hl₁ : ∀ y ∈ l₁, ¬ decide (f y = f x) = true := by
    intro y hy hk
    exact h (List.mem_map.2 ⟨y, hy, of_decide_eq_true hk⟩)
  rw [List.eraseP_append_right _ (by simpa using hl₁), List.eraseP_cons_of_pos (by simp)]

/-! ### Hits -/

/-- **A `get` that hits** answers the value and moves the pair to the front. -/
theorem get_append_cons {e : κ × β} {l₁ l₂ : List (κ × β)} (h : e.1 ∉ keys l₁) :
    get e.1 (l₁ ++ e :: l₂) = (some e.2, e :: (l₁ ++ l₂)) := by
  rw [get, remove, find?_key_append_cons h, eraseP_key_append_cons h]

/-- **A `put` that hits** moves the pair to the front with the new value. -/
theorem put_append_cons {e : κ × β} {l₁ l₂ : List (κ × β)} (h : e.1 ∉ keys l₁) (c : ℕ)
    (v : β) : put c e.1 v (l₁ ++ e :: l₂) = (e.1, v) :: (l₁ ++ l₂) := by
  rw [put, if_pos (by simp), remove, eraseP_key_append_cons h]

/-! ### Misses -/

/-- **A `get` that misses** changes nothing. -/
theorem get_of_notMem {key : κ} {l : List (κ × β)} (h : key ∉ keys l) :
    get key l = (none, l) := by
  rw [get, find?_key_of_notMem h]

/-- **A `put` of a new key**, where there is room for it. -/
theorem put_of_room {key : κ} {l : List (κ × β)} {c : ℕ} (h : key ∉ keys l)
    (hc : l.length ≠ c) (v : β) : put c key v l = (key, v) :: l := by
  rw [put, if_neg h, if_neg hc]

/-- **A `put` of a new key into a full map** drops the pair used longest ago. -/
theorem put_of_full {key : κ} {l : List (κ × β)} {c : ℕ} {e : κ × β}
    (h : key ∉ keys (l ++ [e])) (hc : (l ++ [e]).length = c) (v : β) :
    put c key v (l ++ [e]) = (key, v) :: l := by
  rw [put, if_neg h, if_pos hc, List.dropLast_concat]

/-- A `get` brings in no pair. -/
theorem mem_of_mem_get {key : κ} {l : List (κ × β)} {e : κ × β} (h : e ∈ (get key l).2) :
    e ∈ l := by
  unfold get at h
  cases hf : l.find? fun e => decide (e.1 = key) with
  | none =>
      rw [hf] at h
      exact h
  | some e' =>
      rw [hf] at h
      rcases List.mem_cons.1 h with rfl | h
      · exact List.mem_of_find?_eq_some hf
      · exact List.mem_of_mem_eraseP h

/-- A `put` brings in no key but its own. -/
theorem mem_keys_put {c : ℕ} {key k : κ} {v : β} {l : List (κ × β)}
    (h : k ∈ keys (put c key v l)) : k = key ∨ k ∈ keys l := by
  unfold put at h
  split_ifs at h
  · exact (List.mem_cons.1 h).imp_right fun h => (List.eraseP_sublist.map Prod.fst).subset h
  · exact (List.mem_cons.1 h).imp_right fun h =>
      ((List.dropLast_sublist l).map Prod.fst).subset h
  · exact List.mem_cons.1 h

/-! ### Values -/

/-- Removing a key does not look at the values. -/
theorem remove_mapValues (f : β → γ) (key : κ) (l : List (κ × β)) :
    remove key (mapValues f l) = mapValues f (remove key l) := by
  rw [remove, mapValues, List.eraseP_map]
  rfl

/-- **Nor does `get`**: it answers the changed value of the same pair. -/
theorem get_mapValues (f : β → γ) (key : κ) (l : List (κ × β)) :
    get key (mapValues f l) = ((get key l).1.map f, mapValues f (get key l).2) := by
  have hfind : (mapValues f l).find? (fun e => decide (e.1 = key)) =
      (l.find? fun e => decide (e.1 = key)).map (Prod.map id f) := by
    rw [mapValues, List.find?_map]
    rfl
  unfold get
  rw [hfind, remove_mapValues]
  cases l.find? (fun e => decide (e.1 = key)) <;> rfl

/-- **Nor does `put`.** -/
theorem put_mapValues (f : β → γ) (c : ℕ) (key : κ) (v : β) (l : List (κ × β)) :
    put c key (f v) (mapValues f l) = mapValues f (put c key v l) := by
  unfold put
  rw [keys_mapValues, remove_mapValues, show (mapValues f l).length = l.length from
    List.length_map _]
  split_ifs
  · rfl
  · simp only [mapValues, List.map_dropLast, List.map_cons, Prod.map_apply, id]
  · rfl

end Lib.Lru
