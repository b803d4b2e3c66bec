import Mathlib.Data.List.AList
import Camille.Lib.Lru

/-!
# The LRU Cache

`datastructure::LruCache`: a list of pairs, most recently used first, and an index from
keys to the nodes of that list. A node keeps its address when it is spliced, and what an
address designates once its node is gone is undefined, so each method gives an `Option`.

`get` returns the first half of the stored pair and a `put` on a present key writes the
value into that half, so a node that was written to holds a value where its key was. The
list-of-pairs map the cache stands for is kept beside it with a mark on every pair that
was rewritten (`track`); a node is tied to its pair by `Slot`.

## Main results

* `Stands.call`: what a call does to the cache and to the pairs at once.
* `run_eq_results_iff`: when the cache answers as the map does.
* `indexed_after_iff`: when every state of a sequence of calls is well indexed.
* `puts_within_iff`: when `put` calls with distinct keys keep within the capacity.
-/

open Lib

namespace Camille

variable {α : Type}

/-- `LruCache::It`: the address of a list node. -/
abbrev It := ℕ

/-- A node of `items_`. -/
structure Node (α : Type) where
  it : It
  first : α
  second : α
  deriving DecidableEq, Repr

/-- `LruCache`. The address the next node gets is kept in `fresh`: no two nodes ever
share one. -/
structure LruCache (α : Type) where
  capacity : ℕ
  items : List (Node α) := []
  cache : AList fun _ : α => It := ∅
  fresh : It := 0

namespace LruCache

/-- `LruCache(size_t capacity)`. -/
def new (capacity : ℕ) : LruCache α where
  capacity := capacity

/-- The node an iterator designates. -/
def deref (items : List (Node α)) (it : It) : Option (Node α) :=
  items.find? fun node => node.it = it

/-- `items.splice(items.begin(), items, it)`. -/
def splice (items : List (Node α)) (it : It) : Option (List (Node α)) := do
  let node ← deref items it
  return node :: items.eraseP fun node => node.it = it

/-- `it->first = value`. -/
def assignFirst (items : List (Node α)) (it : It) (value : α) : Option (List (Node α)) := do
  let _ ← deref items it
  return items.map fun node => if node.it = it then { node with first := value } else node

section Methods

variable [DecidableEq α]

/-- `LruCache::get`. -/
def get (s : LruCache α) (key : α) : Option (LruCache α × Option α) :=
  match s.cache.lookup key with
  | none => some (s, none)
  | some it => do
    let items ← splice s.items it
    let node ← deref items it
    return ({ s with items := items }, some node.first)

/-- The eviction in `put`: the index entry that goes is the one under the first half of
the last pair. -/
def evict (s : LruCache α) : Option (LruCache α) := do
  let back ← s.items.getLast?
  let keyToDelete := back.first
  return { s with items := s.items.dropLast, cache := s.cache.erase keyToDelete }

/-- `items_.emplace_front(key, value)` and `cache_[key] = items_.begin()`. -/
def emplaceFront (s : LruCache α) (key value : α) : LruCache α :=
  { s with
    items := ⟨s.fresh, key, value⟩ :: s.items
    cache := s.cache.insert key s.fresh
    fresh := s.fresh + 1 }

/-- `LruCache::put`. The splice is of the node that was found. -/
def put (s : LruCache α) (key value : α) : Option (LruCache α) :=
  match s.cache.lookup key with
  | some it => do
    let items ← splice s.items it
    let items ← assignFirst items it value
    return { s with items := items }
  | none => do
    let s ← if s.items.length = s.capacity then s.evict else some s
    return s.emplaceFront key value

/-- One call: the cache after it, and what it answered. -/
def call (s : LruCache α) : Lru.Op α α → Option (LruCache α × List (Option α))
  | .get key => do
    let (s, answer) ← s.get key
    return (s, [answer])
  | .put key value => do
    let s ← s.put key value
    return (s, [])

/-- A sequence of calls. -/
def run : LruCache α → List (Lru.Op α α) → Option (LruCache α × List (Option α))
  | s, [] => some (s, [])
  | s, op :: ops => do
    let (s, answers) ← s.call op
    let (s, results) ← run s ops
    return (s, answers ++ results)

end Methods

/-! ### The pairs the cache stands for -/

/-- The pairs of the map, each with its value and whether a `put` rewrote it. -/
abbrev Pairs (α : Type) := List (α × α × Bool)

/-- What the first half of a node holds: the key, until a `put` rewrites it. -/
def stored (e : α × α × Bool) : α :=
  if e.2.2 then e.2.1 else e.1

/-- What is stored is the key, unless a rewrite put another value there. -/
theorem stored_eq_key_iff {e : α × α × Bool} :
    stored e = e.1 ↔ (e.2.2 = true → e.2.1 = e.1) := by
  obtain ⟨k, v, o⟩ := e
  cases o <;> simp [stored]

/-- What is stored is the value, if it was rewritten or is the key. -/
theorem stored_eq_value_iff {e : α × α × Bool} :
    stored e = e.2.1 ↔ e.2.2 = true ∨ e.2.1 = e.1 := by
  obtain ⟨k, v, o⟩ := e
  cases o <;> simp [stored, eq_comm]

/-- A node together with the marked pair it stands for. -/
structure Slot (α : Type) where
  node : Node α
  pair : α × α × Bool
  first_eq : node.first = stored pair

/-- The node of a slot, rewritten with a value. -/
def Slot.assign (x : Slot α) (value : α) : Slot α where
  node := { x.node with first := value }
  pair := (x.pair.1, value, true)
  first_eq := rfl

/-- The slot of a new node. -/
def Slot.new (it : It) (key value : α) : Slot α where
  node := ⟨it, key, value⟩
  pair := (key, value, false)
  first_eq := rfl

/-- The list of pairs a list of slots stands for. -/
def pairs (L : List (Slot α)) : Pairs α :=
  L.map Slot.pair

/-- The addresses of the nodes. -/
def addresses (L : List (Slot α)) : List It :=
  L.map fun x => x.node.it

/-- The pairs of two parts, one after the other. -/
@[simp] theorem pairs_append (L₁ L₂ : List (Slot α)) :
    pairs (L₁ ++ L₂) = pairs L₁ ++ pairs L₂ := List.map_append

/-- The pair of the slot used last comes first. -/
@[simp] theorem pairs_cons (x : Slot α) (L : List (Slot α)) :
    pairs (x :: L) = x.pair :: pairs L := rfl

/-- The pairs around one of them. -/
theorem pairs_append_cons (L₁ : List (Slot α)) (x : Slot α) (L₂ : List (Slot α)) :
    pairs (L₁ ++ x :: L₂) = pairs L₁ ++ x.pair :: pairs L₂ := by
  rw [pairs_append, pairs_cons]

/-- There is a pair for each slot. -/
@[simp] theorem length_pairs (L : List (Slot α)) : (pairs L).length = L.length :=
  List.length_map _

/-- A key that is held has a slot. -/
theorem exists_slot {L : List (Slot α)} {key : α} (h : key ∈ Lru.keys (pairs L)) :
    ∃ L₁ x L₂, L = L₁ ++ x :: L₂ ∧ x.pair.1 = key := by
  obtain ⟨e, he, rfl⟩ := List.mem_map.1 h
  obtain ⟨x, hx, rfl⟩ := List.mem_map.1 he
  obtain ⟨L₁, L₂, rfl⟩ := List.append_of_mem hx
  exact ⟨L₁, x, L₂, rfl, rfl⟩

variable [DecidableEq α]

/-- A call with the mark its `put` leaves: rewritten, when the key was present. -/
def mark (l : Pairs α) : Lru.Op α α → Lru.Op α (α × Bool)
  | .get key => .get key
  | .put key value => .put key (value, decide (key ∈ Lru.keys l))

/-- The marked pairs after a call. -/
def track (c : ℕ) (l : Pairs α) (op : Lru.Op α α) : Pairs α :=
  Lru.next c l (mark l op)

/-- The nodes of a cache are those of the slots, and the index leads from each key to its
node, though the node may no longer hold the key. -/
structure Stands (s : LruCache α) (L : List (Slot α)) : Prop where
  items : s.items = L.map Slot.node
  keys_nodup : (Lru.keys (pairs L)).Nodup
  addresses_nodup : (addresses L).Nodup
  lookup : ∀ x ∈ L, s.cache.lookup x.pair.1 = some x.node.it
  keys : ∀ key, key ∈ s.cache → key ∈ Lru.keys (pairs L)
  fresh : ∀ x ∈ L, x.node.it < s.fresh
  size : L.length ≤ s.capacity

/-- A new cache stands for no slots. -/
theorem stands_new (c : ℕ) : Stands (new c : LruCache α) [] where
  items := rfl
  keys_nodup := List.nodup_nil
  addresses_nodup := List.nodup_nil
  lookup := fun _ h => absurd h List.not_mem_nil
  keys := fun key h => absurd h (AList.notMem_empty key)
  fresh := fun _ h => absurd h List.not_mem_nil
  size := Nat.zero_le c

namespace Stands

variable {s : LruCache α} {L L₁ L₂ : List (Slot α)} {x : Slot α}

/-- An absent key has no node. -/
theorem lookup_eq_none (h : Stands s L) {key : α} (hk : key ∉ Lru.keys (pairs L)) :
    s.cache.lookup key = none :=
  AList.lookup_eq_none.2 fun hc => hk (h.keys key hc)

/-- No slot before one in view shares its key or its address. -/
theorem key_notMem (h : Stands s (L₁ ++ x :: L₂)) : x.pair.1 ∉ Lru.keys (pairs L₁) := by
  have hn := h.keys_nodup
  rw [pairs_append, pairs_cons, Lru.keys_append, Lru.keys_cons] at hn
  intro hx
  exact List.disjoint_of_nodup_append hn hx List.mem_cons_self

/-- No slot before the one in question has its address. -/
theorem it_notMem (h : Stands s (L₁ ++ x :: L₂)) :
    x.node.it ∉ (L₁.map Slot.node).map Node.it := by
  have hn := h.addresses_nodup
  rw [addresses, List.map_append, List.map_cons] at hn
  intro hx
  rw [List.map_map] at hx
  exact List.disjoint_of_nodup_append hn hx List.mem_cons_self

/-- The order of the nodes is free. -/
theorem perm (h : Stands s L) {L' : List (Slot α)} (hp : L.Perm L') :
    Stands { s with items := L'.map Slot.node } L' where
  items := rfl
  keys_nodup := ((hp.map _).map _).nodup_iff.1 h.keys_nodup
  addresses_nodup := (hp.map _).nodup_iff.1 h.addresses_nodup
  lookup := fun y hy => h.lookup y (hp.mem_iff.2 hy)
  keys := fun key hk => ((hp.map _).map _).mem_iff.1 (h.keys key hk)
  fresh := fun y hy => h.fresh y (hp.mem_iff.2 hy)
  size := hp.length_eq ▸ h.size

/-- The first half of a node does not matter to the index. -/
theorem assign (h : Stands s (x :: L)) (value : α) :
    Stands { s with items := (x.assign value :: L).map Slot.node } (x.assign value :: L) where
  items := rfl
  keys_nodup := h.keys_nodup
  addresses_nodup := h.addresses_nodup
  lookup := by
    intro y hy
    rcases List.mem_cons.1 hy with rfl | hy
    · exact h.lookup x List.mem_cons_self
    · exact h.lookup y (List.mem_cons_of_mem x hy)
  keys := h.keys
  fresh := by
    intro y hy
    rcases List.mem_cons.1 hy with rfl | hy
    · exact h.fresh x List.mem_cons_self
    · exact h.fresh y (List.mem_cons_of_mem x hy)
  size := h.size

/-! #### Hits -/

omit [DecidableEq α] in
/-- The first node is found under its address. -/
theorem deref_front (x : Slot α) (L : List (Slot α)) :
    deref ((x :: L).map Slot.node) x.node.it = some x.node :=
  List.find?_cons_of_pos (by simp)

/-- **`splice`** moves the node to the front. -/
theorem splice_eq (h : Stands s (L₁ ++ x :: L₂)) :
    splice s.items x.node.it = some ((x :: (L₁ ++ L₂)).map Slot.node) := by
  have hx := h.it_notMem
  rw [h.items, splice, deref, List.map_append, List.map_cons,
    Lru.find?_key_append_cons hx, Lru.eraseP_key_append_cons hx, List.map_cons, List.map_append]
  rfl

/-- **The assignment** changes the first node and no other. -/
theorem assignFirst_eq (h : Stands s (x :: L)) (value : α) :
    assignFirst ((x :: L).map Slot.node) x.node.it value =
      some ((x.assign value :: L).map Slot.node) := by
  have hL : ∀ y ∈ L, y.node.it ≠ x.node.it := by
    intro y hy e
    exact (List.nodup_cons.1 h.addresses_nodup).1 (List.mem_map.2 ⟨y, hy, e⟩)
  have hmap : (L.map Slot.node).map (fun node =>
      if node.it = x.node.it then { node with first := value } else node) =
      L.map Slot.node := by
    rw [List.map_map]
    exact List.map_congr_left fun y hy => if_neg (hL y hy)
  rw [assignFirst, deref_front, List.map_cons, List.map_cons, hmap, if_pos rfl]
  rfl

/-- The cache stands with the slot in front. -/
theorem moved (h : Stands s (L₁ ++ x :: L₂)) :
    Stands { s with items := (x :: (L₁ ++ L₂)).map Slot.node } (x :: (L₁ ++ L₂)) :=
  h.perm List.perm_middle

/-- **A `Get` that hits** answers what the node stores, and moves it to the front. -/
theorem get_hit (h : Stands s (L₁ ++ x :: L₂)) :
    s.get x.pair.1 =
      some ({ s with items := (x :: (L₁ ++ L₂)).map Slot.node }, some x.node.first) := by
  have hlookup := h.lookup x (by simp)
  simp only [LruCache.get, hlookup, h.splice_eq, deref_front, Option.bind_eq_bind, Option.bind_some,
    Option.pure_def]

/-- **A `Put` that hits** writes into the node, and moves it to the front. -/
theorem put_hit (h : Stands s (L₁ ++ x :: L₂)) (value : α) :
    s.put x.pair.1 value =
      some { s with items := (x.assign value :: (L₁ ++ L₂)).map Slot.node } := by
  have hlookup := h.lookup x (by simp)
  have hassign := h.moved.assignFirst_eq value
  simp only [LruCache.put, hlookup, h.splice_eq, hassign, Option.bind_eq_bind, Option.bind_some,
    Option.pure_def]

/-! #### Misses -/

/-- **A `Get` that misses** changes nothing. -/
theorem get_miss (h : Stands s L) {key : α} (hk : key ∉ Lru.keys (pairs L)) :
    s.get key = some (s, none) := by
  simp only [LruCache.get, h.lookup_eq_none hk]

/-- A new node in front, under a key that was absent. -/
theorem emplaceFront (h : Stands s L) {key : α} (hk : key ∉ Lru.keys (pairs L))
    (hr : L.length < s.capacity) (value : α) :
    Stands (s.emplaceFront key value) (Slot.new s.fresh key value :: L) where
  items := by rw [LruCache.emplaceFront, h.items]; rfl
  keys_nodup := List.nodup_cons.2 ⟨hk, h.keys_nodup⟩
  addresses_nodup := by
    refine List.nodup_cons.2 ⟨fun hm => ?_, h.addresses_nodup⟩
    obtain ⟨y, hy, he⟩ := List.mem_map.1 hm
    exact absurd (h.fresh y hy) (he ▸ lt_irrefl s.fresh)
  lookup := by
    intro y hy
    rcases List.mem_cons.1 hy with rfl | hy
    · exact AList.lookup_insert s.cache
    · have hne : y.pair.1 ≠ key := fun e => hk (e ▸ List.mem_map_of_mem (List.mem_map_of_mem hy))
      exact (AList.lookup_insert_ne hne).trans (h.lookup y hy)
  keys := by
    intro k hm
    rcases (AList.mem_insert s.cache).1 hm with rfl | hm
    · exact List.mem_cons_self
    · exact List.mem_cons_of_mem key (h.keys k hm)
  fresh := by
    intro y hy
    rcases List.mem_cons.1 hy with rfl | hy
    · exact Nat.lt_succ_self s.fresh
    · exact Nat.lt_succ_of_lt (h.fresh y hy)
  size := hr

/-- The last node goes with its index entry, as long as it holds its key. -/
theorem evict (h : Stands s (L ++ [x])) (hx : x.node.first = x.pair.1) :
    ∃ s', s.evict = some s' ∧ Stands s' L ∧ s'.capacity = s.capacity := by
  have hmid := h.keys_nodup
  rw [pairs_append, Lru.keys_append] at hmid
  refine ⟨{ s with items := L.map Slot.node, cache := s.cache.erase x.pair.1 }, ?_, ?_, rfl⟩
  · simp only [LruCache.evict, h.items, List.map_append, List.map_cons, List.map_nil,
      List.getLast?_concat, List.dropLast_concat, hx, Option.bind_eq_bind, Option.bind_some,
      Option.pure_def]
  · refine ⟨rfl, hmid.of_append_left, ?_, ?_, ?_, ?_, ?_⟩
    · have ha := h.addresses_nodup
      rw [addresses, List.map_append] at ha
      exact ha.of_append_left
    · intro y hy
      have hne : y.pair.1 ≠ x.pair.1 := by
        intro e
        exact h.key_notMem (e ▸ List.mem_map_of_mem (List.mem_map_of_mem hy))
      exact (AList.lookup_erase_ne hne).trans (h.lookup y (List.mem_append_left _ hy))
    · intro k hm
      obtain ⟨hne, hm⟩ := AList.mem_erase.1 hm
      have hk := h.keys k hm
      rw [pairs_append, Lru.keys_append] at hk
      rcases List.mem_append.1 hk with hk | hk
      · exact hk
      · exact absurd (List.mem_singleton.1 hk) hne
    · exact fun y hy => h.fresh y (List.mem_append_left _ hy)
    · have hs := h.size
      rw [List.length_append] at hs
      show L.length ≤ s.capacity
      omega

/-- **A `Put` of a new key**, where there is room for it. -/
theorem put_room (h : Stands s L) {key : α} (hk : key ∉ Lru.keys (pairs L))
    (hr : L.length ≠ s.capacity) (value : α) :
    s.put key value = some (s.emplaceFront key value) := by
  have hitems : s.items.length ≠ s.capacity := by
    rw [h.items, List.length_map]
    exact hr
  simp only [LruCache.put, h.lookup_eq_none hk, if_neg hitems, Option.bind_eq_bind,
    Option.bind_some, Option.pure_def]

/-- **A `Put` of a new key into a full cache** whose last node stores its own key. -/
theorem put_full (h : Stands s (L ++ [x])) {key : α} (hk : key ∉ Lru.keys (pairs (L ++ [x])))
    (hfull : (L ++ [x]).length = s.capacity) (hx : x.node.first = x.pair.1) (value : α) :
    ∃ s' y, s.put key value = some s' ∧ Stands s' (y :: L) ∧ s'.capacity = s.capacity ∧
      y.pair = (key, value, false) := by
  obtain ⟨s₁, hevict, h₁, hcap⟩ := h.evict hx
  have hk₁ : key ∉ Lru.keys (pairs L) := by
    intro hm
    rw [pairs_append, Lru.keys_append] at hk
    exact hk (List.mem_append_left _ hm)
  have hroom : L.length < s₁.capacity := by
    rw [hcap, ← hfull, List.length_append]
    exact Nat.lt_succ_self _
  have hitems : s.items.length = s.capacity := by
    rw [h.items, List.length_map, hfull]
  refine ⟨s₁.emplaceFront key value, Slot.new s₁.fresh key value, ?_,
    h₁.emplaceFront hk₁ hroom value, hcap, rfl⟩
  simp only [LruCache.put, h.lookup_eq_none hk, if_pos hitems, hevict, Option.bind_eq_bind,
    Option.bind_some, Option.pure_def]

end Stands

/-! ### One call -/

/-- A `put` that drops a pair drops one whose node still holds its key: the last pair was
never rewritten, or with a value equal to its key. -/
def DropsOwn (c : ℕ) (l : Pairs α) : Lru.Op α α → Prop
  | .get _ => True
  | .put key _ =>
    key ∉ Lru.keys l → l.length = c → ∀ e, l.getLast? = some e → e.2.2 = true → e.2.1 = e.1

/-- A `get` that hits finds a pair that was rewritten, or whose value is its key. -/
def ShowsValue (l : Pairs α) : Lru.Op α α → Prop
  | .get key => ∀ e ∈ l, e.1 = key → e.2.2 = true ∨ e.2.1 = e.1
  | .put _ _ => True

/-- A `put` on a present key gives it the key for a value. -/
def KeepsKey (l : Pairs α) : Lru.Op α α → Prop
  | .get _ => True
  | .put key value => key ∈ Lru.keys l → value = key

/-- Every call of a sequence meets a condition on the pairs before it. -/
def Along (P : Pairs α → Lru.Op α α → Prop) (c : ℕ) : Pairs α → List (Lru.Op α α) → Prop
  | _, [] => True
  | l, op :: ops => P l op ∧ Along P c (track c l op) ops

/-- What the cache answers to a call. -/
def shown (l : Pairs α) : Lru.Op α α → List (Option α)
  | .get key => [(l.find? fun e => e.1 = key).map stored]
  | .put _ _ => []

/-- **A `Get`**, of any key. -/
theorem Stands.call_get {s : LruCache α} {L : List (Slot α)} (h : Stands s L) (key : α) :
    ∃ s' L', s.call (.get key) = some (s', shown (pairs L) (.get key)) ∧ Stands s' L' ∧
      s'.capacity = s.capacity ∧ pairs L' = track s.capacity (pairs L) (.get key) := by
  by_cases hk : key ∈ Lru.keys (pairs L)
  · obtain ⟨L₁, x, L₂, rfl, rfl⟩ := exists_slot hk
    refine ⟨_, _, ?_, h.moved, rfl, ?_⟩
    · rw [LruCache.call, h.get_hit, shown, pairs_append_cons,
        Lru.find?_key_append_cons h.key_notMem, Option.map_some, ← x.first_eq]
      rfl
    · rw [track, mark, Lru.next, pairs_append_cons, Lru.get_append_cons h.key_notMem,
        pairs_cons, pairs_append]
  · refine ⟨s, L, ?_, h, rfl, ?_⟩
    · rw [LruCache.call, h.get_miss hk, shown, Lru.find?_key_of_notMem hk]
      rfl
    · rw [track, mark, Lru.next, Lru.get_of_notMem hk]

/-- **A `Put`**, of any key, that evicts a node storing its own key at most. -/
theorem Stands.call_put {s : LruCache α} {L : List (Slot α)} (h : Stands s L)
    (hc : 0 < s.capacity) {key value : α} (hd : DropsOwn s.capacity (pairs L) (.put key value)) :
    ∃ s' L', s.call (.put key value) = some (s', []) ∧ Stands s' L' ∧
      s'.capacity = s.capacity ∧ pairs L' = track s.capacity (pairs L) (.put key value) := by
  by_cases hk : key ∈ Lru.keys (pairs L)
  · obtain ⟨L₁, x, L₂, rfl, rfl⟩ := exists_slot hk
    refine ⟨_, _, ?_, h.moved.assign value, rfl, ?_⟩
    · rw [LruCache.call, h.put_hit]
      rfl
    · rw [track, mark, decide_eq_true hk, Lru.next, pairs_append_cons,
        Lru.put_append_cons h.key_notMem, pairs_cons, pairs_append]
      rfl
  · have htrack : track s.capacity (pairs L) (.put key value) =
        Lru.put s.capacity key (value, false) (pairs L) := by
      rw [track, mark, decide_eq_false hk, Lru.next]
    by_cases hfull : L.length = s.capacity
    · rcases List.eq_nil_or_concat L with rfl | ⟨L, x, rfl⟩
      · exact absurd hfull (Nat.ne_of_lt hc)
      · rw [List.concat_eq_append] at *
        have hpairs : pairs (L ++ [x]) = pairs L ++ [x.pair] := pairs_append L [x]
        have hlength : (pairs (L ++ [x])).length = s.capacity := by
          rw [length_pairs, hfull]
        have hx : x.node.first = x.pair.1 := by
          rw [x.first_eq, stored_eq_key_iff]
          exact hd hk hlength x.pair (by rw [hpairs, List.getLast?_concat])
        obtain ⟨s', y, hput, h', hcap, hy⟩ := h.put_full hk hfull hx value
        refine ⟨s', y :: L, ?_, h', hcap, ?_⟩
        · rw [LruCache.call, hput]
          rfl
        · rw [htrack, hpairs, Lru.put_of_full (hpairs ▸ hk) (hpairs ▸ hlength), pairs_cons, hy]
    · refine ⟨_, _, ?_, h.emplaceFront hk (lt_of_le_of_ne h.size hfull) value, rfl, ?_⟩
      · rw [LruCache.call, h.put_room hk hfull]
        rfl
      · rw [htrack, Lru.put_of_room hk (by rwa [length_pairs])]
        rfl

/-- **One call.** While evictions drop pairs whose nodes hold their keys, the cache takes
the step its pairs take, and answers with what the nodes hold. -/
theorem Stands.call {s : LruCache α} {L : List (Slot α)} (h : Stands s L)
    (hc : 0 < s.capacity) {op : Lru.Op α α} (hd : DropsOwn s.capacity (pairs L) op) :
    ∃ s' L', s.call op = some (s', shown (pairs L) op) ∧ Stands s' L' ∧
      s'.capacity = s.capacity ∧ pairs L' = track s.capacity (pairs L) op := by
  cases op with
  | get key => exact h.call_get key
  | put key value => exact h.call_put hc hd

/-! ### The answers -/

/-- The list-of-pairs map the marked pairs are about. -/
def unmarked (l : Pairs α) : List (α × α) :=
  Lru.mapValues Prod.fst l

/-- Without the marks, the pairs are those of an LRU map. -/
theorem unmarked_track (c : ℕ) (l : Pairs α) (op : Lru.Op α α) :
    unmarked (track c l op) = Lru.next c (unmarked l) op := by
  cases op with
  | get key => exact congrArg Prod.snd (Lru.get_mapValues Prod.fst key l).symm
  | put key value => exact (Lru.put_mapValues Prod.fst c key (value, _) l).symm

/-- The cache answers as the map does exactly when its node shows the value. -/
theorem shown_eq_answers_iff {l : Pairs α} (hl : (Lru.keys l).Nodup) (op : Lru.Op α α) :
    shown l op = Lru.answers (unmarked l) op ↔ ShowsValue l op := by
  cases op with
  | put key value => exact iff_of_true rfl trivial
  | get key =>
      by_cases hk : key ∈ Lru.keys l
      · obtain ⟨e, he, rfl⟩ := List.mem_map.1 hk
        obtain ⟨l₁, l₂, rfl⟩ := List.append_of_mem he
        have hn : (Lru.keys l₁ ++ e.1 :: Lru.keys l₂).Nodup := by
          rwa [Lru.keys_append, Lru.keys_cons] at hl
        have h₁ : e.1 ∉ Lru.keys l₁ := fun hm =>
          List.disjoint_of_nodup_append hn hm List.mem_cons_self
        have h₂ : e.1 ∉ Lru.keys l₂ := (List.nodup_cons.1 hn.of_append_right).1
        have honly : ∀ e' ∈ l₁ ++ e :: l₂, e'.1 = e.1 → e' = e := by
          intro e' he' hkey
          rcases List.mem_append.1 he' with he' | he'
          · exact absurd (hkey ▸ List.mem_map_of_mem he') h₁
          · rcases List.mem_cons.1 he' with rfl | he'
            · rfl
            · exact absurd (hkey ▸ List.mem_map_of_mem he') h₂
        rw [shown, Lru.answers, unmarked, Lru.get_mapValues, Lru.get_append_cons h₁,
          Lru.find?_key_append_cons h₁, Option.map_some, Option.map_some, List.singleton_inj,
          Option.some_inj, stored_eq_value_iff, ShowsValue]
        exact ⟨fun h e' he' hkey => honly e' he' hkey ▸ h, fun h => h e he rfl⟩
      · rw [shown, Lru.answers, unmarked, Lru.get_mapValues, Lru.get_of_notMem hk,
          Lru.find?_key_of_notMem hk]
        refine iff_of_true rfl fun e he hkey => ?_
        exact absurd (hkey ▸ List.mem_map_of_mem he) hk

/-- A call, and the run behind it. -/
theorem run_cons {s s' : LruCache α} {op : Lru.Op α α} {answers : List (Option α)}
    (h : s.call op = some (s', answers)) (ops : List (Lru.Op α α)) :
    s.run (op :: ops) = (s'.run ops).map fun r => (r.1, answers ++ r.2) := by
  cases hr : s'.run ops <;> simp [run, h, hr]

/-- A call shows as many answers as it is to give. -/
theorem length_shown (l : Pairs α) (op : Lru.Op α α) :
    (shown l op).length = (Lru.answers (unmarked l) op).length := by
  cases op <;> rfl

/-- The answers along a sequence of calls, from any cache that stands for its pairs. -/
theorem Stands.run_iff {s : LruCache α} {L : List (Slot α)} (h : Stands s L)
    (hc : 0 < s.capacity) {ops : List (Lru.Op α α)}
    (hd : Along (DropsOwn s.capacity) s.capacity (pairs L) ops) :
    (∃ s', s.run ops = some (s', Lru.results s.capacity (unmarked (pairs L)) ops)) ↔
      Along ShowsValue s.capacity (pairs L) ops := by
  induction ops generalizing s L with
  | nil => exact iff_of_true ⟨s, rfl⟩ trivial
  | cons op ops ih =>
      obtain ⟨s', L', hcall, h', hcap, hpairs⟩ := h.call hc hd.1
      have ih := ih h' (hcap ▸ hc) (by rw [hcap, hpairs]; exact hd.2)
      rw [hcap, hpairs, unmarked_track] at ih
      rw [Along, ← shown_eq_answers_iff h.keys_nodup, ← ih, run_cons hcall, Lru.results]
      constructor
      · rintro ⟨s₂, hrun⟩
        obtain ⟨⟨s₁, results⟩, hr, heq⟩ := Option.map_eq_some_iff.1 hrun
        obtain ⟨rfl, happ⟩ := Prod.mk.inj heq
        obtain ⟨h₁, rfl⟩ := List.append_inj happ (length_shown (pairs L) op)
        exact ⟨h₁, s₁, hr⟩
      · rintro ⟨h₁, s₁, hr⟩
        exact ⟨s₁, by rw [hr, h₁]; rfl⟩

/-- **The cache and the list of pairs.** While every `put` that drops a pair drops one
whose node holds its key, the cache answers every `get` as the list-of-pairs map does
exactly when each `get` that hits finds a pair that was rewritten or whose value is its
key. -/
theorem run_eq_results_iff {c : ℕ} (hc : 0 < c) {ops : List (Lru.Op α α)}
    (hd : Along (DropsOwn c) c [] ops) :
    (∃ s, (new c).run ops = some (s, Lru.results c [] ops)) ↔ Along ShowsValue c [] ops :=
  (stands_new c).run_iff hc hd

/-- A pair that was rewritten with its key for a value, and dropped. -/
def rewrittenAndDropped : List (Lru.Op ℕ ℕ) :=
  [.put 1 2, .put 1 1, .put 3 3, .get 3]

/-- `run_eq_results_iff` on a sequence that meets both conditions: the cache answers. -/
theorem run_eq_results_dropped :
    ∃ s, (new 1).run rewrittenAndDropped =
      some (s, Lru.results 1 [] rewrittenAndDropped) := by
  have hdrops : Along (DropsOwn 1) 1 [] rewrittenAndDropped := by
    refine ⟨fun _ h => absurd h (by decide), fun h => absurd (by decide) h, ?_, trivial, trivial⟩
    intro _ _ e he _
    obtain rfl := Option.some.inj he
    rfl
  refine (run_eq_results_iff (by decide) hdrops).mpr ⟨trivial, trivial, trivial, ?_, trivial⟩
  intro e he _
  obtain rfl := List.mem_singleton.mp he
  exact .inr rfl

/-- The cache does not answer every sequence of calls as the map does: `get` shows the
key. -/
theorem not_run_eq_results :
    ¬ ∀ c : ℕ, 0 < c → ∀ ops : List (Lru.Op ℕ ℕ),
      ∃ s, (new c).run ops = some (s, Lru.results c [] ops) := by
  intro h
  obtain ⟨s, hs⟩ := h 1 (by decide) [.put 1 2, .get 1]
  have hanswers : ((new 1).run [.put 1 2, .get 1]).map Prod.snd =
      some (Lru.results 1 [] [.put 1 2, .get 1]) := by
    rw [hs]
    rfl
  exact absurd hanswers (by decide)

/-! ### The index -/

/-- The representation the cache is meant to keep: distinct keys in the nodes, an index
entry for exactly these keys, each leading to the node with its key, and no more of either
than the capacity. -/
structure Indexed (s : LruCache α) : Prop where
  keys_nodup : (s.items.map Node.first).Nodup
  keys : ∀ key, key ∈ s.cache ↔ key ∈ s.items.map Node.first
  designates : ∀ key it, s.cache.lookup key = some it →
    ∃ node, deref s.items it = some node ∧ node.first = key
  size : s.items.length = s.cache.keys.length ∧ s.items.length ≤ s.capacity

/-- Every pair whose node holds its key. -/
def OwnKeys (l : Pairs α) : Prop :=
  ∀ e ∈ l, stored e = e.1

/-- Where every node stores its own key, the nodes list the keys. -/
theorem Stands.firsts_eq {s : LruCache α} {L : List (Slot α)} (h : Stands s L)
    (ho : OwnKeys (pairs L)) : s.items.map Node.first = Lru.keys (pairs L) := by
  rw [h.items, Lru.keys, pairs, List.map_map, List.map_map]
  refine List.map_congr_left fun x hx => ?_
  exact x.first_eq.trans (ho x.pair (List.mem_map_of_mem hx))

/-- **The index is right exactly when every node holds its key.** -/
theorem Stands.indexed_iff {s : LruCache α} {L : List (Slot α)} (h : Stands s L) :
    Indexed s ↔ OwnKeys (pairs L) := by
  constructor
  · intro hi e he
    obtain ⟨x, hx, rfl⟩ := List.mem_map.1 he
    obtain ⟨node, hderef, hfirst⟩ := hi.designates x.pair.1 x.node.it (h.lookup x hx)
    obtain ⟨L₁, L₂, rfl⟩ := List.append_of_mem hx
    rw [h.items, deref, List.map_append, List.map_cons, Lru.find?_key_append_cons h.it_notMem]
      at hderef
    rw [← x.first_eq, Option.some.inj hderef, hfirst]
  · intro ho
    have hfirsts := h.firsts_eq ho
    have hkeys : ∀ key, key ∈ s.cache ↔ key ∈ s.items.map Node.first := by
      intro key
      rw [hfirsts]
      refine ⟨h.keys key, fun hk => ?_⟩
      obtain ⟨L₁, x, L₂, rfl, rfl⟩ := exists_slot hk
      rw [← AList.lookup_isSome, h.lookup x (by simp)]
      rfl
    have hnodup : (s.items.map Node.first).Nodup := hfirsts ▸ h.keys_nodup
    refine ⟨hnodup, hkeys, fun key it hlookup => ?_, ?_, ?_⟩
    · have hk : key ∈ Lru.keys (pairs L) := by
        refine h.keys key (AList.lookup_isSome.1 ?_)
        rw [hlookup]
        rfl
      obtain ⟨L₁, x, L₂, rfl, rfl⟩ := exists_slot hk
      obtain rfl : x.node.it = it :=
        Option.some.inj ((h.lookup x (by simp)).symm.trans hlookup)
      refine ⟨x.node, ?_, x.first_eq.trans (ho x.pair (by simp))⟩
      rw [h.items, deref, List.map_append, List.map_cons, Lru.find?_key_append_cons h.it_notMem]
    · have hperm : (s.items.map Node.first).Perm s.cache.keys :=
        (List.perm_ext_iff_of_nodup hnodup s.cache.keys_nodup).2 fun key => (hkeys key).symm
      rw [← hperm.length_eq, List.length_map]
    · rw [h.items, List.length_map]
      exact h.size

omit [DecidableEq α] in
/-- A pair more in front. -/
theorem ownKeys_cons {e : α × α × Bool} {l : Pairs α} (hl : OwnKeys l) :
    OwnKeys (e :: l) ↔ stored e = e.1 := by
  rw [OwnKeys, List.forall_mem_cons]
  exact and_iff_left hl

/-- A call keeps every key in its node exactly when it puts no other value on a present
key. -/
theorem ownKeys_track_iff {c : ℕ} {l : Pairs α} (ho : OwnKeys l) (op : Lru.Op α α) :
    OwnKeys (track c l op) ↔ KeepsKey l op := by
  cases op with
  | get key => exact iff_of_true (fun e he => ho e (Lru.mem_of_mem_get he)) trivial
  | put key value =>
      rw [track, mark, Lru.next, KeepsKey, Lru.put]
      by_cases hk : key ∈ Lru.keys l
      · have hl : OwnKeys (Lru.remove key l) := fun e he => ho e (List.mem_of_mem_eraseP he)
        rw [if_pos hk, ownKeys_cons hl, decide_eq_true hk]
        exact ⟨fun h _ => h, fun h => h hk⟩
      · rw [if_neg hk, decide_eq_false hk]
        refine iff_of_true ?_ fun h => absurd h hk
        split_ifs
        · exact (ownKeys_cons fun e he => ho e (List.dropLast_subset l he)).2 rfl
        · exact (ownKeys_cons ho).2 rfl

omit [DecidableEq α] in
/-- Then an eviction drops the key of its own node. -/
theorem OwnKeys.dropsOwn {c : ℕ} {l : Pairs α} (ho : OwnKeys l) (op : Lru.Op α α) :
    DropsOwn c l op := by
  cases op with
  | get key => trivial
  | put key value => exact fun _ _ e he => stored_eq_key_iff.1 (ho e (List.mem_of_getLast? he))

/-- The states along a sequence of calls, from a cache whose nodes hold their keys. -/
theorem Stands.indexed_run_iff {s : LruCache α} {L : List (Slot α)} (h : Stands s L)
    (hc : 0 < s.capacity) (ho : OwnKeys (pairs L)) (ops : List (Lru.Op α α)) :
    (∀ ops₁, ops₁ <+: ops → ∃ s' answers, s.run ops₁ = some (s', answers) ∧ Indexed s') ↔
      Along KeepsKey s.capacity (pairs L) ops := by
  induction ops generalizing s L with
  | nil =>
      refine iff_of_true (fun ops₁ hp => ?_) trivial
      rw [List.prefix_nil.1 hp]
      exact ⟨s, [], rfl, h.indexed_iff.2 ho⟩
  | cons op ops ih =>
      obtain ⟨s', L', hcall, h', hcap, hpairs⟩ := h.call hc (ho.dropsOwn op)
      have hc' : 0 < s'.capacity := hcap ▸ hc
      have hkeeps : OwnKeys (pairs L') ↔ KeepsKey (pairs L) op := by
        rw [hpairs]
        exact ownKeys_track_iff ho op
      constructor
      · intro hall
        have hk : KeepsKey (pairs L) op := by
          obtain ⟨s₁, _, hrun, hi⟩ := hall [op] (List.prefix_append [op] ops)
          rw [run_cons hcall, run, Option.map_some, Option.some_inj] at hrun
          obtain ⟨rfl, -⟩ := Prod.mk.inj hrun
          exact hkeeps.1 (h'.indexed_iff.1 hi)
        refine ⟨hk, ?_⟩
        rw [← hpairs, ← hcap, ← ih h' hc' (hkeeps.2 hk)]
        intro ops₁ hp
        obtain ⟨s₁, _, hrun, hi⟩ := hall (op :: ops₁) (List.prefix_cons_inj op |>.2 hp)
        rw [run_cons hcall] at hrun
        obtain ⟨⟨s₂, answers⟩, hr, heq⟩ := Option.map_eq_some_iff.1 hrun
        obtain ⟨rfl, -⟩ := Prod.mk.inj heq
        exact ⟨_, answers, hr, hi⟩
      · rintro ⟨hk, hrest⟩ ops₁ hp
        rw [← hpairs, ← hcap, ← ih h' hc' (hkeeps.2 hk)] at hrest
        rcases List.prefix_cons_iff.1 hp with rfl | ⟨ops₂, rfl, hp₂⟩
        · exact ⟨s, [], rfl, h.indexed_iff.2 ho⟩
        · obtain ⟨s₁, answers, hrun, hi⟩ := hrest ops₂ hp₂
          exact ⟨s₁, _, by rw [run_cons hcall, hrun]; rfl, hi⟩

/-- **The index along a run.** Every state of a sequence of calls is well indexed exactly
when no `put` gives a present key another value than the key itself. -/
theorem indexed_after_iff {c : ℕ} (hc : 0 < c) (ops : List (Lru.Op α α)) :
    (∀ ops₁, ops₁ <+: ops →
      ∃ s answers, (new c).run ops₁ = some (s, answers) ∧ Indexed s) ↔
      Along KeepsKey c [] ops :=
  (stands_new c).indexed_run_iff hc (fun _ h => absurd h List.not_mem_nil) ops

/-- Two values put under one key. -/
theorem indexed_after_iff_put_put :
    (∀ ops₁, ops₁ <+: [.put 1 1, .put 1 2] →
      ∃ s answers, (new 1).run ops₁ = some (s, answers) ∧ Indexed s) ↔
      Along KeepsKey 1 [] [.put 1 1, .put 1 2] :=
  indexed_after_iff (by decide) _

/-- The index is not right in every state: the second `put` replaces the key in the
node. -/
theorem not_indexed_after :
    ¬ ∀ c : ℕ, 0 < c → ∀ (ops : List (Lru.Op ℕ ℕ)) (s : LruCache ℕ) (answers : List (Option ℕ)),
      (new c).run ops = some (s, answers) → Indexed s := by
  intro h
  have hi := h 1 (by decide) [.put 1 1, .put 1 2] _ _ rfl
  exact absurd ((hi.keys 1).1 (by decide)) (by decide)

/-! ### The capacity -/

/-- An eviction reads and pops the back of the list, which an empty one does not have. -/
theorem evict_eq_none_iff {s : LruCache α} : s.evict = none ↔ s.items = [] := by
  rw [evict, Option.bind_eq_bind, Option.bind_eq_none_iff, ← List.getLast?_eq_none_iff]
  cases s.items.getLast? with
  | none => exact iff_of_true (fun _ h => absurd h (Option.not_mem_none _)) rfl
  | some back => exact iff_of_false (fun h => absurd (h back rfl) (by simp)) (by simp)

/-- A sequence of `put` calls. -/
def puts (kvs : List (α × α)) : List (Lru.Op α α) :=
  kvs.map fun kv => .put kv.1 kv.2

/-- **`put` calls with new keys** go through, and keep what a cache stands for. -/
theorem Stands.run_puts {s : LruCache α} {L : List (Slot α)} (h : Stands s L)
    (hc : 0 < s.capacity) (ho : OwnKeys (pairs L)) {kvs : List (α × α)}
    (hd : (kvs.map Prod.fst).Nodup) (hnew : ∀ k ∈ kvs.map Prod.fst, k ∉ Lru.keys (pairs L)) :
    ∃ s' L' answers, s.run (puts kvs) = some (s', answers) ∧ Stands s' L' ∧
      s'.capacity = s.capacity := by
  induction kvs generalizing s L with
  | nil => exact ⟨s, L, [], rfl, h, rfl⟩
  | cons kv kvs ih =>
      obtain ⟨key, value⟩ := kv
      obtain ⟨hkvs, hd⟩ := List.nodup_cons.1 hd
      have hkey : key ∉ Lru.keys (pairs L) := hnew key List.mem_cons_self
      obtain ⟨s₁, L₁, hcall, h₁, hcap, hpairs⟩ :=
        h.call_put hc (ho.dropsOwn (.put key value))
      have ho₁ : OwnKeys (pairs L₁) := by
        rw [hpairs]
        exact (ownKeys_track_iff ho _).2 fun hk => absurd hk hkey
      have hnew₁ : ∀ k ∈ kvs.map Prod.fst, k ∉ Lru.keys (pairs L₁) := by
        intro k hk hmem
        rw [hpairs] at hmem
        rcases Lru.mem_keys_put hmem with rfl | hmem
        · exact hkvs hk
        · exact hnew k (List.mem_cons_of_mem key hk) hmem
      obtain ⟨s', L', answers, hrun, h', hcap'⟩ := ih h₁ (hcap ▸ hc) ho₁ hd hnew₁
      refine ⟨s', L', [] ++ answers, ?_, h', hcap'.trans hcap⟩
      rw [puts, List.map_cons, run_cons hcall]
      exact congrArg (Option.map _) hrun

/-- **The capacity is kept.** Over `put` calls with distinct keys no eviction meets an
empty list and no more nodes than the capacity are held, exactly when the capacity is not
zero or there is no call. -/
theorem puts_within_iff (c : ℕ) {kvs : List (α × α)} (hd : (kvs.map Prod.fst).Nodup) :
    (∀ kvs₁, kvs₁ <+: kvs →
      ∃ s answers, (new c).run (puts kvs₁) = some (s, answers) ∧ s.items.length ≤ c) ↔
      0 < c ∨ kvs = [] := by
  constructor
  · intro hall
    by_contra hno
    obtain ⟨hc, hne⟩ := not_or.1 hno
    obtain rfl : c = 0 := Nat.eq_zero_of_not_pos hc
    obtain ⟨kv, kvs, rfl⟩ := List.exists_cons_of_ne_nil hne
    obtain ⟨s, answers, hrun, -⟩ := hall [kv] (List.prefix_append [kv] kvs)
    cases hrun
  · rintro (hc | rfl) kvs₁ hp
    · have hd₁ : (kvs₁.map Prod.fst).Nodup := (hp.sublist.map Prod.fst).nodup hd
      obtain ⟨s, L, answers, hrun, h, hcap⟩ := (stands_new c).run_puts hc
        (fun _ he => absurd he List.not_mem_nil) hd₁ fun _ _ hk => absurd hk List.not_mem_nil
      refine ⟨s, answers, hrun, ?_⟩
      rw [h.items, List.length_map]
      exact le_of_le_of_eq h.size hcap
    · rw [List.prefix_nil.1 hp]
      exact ⟨new c, [], rfl, Nat.zero_le c⟩

/-- Three keys for two places. -/
theorem puts_within_iff_three :
    (∀ kvs₁, kvs₁ <+: [(1, 10), (2, 20), (3, 30)] →
      ∃ s answers, (new 2).run (puts kvs₁) = some (s, answers) ∧ s.items.length ≤ 2) ↔
      0 < 2 ∨ [(1, 10), (2, 20), (3, 30)] = [] :=
  puts_within_iff 2 (by decide)

/-- The constructor accepts the capacity zero, and the first `put` then evicts from an
empty list. -/
theorem not_puts_within :
    ¬ ∀ (c : ℕ) (kvs : List (ℕ × ℕ)), (kvs.map Prod.fst).Nodup →
      ∃ s answers, (new c).run (puts kvs) = some (s, answers) ∧ s.items.length ≤ c := by
  intro h
  obtain ⟨s, answers, hrun, -⟩ := h 0 [(1, 1)] (by decide)
  cases hrun

end LruCache

end Camille
