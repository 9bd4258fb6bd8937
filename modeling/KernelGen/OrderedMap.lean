/-! # Maps that remember insertion order

A finite map whose keys keep the order in which they first arrived. Writing to a key
that is already there replaces the value and leaves the key in its place
(`keys_insert`); cutting the map back to its first `n` keys (`take`) therefore drops
exactly what was added after there were `n`.

The view is `get?` together with `keys`; each operation below says what it does to
both. -/
namespace KernelGen

/-- A list of key–value pairs with no key twice. -/
structure OrderedMap (κ α : Type) where
  /-- The pairs, oldest key first. -/
  entries : List (κ × α)
  /-- No key occurs twice. -/
  nodup : (entries.map Prod.fst).Nodup

namespace OrderedMap
variable {κ α β : Type} [DecidableEq κ]

/-! ## Pairs -/

/-- The value of the first pair with key `k`. -/
def lookup (k : κ) : List (κ × α) → Option α
  | [] => none
  | (k', a) :: rest => if k' = k then some a else lookup k rest

/-- The pairs with `a` at `k`: in the place of `k` if it is there, else at the end. -/
def put (k : κ) (a : α) : List (κ × α) → List (κ × α)
  | [] => [(k, a)]
  | (k', b) :: rest => if k' = k then (k, a) :: rest else (k', b) :: put k a rest

theorem map_fst_put (k : κ) (a : α) (es : List (κ × α)) :
    (put k a es).map Prod.fst =
      if k ∈ es.map Prod.fst then es.map Prod.fst else es.map Prod.fst ++ [k] := by
  induction es with
  | nil => simp [put]
  | cons e es ih =>
    obtain ⟨k', b⟩ := e
    by_cases h : k' = k
    · subst h; simp [put]
    · have h' : ¬ k = k' := fun e => h e.symm
      simp only [put, if_neg h, List.map_cons, ih, List.mem_cons, h', false_or]
      split <;> simp

theorem nodup_put (k : κ) (a : α) {es : List (κ × α)} (h : (es.map Prod.fst).Nodup) :
    ((put k a es).map Prod.fst).Nodup := by
  rw [map_fst_put]
  split
  · exact h
  · rename_i hk
    rw [List.nodup_append]
    refine ⟨h, List.nodup_cons.mpr ⟨List.not_mem_nil, List.nodup_nil⟩, ?_⟩
    intro x hx y hy hxy
    obtain rfl := List.mem_singleton.mp hy
    exact hk (hxy ▸ hx)

theorem lookup_put (k k' : κ) (a : α) (es : List (κ × α)) :
    lookup k' (put k a es) = if k = k' then some a else lookup k' es := by
  induction es with
  | nil => rfl
  | cons e es ih =>
    obtain ⟨k'', b⟩ := e
    by_cases h : k'' = k
    · subst h; by_cases hk : k'' = k' <;> simp [put, lookup, hk]
    · by_cases hk : k'' = k'
      · subst hk
        have h' : ¬ k = k'' := fun e => h e.symm
        simp [put, lookup, h, h']
      · simp [put, lookup, h, hk, ih]

/-! ## Operations -/

/-- The map with no key. -/
def empty : OrderedMap κ α := ⟨[], List.nodup_nil⟩

instance : Inhabited (OrderedMap κ α) := ⟨empty⟩

/-- The value at a key. -/
def get? (m : OrderedMap κ α) (k : κ) : Option α := lookup k m.entries

/-- The keys, oldest first. -/
def keys (m : OrderedMap κ α) : List κ := m.entries.map Prod.fst

/-- Give `k` the value `a`. A key that is there keeps its place, a new one comes last. -/
def insert (m : OrderedMap κ α) (k : κ) (a : α) : OrderedMap κ α :=
  ⟨put k a m.entries, nodup_put k a m.nodup⟩

/-- The map with the pairs of a list, written in order: a repeated key has the place of
its first pair and the value of its last. -/
def ofList (pairs : List (κ × α)) : OrderedMap κ α :=
  pairs.foldl (fun m p => m.insert p.1 p.2) empty

/-- The number of keys. -/
def size (m : OrderedMap κ α) : Nat := m.entries.length

/-- The first `n` keys with their values. -/
def take (m : OrderedMap κ α) (n : Nat) : OrderedMap κ α :=
  ⟨m.entries.take n, by
    rw [List.map_take]; exact m.nodup.sublist (List.take_sublist n _)⟩

/-- Every value replaced by its image; keys and order stay. -/
def map (m : OrderedMap κ α) (f : κ → α → β) : OrderedMap κ β :=
  ⟨m.entries.map fun p => (p.1, f p.1 p.2), by
    have h : (m.entries.map fun p => (p.1, f p.1 p.2)).map Prod.fst = m.entries.map Prod.fst := by
      simp [Function.comp_def]
    rw [h]; exact m.nodup⟩

/-! ## What they do to the view -/

@[simp] theorem get?_empty (k : κ) : (empty : OrderedMap κ α).get? k = none := rfl

omit [DecidableEq κ] in
@[simp] theorem keys_empty : (empty : OrderedMap κ α).keys = [] := rfl

theorem get?_insert (m : OrderedMap κ α) (k k' : κ) (a : α) :
    (m.insert k a).get? k' = if k = k' then some a else m.get? k' :=
  lookup_put k k' a m.entries

theorem keys_insert (m : OrderedMap κ α) (k : κ) (a : α) :
    (m.insert k a).keys = if k ∈ m.keys then m.keys else m.keys ++ [k] :=
  map_fst_put k a m.entries

omit [DecidableEq κ] in
@[simp] theorem keys_take (m : OrderedMap κ α) (n : Nat) : (m.take n).keys = m.keys.take n :=
  List.map_take

omit [DecidableEq κ] in
@[simp] theorem keys_map (m : OrderedMap κ α) (f : κ → α → β) : (m.map f).keys = m.keys := by
  simp [keys, map, Function.comp_def]

@[simp] theorem get?_map (m : OrderedMap κ α) (f : κ → α → β) (k : κ) :
    (m.map f).get? k = (m.get? k).map (f k) := by
  obtain ⟨es, h⟩ := m
  simp only [get?, map]
  clear h
  induction es with
  | nil => rfl
  | cons e es ih =>
    obtain ⟨k', b⟩ := e
    by_cases hk : k' = k
    · subst hk; simp [lookup]
    · simp [lookup, hk, ih]

end OrderedMap

end KernelGen
