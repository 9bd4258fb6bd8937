import KernelGen.Proofs.Context.Lookup

/-! # Names in order, and leaving the device

A context remembers the order in which names came, so the names of an outer context are
those in front (`keys_bind`).  `Context.leaveDevice` cuts the table back to as many names;
`get?_leaveDevice` says what it answers afterwards, provided that nothing in front was
dropped or moved. -/
namespace KernelGen

namespace OrderedMap
variable {κ α : Type} [DecidableEq κ] {k : κ}

theorem lookup_eq_none_iff {es : List (κ × α)} : lookup k es = none ↔ k ∉ es.map Prod.fst := by
  induction es with
  | nil => simp [lookup]
  | cons e es ih =>
    rcases e with ⟨k', a⟩
    by_cases h : k' = k
    · simp [lookup, h]
    · have h' : ¬ k = k' := fun he => h he.symm
      simp [lookup, h, h', ih]

theorem get?_eq_none_iff {m : OrderedMap κ α} : m.get? k = none ↔ k ∉ m.keys :=
  lookup_eq_none_iff

/-- What is left of a cut table answers as before. -/
theorem get?_take (m : OrderedMap κ α) (n : Nat) :
    (m.take n).get? k = if k ∈ m.keys.take n then m.get? k else none := by
  have hlookup : ∀ (es : List (κ × α)) (n : Nat),
      lookup k (es.take n) = if k ∈ (es.map Prod.fst).take n then lookup k es else none := by
    intro es
    induction es with
    | nil => simp [lookup]
    | cons e es ih =>
      intro n
      rcases e with ⟨k', a⟩
      cases n with
      | zero => simp [lookup]
      | succ n =>
        by_cases h : k' = k
        · simp [lookup, h]
        · have h' : ¬ k = k' := fun he => h he.symm
          simp [lookup, h, h', ih]
  exact hlookup m.entries n

end OrderedMap

namespace Context
variable {outer inner ctx : Context} {x : Name}

/-- Names that are bound come behind those that were. -/
theorem keys_bind (h : outer.vars.keys <+: ctx.vars.keys) (e : Entry) :
    outer.vars.keys <+: (ctx.bind x e).vars.keys := by
  show _ <+: (ctx.vars.insert x e).keys
  rw [OrderedMap.keys_insert]
  split
  · exact h
  · exact h.trans (List.prefix_append ..)

theorem keys_enterDevice : ctx.vars.keys <+: ctx.enterDevice.vars.keys :=
  ⟨[], (List.append_nil _).trans (OrderedMap.keys_map ..).symm⟩

/-- **What is known after leaving the device**: the names of the outer context, with what
they stood for inside, blocks in the space they have outside. -/
theorem get?_leaveDevice (h : outer.vars.keys <+: inner.vars.keys) :
    (outer.leaveDevice inner).vars.get? x =
      if x ∈ outer.vars.keys then (inner.vars.get? x).map (Entry.spaceFrom (outer.vars.get? x))
      else none := by
  have hsize : outer.vars.size = outer.vars.keys.length := by
    rw [OrderedMap.keys, List.length_map, OrderedMap.size]
  have htake : inner.vars.keys.take outer.vars.size = outer.vars.keys := by
    rw [hsize]
    exact (List.prefix_iff_eq_take.mp h).symm
  show ((inner.vars.take outer.vars.size).map _).get? x = _
  rw [OrderedMap.get?_map, OrderedMap.get?_take, htake]
  split
  · rfl
  · rfl

/-- The names of the outer context are those that are left. -/
theorem keys_leaveDevice (h : outer.vars.keys <+: inner.vars.keys) :
    (outer.leaveDevice inner).vars.keys = outer.vars.keys := by
  have hsize : outer.vars.size = outer.vars.keys.length := by
    rw [OrderedMap.keys, List.length_map, OrderedMap.size]
  show ((inner.vars.take outer.vars.size).map _).keys = _
  rw [OrderedMap.keys_map, OrderedMap.keys_take, hsize]
  exact (List.prefix_iff_eq_take.mp h).symm

/-- What a name stood for when the device was entered is what it stands for afterwards,
unless it was bound in between. -/
theorem get?_leaveDevice_of_get?_eq (h : outer.vars.keys <+: inner.vars.keys)
    (hx : inner.vars.get? x = outer.enterDevice.vars.get? x) :
    (outer.leaveDevice inner).vars.get? x = outer.vars.get? x := by
  rw [get?_leaveDevice h, hx, get?_enterDevice]
  by_cases hmem : x ∈ outer.vars.keys
  · rw [if_pos hmem]
    cases outer.vars.get? x with
    | none => rfl
    | some e => cases e <;> rfl
  · rw [if_neg hmem, OrderedMap.get?_eq_none_iff.mpr hmem]

end Context

end KernelGen
