import KernelGen.Context.Basic

/-! # What a context answers

The questions of `Context` are all answered from the entry of one name.  Each lemma
says which entry a successful answer comes from; the last section says what binding a
name, entering the device and leaving it do to the entries. -/
namespace KernelGen

/-- A question that is answered after another: both have answers. -/
theorem except_bind_eq_ok {ε α β : Type} {x : Except ε α} {f : α → Except ε β} {b : β} :
    (x >>= f) = .ok b ↔ ∃ a, x = .ok a ∧ f a = .ok b := by
  cases x with
  | error e =>
    constructor
    · intro h
      cases h
    · rintro ⟨a, h, _⟩
      cases h
  | ok a =>
    constructor
    · exact fun h => ⟨a, rfl, h⟩
    · rintro ⟨a', h, h'⟩
      cases h
      exact h'

namespace Context
variable {ctx : Context} {x : Name}

/-! ## Answers -/

theorem entry_eq_ok_iff {e : Entry} : ctx.entry x = .ok e ↔ ctx.vars.get? x = some e := by
  unfold entry
  cases ctx.vars.get? x <;> simp

theorem array_eq_ok_iff {ty : Ty} {p : Placement} :
    ctx.array x = .ok (ty, p) ↔ ctx.vars.get? x = some (.array ty p) := by
  rw [array, except_bind_eq_ok]
  simp only [entry_eq_ok_iff]
  constructor
  · rintro ⟨_ | ⟨ty, p⟩ | _, he, h⟩ <;> cases h
    exact he
  · exact fun h => ⟨_, h, rfl⟩

theorem block_eq_ok_iff {size : Size} {space : Space} :
    ctx.block x = .ok (size, space) ↔ ctx.vars.get? x = some (.block size space) := by
  rw [block, except_bind_eq_ok]
  simp only [entry_eq_ok_iff]
  constructor
  · rintro ⟨_ | _ | ⟨size, space⟩, he, h⟩ <;> cases h
    exact he
  · exact fun h => ⟨_, h, rfl⟩

theorem blockSpace_eq_ok_iff {space : Space} :
    ctx.blockSpace x = .ok space ↔ ∃ size, ctx.vars.get? x = some (.block size space) := by
  rw [blockSpace, except_bind_eq_ok]
  constructor
  · rintro ⟨⟨size, s⟩, hb, h⟩
    cases h
    exact ⟨size, block_eq_ok_iff.mp hb⟩
  · rintro ⟨size, h⟩
    exact ⟨_, block_eq_ok_iff.mpr h, rfl⟩

theorem shape_eq_ok_iff {shape : List Size} :
    ctx.shape x = .ok shape ↔
      ∃ ty p, ctx.vars.get? x = some (.array ty p) ∧ p.layout.shape = shape := by
  rw [Context.shape, except_bind_eq_ok]
  constructor
  · rintro ⟨⟨ty, p⟩, ha, h⟩
    cases h
    exact ⟨ty, p, array_eq_ok_iff.mp ha, rfl⟩
  · rintro ⟨ty, p, h, rfl⟩
    exact ⟨_, array_eq_ok_iff.mpr h, rfl⟩

/-! ## Entries -/

variable {y : Name}

theorem get?_bind (e : Entry) :
    (ctx.bind x e).vars.get? y = if x = y then some e else ctx.vars.get? y :=
  OrderedMap.get?_insert ..

theorem get?_bind_self (e : Entry) : (ctx.bind x e).vars.get? x = some e := by
  rw [get?_bind, if_pos rfl]

theorem get?_bind_of_ne (e : Entry) (h : x ≠ y) :
    (ctx.bind x e).vars.get? y = ctx.vars.get? y := by
  rw [get?_bind, if_neg h]

theorem get?_enterDevice :
    ctx.enterDevice.vars.get? x = (ctx.vars.get? x).map (Entry.inSpace .global) :=
  OrderedMap.get?_map ..

end Context

/-! ## Mentions -/

/-- The names that an entry speaks of: the block of an array and the variables of its
layout, and the variables of the size of a block. -/
def Entry.occurrences : Entry → List Name
  | scalar _ => []
  | array _ p => p.block :: p.layout.occurrences
  | block size _ => size.occurrences

namespace Context
variable {ctx : Context} {x y : Name}

/-- The names that are bound, each with those that its entry speaks of. -/
def mentioned (ctx : Context) : List Name :=
  ctx.vars.entries.flatMap fun (y, e) => y :: e.occurrences

theorem mem_of_lookup_eq_some {κ α : Type} [DecidableEq κ] {k : κ} {a : α} {es : List (κ × α)}
    (h : OrderedMap.lookup k es = some a) : (k, a) ∈ es := by
  induction es with
  | nil => cases h
  | cons e es ih =>
    rcases e with ⟨k', b⟩
    unfold OrderedMap.lookup at h
    split at h
    · rename_i hk
      cases h
      exact hk ▸ List.mem_cons_self ..
    · exact List.mem_cons_of_mem _ (ih h)

theorem mem_mentioned_of_get? {e : Entry} (h : ctx.vars.get? y = some e) : y ∈ ctx.mentioned :=
  List.mem_flatMap.mpr ⟨_, mem_of_lookup_eq_some h, List.mem_cons_self ..⟩

theorem mem_mentioned_of_mem_keys (h : x ∈ ctx.vars.keys) : x ∈ ctx.mentioned := by
  obtain ⟨q, hq, rfl⟩ := List.mem_map.mp h
  exact List.mem_flatMap.mpr ⟨q, hq, List.mem_cons_self ..⟩

theorem mem_mentioned_of_occurrence {e : Entry} (h : ctx.vars.get? y = some e)
    (hx : x ∈ e.occurrences) : x ∈ ctx.mentioned :=
  List.mem_flatMap.mpr ⟨_, mem_of_lookup_eq_some h, List.mem_cons_of_mem _ hx⟩

end Context

end KernelGen
