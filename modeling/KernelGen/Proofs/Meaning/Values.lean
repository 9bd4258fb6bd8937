import KernelGen.Operand
import KernelGen.Program.Basic
import KernelGen.Proofs.Size.Occurrences

/-! # Values, memory and places

What programs compute with, before any program or code is run.  An `Interpretation` says
what scalars are and what constants and operators do to them; an operator may have no
result.  Memory is a table of the cells of blocks.

The place of an array is symbolic in a program and becomes a `Location` once the
variables of its layout have values: a block, an offset and strides, all numbers.  The
element with indices `i₀, …, i_{r-1}` lies in the cell

    offset + i₀ * s₀ + … + i_{r-1} * s_{r-1}

of the block (`Location.cell`).  Emitted code knows no locations; it computes symbolic
positions, which were simplified.  `exact_position` says that it arrives at the same
cell. -/
namespace KernelGen

/-- What constants and operators denote. -/
structure Interpretation where
  /-- The values of scalars. -/
  Value : Type
  const : Const → Value
  /-- The value that a counter has at this number. -/
  number : Int → Value
  /-- The number that a value stands for, as an index and as the bound of a loop. -/
  index : Value → Int
  /-- Whether a condition holds; `none` if the value is no condition. -/
  truth : Value → Option Bool
  /-- The result of an operator, if it has one. -/
  apply : Operator → Value → Value → Option Value
  index_number : ∀ n, index (number n) = n
  const_int : ∀ n : Int64, const (.int n) = number n.toInt

/-! ## Memory -/

/-- The cells of all blocks. -/
def Memory (I : Interpretation) : Type := Name → Int → Option I.Value

namespace Memory
variable {I : Interpretation}

/-- What a cell holds, if there is such a cell. -/
def load (m : Memory I) (block : Name) (cell : Int) : Option I.Value := m block cell

/-- Put a value into a cell, if there is such a cell. -/
def store (m : Memory I) (block : Name) (cell : Int) (v : I.Value) : Option (Memory I) :=
  (m block cell).map fun _ =>
    Function.update m block (Function.update (m block) cell (some v))

end Memory

/-! ## Sizes -/

/-- The exact integer that a size denotes, if its variables have values. -/
def Size.exact (env : Name → Option Int) : Size → Option Int
  | const n => some n.toInt
  | var x => env x
  | add a b => do return (← a.exact env) + (← b.exact env)
  | mul a b => do return (← a.exact env) * (← b.exact env)

theorem Size.exact_eq_value {env : Name → Option Int} {ρ : Name → Int} {s : Size}
    (h : ∀ x ∈ s.occurrences, env x = some (ρ x)) : s.exact env = some (s.value ρ) := by
  induction s with
  | const n => rfl
  | var x => exact h x (List.mem_cons_self ..)
  | add a b iha ihb | mul a b iha ihb =>
    rw [occurrences, List.forall_mem_append] at h
    rw [exact, iha h.1, ihb h.2]
    rfl

/-! ## Places -/

/-- Where an array lives, in numbers. -/
structure Location where
  block : Name
  offset : Int
  strides : List Int

/-- The cell of an element.  Indices that are left out at the end count as zero. -/
def Location.cell (l : Location) (indices : List Int) : Int :=
  l.offset + ((indices.zip l.strides).map fun (i, s) => i * s).sum

/-- The place in numbers, if the variables of the layout have values. -/
def Placement.locate (env : Name → Option Int) (p : Placement) : Option Location := do
  let offset ← p.layout.offset.exact env
  let strides ← p.layout.strides.mapM (·.exact env)
  return ⟨p.block, offset, strides⟩

theorem mapM_exact_eq_values {env : Name → Option Int} {ρ : Name → Int} {sizes : List Size}
    (h : ∀ s ∈ sizes, ∀ x ∈ s.occurrences, env x = some (ρ x)) :
    sizes.mapM (·.exact env) = some (sizes.map (·.value ρ)) := by
  induction sizes with
  | nil => rfl
  | cons s sizes ih =>
    rw [List.forall_mem_cons] at h
    rw [List.mapM_cons, Size.exact_eq_value h.1, ih h.2]
    rfl

namespace Placement
variable {env env' : Name → Option Int} {ρ : Name → Int} {p : Placement}

theorem locate_eq_values (h : ∀ x ∈ p.layout.occurrences, env x = some (ρ x)) :
    p.locate env =
      some ⟨p.block, p.layout.offset.value ρ, p.layout.strides.map (·.value ρ)⟩ := by
  rw [Layout.occurrences, List.forall_mem_append] at h
  have hstrides : ∀ s ∈ p.layout.strides, ∀ x ∈ s.occurrences, env x = some (ρ x) := by
    intro s hs x hx
    exact h.2 x (List.mem_flatMap.mpr ⟨s, List.mem_append.mpr (.inr hs), hx⟩)
  rw [locate, Size.exact_eq_value h.1, mapM_exact_eq_values hstrides]
  rfl

theorem block_of_locate {l : Location} (h : p.locate env = some l) : l.block = p.block := by
  simp only [locate, Option.bind_eq_bind, Option.bind_eq_some_iff] at h
  obtain ⟨offset, -, strides, -, h⟩ := h
  cases h
  rfl

/-- A place depends on the variables of its layout only. -/
theorem locate_congr (hdefined : ∀ x ∈ p.layout.occurrences, (env x).isSome)
    (h : ∀ x ∈ p.layout.occurrences, env' x = env x) : p.locate env' = p.locate env := by
  have henv : ∀ x ∈ p.layout.occurrences, env x = some ((env x).getD 0) := by
    intro x hx
    obtain ⟨n, hn⟩ := Option.isSome_iff_exists.mp (hdefined x hx)
    rw [hn]
    rfl
  have henv' : ∀ x ∈ p.layout.occurrences, env' x = some ((env x).getD 0) :=
    fun x hx => (h x hx).trans (henv x hx)
  rw [locate_eq_values henv, locate_eq_values henv']

/-- **A simplified position is the cell**, when the variables of the layout and of the
indices have values. -/
theorem exact_position (h : ∀ x ∈ p.layout.occurrences, env x = some (ρ x))
    {indices : List Size} (hi : ∀ i ∈ indices, ∀ x ∈ i.occurrences, env x = some (ρ x))
    {l : Location} (hl : p.locate env = some l) :
    (p.layout.position indices).exact env = some (l.cell (indices.map (·.value ρ))) := by
  have hposition : ∀ x ∈ (p.layout.position indices).occurrences, env x = some (ρ x) := by
    intro x hx
    rcases Layout.mem_occurrences_position hx with hx | ⟨i, hmem, hx⟩
    · exact h x hx
    · exact hi i hmem x hx
  rw [locate_eq_values h] at hl
  obtain rfl := Option.some.inj hl
  rw [Size.exact_eq_value hposition, Layout.value_position, Location.cell, Layout.displacement,
    List.zip_map, List.map_map]
  rfl

end Placement

end KernelGen
