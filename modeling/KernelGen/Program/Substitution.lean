import KernelGen.OrderedMap
import KernelGen.Program.Traverse

/-! # Walks that keep a record, and substitution

A recorded walk notes the parts of the program it arrives at, every placement and every
operand, in order. A carried value is not noted itself, as its binder and its initial value
are. Placements and operands are replaced; where there is no replacement the walk stops, and
the record then ends with the visit that caused it.

A `Substitution` renames the blocks of placements and replaces variables by operands,
each once and not repeatedly. One name may be forbidden: the walk stops at the first
placement whose block it is, and at the first operand that is this variable. -/
namespace KernelGen

/-! ## Recorded walks -/

/-- What a walk comes upon. -/
inductive Visit where
  | site (s : Site)
  | placement (p : Placement)
  | operand (a : Operand)

/-- How a visit is written; a placement by its block. -/
def Visit.text : Visit → String
  | site .body => "body"
  | site .stm => "stm"
  | site .pattern => "pattern"
  | site (.bound x) => "pat_elem " ++ x.text
  | site (.param x) => "param " ++ x.text
  | site (.carried x) => "carried " ++ x.text
  | site (.exp form) => "exp " ++ form
  | site (.loop counter) => "loop " ++ counter.text
  | site .lambda => "lambda"
  | placement p => "summary " ++ p.block.text
  | operand a => "subexp " ++ a.text

/-- What a recorded walk returns: its result or the visit at which it stopped, and all
visits in order. -/
structure Record (α : Type) where
  outcome : Except Visit α
  visits : List Visit

/-- A walk that keeps a record and may stop at a visit. -/
abbrev Recorded := ExceptT Visit (StateM (List Visit))

namespace Recorded
variable {α : Type}

/-- Add a visit to the record. -/
def note (v : Visit) : Recorded Unit := modify (· ++ [v])

/-- Note the visit; stop at it if there is no value to go on with. -/
def visit (v : Visit) : Option α → Recorded α
  | some a => do note v; return a
  | none => do note v; throw v

/-- Note what is come upon, carried values apart, and replace placements and operands where
there is a replacement. -/
def action (placement? : Placement → Option Placement) (operand? : Operand → Option Operand) :
    Action Recorded where
  enter
    | .carried _ => pure ()
    | s => note (.site s)
  placement p := visit (.placement p) (placement? p)
  operand a := visit (.operand a) (operand? a)

/-- The walk, from an empty record. -/
def record (walk : Recorded α) : Record α :=
  let (outcome, visits) := Id.run (walk.run.run [])
  ⟨outcome, visits⟩

end Recorded

/-! ## Substituting names -/

/-- Replacements for names. -/
structure Substitution where
  /-- What variables become. -/
  operands : OrderedMap Name Operand
  /-- What blocks become. -/
  blocks : OrderedMap Name Name
  /-- The name at which to stop. -/
  forbidden : Option Name

namespace Substitution
variable (s : Substitution)

/-- The placement, in the block's replacement; none if the block is forbidden. -/
def placement? (p : Placement) : Option Placement :=
  if s.forbidden = some p.block then none
  else some { p with block := (s.blocks.get? p.block).getD p.block }

/-- The operand or its replacement; none if it is the forbidden variable. -/
def operand? : Operand → Option Operand
  | .const c => some (.const c)
  | .var x => if s.forbidden = some x then none else some ((s.operands.get? x).getD (.var x))

/-- Substitute, and keep a record. -/
def action : Action Recorded := Recorded.action s.placement? s.operand?

/-- The body after the substitution, with the record of the walk. -/
def body (b : Body) : Record Body := Recorded.record (b.traverse s.action)

/-- The lambda after the substitution, with the record of the walk. -/
def lambda (f : Lambda) : Record Lambda := Recorded.record (f.traverse s.action)

end Substitution

end KernelGen
