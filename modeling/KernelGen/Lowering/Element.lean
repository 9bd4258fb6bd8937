import KernelGen.Lowering.Basic

/-! # Moving values

The parts from which statements are compiled: declaring what a pattern binds, finding
the one destination of a result, storing an operand, and moving single elements between
arrays and scalars.

Arrays are never copied. To store an array into a destination is to check that it
already lives there (`assign`). -/
namespace KernelGen.Lowering

/-! ## Binding -/

/-- Bind a scalar. -/
def bindScalar (x : Name) (ty : Ty) : Lowering Unit := change (·.bindScalar x ty)

/-- Bind a block. -/
def bindBlock (x : Name) (size : Size) (space : Space) : Lowering Unit :=
  change (·.bindBlock x size space)

/-- Bind as the binder says. -/
def bindBinder (b : Binder) : Lowering Unit := do
  let ctx ← ask (·.bindBinder b)
  change fun _ => ctx

/-- Declare a block, allocate it and bind it. -/
def allocate (block : Name) (size : Size) (space : Space) : Lowering Unit := do
  emit (.declareBlock block space)
  emit (.allocate block size space)
  bindBlock block size space

/-- Bind as the binder says; a scalar is declared first. An array needs no declaration,
as its memory is there. -/
def declare (b : Binder) : Lowering Unit := do
  if b.placement.isNone then emit (.declareScalar b.name b.ty)
  bindBinder b

/-- Declare every binder of a pattern; the destinations they stand for. -/
def declarePattern (pat : List Binder) : Lowering (List Destination) := do
  pat.forM declare
  return pat.map Binder.destination

/-! ## Destinations -/

/-- The only destination. -/
def single : List Destination → Lowering Destination
  | [d] => return d
  | dests => fault (.destinationCount dests.length)

/-- The only destination, which has to be a scalar variable. -/
def singleScalar (dests : List Destination) : Lowering Name := do
  match ← single dests with
  | .scalar x => return x
  | .array p _ => fault (.scalarIntoArray p.block)

/-- The indices as sizes. -/
def positions (indices : List Operand) : Lowering (List Size) :=
  indices.mapM fun a =>
    match a.size? with
    | some s => pure s
    | none => fault (.indexNotInteger a)

/-- Store an operand. An array has to live at the destination already. -/
def assign (dest : Destination) (a : Operand) : Lowering Unit :=
  match dest with
  | .scalar x => emit (.set x (.ofOperand a))
  | .array wanted _ =>
    match a with
    | .const c => fault (.constantIntoArray (.const c))
    | .var x => do
      match ← ask (·.entry x) with
      | .array _ home =>
        if home = wanted then pure () else fault (.arrayElsewhere x home.block wanted.block)
      | .scalar _ | .block .. => fault (.storedNotArray x wanted.block)

/-- Store operands, one after the other. -/
def assignAll (dests : List Destination) (results : List Operand) : Lowering Unit :=
  (dests.zip results).forM fun (d, a) => assign d a

/-! ## Elements -/

/-- Read the element at `indices` of an array, with elements of type `element`, into `x`. -/
def readElement (x : Name) (p : Placement) (indices : List Size) (element : Ty) :
    Lowering Unit := do
  let space ← ask (·.blockSpace p.block)
  emit (.read x p.block (p.layout.position indices) element space)

/-- Write an operand to the element at `indices`. -/
def writeElement (p : Placement) (indices : List Size) (element : Ty) (a : Operand) :
    Lowering Unit := do
  let space ← ask (·.blockSpace p.block)
  emit (.write p.block (p.layout.position indices) element space (.ofOperand a))

/-- Declare a parameter, read its value from element `i` of an array, and bind it. -/
def readParam (i : Name) (param : Binder) (ty : Ty) (p : Placement) : Lowering Unit := do
  let space ← ask (·.blockSpace p.block)
  emit (.declareScalar param.name param.ty)
  emit (.read param.name p.block (p.layout.position [.var i]) ty.element space)
  bindScalar param.name param.ty

/-- The outermost extent of the first input of a map; `flat` names the fault if that input
has no dimension. -/
def width (inputs : List Name) (flat : Name → Fault) : Lowering Size :=
  match inputs with
  | [] => fault .mapWithoutInputs
  | first :: _ => do
    match ← ask (·.shape first) with
    | [] => fault (flat first)
    | extent :: _ => return extent

end KernelGen.Lowering
