import KernelGen.Lowering.Element

/-! # Compiling statements

`Stm.lower` compiles a statement to imperative code. Every form of expression has one
rule, in `Exp.lower`. Maps are the exception: they are left to the caller, who says what
becomes of them, at every depth. Without that a map becomes a loop over the elements of
its inputs. -/
namespace KernelGen

namespace Lowering

/-! ## The forms of expressions

What stands nested in an expression comes as the step that compiles it. -/

/-- An allocation binds one block handle. Inside a kernel there is no allocation. -/
def lowerAlloc (pat : List Binder) (size : Size) (space : Space) : Lowering Unit :=
  match pat with
  | [b] =>
    if b.ty.isMem then do
      if ← ask (pure ·.onDevice) then fail (.nestedAllocation b.name)
      allocate b.name size space
    else fault .allocationPattern
  | _ => fault .allocationPattern

/-- Read one element into the only destination. -/
def lowerIndex (dests : List Destination) (array : Name) (indices : List Operand) :
    Lowering Unit := do
  let x ← singleScalar dests
  let (ty, p) ← ask (·.array array)
  if indices.length ≠ p.layout.rank then fault (.indexCount array indices.length)
  readElement x p (← positions indices) ty.element

/-- Write one element of the only destination. The array that is updated is taken to live
there. -/
def lowerUpdate (dests : List Destination) (indices : List Operand) (value : Operand) :
    Lowering Unit := do
  match ← single dests with
  | .scalar x => fault (.updateOfScalar x)
  | .array p element => writeElement p (← positions indices) element value

/-- The code of one branch: its statements, then its results stored. -/
def lowerBranch (dests : List Destination) (stms : Lowering Unit) (result : List Operand) :
    Lowering Code := do
  if dests.length ≠ result.length then fault (.resultCount result.length dests.length)
  collect do
    stms
    assignAll dests result

/-- Declare a carried value and store what it starts as. -/
def startCarried : Binder × Operand → Lowering Unit
  | (b, init) => do
    declare b
    assign b.destination init

/-- What is stored into a carried value at the end of a run of the loop. A result may read
carried values, so a scalar is first put aside, under a new name. -/
def stageCarried (b : Binder) (result : Operand) : Lowering Operand :=
  match b.placement with
  | some _ => return result
  | none => do
    let aside ← fresh (b.name.base ++ "_next")
    emit (.declareScalar aside b.ty)
    emit (.set aside (.ofOperand result))
    bindScalar aside b.ty
    return .var aside

/-- A counted loop. The carried values are set before it, and again at the end of each
run, all from the values before; after it they are stored into the destinations. -/
def lowerLoop (dests : List Destination) (carried : List (Binder × Operand)) (counter : Name)
    (bound : Operand) (stms : Lowering Unit) (result : List Operand) : Lowering Unit := do
  if carried.length ≠ result.length ∨ carried.length ≠ dests.length then
    fault (.carriedCount carried.length result.length)
  carried.forM startCarried
  bindScalar counter .i64
  let binders := carried.map Prod.fst
  let body ← collect do
    stms
    let staged ← (binders.zip result).mapM fun (b, a) => stageCarried b a
    assignAll (binders.map Binder.destination) staged
  emit (.loop counter (.ofOperand bound) body)
  assignAll dests (binders.map (.var ·.name))

/-- Read element `i` of an input into a parameter. -/
def readLoopParam (i : Name) : Binder × Name → Lowering Unit
  | (param, input) => do
    let (ty, p) ← ask (·.array input)
    if p.layout.rank ≠ 1 ∨ !param.ty.isScalar then fault (.loopInputRank input)
    readParam i param ty p

/-- Write a result to element `i` of its destination. -/
def writeLoopResult (i : Name) : Destination × Operand → Lowering Unit
  | (.scalar x, _) => fault (.mapResultScalar x)
  | (.array p element, a) => writeElement p [.var i] element a

/-- A map as a loop over the elements of its inputs. -/
def lowerMapLoop (dests : List Destination) (params : List Binder) (stms : Lowering Unit)
    (result : List Operand) (inputs : List Name) : Lowering Unit := do
  let count ← width inputs .loopInputFlat
  if params.length ≠ inputs.length ∨ result.length ≠ dests.length then fault .mapArity
  let i ← fresh "i"
  bindScalar i .i64
  let body ← collect do
    (params.zip inputs).forM (readLoopParam i)
    stms
    (dests.zip result).forM (writeLoopResult i)
  emit (.loop i (.ofSize count) body)

end Lowering

/-! ## Statements -/

/-- What becomes of a map: from what it is bound to, its lambda and its inputs. -/
abbrev MapLowering := List Binder → Lambda → List Name → Lowering Unit

section
open Lowering
variable (onMap : Option MapLowering)

mutual

/-- Compile statements one after the other. -/
def Stm.lowerAll : List Stm → Lowering Unit
  | [] => pure ()
  | stm :: stms => do
    Stm.lower stm
    Stm.lowerAll stms

/-- Compile a statement. -/
def Stm.lower : Stm → Lowering Unit
  | ⟨pat, exp⟩ => Exp.lower pat exp

/-- Compile an expression that is bound by a pattern. -/
def Exp.lower (pat : List Binder) : Exp → Lowering Unit
  | .operand a => do
    let dests ← declarePattern pat
    assign (← single dests) a
  | .apply op lhs rhs => do
    let dests ← declarePattern pat
    emit (.set (← singleScalar dests) (.apply op (.ofOperand lhs) (.ofOperand rhs)))
  | .index array indices => do
    let dests ← declarePattern pat
    lowerIndex dests array indices
  | .update _ indices value => do
    let dests ← declarePattern pat
    lowerUpdate dests indices value
  | .alloc size space => lowerAlloc pat size space
  | .scratch _ _ => do
    let _ ← declarePattern pat
  | .branch cond ⟨yes, yesResult⟩ ⟨no, noResult⟩ => do
    let dests ← declarePattern pat
    let yes ← lowerBranch dests (Stm.lowerAll yes) yesResult
    let no ← lowerBranch dests (Stm.lowerAll no) noResult
    emit (.branch (.ofOperand cond) yes no)
  | .loop carried counter bound ⟨stms, result⟩ => do
    let dests ← declarePattern pat
    lowerLoop dests carried counter bound (Stm.lowerAll stms) result
  | .map ⟨params, ⟨stms, result⟩, ret⟩ inputs =>
    match onMap with
    | some lowerMap => lowerMap pat ⟨params, ⟨stms, result⟩, ret⟩ inputs
    | none => do
      let dests ← declarePattern pat
      lowerMapLoop dests params (Stm.lowerAll stms) result inputs

end

end

end KernelGen
