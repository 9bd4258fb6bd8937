import KernelGen.Compile
import KernelGen.Proofs.Program.Avoiding

/-! # Statements without maps

What becomes of maps is left to a parameter, which is handed on through every branch and
loop.  Statements with no map at any depth never come to ask it: whatever two treatments
of maps there are, they are compiled by the same steps
(`Stm.lowerAll_eq_of_mapFree`).  So the two ways to compile agree on them in all that a
run is, also where they fail, in the code emitted until then and the names drawn
(`run_lowerKernels_of_mapFree`).

The statement is an equality of steps, and not one of runs that end well.  Where nested
code fails, what it did to the context stays, and the next step meets it; equal steps
leave nothing to compare there. -/
namespace KernelGen

/-- No map among the statements, at any depth. -/
abbrev Stm.MapFreeAll (stms : List Stm) : Prop := Stm.AvoidsAll .map stms

section
variable (first second : Option MapLowering)

mutual

/-- **Without maps, it does not matter what would become of them.** -/
theorem Stm.lowerAll_eq_of_mapFree {stms : List Stm} (h : Stm.MapFreeAll stms) :
    Stm.lowerAll first stms = Stm.lowerAll second stms := by
  match stms with
  | [] => rfl
  | stm :: stms =>
    have hstm := Stm.lower_eq_of_mapFree h.1
    have hstms := Stm.lowerAll_eq_of_mapFree h.2
    rw [Stm.lowerAll, Stm.lowerAll, hstm, hstms]

theorem Stm.lower_eq_of_mapFree {stm : Stm} (h : stm.Avoids .map) :
    Stm.lower first stm = Stm.lower second stm := by
  match stm with
  | ⟨pat, exp⟩ => exact Exp.lower_eq_of_mapFree pat h

theorem Exp.lower_eq_of_mapFree (pat : List Binder) {e : Exp} (h : e.Avoids .map) :
    Exp.lower first pat e = Exp.lower second pat e := by
  match e with
  | .operand _ | .apply .. | .index .. | .update .. | .alloc .. | .scratch .. => rfl
  | .branch cond ⟨yes, _⟩ ⟨no, _⟩ =>
    have hyes := Stm.lowerAll_eq_of_mapFree h.2.1
    have hno := Stm.lowerAll_eq_of_mapFree h.2.2
    rw [Exp.lower, Exp.lower, hyes, hno]
  | .loop carried counter bound ⟨stms, result⟩ =>
    have hstms := Stm.lowerAll_eq_of_mapFree h.2
    rw [Exp.lower, Exp.lower, hstms]
  | .map ⟨_, ⟨_, _⟩, _⟩ _ => exact absurd rfl h.1

end

end

/-- **Kernels are a conservative addition.**  From any context, statements with no map at
any depth are compiled to the same run with kernels and without: the same success or
failure, the same emitted code, the same context with the same supply of names. -/
theorem run_lowerKernels_of_mapFree {stms : List Stm} (h : Stm.MapFreeAll stms) (ctx : Context) :
    (lowerKernels stms).run ctx = (lowerLoops stms).run ctx :=
  congrArg (Lowering.run · ctx) (Stm.lowerAll_eq_of_mapFree _ none h)

/-- A loop with a carried value and a branch inside it; one side of the branch reads an
array that is not there. -/
def searching : List Stm :=
  [⟨[⟨⟨"found", 1⟩, .i64, none⟩],
    .loop [(⟨⟨"best", 2⟩, .i64, none⟩, .const (.int 0))] ⟨"k", 3⟩ (.const (.int 5))
      ⟨[⟨[⟨⟨"next", 4⟩, .i64, none⟩],
        .branch (.const (.bool true)) ⟨[], [.var ⟨"best", 2⟩]⟩
          ⟨[⟨[⟨⟨"x", 5⟩, .i64, none⟩], .index ⟨"xs", 0⟩ [.var ⟨"k", 3⟩]⟩], [.var ⟨"x", 5⟩]⟩⟩],
        [.var ⟨"next", 4⟩]⟩⟩]

theorem run_lowerKernels_searching :
    Stm.MapFreeAll searching ∧ (lowerKernels searching).run (.initial {} ⟨6⟩) =
      (lowerLoops searching).run (.initial {} ⟨6⟩) :=
  ⟨by decide, run_lowerKernels_of_mapFree (by decide) _⟩

end KernelGen
