import KernelGen.Program.Names
import KernelGen.Proofs.Meaning.Values

/-! # What programs do

Running a program needs an environment, which says what the names in scope stand for, and
memory.  Scalars stand for values, arrays for the locations at which they were bound.
Statements are run in order.  An expression gives one value for each binder of its
pattern and may change memory; the names that are bound inside it are forgotten.

A run can be stuck: an operator has no result, a condition is no truth value, or an
element lies in no cell.  Blocks are not made here and maps are not run; a program that
does either is stuck. -/
namespace KernelGen

/-- What a name stands for. -/
inductive Val (I : Interpretation) where
  | scalar (v : I.Value)
  | array (l : Location)

/-- What the names in scope stand for. -/
def Env (I : Interpretation) : Type := Name → Option (Val I)

namespace Env
variable {I : Interpretation}

def set (env : Env I) (x : Name) (v : Val I) : Env I := Function.update env x (some v)

/-- The binders stand for the values, one each, and all other names for what they did. -/
def bindAll (env : Env I) : List Binder → List (Val I) → Env I
  | b :: pat, v :: vals => (env.set b.name v).bindAll pat vals
  | _, _ => env

/-- The value of a scalar. -/
def scalar (env : Env I) (x : Name) : Option I.Value :=
  match env x with
  | some (.scalar v) => some v
  | some (.array _) | none => none

/-- Where an array lives. -/
def location (env : Env I) (x : Name) : Option Location :=
  match env x with
  | some (.array l) => some l
  | some (.scalar _) | none => none

/-- The number that a scalar stands for. -/
def number (env : Env I) (x : Name) : Option Int := (env.scalar x).map I.index

theorem set_self (env : Env I) (x : Name) (v : Val I) : env.set x v x = some v :=
  Function.update_self ..

theorem set_of_ne (env : Env I) {x y : Name} (v : Val I) (h : y ≠ x) : env.set x v y = env y :=
  Function.update_of_ne h ..

theorem bindAll_of_not_mem (env : Env I) {pat : List Binder} (vals : List (Val I)) {x : Name}
    (h : x ∉ pat.map Binder.name) : env.bindAll pat vals x = env x := by
  induction pat generalizing env vals with
  | nil => rfl
  | cons b pat ih =>
    rw [List.map_cons, List.mem_cons, not_or] at h
    cases vals with
    | nil => rfl
    | cons v vals => rw [bindAll, ih _ _ h.2, set_of_ne _ _ h.1]

end Env

/-! ## Operands -/

section
variable (I : Interpretation)

/-- What an operand stands for. -/
def Operand.eval (env : Env I) : Operand → Option (Val I)
  | .const c => some (.scalar (I.const c))
  | .var x => env x

/-- The value of an operand that is read as a scalar. -/
def Operand.scalar (env : Env I) : Operand → Option I.Value
  | .const c => some (I.const c)
  | .var x => env.scalar x

/-- The number of an operand that is an index or a bound. -/
def Operand.number (env : Env I) (a : Operand) : Option Int := (a.scalar I env).map I.index

variable {I} in
/-- An operand stands for the same where its variable does. -/
theorem Operand.eval_congr {env env' : Env I} {a : Operand}
    (h : ∀ x ∈ a.occurrences, env' x = env x) : a.eval I env' = a.eval I env := by
  cases a with
  | const c => rfl
  | var x => exact h x (List.mem_cons_self ..)

theorem mapM_congr {α β : Type} {f g : α → Option β} {as : List α} (h : ∀ a ∈ as, f a = g a) :
    as.mapM f = as.mapM g := by
  induction as with
  | nil => rfl
  | cons a as ih =>
    rw [List.forall_mem_cons] at h
    rw [List.mapM_cons, List.mapM_cons, h.1, ih h.2]

/-- Binders that were bound to values stand for them. -/
theorem Env.mapM_eval_bindAll (env : Env I) {pat : List Binder} {vals : List (Val I)}
    (hnodup : (pat.map Binder.name).Nodup) (hlen : pat.length = vals.length) :
    (pat.map fun b => Operand.var b.name).mapM (·.eval I (env.bindAll pat vals)) = some vals := by
  induction pat generalizing env vals with
  | nil =>
    obtain rfl := List.eq_nil_of_length_eq_zero hlen.symm
    rfl
  | cons b pat ih =>
    cases vals with
    | nil => cases hlen
    | cons v vals =>
      rw [List.map_cons, List.nodup_cons] at hnodup
      have hfirst : env.bindAll (b :: pat) (v :: vals) b.name = some v := by
        rw [bindAll, bindAll_of_not_mem _ vals hnodup.1, set_self]
      rw [List.map_cons, List.mapM_cons, Operand.eval, hfirst, bindAll,
        ih (env.set b.name v) hnodup.2 (Nat.succ.inj hlen)]
      rfl

/-! ## Programs -/

mutual

/-- Run statements one after the other. -/
def Stm.evalAll (env : Env I) (m : Memory I) : List Stm → Option (Env I × Memory I)
  | [] => some (env, m)
  | stm :: stms => do
    let (env, m) ← Stm.eval env m stm
    Stm.evalAll env m stms

/-- Run a statement: its binders stand for the values of its expression from then on. -/
def Stm.eval (env : Env I) (m : Memory I) : Stm → Option (Env I × Memory I)
  | ⟨pat, exp⟩ => do
    let (vals, m) ← Exp.eval env m pat exp
    return (env.bindAll pat vals, m)

/-- The values of an expression that is bound by a pattern. -/
def Exp.eval (env : Env I) (m : Memory I) (pat : List Binder) :
    Exp → Option (List (Val I) × Memory I)
  | .operand a => do return ([← a.eval I env], m)
  | .apply op lhs rhs => do
    return ([.scalar (← I.apply op (← lhs.scalar I env) (← rhs.scalar I env))], m)
  | .index array indices => do
    let l ← env.location array
    let is ← indices.mapM (·.number I env)
    return ([.scalar (← m.load l.block (l.cell is))], m)
  | .update array indices value => do
    let l ← env.location array
    let is ← indices.mapM (·.number I env)
    let v ← value.scalar I env
    return ([.array l], ← m.store l.block (l.cell is) v)
  | .scratch _ _ => do
    let places ← pat.mapM fun b => b.placement.bind (·.locate env.number)
    return (places.map .array, m)
  | .branch cond yes no => do
    if ← I.truth (← cond.scalar I env) then Body.eval env m yes else Body.eval env m no
  | .loop carried counter bound body => do
    let start ← carried.mapM (·.2.eval I env)
    let n ← bound.number I env
    (List.range n.toNat).foldlM (fun (vals, m) (k : Nat) =>
      Body.eval ((env.bindAll (carried.map Prod.fst) vals).set counter (.scalar (I.number k))) m
        body) (start, m)
  | .alloc _ _ | .map _ _ => none

/-- The values of the results of a body, after its statements. -/
def Body.eval (env : Env I) (m : Memory I) : Body → Option (List (Val I) × Memory I)
  | ⟨stms, result⟩ => do
    let (env, m) ← Stm.evalAll env m stms
    return (← result.mapM (·.eval I env), m)

end

/-! ## What statements bind -/

/-- Names that no statement binds stand for what they did. -/
theorem Stm.evalAll_frame {stms : List Stm} {env env' : Env I} {m m' : Memory I}
    (h : Stm.evalAll I env m stms = some (env', m')) {x : Name}
    (hx : x ∉ Stm.bindingsAll stms) : env' x = env x := by
  induction stms generalizing env m with
  | nil =>
    cases h
    rfl
  | cons stm stms ih =>
    rcases stm with ⟨pat, exp⟩
    rw [Stm.bindingsAll, Stm.bindings, List.mem_append, List.mem_append, not_or, not_or] at hx
    rw [Stm.evalAll, Option.bind_eq_bind, Option.bind_eq_some_iff] at h
    obtain ⟨⟨mid, m₁⟩, hstm, hrest⟩ := h
    rw [Stm.eval, Option.bind_eq_bind, Option.bind_eq_some_iff] at hstm
    obtain ⟨⟨vals, m₂⟩, -, hbind⟩ := hstm
    cases hbind
    rw [ih hrest hx.2, Env.bindAll_of_not_mem env vals hx.1.1]

end

end KernelGen
