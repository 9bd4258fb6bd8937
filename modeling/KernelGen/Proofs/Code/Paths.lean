import KernelGen.Proofs.Code.Launches

/-! # Control paths and the variables on them

A path through code takes one side of each branch and runs each loop some number of times,
zero included.  What it consists of are the statements that are executed, one after the
other; a kernel is one of them, as the threads do not assign what the host declares
(`Code.Path`).  Code assigns a variable if every path through it does (`Code.Assigns`).

A variable may be assigned where it is in scope: behind its declaration in the same list of
statements, and in what is nested there (`Code.TargetsIn`). -/
namespace KernelGen

namespace Stmt

/-- The variable that the statement sets or loads into. -/
def target? : Stmt → Option Name
  | .set x _ | .read x _ _ _ _ => some x
  | .declareScalar .. | .declareBlock .. | .allocate .. | .write .. | .branch .. | .loop ..
  | .kernel _ => none

/-- The scalar variable that the statement declares. -/
def declares : Stmt → List Name
  | .declareScalar x _ => [x]
  | .declareBlock .. | .allocate .. | .set .. | .read .. | .write .. | .branch .. | .loop ..
  | .kernel _ => []

/-- The pieces of code that stand inside the statement. -/
def bodies : Stmt → List Code
  | .branch _ yes no => [yes, no]
  | .loop _ _ body => [body]
  | .kernel ⟨_, _, _, _, body⟩ => [body]
  | .declareScalar .. | .declareBlock .. | .allocate .. | .set .. | .read .. | .write .. => []

/-- The statement is executed in one step: it is no branch and no loop. -/
def Step : Stmt → Prop
  | .branch .. | .loop .. => False
  | .declareScalar .. | .declareBlock .. | .allocate .. | .set .. | .read .. | .write ..
  | .kernel _ => True

theorem step_of_target {s : Stmt} {x : Name} (h : s.target? = some x) : s.Step := by
  cases s <;> trivial

end Stmt

/-! ## Paths -/

/-- The statements that are executed, in order, on one way through the code. -/
inductive Code.Path : List Stmt → List Stmt → Prop where
  | nil : Code.Path [] []
  | step {s : Stmt} {code steps : List Stmt} (hs : s.Step) (rest : Code.Path code steps) :
    Code.Path (s :: code) (s :: steps)
  | branch {cond : Expr} {yes no side code taken steps : List Stmt}
      (hside : side = yes ∨ side = no) (inner : Code.Path side taken)
      (rest : Code.Path code steps) : Code.Path (.branch cond yes no :: code) (taken ++ steps)
  /-- The loop has come to its end, maybe before its first run. -/
  | leave {counter : Name} {bound : Expr} {body code steps : List Stmt}
      (rest : Code.Path code steps) : Code.Path (.loop counter bound body :: code) steps
  | again {counter : Name} {bound : Expr} {body code taken steps : List Stmt}
      (inner : Code.Path body taken) (rest : Code.Path (.loop counter bound body :: code) steps) :
    Code.Path (.loop counter bound body :: code) (taken ++ steps)

/-- Every path through the code assigns the variable. -/
def Code.Assigns (x : Name) (code : Code) : Prop :=
  ∀ steps, Code.Path code steps → ∃ s ∈ steps, s.target? = some x

namespace Code
variable {x : Name} {s : Stmt} {code code' steps : Code}

/-- A path through two pieces of code goes through one and then through the other. -/
theorem Path.split (h : Path (code ++ code') steps) :
    ∃ front back, Path code front ∧ Path code' back ∧ steps = front ++ back := by
  -- By induction on the path, as a loop in front stays where it is while it runs.
  generalize hboth : code ++ code' = both at h
  induction h generalizing code with
  | nil =>
    obtain ⟨rfl, rfl⟩ := List.append_eq_nil_iff.mp hboth
    exact ⟨[], [], .nil, .nil, rfl⟩
  | step hs rest ih =>
    cases code with
    | nil =>
      obtain rfl : code' = _ := hboth
      exact ⟨[], _, .nil, .step hs rest, rfl⟩
    | cons _ code =>
      obtain ⟨rfl, hrest⟩ := List.cons.inj hboth
      obtain ⟨front, back, hfront, hback, rfl⟩ := ih hrest
      exact ⟨_, back, .step hs hfront, hback, rfl⟩
  | branch hside inner rest _ ih =>
    cases code with
    | nil =>
      obtain rfl : code' = _ := hboth
      exact ⟨[], _, .nil, .branch hside inner rest, rfl⟩
    | cons _ code =>
      obtain ⟨rfl, hrest⟩ := List.cons.inj hboth
      obtain ⟨front, back, hfront, hback, rfl⟩ := ih hrest
      exact ⟨_, back, .branch hside inner hfront, hback, (List.append_assoc ..).symm⟩
  | leave rest ih =>
    cases code with
    | nil =>
      obtain rfl : code' = _ := hboth
      exact ⟨[], _, .nil, .leave rest, rfl⟩
    | cons _ code =>
      obtain ⟨rfl, hrest⟩ := List.cons.inj hboth
      obtain ⟨front, back, hfront, hback, rfl⟩ := ih hrest
      exact ⟨front, back, .leave hfront, hback, rfl⟩
  | again inner rest _ ih =>
    cases code with
    | nil =>
      obtain rfl : code' = _ := hboth
      exact ⟨[], _, .nil, .again inner rest, rfl⟩
    | cons _ code =>
      obtain ⟨front, back, hfront, hback, rfl⟩ := ih hboth
      obtain ⟨rfl, -⟩ := List.cons.inj hboth
      exact ⟨_, back, .again inner hfront, hback, (List.append_assoc ..).symm⟩

/-- What is executed in one step is met on every path. -/
theorem Path.mem_of_step (h : Path code steps) (hs : s.Step) (hmem : s ∈ code) : s ∈ steps := by
  induction h with
  | nil => exact hmem
  | step _ _ ih =>
    rcases List.mem_cons.mp hmem with rfl | hmem
    · exact List.mem_cons_self ..
    · exact List.mem_cons_of_mem _ (ih hmem)
  | branch _ _ _ _ ih | leave _ ih =>
    rcases List.mem_cons.mp hmem with rfl | hmem
    · exact hs.elim
    · first | exact ih hmem | exact List.mem_append_right _ (ih hmem)
  | again _ _ _ ih => exact List.mem_append_right _ (ih hmem)

/-! ## Assignment on every path -/

theorem Assigns.of_mem (hs : s ∈ code) (hx : s.target? = some x) : Assigns x code :=
  fun _ hpath => ⟨s, hpath.mem_of_step (Stmt.step_of_target hx) hs, hx⟩

theorem Assigns.append_left (h : Assigns x code) (code' : Code) : Assigns x (code ++ code') := by
  intro steps hpath
  obtain ⟨front, back, hfront, -, rfl⟩ := hpath.split
  obtain ⟨s, hs, hx⟩ := h front hfront
  exact ⟨s, List.mem_append_left _ hs, hx⟩

theorem Assigns.append_right (code : Code) (h : Assigns x code') : Assigns x (code ++ code') := by
  intro steps hpath
  obtain ⟨front, back, -, hback, rfl⟩ := hpath.split
  obtain ⟨s, hs, hx⟩ := h back hback
  exact ⟨s, List.mem_append_right _ hs, hx⟩

/-- What both sides assign, the branch assigns. -/
theorem Assigns.branch (cond : Expr) (h : Assigns x code) (h' : Assigns x code') :
    Assigns x [.branch cond code code'] := by
  intro steps hpath
  cases hpath with
  | step hs => exact hs.elim
  | branch hside inner rest =>
    cases rest
    rw [List.append_nil]
    rcases hside with rfl | rfl
    · exact h _ inner
    · exact h' _ inner

end Code

/-! ## Scopes of variables -/

mutual

/-- The variables that are assigned, at any depth, are among those in scope or are declared
before.  A thread has no variables but its own. -/
def Stmt.TargetsIn (scope : List Name) : Stmt → Prop
  | .set x _ | .read x _ _ _ _ => x ∈ scope
  | .branch _ yes no => Code.TargetsIn scope yes ∧ Code.TargetsIn scope no
  | .loop _ _ body => Code.TargetsIn scope body
  | .kernel ⟨_, _, _, _, body⟩ => Code.TargetsIn [] body
  | .declareScalar .. | .declareBlock .. | .allocate .. | .write .. => True

/-- The same of a list of statements, of which each sees what those in front declare. -/
def Code.TargetsIn (scope : List Name) : List Stmt → Prop
  | [] => True
  | s :: code => s.TargetsIn scope ∧ Code.TargetsIn (s.declares ++ scope) code

end

mutual

/-- More may be in scope. -/
theorem Code.TargetsIn.mono {scope scope' : List Name} (hscope : scope ⊆ scope') {code : List Stmt}
    (h : Code.TargetsIn scope code) : Code.TargetsIn scope' code := by
  match code with
  | [] => trivial
  | s :: code =>
    exact ⟨Stmt.TargetsIn.mono hscope h.1,
      Code.TargetsIn.mono (List.append_subset.mpr
        ⟨List.subset_append_left .., List.subset_append_of_subset_right _ hscope⟩) h.2⟩

theorem Stmt.TargetsIn.mono {scope scope' : List Name} (hscope : scope ⊆ scope') {s : Stmt}
    (h : s.TargetsIn scope) : s.TargetsIn scope' := by
  match s with
  | .set .. | .read .. => exact hscope h
  | .branch .. => exact ⟨Code.TargetsIn.mono hscope h.1, Code.TargetsIn.mono hscope h.2⟩
  | .loop _ _ body => exact Code.TargetsIn.mono hscope h
  | .kernel ⟨_, _, _, _, _⟩ => exact h
  | .declareScalar .. | .declareBlock .. | .allocate .. | .write .. => trivial

end

namespace Code
variable {scope scope' : List Name} {code code' : Code}

/-- The second piece of code may assign what the first one declares. -/
theorem TargetsIn.append (h : TargetsIn scope code) (h' : TargetsIn scope' code')
    (hscope : scope' ⊆ code.flatMap Stmt.declares ++ scope) : TargetsIn scope (code ++ code') := by
  induction code generalizing scope with
  | nil => exact h'.mono hscope
  | cons s code ih =>
    refine ⟨h.1, ih h.2 fun x hx => ?_⟩
    have hmem := hscope hx
    simp only [List.flatMap_cons, List.mem_append] at hmem ⊢
    rcases hmem with (hmem | hmem) | hmem
    · exact .inr (.inl hmem)
    · exact .inl hmem
    · exact .inr (.inr hmem)

end Code

/-! ## Variables that are assigned in time -/

namespace Code

/-- The pieces of code that stand inside the statements, without those inside these. -/
def bodies (code : Code) : List Code := code.flatMap Stmt.bodies

/-- The first statement assigns the variable. -/
def Starts (x : Name) (code : Code) : Prop := code.head?.bind Stmt.target? = some x

/-- A variable that the code declares is assigned by the next statement, or it is one of
these and the rest of the code assigns it. -/
def Settles (vars : List Name) (code : Code) : Prop :=
  ∀ before x ty after, code = before ++ .declareScalar x ty :: after →
    Starts x after ∨ x ∈ vars ∧ Assigns x after

/-- In the code and in each piece of code inside it, at any depth, what stands behind the
declaration of a variable assigns it. -/
inductive AssignsDeclared : List Stmt → Prop where
  | mk {code : List Stmt}
      (here : ∀ before x ty after, code = before ++ .declareScalar x ty :: after → Assigns x after)
      (inside : ∀ body ∈ bodies code, AssignsDeclared body) : AssignsDeclared code

section
variable {x : Name} {s : Stmt} {vars vars' : List Name} {code code' : Code}

@[simp] theorem bodies_append (code code' : Code) :
    bodies (code ++ code') = bodies code ++ bodies code' := List.flatMap_append

theorem Starts.assigns (h : Starts x code) : Assigns x code := by
  cases code with
  | nil => cases h
  | cons s code => exact .of_mem (List.mem_cons_self ..) h

theorem Starts.append (h : Starts x code) (code' : Code) : Starts x (code ++ code') := by
  cases code with
  | nil => cases h
  | cons s code => exact h

theorem settles_nil : Settles vars [] := by
  intro before x ty after hcode
  exact absurd hcode.symm (by simp)

theorem settles_cons : Settles vars (s :: code) ↔
    (∀ x ty, s = .declareScalar x ty → Starts x code ∨ x ∈ vars ∧ Assigns x code) ∧
      Settles vars code := by
  constructor
  · intro h
    refine ⟨?_, fun before x ty after hcode => ?_⟩
    · rintro x ty rfl
      exact h [] x ty code rfl
    · exact h (s :: before) x ty after (by rw [hcode, List.cons_append])
  · rintro ⟨hs, hcode⟩ before x ty after heq
    cases before with
    | nil =>
      obtain ⟨rfl, rfl⟩ := List.cons.inj heq
      exact hs x ty rfl
    | cons _ before => exact hcode before x ty after (List.cons.inj heq).2

/-- A statement that declares no scalar may come first. -/
theorem Settles.cons (hs : s.declares = []) (h : Settles vars code) : Settles vars (s :: code) := by
  refine settles_cons.mpr ⟨?_, h⟩
  rintro x ty rfl
  cases hs

theorem Settles.append (h : Settles vars code) (h' : Settles vars code') :
    Settles vars (code ++ code') := by
  induction code with
  | nil => exact h'
  | cons s code ih =>
    obtain ⟨hs, hcode⟩ := settles_cons.mp h
    refine settles_cons.mpr ⟨fun x ty hx => ?_, ih hcode⟩
    exact (hs x ty hx).imp (·.append code') (And.imp_right (·.append_left code'))

theorem Settles.mono (hvars : vars ⊆ vars') (h : Settles vars code) : Settles vars' code :=
  fun before x ty after hcode => (h before x ty after hcode).imp_right (And.imp_left (hvars ·))

theorem Settles.assigns (h : Settles vars code) {before : Code} {ty : Ty} {after : Code}
    (hcode : code = before ++ .declareScalar x ty :: after) : Assigns x after :=
  (h before x ty after hcode).elim Starts.assigns And.right

theorem AssignsDeclared.append (h : AssignsDeclared code) (h' : AssignsDeclared code') :
    AssignsDeclared (code ++ code') := by
  obtain ⟨here, inside⟩ := h
  obtain ⟨here', inside'⟩ := h'
  refine .mk ?_ ?_
  · intro before x ty after hcode
    rcases List.append_eq_append_iff.mp hcode with ⟨rest, rfl, hrest⟩ | ⟨rest, rfl, hrest⟩
    · exact here' rest x ty after hrest
    · cases rest with
      | nil => exact here' [] x ty after hrest.symm
      | cons s rest =>
        obtain ⟨rfl, rfl⟩ := List.cons.inj hrest
        exact (here before x ty rest rfl).append_left code'
  · rw [bodies_append, List.forall_mem_append]
    exact ⟨inside, inside'⟩

end

end Code

end KernelGen
