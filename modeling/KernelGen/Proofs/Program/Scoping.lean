import KernelGen.Program.Names
import KernelGen.Proofs.Context.FirstOccurrence

/-! # Free names and scopes

A name is lexically free where it is read and no binder of it is in scope
(`Body.lexicallyFree`).  What a pattern binds is in scope in the statements after it and in
the results, but not in its own statement; what a loop carries and counts is in scope in the
body of the loop, and parameters are in the body of their lambda.

`Body.free` knows nothing of scopes: it lists what is read and leaves out what is bound
anywhere.  So it can lose a name that is bound in one place and read in another that the
binder does not reach.  It loses no others (`free_agrees`): a read that is not lexically free
is in the scope of a binder, and so the name is bound somewhere inside.  Where no name is
bound twice, neither inside nor around, nothing is lost. -/
namespace KernelGen

/-- The names that are not among those bound. -/
def Name.outside (bound names : List Name) : List Name := names.filter (· ∉ bound)

namespace Name
variable {bound inner names : List Name}

theorem mem_outside {x : Name} : x ∈ outside bound names ↔ x ∈ names ∧ x ∉ bound := by
  rw [outside, List.mem_filter, decide_eq_true_eq]

theorem outside_append (bound names names' : List Name) :
    outside bound (names ++ names') = outside bound names ++ outside bound names' :=
  List.filter_append ..

/-- Names that are left out in the end may be left out before. -/
theorem outside_outside (h : inner ⊆ bound) (names : List Name) :
    outside bound (outside inner names) = outside bound names := by
  rw [outside, outside, List.filter_filter]
  refine List.filter_congr fun x _ => ?_
  by_cases hx : x ∈ bound
  · simp [hx]
  · have hinner : x ∉ inner := fun hmem => hx (h hmem)
    simp [hx, hinner]

theorem outside_eq_self (h : ∀ x ∈ names, x ∉ bound) : outside bound names = names :=
  List.filter_eq_self.mpr fun x hx => decide_eq_true (h x hx)

end Name

open Name

/-! ## Lexically free names

They are listed in the order of the text, each as often as it is read. -/

mutual

/-- The names that a body reads from outside. -/
def Body.lexicallyFree : Body → List Name
  | ⟨stms, result⟩ => Stm.lexicallyFreeAll (result.flatMap Operand.occurrences) stms

/-- The names that a lambda reads from outside: its parameters are in scope in its body. -/
def Lambda.lexicallyFree : Lambda → List Name
  | ⟨params, body, _⟩ =>
    params.flatMap Binder.occurrences ++ outside (params.map Binder.name) body.lexicallyFree

/-- The names that statements read from outside, where `rest` is read after them: what a
statement binds is in scope in what follows it. -/
def Stm.lexicallyFreeAll (rest : List Name) : List Stm → List Name
  | [] => rest
  | ⟨pat, exp⟩ :: stms =>
    pat.flatMap Binder.occurrences ++ exp.lexicallyFree ++
      outside (pat.map Binder.name) (Stm.lexicallyFreeAll rest stms)

/-- The names that an expression reads from outside: what a loop carries and counts is in
scope in its body. -/
def Exp.lexicallyFree : Exp → List Name
  | .operand a => a.occurrences
  | .apply _ lhs rhs => lhs.occurrences ++ rhs.occurrences
  | .index array indices => array :: indices.flatMap Operand.occurrences
  | .update array indices value =>
    array :: (indices.flatMap Operand.occurrences ++ value.occurrences)
  | .alloc size _ => size.occurrences
  | .scratch _ shape => shape.flatMap Operand.occurrences
  | .branch cond yes no => cond.occurrences ++ (yes.lexicallyFree ++ no.lexicallyFree)
  | .loop carried counter bound body =>
    carried.flatMap (fun (b, init) => b.occurrences ++ init.occurrences) ++
      (bound.occurrences ++ outside (counter :: carried.map (·.1.name)) body.lexicallyFree)
  | .map f inputs => inputs ++ f.lexicallyFree

end

/-! ## What the analysis loses -/

mutual

/-- **Up to what is bound inside, everything that is read is lexically free.** -/
theorem Stm.outside_lexicallyFreeAll {bound : List Name} {stms : List Stm}
    (h : Stm.bindingsAll stms ⊆ bound) (rest : List Name) :
    outside bound (Stm.lexicallyFreeAll rest stms) =
      outside bound (Stm.occurrencesAll stms ++ rest) := by
  match stms with
  | [] => rfl
  | ⟨pat, exp⟩ :: stms =>
    rw [Stm.bindingsAll, Stm.bindings, List.append_subset, List.append_subset] at h
    obtain ⟨⟨hpat, hexp⟩, hstms⟩ := h
    simp only [Stm.lexicallyFreeAll, Stm.occurrencesAll, Stm.occurrences, outside_append,
      outside_outside hpat, Exp.outside_lexicallyFree hexp,
      Stm.outside_lexicallyFreeAll hstms rest, List.append_assoc]

theorem Exp.outside_lexicallyFree {bound : List Name} {e : Exp} (h : e.bindings ⊆ bound) :
    outside bound e.lexicallyFree = outside bound e.occurrences := by
  match e with
  | .operand _ | .apply .. | .index .. | .update .. | .alloc .. | .scratch .. => rfl
  | .branch cond ⟨yes, yesResult⟩ ⟨no, noResult⟩ =>
    obtain ⟨hyes, hno⟩ := List.append_subset.mp h
    simp only [Exp.lexicallyFree, Body.lexicallyFree, Exp.occurrences, Body.occurrences,
      outside_append, Stm.outside_lexicallyFreeAll hyes, Stm.outside_lexicallyFreeAll hno]
  | .loop carried counter bound' ⟨stms, result⟩ =>
    obtain ⟨hcarried, hbody⟩ := List.append_subset.mp h
    obtain ⟨hcounter, hstms⟩ := List.cons_subset.mp hbody
    have hscope : counter :: carried.map (·.1.name) ⊆ bound :=
      List.cons_subset.mpr ⟨hcounter, hcarried⟩
    simp only [Exp.lexicallyFree, Body.lexicallyFree, Exp.occurrences, Body.occurrences,
      outside_append, outside_outside hscope, Stm.outside_lexicallyFreeAll hstms]
  | .map ⟨params, ⟨stms, result⟩, ret⟩ inputs =>
    obtain ⟨hparams, hstms⟩ := List.append_subset.mp h
    simp only [Exp.lexicallyFree, Lambda.lexicallyFree, Body.lexicallyFree, Exp.occurrences,
      Lambda.occurrences, Body.occurrences, outside_append, outside_outside hparams,
      Stm.outside_lexicallyFreeAll hstms]

end

theorem Body.outside_lexicallyFree (b : Body) :
    outside b.bindings b.lexicallyFree = outside b.bindings b.occurrences := by
  rcases b with ⟨stms, result⟩
  exact Stm.outside_lexicallyFreeAll (List.Subset.refl _) _

theorem Lambda.outside_lexicallyFree (f : Lambda) :
    outside f.bindings f.lexicallyFree = outside f.bindings f.occurrences := by
  have h : outside f.bindings (Exp.map f []).lexicallyFree =
      outside f.bindings (Exp.map f []).occurrences :=
    Exp.outside_lexicallyFree (List.Subset.refl _)
  simpa only [Exp.lexicallyFree, Exp.occurrences, List.nil_append] using h

/-- How the names that an analysis calls free are related to those that are lexically free,
where these names are bound inside. -/
structure AgreesWithScopes (free lexical bound : List Name) : Prop where
  /-- They are the lexically free names that are bound nowhere inside, in the order in which
  they are first read. -/
  eq : free = (outside bound lexical).eraseDups
  once : free.Nodup
  /-- No name is free that is not lexically free. -/
  subset : free ⊆ lexical
  /-- If no lexically free name is bound inside, the two are the same. -/
  of_apart : (∀ x ∈ lexical, x ∉ bound) → free = lexical.eraseDups
  /-- So they are inside a program that has these names in scope, where no name is bound
  twice. -/
  of_unique : ∀ scope, (scope ++ bound).Nodup → lexical ⊆ scope → free = lexical.eraseDups

/-- It is enough to find the lexically free names that are bound nowhere inside. -/
theorem AgreesWithScopes.of_eq {lexical bound : List Name} :
    AgreesWithScopes (outside bound lexical).eraseDups lexical bound where
  eq := rfl
  once := nodup_eraseDups _
  subset _ hx := (mem_outside.mp (List.mem_eraseDups.mp hx)).1
  of_apart h := by rw [outside_eq_self h]
  of_unique scope hnodup hscope := by
    have hdisjoint := (List.nodup_append.mp hnodup).2.2
    rw [outside_eq_self fun x hx hbound => hdisjoint x (hscope hx) x hbound rfl]

/-- **The free names of a program agree with its scopes**, for bodies and for lambdas. -/
theorem free_agrees (b : Body) (f : Lambda) :
    AgreesWithScopes b.free b.lexicallyFree b.bindings ∧
      AgreesWithScopes f.free f.lexicallyFree f.bindings := by
  have hbody : b.free = (outside b.bindings b.lexicallyFree).eraseDups := by
    rw [Body.outside_lexicallyFree]
    rfl
  have hlambda : f.free = (outside f.bindings f.lexicallyFree).eraseDups := by
    rw [Lambda.outside_lexicallyFree]
    rfl
  rw [hbody, hlambda]
  exact ⟨.of_eq, .of_eq⟩

/-- Here `x` is read first and bound afterwards, and it is lost. -/
example : let b : Body :=
      { stms := [⟨[⟨⟨"y", 1⟩, .i64, none⟩], .operand (.var ⟨"x", 0⟩)⟩,
          ⟨[⟨⟨"x", 0⟩, .i64, none⟩], .operand (.const (.int 1))⟩]
        result := [.var ⟨"y", 1⟩] }
    b.lexicallyFree = [⟨"x", 0⟩] ∧ b.free = [] := by decide

end KernelGen
