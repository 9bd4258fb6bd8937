import KernelGen.Proofs.Program.Bindings
import KernelGen.Proofs.Program.Maps

/-! # The names that compilation draws

Compiling statements draws fresh names in three places: for the counter of a map that
becomes a loop, for the thread index of a map that becomes a kernel, and for each carried
scalar of a loop, to put its next value aside.  `Stm.drawnAll` lists their bases in the
order in which they are drawn.  It is a fact about the text of the program alone, so that
taking allocations out of it (`Stm.drawnAll_filter`) and moving its arrays
(`Stm.drawnAll_rewrite`) leaves the list as it is.  The base of thread indices stands in it
once for each map that becomes a kernel (`Stm.drawnAll_pattern`). -/
namespace KernelGen

/-- The base of the name under which the next value of a carried scalar is put aside. -/
def Binder.aside (b : Binder) : List String :=
  if b.placement.isNone then [b.name.base ++ "_next"] else []

mutual

/-- The bases of the names drawn for a body. -/
def Body.drawn : Option String → Body → List String
  | thread, ⟨stms, _⟩ => Stm.drawnAll thread stms

/-- The bases of the names drawn for statements, in order.  Maps become kernels with thread
indices of this base; if there is none they become loops. -/
def Stm.drawnAll : Option String → List Stm → List String
  | _, [] => []
  | thread, stm :: stms => stm.drawn thread ++ Stm.drawnAll thread stms

/-- The bases of the names drawn for a statement. -/
def Stm.drawn : Option String → Stm → List String
  | thread, ⟨_, exp⟩ => exp.drawn thread

/-- The bases of the names drawn for an expression.  In a kernel all maps are loops. -/
def Exp.drawn : Option String → Exp → List String
  | _, .operand _ | _, .apply .. | _, .index .. | _, .update .. | _, .alloc ..
  | _, .scratch .. => []
  | thread, .branch _ yes no => yes.drawn thread ++ no.drawn thread
  | thread, .loop carried _ _ body => body.drawn thread ++ carried.flatMap (·.1.aside)
  | thread, .map ⟨_, body, _⟩ _ => thread.getD "i" :: body.drawn none

end

mutual

/-- As many names are drawn whatever becomes of maps. -/
theorem Stm.length_drawnAll (thread thread' : Option String) (stms : List Stm) :
    (Stm.drawnAll thread stms).length = (Stm.drawnAll thread' stms).length := by
  match stms with
  | [] => rfl
  | stm :: stms =>
    rw [Stm.drawnAll, Stm.drawnAll, List.length_append, List.length_append,
      Stm.length_drawn thread thread' stm, Stm.length_drawnAll thread thread' stms]

theorem Stm.length_drawn (thread thread' : Option String) (stm : Stm) :
    (stm.drawn thread).length = (stm.drawn thread').length := by
  match stm with
  | ⟨_, .operand _⟩ | ⟨_, .apply ..⟩ | ⟨_, .index ..⟩ | ⟨_, .update ..⟩ | ⟨_, .alloc ..⟩
  | ⟨_, .scratch ..⟩ | ⟨_, .map ⟨_, _, _⟩ _⟩ => rfl
  | ⟨_, .branch _ ⟨yes, _⟩ ⟨no, _⟩⟩ =>
    simp only [Stm.drawn, Exp.drawn, Body.drawn, List.length_append,
      Stm.length_drawnAll thread thread' yes, Stm.length_drawnAll thread thread' no]
  | ⟨_, .loop _ _ _ ⟨stms, _⟩⟩ =>
    simp only [Stm.drawn, Exp.drawn, Body.drawn, List.length_append,
      Stm.length_drawnAll thread thread' stms]

end

mutual

/-- The list has places for thread indices, as many as there are maps, and depends on their
base in no other way. -/
theorem Stm.drawnAll_pattern (stms : List Stm) :
    ∃ pattern : List (Option String),
      (∀ thread, Stm.drawnAll (some thread) stms = pattern.map (·.getD thread)) ∧
        pattern.countP Option.isNone = (Stm.mapsAll stms).length := by
  match stms with
  | [] => exact ⟨[], fun _ => rfl, rfl⟩
  | stm :: stms =>
    obtain ⟨pattern, hdrawn, hcount⟩ := Stm.drawn_pattern stm
    obtain ⟨rest, hdrawn', hcount'⟩ := Stm.drawnAll_pattern stms
    refine ⟨pattern ++ rest, fun thread => ?_, ?_⟩
    · rw [Stm.drawnAll, hdrawn, hdrawn', List.map_append]
    · rw [List.countP_append, hcount, hcount', Stm.mapsAll, List.length_append]

theorem Stm.drawn_pattern (stm : Stm) :
    ∃ pattern : List (Option String),
      (∀ thread, stm.drawn (some thread) = pattern.map (·.getD thread)) ∧
        pattern.countP Option.isNone = stm.maps.length := by
  have fixed : ∀ bases : List String, (∀ thread, bases = (bases.map some).map (·.getD thread)) ∧
      (bases.map some).countP Option.isNone = 0 := by
    intro bases
    refine ⟨fun thread => ?_, List.countP_eq_zero.mpr fun o ho => ?_⟩
    · rw [List.map_map]
      exact (List.map_id bases).symm
    · obtain ⟨base, -, rfl⟩ := List.mem_map.mp ho
      exact Bool.false_ne_true
  match stm with
  | ⟨_, .operand _⟩ | ⟨_, .apply ..⟩ | ⟨_, .index ..⟩ | ⟨_, .update ..⟩ | ⟨_, .alloc ..⟩
  | ⟨_, .scratch ..⟩ => exact ⟨[], fun _ => rfl, rfl⟩
  | ⟨_, .branch _ ⟨yes, _⟩ ⟨no, _⟩⟩ =>
    obtain ⟨pattern, hdrawn, hcount⟩ := Stm.drawnAll_pattern yes
    obtain ⟨pattern', hdrawn', hcount'⟩ := Stm.drawnAll_pattern no
    refine ⟨pattern ++ pattern', fun thread => ?_, ?_⟩
    · simp only [Stm.drawn, Exp.drawn, Body.drawn, hdrawn, hdrawn', List.map_append]
    · rw [List.countP_append, hcount, hcount', Stm.maps, Exp.maps, List.length_append]
  | ⟨_, .loop carried _ _ ⟨stms, _⟩⟩ =>
    obtain ⟨pattern, hdrawn, hcount⟩ := Stm.drawnAll_pattern stms
    obtain ⟨hasides, hnone⟩ := fixed (carried.flatMap (·.1.aside))
    refine ⟨pattern ++ (carried.flatMap (·.1.aside)).map some, fun thread => ?_, ?_⟩
    · simp only [Stm.drawn, Exp.drawn, Body.drawn, hdrawn, List.map_append]
      rw [← hasides thread]
    · rw [List.countP_append, hcount, hnone]
      rfl
  | ⟨_, .map ⟨_, body, _⟩ _⟩ =>
    obtain ⟨hbody, hnone⟩ := fixed (body.drawn none)
    refine ⟨none :: (body.drawn none).map some, fun thread => ?_, ?_⟩
    · rw [List.map_cons, ← hbody thread]
      rfl
    · rw [List.countP_cons, hnone]
      rfl

end

section
variable (f : Placement → Placement) (g : Operand → Operand)

/-- A carried value is put aside if it is a scalar, and that is not changed. -/
theorem Binder.aside_rewrite (b : Binder) : (b.rewrite f).aside = b.aside := by
  rcases b with ⟨x, ty, _ | p⟩ <;> rfl

mutual

/-- **Rewriting draws the same names.** -/
theorem Stm.drawnAll_rewrite (thread : Option String) (stms : List Stm) :
    Stm.drawnAll thread (Stm.rewriteAll f g stms) = Stm.drawnAll thread stms := by
  match stms with
  | [] => rfl
  | stm :: stms =>
    rw [Stm.rewriteAll, Stm.drawnAll, Stm.drawnAll, Stm.drawn_rewrite thread stm,
      Stm.drawnAll_rewrite thread stms]

theorem Stm.drawn_rewrite (thread : Option String) (stm : Stm) :
    (stm.rewrite f g).drawn thread = stm.drawn thread := by
  match stm with
  | ⟨pat, exp⟩ => rw [Stm.rewrite, Stm.drawn, Stm.drawn, Exp.drawn_rewrite thread exp]

theorem Exp.drawn_rewrite (thread : Option String) (e : Exp) :
    (e.rewrite f g).drawn thread = e.drawn thread := by
  match e with
  | .operand _ | .apply .. | .index .. | .update .. | .alloc .. | .scratch .. => rfl
  | .branch cond ⟨yes, _⟩ ⟨no, _⟩ =>
    simp only [Exp.rewrite, Body.rewrite, Exp.drawn, Body.drawn, Stm.drawnAll_rewrite thread yes,
      Stm.drawnAll_rewrite thread no]
  | .loop carried counter bound ⟨stms, result⟩ =>
    simp only [Exp.rewrite, Body.rewrite, Exp.drawn, Body.drawn,
      Stm.drawnAll_rewrite thread stms, List.flatMap_map, Binder.aside_rewrite]
  | .map ⟨params, ⟨stms, result⟩, ret⟩ inputs =>
    simp only [Exp.rewrite, Lambda.rewrite, Body.rewrite, Exp.drawn, Body.drawn,
      Stm.drawnAll_rewrite none stms]

end

end

/-- An allocation draws nothing, so the statements that are left without allocations draw the
same names. -/
theorem Stm.drawnAll_filter (thread : Option String) (stms : List Stm) :
    Stm.drawnAll thread (stms.filter (·.allocation?.isNone)) = Stm.drawnAll thread stms := by
  induction stms with
  | nil => rfl
  | cons stm stms ih =>
    rw [List.filter_cons]
    cases ha : stm.allocation? with
    | none => rw [Option.isNone_none, if_pos rfl, Stm.drawnAll, Stm.drawnAll, ih]
    | some a =>
      obtain ⟨b, space, rfl, -⟩ := Stm.allocation?_eq_some ha
      rw [Option.isNone_some, if_neg Bool.false_ne_true, ih]
      rfl

/-- What is left of a lambda, in the slices of a thread, draws what its body would draw. -/
theorem Lambda.drawnAll_sliced {f : Lambda} {pruned : Body} {blocks : BlockSizes}
    (h : f.extract = .ok ⟨pruned, blocks⟩) (thread : Option String) (offsets : BlockOffsets) :
    Stm.drawnAll thread (pruned.offsetBy offsets).stms = f.body.drawn thread := by
  obtain ⟨rfl, -, -⟩ := extract_eq_ok h
  rcases f with ⟨params, ⟨stms, result⟩, ret⟩
  show Stm.drawnAll thread (Stm.rewriteAll _ _ _) = _
  rw [Stm.drawnAll_rewrite]
  exact Stm.drawnAll_filter thread stms

end KernelGen
