import KernelGen.Program.Names

/-! # The maps of a program

`Stm.mapsAll` lists the maps that no other map contains, in the order of the text: those
that become kernels where maps become kernels.  What their lambdas read and bind is read
and bound by the program. -/
namespace KernelGen

/-- A map, and what it is bound to. -/
structure MapStm where
  pat : List Binder
  f : Lambda
  inputs : List Name

mutual

/-- The maps among the statements, in branches and loops too but not in lambdas, in order. -/
def Stm.mapsAll : List Stm → List MapStm
  | [] => []
  | stm :: stms => stm.maps ++ Stm.mapsAll stms

/-- The maps of a statement that are not inside a lambda. -/
def Stm.maps : Stm → List MapStm
  | ⟨pat, exp⟩ => exp.maps pat

/-- The maps of an expression that is bound by a pattern. -/
def Exp.maps (pat : List Binder) : Exp → List MapStm
  | .operand _ | .apply .. | .index .. | .update .. | .alloc .. | .scratch .. => []
  | .branch _ ⟨yes, _⟩ ⟨no, _⟩ => Stm.mapsAll yes ++ Stm.mapsAll no
  | .loop _ _ _ ⟨stms, _⟩ => Stm.mapsAll stms
  | .map f inputs => [⟨pat, f, inputs⟩]

end

/-- The statement of the map. -/
def MapStm.stm (m : MapStm) : Stm := ⟨m.pat, .map m.f m.inputs⟩

mutual

/-- The maps of a program read what the program reads, and bind what it binds. -/
theorem Stm.names_of_mem_mapsAll {stms : List Stm} {m : MapStm} (hm : m ∈ Stm.mapsAll stms) :
    (∀ x ∈ m.stm.occurrences, x ∈ Stm.occurrencesAll stms) ∧
      ∀ x ∈ m.stm.bindings, x ∈ Stm.bindingsAll stms := by
  match stms with
  | [] => cases hm
  | stm :: stms =>
    rcases List.mem_append.mp hm with hm | hm
    · obtain ⟨hreads, hbinds⟩ := Stm.names_of_mem_maps hm
      exact ⟨fun x hx => List.mem_append_left _ (hreads x hx),
        fun x hx => List.mem_append_left _ (hbinds x hx)⟩
    · obtain ⟨hreads, hbinds⟩ := Stm.names_of_mem_mapsAll hm
      exact ⟨fun x hx => List.mem_append_right _ (hreads x hx),
        fun x hx => List.mem_append_right _ (hbinds x hx)⟩

theorem Stm.names_of_mem_maps {stm : Stm} {m : MapStm} (hm : m ∈ stm.maps) :
    (∀ x ∈ m.stm.occurrences, x ∈ stm.occurrences) ∧
      ∀ x ∈ m.stm.bindings, x ∈ stm.bindings := by
  match stm with
  | ⟨pat, .operand _⟩ | ⟨pat, .apply ..⟩ | ⟨pat, .index ..⟩ | ⟨pat, .update ..⟩
  | ⟨pat, .alloc ..⟩ | ⟨pat, .scratch ..⟩ => cases hm
  | ⟨pat, .branch cond ⟨yes, _⟩ ⟨no, _⟩⟩ =>
    simp only [Stm.occurrences, Exp.occurrences, Body.occurrences, Stm.bindings, Exp.bindings,
      Body.bindings, List.mem_append]
    rcases List.mem_append.mp hm with hm | hm
    · obtain ⟨hreads, hbinds⟩ := Stm.names_of_mem_mapsAll hm
      exact ⟨fun x hx => .inr (.inr (.inl (.inl (hreads x hx)))),
        fun x hx => .inr (.inl (hbinds x hx))⟩
    · obtain ⟨hreads, hbinds⟩ := Stm.names_of_mem_mapsAll hm
      exact ⟨fun x hx => .inr (.inr (.inr (.inl (hreads x hx)))),
        fun x hx => .inr (.inr (hbinds x hx))⟩
  | ⟨pat, .loop carried counter bound ⟨stms, _⟩⟩ =>
    have hm : m ∈ Stm.mapsAll stms := hm
    obtain ⟨hreads, hbinds⟩ := Stm.names_of_mem_mapsAll hm
    simp only [Stm.occurrences, Exp.occurrences, Body.occurrences, Stm.bindings, Exp.bindings,
      Body.bindings, List.mem_append, List.mem_cons]
    exact ⟨fun x hx => .inr (.inr (.inr (.inl (hreads x hx)))),
      fun x hx => .inr (.inr (.inr (hbinds x hx)))⟩
  | ⟨pat, .map f inputs⟩ =>
    obtain rfl := List.mem_singleton.mp hm
    exact ⟨fun _ hx => hx, fun _ hx => hx⟩

end

/-- The lambda of a map of a program binds names of the program. -/
theorem Stm.bindings_of_mem_mapsAll {stms : List Stm} {m : MapStm} (hm : m ∈ Stm.mapsAll stms) :
    ∀ x ∈ m.f.bindings, x ∈ Stm.bindingsAll stms :=
  fun x hx => (Stm.names_of_mem_mapsAll hm).2 x (List.mem_append_right _ hx)

end KernelGen
