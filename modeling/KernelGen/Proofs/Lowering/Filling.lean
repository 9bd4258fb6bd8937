import KernelGen.Proofs.Code.Paths
import KernelGen.Proofs.Lowering.Emission
import KernelGen.Proofs.Meaning.Scopes
import KernelGen.Proofs.Program.Scalars

/-! # Code that fills destinations

The code of an expression puts values where its pattern wants them: it assigns every scalar
among the destinations on every path, and no variable but these and its own
(`Code.Fills`).  Its own variables, which are parameters, carried values and what is put
aside, are assigned as soon as they are declared (`Code.Plain`).  Behind the declarations of
the pattern such code leaves nothing open (`Code.Fills.declared`).

Each of the single steps of compilation, and each form of expression without a body, emits
code of this kind, whatever the context. -/
namespace KernelGen
open Lowering

namespace Code

/-- No variable waits for its value, and no code stands inside. -/
structure Plain (code : Code) : Prop where
  settles : code.Settles []
  bodies : code.bodies = []

/-- The code assigns every scalar among the destinations, and no variables but these and
what it declares. -/
structure Fills (dests : List Destination) (code : Code) : Prop where
  assigns : ∀ x, .scalar x ∈ dests → code.Assigns x
  targets : ∀ scope : List Name, (∀ x, .scalar x ∈ dests → x ∈ scope) → Code.TargetsIn scope code

variable {dests dests' : List Destination} {code code' : Code} {s : Stmt} {x : Name} {ty : Ty}

theorem Plain.nil : Plain [] := ⟨settles_nil, rfl⟩

theorem Plain.cons (hs : s.declares = []) (hbodies : s.bodies = []) (h : code.Plain) :
    Plain (s :: code) :=
  ⟨h.settles.cons hs, by rw [Code.bodies, List.flatMap_cons, hbodies]; exact h.bodies⟩

/-- A variable may be declared if the next statement assigns it. -/
theorem Plain.declare (hs : s.target? = some x) (h : Plain (s :: code)) :
    Plain (.declareScalar x ty :: s :: code) := by
  refine ⟨settles_cons.mpr ⟨?_, h.settles⟩, h.bodies⟩
  rintro _ _ ⟨⟩
  exact .inl hs

theorem Plain.append (h : code.Plain) (h' : code'.Plain) : (code ++ code').Plain :=
  ⟨h.settles.append h'.settles, by rw [bodies_append, h.bodies, h'.bodies]; rfl⟩

theorem Fills.nil (h : ∀ x, .scalar x ∉ dests) : Fills dests [] :=
  ⟨fun x hx => absurd hx (h x), fun _ _ => trivial⟩

/-- Code that assigns nothing from outside. -/
theorem Fills.of_targetsIn (h : ∀ scope, TargetsIn scope code) : Fills [] code :=
  ⟨fun _ hx => absurd hx List.not_mem_nil, fun scope _ => h scope⟩

theorem Fills.targetsIn (h : Fills [] code) (scope : List Name) : TargetsIn scope code :=
  h.targets scope fun _ hx => absurd hx List.not_mem_nil

theorem Fills.empty : Fills [] [] := .of_targetsIn fun _ => trivial

theorem Fills.append (h : Fills dests code) (h' : Fills dests' code') :
    Fills (dests ++ dests') (code ++ code') where
  assigns x hx := (List.mem_append.mp hx).elim (fun hx => (h.assigns x hx).append_left code')
    fun hx => (h'.assigns x hx).append_right code
  targets scope hscope := by
    have hfront := h.targets scope fun x hx => hscope x (List.mem_append_left _ hx)
    have hback := h'.targets scope fun x hx => hscope x (List.mem_append_right _ hx)
    exact hfront.append hback (List.subset_append_right ..)

/-- Behind code that assigns nothing from outside. -/
theorem Fills.after (h : Fills [] code) (h' : Fills dests code') : Fills dests (code ++ code') :=
  h.append h'

/-- One assignment. -/
theorem Fills.of_target (hs : s.target? = some x) : Fills [.scalar x] [s] where
  assigns y hy := by
    obtain rfl : y = x := by simpa using hy
    exact .of_mem (List.mem_singleton_self s) hs
  targets scope hscope := by
    have hx := hscope x (List.mem_singleton_self _)
    cases s <;> cases hs <;> exact ⟨hx, trivial⟩

/-- A variable that is assigned as soon as it is declared. -/
theorem started (ty : Ty) (hs : s.target? = some x) :
    Plain [.declareScalar x ty, s] ∧ Fills [] [.declareScalar x ty, s] := by
  have hplain : Plain [s] := by
    cases s <;> cases hs <;> exact Plain.nil.cons rfl rfl
  have htarget : TargetsIn [x] [s] := (Fills.of_target hs).targets [x] (by simp)
  refine ⟨hplain.declare hs, .of_targetsIn fun scope => ⟨trivial, htarget.mono ?_⟩⟩
  exact List.subset_append_left [x] scope

/-! ## Declarations of a pattern -/

theorem bodies_declarations (pat : List Binder) : bodies (pat.flatMap declaration) = [] := by
  rw [bodies, List.flatMap_assoc, List.flatMap_eq_nil_iff]
  rintro ⟨x, ty, _ | p⟩ _ <;> rfl

theorem declares_declarations (pat : List Binder) :
    (pat.flatMap declaration).flatMap Stmt.declares = pat.flatMap Binder.scalars := by
  rw [List.flatMap_assoc]
  congr 1
  funext b
  rcases b with ⟨x, ty, _ | p⟩ <;> rfl

theorem targetsIn_declarations (scope : List Name) (pat : List Binder) :
    TargetsIn scope (pat.flatMap declaration) := by
  induction pat generalizing scope with
  | nil => trivial
  | cons b pat ih =>
    rcases b with ⟨x, ty, _ | p⟩
    · exact ⟨trivial, ih _⟩
    · exact ih scope

/-- Declarations in front of code that assigns what they declare. -/
theorem settles_declarations {vars : List Name} {pat : List Binder}
    (hpat : ∀ x ∈ pat.flatMap Binder.scalars, x ∈ vars ∧ Assigns x code) (h : Settles vars code) :
    Settles vars (pat.flatMap declaration ++ code) := by
  induction pat with
  | nil => exact h
  | cons b pat ih =>
    rw [List.flatMap_cons, List.forall_mem_append] at hpat
    have hrest := ih hpat.2
    rcases b with ⟨x, ty, _ | p⟩
    · refine settles_cons.mpr ⟨?_, hrest⟩
      rintro _ _ ⟨⟩
      obtain ⟨hx, hassigns⟩ := hpat.1 x (List.mem_singleton_self x)
      exact .inr ⟨hx, hassigns.append_right _⟩
    · exact hrest

theorem mem_scalars_iff {pat : List Binder} {x : Name} :
    x ∈ pat.flatMap Binder.scalars ↔ .scalar x ∈ pat.map Binder.destination := by
  rw [List.mem_flatMap, List.mem_map]
  refine exists_congr fun b => and_congr_right fun _ => ?_
  rcases b with ⟨y, ty, _ | p⟩ <;> simp [Binder.scalars, Binder.destination, eq_comm]

/-- **A pattern and code that fills it.** -/
theorem Fills.declared {pat : List Binder} (h : Fills (pat.map Binder.destination) code)
    (hsettles : Settles [] code) :
    Fills [] (pat.flatMap declaration ++ code) ∧
      Settles (pat.map Binder.name) (pat.flatMap declaration ++ code) ∧
      bodies (pat.flatMap declaration ++ code) = bodies code := by
  refine ⟨.of_targetsIn fun scope => ?_, ?_, ?_⟩
  · have hcode := h.targets (pat.flatMap Binder.scalars) fun x hx => mem_scalars_iff.mpr hx
    refine (targetsIn_declarations scope pat).append hcode ?_
    rw [declares_declarations]
    exact List.subset_append_left ..
  · refine settles_declarations (fun x hx => ⟨?_, ?_⟩) (hsettles.mono (List.nil_subset _))
    · obtain ⟨b, hb, hx⟩ := List.mem_flatMap.mp hx
      obtain rfl : x = b.name := by
        rcases b with ⟨y, ty, _ | p⟩
        · exact List.mem_singleton.mp hx
        · cases hx
      exact List.mem_map_of_mem hb
    · exact h.assigns x (mem_scalars_iff.mp hx)
  · rw [bodies_append, bodies_declarations, List.nil_append]

end Code

/-! ## Single steps -/

namespace Lowering

/-- Whatever the context. -/
abbrev Anywhere : Context → Prop := fun _ => True

theorem emits_bindScalar (x : Name) (ty : Ty) :
    Emits Anywhere (bindScalar x ty) fun _ code => code = [] := .of_change (fun _ => id) rfl

theorem emits_fresh (base : String) :
    Emits Anywhere (fresh base) fun _ code => code = [] := by
  intro ctx x code last _ hrun
  rw [run_fresh] at hrun
  cases hrun
  exact ⟨trivial, rfl⟩

theorem emits_ask {α : Type} (q : Context → Except CompileError α) :
    Emits Anywhere (ask q) fun _ code => code = [] := .of_ask fun _ _ _ _ => rfl

theorem emits_single (dests : List Destination) :
    Emits Anywhere (single dests) fun d code => dests = [d] ∧ code = [] := by
  intro ctx d code last _ hrun
  obtain ⟨hd, hcode, -⟩ := run_single_eq_ok.mp hrun
  exact ⟨trivial, hd, hcode⟩

theorem emits_singleScalar (dests : List Destination) :
    Emits Anywhere (singleScalar dests) fun x code => dests = [.scalar x] ∧ code = [] := by
  intro ctx x code last _ hrun
  obtain ⟨hx, hcode, -⟩ := run_singleScalar_eq_ok.mp hrun
  exact ⟨trivial, hx, hcode⟩

theorem emits_positions (indices : List Operand) :
    Emits Anywhere (positions indices) fun _ code => code = [] := by
  intro ctx is code last _ hrun
  exact ⟨trivial, (run_positions_eq_ok.mp hrun).2.1⟩

theorem emits_declarePattern (pat : List Binder) :
    Emits Anywhere (declarePattern pat) fun dests code =>
      dests = pat.map Binder.destination ∧ code = pat.flatMap declaration := by
  intro ctx dests code last _ hrun
  obtain ⟨hdests, hcode, -⟩ := run_declarePattern_eq_ok hrun
  exact ⟨trivial, hdests, hcode⟩

theorem emits_emit (s : Stmt) : Emits Anywhere (emit s) fun _ code => code = [s] := .of_emit rfl

/-- Code that is collected is handed on, and nothing is left in front. -/
theorem emits_collect {x : Lowering Unit} {Q : Code → Prop}
    (h : Emits Anywhere x fun _ code => Q code) :
    Emits Anywhere (collect x) fun code front => Q code ∧ front = [] :=
  .of_collect (h.mono fun _ _ hcode => ⟨hcode, rfl⟩)

/-- One statement that declares nothing and assigns what it should. -/
theorem emits_filling {s : Stmt} {dests : List Destination} (hdeclares : s.declares = [])
    (hbodies : s.bodies = []) (hfills : Code.Fills dests [s]) :
    Emits Anywhere (emit s) fun _ code => code.Plain ∧ code.Fills dests :=
  .of_emit ⟨Code.Plain.nil.cons hdeclares hbodies, hfills⟩

theorem emits_assign (d : Destination) (a : Operand) :
    Emits Anywhere (assign d a) fun _ code => code.Plain ∧ code.Fills [d] := by
  match d with
  | .scalar x => exact emits_filling rfl rfl (.of_target rfl)
  | .array p element =>
    intro ctx _ code last _ hrun
    obtain ⟨-, rfl, -⟩ := run_assign_array_eq_ok.mp hrun
    exact ⟨trivial, .nil, .nil (by simp)⟩

theorem emits_assignAll {dests : List Destination} {results : List Operand}
    (hlen : dests.length ≤ results.length) :
    Emits Anywhere (assignAll dests results) fun _ code => code.Plain ∧ code.Fills dests := by
  have hall : Emits Anywhere (assignAll dests results) fun _ code =>
      code.Plain ∧ code.Fills ((dests.zip results).map Prod.fst) := by
    refine Emits.of_forM
      (M := fun (q : Destination × Operand) part => part.Plain ∧ part.Fills [q.1])
      (P := fun pairs code => code.Plain ∧ code.Fills (pairs.map Prod.fst)) ?_ ?_ ?_
    · exact ⟨.nil, .nil (by simp)⟩
    · exact fun q pairs part rest hpart hrest =>
        ⟨hpart.1.append hrest.1, hpart.2.append hrest.2⟩
    · exact fun q _ => emits_assign q.1 q.2
  rwa [List.map_fst_zip hlen] at hall

theorem emits_readElement (x : Name) (p : Placement) (indices : List Size) (element : Ty) :
    Emits Anywhere (readElement x p indices element) fun _ code =>
      code.Plain ∧ code.Fills [.scalar x] := by
  refine (emits_ask _).bind ?_
  rintro space _ rfl
  exact emits_filling rfl rfl (.of_target rfl)

theorem emits_writeElement (p : Placement) (indices : List Size) (element : Ty) (a : Operand) :
    Emits Anywhere (writeElement p indices element a) fun _ code => code.Plain ∧ code.Fills [] := by
  refine (emits_ask _).bind ?_
  rintro space _ rfl
  exact emits_filling rfl rfl (.of_targetsIn fun _ => ⟨trivial, trivial⟩)

/-! ## Rows of steps -/

theorem emits_forM {α : Type} {f : α → Lowering Unit} {as : List α}
    (h : ∀ a ∈ as, Emits Anywhere (f a) fun _ code => code.Plain ∧ code.Fills []) :
    Emits Anywhere (as.forM f) fun _ code => code.Plain ∧ code.Fills [] :=
  Emits.of_forM (M := fun _ part => part.Plain ∧ part.Fills [])
    (P := fun _ code => code.Plain ∧ code.Fills []) ⟨.nil, .empty⟩
    (fun _ _ _ _ hpart hrest => ⟨hpart.1.append hrest.1, hpart.2.append hrest.2⟩) h

/-- Results that are written into arrays: none goes into a scalar. -/
theorem emits_writeResults {f : Destination × Operand → Lowering Unit}
    {dests : List Destination} {results : List Operand} (hlen : dests.length ≤ results.length)
    (h : ∀ q, Emits Anywhere (f q) fun _ code =>
      (∀ x, q.1 ≠ .scalar x) ∧ code.Plain ∧ code.Fills []) :
    Emits Anywhere ((dests.zip results).forM f) fun _ code =>
      (∀ x, .scalar x ∉ dests) ∧ code.Plain ∧ code.Fills [] := by
  have hall : Emits Anywhere ((dests.zip results).forM f) fun _ code =>
      (∀ x, .scalar x ∉ (dests.zip results).map Prod.fst) ∧ code.Plain ∧ code.Fills [] := by
    refine Emits.of_forM (M := fun (q : Destination × Operand) part =>
        (∀ x, q.1 ≠ .scalar x) ∧ part.Plain ∧ part.Fills [])
      (P := fun pairs code =>
        (∀ x, .scalar x ∉ pairs.map Prod.fst) ∧ code.Plain ∧ code.Fills []) ?_ ?_ fun q _ => h q
    · exact ⟨fun _ => List.not_mem_nil, .nil, .empty⟩
    · rintro q pairs part rest ⟨hq, hpart, hfills⟩ ⟨hpairs, hrest, hfills'⟩
      refine ⟨fun x hx => ?_, hpart.append hrest, hfills.append hfills'⟩
      rcases List.mem_cons.mp hx with hx | hx
      · exact hq x hx.symm
      · exact hpairs x hx
  rwa [List.map_fst_zip hlen] at hall

theorem emits_readParam (i : Name) (param : Binder) (ty : Ty) (p : Placement) :
    Emits Anywhere (readParam i param ty p) fun _ code => code.Plain ∧ code.Fills [] := by
  refine (emits_ask _).bind ?_
  rintro space _ rfl
  refine (emits_emit (.declareScalar param.name param.ty)).bind ?_
  rintro ⟨⟩ _ rfl
  refine (emits_emit (.read param.name ..)).bind ?_
  rintro ⟨⟩ _ rfl
  refine (emits_bindScalar _ _).mono ?_
  rintro ⟨⟩ _ rfl
  exact Code.started _ rfl

/-- What a loop carries is set as soon as it is declared. -/
theorem emits_startCarried (q : Binder × Operand) :
    Emits Anywhere (startCarried q) fun _ code =>
      code.flatMap Stmt.declares = q.1.scalars ∧ code.Plain ∧ code.Fills [] := by
  obtain ⟨b, init⟩ := q
  have hdeclare : Emits Anywhere (declare b) fun _ code => code = declaration b :=
    fun _ _ _ _ _ hrun => ⟨trivial, (run_declare hrun).1⟩
  refine hdeclare.bind ?_
  rintro ⟨⟩ _ rfl
  rcases b with ⟨x, ty, _ | p⟩
  · exact .of_emit ⟨rfl, Code.started ty rfl⟩
  · intro ctx _ code last _ hrun
    obtain ⟨-, rfl, -⟩ := run_assign_array_eq_ok.mp hrun
    exact ⟨trivial, rfl, .nil, .empty⟩

theorem emits_start (carried : List (Binder × Operand)) :
    Emits Anywhere (carried.forM startCarried) fun _ code =>
      code.flatMap Stmt.declares = (carried.map Prod.fst).flatMap Binder.scalars ∧
        code.Plain ∧ code.Fills [] := by
  refine Emits.of_forM (M := fun (q : Binder × Operand) part =>
      part.flatMap Stmt.declares = q.1.scalars ∧ part.Plain ∧ part.Fills [])
    (P := fun carried code =>
      code.flatMap Stmt.declares = (carried.map Prod.fst).flatMap Binder.scalars ∧
        code.Plain ∧ code.Fills []) ?_ ?_ fun q _ => emits_startCarried q
  · exact ⟨rfl, .nil, .empty⟩
  · rintro q carried part rest ⟨hq, hpart, hfills⟩ ⟨hcarried, hrest, hfills'⟩
    refine ⟨?_, hpart.append hrest, hfills.append hfills'⟩
    rw [List.flatMap_append, List.map_cons, List.flatMap_cons, hq, hcarried]

/-- What is put aside is set as soon as it is declared. -/
theorem emits_stageCarried (b : Binder) (result : Operand) :
    Emits Anywhere (stageCarried b result) fun _ code => code.Plain ∧ code.Fills [] := by
  rcases b with ⟨x, ty, _ | p⟩
  · refine (emits_fresh _).bind ?_
    rintro aside _ rfl
    refine (emits_emit (.declareScalar aside ty)).bind ?_
    rintro ⟨⟩ _ rfl
    refine (emits_emit (.set aside _)).bind ?_
    rintro ⟨⟩ _ rfl
    refine (emits_bindScalar _ _).bind ?_
    rintro ⟨⟩ _ rfl
    exact .of_pure (Code.started ty rfl)
  · exact .of_pure ⟨.nil, .empty⟩

theorem emits_stageAll (pairs : List (Binder × Operand)) :
    Emits Anywhere (pairs.mapM fun (b, a) => stageCarried b a) fun staged code =>
      staged.length = pairs.length ∧ code.Plain ∧ code.Fills [] := by
  refine Emits.of_mapM (M := fun _ _ part => part.Plain ∧ part.Fills [])
    (P := fun (pairs : List (Binder × Operand)) (staged : List Operand) code =>
      staged.length = pairs.length ∧ code.Plain ∧ code.Fills []) ?_ ?_
    fun q _ => emits_stageCarried q.1 q.2
  · exact ⟨rfl, .nil, .empty⟩
  · rintro q a pairs staged part rest ⟨hpart, hfills⟩ ⟨hlen, hrest, hfills'⟩
    exact ⟨congrArg Nat.succ hlen, hpart.append hrest, hfills.append hfills'⟩

/-! ## Forms without bodies -/

theorem emits_lowerIndex (dests : List Destination) (array : Name) (indices : List Operand) :
    Emits Anywhere (lowerIndex dests array indices) fun _ code =>
      code.Plain ∧ code.Fills dests := by
  refine (emits_singleScalar dests).bind ?_
  rintro x _ ⟨rfl, rfl⟩
  refine (emits_ask _).bind ?_
  rintro ⟨ty, p⟩ _ rfl
  refine Emits.guard fun _ => (emits_positions indices).bind ?_
  rintro is _ rfl
  exact emits_readElement x p is ty.element

theorem emits_lowerUpdate (dests : List Destination) (indices : List Operand) (value : Operand) :
    Emits Anywhere (lowerUpdate dests indices value) fun _ code =>
      code.Plain ∧ code.Fills dests := by
  refine (emits_single dests).bind ?_
  rintro (x | ⟨p, element⟩) _ ⟨rfl, rfl⟩
  · exact .of_fault _
  · refine (emits_positions indices).bind ?_
    rintro is _ rfl
    refine (emits_writeElement p is element value).mono fun _ code ⟨hplain, hfills⟩ => ?_
    exact ⟨hplain, by simp, fun scope _ => hfills.targetsIn scope⟩

theorem emits_lowerAlloc (pat : List Binder) (size : Size) (space : Space) :
    Emits Anywhere (lowerAlloc pat size space) fun _ code => code.Plain ∧ code.Fills [] := by
  match pat with
  | [] | _ :: _ :: _ => exact .of_fault _
  | [b] =>
    by_cases hty : b.ty.isMem
    · simp only [lowerAlloc, hty, if_true]
      refine (emits_ask _).bind ?_
      rintro onDevice _ rfl
      refine Emits.guard fun _ => (emits_emit (.declareBlock b.name space)).bind ?_
      rintro ⟨⟩ _ rfl
      refine (emits_emit (.allocate b.name size space)).bind ?_
      rintro ⟨⟩ _ rfl
      refine .of_change (fun _ => id) ⟨?_, .of_targetsIn fun _ => ⟨trivial, trivial, trivial⟩⟩
      exact (Code.Plain.nil.cons rfl rfl).cons rfl rfl
    · simp only [lowerAlloc, hty]
      exact .of_fault _

end Lowering

end KernelGen
