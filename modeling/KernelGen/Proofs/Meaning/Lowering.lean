import KernelGen.Compile
import KernelGen.Proofs.Meaning.Loops

/-! # Sequential code does what programs do

A program whose names are in scope is compiled, and it has no maps.  From an environment and
a store that agree, the program and its code have the same outcome: both are stuck, or both
end with the same memory and agree again (`lowerLoops_meaning`).

The proof is one mutual induction on programs, along the functions of compilation.  The forms
without bodies and the loop have their lemmas; branches are dealt with here. -/
namespace KernelGen
open Lowering

section
variable {I : Interpretation} {Γ : Scope} {env : Env I} {σ : Store I} {m : Memory I}
  {ctx last : Context} {pat : List Binder} {code : Code} {stms : List Stm}
  {result : List Operand}

/-! ## Patterns -/

/-- A pattern is declared; what follows is compiled and run from there. -/
theorem rel_pattern {r : Option (List (Val I) × Memory I)} {f : List Destination → Lowering Unit}
    (h : Agrees Γ env σ) (hknown : Γ.Known ctx) (hpat : Γ.Admits pat)
    (hrun : (declarePattern pat >>= f).run ctx = ⟨.ok (), code, last⟩)
    (hf : ∀ ⦃σ' : Store I⦄ ⦃mid : Context⦄ ⦃rest : Code⦄, Prepared Γ env pat σ' → Γ.Known mid →
      ctx.names.next ≤ mid.names.next →
        (f (pat.map Binder.destination)).run mid = ⟨.ok (), rest, last⟩ →
          Option.Rel (Reached Γ env pat) r (Code.exec I ⟨σ', m⟩ rest)) :
    Option.Rel (Reached Γ env pat) r (Code.exec I ⟨σ, m⟩ code) := by
  obtain ⟨dests, front, mid, rest, hdeclare, hrest, rfl⟩ := run_bind_eq_ok.mp hrun
  have hfollows : Follows true (pat.map Binder.name) [] (declarePattern pat) :=
    follows_declarePattern fun _ hx => hx
  have hevolves := evolves_of_follows hfollows hdeclare
  have hmid := hknown.evolve hevolves hpat.new
  obtain ⟨rfl, rfl, -⟩ := run_declarePattern_eq_ok hdeclare
  obtain ⟨σ', hexec, hsame, hdeclared⟩ := exec_declarations pat σ m
  have hagrees : Agrees Γ env σ' :=
    h.of_store fun x hx => hsame x fun hmem => Scope.ne_of_isSome hx (hpat.new x hmem) rfl
  rw [Code.exec_append, hexec]
  exact hf ⟨hpat, hagrees, hdeclared⟩ hmid hevolves.next_le hrest

/-- An operand is stored into the only binder. -/
theorem rel_operand {a : Operand} (hp : Prepared Γ env pat σ) (hknown : Γ.Known ctx)
    (ha : ∀ b ∈ pat, Γ.Stores b a)
    (hrun : (single (pat.map Binder.destination) >>= fun d => assign d a).run ctx =
      ⟨.ok (), code, last⟩) :
    Option.Rel (Reached Γ env pat) (Exp.eval I env m pat (.operand a))
      (Code.exec I ⟨σ, m⟩ code) := by
  obtain ⟨d, front, mid, rest, hsingle, hassign, rfl⟩ := run_bind_eq_ok.mp hrun
  obtain ⟨b, rfl, rfl, rfl, rfl⟩ := binder_of_single hsingle
  obtain ⟨rfl, rfl, hdelivers⟩ := run_assign_eq_ok hknown (ha b (List.mem_cons_self ..)) hassign
  have hall : ∀ q ∈ [b].zip [a], Γ.Delivers q.1.placement q.2 := by simpa using hdelivers
  obtain ⟨vals, σ', hvals, hexec, hreached⟩ := exec_results (m := m) hp hp.agrees
    (.refl Γ env) rfl hall (apart_of_delivers hp.new hall)
  have hcode : ([b].zip [a]).flatMap stored = [] ++ stored (b, a) := by simp
  rw [← hcode, hexec, Exp.eval]
  cases heval : a.eval I env with
  | none => simp [heval] at hvals
  | some v =>
    obtain rfl : [v] = vals := by simpa [heval] using hvals
    exact .some hreached

/-! ## Branches -/

/-- One side of a branch. -/
theorem rel_lowerBranch {body front : Code} (hp : Prepared Γ env pat σ) (hknown : Γ.Known ctx)
    (hnew : Γ.New ctx (Stm.bindingsAll stms))
    (hapart : ∀ x ∈ pat.map Binder.name, x ∉ Stm.bindingsAll stms)
    (hscoped : Body.Scoped Γ pat ⟨stms, result⟩) (hstms : Stm.Realised I stms)
    (hrun : (lowerBranch (pat.map Binder.destination) (Stm.lowerAll none stms) result).run ctx =
      ⟨.ok body, front, last⟩) :
    front = [] ∧ Γ.Known last ∧ ctx.names.next ≤ last.names.next ∧
      Option.Rel (Reached Γ env pat) (Body.eval I env m ⟨stms, result⟩)
        (Code.exec I ⟨σ, m⟩ body) := by
  unfold lowerBranch at hrun
  obtain ⟨hlen, hcollect⟩ := run_guard_eq_ok.mp hrun
  rw [not_not, List.length_map] at hlen
  obtain ⟨hbody, rfl⟩ := run_collect_eq_ok.mp hcollect
  obtain ⟨⟨⟩, inner, mid, rest, hstep, hassign, rfl⟩ := run_bind_eq_ok.mp hbody
  obtain ⟨hscopedAll, hstores⟩ := hscoped
  obtain ⟨hmid, hrealises⟩ := hstms hknown hnew hscopedAll hstep
  have hevolves := evolves_of_follows (follows_lowerAll_none stms) hstep
  obtain ⟨rfl, -, -⟩ := run_assignAll_eq_ok hmid hstores hassign
  exact ⟨rfl, hknown.evolve hevolves hnew.unbound, hevolves.next_le,
    rel_branchBody hp hknown.closed hnew.unbound hapart hrealises hmid hstores hlen hassign⟩

/-- A branch runs the code of the side that the program runs. -/
theorem rel_branch {cond : Operand} {yes no : List Stm} {yesResult noResult : List Operand}
    (hp : Prepared Γ env pat σ) (hknown : Γ.Known ctx)
    (hnew : Γ.New ctx (Stm.bindingsAll yes ++ Stm.bindingsAll no))
    (hapart : ∀ x ∈ pat.map Binder.name, x ∉ Stm.bindingsAll yes ++ Stm.bindingsAll no)
    (hscoped : Exp.Scoped Γ pat (.branch cond ⟨yes, yesResult⟩ ⟨no, noResult⟩))
    (hyes : Stm.Realised I yes) (hno : Stm.Realised I no)
    (hrun : Lowering.run (do
      let yes ← lowerBranch (pat.map Binder.destination) (Stm.lowerAll none yes) yesResult
      let no ← lowerBranch (pat.map Binder.destination) (Stm.lowerAll none no) noResult
      emit (.branch (.ofOperand cond) yes no)) ctx = ⟨.ok (), code, last⟩) :
    Option.Rel (Reached Γ env pat)
      (Exp.eval I env m pat (.branch cond ⟨yes, yesResult⟩ ⟨no, noResult⟩))
      (Code.exec I ⟨σ, m⟩ code) := by
  obtain ⟨hcond, hscopedYes, hscopedNo⟩ := hscoped
  obtain ⟨yesCode, front₁, c₁, rest₁, hrunYes, hafter, rfl⟩ := run_bind_eq_ok.mp hrun
  obtain ⟨noCode, front₂, c₂, rest₂, hrunNo, hemit, rfl⟩ := run_bind_eq_ok.mp hafter
  cases hemit
  obtain ⟨rfl, hknown₁, hnext₁, hrelYes⟩ := rel_lowerBranch (m := m) hp hknown hnew.left
    (fun x hx hmem => hapart x hx (List.mem_append.mpr (.inl hmem))) hscopedYes hyes hrunYes
  obtain ⟨rfl, -, -, hrelNo⟩ := rel_lowerBranch (m := m) hp hknown₁
    (hnew.right hnext₁ fun _ _ => rfl)
    (fun x hx hmem => hapart x hx (List.mem_append.mpr (.inr hmem))) hscopedNo hno hrunNo
  obtain ⟨w, -, hw, hw'⟩ := hp.agrees.reads hcond
  rw [List.nil_append, List.nil_append, Code.exec_singleton, Stmt.exec, hw', Exp.eval, hw]
  cases htruth : I.truth w with
  | none => simp [htruth]
  | some b =>
    cases b with
    | true => simpa [htruth] using hrelYes
    | false => simpa [htruth] using hrelNo

/-! ## Programs -/

variable (I)

mutual

/-- **Compiled statements do what the program says**, and bring their binders into scope. -/
theorem realised_lowerAll (stms : List Stm) : Stm.Realised I stms := by
  intro Γ ctx last code hknown hnew hscoped hrun
  match stms with
  | [] =>
    cases hrun
    exact ⟨hknown, fun env σ m h => .some ⟨rfl, h⟩⟩
  | stm :: stms =>
    rw [Stm.bindingsAll] at hnew
    obtain ⟨⟨⟩, front, mid, rest, hfirst, hothers, rfl⟩ := run_bind_eq_ok.mp hrun
    have hm : MapsFollow true none := mapsFollow_none
    have hfollows : Follows true stm.bindings stm.bindings (stm.lower none) :=
      follows_lower hm fun _ hx => hx
    have hnext := (evolves_of_follows hfollows hfirst).next_le
    obtain ⟨hmid, hrel⟩ := realised_lower stm hknown hnew.left hscoped.1 hfirst
    -- What the first statement binds inside is out of scope, and so are the later binders.
    have hnew' : (Γ.bindAll stm.pat).New mid (Stm.bindingsAll stms) := by
      refine hnew.right hnext fun x hx => Scope.bindAll_of_not_mem Γ fun hmem => hx ?_
      exact Stm.mem_bindings_of_pat hmem
    obtain ⟨hlast, hrealises⟩ := realised_lowerAll stms hmid hnew' hscoped.2 hothers
    refine ⟨hlast, fun env σ m h => ?_⟩
    rw [Stm.evalAll, Code.exec_append]
    refine rel_bind (hrel m h) ?_
    rintro ⟨env', m₁⟩ ⟨σ', m₂⟩ - - ⟨hmemory, hagrees⟩
    obtain rfl : m₂ = m₁ := hmemory
    exact hrealises m₂ hagrees

theorem realised_lower (stm : Stm) {Γ : Scope} {ctx last : Context} {code : Code}
    (hknown : Γ.Known ctx) (hnew : Γ.New ctx stm.bindings) (hscoped : Stm.Scoped Γ stm)
    (hrun : (Stm.lower none stm).run ctx = ⟨.ok (), code, last⟩) :
    (Γ.bindAll stm.pat).Known last ∧
      ∀ ⦃env : Env I⦄ ⦃σ : Store I⦄ (m : Memory I), Agrees Γ env σ →
        Option.Rel (fun r s => s.memory = r.2 ∧ Agrees (Γ.bindAll stm.pat) r.1 s.vars)
          (Stm.eval I env m stm) (Code.exec I ⟨σ, m⟩ code) := by
  match stm with
  | ⟨pat, exp⟩ =>
    rw [Stm.bindings] at hnew
    obtain ⟨front, mid, hdeclare, hevolves⟩ := run_lowerExp_eq_ok hscoped.2 hrun
    have hmid := known_declarePattern hknown hnew.left hscoped.1 hdeclare
    have hexp : (Γ.bindAll pat).New ctx exp.bindings :=
      hnew.right (Nat.le_refl _) fun x => Scope.bindAll_of_not_mem Γ
    have hpat : Γ.Admits pat := ⟨hnew.left.nodup, hnew.left.unbound, hscoped.1⟩
    refine ⟨hmid.evolve hevolves hexp.unbound, fun env σ m h => ?_⟩
    have hrel := rel_lowerExp exp (m := m) h hknown hnew hpat hscoped.2 hrun
    rw [Stm.eval, ← Option.bind_fun_some (Code.exec I ⟨σ, m⟩ code)]
    refine rel_bind hrel ?_
    rintro ⟨vals, m₁⟩ s - - hreached
    exact .some ⟨hreached.memory, hreached.agrees_bindAll hpat hknown.closed⟩

theorem rel_lowerExp (e : Exp) {Γ : Scope} {env : Env I} {σ : Store I} {m : Memory I}
    {ctx last : Context} {pat : List Binder} {code : Code} (h : Agrees Γ env σ)
    (hknown : Γ.Known ctx) (hnew : Γ.New ctx (pat.map Binder.name ++ e.bindings))
    (hpat : Γ.Admits pat) (hscoped : Exp.Scoped Γ pat e)
    (hrun : (Exp.lower none pat e).run ctx = ⟨.ok (), code, last⟩) :
    Option.Rel (Reached Γ env pat) (Exp.eval I env m pat e) (Code.exec I ⟨σ, m⟩ code) := by
  have hapart : ∀ x ∈ pat.map Binder.name, x ∉ e.bindings :=
    fun x hx hmem => (List.nodup_append.mp hnew.nodup).2.2 x hx x hmem rfl
  match e with
  | .operand a =>
    exact rel_pattern h hknown hpat hrun fun _ _ _ hp hmid _ hrest =>
      rel_operand hp hmid hscoped hrest
  | .apply op lhs rhs =>
    exact rel_pattern h hknown hpat hrun fun _ _ _ hp _ _ hrest =>
      rel_apply hp hscoped.1 hscoped.2 hrest
  | .index array indices =>
    exact rel_pattern h hknown hpat hrun fun _ _ _ hp hmid _ hrest =>
      rel_lowerIndex hp hmid hscoped.1 hscoped.2 hrest
  | .update array indices value =>
    exact rel_pattern h hknown hpat hrun fun _ _ _ hp _ _ hrest =>
      rel_lowerUpdate hp hknown.closed hscoped.1 hscoped.2.1 hscoped.2.2 hrest
  | .scratch element shape =>
    refine rel_pattern h hknown hpat hrun fun _ _ _ hp _ _ hrest => ?_
    cases hrest
    exact rel_scratch hp hscoped element shape
  | .branch cond ⟨yes, yesResult⟩ ⟨no, noResult⟩ =>
    exact rel_pattern h hknown hpat hrun fun _ _ _ hp hmid hnext hrest =>
      rel_branch hp hmid (hnew.right hnext fun _ _ => rfl) hapart hscoped
        (realised_lowerAll yes) (realised_lowerAll no) hrest
  | .loop carried counter bound ⟨stms, result⟩ =>
    exact rel_pattern h hknown hpat hrun fun _ _ _ hp hmid hnext hrest =>
      rel_lowerLoop hp hmid (hnew.right hnext fun _ _ => rfl) hapart hscoped
        (realised_lowerAll stms) hrest
  | .alloc _ _ | .map _ _ => exact hscoped.elim

end

end

/-- **Sequential code does what the program does.**  From an environment and a store that agree,
the code is stuck exactly if the program is.  Otherwise it ends with the same memory, every
scalar that the statements bind has the value it has in the program, and environment and
store agree again. -/
theorem lowerLoops_meaning (I : Interpretation) {Γ : Scope} {stms : List Stm}
    {ctx last : Context} {code : Code} {env : Env I} {σ : Store I} (m : Memory I)
    (hscoped : Stm.ScopedAll Γ stms) (hnew : Γ.New ctx (Stm.bindingsAll stms))
    (hknown : Γ.Known ctx) (hagrees : Agrees Γ env σ)
    (hrun : (lowerLoops stms).run ctx = ⟨.ok (), code, last⟩) :
    (Code.exec I ⟨σ, m⟩ code = none ↔ Stm.evalAll I env m stms = none) ∧
      ∀ env' m', Stm.evalAll I env m stms = some (env', m') →
        ∃ σ', Code.exec I ⟨σ, m⟩ code = some ⟨σ', m'⟩ ∧ Agrees (Γ.after stms) env' σ' ∧
          ∀ stm ∈ stms, ∀ b ∈ stm.pat, b.placement = none →
            ∃ v, env' b.name = some (.scalar v) ∧ σ'.value b.name = some v := by
  obtain ⟨-, hrealises⟩ := realised_lowerAll I stms hknown hnew hscoped hrun
  have hrel := hrealises m hagrees
  generalize Stm.evalAll I env m stms = source at hrel
  generalize Code.exec I ⟨σ, m⟩ code = target at hrel
  cases hrel with
  | none => exact ⟨by simp, nofun⟩
  | @some r s hrs =>
    obtain ⟨σ', m₁⟩ := s
    refine ⟨by simp, fun env' m' hsource => ?_⟩
    obtain rfl := Option.some.inj hsource
    obtain ⟨rfl, hagrees'⟩ := hrs
    refine ⟨σ', rfl, hagrees', fun stm hstm b hb hplace => ?_⟩
    have hscope := Γ.after_of_mem hnew.nodup hstm hb
    rw [hplace] at hscope
    exact hagrees'.scalar hscope

/-- Scalars are exact integers, of which zero is false; nothing is divided by zero. -/
def integers : Interpretation where
  Value := Int
  const
    | .int n => n.toInt
    | .float _ => 0
    | .bool b => b.toInt
  number n := n
  index v := v
  truth v := some (v != 0)
  apply
    | .add, v, w => some (v + w)
    | .sub, v, w => some (v - w)
    | .mul, v, w => some (v * w)
    | .div, v, w => if w = 0 then none else some (v.tdiv w)
    | .lt, v, w => some (decide (v < w)).toInt
    | .eq, v, w => some (decide (v = w)).toInt
  index_number _ := rfl
  const_int _ := rfl

/-- As many cells as a scalar says, from the start of a block on. -/
def countedCells : Placement := ⟨⟨"xs_mem", 0⟩, .rowMajor [.var ⟨"n", 1⟩]⟩

/-- An array and its length are in scope. -/
def countedScope : Scope :=
  (Scope.set (fun _ => none) ⟨"n", 1⟩ none).set ⟨"xs", 2⟩ (some countedCells)

/-- The context that knows the array, its length and its block. -/
def countedContext : Context :=
  (((Context.initial {} ⟨20⟩).bindBlock ⟨"xs_mem", 0⟩ (.var ⟨"n", 1⟩) .host).bindScalar ⟨"n", 1⟩
    .i64).bindArray ⟨"xs", 2⟩ (.array .i64) countedCells

/-- The array has two elements. -/
def countedEnv : Env integers :=
  (Env.set (fun _ => none) ⟨"n", 1⟩ (.scalar (2 : Int))).set ⟨"xs", 2⟩
    (.array ⟨⟨"xs_mem", 0⟩, 0, [1]⟩)

def countedStore : Store integers := Store.set (fun _ => none) ⟨"n", 1⟩ (2 : Int)

/-- The elements are five and seven. -/
def countedMemory : Memory integers := fun block cell =>
  if block = ⟨"xs_mem", 0⟩ ∧ 0 ≤ cell then ([5, 7] : List Int)[cell.toNat]? else none

/-- Two values are carried.  In every run the second goes into the array and becomes the
first; the first, and the element that was overwritten, make up the second. -/
def exchanging : List Stm :=
  let a : Binder := ⟨⟨"a", 3⟩, .i64, none⟩
  let b : Binder := ⟨⟨"b", 4⟩, .i64, none⟩
  [⟨[⟨⟨"r", 9⟩, .i64, none⟩, ⟨⟨"s", 10⟩, .i64, none⟩],
    .loop [(a, .const (.int 0)), (b, .const (.int 1))] ⟨"i", 5⟩ (.var ⟨"n", 1⟩)
      ⟨[⟨[⟨⟨"v", 6⟩, .i64, none⟩], .index ⟨"xs", 2⟩ [.var ⟨"i", 5⟩]⟩,
        ⟨[⟨⟨"t", 7⟩, .i64, none⟩], .apply .add (.var a.name) (.var ⟨"v", 6⟩)⟩,
        ⟨[⟨⟨"ys", 8⟩, .array .i64, some countedCells⟩],
          .update ⟨"xs", 2⟩ [.var ⟨"i", 5⟩] (.var b.name)⟩],
      [.var b.name, .var ⟨"t", 7⟩]⟩⟩]

/-- A loop that exchanges what it carries, over an array of two elements. -/
theorem lowerLoops_meaning_exchanging :
    Stm.ScopedAll countedScope exchanging ∧
    countedScope.New countedContext (Stm.bindingsAll exchanging) ∧
    countedScope.Known countedContext ∧ Agrees countedScope countedEnv countedStore ∧
    ∃ code last, (lowerLoops exchanging).run countedContext = ⟨.ok (), code, last⟩ ∧
      ∃ σ' m', Code.exec integers ⟨countedStore, countedMemory⟩ code = some ⟨σ', m'⟩ ∧
        σ'.value ⟨"r", 9⟩ = some (5 : Int) ∧ σ'.value ⟨"s", 10⟩ = some (8 : Int) ∧
        m' ⟨"xs_mem", 0⟩ 0 = some (1 : Int) ∧ m' ⟨"xs_mem", 0⟩ 1 = some (5 : Int) := by
  have hscoped : Stm.ScopedAll countedScope exchanging := by decide
  have hnew : countedScope.New countedContext (Stm.bindingsAll exchanging) :=
    ⟨by decide, by decide, by decide⟩
  have hplaces : ∀ p, some countedCells = some p →
      (Scope.set (fun _ => none) ⟨"n", 1⟩ none).Supports p := by
    rintro p ⟨⟩
    decide
  have hempty : Scope.Closed (fun _ => none) := nofun
  have hclosed : Scope.Closed (Scope.set (fun _ => none) ⟨"n", 1⟩ none) := hempty.set rfl nofun
  have hknown : countedScope.Known countedContext := by
    have hblock : Scope.Known (fun _ => none)
        ((Context.initial {} ⟨20⟩).bindBlock ⟨"xs_mem", 0⟩ (.var ⟨"n", 1⟩) .host) :=
      ⟨nofun, hempty, nofun⟩
    exact (hblock.bindScalar rfl (by decide) .i64).bind rfl (by decide) ⟨_, rfl⟩ hplaces
  have hagrees : Agrees countedScope countedEnv countedStore := by
    have hnone : Agrees (fun _ => none) (fun _ => none) countedStore := nofun
    have hscalar := hnone.setScalar hempty (x := ⟨"n", 1⟩) rfl (w := (2 : Int)) rfl
    exact hscalar.set hclosed rfl hplaces ⟨_, rfl, rfl⟩
  obtain ⟨last, hrun⟩ : ∃ last, (lowerLoops exchanging).run countedContext =
      ⟨.ok (), ((lowerLoops exchanging).run countedContext).emitted, last⟩ := ⟨_, rfl⟩
  obtain ⟨env', m', hsource, hr, hs, h₀, h₁⟩ : ∃ env' m',
      Stm.evalAll integers countedEnv countedMemory exchanging = some (env', m') ∧
        env' ⟨"r", 9⟩ = some (.scalar (5 : Int)) ∧ env' ⟨"s", 10⟩ = some (.scalar (8 : Int)) ∧
        m' ⟨"xs_mem", 0⟩ 0 = some (1 : Int) ∧ m' ⟨"xs_mem", 0⟩ 1 = some (5 : Int) :=
    ⟨_, _, rfl, rfl, rfl, rfl, rfl⟩
  obtain ⟨-, hmeaning⟩ := lowerLoops_meaning integers countedMemory hscoped hnew hknown hagrees hrun
  obtain ⟨σ', hexec, -, hscalars⟩ := hmeaning env' m' hsource
  obtain ⟨v, hv, hr'⟩ := hscalars _ (List.mem_cons_self ..) _ (List.mem_cons_self ..) rfl
  obtain ⟨w, hw, hs'⟩ := hscalars _ (List.mem_cons_self ..) _
    (List.mem_cons_of_mem _ (List.mem_cons_self ..)) rfl
  cases hr.symm.trans hv
  cases hs.symm.trans hw
  exact ⟨hscoped, hnew, hknown, hagrees, _, last, hrun, σ', m', hexec, hr', hs', h₀, h₁⟩

end KernelGen
