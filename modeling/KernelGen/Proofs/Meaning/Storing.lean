import KernelGen.Proofs.Meaning.Agreement

/-! # Storing values

What the code does that moves values into the variables of binders: declarations, the
assignments at the end of a branch, the start of what a loop carries, and what is put
aside at the end of a run of a loop.

None of it is ever stuck.  Assignments are made one after the other, and still every
binder gets the value that its operand had before all of them, as no operand reads a
variable that is set meanwhile (`exec_stored`).  For a loop that is not so: its results
may read what it carries.  That is what putting aside is for, and after it the operands
are new variables (`exec_stageAll`). -/
namespace KernelGen
namespace Lowering
variable {I : Interpretation} {Γ : Scope} {env : Env I} {σ : Store I} {m : Memory I}
  {ctx last : Context} {code : Code} {pat : List Binder}

/-! ## Declarations -/

/-- Declarations declare the scalars among the binders and touch no other variable. -/
theorem exec_declarations (pat : List Binder) (σ : Store I) (m : Memory I) :
    ∃ σ', Code.exec I ⟨σ, m⟩ (pat.flatMap declaration) = some ⟨σ', m⟩ ∧
      (∀ x, x ∉ pat.map Binder.name → σ' x = σ x) ∧
      ∀ b ∈ pat, b.placement = none → (σ' b.name).isSome := by
  induction pat generalizing σ with
  | nil => exact ⟨σ, rfl, fun _ _ => rfl, List.forall_mem_nil _⟩
  | cons b pat ih =>
    rcases b with ⟨x, ty, _ | p⟩
    · obtain ⟨σ', hexec, hother, hdeclared⟩ := ih (σ.declare x)
      refine ⟨σ', hexec, fun y hy => ?_, ?_⟩
      · rw [List.map_cons, List.mem_cons, not_or] at hy
        rw [hother y hy.2, σ.declare_of_ne hy.1]
      · refine List.forall_mem_cons.mpr ⟨fun _ => ?_, hdeclared⟩
        exact Code.grows_exec hexec x (by simp)
    · obtain ⟨σ', hexec, hother, hdeclared⟩ := ih σ
      refine ⟨σ', hexec, fun y hy => hother y (List.not_mem_of_not_mem_cons hy), ?_⟩
      exact List.forall_mem_cons.mpr ⟨nofun, hdeclared⟩

/-! ## Assignments -/

/-- The statement that stores an operand into a binder; arrays are there already. -/
def stored (q : Binder × Operand) : Code :=
  if q.1.placement.isNone then [.set q.1.name (.ofOperand q.2)] else []

/-- An operand that could be stored is right for its binder. -/
theorem run_assign_eq_ok {b : Binder} {a : Operand} (hknown : Γ.Known ctx) (ha : Γ.Stores b a)
    (hrun : (assign b.destination a).run ctx = ⟨.ok (), code, last⟩) :
    last = ctx ∧ code = stored (b, a) ∧ Γ.Delivers b.placement a := by
  rcases b with ⟨x, ty, _ | wanted⟩
  · cases hrun
    exact ⟨rfl, rfl, ha⟩
  · obtain ⟨⟨y, ty', rfl, hentry⟩, rfl, rfl⟩ := run_assign_array_eq_ok.mp hrun
    exact ⟨rfl, rfl, y, rfl, hknown.array (ha y (List.mem_cons_self ..)) hentry⟩

theorem run_assignAll_eq_ok {as : List Operand} (hknown : Γ.Known ctx) (ha : Γ.StoresAll pat as)
    (hrun : (assignAll (pat.map Binder.destination) as).run ctx = ⟨.ok (), code, last⟩) :
    last = ctx ∧ code = (pat.zip as).flatMap stored ∧
      ∀ q ∈ pat.zip as, Γ.Delivers q.1.placement q.2 := by
  induction pat generalizing as code with
  | nil =>
    cases hrun
    exact ⟨rfl, rfl, List.forall_mem_nil _⟩
  | cons b pat ih =>
    cases as with
    | nil =>
      cases hrun
      exact ⟨rfl, rfl, List.forall_mem_nil _⟩
    | cons a as =>
      obtain ⟨hfirst, hrest⟩ := List.forall_mem_cons.mp ha
      obtain ⟨⟨⟩, front, mid, rest, hassign, hothers, rfl⟩ := run_bind_eq_ok.mp hrun
      obtain ⟨rfl, rfl, hdelivers⟩ := run_assign_eq_ok hknown hfirst hassign
      obtain ⟨rfl, rfl, hall⟩ := ih hrest hothers
      exact ⟨rfl, rfl, List.forall_mem_cons.mpr ⟨hdelivers, hall⟩⟩

/-- An operand is stored; no other variable is touched. -/
theorem exec_stored_single {q : Binder × Operand} {v : Val I}
    (hgives : Gives env σ q.1.placement q.2 v)
    (hdeclared : q.1.placement = none → (σ q.1.name).isSome) :
    ∃ σ', Code.exec I ⟨σ, m⟩ (stored q) = some ⟨σ', m⟩ ∧ (∀ x, x ≠ q.1.name → σ' x = σ x) ∧
      Gives env σ' q.1.placement (.var q.1.name) v := by
  rcases q with ⟨⟨x, ty, _ | p⟩, a⟩
  · obtain ⟨w, rfl, hw⟩ := hgives
    have hset : Stmt.exec I ⟨σ, m⟩ (.set x (.ofOperand a)) = some ⟨σ.set x w, m⟩ :=
      Stmt.exec_set I (hdeclared rfl) hw
    refine ⟨σ.set x w, Code.exec_cons I hset [], fun y hy => σ.set_of_ne w hy, w, rfl, ?_⟩
    exact σ.value_set_self x w
  · exact ⟨σ, rfl, fun _ _ => rfl, hgives⟩

/-- **Assignments made one after the other** set every binder to what its operand gave before
all of them, when no operand reads a variable that is set. -/
theorem exec_stored {pairs : List (Binder × Operand)} {vals : List (Val I)}
    (hgives : List.Forall₂ (fun q v => Gives env σ q.1.placement q.2 v) pairs vals)
    (hnodup : (pairs.map (·.1.name)).Nodup)
    (hdeclared : ∀ q ∈ pairs, q.1.placement = none → (σ q.1.name).isSome)
    (hreads : ∀ q ∈ pairs, q.1.placement = none → ∀ x ∈ q.2.occurrences,
      x ∉ pairs.map (·.1.name)) :
    ∃ σ', Code.exec I ⟨σ, m⟩ (pairs.flatMap stored) = some ⟨σ', m⟩ ∧
      (∀ x, x ∉ pairs.map (·.1.name) → σ' x = σ x) ∧
      List.Forall₂ (fun q v => Gives env σ' q.1.placement (.var q.1.name) v) pairs vals := by
  induction pairs generalizing σ vals with
  | nil =>
    cases hgives
    exact ⟨σ, rfl, fun _ _ => rfl, .nil⟩
  | cons q pairs ih =>
    cases hgives with
    | @cons _ v _ vals hq hrest =>
      rw [List.map_cons, List.nodup_cons] at hnodup
      rw [List.forall_mem_cons] at hdeclared hreads
      obtain ⟨σ₁, hset, hother, hfirst⟩ := exec_stored_single (m := m) hq hdeclared.1
      -- The others neither set this variable nor read it.
      have hapart : ∀ r ∈ pairs, r.1.placement = none → ∀ y ∈ r.2.occurrences,
          y ≠ q.1.name ∧ y ∉ pairs.map (·.1.name) := by
        intro r hr hplace y hy
        have hnot := hreads.2 r hr hplace y hy
        rw [List.map_cons, List.mem_cons, not_or] at hnot
        exact hnot
      have hrest' : List.Forall₂ (fun r v => Gives env σ₁ r.1.placement r.2 v) pairs vals := by
        refine ((List.forall₂_and_left _ _).mpr ⟨hapart, hrest⟩).imp ?_
        rintro r w ⟨hr, hw⟩
        exact hw.of_store fun hplace y hy => hother y (hr hplace y hy).1
      obtain ⟨σ', hexec, hsame, hall⟩ := ih hrest' hnodup.2
        (fun r hr hplace => Code.grows_exec hset _ (hdeclared.2 r hr hplace))
        fun r hr hplace y hy => (hapart r hr hplace y hy).2
      refine ⟨σ', ?_, fun y hy => ?_, .cons (hfirst.of_store fun _ y hy => ?_) hall⟩
      · rw [List.flatMap_cons, Code.exec_append, hset]
        exact hexec
      · rw [List.map_cons, List.mem_cons, not_or] at hy
        rw [hsame y hy.2, hother y hy.1]
      · obtain rfl := List.mem_singleton.mp hy
        exact hsame _ hnodup.1

/-! ## What a loop carries -/

/-- A new variable is declared and set, or an array is where it has to be. -/
theorem exec_started (h : Agrees Γ env σ) {b : Binder} {a : Operand} (hb : Γ b.name = none)
    (ha : Γ.Delivers b.placement a) :
    ∃ v σ', a.eval I env = some v ∧
      Code.exec I ⟨σ, m⟩ (declaration b ++ stored (b, a)) = some ⟨σ', m⟩ ∧ Agrees Γ env σ' ∧
      Gives env σ' b.placement (.var b.name) v := by
  have hne : ∀ x, (Γ x).isSome → x ≠ b.name := fun x hx => Scope.ne_of_isSome hx hb
  obtain ⟨σ₁, hdeclare, hsame, hdeclared⟩ := exec_declarations [b] σ m
  rw [List.flatMap_singleton] at hdeclare
  have hagrees : Agrees Γ env σ₁ :=
    h.of_store fun x hx => hsame x (by simpa using hne x hx)
  obtain ⟨v, heval, hv⟩ := hagrees.gives ha
  obtain ⟨σ', hset, hother, hgives⟩ :=
    exec_stored_single (m := m) (q := (b, a)) hv (hdeclared b (List.mem_cons_self ..))
  refine ⟨v, σ', heval, ?_, hagrees.of_store fun x hx => hother x (hne x hx), hgives⟩
  rw [Code.exec_append, hdeclare]
  exact hset

/-- Where a carried value starts. -/
theorem exec_startCarried (h : Agrees Γ env σ) (hknown : Γ.Known ctx) {b : Binder} {a : Operand}
    (hb : Γ b.name = none) (hdrawn : b.name.tag < ctx.names.next) (hplaces : Γ.Places b)
    (ha : Γ.Stores b a) (hrun : (startCarried (b, a)).run ctx = ⟨.ok (), code, last⟩) :
    (Γ.set b.name b.placement).Known last ∧ ∃ v σ', a.eval I env = some v ∧
      Code.exec I ⟨σ, m⟩ code = some ⟨σ', m⟩ ∧ Agrees Γ env σ' ∧
      Gives env σ' b.placement (.var b.name) v := by
  obtain ⟨⟨⟩, front, mid, rest, hdeclare, hassign, rfl⟩ := run_bind_eq_ok.mp hrun
  obtain ⟨rfl, e, he, rfl⟩ := run_declare hdeclare
  have hmid : Γ.Known (ctx.bind b.name e) := by
    refine hknown.evolve (.bind b.name e) fun x hx => ?_
    obtain rfl := List.mem_singleton.mp hx
    exact hb
  obtain ⟨rfl, rfl, hdelivers⟩ := run_assign_eq_ok hmid ha hassign
  exact ⟨hknown.bind hb hdrawn he hplaces, exec_started h hb hdelivers⟩

/-- **What a loop carries starts** as what it starts with, and is in scope from then on. -/
theorem exec_startAll {carried : List (Binder × Operand)} (h : Agrees Γ env σ)
    (hknown : Γ.Known ctx) (hnew : Γ.New ctx ((carried.map Prod.fst).map Binder.name))
    (hcarried : ∀ q ∈ carried, Γ.Places q.1 ∧ Γ.Stores q.1 q.2)
    (hrun : (carried.forM startCarried).run ctx = ⟨.ok (), code, last⟩) :
    (Γ.bindAll (carried.map Prod.fst)).Known last ∧
      ∃ vals σ', carried.mapM (·.2.eval I env) = some vals ∧
        Code.exec I ⟨σ, m⟩ code = some ⟨σ', m⟩ ∧ Agrees Γ env σ' ∧
        Held env σ' (carried.map Prod.fst) vals := by
  induction carried generalizing Γ env σ ctx code with
  | nil =>
    cases hrun
    exact ⟨hknown, [], σ, rfl, rfl, h, .nil⟩
  | cons q carried ih =>
    rcases q with ⟨b, a⟩
    obtain ⟨⟨⟩, front, mid, rest, hfirst, hothers, rfl⟩ := run_bind_eq_ok.mp hrun
    obtain ⟨⟨hplaces, hstores⟩, hcarried⟩ := List.forall_mem_cons.mp hcarried
    rw [List.map_cons, List.map_cons, ← List.singleton_append] at hnew
    have hb : Γ b.name = none := hnew.left.unbound _ (List.mem_cons_self ..)
    obtain ⟨hmid, v, σ₁, heval, hexec, hagrees, hgives⟩ := exec_startCarried (m := m) h hknown hb
      (hnew.left.drawn _ (List.mem_cons_self ..)) hplaces hstores hfirst
    have hfollows : Follows true [b.name] [] (startCarried (b, a)) :=
      follows_startCarried (List.mem_cons_self ..)
    have hnext := (evolves_of_follows hfollows hfirst).next_le
    have hnew' : (Γ.set b.name b.placement).New mid ((carried.map Prod.fst).map Binder.name) :=
      hnew.right hnext fun x hx => Scope.set_of_ne Γ b.placement (by simpa using hx)
    -- The first carried value is in scope while the others start.
    have hextends : Extends Γ (Γ.set b.name b.placement) env (env.set b.name v) :=
      .set hb env b.placement v
    obtain ⟨hlast, vals, σ', hevals, hexec', hagrees', hheld⟩ :=
      ih (hagrees.set hknown.closed hb hplaces hgives) hmid hnew'
        (fun q hq => ⟨fun p hp => hextends.within.supports ((hcarried q hq).1 p hp),
          hextends.within.stores (hcarried q hq).2⟩) hothers
    obtain ⟨w, hw, hfirst'⟩ := hagrees' (Scope.set_self Γ b.name b.placement)
    obtain rfl : v = w := by simpa [Env.set_self] using hw
    refine ⟨hlast, v :: vals, σ', ?_, ?_, hagrees'.restrict hextends hknown.closed, ?_⟩
    · have hrest : carried.mapM (·.2.eval I env) = some vals := by
        rw [← hevals]
        exact mapM_congr fun q hq => (hextends.eval (hcarried q hq).2).symm
      rw [List.mapM_cons, heval, hrest]
      rfl
    · rw [Code.exec_append, hexec]
      exact hexec'
    · refine hagrees'.held_restrict hextends ?_ (.cons hfirst' hheld)
      have hrest := List.forall_mem_map.mpr fun q hq => (hcarried q hq).1
      exact List.forall_mem_cons.mpr ⟨hplaces, hrest⟩

/-! ## Putting results aside -/

/-- The operand `a'` stands for the result that goes into the binder, in a scope with more
names.  For a scalar it is a variable with a tag from `next` on. -/
structure Stands (Γ' : Scope) (env env' : Env I) (next : Nat) (q : Binder × Operand)
    (a' : Operand) : Prop where
  stores : Γ'.Stores q.1 a'
  eval : a'.eval I env' = q.2.eval I env
  aside : q.1.placement = none → ∀ x ∈ a'.occurrences, next ≤ x.tag

/-- It still does when more names are in scope. -/
theorem Stands.grow {Γ₁ Γ₂ : Scope} {env₁ env₂ : Env I} {next : Nat} {q : Binder × Operand}
    {a' : Operand} (h : Stands Γ₁ env env₁ next q a') (hextends : Extends Γ₁ Γ₂ env₁ env₂) :
    Stands Γ₂ env env₂ next q a' where
  stores := hextends.within.stores h.stores
  eval := (hextends.eval h.stores).trans h.eval
  aside := h.aside

/-- It did already when fewer names were in scope. -/
theorem Stands.back {Γ₁ Γ₂ : Scope} {env₁ env₂ : Env I} {next next' : Nat}
    {q : Binder × Operand} {a' : Operand} (h : Stands Γ₂ env₁ env₂ next' q a')
    (hextends : Extends Γ Γ₁ env env₁) (hstores : Γ.Stores q.1 q.2) (hnext : next ≤ next') :
    Stands Γ₂ env env₂ next q a' where
  stores := h.stores
  eval := h.eval.trans (hextends.eval hstores)
  aside hplace x hx := Nat.le_trans hnext (h.aside hplace x hx)

/-- What stands for results has their values. -/
theorem mapM_eval_of_stands {Γ' : Scope} {env' : Env I} {next : Nat}
    {pairs : List (Binder × Operand)} {staged : List Operand}
    (h : List.Forall₂ (Stands Γ' env env' next) pairs staged) :
    staged.mapM (·.eval I env') = (pairs.map Prod.snd).mapM (·.eval I env) := by
  induction h with
  | nil => rfl
  | cons hfirst _ ih => rw [List.map_cons, List.mapM_cons, List.mapM_cons, hfirst.eval, ih]

/-- A scalar is put aside under a new name. -/
theorem run_stageCarried_scalar (x : Name) (ty : Ty) (a : Operand) (ctx : Context) :
    (stageCarried ⟨x, ty, none⟩ a).run ctx =
      let aside : Binder := ⟨⟨x.base ++ "_next", ctx.names.next⟩, ty, none⟩
      ⟨.ok (.var aside.name), declaration aside ++ stored (aside, a),
        { ctx with names := ⟨ctx.names.next + 1⟩ }.bindScalar aside.name ty⟩ := rfl

/-- **A result is put aside**: a scalar in a new variable, an array where it is. -/
theorem exec_stageCarried {b : Binder} {a a' : Operand} (h : Agrees Γ env σ)
    (hknown : Γ.Known ctx) (ha : Γ.Stores b a)
    (hrun : (stageCarried b a).run ctx = ⟨.ok a', code, last⟩) :
    ∃ Γ' env' σ', Extends Γ Γ' env env' ∧ Stands Γ' env env' ctx.names.next (b, a) a' ∧
      Γ'.Known last ∧ Agrees Γ' env' σ' ∧ Code.exec I ⟨σ, m⟩ code = some ⟨σ', m⟩ := by
  rcases b with ⟨x, ty, _ | p⟩
  · rw [run_stageCarried_scalar] at hrun
    cases hrun
    let aside : Binder := ⟨⟨x.base ++ "_next", ctx.names.next⟩, ty, none⟩
    -- Tags in scope were drawn before; this one was not.
    have haside : Γ aside.name = none := by
      by_contra hsome
      obtain ⟨kind, hkind⟩ := Option.ne_none_iff_exists'.mp hsome
      exact Nat.lt_irrefl _ (hknown.drawn hkind)
    obtain ⟨v, σ', heval, hexec, hagrees, w, rfl, hw⟩ :=
      exec_started (m := m) h (b := aside) haside ha
    have hdraw : Γ.Known { ctx with names := ⟨ctx.names.next + 1⟩ } :=
      hknown.evolve ⟨[], .draw (.refl ctx), List.forall_mem_nil _⟩ (List.forall_mem_nil _)
    refine ⟨Γ.set aside.name none, env.set aside.name (.scalar w), σ', .set haside env none _,
      ⟨fun y hy => ?_, ?_, fun _ y hy => ?_⟩, hdraw.bindScalar haside (Nat.lt_succ_self _) ty,
      hagrees.setScalar hknown.closed haside hw, hexec⟩
    · obtain rfl := List.mem_singleton.mp hy
      exact Γ.set_self aside.name none
    · exact (env.set_self aside.name (.scalar w)).trans heval.symm
    · obtain rfl := List.mem_singleton.mp hy
      exact Nat.le_refl _
  · cases hrun
    exact ⟨Γ, env, σ, .refl Γ env, ⟨ha, rfl, nofun⟩, hknown, h, rfl⟩

/-- **Results that are put aside** can be read as they are, whatever is set afterwards. -/
theorem exec_stageAll {pairs : List (Binder × Operand)} {staged : List Operand}
    (h : Agrees Γ env σ) (hknown : Γ.Known ctx) (hstores : ∀ q ∈ pairs, Γ.Stores q.1 q.2)
    (hrun : (pairs.mapM fun (b, a) => stageCarried b a).run ctx = ⟨.ok staged, code, last⟩) :
    ∃ Γ' env' σ', Extends Γ Γ' env env' ∧
      List.Forall₂ (Stands Γ' env env' ctx.names.next) pairs staged ∧ Γ'.Known last ∧
      Agrees Γ' env' σ' ∧ Code.exec I ⟨σ, m⟩ code = some ⟨σ', m⟩ := by
  induction pairs generalizing Γ env σ ctx code staged with
  | nil =>
    cases hrun
    exact ⟨Γ, env, σ, .refl Γ env, .nil, hknown, h, rfl⟩
  | cons q pairs ih =>
    rcases q with ⟨b, a⟩
    rw [List.mapM_cons] at hrun
    obtain ⟨a', front, mid, rest, hfirst, htail, rfl⟩ := run_bind_eq_ok.mp hrun
    obtain ⟨as', others, mid', rest', hothers, hpure, rfl⟩ := run_bind_eq_ok.mp htail
    cases hpure
    obtain ⟨ha, hrest⟩ := List.forall_mem_cons.mp hstores
    have hfollows : Follows true [] [] (stageCarried b a) := follows_stageCarried b a
    have hnext := (evolves_of_follows hfollows hfirst).next_le
    obtain ⟨Γ₁, env₁, σ₁, hextends, hstands, hmid, hagrees, hexec⟩ :=
      exec_stageCarried (m := m) h hknown ha hfirst
    obtain ⟨Γ', env', σ', hextends', hall, hlast, hagrees', hexec'⟩ :=
      ih hagrees hmid (fun q hq => hextends.within.stores (hrest q hq)) hothers
    refine ⟨Γ', env', σ', hextends.trans hextends', .cons (hstands.grow hextends') ?_, hlast,
      hagrees', ?_⟩
    · refine ((List.forall₂_and_left _ _).mpr ⟨hrest, hall⟩).imp ?_
      rintro r c ⟨hr, hc⟩
      exact hc.back hextends hr hnext
    · rw [Code.exec_append, hexec, List.append_nil]
      exact hexec'

end Lowering
end KernelGen
