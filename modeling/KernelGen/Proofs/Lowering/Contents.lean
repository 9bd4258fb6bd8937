import KernelGen.Proofs.Lowering.Elements

/-! # What code for the device contains

Every form of expression has one lemma here, with nested code dealt with already, and
`Surroundings.emits_lowerAll` puts them together along the program: a program that
respects the roles compiles to code that reads what the roles allow and what it declares
itself, touches no blocks but those that hold arrays, declares every scalar of the
program, and reads the outermost extents of the arrays that head maps. -/
namespace KernelGen.Surroundings
open Lowering

/-- Of pairs only the first parts, where there are enough second ones. -/
theorem map_zip_fst {α β γ : Type} (f : α → γ) {as : List α} {bs : List β}
    (hlen : as.length ≤ bs.length) : ((as.zip bs).map fun q => f q.1) = as.map f := by
  have hfst := congrArg (List.map f) (List.map_fst_zip hlen)
  rwa [List.map_map] at hfst

section
variable (S : Surroundings) {ds ds' hs hs' : List Name}

theorem emits_lowerIndex {dests : List Destination} {array : Name} {indices : List Operand}
    (ha : S.roles.array array) (hi : ∀ a ∈ indices, S.roles.Reads a) :
    Emits S.Within (lowerIndex dests array indices) fun _ code => S.Yields [] [] [] code := by
  refine (S.emits_singleScalar dests).bind ?_
  rintro x _ rfl
  refine (S.emits_array ha).bind ?_
  rintro ⟨ty, p⟩ _ ⟨hp, rfl⟩
  refine Emits.guard fun _ => (S.emits_positions [] hi).bind ?_
  rintro is _ ⟨his, rfl⟩
  exact S.emits_readElement _ hp his

theorem emits_lowerUpdate {dests : List Destination} {indices : List Operand} {value : Operand}
    (hd : ∀ d ∈ dests, S.roles.Names d) (hi : ∀ a ∈ indices, S.roles.Reads a)
    (hv : S.roles.Reads value) :
    Emits S.Within (lowerUpdate dests indices value) fun _ code => S.Yields [] [] [] code := by
  refine (S.emits_single dests).bind ?_
  rintro (x | ⟨p, ty⟩) _ ⟨hmem, rfl⟩
  · exact .of_fault _
  · refine (S.emits_positions [] hi).bind ?_
    rintro is _ ⟨his, rfl⟩
    exact S.emits_writeElement ty (.inl (hd _ hmem)) his fun y hy => .inl (hv y hy)

theorem emits_lowerBranch {dests : List Destination} {stms : Lowering Unit} {result : List Operand}
    (hstms : Emits S.Within stms fun _ code => S.Yields [] ds hs code)
    (hr : S.roles.StoresAll dests result) :
    Emits S.Within (lowerBranch dests stms result) fun code front =>
      S.Yields [] ds hs code ∧ front = [] := by
  unfold lowerBranch
  refine Emits.guard fun _ => Emits.of_collect (hstms.bind fun _ front hfront => ?_)
  refine (S.emits_assignAll [] fun q hq => S.sees_of_stores (hr q hq)).mono ?_
  intro _ rest hrest
  have happend := hfront.next hrest
  rw [List.append_nil, List.append_nil] at happend
  exact ⟨happend, rfl⟩

/-! ## Loops -/

theorem emits_startCarried {q : Binder × Operand} (hb : S.roles.Binds q.1)
    (hi : S.roles.Stores q.1.destination q.2) :
    Emits S.Within (startCarried q) fun _ code => S.Yields [] q.1.scalars [] code := by
  refine (S.emits_declare [] hb).bind fun _ front hfront => ?_
  refine (S.emits_assign [] (S.sees_of_stores hi)).mono fun _ rest hrest => ?_
  have happend := hfront.next hrest
  rwa [List.append_nil] at happend

/-- What is put aside for a scalar is a new variable, which has been declared. -/
theorem emits_stageCarried {b : Binder} {result : Operand}
    (hr : S.roles.Stores b.destination result) :
    Emits S.Within (stageCarried b result) fun a code =>
      (∀ x, b.destination = .scalar x → S.Sees code.declared a.occurrences) ∧
        S.Yields [] [] [] code := by
  rcases b with ⟨x, ty, _ | p⟩
  · refine (S.emits_fresh _).bind ?_
    rintro aside _ ⟨hnew, rfl⟩
    refine (Emits.of_emit (Q := fun _ code => code = [.declareScalar aside ty]) rfl).bind ?_
    rintro ⟨⟩ _ rfl
    refine (Emits.of_emit (Q := fun _ code => code = [.set aside (.ofOperand result)]) rfl).bind ?_
    rintro ⟨⟩ _ rfl
    refine (S.emits_bindScalar ty hnew).bind ?_
    rintro ⟨⟩ _ rfl
    refine .of_pure ⟨fun _ _ y hy => ?_, ?_⟩
    · obtain rfl := List.mem_singleton.mp hy
      exact .inr (List.mem_cons_self ..)
    · have hset : S.Sees [] (Expr.ofOperand result).occurrences := by
        rw [Expr.occurrences_ofOperand]
        exact S.sees_of_stores hr x rfl
      have hdeclare : S.Yields [] [aside] [] [.declareScalar aside ty] := yields_declare ty hnew
      refine (hdeclare.next (yields_set (x := aside) hset)).mono ?_ ?_ ?_
      all_goals exact List.forall_mem_nil _
  · exact .of_pure ⟨nofun, .nil⟩

theorem emits_stageAll {pairs : List (Binder × Operand)}
    (hr : ∀ q ∈ pairs, S.roles.Stores q.1.destination q.2) :
    Emits S.Within (pairs.mapM fun (b, a) => stageCarried b a) fun staged code =>
      (∀ q ∈ (pairs.map (·.1.destination)).zip staged, ∀ x, q.1 = .scalar x →
        S.Sees code.declared q.2.occurrences) ∧ S.Yields [] [] [] code := by
  refine Emits.of_mapM
    (M := fun (q : Binder × Operand) (a : Operand) part => (∀ x, q.1.destination = .scalar x →
      S.Sees part.declared a.occurrences) ∧ S.Yields [] [] [] part)
    (P := fun (pairs : List (Binder × Operand)) (staged : List Operand) code =>
      (∀ q ∈ (pairs.map (·.1.destination)).zip staged, ∀ x, q.1 = .scalar x →
        S.Sees code.declared q.2.occurrences) ∧ S.Yields [] [] [] code)
    ⟨List.forall_mem_nil _, .nil⟩ ?_ fun q hq => S.emits_stageCarried (hr q hq)
  rintro ⟨b, a⟩ a' qs as part rest ⟨hsees, hpart⟩ ⟨hall, hrest⟩
  refine ⟨?_, hpart.next hrest⟩
  -- What was put aside before is declared in front, what follows behind.
  intro q hq x hx y hy
  rw [Code.declared, Code.gather_append, List.mem_append]
  rw [List.map_cons, List.zip_cons_cons, List.mem_cons] at hq
  rcases hq with rfl | hq
  · exact (hsees x hx y hy).imp_right .inl
  · exact (hall q hq x hx y hy).imp_right .inr

/-- The body of a loop, whose results are put aside before the carried values are
overwritten. -/
theorem emits_loopBody {binders : List Binder} {stms : Lowering Unit} {result : List Operand}
    (hlen : binders.length = result.length)
    (hstms : Emits S.Within stms fun _ code => S.Yields [] ds hs code)
    (hr : S.roles.StoresAll (binders.map Binder.destination) result) :
    Emits S.Within
      (do
        stms
        let staged ← (binders.zip result).mapM fun (b, a) => stageCarried b a
        assignAll (binders.map Binder.destination) staged)
      fun _ code => S.Yields [] ds hs code := by
  have hstores : ∀ q ∈ binders.zip result, S.roles.Stores q.1.destination q.2 := by
    intro q hq
    refine hr (q.1.destination, q.2) ?_
    rw [List.zip_map_left]
    exact List.mem_map_of_mem hq
  refine hstms.bind fun _ code hcode => (S.emits_stageAll hstores).bind ?_
  rintro staged part ⟨hsees, hstaged⟩
  rw [map_zip_fst Binder.destination (Nat.le_of_eq hlen)] at hsees
  refine (S.emits_assignAll _ hsees).mono fun _ rest hassign => ?_
  have happend := hcode.next (hstaged.append hassign fun x hx => .inr hx)
  simpa using happend

theorem emits_lowerLoop {dests : List Destination} {carried : List (Binder × Operand)}
    {counter : Name} {bound : Operand} {stms : Lowering Unit} {result : List Operand}
    (hc : ∀ q ∈ carried, S.roles.Binds q.1 ∧ S.roles.Stores q.1.destination q.2)
    (hcounter : S.roles.bound counter) (hbound : S.roles.Reads bound)
    (hstms : Emits S.Within stms fun _ code => S.Yields [] ds hs code)
    (hr : S.roles.StoresAll (carried.map (·.1.destination)) result)
    (hlast : S.roles.StoresAll dests (carried.map (.var ·.1.name))) :
    Emits S.Within (lowerLoop dests carried counter bound stms result) fun _ code =>
      S.Yields [] (carried.flatMap (·.1.scalars) ++ counter :: ds) hs code := by
  unfold lowerLoop
  refine Emits.guard fun hlen => ?_
  rw [not_or, Decidable.not_not] at hlen
  have hstart := S.emits_forM [] (fun q : Binder × Operand => q.1.scalars)
    fun q hq => S.emits_startCarried (hc q hq).1 (hc q hq).2
  refine hstart.bind fun _ front hfront => ?_
  refine (S.emits_bindScalar _ (.inl hcounter)).bind ?_
  rintro ⟨⟩ _ rfl
  have hresults : S.roles.StoresAll ((carried.map Prod.fst).map Binder.destination) result := by
    rwa [List.map_map]
  have hbody := S.emits_loopBody (by rw [List.length_map, hlen.1]) hstms hresults
  refine (Emits.of_collect (Q := fun body front => S.Yields [] ds hs body ∧ front = [])
    (hbody.mono fun _ code hcode => ⟨hcode, rfl⟩)).bind ?_
  rintro body _ ⟨hyields, rfl⟩
  have hloop : S.Yields [] (counter :: ds) hs [.loop counter (.ofOperand bound) body] := by
    refine yields_loop (.inl hcounter) ?_ (hyields.weaken _)
    rw [Expr.occurrences_ofOperand]
    exact fun y hy => .inl (hbound y hy)
  refine (Emits.of_emit (Q := fun _ code => S.Yields [] (counter :: ds) hs code) hloop).bind ?_
  intro _ loop hloop
  have hassign := S.emits_assignAll [] fun q hq => S.sees_of_stores (hlast q hq)
  rw [List.map_map]
  refine hassign.mono fun _ rest hrest => ?_
  have happend := hfront.next (hloop.next hrest)
  simpa using happend

/-! ## Maps -/

theorem emits_width {inputs : List Name} (flat : Name → Fault)
    (hh : ∀ x ∈ inputs.head?, S.roles.head x) :
    Emits S.Within (width inputs flat) fun size code => (∀ y ∈ size.occurrences, S.roles.scalar y) ∧
      (∀ x ∈ inputs.head?, ¬ S.New x → ∀ ty p, S.home.vars.get? x = some (.array ty p) →
        ∀ d ∈ p.layout.shape.head?, d = size) ∧ code = [] := by
  intro ctx size code last hctx hrun
  obtain ⟨rfl, rfl, first, hfirst, ty, p, hp, hsize⟩ := run_width hrun
  refine ⟨hctx, hctx.scalar_of_extent (hh first hfirst) hp hsize, ?_, rfl⟩
  intro x hx hnew ty' p' hhome d hd
  obtain rfl : first = x := Option.some.inj (hfirst.symm.trans hx)
  rw [← hctx.kept first hnew, hp] at hhome
  cases hhome
  exact Option.some.inj (hd.symm.trans hsize)

/-- Reading one parameter after the other. -/
theorem emits_params {extra : List Name} {params : List Binder} {inputs : List Name}
    {read : Binder × Name → Lowering Unit} (hlen : params.length = inputs.length)
    (h : ∀ q ∈ params.zip inputs,
      Emits S.Within (read q) fun _ code => S.Yields extra [q.1.name] [] code) :
    Emits S.Within ((params.zip inputs).forM read) fun _ code =>
      S.Yields extra (params.map Binder.name) [] code := by
  have hall := S.emits_forM extra (fun q : Binder × Name => [q.1.name]) h
  rwa [← List.map_eq_flatMap, map_zip_fst Binder.name (Nat.le_of_eq hlen)] at hall

theorem emits_readLoopParam {i : Name} {extra : List Name} {q : Binder × Name}
    (hi : S.roles.scalar i ∨ i ∈ extra) (hb : S.roles.bound q.1.name) (ha : S.roles.array q.2) :
    Emits S.Within (readLoopParam i q) fun _ code => S.Yields extra [q.1.name] [] code := by
  rcases q with ⟨param, input⟩
  refine (S.emits_array ha).bind ?_
  rintro ⟨ty, p⟩ _ ⟨hp, rfl⟩
  exact Emits.guard fun _ => S.emits_readParam ty hi hb hp

theorem emits_writeLoopResult {i : Name} {extra : List Name} {d : Destination} {a : Operand}
    (hi : S.roles.scalar i ∨ i ∈ extra) (hd : S.roles.Names d) (ha : S.roles.Reads a) :
    Emits S.Within (writeLoopResult i (d, a)) fun _ code => S.Yields extra [] [] code := by
  cases d with
  | scalar x => exact .of_fault _
  | array p ty =>
    exact S.emits_writeElement ty (.inl hd) (S.sees_index hi) fun y hy => .inl (ha y hy)

/-- The body of the loop of a map: the parameters are read, and the results written, at the
counter. -/
theorem emits_mapBody {i : Name} {dests : List Destination} {params : List Binder}
    {stms : Lowering Unit} {result : List Operand} {inputs : List Name}
    (hlen : params.length = inputs.length) (hd : ∀ d ∈ dests, S.roles.Names d)
    (hp : ∀ b ∈ params, S.roles.bound b.name)
    (hstms : Emits S.Within stms fun _ code => S.Yields [] ds hs code)
    (hr : ∀ a ∈ result, S.roles.Reads a) (hi : ∀ x ∈ inputs, S.roles.array x) :
    Emits S.Within
      (do
        (params.zip inputs).forM (readLoopParam i)
        stms
        (dests.zip result).forM (writeLoopResult i))
      fun _ code => S.Yields [i] (params.map Binder.name ++ ds) hs code := by
  have hcounter : S.roles.scalar i ∨ i ∈ [i] := .inr (List.mem_cons_self ..)
  have hparams := S.emits_params hlen fun q hq => S.emits_readLoopParam hcounter
    (hp _ (List.of_mem_zip hq).1) (hi _ (List.of_mem_zip hq).2)
  have hresults : Emits S.Within ((dests.zip result).forM (writeLoopResult i)) fun _ code =>
      S.Yields [i] [] [] code :=
    S.emits_forM_nil [i] fun q hq => S.emits_writeLoopResult hcounter
      (hd _ (List.of_mem_zip hq).1) (hr _ (List.of_mem_zip hq).2)
  refine hparams.bind fun _ c hc => hstms.bind fun _ c' hc' => ?_
  refine hresults.mono fun _ c'' hc'' => ?_
  have hstms' : S.Yields [i] ds hs c' := hc'.weaken _
  have happend := hc.append (hstms'.append hc'' fun x hx => .inl hx) fun x hx => .inl hx
  simpa using happend

theorem emits_lowerMapLoop {dests : List Destination} {params : List Binder}
    {stms : Lowering Unit} {result : List Operand} {inputs : List Name}
    (hd : ∀ d ∈ dests, S.roles.Names d) (hp : ∀ b ∈ params, S.roles.bound b.name)
    (hstms : Emits S.Within stms fun _ code => S.Yields [] ds hs code)
    (hr : ∀ a ∈ result, S.roles.Reads a) (hi : ∀ x ∈ inputs, S.roles.array x)
    (hh : ∀ x ∈ inputs.head?, S.roles.head x) :
    Emits S.Within (lowerMapLoop dests params stms result inputs) fun _ code =>
      S.Yields [] (params.map Binder.name ++ ds) (inputs.head?.toList ++ hs) code := by
  unfold lowerMapLoop
  refine (S.emits_width _ hh).bind ?_
  rintro count _ ⟨hcount, hextent, rfl⟩
  refine Emits.guard fun hlen => (S.emits_fresh "i").bind ?_
  rw [not_or, Decidable.not_not] at hlen
  rintro i _ ⟨hnew, rfl⟩
  refine (S.emits_bindScalar _ hnew).bind ?_
  rintro ⟨⟩ _ rfl
  have hbody := S.emits_mapBody (i := i) hlen.1 hd hp hstms hr hi
  refine (Emits.of_collect
    (Q := fun body front => S.Yields [i] (params.map Binder.name ++ ds) hs body ∧ front = [])
    (hbody.mono fun _ code hcode => ⟨hcode, rfl⟩)).bind ?_
  rintro body _ ⟨hyields, rfl⟩
  have hsees : S.Sees [] (Expr.ofSize count).occurrences := by
    rw [Expr.occurrences_ofSize]
    exact fun y hy => .inl (hcount y hy)
  have hloop : S.Yields [] (i :: (params.map Binder.name ++ ds)) hs
      [.loop i (.ofSize count) body] := yields_loop hnew hsees hyields
  refine .of_emit ⟨hloop.reads, hloop.accessed, hloop.declared,
    fun x hx => hloop.declares x (List.mem_cons_of_mem _ hx), ?_⟩
  -- The first input is the one whose extent is the bound.
  intro x hx hx' ty p hhome d hd y hy
  rcases List.mem_append.mp hx with hx | hx
  · obtain rfl := hextent x (Option.mem_toList.mp hx) hx' ty p hhome d hd
    refine (Code.mem_gather_iff _).mpr ⟨_, List.mem_cons_self .., List.mem_append.mpr (.inl ?_)⟩
    show y ∈ (Expr.ofSize d).occurrences
    rwa [Expr.occurrences_ofSize]
  · exact hloop.heads x hx hx' ty p hhome d hd y hy

/-! ## Programs -/

/-- The declarations of a pattern, and what follows with its destinations. -/
theorem emits_pattern {pat : List Binder} (hp : ∀ b ∈ pat, S.roles.Binds b)
    {k : List Destination → Lowering Unit}
    (hk : Emits S.Within (k (pat.map Binder.destination)) fun _ code => S.Yields [] ds hs code) :
    Emits S.Within (declarePattern pat >>= k) fun _ code =>
      S.Yields [] (pat.flatMap Binder.scalars ++ ds) hs code := by
  refine (S.emits_declarePattern [] hp).bind ?_
  rintro _ front ⟨rfl, hfront⟩
  exact hk.mono fun _ rest hrest => hfront.next hrest

end

mutual

/-- **What a program compiles to.** -/
theorem emits_lowerAll (S : Surroundings) {stms : List Stm} (h : Stm.RespectsAll S.roles stms) :
    Emits S.Within (Stm.lowerAll none stms) fun _ code =>
      S.Yields [] (Stm.scalarsAll stms) (Stm.headsAll stms) code := by
  match stms with
  | [] => exact .of_pure .nil
  | stm :: stms =>
    refine (S.emits_lower h.1).bind fun _ front hfront => ?_
    exact (S.emits_lowerAll h.2).mono fun _ rest hrest => hfront.next hrest

theorem emits_lower (S : Surroundings) {stm : Stm} (h : stm.Respects S.roles) :
    Emits S.Within (stm.lower none) fun _ code => S.Yields [] stm.scalars stm.heads code := by
  match stm with
  | ⟨pat, exp⟩ =>
    obtain ⟨hp, he⟩ := h
    have hd := Roles.names_of_binds hp
    match exp with
    | .operand a =>
      refine S.emits_pattern hp ((S.emits_single _).bind ?_)
      rintro d _ ⟨hmem, rfl⟩
      exact S.emits_assign [] (S.sees_of_stores (he d hmem))
    | .apply op lhs rhs =>
      refine S.emits_pattern hp ((S.emits_singleScalar _).bind ?_)
      rintro x _ rfl
      refine .of_emit (yields_set (List.forall_mem_append.mpr ⟨?_, ?_⟩))
      · rw [Expr.occurrences_ofOperand]
        exact fun y hy => .inl (he.1 y hy)
      · rw [Expr.occurrences_ofOperand]
        exact fun y hy => .inl (he.2 y hy)
    | .index array indices => exact S.emits_pattern hp (S.emits_lowerIndex he.1 he.2)
    | .update array indices value => exact S.emits_pattern hp (S.emits_lowerUpdate hd he.1 he.2)
    | .alloc size space =>
      intro ctx a code last hctx hrun
      obtain ⟨e, hfail⟩ := lowerAlloc_fails pat size space hctx.onDevice
      have hok : ((lowerAlloc pat size space).run ctx).outcome = .ok a := congrArg Run.outcome hrun
      rw [hfail] at hok
      cases hok
    | .scratch element shape => exact S.emits_pattern hp (.of_pure .nil)
    | .branch cond ⟨yes, yesResult⟩ ⟨no, noResult⟩ =>
      obtain ⟨hc, ⟨hyes, hyr⟩, hno, hnr⟩ := he
      refine S.emits_pattern hp ((S.emits_lowerBranch (S.emits_lowerAll hyes) hyr).bind ?_)
      rintro yes' _ ⟨hyes', rfl⟩
      refine (S.emits_lowerBranch (S.emits_lowerAll hno) hnr).bind ?_
      rintro no' _ ⟨hno', rfl⟩
      refine .of_emit (yields_branch ?_ hyes' hno')
      rw [Expr.occurrences_ofOperand]
      exact fun y hy => .inl (hc y hy)
    | .loop carried counter bound ⟨stms, result⟩ =>
      obtain ⟨hc, hcounter, hb, hs, hr, hlast⟩ := he
      exact S.emits_pattern hp (S.emits_lowerLoop hc hcounter hb (S.emits_lowerAll hs) hr hlast)
    | .map ⟨params, ⟨stms, result⟩, ret⟩ inputs =>
      obtain ⟨⟨hps, hs, hr⟩, hi, hh⟩ := he
      exact S.emits_pattern hp (S.emits_lowerMapLoop hd hps (S.emits_lowerAll hs) hr hi hh)

end

end KernelGen.Surroundings
