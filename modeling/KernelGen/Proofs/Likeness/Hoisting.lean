import KernelGen.Proofs.Likeness.Kernels

/-! # With and without blocks in front of kernels

Where no blocks may be made in front of kernels, a map whose lambda allocates is refused,
and this is all that the setting does: a program without such maps is compiled to the same
code under both answers (`compile_hoisting_of_ok`, `compile_not_hoisting`).

With such maps the refusal names the first block of the first of them.  That nothing else
fails before is not seen from the run that fails; it is seen from the run that succeeds with
blocks, which goes the same way up to that map, and `Pairing.Refuses` compares the two. -/
namespace KernelGen
open Lowering Pairing

/-- With this answer to whether blocks may be made in front of kernels. -/
def Context.hoisting (ctx : Context) (flag : Bool) : Context :=
  { ctx with settings := { ctx.settings with hoistAllocations := flag } }

/-- The first block that every thread would allocate. -/
def MapStm.firstBlock? (m : MapStm) : Option Name := m.f.body.allocations.head?.map Prod.fst

/-- The first block of the first map that needs one. -/
def Stm.firstBlock? (stms : List Stm) : Option Name :=
  (Stm.mapsAll stms).findSome? MapStm.firstBlock?

/-! ## The first block of a map -/

theorem MapStm.head?_keys {m : MapStm} {e : Extraction} (h : m.f.extract = .ok e) :
    e.blocks.keys.head? = m.firstBlock? := by
  obtain ⟨-, hblocks, -⟩ := Lambda.extract_eq_ok h
  rw [hblocks, OrderedMap.head?_keys_ofList]
  rfl

/-! ## Refusals -/

namespace Pairing
variable (S : Pairing) {α β γ δ : Type} {A : α → β → Prop} {e : CompileError}

/-- Where the left step succeeds, the right one fails for this reason. -/
def Refuses (e : CompileError) (x : Lowering α) (y : Lowering β) : Prop :=
  ∀ ⦃ctx ctx'⦄, S.context ctx ctx' → ∀ a, (x.run ctx).outcome = .ok a →
    (y.run ctx').outcome = .error e

variable {S}

/-- What comes after a refusal is not reached. -/
theorem Refuses.bind {x : Lowering α} {y : Lowering β} (h : S.Refuses e x y)
    (f : α → Lowering γ) (g : β → Lowering δ) : S.Refuses e (x >>= f) (y >>= g) := by
  intro ctx ctx' hctx c hc
  obtain ⟨a, ha⟩ : ∃ a, (x.run ctx).outcome = .ok a := by
    rcases hx : x.run ctx with ⟨e' | a, emitted, mid⟩
    · rw [run_bind_of_error f hx] at hc
      cases hc
    · exact ⟨a, rfl⟩
  have hy := h hctx a ha
  rcases hrun : y.run ctx' with ⟨o, emitted', mid'⟩
  rw [hrun] at hy
  obtain rfl : o = .error e := hy
  rw [run_bind_of_error g hrun]

/-- In front of a refusal both sides go together. -/
theorem Tracks.refuses {x : Lowering α} {y : Lowering β} {f : α → Lowering γ}
    {g : β → Lowering δ} (h : S.Tracks A x y) (hk : ∀ a b, A a b → S.Refuses e (f a) (g b)) :
    S.Refuses e (x >>= f) (y >>= g) := by
  intro ctx ctx' hctx c hc
  have hx := h hctx
  rcases hrun : x.run ctx with ⟨e' | a, emitted, mid⟩
  · rw [run_bind_of_error f hrun] at hc
    cases hc
  · rw [hrun] at hx
    obtain ⟨b, hb, hab, -, hmid⟩ := hx
    rcases hrun' : y.run ctx' with ⟨o, emitted', mid'⟩
    rw [hrun'] at hb hmid
    obtain rfl : o = .ok b := hb
    rw [run_bind_of_ok f hrun] at hc
    rw [run_bind_of_ok g hrun']
    exact hk a b hab hmid c hc

theorem Refuses.collect {x y : Lowering Unit} (h : S.Refuses e x y) :
    S.Refuses e (Lowering.collect x) (Lowering.collect y) := by
  intro ctx ctx' hctx code hcode
  have hx : (x.run ctx).outcome = .ok () := by
    rcases hrun : x.run ctx with ⟨e' | ⟨⟩, emitted, last⟩
    · rw [run_collect_of_error hrun] at hcode
      cases hcode
    · rfl
  have hy := h hctx () hx
  rcases hrun : y.run ctx' with ⟨o, emitted, last⟩
  rw [hrun] at hy
  obtain rfl : o = .error e := hy
  rw [run_collect_of_error hrun]

/-- A check in front of a refusal was passed. -/
theorem Refuses.guard {p : Prop} [Decidable p] {e' : CompileError} {k : Unit → Lowering α}
    {k' : Unit → Lowering β} (h : ¬ p → S.Refuses e (k ()) (k' ())) :
    S.Refuses e (if p then fail e' >>= k else k ()) (if p then fail e' >>= k' else k' ()) := by
  by_cases hp : p
  · rw [if_pos hp]
    exact fun _ _ _ a ha => by cases ha
  · rw [if_neg hp, if_neg hp]
    exact h hp

end Pairing

/-! ## One answer beside the other -/

namespace Likeness

/-- The same context with one answer and with the other: nothing is renamed. -/
def ofFlags (base : String) (flag flag' : Bool) : Likeness where
  left := ⟨base, flag⟩
  right := ⟨base, flag'⟩
  strict := False
  used _ := True
  known _ := True
  readable _ := True
  rename := id
  first := 0
  known_of_used _ := trivial
  readable_of_known _ := trivial
  rename_of_known _ := rfl
  rename_injective _ _ _ _ h := h
  known_of_rename h := absurd rfl h
  readable_thread _ := trivial

variable {base : String} {flag flag' : Bool} {stms : List Stm} {block : Name}

theorem alike_hoisting (ctx : Context) (flag flag' : Bool) :
    (ofFlags ctx.settings.threadIndexBase flag flag').Alike (ctx.hoisting flag)
      (ctx.hoisting flag') where
  left := rfl
  right := rfl
  names := rfl
  onDevice := rfl
  entries x _ := by
    show ctx.vars.get? x = (ctx.vars.get? x).map (Entry.renameOffset id)
    rw [Entry.renameOffset_id, Option.map_id, id]
  places _ _ _ _ _ := ⟨trivial, fun _ _ _ _ => rfl, fun _ _ => trivial⟩
  sizes _ _ _ _ _ _ _ := rfl

/-- A map without blocks is compiled the same way under both answers, and every map if the
right answer is as good as the left. -/
theorem admits_ofFlags {m : MapStm} (h : m.firstBlock? = none ∨ (flag → flag')) :
    (ofFlags base flag flag').Admits m where
  reads _ _ := trivial
  binds _ _ := trivial
  hoist e he := by
    refine h.imp (fun hnone => ?_) fun hflags => ⟨hflags, False.elim⟩
    rw [← MapStm.head?_keys he] at hnone
    exact List.head?_eq_none_iff.mp hnone

/-- At all times all names are due. -/
theorem due_ofFlags (n : Nat) (bases : List String) :
    (ofFlags base flag flag').timetable.Due n bases bases := by
  intro i base base' hb hb'
  obtain rfl : base = base' := Option.some.inj (hb.symm.trans hb')
  rfl

theorem tracks_of_keeps {α β : Type} {A : α → β → Prop} {x : Lowering α} {y : Lowering β}
    {bases : List String} (h : (ofFlags base flag flag').timetable.Keeps bases bases A x y) :
    (ofFlags base flag flag').timetable.Tracks A x y := by
  intro c c' hctx
  have hpace : c.names.next = 0 + c.names.next := (Nat.zero_add _).symm
  have hrun := h c.names.next (due_ofFlags _ _) ⟨hctx, hpace⟩
  cases ho : (x.run c).outcome with
  | error e => exact fun hstrict => hstrict.elim
  | ok a =>
    rw [ho] at hrun
    obtain ⟨a', ha', hab, hcode, hlast, -⟩ := hrun
    exact ⟨a', ha', hab, hcode, hlast⟩

/-- What is compiled with one answer is compiled with the other, if no map needs a block or the
other is as good. -/
theorem compile_ofFlags {b : Body} {ctx : Context} {code : Code}
    (h : ∀ m ∈ Stm.mapsAll b.stms, m.firstBlock? = none ∨ (flag → flag'))
    (hok : (b.compile.run (ctx.hoisting flag)).outcome = .ok code) :
    (b.compile.run (ctx.hoisting flag')).outcome = .ok code := by
  have hpace : ctx.names.next = 0 + ctx.names.next := (Nat.zero_add _).symm
  have hanswers := compile_alike (alike_hoisting ctx flag flag') hpace (due_ofFlags _ _)
    (fun _ _ => trivial) (fun _ _ => trivial) fun m hm => (admits_ofFlags (h m hm)).hoist
  rw [hok] at hanswers
  obtain ⟨code', hcode', hsame, -⟩ := hanswers
  rw [hcode', hsame]
  exact congrArg _ (Code.rename_id code)

/-! ## The first map that needs a block -/

theorem refuses_hoist {blocks : BlockSizes} {threads : Size} (h : blocks.keys.head? = some block) :
    (ofFlags base true false).timetable.Refuses (.threadAllocation block) (hoist blocks threads)
      (hoist blocks threads) := by
  intro c c' hctx _ _
  have hflag : c'.settings.hoistAllocations = false := congrArg _ hctx.right
  have hask : (ask (pure ·.settings.hoistAllocations)).run c' = ⟨.ok false, [], c'⟩ := by
    rw [← hflag]
    rfl
  obtain ⟨rest, hkeys⟩ := List.head?_eq_some_iff.mp h
  simp only [hoist, hkeys]
  rw [run_bind_of_ok _ hask]
  rfl

theorem refuses_lowerMapKernel {m : MapStm} (h : m.firstBlock? = some block) :
    (ofFlags base true false).timetable.Refuses (.threadAllocation block)
      (lowerMapKernel m.pat m.f m.inputs) (lowerMapKernel m.pat m.f m.inputs) := by
  unfold lowerMapKernel
  refine ((ofFlags base true false).timetable.tracks_width _ (fun _ _ => trivial)
    fun _ _ => trivial).refuses ?_
  rintro _ threads ⟨rfl, -⟩
  refine (tracks_known m.f.extract).refuses ?_
  rintro _ ⟨pruned, blocks⟩ ⟨rfl, hextract⟩
  exact (refuses_hoist ((MapStm.head?_keys hextract).trans h)).bind _ _

/-! ### In front of it

Nothing is asked of names here, so that all of the program may be compared. -/

theorem move_ofFlags : (ofFlags base flag flag').timetable.move = id := Placement.renameOffset_id

theorem binds_ofFlags (b : Binder) : (ofFlags base flag flag').timetable.roles.Binds b :=
  ⟨rfl, fun _ _ => ⟨trivial, fun _ _ _ _ => rfl, fun _ _ => trivial⟩⟩

theorem stores_ofFlags (d : Destination) (a : Operand) :
    (ofFlags base flag flag').timetable.roles.Stores d a := by
  cases d with
  | scalar x => exact fun _ _ => rfl
  | array p ty => exact fun _ _ => trivial

theorem tracks_declarePattern (pat : List Binder) :
    (ofFlags base flag flag').timetable.Tracks
      (fun ds ds' => ds' = ds ∧ ds = pat.map Binder.destination)
      (declarePattern pat) (declarePattern pat) := by
  have hbinds : ∀ b ∈ pat, (ofFlags base flag flag').timetable.roles.Binds b :=
    fun b _ => binds_ofFlags b
  have h := (ofFlags base flag flag').timetable.tracks_declarePattern hbinds
  rw [← map_destination_rewrite, move_ofFlags, Binder.map_rewrite_id] at h
  refine h.mono ?_
  rintro ds ds' ⟨rfl, rfl⟩
  exact ⟨rfl, rfl⟩

/-- Statements whose maps need no blocks. -/
theorem keeps_lowerAll (h : Stm.firstBlock? stms = none) :
    (ofFlags base flag flag').timetable.KeepsStep (Stm.drawnAll (some base) stms)
      (Stm.drawnAll (some base) stms) (Stm.lowerAll (some lowerMapKernel) stms)
      (Stm.lowerAll (some lowerMapKernel) stms) := by
  have hadmits : ∀ m ∈ Stm.mapsAll stms, (ofFlags base flag flag').Admits m :=
    fun m hm => admits_ofFlags (.inl (List.findSome?_eq_none_iff.mp h m hm))
  have hkeeps := Timetable.lowerAll _ (maps_lowerMapKernel hadmits)
    (respectsAll_of_used (fun _ _ => trivial) fun _ _ => trivial)
  rwa [move_ofFlags, Stm.rewriteAll_id] at hkeeps

theorem tracks_lower {stm : Stm} (h : stm.maps.findSome? MapStm.firstBlock? = none) :
    (ofFlags base flag flag').timetable.Steps (stm.lower (some lowerMapKernel))
      (stm.lower (some lowerMapKernel)) := by
  have hadmits : ∀ m ∈ stm.maps, (ofFlags base flag flag').Admits m :=
    fun m hm => admits_ofFlags (.inl (List.findSome?_eq_none_iff.mp h m hm))
  have hrespects : Stm.RespectsAll (ofFlags base flag flag').timetable.roles [stm] :=
    respectsAll_of_used (fun _ _ => trivial) fun _ _ => trivial
  have hkeeps := Timetable.lower _ (maps_lowerMapKernel hadmits) hrespects.1
  rw [move_ofFlags, Stm.rewrite_id] at hkeeps
  exact tracks_of_keeps hkeeps

theorem tracks_lowerBranch (h : Stm.firstBlock? stms = none) (pat : List Binder)
    (result : List Operand) :
    (ofFlags base flag flag').timetable.Tracks (fun _ _ => True)
      (lowerBranch (pat.map Binder.destination) (Stm.lowerAll (some lowerMapKernel) stms) result)
      (lowerBranch (pat.map Binder.destination) (Stm.lowerAll (some lowerMapKernel) stms)
        result) := by
  have hdests : ∀ d ∈ pat.map Binder.destination,
      (ofFlags base flag flag').timetable.roles.Names d :=
    Roles.names_of_binds fun b _ => binds_ofFlags b
  have hresult : (ofFlags base flag flag').timetable.roles.StoresAll
      (pat.map Binder.destination) result := fun q _ => stores_ofFlags q.1 q.2
  have hkeeps := (ofFlags base flag flag').timetable.keeps_lowerBranch rfl hdests
    (keeps_lowerAll h) hresult
  rw [← map_destination_rewrite, move_ofFlags, Binder.map_rewrite_id] at hkeeps
  exact (tracks_of_keeps hkeeps).mono fun _ _ _ => trivial

/-! ### Up to it -/

theorem refuses_lowerBranch {S : Pairing} {x y : Lowering Unit} {e : CompileError}
    (h : S.Refuses e x y) (dests : List Destination) (result : List Operand) :
    S.Refuses e (lowerBranch dests x result) (lowerBranch dests y result) := by
  unfold lowerBranch
  exact .guard fun _ => (h.bind _ _).collect

theorem refuses_lowerLoop {x y : Lowering Unit} {e : CompileError}
    (h : (ofFlags base flag flag').timetable.Refuses e x y) (dests : List Destination)
    (carried : List (Binder × Operand)) (counter : Name) (bound : Operand) (result : List Operand) :
    (ofFlags base flag flag').timetable.Refuses e
      (lowerLoop dests carried counter bound x result)
      (lowerLoop dests carried counter bound y result) := by
  unfold lowerLoop
  refine .guard fun _ => ?_
  have hstart : (ofFlags base flag flag').timetable.Steps (carried.forM startCarried)
      (carried.forM startCarried) := by
    refine tracks_forM (List.forall₂_same.mpr fun q _ => (rfl : q = q)) ?_
    rintro q _ rfl
    have hone := (ofFlags base flag flag').timetable.tracks_startCarried (binds_ofFlags q.1)
      (stores_ofFlags q.1.destination q.2)
    rwa [move_ofFlags, Binder.rewrite_id] at hone
  refine hstart.refuses fun _ _ _ => ?_
  refine ((ofFlags base flag flag').timetable.tracks_bindScalar _ rfl).refuses fun _ _ _ => ?_
  exact (h.bind _ _).collect.bind _ _

mutual

/-- **The first map that needs a block is refused**, with the name of its first block. -/
theorem refuses_lowerAll {stms : List Stm} (h : Stm.firstBlock? stms = some block) :
    (ofFlags base true false).timetable.Refuses (.threadAllocation block)
      (Stm.lowerAll (some lowerMapKernel) stms) (Stm.lowerAll (some lowerMapKernel) stms) := by
  match stms with
  | [] => cases h
  | stm :: stms =>
    unfold Stm.firstBlock? at h
    rw [Stm.mapsAll, List.findSome?_append, Option.or_eq_some_iff] at h
    rcases h with h | ⟨hnone, h⟩
    · exact (refuses_lower h).bind _ _
    · exact (tracks_lower hnone).refuses fun _ _ _ => refuses_lowerAll h

theorem refuses_lower {stm : Stm} (h : stm.maps.findSome? MapStm.firstBlock? = some block) :
    (ofFlags base true false).timetable.Refuses (.threadAllocation block)
      (stm.lower (some lowerMapKernel)) (stm.lower (some lowerMapKernel)) := by
  match stm with
  | ⟨pat, exp⟩ => exact refuses_lowerExp h

theorem refuses_lowerExp {pat : List Binder} {e : Exp}
    (h : (e.maps pat).findSome? MapStm.firstBlock? = some block) :
    (ofFlags base true false).timetable.Refuses (.threadAllocation block)
      (Exp.lower (some lowerMapKernel) pat e) (Exp.lower (some lowerMapKernel) pat e) := by
  match e with
  | .operand _ | .apply .. | .index .. | .update .. | .alloc .. | .scratch .. => cases h
  | .branch cond ⟨yes, yesResult⟩ ⟨no, noResult⟩ =>
    rw [Exp.maps, List.findSome?_append, Option.or_eq_some_iff] at h
    refine (tracks_declarePattern pat).refuses ?_
    rintro dests _ ⟨rfl, rfl⟩
    rcases h with h | ⟨hnone, h⟩
    · exact (refuses_lowerBranch (refuses_lowerAll h) _ _).bind _ _
    · refine (tracks_lowerBranch hnone pat yesResult).refuses fun _ _ _ => ?_
      exact (refuses_lowerBranch (refuses_lowerAll h) _ _).bind _ _
  | .loop carried counter bound ⟨stms, result⟩ =>
    refine (tracks_declarePattern pat).refuses ?_
    rintro dests _ ⟨rfl, -⟩
    exact refuses_lowerLoop (refuses_lowerAll h) ..
  | .map ⟨params, ⟨stms, result⟩, ret⟩ inputs =>
    refine refuses_lowerMapKernel (m := ⟨pat, ⟨params, ⟨stms, result⟩, ret⟩, inputs⟩) ?_
    rwa [Exp.maps, List.findSome?_singleton] at h

end

end Likeness

/-! ## Programs -/

variable {b : Body} {ctx : Context} {code : Code}

/-- What is compiled without blocks in front of kernels is compiled with them. -/
theorem compile_hoisting_of_ok (h : (b.compile.run (ctx.hoisting false)).outcome = .ok code) :
    (b.compile.run (ctx.hoisting true)).outcome = .ok code :=
  Likeness.compile_ofFlags (fun _ _ => .inr fun _ => rfl) h

/-- **What is compiled with blocks in front of kernels** is refused without them at the first
map that needs one, and is compiled to the same code if there is none. -/
theorem compile_not_hoisting (h : (b.compile.run (ctx.hoisting true)).outcome = .ok code) :
    (b.compile.run (ctx.hoisting false)).outcome =
      match Stm.firstBlock? b.stms with
      | none => .ok code
      | some block => .error (.threadAllocation block) := by
  cases hfirst : Stm.firstBlock? b.stms with
  | none =>
    exact Likeness.compile_ofFlags
      (fun m hm => .inl (List.findSome?_eq_none_iff.mp hfirst m hm)) h
  | some block =>
    exact (Likeness.refuses_lowerAll hfirst).collect (Likeness.alike_hoisting ctx true false) code h

end KernelGen
