import KernelGen.Proofs.Context.FirstOccurrence
import KernelGen.Proofs.Kernel.Transfers

/-! # What a plan of transfers lists

A plan is made by asking the context for one variable after the other, and what is listed
already is not listed again.  The look-up that is saved then would have succeeded, as it did
the first time.  So the answers do not depend on the plan so far: what is listed is what the
context has for the variables that are asked for, each once, in the order of first
occurrence, and there is no plan exactly when there is no answer for some of them
(`foldlM_listOnce`).

Two lists of names are asked for before a launch: the blocks behind the inputs, and the free
names of the lambda that are no inputs.  They may have blocks in common, but no name is free
twice.  `plans_exact` says what this comes to for both plans of a kernel. -/
namespace KernelGen

/-- The variable that is moved. -/
def Transfer.name : Transfer → Name
  | block x _ | scalar x _ => x

/-- The block that an array destination lives in. -/
def Destination.block? : Destination → Option Name
  | array p _ => some p.block
  | scalar _ => none

/-- The names that are read from outside and are not mapped over. -/
def Lambda.others (f : Lambda) (inputs : List Name) : List Name := f.free.filter (· ∉ inputs)

theorem Lambda.mem_others {f : Lambda} {inputs : List Name} {x : Name} :
    x ∈ f.others inputs ↔ x ∈ f.free ∧ x ∉ inputs := by
  rw [others, List.mem_filter, decide_eq_true_eq]

theorem Lambda.nodup_others (f : Lambda) (inputs : List Name) : (f.others inputs).Nodup :=
  (nodup_eraseDups _).filter _

namespace Context
variable (ctx : Context)

/-! ## What the context has for a name -/

/-- A block is moved with its size, a scalar with its type. -/
def transfer? (x : Name) : Option Transfer :=
  match ctx.vars.get? x with
  | some (.block size _) => some (.block x size)
  | some (.scalar ty) => some (.scalar x ty)
  | some (.array ..) | none => none

/-- The block behind an array. -/
def blockBehind? (x : Name) : Option Name :=
  match ctx.vars.get? x with
  | some (.array _ p) => some p.block
  | some (.scalar _) | some (.block ..) | none => none

/-- Why a name cannot be moved as a block. -/
def blockFault? (x : Name) : Option CompileError :=
  match ctx.vars.get? x with
  | some (.block ..) => none
  | some (.scalar _) | some (.array ..) => some (.malformed (.notBlock x))
  | none => some (.unbound x)

/-- Why an input cannot be moved. -/
def inputFault? (x : Name) : Option CompileError :=
  match ctx.vars.get? x with
  | some (.array _ p) => ctx.blockFault? p.block
  | some (.scalar _) | some (.block ..) => some (.malformed (.notArray x))
  | none => some (.unbound x)

/-- Why a name cannot be read from outside. -/
def freeFault? (x : Name) : Option CompileError :=
  match ctx.vars.get? x with
  | some (.scalar _) | some (.block ..) => none
  | some (.array ..) => some (.freeArray x)
  | none => some (.unbound x)

/-- Why a result cannot be moved. -/
def destinationFault? (d : Destination) : Option CompileError := d.block?.bind ctx.blockFault?

variable {ctx} {plan : List Transfer} {x : Name}

theorem transfer?_eq_some_iff {t : Transfer} :
    ctx.transfer? x = some t ↔
      (∃ size space, ctx.vars.get? x = some (.block size space) ∧ t = .block x size) ∨
        ∃ ty, ctx.vars.get? x = some (.scalar ty) ∧ t = .scalar x ty := by
  unfold transfer?
  cases ctx.vars.get? x with
  | none => simp
  | some e => cases e <;> simp [eq_comm]

theorem name_of_transfer? {t : Transfer} (h : ctx.transfer? x = some t) : t.name = x := by
  rcases transfer?_eq_some_iff.mp h with ⟨size, space, -, rfl⟩ | ⟨ty, -, rfl⟩ <;> rfl

theorem blockFault?_eq_none_iff :
    ctx.blockFault? x = none ↔ ∃ size space, ctx.vars.get? x = some (.block size space) := by
  unfold blockFault?
  split <;> simp_all

theorem inputFault?_eq_none_iff :
    ctx.inputFault? x = none ↔ ∃ ty p size space,
      ctx.vars.get? x = some (.array ty p) ∧ ctx.vars.get? p.block = some (.block size space) := by
  unfold inputFault?
  cases ctx.vars.get? x with
  | none => simp
  | some e =>
    cases e with
    | scalar | block => simp
    | array ty p =>
      rw [blockFault?_eq_none_iff]
      constructor
      · rintro ⟨size, space, hb⟩
        exact ⟨ty, p, size, space, rfl, hb⟩
      · rintro ⟨ty, p, size, space, heq, hb⟩
        cases heq
        exact ⟨size, space, hb⟩

theorem freeFault?_eq_none_iff :
    ctx.freeFault? x = none ↔ (∃ ty, ctx.vars.get? x = some (.scalar ty)) ∨
      ∃ size space, ctx.vars.get? x = some (.block size space) := by
  unfold freeFault?
  split <;> simp_all

/-- What can be moved is moved as something. -/
theorem isSome_transfer? (h : ctx.freeFault? x = none) : (ctx.transfer? x).isSome := by
  rcases freeFault?_eq_none_iff.mp h with ⟨ty, hx⟩ | ⟨size, space, hx⟩ <;> simp [transfer?, hx]

theorem blockBehind?_of_input (h : ctx.inputFault? x = none) :
    ∃ b, ctx.blockBehind? x = some b ∧ ctx.blockFault? b = none := by
  obtain ⟨ty, p, size, space, hx, hb⟩ := inputFault?_eq_none_iff.mp h
  exact ⟨p.block, by simp [blockBehind?, hx], blockFault?_eq_none_iff.mpr ⟨size, space, hb⟩⟩

theorem freeFault?_of_block (h : ctx.blockFault? x = none) : ctx.freeFault? x = none :=
  freeFault?_eq_none_iff.mpr (.inr (blockFault?_eq_none_iff.mp h))

/-! ## Plans as lists without repeats -/

/-- The plan with one more transfer, unless its variable is moved already. -/
def listOnce (plan : List Transfer) (t : Transfer) : List Transfer :=
  if t.name ∈ plan.map Transfer.name then plan else plan ++ [t]

/-- A plan, unless something stands in the way. -/
def planUnless (fault : Option CompileError) (plan : List Transfer) :
    Except CompileError (List Transfer) :=
  match fault with
  | some e => .error e
  | none => .ok plan

theorem planUnless_eq_ok_iff {fault : Option CompileError} {next : List Transfer} :
    planUnless fault plan = .ok next ↔ fault = none ∧ plan = next := by
  cases fault <;> simp [planUnless]

theorem planUnless_eq_error_iff {fault : Option CompileError} {e : CompileError} :
    planUnless fault plan = .error e ↔ fault = some e := by
  cases fault <;> simp [planUnless]

/-- What is listed has the names that were asked for, each once. -/
theorem map_name_listOnce (ts : List Transfer) :
    (ts.foldl listOnce []).map Transfer.name = (ts.map Transfer.name).eraseDups := by
  have hstep : ∀ (plan : List Transfer) (t : Transfer), (listOnce plan t).map Transfer.name =
      if t.name ∈ plan.map Transfer.name then plan.map Transfer.name
      else plan.map Transfer.name ++ [t.name] := by
    intro plan t
    unfold listOnce
    split
    · rfl
    · exact List.map_append
  have h := foldl_firstOccurrence (List.map Transfer.name) hstep [] ts
  have hall : (ts.map Transfer.name).filter (fun _ => true) = ts.map Transfer.name :=
    List.filter_eq_self.mpr fun _ _ => rfl
  simpa [hall] using h

theorem mem_foldl_listOnce {ts : List Transfer} {t : Transfer} (h : t ∈ ts.foldl listOnce plan) :
    t ∈ plan ∨ t ∈ ts := by
  induction ts generalizing plan with
  | nil => exact .inl h
  | cons t' ts ih =>
    rcases ih h with h | h
    · unfold listOnce at h
      split at h
      · exact .inl h
      · rcases List.mem_append.mp h with h | h
        · exact .inl h
        · exact .inr (List.mem_cons.mpr (.inl (List.mem_singleton.mp h)))
    · exact .inr (List.mem_cons_of_mem _ h)

/-- **A plan made step by step.**  If each step lists what is wanted unless there is a fault,
so does the whole, and the first fault is the reason if there is no plan.  A step may count
on something about the plan so far and the steps that remain. -/
theorem foldlM_listOnce {α : Type} {step : List Transfer → α → Except CompileError (List Transfer)}
    {wanted : α → Option Transfer} {fault : α → Option CompileError}
    {P : List Transfer → List α → Prop}
    (hstep : ∀ plan a as, P plan (a :: as) →
      step plan a = planUnless (fault a) ((wanted a).toList.foldl listOnce plan) ∧
        (fault a = none → P ((wanted a).toList.foldl listOnce plan) as))
    {as : List α} (h : P plan as) :
    as.foldlM step plan =
        planUnless (as.findSome? fault) ((as.filterMap wanted).foldl listOnce plan) ∧
      (as.findSome? fault = none → P ((as.filterMap wanted).foldl listOnce plan) []) := by
  induction as generalizing plan with
  | nil => exact ⟨rfl, fun _ => h⟩
  | cons a as ih =>
    obtain ⟨ha, hnext⟩ := hstep plan a as h
    rw [List.foldlM_cons, ha, List.findSome?_cons]
    cases hfault : fault a with
    | some e => exact ⟨rfl, nofun⟩
    | none =>
      have hwanted : (((a :: as).filterMap wanted).foldl listOnce plan) =
          (as.filterMap wanted).foldl listOnce ((wanted a).toList.foldl listOnce plan) := by
        rw [List.filterMap_cons]
        cases wanted a <;> rfl
      rw [hwanted]
      exact ih (hnext hfault)

/-- The plan moves variables as what the context has them for. -/
def Faithful (ctx : Context) (plan : List Transfer) : Prop :=
  ∀ t ∈ plan, ctx.transfer? t.name = some t

theorem Faithful.mem_iff (h : ctx.Faithful plan) {t : Transfer} :
    t ∈ plan ↔ t.name ∈ plan.map Transfer.name ∧ ctx.transfer? t.name = some t := by
  constructor
  · exact fun ht => ⟨List.mem_map_of_mem ht, h t ht⟩
  · rintro ⟨hname, ht⟩
    obtain ⟨t', ht', heq⟩ := List.mem_map.mp hname
    have htt' : some t' = some t := by rw [← h t' ht', heq, ht]
    exact Option.some.inj htt' ▸ ht'

theorem faithful_foldl {ts : List Transfer} (h : ctx.Faithful plan)
    (hts : ∀ t ∈ ts, ctx.transfer? t.name = some t) : ctx.Faithful (ts.foldl listOnce plan) := by
  intro t ht
  rcases mem_foldl_listOnce ht with ht | ht
  · exact h t ht
  · exact hts t ht

/-- The transfers of these names, each once. -/
def listing (ctx : Context) (xs : List Name) : List Transfer :=
  (xs.filterMap ctx.transfer?).foldl listOnce []

theorem faithful_filterMap (xs : List Name) :
    ∀ t ∈ xs.filterMap ctx.transfer?, ctx.transfer? t.name = some t := by
  intro t ht
  obtain ⟨x, -, hx⟩ := List.mem_filterMap.mp ht
  rwa [name_of_transfer? hx]

theorem faithful_listing (xs : List Name) : ctx.Faithful (ctx.listing xs) :=
  faithful_foldl (List.forall_mem_nil _) (faithful_filterMap xs)

/-- **The names of a listing are the names that were asked for**, in order of first
occurrence, if all of them can be moved. -/
theorem map_name_listing {xs : List Name} (h : ∀ x ∈ xs, ctx.freeFault? x = none) :
    (ctx.listing xs).map Transfer.name = xs.eraseDups := by
  have hnames : (xs.filterMap ctx.transfer?).map Transfer.name = xs := by
    induction xs with
    | nil => rfl
    | cons x xs ih =>
      obtain ⟨hx, hxs⟩ := List.forall_mem_cons.mp h
      obtain ⟨t, ht⟩ := Option.isSome_iff_exists.mp (isSome_transfer? hx)
      rw [List.filterMap_cons_some ht, List.map_cons, ih hxs, name_of_transfer? ht]
  rw [listing, map_name_listOnce, hnames]

/-- Whatever is listed is what the context has for a name that was asked for. -/
theorem mem_listing_iff {xs : List Name} (h : ∀ x ∈ xs, ctx.freeFault? x = none) {t : Transfer} :
    t ∈ ctx.listing xs ↔ t.name ∈ xs ∧ ctx.transfer? t.name = some t := by
  rw [(faithful_listing xs).mem_iff, map_name_listing h, List.mem_eraseDups]

/-! ## The steps -/

theorem entry_of_get? {e : Entry} (h : ctx.vars.get? x = some e) : ctx.entry x = .ok e :=
  entry_eq_ok_iff.mpr h

theorem entry_of_unbound (h : ctx.vars.get? x = none) : ctx.entry x = .error (.unbound x) := by
  rw [entry, h]

/-- **A block that is listed has been found**, and would be found again. -/
theorem addBlock_eq (h : ctx.Faithful plan) (b : Name) :
    ctx.addBlock plan b =
      planUnless (ctx.blockFault? b) ((ctx.transfer? b).toList.foldl listOnce plan) := by
  -- What is listed as a block is a block.
  have hlisted : plan.any (·.movesBlock b) ↔
      b ∈ plan.map Transfer.name ∧ ∃ size space, ctx.vars.get? b = some (.block size space) := by
    rw [← moves_iff_any]
    constructor
    · rintro ⟨size, hmem⟩
      rcases transfer?_eq_some_iff.mp (h _ hmem) with ⟨size', space, hget, -⟩ | ⟨ty, -, heq⟩
      · exact ⟨List.mem_map_of_mem hmem, size', space, hget⟩
      · cases heq
    · rintro ⟨hmem, size, space, hget⟩
      have ht : ctx.transfer? b = some (.block b size) := by rw [transfer?, hget]
      exact ⟨size, h.mem_iff.mpr ⟨hmem, ht⟩⟩
  unfold addBlock blockSize Context.block blockFault? transfer?
  cases hget : ctx.vars.get? b with
  | none =>
    rw [if_neg (by simp [hlisted, hget]), entry_of_unbound hget]
    rfl
  | some e =>
    rw [entry_of_get? hget]
    cases e with
    | scalar | array =>
      rw [if_neg (by simp [hlisted, hget])]
      rfl
    | block size space =>
      by_cases hmem : b ∈ plan.map Transfer.name
      · rw [if_pos (hlisted.mpr ⟨hmem, size, space, hget⟩)]
        exact congrArg Except.ok (if_pos hmem).symm
      · rw [if_neg fun hany => hmem (hlisted.mp hany).1]
        exact congrArg Except.ok (if_neg hmem).symm

theorem addInput_eq (h : ctx.Faithful plan) (x : Name) :
    ctx.addInput plan x = planUnless (ctx.inputFault? x)
      (((ctx.blockBehind? x).bind ctx.transfer?).toList.foldl listOnce plan) := by
  unfold addInput array inputFault? blockBehind?
  cases hget : ctx.vars.get? x with
  | none =>
    rw [entry_of_unbound hget]
    rfl
  | some e =>
    rw [entry_of_get? hget]
    cases e with
    | array ty p => exact addBlock_eq h p.block
    | scalar | block => rfl

/-- A free name that is a scalar must not be listed already, as it would be listed again. -/
theorem addFree_eq (h : ctx.Faithful plan) (hnew : ∀ ty, .scalar x ty ∉ plan) :
    ctx.addFree plan x =
      planUnless (ctx.freeFault? x) ((ctx.transfer? x).toList.foldl listOnce plan) := by
  cases hget : ctx.vars.get? x with
  | none =>
    rw [addFree, entry_of_unbound hget, freeFault?, hget]
    rfl
  | some e =>
    rw [addFree, entry_of_get? hget, freeFault?, hget]
    cases e with
    | array ty p => rfl
    | block size space =>
      have hfault : ctx.blockFault? x = none := by rw [blockFault?, hget]
      have hadd := addBlock_eq h x
      rwa [hfault] at hadd
    | scalar ty =>
      have ht : ctx.transfer? x = some (.scalar x ty) := by rw [transfer?, hget]
      have hname : x ∉ plan.map Transfer.name :=
        fun hmem => hnew ty (h.mem_iff.mpr ⟨hmem, ht⟩)
      rw [ht]
      exact congrArg Except.ok (if_neg hname).symm

theorem addDestination_eq (h : ctx.Faithful plan) (d : Destination) :
    ctx.addDestination plan d = planUnless (ctx.destinationFault? d)
      ((d.block?.bind ctx.transfer?).toList.foldl listOnce plan) := by
  cases d with
  | array p ty => exact addBlock_eq h p.block
  | scalar x => rfl

/-! ## The plans -/

/-- While inputs are listed, only blocks are. -/
theorem foldlM_addInput (ctx : Context) (inputs : List Name) :
    inputs.foldlM ctx.addInput [] = planUnless (inputs.findSome? ctx.inputFault?)
        (ctx.listing (inputs.filterMap ctx.blockBehind?)) ∧
      (inputs.findSome? ctx.inputFault? = none →
        ∀ x ty, .scalar x ty ∉ ctx.listing (inputs.filterMap ctx.blockBehind?)) := by
  have hstep : ∀ plan x (xs : List Name),
      (ctx.Faithful plan ∧ ∀ y ty, .scalar y ty ∉ plan) →
      ctx.addInput plan x = planUnless (ctx.inputFault? x)
          (((ctx.blockBehind? x).bind ctx.transfer?).toList.foldl listOnce plan) ∧
        (ctx.inputFault? x = none →
          ctx.Faithful (((ctx.blockBehind? x).bind ctx.transfer?).toList.foldl listOnce plan) ∧
            ∀ y ty, .scalar y ty ∉
              ((ctx.blockBehind? x).bind ctx.transfer?).toList.foldl listOnce plan) := by
    intro plan x xs ⟨hfaithful, hblocks⟩
    refine ⟨addInput_eq hfaithful x, fun hfault => ?_⟩
    obtain ⟨b, hb, hbfault⟩ := blockBehind?_of_input hfault
    obtain ⟨size, space, hget⟩ := blockFault?_eq_none_iff.mp hbfault
    have ht : ctx.transfer? b = some (.block b size) := by rw [transfer?, hget]
    rw [hb, Option.bind_some, ht]
    refine ⟨faithful_foldl hfaithful (List.forall_mem_singleton.mpr ht), fun y ty hmem => ?_⟩
    rcases mem_foldl_listOnce hmem with hmem | hmem
    · exact hblocks y ty hmem
    · cases List.mem_singleton.mp hmem
  rw [listing, List.filterMap_filterMap]
  obtain ⟨hrun, hafter⟩ := foldlM_listOnce
    (P := fun plan _ => ctx.Faithful plan ∧ ∀ y ty, .scalar y ty ∉ plan) hstep
    ⟨List.forall_mem_nil _, fun _ _ => List.not_mem_nil⟩
  exact ⟨hrun, fun hfault => (hafter hfault).2⟩

/-- Behind blocks only, names that are all different are listed each for itself. -/
theorem foldlM_addFree {xs : List Name} (hfaithful : ctx.Faithful plan) (hxs : xs.Nodup)
    (hnew : ∀ x ty, .scalar x ty ∉ plan) :
    xs.foldlM ctx.addFree plan = planUnless (xs.findSome? ctx.freeFault?)
      ((xs.filterMap ctx.transfer?).foldl listOnce plan) := by
  refine (foldlM_listOnce
    (P := fun plan xs => ctx.Faithful plan ∧ xs.Nodup ∧ ∀ x ∈ xs, ∀ ty, .scalar x ty ∉ plan)
    ?_ ⟨hfaithful, hxs, fun x _ => hnew x⟩).1
  intro plan x xs ⟨hfaithful, hnodup, hnew⟩
  obtain ⟨hx, hxs⟩ := List.nodup_cons.mp hnodup
  refine ⟨addFree_eq hfaithful (hnew x (List.mem_cons_self ..)), fun _ => ?_⟩
  have hadded : ∀ t ∈ (ctx.transfer? x).toList, ctx.transfer? x = some t :=
    fun t ht => Option.mem_toList.mp ht
  refine ⟨faithful_foldl hfaithful fun t ht => ?_, hxs, fun y hy ty hmem => ?_⟩
  · rw [name_of_transfer? (hadded t ht)]
    exact hadded t ht
  · rcases mem_foldl_listOnce hmem with hmem | hmem
    · exact hnew y (List.mem_cons_of_mem _ hy) ty hmem
    · exact hx (name_of_transfer? (hadded _ hmem) ▸ hy)

/-- **What is copied in** are the blocks behind the inputs and the free names that are no
inputs; otherwise the first fault of an input is the reason, or else the first of a free
name. -/
theorem copyIn_eq (ctx : Context) (f : Lambda) (inputs : List Name) :
    ctx.copyIn f inputs = planUnless
        ((inputs.findSome? ctx.inputFault?).or ((f.others inputs).findSome? ctx.freeFault?))
        (ctx.listing (inputs.filterMap ctx.blockBehind? ++ f.others inputs)) := by
  obtain ⟨hinputs, hblocks⟩ := foldlM_addInput ctx inputs
  rw [copyIn, hinputs]
  cases hfault : inputs.findSome? ctx.inputFault? with
  | some e => rfl
  | none =>
    have hfree := foldlM_addFree (faithful_listing _) (f.nodup_others inputs) (hblocks hfault)
    rw [Option.none_or]
    refine hfree.trans ?_
    rw [listing, listing, List.filterMap_append, List.foldl_append]

/-- **What is copied out** are the blocks of the destinations; otherwise the first fault is
the reason. -/
theorem copyOut_eq (ctx : Context) (dests : List Destination) :
    ctx.copyOut dests = planUnless (dests.findSome? ctx.destinationFault?)
      (ctx.listing (dests.filterMap Destination.block?)) := by
  rw [copyOut, listing, List.filterMap_filterMap]
  refine (foldlM_listOnce (P := fun plan _ => ctx.Faithful plan) ?_ (List.forall_mem_nil _)).1
  intro plan d _ hfaithful
  refine ⟨addDestination_eq hfaithful d, fun _ => faithful_foldl hfaithful fun t ht => ?_⟩
  obtain ⟨b, -, ht⟩ := Option.bind_eq_some_iff.mp (Option.mem_toList.mp ht)
  rwa [name_of_transfer? ht]

/-- What is moved before a launch. -/
structure CopiesIn (ctx : Context) (f : Lambda) (inputs : List Name) (plan : List Transfer) :
    Prop where
  /-- No block is moved twice, and no scalar. -/
  nodup : (plan.map Transfer.name).Nodup
  /-- The blocks are those behind the inputs and those that are free, with their sizes. -/
  block_iff : ∀ b size, .block b size ∈ plan ↔
    (∃ space, ctx.vars.get? b = some (.block size space)) ∧
      ((∃ x ∈ inputs, ctx.blockBehind? x = some b) ∨ b ∈ f.free)
  /-- The scalars are those that are free, with their types. -/
  scalar_iff : ∀ x ty, .scalar x ty ∈ plan ↔ ctx.vars.get? x = some (.scalar ty) ∧ x ∈ f.free
  /-- The blocks behind inputs come first, in order of first occurrence; all else follows in
  order of first use. -/
  order : plan.map Transfer.name = (inputs.filterMap ctx.blockBehind?).eraseDups ++
    f.free.filter fun x => x ∉ inputs ∧ x ∉ inputs.filterMap ctx.blockBehind?

/-- What is moved after a kernel. -/
structure CopiesOut (ctx : Context) (dests : List Destination) (plan : List Transfer) : Prop where
  /-- Blocks are moved, those of the array destinations, with their sizes. -/
  mem_iff : ∀ t, t ∈ plan ↔ ∃ b size space, t = .block b size ∧
    ctx.vars.get? b = some (.block size space) ∧ ∃ d ∈ dests, d.block? = some b
  /-- Each is moved once, in order of first occurrence. -/
  order : plan.map Transfer.name = (dests.filterMap Destination.block?).eraseDups

/-- Behind inputs without fault are blocks. -/
theorem blockFault?_behind {inputs : List Name} (h : ∀ x ∈ inputs, ctx.inputFault? x = none) :
    ∀ b ∈ inputs.filterMap ctx.blockBehind?, ctx.blockFault? b = none := by
  intro b hb
  obtain ⟨x, hx, hxb⟩ := List.mem_filterMap.mp hb
  obtain ⟨b', hb', hfault⟩ := blockBehind?_of_input (h x hx)
  obtain rfl : b = b' := Option.some.inj (hxb.symm.trans hb')
  exact hfault

theorem copiesIn_listing {f : Lambda} {inputs : List Name}
    (hinputs : ∀ x ∈ inputs, ctx.inputFault? x = none)
    (hothers : ∀ x ∈ f.others inputs, ctx.freeFault? x = none) :
    ctx.CopiesIn f inputs
      (ctx.listing (inputs.filterMap ctx.blockBehind? ++ f.others inputs)) := by
  have hbehind := blockFault?_behind hinputs
  have hmovable : ∀ x ∈ inputs.filterMap ctx.blockBehind? ++ f.others inputs,
      ctx.freeFault? x = none :=
    List.forall_mem_append.mpr ⟨fun b hb => freeFault?_of_block (hbehind b hb), hothers⟩
  -- An input is an array, so what is free and no array is no input.
  have hfree : ∀ {x e}, ctx.vars.get? x = some e → (∀ ty p, e ≠ .array ty p) →
      (x ∈ f.others inputs ↔ x ∈ f.free) := by
    intro x e hget harray
    rw [Lambda.mem_others, and_iff_left_iff_imp]
    intro _ hx
    obtain ⟨ty, p, -, -, harray', -⟩ := inputFault?_eq_none_iff.mp (hinputs x hx)
    exact harray ty p (Option.some.inj (hget.symm.trans harray'))
  have horder : (inputs.filterMap ctx.blockBehind? ++ f.others inputs).eraseDups =
      (inputs.filterMap ctx.blockBehind?).eraseDups ++
        f.free.filter fun x => x ∉ inputs ∧ x ∉ inputs.filterMap ctx.blockBehind? := by
    generalize inputs.filterMap ctx.blockBehind? = behind
    rw [List.eraseDups_append, List.removeAll,
      eraseDups_of_nodup ((f.nodup_others inputs).filter _), Lambda.others, List.filter_filter]
    congr 1
    exact List.filter_congr fun x _ => by simp [Bool.and_comm]
  constructor
  case nodup =>
    rw [map_name_listing hmovable]
    exact nodup_eraseDups _
  case block_iff =>
    intro b size
    rw [mem_listing_iff hmovable, List.mem_append, List.mem_filterMap]
    constructor
    · rintro ⟨hname, ht⟩
      rcases transfer?_eq_some_iff.mp ht with ⟨size', space, hget, heq⟩ | ⟨ty, -, heq⟩
      · cases heq
        exact ⟨⟨space, hget⟩, hname.imp_right (hfree hget nofun).mp⟩
      · cases heq
    · rintro ⟨⟨space, hget⟩, hname⟩
      refine ⟨hname.imp_right (hfree hget nofun).mpr, ?_⟩
      exact transfer?_eq_some_iff.mpr (.inl ⟨size, space, hget, rfl⟩)
  case scalar_iff =>
    intro x ty
    rw [mem_listing_iff hmovable, List.mem_append]
    constructor
    · rintro ⟨hname, ht⟩
      rcases transfer?_eq_some_iff.mp ht with ⟨size, space, -, heq⟩ | ⟨ty', hget, heq⟩
      · cases heq
      · cases heq
        refine ⟨hget, (hfree hget nofun).mp (hname.resolve_left fun hb => ?_)⟩
        obtain ⟨size, space, hblock⟩ := blockFault?_eq_none_iff.mp (hbehind x hb)
        cases hget.symm.trans hblock
    · rintro ⟨hget, hx⟩
      refine ⟨.inr ((hfree hget nofun).mpr hx), ?_⟩
      exact transfer?_eq_some_iff.mpr (.inr ⟨ty, hget, rfl⟩)
  case order => rw [map_name_listing hmovable, horder]

theorem copiesOut_listing {dests : List Destination}
    (hdests : ∀ d ∈ dests, ctx.destinationFault? d = none) :
    ctx.CopiesOut dests (ctx.listing (dests.filterMap Destination.block?)) := by
  have hblocks : ∀ b ∈ dests.filterMap Destination.block?, ctx.blockFault? b = none := by
    intro b hb
    obtain ⟨d, hd, hdb⟩ := List.mem_filterMap.mp hb
    have h := hdests d hd
    rwa [destinationFault?, hdb] at h
  have hmovable := fun b hb => freeFault?_of_block (hblocks b hb)
  refine ⟨fun t => ?_, map_name_listing hmovable⟩
  rw [mem_listing_iff hmovable]
  constructor
  · rintro ⟨hname, ht⟩
    obtain ⟨size, space, hget⟩ := blockFault?_eq_none_iff.mp (hblocks _ hname)
    rcases transfer?_eq_some_iff.mp ht with ⟨size', space', hget', heq⟩ | ⟨ty, hget', -⟩
    · exact ⟨t.name, size', space', heq, hget', List.mem_filterMap.mp hname⟩
    · cases hget.symm.trans hget'
  · rintro ⟨b, size, space, rfl, hget, hb⟩
    refine ⟨List.mem_filterMap.mpr hb, ?_⟩
    exact transfer?_eq_some_iff.mpr (.inl ⟨size, space, hget, rfl⟩)

/-- **The plans of a kernel are exact.**  There is a plan for what is moved before the launch
exactly when each input is an array in a block, and each free name that is no input is a
scalar or a block; it lists what it should (`CopiesIn`); and otherwise the first input that
is in the way is the reason, or else the first free name.  The plan for what is moved after
the kernel has the blocks of the array destinations (`CopiesOut`), and there is one exactly
when they all are blocks. -/
theorem plans_exact (ctx : Context) (f : Lambda) (inputs : List Name) (dests : List Destination) :
    ((∃ plan, ctx.copyIn f inputs = .ok plan) ↔
      (∀ x ∈ inputs, ∃ ty p size space, ctx.vars.get? x = some (.array ty p) ∧
        ctx.vars.get? p.block = some (.block size space)) ∧
      ∀ x ∈ f.free, x ∉ inputs → (∃ ty, ctx.vars.get? x = some (.scalar ty)) ∨
        ∃ size space, ctx.vars.get? x = some (.block size space)) ∧
    (∀ plan, ctx.copyIn f inputs = .ok plan → ctx.CopiesIn f inputs plan) ∧
    (∀ e, ctx.copyIn f inputs = .error e ↔
      inputs.findSome? ctx.inputFault? = some e ∨
        inputs.findSome? ctx.inputFault? = none ∧
          (f.others inputs).findSome? ctx.freeFault? = some e) ∧
    ((∃ plan, ctx.copyOut dests = .ok plan) ↔
      ∀ d ∈ dests, ∀ b, d.block? = some b → ∃ size space,
        ctx.vars.get? b = some (.block size space)) ∧
    ∀ plan, ctx.copyOut dests = .ok plan → ctx.CopiesOut dests plan := by
  have hin := copyIn_eq ctx f inputs
  have hout := copyOut_eq ctx dests
  have hinputs : (inputs.findSome? ctx.inputFault? = none) ↔
      ∀ x ∈ inputs, ctx.inputFault? x = none := List.findSome?_eq_none_iff
  have hothers : ((f.others inputs).findSome? ctx.freeFault? = none) ↔
      ∀ x ∈ f.others inputs, ctx.freeFault? x = none := List.findSome?_eq_none_iff
  have hdests : (dests.findSome? ctx.destinationFault? = none) ↔
      ∀ d ∈ dests, ctx.destinationFault? d = none := List.findSome?_eq_none_iff
  refine ⟨?_, fun plan hplan => ?_, fun e => ?_, ?_, fun plan hplan => ?_⟩
  · simp only [hin, planUnless_eq_ok_iff, exists_and_left, exists_eq', and_true,
      Option.or_eq_none_iff, hinputs, hothers, inputFault?_eq_none_iff, freeFault?_eq_none_iff,
      Lambda.mem_others, and_imp]
  · obtain ⟨hnone, rfl⟩ := planUnless_eq_ok_iff.mp (hin.symm.trans hplan)
    rw [Option.or_eq_none_iff, hinputs, hothers] at hnone
    exact copiesIn_listing hnone.1 hnone.2
  · rw [hin, planUnless_eq_error_iff, Option.or_eq_some_iff]
  · simp only [hout, planUnless_eq_ok_iff, exists_and_left, exists_eq', and_true, hdests,
      destinationFault?, Option.bind_eq_none_iff, blockFault?_eq_none_iff]
  · obtain ⟨hnone, rfl⟩ := planUnless_eq_ok_iff.mp (hout.symm.trans hplan)
    exact copiesOut_listing (hdests.mp hnone)

/-- Two arrays in one block, a second block, and two scalars. -/
def sharing : Context :=
  let blocks := ((Context.initial {} ⟨20⟩).bindBlock ⟨"xs_mem", 0⟩ (.var ⟨"n", 2⟩) .host).bindBlock
    ⟨"ext", 1⟩ (.const 4) .host
  let scalars := (blocks.bindScalar ⟨"n", 2⟩ .i64).bindScalar ⟨"k", 3⟩ .i64
  let half (offset : Size) : Placement := ⟨⟨"xs_mem", 0⟩, ⟨offset, [.const 2]⟩⟩
  (scalars.bindArray ⟨"xs", 4⟩ (.array .i64) (half (.const 0))).bindArray ⟨"zs", 5⟩ (.array .i64)
    (half (.const 2))

/-- A lambda that reads a scalar and places arrays in both blocks, and looks into one of the
arrays it is mapped over. -/
def lookingOutside : Lambda where
  params := [⟨⟨"x", 6⟩, .i64, none⟩, ⟨⟨"z", 7⟩, .i64, none⟩]
  body :=
    { stms := [⟨[⟨⟨"s", 8⟩, .i64, none⟩], .apply .mul (.var ⟨"x", 6⟩) (.var ⟨"k", 3⟩)⟩,
        ⟨[⟨⟨"whole", 9⟩, .array .i64, some ⟨⟨"xs_mem", 0⟩, .rowMajor [.const 4]⟩⟩],
          .scratch .i64 [.const (.int 4)]⟩,
        ⟨[⟨⟨"tmp", 10⟩, .array .i64, some ⟨⟨"ext", 1⟩, .rowMajor [.var ⟨"n", 2⟩]⟩⟩],
          .scratch .i64 [.var ⟨"n", 2⟩]⟩,
        ⟨[⟨⟨"y", 11⟩, .i64, none⟩], .index ⟨"xs", 4⟩ [.const (.int 0)]⟩]
      result := [.var ⟨"y", 11⟩] }
  ret := [.i64]

/-- The block behind both inputs is moved once, though the lambda reads it too. -/
theorem plans_exact_sharing :
    let inBlock (b : Name) : Destination := .array ⟨b, .rowMajor [.const 4]⟩ .i64
    let dests := [inBlock ⟨"ext", 1⟩, .scalar ⟨"k", 3⟩, inBlock ⟨"xs_mem", 0⟩, inBlock ⟨"ext", 1⟩]
    ∃ plan after, sharing.copyIn lookingOutside [⟨"xs", 4⟩, ⟨"zs", 5⟩] = .ok plan ∧
      plan.map Transfer.name = [⟨"xs_mem", 0⟩, ⟨"k", 3⟩, ⟨"ext", 1⟩, ⟨"n", 2⟩] ∧
      sharing.CopiesIn lookingOutside [⟨"xs", 4⟩, ⟨"zs", 5⟩] plan ∧
      sharing.copyOut dests = .ok after ∧
      after.map Transfer.name = [⟨"ext", 1⟩, ⟨"xs_mem", 0⟩] ∧
      sharing.CopiesOut dests after := by
  intro inBlock dests
  have hin : sharing.copyIn lookingOutside [⟨"xs", 4⟩, ⟨"zs", 5⟩] =
      .ok [.block ⟨"xs_mem", 0⟩ (.var ⟨"n", 2⟩), .scalar ⟨"k", 3⟩ .i64,
        .block ⟨"ext", 1⟩ (.const 4), .scalar ⟨"n", 2⟩ .i64] := by rfl
  have hout : sharing.copyOut dests =
      .ok [.block ⟨"ext", 1⟩ (.const 4), .block ⟨"xs_mem", 0⟩ (.var ⟨"n", 2⟩)] := by rfl
  obtain ⟨-, hcopiesIn, -, -, hcopiesOut⟩ :=
    plans_exact sharing lookingOutside [⟨"xs", 4⟩, ⟨"zs", 5⟩] dests
  exact ⟨_, _, hin, rfl, hcopiesIn _ hin, hout, rfl, hcopiesOut _ hout⟩

end Context

end KernelGen
