import KernelGen.Proofs.Context.Evolution
import KernelGen.Proofs.Lowering.Runs

/-! # The course of a compilation

Compilation emits code and changes the context in few ways, and the two go together: a
block enters the context where it is declared and allocated, an element is accessed in
the space that the context has for its block, the code of a kernel is compiled between
going to the device and coming back.  `Course` lists these ways.  It keeps the names that
were bound and the blocks that were made, so that facts about whole compilations are
proved by induction on it and say nothing of the forms of a program.

`Follows` says that a step of compilation takes such a course from every context, whether
it succeeds or fails.  After a failure the code is lost for the caller, but not what was
done to the context, and so a course there is too. -/
namespace KernelGen

/-- The statement declares or sets a scalar, or accesses an element of a block in the space
that the context knows for it. -/
def Stmt.Plain (c : Context) : Stmt → Prop
  | .declareScalar .. | .set .. => True
  | .read _ b _ _ space | .write b _ _ space _ => c.blockSpace b = .ok space
  | .declareBlock .. | .allocate .. | .branch .. | .loop .. | .kernel _ => False

/-- From one context to another: with these names bound on the way, these blocks made, each
in its space, and this code emitted.  Whether there may be `kernels` is said in front; on
the device blocks are made for kernels only. -/
inductive Course : Bool → Context → List Name → List (Name × Space) → Code → Context → Prop
  | nil {kernels : Bool} {c : Context} : Course kernels c [] [] [] c
  | append {kernels : Bool} {c c' c'' : Context} {xs xs' : List Name}
    {bs bs' : List (Name × Space)} {code code' : Code} (h : Course kernels c xs bs code c')
    (h' : Course kernels c' xs' bs' code' c'') :
    Course kernels c (xs ++ xs') (bs ++ bs') (code ++ code') c''
  | draw {kernels : Bool} {c : Context} :
    Course kernels c [] [] [] { c with names := ⟨c.names.next + 1⟩ }
  | bind {kernels : Bool} {c : Context} (x : Name) {e : Entry}
    (he : ∀ size space, e ≠ .block size space) : Course kernels c [x] [] [] (c.bind x e)
  | emit {kernels : Bool} {c : Context} {s : Stmt} (hs : s.Plain c) : Course kernels c [] [] [s] c
  | make {kernels : Bool} {c : Context} (hc : c.onDevice = true → kernels = true) (x : Name)
    (size : Size) (space : Space) :
    Course kernels c [x] [(x, space)] [.declareBlock x space, .allocate x size space]
      (c.bindBlock x size space)
  | branch {kernels : Bool} {c c' c'' : Context} {xs xs' : List Name}
    {bs bs' : List (Name × Space)} {yes no : Code} (cond : Expr)
    (h : Course kernels c xs bs yes c') (h' : Course kernels c' xs' bs' no c'') :
    Course kernels c (xs ++ xs') (bs ++ bs') [.branch cond yes no] c''
  | loop {kernels : Bool} {c c' : Context} {xs : List Name} {bs : List (Name × Space)}
    {body : Code} (counter : Name) (bound : Expr) (h : Course kernels c xs bs body c') :
    Course kernels c xs bs [.loop counter bound body] c'
  | kernel {c inner : Context} {xs : List Name} {bs : List (Name × Space)} {k : Kernel}
    (h : Course false c.enterDevice xs bs k.body inner) :
    Course true c xs [] [.kernel k] (c.leaveDevice inner)

namespace Course
variable {kernels : Bool} {c c' : Context} {xs : List Name} {bs : List (Name × Space)}
  {code : Code}

/-- A course changes the context in the steps of an evolution. -/
theorem evolves (h : Course kernels c xs bs code c') : c.Evolves xs c' := by
  induction h with
  | nil => exact .refl _
  | append _ _ ih ih' => exact ih.trans ih'
  | draw => exact .draw (.refl _)
  | bind x _ => exact .bind (.refl _) x _
  | emit _ => exact .refl _
  | make _ x size space => exact .bind (.refl _) x (.block size space)
  | branch _ _ _ ih ih' => exact ih.trans ih'
  | loop _ _ _ ih => exact ih
  | kernel _ ih => exact .device (.refl _) ih

/-- The code of a thread makes no blocks. -/
theorem made_eq_nil (h : Course false c xs bs code c') (hc : c.onDevice = true) : bs = [] := by
  generalize hk : false = kernels at h
  induction h with
  | nil | draw | bind | emit | kernel => rfl
  | make hmake =>
    subst hk
    exact absurd (hmake hc) Bool.false_ne_true
  | append h _ ih ih' | branch _ h _ ih ih' =>
    rw [ih hc hk, ih' (h.evolves.onDevice.trans hc) hk, List.append_nil]
  | loop _ _ _ ih => exact ih hc hk

end Course

/-- There is a course with this code; the names bound on it are among `vars` or were drawn
on the way, and the blocks made are among `made`, in order. -/
def Passes (kernels : Bool) (vars made : List Name) (c : Context) (code : Code) (c' : Context) :
    Prop :=
  ∃ xs bs, Course kernels c xs bs code c' ∧ (∀ x ∈ xs, x ∈ vars ∨ Context.Drawn c c' x) ∧
    (bs.map Prod.fst).Sublist made

namespace Passes
variable {kernels : Bool} {vars vars' made made' : List Name} {c c' c'' : Context}
  {code code' : Code}

theorem nil : Passes kernels vars made c [] c :=
  ⟨[], [], .nil, List.forall_mem_nil _, List.nil_sublist _⟩

theorem mono (h : Passes kernels vars made c code c') (hvars : ∀ x ∈ vars, x ∈ vars')
    (hmade : made.Sublist made') : Passes kernels vars' made' c code c' := by
  obtain ⟨xs, bs, hcourse, hxs, hbs⟩ := h
  exact ⟨xs, bs, hcourse, fun x hx => (hxs x hx).imp_left (hvars x), hbs.trans hmade⟩

theorem of_emit {s : Stmt} (hs : s.Plain c) : Passes kernels vars made c [s] c :=
  ⟨[], [], .emit hs, List.forall_mem_nil _, List.nil_sublist _⟩

theorem of_bind {x : Name} {e : Entry} (hx : x ∈ vars) (he : ∀ size space, e ≠ .block size space) :
    Passes kernels vars made c [] (c.bind x e) := by
  refine ⟨[x], [], .bind x he, ?_, List.nil_sublist _⟩
  rintro _ (_ | ⟨_, ⟨⟩⟩)
  exact .inl hx

/-- Of two courses in a row, whatever becomes of their code. -/
theorem join {both : Code} (h : Passes kernels vars made c code c')
    (h' : Passes kernels vars made' c' code' c'')
    (hboth : ∀ {xs xs' bs bs'}, Course kernels c xs bs code c' →
      Course kernels c' xs' bs' code' c'' → Course kernels c (xs ++ xs') (bs ++ bs') both c'') :
    Passes kernels vars (made ++ made') c both c'' := by
  obtain ⟨xs, bs, hcourse, hxs, hbs⟩ := h
  obtain ⟨xs', bs', hcourse', hxs', hbs'⟩ := h'
  refine ⟨xs ++ xs', bs ++ bs', hboth hcourse hcourse', fun x hx => ?_, ?_⟩
  · rcases List.mem_append.mp hx with hx | hx
    · exact (hxs x hx).imp_right fun hd => hd.mono (Nat.le_refl _) hcourse'.evolves.next_le
    · exact (hxs' x hx).imp_right fun hd => hd.mono hcourse.evolves.next_le (Nat.le_refl _)
  · rw [List.map_append]
    exact hbs.append hbs'

theorem append (h : Passes kernels vars made c code c')
    (h' : Passes kernels vars made' c' code' c'') :
    Passes kernels vars (made ++ made') c (code ++ code') c'' :=
  h.join h' fun hcourse hcourse' => hcourse.append hcourse'

/-- A branch takes the course of one side and then that of the other. -/
theorem branch (cond : Expr) (h : Passes kernels vars made c code c')
    (h' : Passes kernels vars made' c' code' c'') :
    Passes kernels vars (made ++ made') c [.branch cond code code'] c'' :=
  h.join h' fun hcourse hcourse' => hcourse.branch cond hcourse'

theorem loop (counter : Name) (bound : Expr) (h : Passes kernels vars made c code c') :
    Passes kernels vars made c [.loop counter bound code] c' := by
  obtain ⟨xs, bs, hcourse, hxs, hbs⟩ := h
  exact ⟨xs, bs, .loop counter bound hcourse, hxs, hbs⟩

end Passes

namespace Lowering
variable {α β : Type} {kernels : Bool} {vars vars' made made' : List Name}

/-- From every context the step takes a course, with what it emits if it succeeds. -/
def Follows (kernels : Bool) (vars made : List Name) (x : Lowering α) : Prop :=
  ∀ ctx, ∃ code, Passes kernels vars made ctx code (x.run ctx).ctx ∧
    ∀ a, (x.run ctx).outcome = .ok a → (x.run ctx).emitted = code

/-- From every context the step takes a course, with the code that is its value if it
succeeds; it emits nothing. -/
def Collects (kernels : Bool) (vars made : List Name) (x : Lowering Code) : Prop :=
  ∀ ctx, ∃ code, Passes kernels vars made ctx code (x.run ctx).ctx ∧
    ∀ a, (x.run ctx).outcome = .ok a → a = code ∧ (x.run ctx).emitted = []

namespace Follows

/-- Of the names, whichever way the step ends. -/
theorem evolvesWithin {x : Lowering α} (h : Follows kernels vars made x) (ctx : Context) :
    Context.EvolvesWithin vars ctx (x.run ctx).ctx := by
  obtain ⟨_, ⟨xs, _, hcourse, hxs, -⟩, -⟩ := h ctx
  exact ⟨xs, hcourse.evolves, hxs⟩

theorem mono {x : Lowering α} (h : Follows kernels vars made x) (hmade : made.Sublist made') :
    Follows kernels vars made' x := by
  intro ctx
  obtain ⟨code, hpasses, hcode⟩ := h ctx
  exact ⟨code, hpasses.mono (fun _ hx => hx) hmade, hcode⟩

/-- More names may be bound. -/
theorem weaken {x : Lowering α} (h : Follows kernels vars made x) (y : Name) :
    Follows kernels (y :: vars) made x := by
  intro ctx
  obtain ⟨code, hpasses, hcode⟩ := h ctx
  exact ⟨code, hpasses.mono (fun _ hx => List.mem_cons_of_mem _ hx) (List.Sublist.refl _), hcode⟩

theorem of_pure (a : α) : Follows kernels vars made (pure a) :=
  fun _ => ⟨[], .nil, fun _ _ => rfl⟩

theorem of_fail (e : CompileError) : Follows kernels vars made (fail e : Lowering α) :=
  fun _ => ⟨[], .nil, fun _ _ => rfl⟩

theorem of_fault (f : Fault) : Follows kernels vars made (fault f : Lowering α) := of_fail _

theorem of_ask (q : Context → Except CompileError α) : Follows kernels vars made (ask q) :=
  fun _ => ⟨[], .nil, fun _ _ => rfl⟩

theorem of_emit {s : Stmt} (hs : ∀ c, s.Plain c) : Follows kernels vars made (emit s) :=
  fun ctx => ⟨[s], .of_emit (hs ctx), fun _ _ => rfl⟩

/-- Two steps in a row. -/
theorem bind {x : Lowering α} {f : α → Lowering β} (h : Follows kernels vars made x)
    (hf : ∀ a, Follows kernels vars made' (f a)) :
    Follows kernels vars (made ++ made') (x >>= f) := by
  intro ctx
  obtain ⟨code, hpasses, hcode⟩ := h ctx
  rcases hx : x.run ctx with ⟨e | a, emitted, mid⟩
  · rw [hx] at hpasses
    rw [run_bind_of_error f hx]
    exact ⟨code, hpasses.mono (fun _ hx => hx) (List.sublist_append_left ..), nofun⟩
  · rw [hx] at hpasses hcode
    obtain rfl : emitted = code := hcode a rfl
    obtain ⟨rest, hrest, hemitted⟩ := hf a mid
    rw [run_bind_of_ok f hx]
    exact ⟨emitted ++ rest, hpasses.append hrest, fun b hb => congrArg _ (hemitted b hb)⟩

/-- A step that makes no blocks, and one after it. -/
theorem next {x : Lowering α} {f : α → Lowering β} (h : Follows kernels vars [] x)
    (hf : ∀ a, Follows kernels vars made (f a)) : Follows kernels vars made (x >>= f) :=
  h.bind hf

/-- What is asked is known when the second step is looked at. -/
theorem ask_bind {q : Context → Except CompileError α} {f : α → Lowering β}
    (hf : ∀ ctx a, q ctx = .ok a → Follows kernels vars made (f a)) :
    Follows kernels vars made (ask q >>= f) := by
  intro ctx
  cases hq : q ctx with
  | error e =>
    rw [run_bind_of_error f (by rw [run_ask, hq])]
    exact ⟨[], .nil, nofun⟩
  | ok a =>
    rw [run_bind_of_ok f (by rw [run_ask, hq])]
    exact hf ctx a hq ctx

/-- A drawn name may be bound. -/
theorem fresh {f : Name → Lowering β} (base : String)
    (hf : ∀ x, Follows kernels (x :: vars) made (f x)) :
    Follows kernels vars made (Lowering.fresh base >>= f) := by
  intro ctx
  rw [run_bind_of_ok f (run_fresh base ctx)]
  obtain ⟨code, ⟨xs, bs, hcourse, hxs, hbs⟩, hcode⟩ := hf ⟨base, ctx.names.next⟩
    { ctx with names := ⟨ctx.names.next + 1⟩ }
  have hnext := hcourse.evolves.next_le
  refine ⟨code, ⟨xs, bs, Course.draw.append hcourse, fun y hy => ?_, hbs⟩, hcode⟩
  rcases hxs y hy with hy | hdrawn
  · rcases List.mem_cons.mp hy with rfl | hy
    · exact .inr ⟨Nat.le_refl _, hnext⟩
    · exact .inl hy
  · exact .inr (hdrawn.mono (Nat.le_succ _) (Nat.le_refl _))

/-- A check in front of a step. -/
theorem guard {p : Prop} [Decidable p] {e : CompileError} {k : Unit → Lowering β}
    (h : Follows kernels vars made (k ())) :
    Follows kernels vars made (if p then fail e >>= k else k ()) := by
  split
  · exact of_fail e
  · exact h

/-- A list is handled member by member. -/
theorem forM {f : α → Lowering Unit} (blocks : α → List Name) {as : List α}
    (h : ∀ a ∈ as, Follows kernels vars (blocks a) (f a)) :
    Follows kernels vars (as.flatMap blocks) (as.forM f) := by
  induction as with
  | nil => exact of_pure ()
  | cons a as ih =>
    rw [List.forall_mem_cons] at h
    rw [List.flatMap_cons]
    exact h.1.bind fun _ => ih h.2

/-- The same where no blocks are made. -/
theorem forM_nil {f : α → Lowering Unit} {as : List α}
    (h : ∀ a ∈ as, Follows kernels vars [] (f a)) : Follows kernels vars [] (as.forM f) := by
  have hall := forM (fun _ => []) h
  rwa [List.flatMap_eq_nil_iff.mpr fun _ _ => rfl] at hall

theorem mapM {f : α → Lowering β} {as : List α}
    (h : ∀ a ∈ as, Follows kernels vars [] (f a)) : Follows kernels vars [] (as.mapM f) := by
  induction as with
  | nil => exact of_pure []
  | cons a as ih =>
    rw [List.forall_mem_cons] at h
    rw [List.mapM_cons]
    exact h.1.next fun b => (ih h.2).next fun bs => of_pure _

/-- Nested code is collected first. -/
theorem collect {x : Lowering Unit} (h : Follows kernels vars made x) :
    Collects kernels vars made (Lowering.collect x) := by
  intro ctx
  obtain ⟨code, hpasses, hcode⟩ := h ctx
  rcases hx : x.run ctx with ⟨e | ⟨⟩, emitted, last⟩
  · rw [hx] at hpasses
    rw [run_collect_of_error hx]
    exact ⟨code, hpasses, nofun⟩
  · rw [hx] at hpasses hcode
    rw [run_collect_of_ok hx]
    refine ⟨code, hpasses, fun a ha => ?_⟩
    cases ha
    exact ⟨hcode () rfl, rfl⟩

end Follows

namespace Collects

theorem guard {p : Prop} [Decidable p] {e : CompileError} {k : Unit → Lowering Code}
    (h : Collects kernels vars made (k ())) :
    Collects kernels vars made (if p then fail e >>= k else k ()) := by
  split
  · exact fun ctx => ⟨[], .nil, nofun⟩
  · exact h

/-- What is done with collected code. -/
theorem next {x : Lowering Code} {f : Code → Lowering Unit} (h : Collects kernels vars made x)
    (hf : ∀ ctx code mid, Passes kernels vars made ctx code mid →
      ∃ code', Passes kernels vars (made ++ made') ctx code' ((f code).run mid).ctx ∧
        ∀ a, ((f code).run mid).outcome = .ok a → ((f code).run mid).emitted = code') :
    Follows kernels vars (made ++ made') (x >>= f) := by
  intro ctx
  obtain ⟨code, hpasses, hcode⟩ := h ctx
  rcases hx : x.run ctx with ⟨e | a, emitted, mid⟩
  · rw [hx] at hpasses
    rw [run_bind_of_error f hx]
    exact ⟨code, hpasses.mono (fun _ hx => hx) (List.sublist_append_left ..), nofun⟩
  · rw [hx] at hpasses hcode
    obtain ⟨rfl, rfl⟩ : a = code ∧ emitted = [] := hcode a rfl
    rw [run_bind_of_ok f hx]
    exact hf ctx a mid hpasses

/-- It becomes the body of a loop. -/
theorem loop {x : Lowering Code} (h : Collects kernels vars made x) (counter : Name)
    (bound : Expr) :
    Follows kernels vars made (x >>= fun body => emit (.loop counter bound body)) := by
  rw [← List.append_nil made]
  refine h.next fun ctx code mid hpasses => ⟨_, ?_, fun _ _ => rfl⟩
  rw [List.append_nil]
  exact hpasses.loop counter bound

/-- Two pieces of it become the sides of a branch. -/
theorem branch {x y : Lowering Code} (h : Collects kernels vars made x)
    (h' : Collects kernels vars made' y) (cond : Expr) :
    Follows kernels vars (made ++ made')
      (x >>= fun yes => y >>= fun no => emit (.branch cond yes no)) := by
  refine h.next fun ctx yes mid hyes => ?_
  obtain ⟨no, hno, hcode⟩ := h' mid
  rcases hy : y.run mid with ⟨e | a, emitted, last⟩
  · rw [hy] at hno
    rw [run_bind_of_error _ hy]
    exact ⟨yes ++ no, hyes.append hno, nofun⟩
  · rw [hy] at hno hcode
    obtain ⟨rfl, rfl⟩ : a = no ∧ emitted = [] := hcode a rfl
    rw [run_bind_of_ok _ hy]
    exact ⟨_, hyes.branch cond hno, fun _ _ => rfl⟩

end Collects

end Lowering

end KernelGen
