import KernelGen.Proofs.Kernel.Blocks
import KernelGen.Proofs.Likeness.Kernels
import Mathlib.Tactic.FinCases

/-! # What a program takes from its context

A context may hold far more than a program speaks of, and yet all of it is touched on the
way: entering the device changes the entry of every block, and leaving it forgets by
position, so that how much is kept depends on how much was there.  None of this gets
into the code.  Two contexts in which the names of the program stand for the same, and in
which the blocks behind its arrays are the same blocks, lead to the same code or to the
same failure (`compile_eq_of_agreesOn`), whatever else they hold and in whatever order it
came.

What an array stands for says in which block it lives, and not how large that block is or
in which space; so the blocks behind arrays have to be asked for.  No block stands behind
another one, and what names a size reads is of no concern. -/
namespace KernelGen

/-- In both contexts these names stand for the same, and so do the blocks of the arrays
among them. -/
structure Context.AgreesOn (names : List Name) (c c' : Context) : Prop where
  settings : c'.settings = c.settings
  source : c'.names = c.names
  onDevice : c'.onDevice = c.onDevice
  entries : ∀ x ∈ names, c'.vars.get? x = c.vars.get? x
  blocks : ∀ x ∈ names, ∀ ty p, c.vars.get? x = some (.array ty p) →
    c'.vars.get? p.block = c.vars.get? p.block

namespace Likeness

/-- The context beside one that agrees with it on these names: nothing is renamed. -/
def ofNames (names : List Name) (c : Context) : Likeness where
  left := c.settings
  right := c.settings
  strict := True
  used x := x ∈ names
  known x := x ∈ names ∨ ∃ y ∈ names, ∃ ty p, c.vars.get? y = some (.array ty p) ∧ p.block = x
  readable _ := True
  rename := id
  first := c.names.next
  known_of_used := .inl
  readable_of_known _ := trivial
  rename_of_known _ := rfl
  rename_injective _ _ _ _ h := h
  known_of_rename h := absurd rfl h
  readable_thread _ := trivial

theorem alike_of_agreesOn {names : List Name} {c c' : Context} (h : c.AgreesOn names c') :
    (ofNames names c).Alike c c' where
  left := rfl
  right := h.settings
  names := h.source
  onDevice := h.onDevice
  entries x hx := by
    have hsame : c'.vars.get? x = c.vars.get? x := by
      rcases hx with hx | ⟨y, hy, ty, p, he, rfl⟩
      · exact h.entries x hx
      · exact h.blocks y hy ty p he
    have hid : (c.vars.get? x).map (Entry.renameOffset id) = c.vars.get? x := by
      rw [Entry.renameOffset_id, Option.map_id, id]
    rw [hsame]
    exact hid.symm
  places x ty p hx he := ⟨.inr ⟨x, hx, ty, p, he, rfl⟩, fun _ _ _ _ => rfl, fun _ _ => trivial⟩
  sizes _ _ _ _ _ _ _ := rfl

end Likeness

/-- **Only what a program speaks of matters.** -/
theorem compile_eq_of_agreesOn {b : Body} {c c' : Context}
    (h : c.AgreesOn (b.occurrences ++ b.bindings) c') :
    (b.compile.run c').outcome = (b.compile.run c).outcome := by
  rcases b with ⟨stms, result⟩
  let L := Likeness.ofNames (Body.occurrences ⟨stms, result⟩ ++ Body.bindings ⟨stms, result⟩) c
  have hdue : L.timetable.Due 0 (Stm.drawnAll (some c.settings.threadIndexBase) stms)
      (Stm.drawnAll (some c.settings.threadIndexBase) stms) := by
    intro i base base' hb hb'
    obtain rfl : base = base' := Option.some.inj (hb.symm.trans hb')
    rfl
  have hanswers := Likeness.compile_alike (b := ⟨stms, result⟩)
    (Likeness.alike_of_agreesOn h) (n := 0) rfl hdue
    (fun x hx => List.mem_append_left _ (List.mem_append_left _ hx))
    (fun x hx => List.mem_append_right _ hx) fun m _ e _ => .inr ⟨id, fun _ => rfl⟩
  cases ho : ((Body.compile ⟨stms, result⟩).run c).outcome with
  | error e =>
    rw [ho] at hanswers
    exact hanswers trivial
  | ok code =>
    rw [ho] at hanswers
    obtain ⟨code', hcode', hsame, -⟩ := hanswers
    rw [hcode', hsame]
    exact congrArg _ (Code.rename_id code)

/-- The context of `twoArrays` without what `throughCell` has no use for, and with more; the
blocks come in another order. -/
def otherArrays (next : Nat) : Context :=
  let blocks := ((Context.initial {} ⟨next⟩).bindBlock ⟨"ys_mem", 2⟩ (.const 4) .host).bindBlock
    ⟨"xs_mem", 0⟩ (.const 4) .host
  ((blocks.bindScalar ⟨"n", 20⟩ .i64).bindArray ⟨"xs", 3⟩ (.array .i64)
    (fourIn ⟨"xs_mem", 0⟩)).bindBlock ⟨"zs_mem", 1⟩ (.const 7) .host

/-- A program with one map. -/
def oneMap : Body := ⟨[⟨[thirdArray], .map throughCell [⟨"xs", 3⟩]⟩], []⟩

theorem compile_eq_of_agreesOn_oneMap :
    (twoArrays 22).AgreesOn (oneMap.occurrences ++ oneMap.bindings) (otherArrays 22) ∧
      (twoArrays 22).vars.keys ≠ (otherArrays 22).vars.keys ∧
      (∃ code, (oneMap.compile.run (twoArrays 22)).outcome = .ok code) ∧
      (oneMap.compile.run (otherArrays 22)).outcome =
        (oneMap.compile.run (twoArrays 22)).outcome := by
  have hagrees : (twoArrays 22).AgreesOn (oneMap.occurrences ++ oneMap.bindings)
      (otherArrays 22) := by
    refine ⟨rfl, rfl, rfl, List.map_inj_left.mp rfl, fun x hx => ?_⟩
    fin_cases hx <;> rintro _ _ ⟨⟩
    all_goals rfl
  exact ⟨hagrees, by decide, ⟨_, rfl⟩, compile_eq_of_agreesOn hagrees⟩

end KernelGen
