import KernelGen.Kernel.Allocations
import KernelGen.Proofs.Size.Value

/-! # Moving arrays into the slices of threads

The slice of thread `t` begins `t * size` elements into the shared block.  That distance
is never a constant other than zero, so shifting by it tells layouts apart that were
apart before (`offsetBy_injective`): an array that was found at its destination is found
there after the shift, and no other one is. -/
namespace KernelGen

namespace Size

theorem plus_zero (a : Size) : a.plus (.const 0) = a := by
  have sum : ∀ x : Int64, Word.add? x 0 = some x :=
    fun x => Word.add?_eq_some_iff.mpr (by simp)
  show a.plusConst 0 = a
  match a with
  | .const x => simp [plusConst, sum]
  | .add l (.const x) => simp [plusConst]
  | .add l (.var x) | .add l (.add a b) | .add l (.mul a b) => simp [plusConst]
  | .var x | .mul a b => simp [plusConst]

/-- What is added to a size, unless a constant or a sum, stands in front of a constant,
behind everything else, and alone where there was nothing. -/
theorem plus_shape {d : Size} (hconst : ∀ n, d ≠ .const n) (hsum : ∀ l r, d ≠ .add l r)
    (a : Size) :
    (a = .const 0 ∧ a.plus d = d) ∨ (∃ n, a = .const n ∧ a.plus d = .add d (.const n)) ∨
      a.plus d = .add a d := by
  match a, d with
  | _, .const n => exact absurd rfl (hconst n)
  | _, .add l r => exact absurd rfl (hsum l r)
  | .const n, .var x | .const n, .mul l r =>
    by_cases hn : n = 0
    · exact .inl ⟨by rw [hn], by simp [plus, plusConst, hn]⟩
    · exact .inr (.inl ⟨n, rfl, by simp [plus, plusConst, hn]⟩)
  | .var y, .var x | .var y, .mul l r | .add _ _, .var x | .add _ _, .mul l r | .mul _ _, .var x
  | .mul _ _, .mul l r => exact .inr (.inr rfl)

/-- What is neither a constant nor a sum can be taken off again. -/
theorem plus_right_cancel {a b d : Size} (hconst : ∀ n, d ≠ .const n) (hsum : ∀ l r, d ≠ .add l r)
    (h : a.plus d = b.plus d) : a = b := by
  -- Nine pairs of shapes; two different ones agree only if `d` is what it must not be.
  rcases plus_shape hconst hsum a with ⟨rfl, ha⟩ | ⟨n, rfl, ha⟩ | ha <;>
    rcases plus_shape hconst hsum b with ⟨rfl, hb⟩ | ⟨m, rfl, hb⟩ | hb <;>
      simp only [ha, hb, add.injEq, true_and, and_true] at h
  · rfl
  · exact absurd h (hsum _ _)
  · exact absurd h (hsum _ _)
  · exact absurd h.symm (hsum _ _)
  · exact h
  · exact absurd h.2.symm (hconst n)
  · exact absurd h.symm (hsum _ _)
  · exact absurd h.2 (hconst m)
  · exact h

/-- The distance of a slice is nothing, or a variable or a product. -/
theorem var_times (t : Name) (s : Size) :
    (Size.var t).times s = .const 0 ∨ (Size.var t).times s = .var t ∨
      (Size.var t).times s = .mul (.var t) s := by
  cases s with
  | const n =>
    by_cases h0 : n = 0
    · exact .inl (by simp [times, h0])
    · by_cases h1 : n = 1
      · exact .inr (.inl (by simp [times, h1]))
      · exact .inr (.inr (by simp [times, h0, h1]))
  | var x | add a b | mul a b => exact .inr (.inr rfl)

end Size

theorem Layout.shift_injective {t : Name} {s : Size} {l l' : Layout}
    (h : l.shift ((Size.var t).times s) = l'.shift ((Size.var t).times s)) : l = l' := by
  obtain ⟨o, shape⟩ := l
  obtain ⟨o', shape'⟩ := l'
  obtain ⟨hoffset, rfl⟩ : o.plus ((Size.var t).times s) = o'.plus ((Size.var t).times s) ∧
      shape = shape' := by
    simpa [Layout.shift] using h
  have ho : o = o' := by
    -- Constants fold into offsets, but the distance is none, except for zero.
    rcases Size.var_times t s with hd | hd | hd <;> rw [hd] at hoffset
    · rwa [Size.plus_zero, Size.plus_zero] at hoffset
    · exact Size.plus_right_cancel (fun _ => Size.noConfusion) (fun _ _ => Size.noConfusion) hoffset
    · exact Size.plus_right_cancel (fun _ => Size.noConfusion) (fun _ _ => Size.noConfusion) hoffset
  rw [ho]

namespace Placement
variable (blocks : BlockSizes) (thread : Name)

@[simp] theorem block_offsetBy (offsets : BlockOffsets) (p : Placement) :
    (p.offsetBy offsets).block = p.block := by
  unfold offsetBy
  split <;> rfl

@[simp] theorem shape_offsetBy (offsets : BlockOffsets) (p : Placement) :
    (p.offsetBy offsets).layout.shape = p.layout.shape := by
  unfold offsetBy
  split <;> rfl

theorem offsetBy_of_none {offsets : BlockOffsets} {p : Placement}
    (h : offsets.get? p.block = none) : p.offsetBy offsets = p := by
  rw [offsetBy, h]

theorem offsetBy_of_some {offsets : BlockOffsets} {p : Placement} {d : Size}
    (h : offsets.get? p.block = some d) : p.offsetBy offsets = ⟨p.block, p.layout.shift d⟩ := by
  rw [offsetBy, h]

theorem get?_sliceOffsets (b : Name) :
    (blocks.sliceOffsets thread).get? b = (blocks.get? b).map (Size.var thread).times :=
  OrderedMap.get?_map ..

/-- **Slices keep places apart.** -/
theorem offsetBy_injective {p q : Placement}
    (h : p.offsetBy (blocks.sliceOffsets thread) = q.offsetBy (blocks.sliceOffsets thread)) :
    p = q := by
  have hblock : p.block = q.block := by
    simpa using congrArg Placement.block h
  cases hb : blocks.get? q.block with
  | none =>
    have hq : (blocks.sliceOffsets thread).get? q.block = none := by
      rw [get?_sliceOffsets, hb, Option.map_none]
    rwa [offsetBy_of_none (by rw [hblock, hq]), offsetBy_of_none hq] at h
  | some s =>
    have hq : (blocks.sliceOffsets thread).get? q.block = some ((Size.var thread).times s) := by
      rw [get?_sliceOffsets, hb, Option.map_some]
    rw [offsetBy_of_some (by rw [hblock, hq]), offsetBy_of_some hq] at h
    have hlayout : p.layout = q.layout := Layout.shift_injective (congrArg Placement.layout h)
    obtain ⟨b, l⟩ := p
    obtain ⟨b', l'⟩ := q
    cases hblock
    cases hlayout
    rfl

end Placement

end KernelGen
