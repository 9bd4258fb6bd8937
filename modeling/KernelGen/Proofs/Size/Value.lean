import KernelGen.Layout
import Mathlib.Tactic.Ring

/-! # What sizes and positions denote

`Size.value` is the exact integer that a size denotes once every variable has an integer
value; no result is too large for it.  The simplifying constructors denote the sum and
the product of what they are given (`value_plus`, `value_times`), so that the position
of an element is the offset plus the indices times the strides, whatever was folded on
the way. -/
namespace KernelGen

namespace Size
variable (env : Name → Int)

/-- The integer that the size denotes. -/
def value : Size → Int
  | const n => n.toInt
  | var x => env x
  | add a b => a.value + b.value
  | mul a b => a.value * b.value

theorem value_plusConst (a : Size) (y : Int64) :
    (a.plusConst y).value env = a.value env + y.toInt := by
  have zero : (0 : Int64).toInt = 0 := rfl
  fun_induction plusConst a y with
  | case1 y x s h => exact Word.add?_eq_some_iff.mp h
  | case2 y x h => rfl
  | case3 l x => simp [value, zero]
  | case4 y l x h s hs ih =>
    rw [ih, Word.add?_eq_some_iff.mp hs]
    simp only [value]
    ring
  | case5 y l x h hs => rfl
  | case6 a _ _ => simp [zero]
  | case7 a y _ _ h => rfl

/-- **Adding simplifies and loses nothing.** -/
theorem value_plus (a b : Size) : (a.plus b).value env = a.value env + b.value env := by
  fun_cases plus a b with
  | case1 => exact value_plusConst env a _
  | case2 x b _ =>
    rw [value_plusConst]
    exact Int.add_comm _ _
  | case3 a b => rfl

/-- **Multiplying simplifies and loses nothing.** -/
theorem value_times (a b : Size) : (a.times b).value env = a.value env * b.value env := by
  have zero : (0 : Int64).toInt = 0 := rfl
  have one : (1 : Int64).toInt = 1 := rfl
  fun_cases times a b with
  | case1 x y p h => exact Word.mul?_eq_some_iff.mp h
  | case2 x y h => rfl
  | case3 b => simp [value, zero]
  | case4 b => simp [value, one]
  | case5 => rfl
  | case6 => simp [value, zero]
  | case7 => simp [value, one]
  | case8 => rfl
  | case9 => rfl

end Size

namespace Layout
variable (env : Name → Int)

/-- The elements between the first one and that with these indices. -/
def displacement (indices strides : List Size) : Int :=
  ((indices.zip strides).map fun (i, s) => i.value env * s.value env).sum

/-- **The position of an element is affine in its indices.** -/
theorem value_position (l : Layout) (indices : List Size) :
    (l.position indices).value env = l.offset.value env + displacement env indices l.strides := by
  -- By induction on the pairs, for any start of the sum.
  have fold : ∀ (pairs : List (Size × Size)) (start : Size),
      (pairs.foldl (fun acc (i, s) => acc.plus (i.times s)) start).value env =
        start.value env + (pairs.map fun (i, s) => i.value env * s.value env).sum := by
    intro pairs
    induction pairs with
    | nil => simp
    | cons q pairs ih =>
      intro start
      rw [List.foldl_cons, ih, Size.value_plus, Size.value_times, List.map_cons, List.sum_cons]
      ring
  exact fold _ _

/-- **Shifting a layout shifts every position.** -/
theorem value_position_shift (l : Layout) (d : Size) (indices : List Size) :
    ((l.shift d).position indices).value env = (l.position indices).value env + d.value env := by
  rw [value_position, value_position, strides_shift]
  show (l.offset.plus d).value env + _ = _
  rw [Size.value_plus]
  ring

end Layout

end KernelGen
