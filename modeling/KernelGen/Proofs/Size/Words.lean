import KernelGen.Proofs.Size.Occurrences
import Mathlib.Logic.Function.Basic

/-! # What sizes denote in words

A size is an exact integer, but programs compute it in words, and a sum or product that is
no word has no value.  So two sizes that denote the same integer may differ in where they
have a value: simplifying changes the order of the sums, and with it the intermediate
results.  It never takes a value away (`Refines`): a sum is regrouped only around two
constants whose sum is a word, and a factor is dropped only where the product is the other
factor or zero.  `simplification` puts this together with the exact integers and the
variables. -/
namespace KernelGen.Size
variable {env env' : Name → Option Int64} {a b : Size} {x y : Int64}

/-! ## Environments -/

/-- The value depends on the variables that are read, and on no others. -/
theorem eval_congr {s : Size} (h : ∀ x ∈ s.occurrences, env x = env' x) :
    s.eval env = s.eval env' := by
  induction s with
  | const n => rfl
  | var x => exact h x (List.mem_singleton_self x)
  | add a b iha ihb | mul a b iha ihb =>
    have ha := iha fun x hx => h x (List.mem_append_left _ hx)
    have hb := ihb fun x hx => h x (List.mem_append_right _ hx)
    rw [eval, eval, ha, hb]

/-- A variable that is not read may have any value. -/
theorem eval_update {s : Size} {x : Name} (hx : x ∉ s.occurrences) (v : Option Int64) :
    s.eval (Function.update env x v) = s.eval env := by
  apply eval_congr
  intro y hy
  have hne : y ≠ x := fun heq => hx (heq ▸ hy)
  exact Function.update_of_ne hne v env

/-! ## Plain nodes -/

/-- A plain sum has a value if both parts have one and the exact sum is a word. -/
theorem eval_add_eq_some {v : Int64} :
    (add a b).eval env = some v ↔
      ∃ x y, a.eval env = some x ∧ b.eval env = some y ∧ v.toInt = x.toInt + y.toInt := by
  simp [eval, Option.bind_eq_some_iff, Word.add?_eq_some_iff]

/-- The same of a plain product. -/
theorem eval_mul_eq_some {v : Int64} :
    (mul a b).eval env = some v ↔
      ∃ x y, a.eval env = some x ∧ b.eval env = some y ∧ v.toInt = x.toInt * y.toInt := by
  simp [eval, Option.bind_eq_some_iff, Word.mul?_eq_some_iff]

/-- **A product of sizes with values has the value of the plain product**, or none where
that is no word: dropping a factor hides no overflow. -/
theorem eval_times (ha : a.eval env = some x) (hb : b.eval env = some y) :
    (a.times b).eval env = Word.mul? x y := by
  have zero : (0 : Int64).toInt = 0 := rfl
  have one : (1 : Int64).toInt = 1 := rfl
  have plain : (mul a b).eval env = Word.mul? x y := by simp [eval, ha, hb]
  fun_cases times a b with
  | case1 x' y' p hp =>
    obtain rfl : x' = x := Option.some.inj ha
    obtain rfl : y' = y := Option.some.inj hb
    exact hp.symm
  | case2 | case5 | case8 | case9 => exact plain
  | case3 b =>
    obtain rfl : 0 = x := Option.some.inj ha
    exact (Word.mul?_eq_some_iff.mpr (by simp [zero])).symm
  | case4 b =>
    obtain rfl : 1 = x := Option.some.inj ha
    exact hb.trans (Word.mul?_eq_some_iff.mpr (by simp [one])).symm
  | case6 =>
    obtain rfl : 0 = y := Option.some.inj hb
    exact (Word.mul?_eq_some_iff.mpr (by simp [zero])).symm
  | case7 =>
    obtain rfl : 1 = y := Option.some.inj hb
    exact ha.trans (Word.mul?_eq_some_iff.mpr (by simp [one])).symm

/-- The exact product, where the product has a value. -/
theorem toInt_of_eval_times {p : Int64} (ha : a.eval env = some x) (hb : b.eval env = some y)
    (hp : (a.times b).eval env = some p) : p.toInt = x.toInt * y.toInt :=
  Word.mul?_eq_some_iff.mp ((eval_times ha hb).symm.trans hp)

/-! ## Simplifying loses no value -/

/-- Wherever the plain size has a value, `s` has that value. -/
def Refines (s plain : Size) : Prop := ∀ env v, plain.eval env = some v → s.eval env = some v

theorem Refines.refl (s : Size) : Refines s s := fun _ _ h => h

theorem Refines.trans {s t u : Size} (h : Refines s t) (h' : Refines t u) : Refines s u :=
  fun env v hv => h env v (h' env v hv)

/-- A factor may be refined. -/
theorem Refines.mul_left {s plain : Size} (h : Refines s plain) (b : Size) :
    Refines (mul s b) (mul plain b) := by
  intro env v hv
  obtain ⟨x, y, hx, hy, hxy⟩ := eval_mul_eq_some.mp hv
  exact eval_mul_eq_some.mpr ⟨x, y, h env x hx, hy, hxy⟩

/-- The parts of a sum may change places. -/
theorem refines_add_comm (a b : Size) : Refines (add a b) (add b a) := by
  intro env v hv
  obtain ⟨y, x, hy, hx, hxy⟩ := eval_add_eq_some.mp hv
  exact eval_add_eq_some.mpr ⟨x, y, hx, hy, hxy.trans (Int.add_comm ..)⟩

/-- Two constants at the end of a sum may be added first, if their sum is a word: the sum
of the front with the first one alone may have been too large. -/
theorem refines_add_consts {s : Int64} (h : Word.add? x y = some s) (l : Size) :
    Refines (add l (const s)) (add (add l (const x)) (const y)) := by
  intro env v hv
  obtain ⟨w, y', hw, hy, hv⟩ := eval_add_eq_some.mp hv
  obtain ⟨u, x', hu, hx, hw⟩ := eval_add_eq_some.mp hw
  cases hx
  cases hy
  refine eval_add_eq_some.mpr ⟨u, s, hu, rfl, ?_⟩
  rw [hv, hw, Word.add?_eq_some_iff.mp h, Int.add_assoc]

/-- Zero may be dropped. -/
theorem refines_add_zero (a : Size) : Refines a (add a (const 0)) := by
  intro env v hv
  obtain ⟨x, y, hx, hy, hxy⟩ := eval_add_eq_some.mp hv
  cases hy
  have hvx : v = x := Int64.toInt_inj.mp (by simpa using hxy)
  rw [hvx, hx]

theorem refines_plusConst (a : Size) (y : Int64) :
    Refines (a.plusConst y) (add a (const y)) := by
  fun_induction plusConst a y with
  | case1 y x s h =>
    intro env v hv
    simpa [eval, h] using hv
  | case2 y x h => exact .refl _
  | case3 l x => exact refines_add_zero _
  | case4 y l x hy s hs ih => exact ih.trans (refines_add_consts hs _)
  | case5 y l x h hs => exact .refl _
  | case6 a _ _ => exact refines_add_zero a
  | case7 a y _ _ h => exact .refl _

/-- **Adding loses no value.** -/
theorem refines_plus (a b : Size) : Refines (a.plus b) (add a b) := by
  fun_cases plus a b with
  | case1 => exact refines_plusConst a _
  | case2 x b _ => exact (refines_plusConst b x).trans (refines_add_comm b (const x))
  | case3 a b => exact .refl _

/-- **Multiplying loses no value.** -/
theorem refines_times (a b : Size) : Refines (a.times b) (mul a b) := by
  intro env v hv
  obtain ⟨x, y, hx, hy, hxy⟩ := eval_mul_eq_some.mp hv
  exact (eval_times hx hy).trans (Word.mul?_eq_some_iff.mpr hxy)

/-- The product of the factors in plain nodes, from the left, starting from 1. -/
def plainProduct (factors : List Size) : Size := factors.foldl mul (const 1)

/-- **A product of factors loses no value.** -/
theorem refines_product (factors : List Size) :
    Refines (product factors) (plainProduct factors) := by
  -- By induction on the factors, for what was multiplied so far on both sides.
  have fold : ∀ (factors : List Size) (s plain : Size), Refines s plain →
      Refines (factors.foldl times s) (factors.foldl mul plain) := by
    intro factors
    induction factors with
    | nil => exact fun _ _ h => h
    | cons f factors ih =>
      intro s plain h
      exact ih _ _ ((refines_times s f).trans (h.mul_left f))
  exact fold factors _ _ (.refl _)

/-! ## Exact products, and their variables -/

theorem value_product (env : Name → Int) (factors : List Size) :
    (product factors).value env = (factors.map (value env)).prod := by
  have fold : ∀ (factors : List Size) (s : Size),
      (factors.foldl times s).value env = s.value env * (factors.map (value env)).prod := by
    intro factors
    induction factors with
    | nil => simp
    | cons f factors ih =>
      intro s
      rw [List.foldl_cons, ih, value_times, List.map_cons, List.prod_cons, mul_assoc]
  have one : (const 1).value env = 1 := rfl
  rw [product, fold, one, one_mul]

/-- A product reads what its factors read, in order, unless one of them is zero. -/
theorem occurrences_times (ha : a ≠ const 0) (hb : b ≠ const 0) :
    (a.times b).occurrences = a.occurrences ++ b.occurrences := by
  fun_cases times a b with
  | case1 | case2 | case4 | case5 | case8 | case9 => simp [occurrences]
  | case3 => exact absurd rfl ha
  | case6 => exact absurd rfl hb
  | case7 => simp [occurrences]

/-- **Simplifying is exact.**  Sums and products denote the exact sum and product of what
they are made of; they have a value, and the same one, wherever the plain nodes have one; a
sum reads the variables of the plain sum, in order of first occurrence, and so does a
product, unless a factor is zero. -/
theorem simplification (a b : Size) (factors : List Size) :
    (∀ env : Name → Int,
      (a.plus b).value env = a.value env + b.value env ∧
      (a.times b).value env = a.value env * b.value env ∧
      (product factors).value env = (factors.map (value env)).prod) ∧
    (∀ (env : Name → Option Int64) (v : Int64),
      ((add a b).eval env = some v → (a.plus b).eval env = some v) ∧
      ((mul a b).eval env = some v → (a.times b).eval env = some v) ∧
      ((plainProduct factors).eval env = some v → (product factors).eval env = some v)) ∧
    (a.plus b).vars = (add a b).vars ∧
    ((a.times b).vars = (mul a b).vars ∨ a = const 0 ∨ b = const 0) := by
  refine ⟨fun env => ?_, fun env v => ?_, ?_, ?_⟩
  · exact ⟨value_plus env a b, value_times env a b, value_product env factors⟩
  · exact ⟨refines_plus a b env v, refines_times a b env v, refines_product factors env v⟩
  · exact congrArg List.eraseDups (occurrences_plus a b)
  · by_cases ha : a = const 0
    · exact .inr (.inl ha)
    · by_cases hb : b = const 0
      · exact .inr (.inr hb)
      · exact .inl (congrArg List.eraseDups (occurrences_times ha hb))

/-- A variable less the largest word, which is a sum of its own. -/
def belowLargest : Size := add (add (var ⟨"n", 0⟩) (const 5)) (const (-Int64.maxValue))

/-- Five for the variable, and nothing for any other. -/
def fiveForN (x : Name) : Option Int64 := if x = ⟨"n", 0⟩ then some 5 else none

theorem simplification_belowLargest :
    (add belowLargest (const Int64.maxValue)).eval fiveForN = some 10 ∧
      (belowLargest.plus (const Int64.maxValue)).eval fiveForN = some 10 ∧
      (mul belowLargest (const 1)).eval fiveForN = some (10 - Int64.maxValue) ∧
      (belowLargest.times (const 1)).eval fiveForN = some (10 - Int64.maxValue) ∧
      (plainProduct [const 3, var ⟨"n", 0⟩]).eval fiveForN = some 15 ∧
      (product [const 3, var ⟨"n", 0⟩]).eval fiveForN = some 15 := by
  have hsum : (add belowLargest (const Int64.maxValue)).eval fiveForN = some 10 := by rfl
  have hmul : (mul belowLargest (const 1)).eval fiveForN = some (10 - Int64.maxValue) := by rfl
  have hproduct : (plainProduct [const 3, var ⟨"n", 0⟩]).eval fiveForN = some 15 := by rfl
  have hadd := simplification belowLargest (const Int64.maxValue) []
  have htimes := simplification belowLargest (const 1) [const 3, var ⟨"n", 0⟩]
  exact ⟨hsum, (hadd.2.1 fiveForN 10).1 hsum, hmul, (htimes.2.1 fiveForN _).2.1 hmul, hproduct,
    (htimes.2.1 fiveForN 15).2.2 hproduct⟩

/-- A value may be gained: the largest word and `n` have no sum, but less the largest word
there is one. -/
example :
    (add (add (var ⟨"n", 0⟩) (const Int64.maxValue)) (const (-Int64.maxValue))).eval fiveForN =
      none ∧
    ((add (var ⟨"n", 0⟩) (const Int64.maxValue)).plus (const (-Int64.maxValue))).eval fiveForN =
      some 5 := ⟨rfl, rfl⟩

end KernelGen.Size
