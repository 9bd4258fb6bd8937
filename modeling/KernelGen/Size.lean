import KernelGen.Name

/-! # Symbolic sizes

Sizes of blocks, extents of arrays and positions inside a block are integer
expressions over variables that have a value only at run time. `Size.add` and
`Size.mul` are the plain nodes. Programs build sizes with `plus` and `times` instead,
which drop a zero addend, a unit factor and what is multiplied by zero, and which fold
constants: a constant addend stands last, so that adding a second one meets the first
and their sum is taken at once. Constants whose exact result is no word stay apart.

Words are signed and have 64 bits. A sum or product is a word only when the exact integer
result fits; otherwise there is none. Everything is said through `Int64.toInt`:
`Word.add?_eq_some_iff` and `Word.mul?_eq_some_iff` state that a result, when there is
one, denotes the exact integer, and that one exists whenever some word does. -/
namespace KernelGen

/-! ## Exact arithmetic on words -/

namespace Word

/-- The word that denotes `n`, if `n` lies in `[-2^63, 2^63)`. -/
def ofInt? (n : Int) : Option Int64 :=
  if Int64.minValue.toInt ≤ n ∧ n ≤ Int64.maxValue.toInt then some (Int64.ofInt n) else none

theorem ofInt?_eq_some_iff {n : Int} {w : Int64} : ofInt? n = some w ↔ w.toInt = n := by
  constructor
  · intro h
    unfold ofInt? at h
    split at h
    · rename_i hn
      obtain rfl := Option.some.inj h
      exact Int64.toInt_ofInt_of_le hn.1 (Int.lt_add_one_of_le hn.2)
    · exact absurd h nofun
  · rintro rfl
    rw [ofInt?, if_pos ⟨w.minValue_le_toInt, w.toInt_le⟩, Int64.ofInt_toInt]

/-- The sum of two words, if it is a word. -/
def add? (a b : Int64) : Option Int64 := ofInt? (a.toInt + b.toInt)

/-- The product of two words, if it is a word. -/
def mul? (a b : Int64) : Option Int64 := ofInt? (a.toInt * b.toInt)

theorem add?_eq_some_iff {a b c : Int64} : add? a b = some c ↔ c.toInt = a.toInt + b.toInt :=
  ofInt?_eq_some_iff

theorem mul?_eq_some_iff {a b c : Int64} : mul? a b = some c ↔ c.toInt = a.toInt * b.toInt :=
  ofInt?_eq_some_iff

end Word

/-! ## Expressions -/

/-- An integer expression. -/
inductive Size where
  | const (n : Int64)
  | var (name : Name)
  | add (a b : Size)
  | mul (a b : Size)
deriving DecidableEq

namespace Size

instance : Inhabited Size := ⟨const 0⟩

/-! ## Simplifying constructors -/

/-- `a + y`. The constant meets the constant addends of `a` from the last one inwards,
as long as each sum is a word. -/
def plusConst : Size → Int64 → Size
  | const x, y =>
    match Word.add? x y with
    | some s => const s
    | none => add (const x) (const y)
  | add l (const x), y =>
    if y = 0 then add l (const x)
    else match Word.add? x y with
      | some s => plusConst l s
      | none => add (add l (const x)) (const y)
  | a, y => if y = 0 then a else add a (const y)

/-- `a + b`, with a constant moved to the right. -/
def plus : Size → Size → Size
  | a, const y => plusConst a y
  | const x, b => plusConst b x
  | a, b => add a b

/-- `a * b`. -/
def times : Size → Size → Size
  | const x, const y =>
    match Word.mul? x y with
    | some p => const p
    | none => mul (const x) (const y)
  | const x, b => if x = 0 then const 0 else if x = 1 then b else mul (const x) b
  | a, const y => if y = 0 then const 0 else if y = 1 then a else mul a (const y)
  | a, b => mul a b

/-- The product of the factors, multiplied from the left, starting from 1. -/
def product (factors : List Size) : Size := factors.foldl times (const 1)

/-! ## Variables and values -/

/-- The variables read, in order, each as often as it is read. -/
def occurrences : Size → List Name
  | const _ => []
  | var x => [x]
  | add a b | mul a b => a.occurrences ++ b.occurrences

/-- The variables read, in order of first occurrence. -/
def vars (s : Size) : List Name := s.occurrences.eraseDups

/-- The value under an environment of words; `none` if a variable has no value or an
intermediate result is no word. -/
def eval (env : Name → Option Int64) : Size → Option Int64
  | const n => some n
  | var x => env x
  | add a b => do Word.add? (← a.eval env) (← b.eval env)
  | mul a b => do Word.mul? (← a.eval env) (← b.eval env)

/-! ## Text -/

/-- The outermost node is a sum. -/
def isSum : Size → Bool
  | add _ _ => true
  | _ => false

/-- Sums and products between blanks. A sum that is a factor stands in parentheses;
nothing else does. -/
def text : Size → String
  | const n => n.toInt.repr
  | var x => x.text
  | add a b => a.text ++ " + " ++ b.text
  | mul a b =>
    let factor (e : Size) (t : String) := if e.isSum then "(" ++ t ++ ")" else t
    factor a a.text ++ " * " ++ factor b b.text

instance : ToString Size := ⟨text⟩

end Size

end KernelGen
