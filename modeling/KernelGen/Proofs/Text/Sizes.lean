import KernelGen.Proofs.Size.Value
import KernelGen.Proofs.Text.Atoms

/-! # What the text of a size denotes

The text of a size does not show how its sums and products are nested: only a sum that is
a factor stands in parentheses.  It shows enough for the value.  `Size.valueOfText`
computes a value from the characters alone, from left to right, the way a reader does
who knows that products bind tighter than sums; it keeps the sum of the addends so far,
the product of the factors since the last `+`, and the same two numbers for every
parenthesis that is open.  On the text of a size this is the value of the size
(`Size.valueOfText_text`), however it is nested. -/
namespace KernelGen

/-! ## Reading a text -/

/-- How far a text has been read. -/
structure Reading where
  /-- The characters of the name or number that is being read. -/
  atom : List Char
  /-- The product of the factors before it. -/
  product : Int
  /-- The sum of the addends before these factors. -/
  sum : Int
  /-- Sum and product in front of each open parenthesis, the innermost first. -/
  outer : List (Int × Int)

namespace Reading
variable (env : Name → Int)

/-- What a name or a number in a size denotes. -/
def atomValue (t : String) : Int :=
  match Operand.ofText t with
  | .var x => env x
  | .const (.int n) => n.toInt
  | .const (.float _) | .const (.bool _) => 0

/-- The name or number has ended and is one more factor. -/
def close (r : Reading) : Reading :=
  if r.atom = [] then r
  else { r with atom := [], product := r.product * atomValue env (String.ofList r.atom) }

/-- A character that belongs to no name and no number; blanks and `*` change nothing, as
the product goes on. -/
def punctuate (r : Reading) : Char → Reading
  | '+' => { r with sum := r.sum + r.product, product := 1 }
  | '(' => { r with product := 1, sum := 0, outer := (r.sum, r.product) :: r.outer }
  | ')' =>
    match r.outer with
    | [] => r
    | (sum, product) :: outer =>
      { r with product := product * (r.sum + r.product), sum := sum, outer := outer }
  | _ => r

theorem punctuate_blank (r : Reading) : r.punctuate ' ' = r := rfl

/-- Read one character. -/
def step (r : Reading) (c : Char) : Reading :=
  if atomChar c then { r with atom := r.atom ++ [c] } else (r.close env).punctuate c

/-- Read on to the end of a text. -/
def after (r : Reading) (text : List Char) : Reading := text.foldl (step env) r

theorem after_append (r : Reading) (a b : List Char) :
    r.after env (a ++ b) = (r.after env a).after env b := List.foldl_append

theorem after_cons (r : Reading) (c : Char) (text : List Char) :
    r.after env (c :: text) = (r.step env c).after env text := rfl

theorem after_atom (r : Reading) {text : List Char} (h : text.all atomChar) :
    r.after env text = { r with atom := r.atom ++ text } := by
  induction text generalizing r with
  | nil => simp [after]
  | cons c text ih =>
    rw [List.all_cons, Bool.and_eq_true] at h
    rw [after_cons, step, if_pos h.1, ih _ h.2]
    simp

/-- Where no name and no number goes on, one that has begun may as well have ended. -/
theorem after_punctuation {r r' : Reading} {c : Char} {text : List Char} (h : r.close env = r')
    (hc : atomChar c = false) : r.after env (c :: text) = (r'.punctuate c).after env text := by
  rw [after_cons, step, if_neg (by simp [hc]), h]

theorem after_blank (product sum : Int) (outer : List (Int × Int)) (text : List Char) :
    (mk [] product sum outer).after env (' ' :: text) = (mk [] product sum outer).after env text :=
  after_punctuation env rfl (by decide)

theorem after_plus (product sum : Int) (outer : List (Int × Int)) (text : List Char) :
    (mk [] product sum outer).after env ('+' :: text) =
      (mk [] 1 (sum + product) outer).after env text :=
  after_punctuation env rfl (by decide)

theorem after_times (product sum : Int) (outer : List (Int × Int)) (text : List Char) :
    (mk [] product sum outer).after env ('*' :: text) = (mk [] product sum outer).after env text :=
  after_punctuation env rfl (by decide)

theorem after_open (product sum : Int) (outer : List (Int × Int)) (text : List Char) :
    (mk [] product sum outer).after env ('(' :: text) =
      (mk [] 1 0 ((sum, product) :: outer)).after env text :=
  after_punctuation env rfl (by decide)

end Reading

/-- The value that a text denotes if it is the text of a size. -/
def Size.valueOfText (env : Name → Int) (t : String) : Int :=
  let r := ((Reading.mk [] 1 0 []).after env t.toList).close env
  r.sum + r.product

/-! ## Sizes -/

namespace Size

/-- No name with an unusual character. -/
def isPlain : Size → Bool
  | const _ => true
  | var x => x.isPlain
  | add a b | mul a b => a.isPlain && b.isPlain

/-- The text of a size as a factor. -/
def factorText (s : Size) : String := if s.isSum then "(" ++ s.text ++ ")" else s.text

theorem text_mul (a b : Size) : (mul a b).text = a.factorText ++ " * " ++ b.factorText := rfl

theorem all_scalarChar_text {s : Size} (hs : s.isPlain) : s.text.toList.all scalarChar := by
  have hfactor {s : Size} (h : s.text.toList.all scalarChar) :
      s.factorText.toList.all scalarChar := by
    rw [factorText]
    split
    · simp +decide only [String.toList_append, List.all_append, h]
    · exact h
  induction s with
  | const n => exact Operand.all_scalarChar_text (a := .const (.int n)) rfl
  | var x => exact Operand.all_scalarChar_text (a := .var x) hs
  | add a b iha ihb =>
    rw [isPlain, Bool.and_eq_true] at hs
    simp +decide only [text, String.toList_append, List.all_append, iha hs.1, ihb hs.2]
  | mul a b iha ihb =>
    rw [isPlain, Bool.and_eq_true] at hs
    simp +decide only [text_mul, String.toList_append, List.all_append, hfactor (iha hs.1),
      hfactor (ihb hs.2)]

variable (env : Name → Int)

/-- Read after factors, it is one more factor. -/
def ReadsAsFactor (s : Size) : Prop :=
  ∀ product sum outer, ((Reading.mk [] product sum outer).after env s.factorText.toList).close env =
    ⟨[], product * s.value env, sum, outer⟩

/-- Read after addends, it adds its value; the last of its own addends is still a product
that may go on. -/
def ReadsAsAddend (s : Size) : Prop :=
  ∀ sum outer, ∃ last, ((Reading.mk [] 1 sum outer).after env s.text.toList).close env =
    ⟨[], last, sum + s.value env - last, outer⟩

variable {env} {s a b : Size}

theorem ReadsAsFactor.readsAsAddend (h : s.ReadsAsFactor env) (hs : s.isSum = false) :
    s.ReadsAsAddend env := by
  intro sum outer
  have hread := h 1 sum outer
  rw [factorText, hs, if_neg Bool.false_ne_true] at hread
  exact ⟨s.value env, by rw [hread]; simp⟩

/-- The parentheses around a sum keep what stands in front of them apart. -/
theorem ReadsAsAddend.readsAsFactor (h : s.ReadsAsAddend env) (hs : s.isSum = true) :
    s.ReadsAsFactor env := by
  intro product sum outer
  obtain ⟨last, hread⟩ := h 0 ((sum, product) :: outer)
  have htext : s.factorText.toList = '(' :: (s.text.toList ++ [')']) := by
    rw [factorText, hs, if_pos rfl]
    simp
  rw [htext, Reading.after_open, Reading.after_append,
    Reading.after_punctuation env hread (by decide)]
  simp [Reading.punctuate, Reading.after, Reading.close]

theorem readsAsFactor_atom {s : Size} {o : Operand} (ho : o.isPlain) (hs : s.isSum = false)
    (htext : s.text = o.text) (hvalue : Reading.atomValue env o.text = s.value env) :
    s.ReadsAsFactor env := by
  intro product sum outer
  rw [factorText, hs, if_neg Bool.false_ne_true, htext,
    Reading.after_atom env _ (Operand.all_atomChar_text ho)]
  simp [Reading.close, Operand.text_ne_nil ho, hvalue]

theorem readsAsFactor_mul (ha : a.ReadsAsFactor env) (hb : b.ReadsAsFactor env) :
    (mul a b).ReadsAsFactor env := by
  intro product sum outer
  have htext : (mul a b).factorText.toList =
      a.factorText.toList ++ ' ' :: '*' :: ' ' :: b.factorText.toList := by
    have hsum : (mul a b).isSum = false := rfl
    rw [factorText, hsum, if_neg Bool.false_ne_true, text_mul]
    simp
  rw [htext, Reading.after_append, Reading.after_punctuation env (ha product sum outer) (by decide),
    Reading.punctuate_blank, Reading.after_times, Reading.after_blank, hb, value, mul_assoc]

theorem readsAsAddend_add (ha : a.ReadsAsAddend env) (hb : b.ReadsAsAddend env) :
    (add a b).ReadsAsAddend env := by
  intro sum outer
  obtain ⟨last, hread⟩ := ha sum outer
  obtain ⟨last', hread'⟩ := hb (sum + a.value env) outer
  have htext : (add a b).text.toList = a.text.toList ++ ' ' :: '+' :: ' ' :: b.text.toList := by
    simp [text]
  refine ⟨last', ?_⟩
  rw [htext, Reading.after_append, Reading.after_punctuation env hread (by decide),
    Reading.punctuate_blank, Reading.after_plus, sub_add_cancel, Reading.after_blank, hread', value,
    add_assoc]

theorem reads (env : Name → Int) (hs : s.isPlain) : s.ReadsAsFactor env ∧ s.ReadsAsAddend env := by
  induction s with
  | const n =>
    have hn : (const n).ReadsAsFactor env := readsAsFactor_atom (o := .const (.int n)) rfl rfl rfl
      (by rw [Reading.atomValue, Operand.ofText_text rfl]; rfl)
    exact ⟨hn, hn.readsAsAddend rfl⟩
  | var x =>
    have hx : (var x).ReadsAsFactor env := readsAsFactor_atom (o := .var x) hs rfl rfl
      (by rw [Reading.atomValue, Operand.ofText_text (a := .var x) hs]; rfl)
    exact ⟨hx, hx.readsAsAddend rfl⟩
  | add a b iha ihb =>
    rw [isPlain, Bool.and_eq_true] at hs
    have hab := readsAsAddend_add (iha hs.1).2 (ihb hs.2).2
    exact ⟨hab.readsAsFactor rfl, hab⟩
  | mul a b iha ihb =>
    rw [isPlain, Bool.and_eq_true] at hs
    have hab := readsAsFactor_mul (iha hs.1).1 (ihb hs.2).1
    exact ⟨hab, hab.readsAsAddend rfl⟩

/-- **The text of a size denotes its value.** -/
theorem valueOfText_text (env : Name → Int) (hs : s.isPlain) :
    valueOfText env s.text = s.value env := by
  obtain ⟨last, hread⟩ := (reads env hs).2 0 []
  rw [valueOfText, hread]
  simp

example : valueOfText (fun x => x.tag) "n_2 + m_3 * (k_4 + i_1) * j_5" = 77 := rfl

end Size

end KernelGen
