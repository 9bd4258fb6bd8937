import KernelGen.Code.Text
import Std.Data.String.ToInt

/-! # The texts of names and constants

Names, integers and truth values are written with letters, digits, underscores and the
minus sign only, unless the base of a name was chosen otherwise (`Operand.isPlain`), so
that such a text ends where another character follows (`eq_of_append`).  A name has an
underscore and no constant has one; hence an operand can be read off its text
(`Operand.ofText_text`), and operands that are written alike are equal. -/
namespace KernelGen

/-! ## Texts in a row -/

section
variable {α : Type} {p : α → Bool} {a a' rest rest' : List α}

/-- The list does not begin with an element of the kind. -/
def Stops (p : α → Bool) (list : List α) : Prop := ∀ c ∈ list.head?, p c = false

@[simp] theorem stops_nil : Stops p ([] : List α) := by simp [Stops]

@[simp] theorem stops_cons {c : α} : Stops p (c :: rest) ↔ p c = false := by simp [Stops]

theorem takeWhile_append_of_stops (ha : a.all p) (h : Stops p rest) :
    (a ++ rest).takeWhile p = a := by
  rw [List.takeWhile_append_of_pos (List.all_eq_true.mp ha)]
  cases rest with
  | nil => simp
  | cons c rest => rw [List.takeWhile_cons_of_neg (by simpa using h), List.append_nil]

theorem dropWhile_append_of_stops (ha : a.all p) (h : Stops p rest) :
    (a ++ rest).dropWhile p = rest := by
  rw [List.dropWhile_append_of_pos (List.all_eq_true.mp ha)]
  cases rest with
  | nil => simp
  | cons c rest => rw [List.dropWhile_cons_of_neg (by simpa using h)]

/-- **A part ends where an element of another kind follows.** -/
theorem eq_of_append (h : a ++ rest = a' ++ rest') (ha : a.all p) (ha' : a'.all p)
    (hr : Stops p rest) (hr' : Stops p rest') : a = a' ∧ rest = rest' := by
  have hlist : a = a' := by
    rw [← takeWhile_append_of_stops ha hr, h, takeWhile_append_of_stops ha' hr']
  subst hlist
  exact ⟨rfl, List.append_cancel_left h⟩

theorem not_mem_of_all {c : α} (h : a.all p) (hc : p c = false) : c ∉ a := fun hmem => by
  simp [List.all_eq_true.mp h c hmem] at hc

end

/-! ## Names -/

/-- ASCII letters and digits, and the underscore. -/
def nameChar (c : Char) : Bool := c.isAlphanum || c == '_'

theorem nameChar_of_isDigit {c : Char} (h : c.isDigit) : nameChar c := by
  simp [nameChar, Char.isAlphanum, h]

theorem all_toDigits {p : Char → Bool} (h : ∀ {c : Char}, c.isDigit → p c) (n : Nat) :
    (Nat.toDigits 10 n).all p :=
  List.all_eq_true.mpr fun _ hc => h (Nat.isDigit_of_mem_toDigits (by decide) (by decide) hc)

namespace Name

/-- The base consists of letters, digits and underscores. -/
def isPlain (x : Name) : Bool := x.base.toList.all nameChar

theorem toList_text (x : Name) : x.text.toList = x.base.toList ++ '_' :: Nat.toDigits 10 x.tag := by
  have h : x.text = x.base ++ "_" ++ x.tag.repr := rfl
  simp [h]

theorem all_nameChar_text {x : Name} (hx : x.isPlain) : x.text.toList.all nameChar := by
  rw [toList_text, List.all_append, List.all_cons, all_toDigits nameChar_of_isDigit,
    show nameChar '_' = true from rfl]
  simpa [isPlain] using hx

theorem numeral?_toDigits (n : Nat) : numeral? (Nat.toDigits 10 n) = some n := by
  have hdigits : (Nat.toDigits 10 n).all Char.isDigit := all_toDigits id n
  have hvalue := Nat.ofDigitChars_ten_toDigits (n := n)
  rw [Nat.ofDigitChars] at hvalue
  rw [numeral?, if_neg (by simp [hdigits, Nat.toDigits_ne_nil]), hvalue]

/-- **A name is read off its text**, at the last underscore. -/
theorem ofText?_text (x : Name) : ofText? x.text = some x := by
  have htag : ∀ c ∈ (Nat.toDigits 10 x.tag).reverse, (c != '_') = true := by
    intro c hc
    rw [List.mem_reverse] at hc
    rw [bne_iff_ne]
    rintro rfl
    exact Nat.underscore_not_in_toDigits hc
  have hreverse : x.text.toList.reverse =
      (Nat.toDigits 10 x.tag).reverse ++ '_' :: x.base.toList.reverse := by
    simp [toList_text]
  simp only [ofText?, hreverse, List.dropWhile_append_of_pos htag,
    List.takeWhile_append_of_pos htag]
  simp [numeral?_toDigits]

/-- **Names that are written alike are equal**, whatever their bases. -/
theorem eq_of_text {x y : Name} (h : x.text = y.text) : x = y :=
  Option.some.inj <| by rw [← ofText?_text x, h, ofText?_text y]

theorem ofText?_eq_none {t : String} (h : '_' ∉ t.toList) : ofText? t = none := by
  have hall : t.toList.reverse.dropWhile (· != '_') = [] := by
    rw [← List.append_nil t.toList.reverse, List.dropWhile_append_of_pos, List.dropWhile_nil]
    intro c hc
    rw [bne_iff_ne]
    rintro rfl
    exact h (List.mem_reverse.mp hc)
  simp only [ofText?, hall]

end Name

/-! ## Operands -/

/-- What integers, truth values and plain names are written with. -/
def atomChar (c : Char) : Bool := nameChar c || c == '-'

/-- What sizes and expressions are written with. -/
def scalarChar (c : Char) : Bool := atomChar c || " +*/<=()".toList.contains c

/-- The constant is not a floating-point number. -/
def Const.isPlain : Const → Bool
  | .int _ | .bool _ => true
  | .float _ => false

/-- The characters of an integer. -/
theorem mem_repr {n : Int} {c : Char} (h : c ∈ n.repr.toList) : c.isDigit ∨ c = '-' := by
  have hdigits : ∀ {m : Nat}, c ∈ m.repr.toList → c.isDigit := fun {m} hc => by
    rw [Nat.toList_repr] at hc
    exact List.all_eq_true.mp (all_toDigits id m) c hc
  rw [Int.repr_eq_if] at h
  split at h
  · exact .inl (hdigits h)
  · rw [String.toList_append, List.mem_append] at h
    rcases h with hminus | hnumber
    · exact .inr (by simpa using hminus)
    · exact .inl (hdigits hnumber)

namespace Operand

/-- No floating-point number, and no name with an unusual character. -/
def isPlain : Operand → Bool
  | const c => c.isPlain
  | var x => x.isPlain

theorem all_atomChar_text {a : Operand} (ha : a.isPlain) : a.text.toList.all atomChar := by
  match a with
  | var x =>
    have hx := List.all_eq_true.mp (Name.all_nameChar_text (x := x) ha)
    exact List.all_eq_true.mpr fun c hc => by simp [atomChar, hx c hc]
  | const (.int n) =>
    refine List.all_eq_true.mpr fun c hc => ?_
    rcases mem_repr hc with hdigit | rfl
    · simp [atomChar, nameChar_of_isDigit hdigit]
    · decide
  | const (.bool true) | const (.bool false) => decide

theorem all_scalarChar_text {a : Operand} (ha : a.isPlain) : a.text.toList.all scalarChar :=
  List.all_eq_true.mpr fun c hc => by
    simp [scalarChar, List.all_eq_true.mp (all_atomChar_text ha) c hc]

/-- The operand whose written form this is: a name, else a truth value, else an integer. -/
def ofText (t : String) : Operand :=
  match Name.ofText? t with
  | some x => var x
  | none =>
    if t = "true" then const (.bool true)
    else if t = "false" then const (.bool false)
    else const (.int (Int64.ofInt (t.toInt?.getD 0)))

/-- **A plain operand is read off its text.** -/
theorem ofText_text {a : Operand} (ha : a.isPlain) : ofText a.text = a := by
  match a with
  | var x => simp [text, ofText, Name.ofText?_text]
  | const (.int n) =>
    have hother {c : Char} (hdigit : c.isDigit = false) (hminus : c ≠ '-') :
        c ∉ n.toInt.repr.toList := fun h => by
      simpa [hdigit, hminus] using mem_repr h
    have hname : Name.ofText? n.toInt.repr = none :=
      Name.ofText?_eq_none (hother (by decide) (by decide))
    have htrue : n.toInt.repr ≠ "true" := fun h =>
      hother (c := 't') (by decide) (by decide) (by rw [h]; decide)
    have hfalse : n.toInt.repr ≠ "false" := fun h =>
      hother (c := 'f') (by decide) (by decide) (by rw [h]; decide)
    simp [text, Const.text, ofText, hname, htrue, hfalse, Int.toInt?_repr]
  | const (.bool true) | const (.bool false) => rfl

/-- **Operands that are written alike are equal.** -/
theorem eq_of_text {a b : Operand} (ha : a.isPlain) (hb : b.isPlain) (h : a.text = b.text) :
    a = b := by
  rw [← ofText_text ha, h, ofText_text hb]

theorem text_ne_nil {a : Operand} (ha : a.isPlain) : a.text.toList ≠ [] := by
  match a with
  | var x => simp [text, Name.toList_text]
  | const (.int n) =>
    rw [text, Const.text, Int.repr_eq_if]
    split <;> simp [Nat.toDigits_ne_nil]
  | const (.bool true) | const (.bool false) => decide

end Operand

end KernelGen
