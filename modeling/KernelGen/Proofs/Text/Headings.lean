import KernelGen.Proofs.Text.Expressions

/-! # Statements are known by their first line

The first line of a statement begins with a keyword or with a name, and no name is a
keyword, for a name has an underscore.  What follows tells the form: a write has the space
right behind the first name, an allocation has `alloc` where a read has the name of a
block, and what is declared with an `@` is a block, as no type has one.  The parts of the
line end where a character follows that they do not have.  `Heading.ofLine` takes a line
apart accordingly and recovers the form and its parts, as they are written
(`Stmt.ofLine_firstLine`). -/
namespace KernelGen

/-! ## Plain code -/

/-- No name with an unusual character. -/
def Transfer.isPlain : Transfer → Bool
  | block name size => name.isPlain && size.isPlain
  | scalar name _ => name.isPlain

mutual

/-- No floating-point number, and no name with an unusual character. -/
def Kernel.isPlain : Kernel → Bool
  | ⟨threadIndex, threadCount, copyIn, copyOut, body⟩ =>
    threadIndex.isPlain && threadCount.isPlain && copyIn.all Transfer.isPlain &&
      copyOut.all Transfer.isPlain && Code.isPlain body

/-- No floating-point number, and no name with an unusual character. -/
def Stmt.isPlain : Stmt → Bool
  | .declareScalar name _ | .declareBlock name _ => name.isPlain
  | .allocate block size _ => block.isPlain && size.isPlain
  | .set name value => name.isPlain && value.isPlain
  | .read dest block index _ _ => dest.isPlain && block.isPlain && index.isPlain
  | .write block index _ _ value => block.isPlain && index.isPlain && value.isPlain
  | .branch cond yes no => cond.isPlain && Code.isPlain yes && Code.isPlain no
  | .loop counter bound body => counter.isPlain && bound.isPlain && Code.isPlain body
  | .kernel k => k.isPlain

/-- No floating-point number, and no name with an unusual character. -/
def Code.isPlain : Code → Bool
  | [] => true
  | s :: code => s.isPlain && Code.isPlain code

end

/-! ## Types and spaces -/

/-- What types are written with. -/
def tyChar (c : Char) : Bool := c.isAlphanum || "[]?->".toList.contains c

theorem all_tyChar_numbered (mark : String) (h : mark.toList.all tyChar) (n : Nat) :
    (mark ++ n.repr).toList.all tyChar := by
  have hdigit {c : Char} (hc : c.isDigit) : tyChar c := by simp [tyChar, Char.isAlphanum, hc]
  rw [String.toList_append, List.all_append, h, Nat.toList_repr, all_toDigits hdigit, Bool.and_self]

theorem TyHead.all_tyChar_text (head : TyHead) : head.text.toList.all tyChar := by
  match head with
  | bool | array | mem | arrow => decide
  | int n => exact all_tyChar_numbered "i" (by decide) n
  | uint n => exact all_tyChar_numbered "u" (by decide) n
  | float n => exact all_tyChar_numbered "f" (by decide) n

mutual

theorem Ty.all_tyChar_text : ∀ t : Ty, t.text.toList.all tyChar
  | .var id => all_tyChar_numbered "?" (by decide) id
  | .con .array args => by
    rw [Ty.text]
    exact Ty.all_tyChar_arrayText args
  | .con .bool _ | .con (.int _) _ | .con (.uint _) _ | .con (.float _) _ | .con .mem _
  | .con .arrow _ => by
    simp only [Ty.text]
    exact TyHead.all_tyChar_text _

theorem Ty.all_tyChar_arrayText : ∀ args : List Ty, (Ty.arrayText args).toList.all tyChar
  | [row] => by
    rw [Ty.arrayText, String.toList_append, List.all_append, TyHead.all_tyChar_text,
      Ty.all_tyChar_text row]
    rfl
  | [] | _ :: _ :: _ => TyHead.all_tyChar_text .array

end

theorem Space.all_nameChar_text (space : Space) : space.text.toList.all nameChar := by
  cases space <;> decide

theorem Space.eq_of_text {space space' : Space} (h : space.text = space'.text) :
    space = space' := by
  cases space <;> cases space' <;> first | rfl | exact absurd h (by decide)

/-! ## First lines -/

/-- What the first line of a statement says: its form, and the parts that it shows, as they
are written. -/
inductive Heading where
  | declareScalar (name ty : List Char)
  | declareBlock (name space : List Char)
  | allocate (block space size : List Char)
  | set (name value : List Char)
  | read (dest block space index element : List Char)
  | write (block space index element value : List Char)
  | branch (cond : List Char)
  | loop (counter bound : List Char)
  | kernel (threadIndex threadCount : List Char)

/-- What the first line is to say. -/
def Stmt.heading : Stmt → Heading
  | .declareScalar name ty => .declareScalar name.text.toList ty.text.toList
  | .declareBlock name space => .declareBlock name.text.toList space.text.toList
  | .allocate block size space =>
    .allocate block.text.toList space.text.toList size.text.toList
  | .set name value => .set name.text.toList value.text.toList
  | .read dest block index element space =>
    .read dest.text.toList block.text.toList space.text.toList index.text.toList
      element.text.toList
  | .write block index element space value =>
    .write block.text.toList space.text.toList index.text.toList element.text.toList
      value.text.toList
  | .branch cond _ _ => .branch cond.text.toList
  | .loop counter bound _ => .loop counter.text.toList bound.text.toList
  | .kernel k => .kernel k.threadIndex.text.toList k.threadCount.text.toList

namespace Heading

/-- `name: mem@space` or `name: type`. -/
def ofDeclaration (line : List Char) : Heading :=
  let name := line.takeWhile nameChar
  let kind := (line.dropWhile nameChar).drop 2
  if '@' ∈ kind then declareBlock name (kind.drop 4) else declareScalar name kind

/-- `alloc@space(size)`, `block@space[index]: type` or an expression, after `name <- `. -/
def ofAssignment (name value : List Char) : Heading :=
  if '@' ∈ value then
    let source := value.takeWhile nameChar
    let place := (value.dropWhile nameChar).drop 1
    let space := place.takeWhile nameChar
    let rest := (place.dropWhile nameChar).drop 1
    if source = "alloc".toList then allocate name space rest.dropLast
    else read name source space (rest.takeWhile scalarChar) ((rest.dropWhile scalarChar).drop 3)
  else set name value

/-- `space[index]: type <- value`, after `block@`. -/
def ofAccess (block line : List Char) : Heading :=
  let rest := (line.dropWhile nameChar).drop 1
  let typed := (rest.dropWhile scalarChar).drop 3
  write block (line.takeWhile nameChar) (rest.takeWhile scalarChar) (typed.takeWhile tyChar)
    ((typed.dropWhile tyChar).drop 4)

/-- Take a first line apart. -/
def ofLine (line : List Char) : Heading :=
  let word := line.takeWhile nameChar
  let rest := line.dropWhile nameChar
  let inner := (rest.drop 1).dropLast.dropLast
  if word = "var".toList then ofDeclaration (rest.drop 1)
  else if word = "if".toList then branch inner
  else if word = "for".toList then
    loop (inner.takeWhile nameChar) ((inner.dropWhile nameChar).drop 3)
  else if word = "kernel".toList then
    kernel (inner.takeWhile nameChar) ((inner.dropWhile nameChar).drop 3)
  else if '@' ∈ rest.head? then ofAccess word (rest.drop 1)
  else ofAssignment word (rest.drop 4)

/-- A name is no keyword. -/
theorem text_ne (x : Name) {keyword : String} (h : '_' ∉ keyword.toList) :
    x.text.toList ≠ keyword.toList := by
  intro heq
  rw [← heq, Name.toList_text] at h
  simp at h

theorem ofDeclaration_scalar {x : Name} (hx : x.isPlain) (ty : Ty) :
    ofDeclaration (x.text.toList ++ ':' :: ' ' :: ty.text.toList) =
      declareScalar x.text.toList ty.text.toList := by
  have hname := Name.all_nameChar_text hx
  have hstop : Stops nameChar (':' :: ' ' :: ty.text.toList) := stops_cons.mpr (by decide)
  have hty := not_mem_of_all ty.all_tyChar_text (c := '@') (by decide)
  rw [ofDeclaration, takeWhile_append_of_stops hname hstop, dropWhile_append_of_stops hname hstop]
  simp [hty]

theorem ofDeclaration_block {x : Name} (hx : x.isPlain) (space : Space) :
    ofDeclaration (x.text.toList ++ ':' :: ' ' :: 'm' :: 'e' :: 'm' :: '@' :: space.text.toList) =
      declareBlock x.text.toList space.text.toList := by
  have hname := Name.all_nameChar_text hx
  have hstop {rest : List Char} : Stops nameChar (':' :: rest) := stops_cons.mpr (by decide)
  rw [ofDeclaration, takeWhile_append_of_stops hname hstop, dropWhile_append_of_stops hname hstop]
  simp

theorem ofAssignment_set (name : List Char) {e : Expr} (he : e.isPlain) :
    ofAssignment name e.text.toList = set name e.text.toList := by
  have hvalue := not_mem_of_all (Expr.all_scalarChar_text he) (c := '@') (by decide)
  rw [ofAssignment, if_neg hvalue]

theorem ofAssignment_allocate (name : List Char) (space : Space) (size : Size) :
    ofAssignment name ('a' :: 'l' :: 'l' :: 'o' :: 'c' :: '@' ::
        (space.text.toList ++ '(' :: (size.text.toList ++ [')']))) =
      allocate name space.text.toList size.text.toList := by
  have hspace := space.all_nameChar_text
  have hopen {rest : List Char} : Stops nameChar ('(' :: rest) := stops_cons.mpr (by decide)
  have halloc (rest : List Char) : ('a' :: 'l' :: 'l' :: 'o' :: 'c' :: '@' :: rest).takeWhile
    nameChar = "alloc".toList := rfl
  have hat (rest : List Char) : ('a' :: 'l' :: 'l' :: 'o' :: 'c' :: '@' :: rest).dropWhile
    nameChar = '@' :: rest := rfl
  rw [ofAssignment, if_pos (by simp)]
  simp only [halloc, hat, List.drop_succ_cons, List.drop_zero,
    takeWhile_append_of_stops hspace hopen, dropWhile_append_of_stops hspace hopen, if_pos,
    List.dropLast_concat]

theorem ofAssignment_read (name : List Char) {block : Name} (hb : block.isPlain) (space : Space)
    {index : Size} (hi : index.isPlain) (ty : Ty) :
    ofAssignment name (block.text.toList ++ '@' :: (space.text.toList ++ '[' ::
        (index.text.toList ++ ']' :: ':' :: ' ' :: ty.text.toList))) =
      read name block.text.toList space.text.toList index.text.toList ty.text.toList := by
  have hblock := Name.all_nameChar_text hb
  have hspace := space.all_nameChar_text
  have hindex := Size.all_scalarChar_text hi
  have hat {rest : List Char} : Stops nameChar ('@' :: rest) := stops_cons.mpr (by decide)
  have hopen {rest : List Char} : Stops nameChar ('[' :: rest) := stops_cons.mpr (by decide)
  have hclose {rest : List Char} : Stops scalarChar (']' :: rest) := stops_cons.mpr (by decide)
  rw [ofAssignment, if_pos (by simp)]
  simp only [takeWhile_append_of_stops hblock hat, dropWhile_append_of_stops hblock hat,
    List.drop_succ_cons, List.drop_zero, takeWhile_append_of_stops hspace hopen,
    dropWhile_append_of_stops hspace hopen, takeWhile_append_of_stops hindex hclose,
    dropWhile_append_of_stops hindex hclose]
  rw [if_neg (text_ne block (by decide))]

theorem ofAccess_write (name : List Char) (space : Space) {index : Size} (hi : index.isPlain)
    (ty : Ty) (e : Expr) :
    ofAccess name (space.text.toList ++ '[' :: (index.text.toList ++ ']' :: ':' :: ' ' ::
        (ty.text.toList ++ ' ' :: '<' :: '-' :: ' ' :: e.text.toList))) =
      write name space.text.toList index.text.toList ty.text.toList e.text.toList := by
  have hspace := space.all_nameChar_text
  have hindex := Size.all_scalarChar_text hi
  have hty := ty.all_tyChar_text
  have hopen {rest : List Char} : Stops nameChar ('[' :: rest) := stops_cons.mpr (by decide)
  have hclose {rest : List Char} : Stops scalarChar (']' :: rest) := stops_cons.mpr (by decide)
  have hblank {rest : List Char} : Stops tyChar (' ' :: rest) := stops_cons.mpr (by decide)
  simp only [ofAccess, List.drop_succ_cons, List.drop_zero, takeWhile_append_of_stops hspace hopen,
    dropWhile_append_of_stops hspace hopen, takeWhile_append_of_stops hindex hclose,
    dropWhile_append_of_stops hindex hclose, takeWhile_append_of_stops hty hblank,
    dropWhile_append_of_stops hty hblank]

/-- Two characters that end a line. -/
theorem dropLast_dropLast (text : List Char) (c d : Char) :
    (text ++ [c, d]).dropLast.dropLast = text := by
  rw [List.append_cons, List.dropLast_concat, List.dropLast_concat]

theorem ofLine_branch (cond : List Char) :
    ofLine ('i' :: 'f' :: ' ' :: (cond ++ [' ', '\x7b'])) = branch cond := by
  show branch (cond ++ [' ', '\x7b']).dropLast.dropLast = branch cond
  rw [dropLast_dropLast]

/-- What stands on both sides of `<` in the first line of a loop or of a kernel. -/
theorem bounds_of_inner {x : Name} (hx : x.isPlain) (bound : List Char) :
    let inner := (x.text.toList ++ ' ' :: '<' :: ' ' :: (bound ++ [' ', '\x7b'])).dropLast.dropLast
    inner.takeWhile nameChar = x.text.toList ∧ (inner.dropWhile nameChar).drop 3 = bound := by
  have hname := Name.all_nameChar_text hx
  have hstop : Stops nameChar (' ' :: '<' :: ' ' :: bound) := stops_cons.mpr (by decide)
  have hinner : (x.text.toList ++ ' ' :: '<' :: ' ' :: (bound ++ [' ', '\x7b'])).dropLast.dropLast =
      x.text.toList ++ ' ' :: '<' :: ' ' :: bound := by
    rw [← dropLast_dropLast (x.text.toList ++ ' ' :: '<' :: ' ' :: bound) ' ' '\x7b']
    simp
  simp only [hinner, takeWhile_append_of_stops hname hstop, dropWhile_append_of_stops hname hstop,
    List.drop_succ_cons, List.drop_zero, and_self]

theorem ofLine_loop {x : Name} (hx : x.isPlain) (bound : List Char) :
    ofLine ('f' :: 'o' :: 'r' :: ' ' :: (x.text.toList ++ ' ' :: '<' :: ' ' ::
      (bound ++ [' ', '\x7b']))) = loop x.text.toList bound := by
  obtain ⟨hcounter, hbound⟩ := bounds_of_inner hx bound
  exact congrArg₂ loop hcounter hbound

theorem ofLine_kernel {x : Name} (hx : x.isPlain) (count : List Char) :
    ofLine ('k' :: 'e' :: 'r' :: 'n' :: 'e' :: 'l' :: ' ' :: (x.text.toList ++ ' ' :: '<' :: ' ' ::
      (count ++ [' ', '\x7b']))) = kernel x.text.toList count := by
  obtain ⟨hindex, hcount⟩ := bounds_of_inner hx count
  exact congrArg₂ kernel hindex hcount

/-- A line that begins with a name. -/
theorem ofLine_name {x : Name} (hx : x.isPlain) {c : Char} (hc : nameChar c = false)
    (rest : List Char) : ofLine (x.text.toList ++ c :: rest) =
      if c = '@' then ofAccess x.text.toList rest
      else ofAssignment x.text.toList (rest.drop 3) := by
  have hname := Name.all_nameChar_text hx
  have hstop : Stops nameChar (c :: rest) := by simpa using hc
  have hvar : x.text.toList ≠ "var".toList := text_ne x (by decide)
  have hif : x.text.toList ≠ "if".toList := text_ne x (by decide)
  have hfor : x.text.toList ≠ "for".toList := text_ne x (by decide)
  have hkernel : x.text.toList ≠ "kernel".toList := text_ne x (by decide)
  rw [ofLine, takeWhile_append_of_stops hname hstop, dropWhile_append_of_stops hname hstop]
  simp only [if_neg hvar, if_neg hif, if_neg hfor, if_neg hkernel, List.head?_cons, Option.mem_some,
    List.drop_succ_cons, List.drop_zero]

end Heading

/-- **The first line of a statement tells its form**, and the parts as they are written. -/
theorem Stmt.ofLine_firstLine {s : Stmt} (hs : s.isPlain) :
    ∃ first rest, s.lines = first :: rest ∧ Heading.ofLine first.toList = s.heading := by
  match s with
  | .declareScalar x ty =>
    refine ⟨_, _, rfl, Eq.trans ?_ (Heading.ofDeclaration_scalar hs ty)⟩
    simp only [String.toList_append, List.append_assoc]
    rfl
  | .declareBlock x space =>
    refine ⟨_, _, rfl, Eq.trans ?_ (Heading.ofDeclaration_block hs space)⟩
    simp only [String.toList_append, List.append_assoc]
    rfl
  | .allocate block size space =>
    rw [isPlain, Bool.and_eq_true] at hs
    refine ⟨_, _, rfl, Eq.trans ?_ (Heading.ofAssignment_allocate block.text.toList space size)⟩
    simp only [String.toList_append, List.append_assoc]
    exact Heading.ofLine_name hs.1 (by decide) _
  | .set x value =>
    rw [isPlain, Bool.and_eq_true] at hs
    refine ⟨_, _, rfl, Eq.trans ?_ (Heading.ofAssignment_set x.text.toList hs.2)⟩
    simp only [String.toList_append, List.append_assoc]
    exact Heading.ofLine_name hs.1 (by decide) _
  | .read dest block index element space =>
    simp only [isPlain, Bool.and_eq_true] at hs
    refine ⟨_, _, rfl,
      Eq.trans ?_ (Heading.ofAssignment_read dest.text.toList hs.1.2 space hs.2 element)⟩
    simp only [String.toList_append, List.append_assoc]
    exact Heading.ofLine_name hs.1.1 (by decide) _
  | .write block index element space value =>
    simp only [isPlain, Bool.and_eq_true] at hs
    refine ⟨_, _, rfl,
      Eq.trans ?_ (Heading.ofAccess_write block.text.toList space hs.1.2 element value)⟩
    simp only [String.toList_append, List.append_assoc]
    exact Heading.ofLine_name hs.1.1 (by decide) _
  | .branch cond yes no =>
    refine ⟨_, _, rfl, Eq.trans ?_ (Heading.ofLine_branch cond.text.toList)⟩
    simp only [String.toList_append, List.append_assoc]
    rfl
  | .loop counter bound body =>
    simp only [isPlain, Bool.and_eq_true] at hs
    refine ⟨_, _, rfl, Eq.trans ?_ (Heading.ofLine_loop hs.1.1 bound.text.toList)⟩
    simp only [String.toList_append, List.append_assoc]
    rfl
  | .kernel ⟨threadIndex, threadCount, copyIn, copyOut, body⟩ =>
    simp only [isPlain, Kernel.isPlain, Bool.and_eq_true] at hs
    refine ⟨_, _, rfl, Eq.trans ?_ (Heading.ofLine_kernel hs.1.1.1.1 threadCount.text.toList)⟩
    simp only [String.toList_append, List.append_assoc]
    rfl

example : Heading.ofLine "alloc_1 <- alloc@host(n_0 + 2)".toList =
    .allocate "alloc_1".toList "host".toList "n_0 + 2".toList := rfl

end KernelGen
