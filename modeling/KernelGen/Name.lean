/-! # Names

A name is a base, chosen for the reader, and a tag that tells it from every other name
of the same base. Programs take their tags from one counter (`NameSource`), so two
names drawn from it are never equal, whatever their bases.

The written form is `base_tag`. A base may hold underscores of its own, so a written
name is read at its *last* underscore. -/
namespace KernelGen

/-- A variable name. -/
structure Name where
  /-- What the reader sees; any text, the empty one included. -/
  base : String
  /-- What makes the name unique. -/
  tag : Nat
deriving DecidableEq

namespace Name

/-- `base_tag`, the tag in decimal. -/
def text (n : Name) : String := s!"{n.base}_{n.tag}"

instance : ToString Name := ⟨text⟩

/-- Names are ordered by base, character by character, and then by tag as a number. -/
def le (a b : Name) : Bool :=
  decide (a.base < b.base) || (decide (a.base = b.base) && decide (a.tag ≤ b.tag))

/-- The names in order; names that are equal keep their places. -/
def sort (names : List Name) : List Name := names.mergeSort le

/-! ## Reading -/

/-- The number a decimal numeral denotes; `none` if a character is not a digit, or if
there is no character. -/
def numeral? (digits : List Char) : Option Nat :=
  if digits.isEmpty || !digits.all Char.isDigit then none
  else some (digits.foldl (fun n c => 10 * n + (c.toNat - '0'.toNat)) 0)

/-- The name whose written form `s` is. The text is split at its last underscore;
`none` if it has no underscore or no numeral after it. -/
def ofText? (s : String) : Option Name :=
  let reversed := s.toList.reverse
  match reversed.dropWhile (· != '_') with
  | [] => none
  | _ :: base =>
    (numeral? (reversed.takeWhile (· != '_')).reverse).map fun tag =>
      ⟨String.ofList base.reverse, tag⟩

end Name

/-! ## Fresh names -/

/-- A supply of tags: every tag from `next` on is unused. -/
structure NameSource where
  /-- The tag the next name gets. -/
  next : Nat := 0

namespace NameSource

/-- The next name, with the base asked for, and the supply without its tag. -/
def fresh (source : NameSource) (base : String) : Name × NameSource :=
  (⟨base, source.next⟩, ⟨source.next + 1⟩)

/-- One fresh name per base, in order. -/
def freshAll (source : NameSource) : List String → List Name × NameSource
  | [] => ([], source)
  | base :: bases =>
    let (name, source) := source.fresh base
    let (names, source) := source.freshAll bases
    (name :: names, source)

@[simp] theorem fresh_fst (source : NameSource) (base : String) :
    (source.fresh base).1 = ⟨base, source.next⟩ := rfl

@[simp] theorem fresh_snd (source : NameSource) (base : String) :
    (source.fresh base).2 = ⟨source.next + 1⟩ := rfl

end NameSource

end KernelGen
