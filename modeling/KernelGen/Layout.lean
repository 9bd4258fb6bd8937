import KernelGen.Size

/-! # Layouts

A layout says where in its block the elements of an array lie. The elements of an array
of extents `d₀, …, d_{r-1}` are stored row by row from an offset on, so that the element
with indices `i₀, …, i_{r-1}` stands at

    offset + i₀ * s₀ + … + i_{r-1} * s_{r-1}

where the stride `s_k` is the number of elements in a row of the dimensions after `k`.
The strides follow from the extents and are not stored. -/
namespace KernelGen

/-- Where the elements of an array lie inside its block. -/
structure Layout where
  /-- The position of the first element. -/
  offset : Size
  /-- The extents, outermost dimension first. -/
  shape : List Size
deriving DecidableEq

namespace Layout

/-- Row by row from the start of the block. -/
def rowMajor (shape : List Size) : Layout := ⟨.const 0, shape⟩

/-- The same elements, `distance` further into the block. -/
def shift (l : Layout) (distance : Size) : Layout := { l with offset := l.offset.plus distance }

/-- The number of dimensions. -/
def rank (l : Layout) : Nat := l.shape.length

/-- The number of elements under these extents; the innermost extent is the first factor. -/
def extent : List Size → Size
  | [] => .const 1
  | d :: ds => (extent ds).times d

/-- The stride of every dimension: the number of elements under the extents after it. -/
def stridesOf : List Size → List Size
  | [] => []
  | _ :: ds => extent ds :: stridesOf ds

/-- How far apart neighbours in each dimension lie. -/
def strides (l : Layout) : List Size := stridesOf l.shape

/-- The position of an element. Indices that are left out at the end count as zero, which
gives the first element of a row. -/
def position (l : Layout) (indices : List Size) : Size :=
  (indices.zip l.strides).foldl (fun acc (i, s) => acc.plus (i.times s)) l.offset

/-- The variables of the offset, the extents and the strides, in order, with repeats. -/
def occurrences (l : Layout) : List Name :=
  l.offset.occurrences ++ (l.shape ++ l.strides).flatMap Size.occurrences

/-- The offset, then each extent with its stride. -/
def text (l : Layout) : String :=
  let dims := (l.shape.zip l.strides).map fun (d, s) => d.text ++ ":" ++ s.text
  "ixfun \x7b offset: " ++ l.offset.text ++ ", shape: [" ++ ", ".intercalate dims ++ "] \x7d"

@[simp] theorem shape_shift (l : Layout) (distance : Size) : (l.shift distance).shape = l.shape :=
  rfl

@[simp] theorem strides_shift (l : Layout) (distance : Size) :
    (l.shift distance).strides = l.strides := rfl

@[simp] theorem rank_shift (l : Layout) (distance : Size) : (l.shift distance).rank = l.rank := rfl

end Layout

end KernelGen
