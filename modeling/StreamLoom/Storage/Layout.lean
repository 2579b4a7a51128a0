import StreamLoom.Model.Basic

/-!
# Layout of buffers

The elements of an array are held in a buffer that wraps around along one dimension, the carrier. The
phase of a buffer turns it along the carrier, so that the element `e` is held at

    ((Σ e[d] * strides[d]) + phase * slice) mod length
-/

namespace StreamLoom

structure Layout where
  /-- The dimensions in the order in which they are stored. -/
  order : List Nat
  /-- The distance between elements which are adjacent in a dimension. -/
  strides : List Int
  /-- The number of indices of the carrier which are kept. -/
  slots : Int
  /-- The number of elements per index of the carrier. -/
  slice : Int
  length : Int
deriving DecidableEq, Repr

namespace Layout

/-- The dimension along which the buffer wraps around. -/
def carrier (l : Layout) : Option Nat := l.order.head?

variable [Arithmetic]

/-- The distance between elements which are adjacent in a dimension: everything that is stored
further inside lies between them. -/
def strideOf (rank : Nat) (b : Buffer) (d : Nat) : Int :=
  match b.order.idxOf? d with
  | some j => Arithmetic.product ((b.sizes.take rank).drop (j + 1))
  | none => 0

/-- The layout of an array of the given rank. -/
def ofBuffer (rank : Nat) (b : Buffer) : Layout where
  order := b.order
  strides := (List.range rank).map (strideOf rank b)
  slots := if rank = 0 then 1 else b.sizes.headD 1
  slice := Arithmetic.product b.sizes.tail
  length := b.length

/-- The offset of an element under a phase. -/
def flatten (l : Layout) (index : List Int) (phase : Int) : Int :=
  Arithmetic.residue (fit (phase * l.slice + Arithmetic.dot index l.strides)) l.length

/-- The indices of the given dimensions at what is left of an offset. -/
def insideIndices (l : Layout) : List Nat → Int → List (Nat × Int)
  | [], _ => []
  | d :: ds, rest =>
    let stride := l.strides.getD d 0
    (d, Arithmetic.truncDiv rest stride) :: l.insideIndices ds (rest.tmod stride)

/-- The element at an offset under a phase. Its index along the carrier is known up to the number of
slots. -/
def unflatten (l : Layout) (flat phase : Int) : List Int :=
  match l.order with
  | [] => l.strides.map fun _ => 0
  | c :: ds =>
    let outer := Arithmetic.residue (fit (Arithmetic.truncDiv flat l.slice - phase)) l.slots
    let indices := (c, outer) :: l.insideIndices ds (flat.tmod l.slice)
    (List.range l.strides.length).map fun d => (indices.reverse.lookup d).getD 0

/-- The phase of a buffer after a period. -/
def advance (l : Layout) (phase period : Int) : Int :=
  Arithmetic.residue (fit (phase + period)) l.slots

/-! ### Guarded forms -/

/-- The layout of an array, which has to have a buffer of its rank. -/
def ofArray? (a : DataArray) : Except Fault Layout := do
  let rank := a.rank
  if rank ≠ 0 then
    require (a.buffer.order.length == rank)
      (.broken ("array " ++ a.name ++ " has not been allocated"))
    require (rank ≤ a.buffer.sizes.length && a.buffer.order.all (· < rank)) .indexOutOfRange
  return ofBuffer rank a.buffer

def flatten? (l : Layout) (index : List Int) (phase : Int) : Except Fault Int := do
  require (index.length == l.strides.length) (.broken "index has incorrect dimension")
  Arithmetic.nonzero l.length
  return l.flatten index phase

/-- Every stride that is divided by has to be positive, and so has the number of slots. -/
def unflatten? (l : Layout) (flat phase : Int) : Except Fault (List Int) := do
  if !l.strides.isEmpty then
    require (!l.order.isEmpty) .indexOutOfRange
    Arithmetic.nonzero l.slice
    Arithmetic.nonzero l.slots
    l.order.tail.forM fun d => Arithmetic.nonzero (l.strides.getD d 0)
  return l.unflatten flat phase

def advance? (l : Layout) (phase period : Int) : Except Fault Int := do
  Arithmetic.nonzero l.slots
  return l.advance phase period

end Layout

end StreamLoom
