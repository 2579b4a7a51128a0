import StreamLoom.Program.Expr
import StreamLoom.Text.Listing

/-!
# Programs

A program consists of inputs, which come from outside, and of identifiers, each of which is defined
by patterns. A dimension without an extent is that of a stream: there is no end to it.
-/

namespace StreamLoom

/-- The extent of a dimension, unless the dimension is infinite. -/
abbrev Extent := Option Int

namespace Extent

def isInfinite (e : Extent) : Bool := e.isNone

/-- An infinite extent is written as minus one in a listing. -/
def code (e : Extent) : Int := e.getD (-1)

end Extent

structure Input where
  name : String
  type : ValueType
  extents : List Extent

def Input.isStream (i : Input) : Bool := i.extents.any (·.isNone)

/-- An index of a pattern: a variable, or a fixed value. -/
inductive PatternIndex where
  | var (name : String)
  | fixed (value : Int)
deriving DecidableEq, Repr

/-- A definition of those elements whose indices match and satisfy the guard. -/
structure Pattern where
  origin : Origin
  indices : List PatternIndex
  guard : Option Expr
  body : Expr

structure Identifier where
  name : String
  origin : Origin
  type : ValueType
  /-- Whether the extents have been declared. -/
  declared : Bool
  extents : List Extent
  patterns : List Pattern

/-- The number of dimensions, which the patterns tell when no extents are declared. -/
def Identifier.rank (id : Identifier) : Nat :=
  match id.declared, id.patterns with
  | false, p :: _ => p.indices.length
  | _, _ => id.extents.length

structure Program where
  version : String := ""
  inputs : List Input := []
  identifiers : List Identifier := []
  output : Option Nat := none

namespace Program

/-- The number of the identifier with a given name. -/
def identifier? (p : Program) (name : String) : Option Nat :=
  p.identifiers.findIdx? (·.name == name)

/-- The number of the input with a given name. -/
def input? (p : Program) (name : String) : Option Nat :=
  p.inputs.findIdx? (·.name == name)

end Program

end StreamLoom
