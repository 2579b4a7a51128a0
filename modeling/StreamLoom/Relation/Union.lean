import StreamLoom.Relation.Guarded

/-!
# Unions

An ordered collection of sets or relations between different spaces, such as the domains of all
statements of a program or all dependencies between them. The members keep their order.
-/

namespace StreamLoom

/-- Sets, possibly of different spaces. -/
structure SetUnion where
  sets : List PointSet := []
deriving DecidableEq, Repr

namespace SetUnion

def add (u : SetUnion) (s : PointSet) : SetUnion := ⟨u.sets ++ [s]⟩

def union (u o : SetUnion) : SetUnion := ⟨u.sets ++ o.sets⟩

/-- The sets over a given space. -/
def get (u : SetUnion) (name : String) : List PointSet := u.sets.filter (·.name == name)

def isEmpty [Arithmetic] (u : SetUnion) : Bool := u.sets.all (·.isEmpty)

/-- Looks no further than the first set which has a point. -/
def isEmpty? [Arithmetic] (u : SetUnion) : Except Fault Bool :=
  u.sets.foldlM (fun empty s => if empty then s.isEmpty? else pure false) true

def text [Arithmetic] (u : SetUnion) : String := "\n".intercalate (u.sets.map (·.text))

end SetUnion

/-- Relations, possibly between different spaces. -/
structure RelationUnion where
  relations : List Relation := []
deriving DecidableEq, Repr

namespace RelationUnion

def add (u : RelationUnion) (m : Relation) : RelationUnion := ⟨u.relations ++ [m]⟩

def union (u o : RelationUnion) : RelationUnion := ⟨u.relations ++ o.relations⟩

/-- The relations on a given input space. -/
def get (u : RelationUnion) (source : String) : List Relation :=
  u.relations.filter (·.source == source)

variable [Arithmetic]

def reverse? (u : RelationUnion) : Except Fault RelationUnion := do
  return ⟨← u.relations.mapM (·.reverse?)⟩

/-- The relation on each set of its input space, unless nothing is left of it. -/
def restrict? (domains : SetUnion) (m : Relation) : Except Fault (List Relation) := do
  let parts ← (domains.get m.source).mapM fun s => do
    let part ← m.intersectDomain? s
    return if ← part.isEmpty? then none else some part
  return parts.filterMap id

/-- Restricts every relation to the sets of its input space. -/
def intersectDomain? (u : RelationUnion) (domains : SetUnion) : Except Fault RelationUnion := do
  return ⟨(← u.relations.mapM (restrict? domains)).flatten⟩

def text (u : RelationUnion) : String := "\n".intercalate (u.relations.map (·.text))

end RelationUnion

end StreamLoom
