import StreamLoom.Model.Access
import StreamLoom.Report

/-!
# Building models

Every identifier of a program becomes an array, and every pattern a statement which writes it. Every
stream input becomes an array too, which comes before those of the identifiers. The dependencies
follow from what the statements read and write.
-/

namespace StreamLoom

namespace Program

variable [Arithmetic]

/-! ### Arrays -/

/-- The inputs which are streams, with their numbers. -/
def streams (p : Program) : List (Input × Nat) := (p.inputs.zipIdx).filter (·.1.isStream)

/-- The array of a stream input. -/
def arrayOfInput (p : Program) (input : Nat) : Nat := (p.inputs.take input).countP (·.isStream)

/-- The array of an identifier. -/
def arrayOfIdentifier (p : Program) (identifier : Nat) : Nat := p.streams.length + identifier

def inputArray (i : Input) (number : Nat) : DataArray :=
  { name := i.name, type := i.type, extents := i.extents, input := some number }

/-- The array of an identifier. Without declared extents it is a scalar or a plain stream. -/
def identifierArray (p : Program) (id : Identifier) (number : Nat) : Except Failure DataArray :=
  let array (extents : List Extent) : DataArray :=
    { name := id.name, type := id.type, extents, isOutput := p.output == some number }
  match id.declared, id.rank with
  | true, _ => .ok (array id.extents)
  | false, 0 => .ok (array [])
  | false, 1 => .ok (array [none])
  | false, rank => .error (.unmodelledAt id.origin ("array " ++ id.name ++ " of rank " ++
      toString rank ++ " requires declared extents"))

def identifierArrays (p : Program) : Except Failure (List DataArray) :=
  (p.identifiers.zipIdx).mapM fun (id, number) => p.identifierArray id number

/-- The statement that copies a stream input into its array. -/
def inputStatement (array : DataArray) (input number : Nat) : Statement where
  name := array.name
  domain := array.domain
  computation := .input input array.type
    ⟨Statement.writing array.domain array, (List.range array.rank).map (Affine.var array.rank)⟩
  array := number
  write := Statement.writing array.domain array
  flow := array.flow
  origin := none

/-! ### Computations -/

/-- The access to an element of an array. -/
def accessArray (arrays : List DataArray) (f : Frame) (origin : Option Origin) (number : Nat)
    (indices : List Expr) : Except Failure Computation :=
  match arrays[number]? with
  | some array => do
    return .read number array.type (← Access.make f origin array.domain array.flow indices)
  | none => .error (.unmodelledAt origin "unknown array")

/-- The access to an element of an input. Streams are read from their arrays. -/
def accessInput (p : Program) (arrays : List DataArray) (f : Frame) (origin : Option Origin)
    (number : Nat) (indices : List Expr) : Except Failure Computation :=
  match p.inputs[number]? with
  | some input =>
    if input.isStream then accessArray arrays f origin (p.arrayOfInput number) indices
    else do
      let access ← Access.make f origin (.box input.name input.extents) none indices
      return .input number input.type access
  | none => .error (.unmodelledAt origin "unknown input")

/-- An application, whose operands determine its type. -/
def applied (origin : Option Origin) (op : Op) (operands : List Computation) :
    Except Failure Computation :=
  match op.resultType (operands.map (·.type)) with
  | .ok type => .ok (.apply op type operands)
  | .error mismatch => .error (.unmodelledAt origin mismatch.message)

/-- A reduction, which combines two values of its body at a time. -/
def reduced (origin : Option Origin) (op : Op) (dim : Nat) (lower upper : Int)
    (body : Computation) : Except Failure Computation :=
  match op.resultType [body.type, body.type] with
  | .ok type => .ok (.reduce op type dim lower upper body)
  | .error mismatch => .error (.unmodelledAt origin mismatch.message)

mutual

/-- The computation of an expression. -/
def computation (p : Program) (arrays : List DataArray) (f : Frame) :
    Expr → Except Failure Computation
  | .constant _ value => .ok (.constant value)
  | .iterator _ value => .ok (.iterator value)
  | .element origin target indices =>
    accessArray arrays f origin (p.arrayOfIdentifier target) indices
  | .input origin i indices => p.accessInput arrays f origin i indices
  | .apply origin op operands => do applied origin op (← p.computations arrays f operands)
  | .reduce origin op dim lower upper body => do
    reduced origin op dim lower upper (← p.computation arrays (f.within lower upper) body)

def computations (p : Program) (arrays : List DataArray) (f : Frame) :
    List Expr → Except Failure (List Computation)
  | [] => .ok []
  | e :: rest => do
    let c ← p.computation arrays f e
    return c :: (← p.computations arrays f rest)

end

/-! ### Statements -/

/-- The elements that a pattern defines. -/
def patternDomain (array : DataArray) (name : String) (pattern : Pattern) :
    Except Failure PointSet := do
  let fixed := (pattern.indices.zipIdx).foldl (fun (s : PointSet) (index, dim) =>
    match index with
    | .fixed value => s.fix dim value
    | .var _ => s) (array.domain.rename name)
  match pattern.guard with
  | none => return fixed
  | some guard => return fixed.constrain (← Guard.constraints array.rank false guard)

/-- The statements of an identifier are numbered when there are several. -/
def statementName (id : Identifier) (k : Nat) : String :=
  if id.patterns.length > 1 then id.name ++ "_" ++ toString k else id.name

/-- The statement of a pattern. -/
def patternStatement (p : Program) (arrays : List DataArray) (id : Identifier) (number : Nat)
    (array : DataArray) (pattern : Pattern) (k : Nat) : Stage Statement := do
  let name := statementName id k
  if pattern.indices.length ≠ array.rank then
    throw (.unmodelledAt pattern.origin ("pattern has " ++ toString pattern.indices.length ++
      " indices, but " ++ id.name ++ " has rank " ++ toString array.rank))
  let domain ← Stage.ofExcept (patternDomain array name pattern)
  if domain.isEmpty then
    Stage.warn ("pattern " ++ toString k ++ " of " ++ id.name ++ " defines no elements")
  let computation ← Stage.ofExcept (p.computation arrays ⟨name, domain, []⟩ pattern.body)
  Stage.debug ("statement " ++ name ++ ": " ++ domain.text ++ " = " ++ computation.text)
  return ⟨name, domain, computation, number, Statement.writing domain array, array.flow,
    some pattern.origin⟩

/-- The statements of an identifier. -/
def identifierStatements (p : Program) (arrays : List DataArray) (id : Identifier) (i : Nat) :
    Stage (List Statement) :=
  match arrays[p.arrayOfIdentifier i]? with
  | some array => (id.patterns.zipIdx).mapM fun (pattern, k) =>
      p.patternStatement arrays id (p.arrayOfIdentifier i) array pattern k
  | none => return []

end Program

namespace Model

variable [Arithmetic]

/-- The pairs of different elements of a list, in order. -/
def pairsOf : List α → List (α × α)
  | [] => []
  | x :: rest => rest.map (x, ·) ++ pairsOf rest

/-- Two statements that write the same element of an array. -/
def overlap? (statements : List Statement) : Option (Statement × Statement) :=
  (pairsOf statements).find? fun (first, second) =>
    !(second.domain.intersect first.domain).isIntegerEmpty

/-- No element may be written by two statements. -/
def checkOverlaps (arrays : List DataArray) (statements : List Statement) : Except Failure Unit :=
  (arrays.zipIdx).forM fun (array, i) =>
    match overlap? (statements.filter (·.array == i)) with
    | none => .ok ()
    | some (first, second) => .error (.unmodelledAt second.origin ("pattern " ++ second.name ++
        " overlaps pattern " ++ first.name ++ " of array " ++ array.name))

/-- What a statement reads of the values that the given producers write. A read has the number of its array,
and for a program that was read, this is the array that its relation names (`Model.lookup?_read`). -/
def dependenciesOn (producers : List (Statement × Nat)) (consumer : Nat) (read : Read) :
    List Dependency :=
  (producers.filter (·.1.array == read.array)).filterMap fun (producer, p) =>
    let relation := read.relation.compose producer.write.reverse
    if relation.isEmpty then none else some ⟨p, consumer, read.array, relation⟩

/-- Every dependency between statements. -/
def dependenciesOf (statements : List Statement) : List Dependency :=
  (statements.zipIdx).flatMap fun (consumer, c) =>
    consumer.reads.flatMap (dependenciesOn statements.zipIdx c)

/-- The model of a program. -/
def build (p : Program) : Stage Model := do
  let inputArrays := p.streams.map fun (i, number) => Program.inputArray i number
  let copies := ((inputArrays.zip (p.streams.map (·.2))).zipIdx).map fun ((array, input), k) =>
    Program.inputStatement array input k
  copies.forM fun s => Stage.debug ("input statement " ++ s.name ++ ": " ++ s.domain.text)
  let arrays := inputArrays ++ (← Stage.ofExcept p.identifierArrays)
  let written ← (p.identifiers.zipIdx).mapM fun (id, i) => p.identifierStatements arrays id i
  let statements := copies ++ written.flatten
  Stage.ofExcept (checkOverlaps arrays statements)
  let model : Model :=
    ⟨arrays, statements, dependenciesOf statements, p.inputs, p.output.map p.arrayOfIdentifier⟩
  model.dependencies.forM fun d => Stage.debug ("dependency " ++ model.nameOf d.producer ++ " -> " ++
    model.nameOf d.consumer ++ ": " ++ d.relation.text)
  return model

end Model

end StreamLoom
