import StreamLoom.Lowering.Walk
import StreamLoom.Nest.Generation
import StreamLoom.Report

/-!
# Listings of statements

A target which writes down what is emitted, one line per instruction. Values are the expressions that
they stand for.
-/

namespace StreamLoom.Lowering

/-- The lines of a listing, and what is needed to continue it. -/
structure Listing where
  lines : List String := []
  depth : Nat := 0
  temporaries : Nat := 0
  records : List Record := []

namespace Listing

abbrev Writing := ExceptT Failure (StateM Listing)

def line (text : String) : Writing Unit :=
  modify fun l => { l with
    lines := l.lines ++ [String.join (List.replicate l.depth "  ") ++ text] }

/-- Writes a part two blanks deeper. -/
def deeper (part : Writing Unit) : Writing Unit := do
  modify fun l => { l with depth := l.depth + 1 }
  part
  modify fun l => { l with depth := l.depth - 1 }

def nameOf (model : Model) (array : Nat) : String := (model.arrays[array]?).elim "" (·.name)

/-- Listings have no arc tangent. -/
def primitive (op : Op) (operand result : ValueType) (operands : List String) : Writing String := do
  if op = .atan then throw (.unsupported "recorder" op.name)
  line (op.name ++ " " ++ operand.text ++ "->" ++ result.text)
  return "(" ++ " ".intercalate (op.name :: operands) ++ ")"

def temporary (type : ValueType) : Writing String := do
  let l ← get
  let name := "tmp" ++ toString l.temporaries
  set { l with temporaries := l.temporaries + 1 }
  line ("var " ++ name ++ " " ++ type.text)
  return name

/-- A reduction variable is named for its depth. -/
def loop (lower upper : Int) (body : String → Writing Unit) : Writing Unit := do
  let name := "r" ++ toString (← get).depth
  line ("for " ++ name ++ " in " ++ toString lower ++ ".." ++ toString upper)
  deeper (body name)
  line "end"

def branch (condition : String) (first second : Writing Unit) : Writing Unit := do
  line ("if " ++ condition)
  deeper first
  line "else"
  deeper second
  line "end"

def target (model : Model) : Target Writing String where
  constant c := return c.text
  convert v source target :=
    return if source = target then v else source.text ++ "->" ++ target.text ++ "(" ++ v ++ ")"
  index x := return toString x
  indexAdd a b := return "(" ++ a ++ " + " ++ b ++ ")"
  indexMul a b := return "(" ++ a ++ " * " ++ b ++ ")"
  indexMod v modulus := return "mod(" ++ v ++ ", " ++ toString modulus ++ ")"
  phase array := return "phase(" ++ nameOf model array ++ ")"
  period := return "period"
  load array offset := do
    let element := nameOf model array ++ "[" ++ offset ++ "]"
    line ("load " ++ element)
    return element
  store array offset v := line ("store " ++ nameOf model array ++ "[" ++ offset ++ "] = " ++ v)
  loadInput input offset := do
    line ("input " ++ toString input ++ "[" ++ offset ++ "]")
    return "in" ++ toString input ++ "[" ++ offset ++ "]"
  storeOutput offset v := line ("output[" ++ offset ++ "] = " ++ v)
  primitive := primitive
  temporary := temporary
  assign x v := line (x ++ " = " ++ v)
  use x := return x
  branch := branch
  loop := loop
  note text := modify fun l => { l with records := l.records ++ [⟨.debug, text⟩] }

/-- The listing of a statement in one of the phases, at the point that its iterators give. -/
def ofStatement [Arithmetic] (model : Model) (number : Nat) (steady : Bool) :
    Except Failure Unit × Listing :=
  let dims := (model.statements[number]?).elim 0 (·.dims)
  let index := "0" :: (List.range dims).map Nest.iteratorName
  StateT.run (ExceptT.run (statement model (target model) number index steady)) {}

end Listing

end StreamLoom.Lowering
