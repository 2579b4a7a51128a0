import StreamLoom.Cpp.Fragment
import StreamLoom.Cpp.Operator
import StreamLoom.Lowering.Walk
import StreamLoom.Report

/-!
# C++ as a target

Values are expressions, and statements are added to a list. The buffers, their phases and the number
of completed periods are members of a state, to which every function has a pointer.
-/

namespace StreamLoom.Cpp

open Fragment (text int binary)

/-- The statements of the current scope, and how many variables there are. -/
structure Draft where
  statements : List Fragment := []
  temporaries : Nat := 0
  loops : Nat := 0
  records : List Record := []

abbrev Drafting := ExceptT Failure (StateM Draft)

namespace Drafting

def add (statement : Fragment) : Drafting Unit :=
  modify fun d => { d with statements := d.statements ++ [statement] }

/-- The statements that a part adds, in a scope of their own. -/
def nested (part : Drafting Unit) : Drafting (List Fragment) := do
  let outer := (← get).statements
  modify fun d => { d with statements := [] }
  part
  let inner := (← get).statements
  modify fun d => { d with statements := outer }
  return inner

end Drafting

/-! ### Names -/

def typeName : ValueType → Except Fault String
  | .bool => .ok "bool"
  | .int => .ok "int64_t"
  | .real => .ok "double"
  | .unknown => .error (.broken ("unknown type " ++ ValueType.unknown.text))

def typeOf (type : ValueType) : Drafting Fragment :=
  match typeName type with
  | .ok name => return text name
  | .error fault => throw (.fault fault)

def isNameCharacter (c : Char) : Bool := c = '_' || c.isAlphanum

/-- A name in which every other character has become an underscore. -/
def identifier (name : String) : String :=
  String.ofList (name.toList.map fun c => if isNameCharacter c then c else '_')

def bufferName (array : DataArray) : String := "buf_" ++ identifier array.name

def phaseName (array : DataArray) : String := "phase_" ++ identifier array.name

def inputName (input : Nat) : String := "in" ++ toString input

def stateParameter : Fragment := text "s"

def outputParameter : Fragment := text "out"

def ofState (name : String) : Fragment := .member stateParameter name

/-! ### Expressions -/

variable [Arithmetic]

/-- A sum, in which literals have been added up. -/
def indexAdd : Fragment → Fragment → Fragment
  | .int l, .int r => .int (fit (l + r))
  | l, .int r => if r = 0 then l else binary "+" l (.int r)
  | .int l, r => if l = 0 then r else binary "+" (.int l) r
  | l, r => binary "+" l r

/-- A product, in which literals have been multiplied. -/
def indexMul : Fragment → Fragment → Fragment
  | .int l, .int r => .int (fit (l * r))
  | l, .int r => if r = 1 then l else binary "*" l (.int r)
  | .int l, r => if l = 1 then r else binary "*" (.int l) r
  | l, r => binary "*" l r

/-- A remainder, which is known of a literal. -/
def indexMod (v : Fragment) (modulus : Int) : Except Fault Fragment :=
  if modulus = 1 then .ok (int 0)
  else match v with
    | .int x => (Arithmetic.residue? x modulus).map int
    | v => .ok (.call (text "mod") (.commas [v, int modulus]))

def constant : Constant → Fragment
  | .bool value => .bool value
  | .int value => .int value
  | .real value => .real value

def primitive (op : Op) (operands : List Fragment) : Drafting Fragment :=
  let s := spelling op
  match op, s.isOperator, operands with
  | .conditional, _, _ => throw (.fault (.broken "unexpected conditional"))
  | _, true, [x] => return .unary s.text x
  | _, true, [x, y] => return binary s.text x y
  | _, _, _ => return .call (text s.text) (.commas operands)

def convert (v : Fragment) (source target : ValueType) : Drafting Fragment := do
  if source = target then return v else return .cast (← typeOf target) v

/-- The element at an offset of the buffer of an array. -/
def bufferElement (model : Model) (array : Nat) (offset : Fragment) : Drafting Fragment := do
  return .element (ofState (bufferName (← Lowering.arrayAt model array))) offset

/-! ### Statements -/

/-- A new variable, which starts as zero. -/
def temporary (type : ValueType) : Drafting Fragment := do
  let d ← get
  let name := text ("tmp" ++ toString d.temporaries)
  set { d with temporaries := d.temporaries + 1 }
  Drafting.add (.declare (← typeOf type) name (constant (Constant.zero type)))
  return name

def branch (condition : Fragment) (first second : Drafting Unit) : Drafting Unit := do
  let first ← Drafting.nested first
  let second ← Drafting.nested second
  Drafting.add (.branch condition first second)

/-- A loop of a variable between two expressions. -/
def loopOver (name : Fragment) (lower upper : Fragment) (body : List Fragment) : Fragment :=
  .loop (.declare (text "int64_t") name lower) (binary "<=" name upper) (.increment name) body

def loop (lower upper : Int) (body : Fragment → Drafting Unit) : Drafting Unit := do
  let d ← get
  let name := text ("r" ++ toString d.loops)
  set { d with loops := d.loops + 1 }
  let body ← Drafting.nested (body name)
  Drafting.add (loopOver name (int lower) (int upper) body)

def target (model : Model) : Target Drafting Fragment where
  constant c := return constant c
  convert := convert
  index x := return int x
  indexAdd l r := return indexAdd l r
  indexMul l r := return indexMul l r
  indexMod v modulus :=
    match indexMod v modulus with
    | .ok v => return v
    | .error fault => throw (.fault fault)
  phase array := do return ofState (phaseName (← Lowering.arrayAt model array))
  period := return ofState "period"
  load := bufferElement model
  store array offset v := do Drafting.add (.assign (← bufferElement model array offset) v)
  loadInput input offset := return .element (text (inputName input)) offset
  storeOutput offset v := Drafting.add (.assign (.element outputParameter offset) v)
  primitive op _ _ operands := primitive op operands
  temporary := temporary
  assign x v := Drafting.add (.assign x v)
  use x := return x
  branch := branch
  loop := loop
  note message := modify fun d => { d with records := d.records ++ [⟨.debug, message⟩] }

end StreamLoom.Cpp
