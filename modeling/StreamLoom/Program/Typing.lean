import StreamLoom.Program.Basic

/-!
# Types of identifiers

The type of an identifier which does not declare one is the join of the types of its bodies. Since
identifiers refer to each other, types are found in rounds, each of which uses what the rounds before
have found. At the end the guards, indices and bodies are checked.
-/

namespace StreamLoom.Typing

/-- The types of the inputs and, as far as they are known, of the identifiers. -/
structure Context where
  inputs : List ValueType
  identifiers : List ValueType

/-- The error at a node, which may not be written anywhere. -/
def errorAt (origin : Option Origin) (message : String) : SyntaxError :=
  match origin with
  | some o => o.error message
  | none => ⟨.unknown, .origin, message⟩

/-- The type of an application, which is unknown when the operands do not fit. -/
def applied (origin : Option Origin) (op : Op) (operands : List ValueType) :
    ValueType × List SyntaxError :=
  match op.resultType operands with
  | .ok t => (t, [])
  | .error mismatch => (.unknown, [errorAt origin mismatch.message])

mutual

/-- The type of an expression, and the errors in it. -/
def typeOf (c : Context) : Expr → ValueType × List SyntaxError
  | .constant _ value => (value.type, [])
  | .iterator _ _ => (.int, [])
  | .element _ target _ => (c.identifiers.getD target .unknown, [])
  | .input _ i _ => (c.inputs.getD i .unknown, [])
  | .apply origin op operands =>
    let (types, errors) := typesOf c operands
    let (t, more) := applied origin op types
    (t, errors ++ more)
  | .reduce origin op _ _ _ body =>
    let (t, errors) := typeOf c body
    let (t, more) := applied origin op [t, t]
    (t, errors ++ more)

def typesOf (c : Context) : List Expr → List ValueType × List SyntaxError
  | [] => ([], [])
  | e :: rest =>
    let (t, errors) := typeOf c e
    let (ts, more) := typesOf c rest
    (t :: ts, errors ++ more)

end

/-! ### Inference -/

/-- The join of the types of some patterns with a type found before. -/
def joinBodies (c : Context) (result : ValueType) (errors : List SyntaxError) :
    List Pattern → ValueType × List SyntaxError
  | [] => (result, errors)
  | p :: rest =>
    let (t, more) := typeOf c p.body
    match result.join t with
    | .ok joined => joinBodies c joined (errors ++ more) rest
    | .error mismatch => (.unknown, errors ++ more ++ [errorAt p.body.origin mismatch.message])

/-- Goes through the identifiers from number `i` on. A type that becomes known is used at once. -/
def round (inputs : List ValueType) (i : Nat) (types : List ValueType) :
    List Identifier → Except (List SyntaxError) (List ValueType)
  | [] => .ok types
  | id :: rest =>
    let (t, errors) := joinBodies ⟨inputs, types⟩ .unknown [] id.patterns
    if !errors.isEmpty then .error errors
    else if types.getD i .unknown = .unknown then round inputs (i + 1) (types.set i t) rest
    else round inputs (i + 1) types rest

/-- Repeats rounds as often as the count says, or until nothing becomes known. Every other round
finds the type of an identifier, so that their number bounds the count. -/
def rounds (inputs : List ValueType) (ids : List Identifier) :
    Nat → List ValueType → Except (List SyntaxError) (List ValueType)
  | 0, types => .ok types
  | count + 1, types => do
    let next ← round inputs 0 types ids
    if next = types then return types else rounds inputs ids count next

/-! ### Checks -/

mutual

/-- The errors of indices inside an expression, which have to be integers. -/
def indexErrors (c : Context) : Expr → List SyntaxError
  | .constant _ _ | .iterator _ _ => []
  | .element _ _ indices | .input _ _ indices => indexListErrors c indices
  | .apply _ _ operands => operandIndexErrors c operands
  | .reduce _ _ _ _ _ body => indexErrors c body

def operandIndexErrors (c : Context) : List Expr → List SyntaxError
  | [] => []
  | e :: rest => indexErrors c e ++ operandIndexErrors c rest

def indexListErrors (c : Context) : List Expr → List SyntaxError
  | [] => []
  | e :: rest =>
    let (t, errors) := typeOf c e
    errors ++ (if t = .int then [] else [errorAt e.origin "index must be integer"]) ++
      indexErrors c e ++ indexListErrors c rest

end

/-- The errors of a pattern: a guard is a truth value, and a body is one when the identifier is. -/
def patternErrors (c : Context) (type : ValueType) (p : Pattern) : List SyntaxError :=
  let guardErrors := match p.guard with
    | none => []
    | some g =>
      let (t, errors) := typeOf c g
      errors ++ if t = .bool then [] else [errorAt g.origin "guard must be boolean"]
  let (t, bodyErrors) := typeOf c p.body
  let misfit := if t ≠ .unknown ∧ (t = .bool) ≠ (type = .bool) then
      [errorAt p.body.origin ("expected " ++ type.text ++ " (found " ++ t.text ++ ")")]
    else []
  guardErrors ++ bodyErrors ++ misfit ++ indexErrors c p.body

def identifierErrors (c : Context) (id : Identifier) (type : ValueType) : List SyntaxError :=
  if type = .unknown then [id.origin.error ("unable to infer type of " ++ id.name)]
  else id.patterns.flatMap (patternErrors c type)

/-- The program with the types of all its identifiers, or the errors that its types have. -/
def infer (p : Program) : Except (List SyntaxError) Program := do
  let inputs := p.inputs.map (·.type)
  let types ← rounds inputs p.identifiers (p.identifiers.length + 1) (p.identifiers.map (·.type))
  let errors := (p.identifiers.zip types).flatMap fun (id, t) => identifierErrors ⟨inputs, types⟩ id t
  if errors.isEmpty then
    return { p with identifiers := List.zipWith (fun id type => { id with type }) p.identifiers types }
  else .error errors

end StreamLoom.Typing
