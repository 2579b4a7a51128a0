import StreamLoom.Arithmetic.Basic
import StreamLoom.Program.Declaration

/-!
# Resolution of bodies

A term denotes an expression once it is known what the names in it stand for. Index variables come
first, then truth values and numbers, then what the program declares.

Affine arithmetic on a single index variable is folded on the way.
-/

namespace StreamLoom

/-- The dimensions that variables in scope stand for, the innermost first. Reduction variables are
numbered after all dimensions of the pattern. -/
structure Scope where
  vars : List (String × Nat) := []
  dims : Nat := 0

namespace Scope

def find? (s : Scope) (name : String) : Option Nat := s.vars.lookup name

def bind (s : Scope) (name : String) : Scope := ⟨(name, s.dims) :: s.vars, s.dims + 1⟩

end Scope

namespace Expr

variable [Arithmetic]

/-- The index variable and the integer of two operands in this order. -/
def iteratorAndInt : Expr → Expr → Option (IteratorValue × Int)
  | iterator _ v, constant _ (.int c) => some (v, c)
  | _, _ => none

/-- The value of affine arithmetic on an index variable, if that is what an application is. -/
def folded : Op → List Expr → Option IteratorValue
  | .negate, [iterator _ v] => some ⟨v.dim, fit (-v.ratio), fit (-v.offset)⟩
  | .add, [a, b] => do
    let (v, c) ← (iteratorAndInt a b).or (iteratorAndInt b a)
    return ⟨v.dim, v.ratio, fit (v.offset + c)⟩
  | .subtract, [a, b] => do
    let (v, c) ← iteratorAndInt a b
    return ⟨v.dim, v.ratio, fit (v.offset - c)⟩
  | .multiply, [a, b] => do
    let (v, c) ← (iteratorAndInt a b).or (iteratorAndInt b a)
    return ⟨v.dim, fit (v.ratio * c), fit (v.offset * c)⟩
  | _, _ => none

/-- An application at its origin, folded where it is affine arithmetic on an index variable. -/
def applied (origin : Origin) (op : Op) (operands : List Expr) : Expr :=
  match folded op operands with
  | some v => iterator origin v
  | none => apply origin op operands

/-- The left-associative application of a binary operation to more than two operands, of which only
the whole is written somewhere. -/
def chained (origin : Origin) (op : Op) (a b : Expr) (rest : List Expr) : Expr :=
  (rest.foldl (fun e arg => apply none op [e, arg]) (apply none op [a, b])).located origin

end Expr

namespace Program

variable [Arithmetic]

/-- What a name denotes which the program declares. -/
def reference? (p : Program) (origin : Origin) (name : String) (indices : List Expr) :
    Option Expr :=
  match p.identifier? name, p.input? name with
  | some target, _ => some (.element origin target indices)
  | none, some i => some (.input origin i indices)
  | none, none => none

def symbolExpr (p : Program) (scope : Scope) (origin : Origin) (value : String) :
    Except SyntaxError Expr :=
  match scope.find? value with
  | some dim => .ok (.iterator origin (.ofDim dim))
  | none =>
    if value = "true" ∨ value = "false" then .ok (.constant origin (.bool (value == "true")))
    else match Numeral.integer? value, Numeral.real? value, p.reference? origin value [] with
      | some n, _, _ => .ok (.constant origin (.int n))
      | none, some x, _ => .ok (.constant origin (.real x))
      | none, none, some e => .ok e
      | none, none, none => .error (origin.error "unknown symbol")

/-- The expression of an application whose operands have been resolved. -/
def applicationExpr (p : Program) (origin headOrigin : Origin) (head : String)
    (args : List Expr) : Except SyntaxError Expr :=
  match p.reference? origin head args with
  | some e => .ok e
  | none =>
    if head = "-" ∧ args.length = 1 then .ok (.applied origin .negate args)
    else match Op.find? head, args with
      | none, _ => .error (headOrigin.error "unknown operator")
      | some op, a :: b :: c :: rest =>
        if op.arity = 2 ∧ !op.isComparison then .ok (.chained origin op a b (c :: rest))
        else if op.arity ≠ args.length then
          .error (origin.error (op.name ++ " expects " ++ toString op.arity ++ " operands"))
        else .ok (.applied origin op args)
      | some op, _ =>
        if op.arity ≠ args.length then
          .error (origin.error (op.name ++ " expects " ++ toString op.arity ++ " operands"))
        else .ok (.applied origin op args)

/-- What a reduction folds: the operation, and the variable with its range. -/
structure Reduction where
  op : Op
  var : String
  lower : Int
  upper : Int

/-- The head of `(reduce op [var lower upper] body)`. -/
def reductionHead (file : SourceFile) (origin : Origin) (opTerm rangeTerm : Term) :
    Except SyntaxError Reduction :=
  let shape := "expected (reduce op [var lower upper] body)"
  match opTerm.symbol?, rangeTerm.array? with
  | some word, some [varTerm, lowerTerm, upperTerm] =>
    match varTerm.symbol? with
    | none => .error (origin.error shape)
    | some var =>
      match (Op.find? word).filter fun op => op.arity = 2 && !op.isComparison with
      | none => .error (Origin.error ⟨file, opTerm.span⟩ "expected binary operator")
      | some op =>
        match lowerTerm.symbol?.bind Numeral.integer?, upperTerm.symbol?.bind Numeral.integer? with
        | some lower, some upper =>
          if lower ≤ upper then .ok ⟨op, var, lower, upper⟩
          else .error (Origin.error ⟨file, rangeTerm.span⟩ "invalid reduction range")
        | _, _ => .error (Origin.error ⟨file, rangeTerm.span⟩ "invalid reduction range")
  | _, _ => .error (origin.error shape)

mutual

/-- The expression that a term denotes. -/
def resolve (p : Program) (file : SourceFile) (scope : Scope) : Term → Except SyntaxError Expr
  | .symbol span value => p.symbolExpr scope ⟨file, span⟩ value
  | .group span .square _ => .error (Origin.error ⟨file, span⟩ "unexpected term")
  | .group span .round (.symbol headSpan head :: args) =>
    let origin : Origin := ⟨file, span⟩
    if head = "reduce" then
      match args with
      | [opTerm, rangeTerm, body] => do
        let r ← reductionHead file origin opTerm rangeTerm
        let e ← resolve p file (scope.bind r.var) body
        return .reduce origin r.op scope.dims r.lower r.upper e
      | _ => .error (origin.error "expected (reduce op [var lower upper] body)")
    else do
      let operands ← resolveAll p file scope args
      p.applicationExpr origin ⟨file, headSpan⟩ head operands
  | .group span .round _ => .error (Origin.error ⟨file, span⟩ "expected application")

def resolveAll (p : Program) (file : SourceFile) (scope : Scope) :
    List Term → Except SyntaxError (List Expr)
  | [] => .ok []
  | t :: rest => do
    let e ← resolve p file scope t
    return e :: (← resolveAll p file scope rest)

end

/-! ### Patterns -/

/-- Whether a word can name an index variable. -/
def isVariable (word : String) : Bool :=
  match word.toList with
  | [] => false
  | c :: rest =>
    (c == '_' || c.isAlpha) && rest.all fun c => c == '_' || c.isAlpha || c.isDigit

/-- The indices of a pattern from dimension `dim` on, and the variables in scope after them. -/
def patternIndices (file : SourceFile) (scope : Scope) (dim : Nat) :
    List Term → Except SyntaxError (List PatternIndex × Scope)
  | [] => .ok ([], { scope with dims := dim })
  | t :: rest =>
    match t.symbol?.bind Numeral.integer?, t.symbol? with
    | some n, _ => do
      let (indices, scope) ← patternIndices file scope (dim + 1) rest
      return (.fixed n :: indices, scope)
    | none, some word =>
      if !isVariable word then
        .error (Origin.error ⟨file, t.span⟩ "expected index variable or integer")
      else if (scope.find? word).isSome then
        .error (Origin.error ⟨file, t.span⟩ "duplicate index variable")
      else do
        let scope := { scope with vars := (word, dim) :: scope.vars }
        let (indices, scope) ← patternIndices file scope (dim + 1) rest
        return (.var word :: indices, scope)
    | none, none => .error (Origin.error ⟨file, t.span⟩ "expected index variable or integer")

/-- The condition of `(when condition)`. -/
def guardTerm (file : SourceFile) (t : Term) : Except SyntaxError Term :=
  match t.list? with
  | some [head, condition] =>
    if head.symbol? = some "when" then .ok condition
    else .error (Origin.error ⟨file, t.span⟩ "expected (when guard)")
  | _ => .error (Origin.error ⟨file, t.span⟩ "expected (when guard)")

/-- The pattern of a term `(pattern [indices] [(when guard)] body)`. -/
def patternOf (p : Program) (file : SourceFile) (t : Term) : Except SyntaxError Pattern :=
  let origin : Origin := ⟨file, t.span⟩
  let shape := origin.error "expected (pattern [indices] [(when guard)] body)"
  match t.list? with
  | some (head :: indexTerm :: rest) =>
    match indexTerm.array?, rest with
    | some indexTerms, [bodyTerm] => do
      if head.symbol? ≠ some "pattern" then .error shape else
      let (indices, scope) ← patternIndices file {} 0 indexTerms
      return ⟨origin, indices, none, ← p.resolve file scope bodyTerm⟩
    | some indexTerms, [whenTerm, bodyTerm] => do
      if head.symbol? ≠ some "pattern" then .error shape else
      let (indices, scope) ← patternIndices file {} 0 indexTerms
      let guard ← p.resolve file scope (← guardTerm file whenTerm)
      return ⟨origin, indices, some guard, ← p.resolve file scope bodyTerm⟩
    | _, _ => .error shape
  | _ => .error shape

/-- The patterns of some terms, and the errors of those which have none. -/
def patternsOf (p : Program) (file : SourceFile) :
    List Term → List Pattern × List SyntaxError
  | [] => ([], [])
  | t :: rest =>
    let (patterns, errors) := p.patternsOf file rest
    match p.patternOf file t with
    | .ok pattern => (pattern :: patterns, errors)
    | .error e => (patterns, e :: errors)

/-- Patterns which tell the rank of an identifier have to agree on it. -/
def rankErrors (id : Identifier) (definition : Definition) : List Pattern → List SyntaxError
  | first :: rest =>
    if !id.declared && rest.any (·.indices.length != first.indices.length) then
      [Origin.error ⟨definition.file, definition.term.span⟩ "patterns have inconsistent ranks"]
    else []
  | [] => []

/-- The patterns of a definition, and the errors in it. -/
def bodiesOf (p : Program) (id : Identifier) (definition : Definition) :
    List Pattern × List SyntaxError :=
  if definition.isScalar then
    match definition.bodies.map (p.resolve definition.file {}) with
    | [.ok body] => ([⟨id.origin, [], none, body⟩], [])
    | [.error e] => ([], [e])
    | _ => ([], [])
  else
    let (patterns, errors) := p.patternsOf definition.file definition.bodies
    (patterns, errors ++ rankErrors id definition patterns)

end Program

end StreamLoom
