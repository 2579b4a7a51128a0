import StreamLoom.Arithmetic.Division
import StreamLoom.Text.Listing

/-!
# Affine forms

An affine form over `n` variables is a constant plus a multiple of each variable. Access patterns,
time rows and constraints are all made of affine forms.

Operations that combine two forms expect them over the same variables; the forms that end in `?`
check this and everything else their operands promise.
-/

namespace StreamLoom

/-- The form `const + Σ coeffs[i] * x[i]`. -/
structure Affine where
  coeffs : List Int
  const : Int
deriving DecidableEq, Repr

namespace Affine

/-- The number of variables. -/
def vars (a : Affine) : Nat := a.coeffs.length

def coeff (a : Affine) (i : Nat) : Int := a.coeffs.getD i 0

def constant (n : Nat) (c : Int) : Affine := ⟨List.replicate n 0, c⟩

/-- The `i`th of `n` variables. -/
def var (n i : Nat) : Affine := ⟨(List.replicate n 0).set i 1, 0⟩

def setCoeff (a : Affine) (i : Nat) (c : Int) : Affine := { a with coeffs := a.coeffs.set i c }

def isConstant (a : Affine) : Bool := a.coeffs.all (· == 0)

/-- Appends `k` variables that the form does not mention. -/
def extend (a : Affine) (k : Nat) : Affine := { a with coeffs := a.coeffs ++ List.replicate k 0 }

@[simp] theorem vars_constant (n : Nat) (c : Int) : (constant n c).vars = n := by
  simp [vars, constant]

@[simp] theorem vars_var (n i : Nat) : (var n i).vars = n := by
  simp [vars, var]

@[simp] theorem vars_extend (a : Affine) (k : Nat) : (a.extend k).vars = a.vars + k := by
  simp [vars, extend]

variable [Arithmetic]

def add (a b : Affine) : Affine :=
  ⟨List.zipWith (fun x y => fit (x + y)) a.coeffs b.coeffs, fit (a.const + b.const)⟩

def sub (a b : Affine) : Affine :=
  ⟨List.zipWith (fun x y => fit (x - y)) a.coeffs b.coeffs, fit (a.const - b.const)⟩

def scale (a : Affine) (k : Int) : Affine :=
  ⟨a.coeffs.map fun x => fit (x * k), fit (a.const * k)⟩

def plus (a : Affine) (c : Int) : Affine := { a with const := fit (a.const + c) }

def neg (a : Affine) : Affine := a.scale (-1)

@[simp] theorem vars_scale (a : Affine) (k : Int) : (a.scale k).vars = a.vars := by
  simp [vars, scale]

@[simp] theorem vars_plus (a : Affine) (c : Int) : (a.plus c).vars = a.vars := rfl

@[simp] theorem vars_add (a b : Affine) : (a.add b).vars = min a.vars b.vars := by
  simp [vars, add]

@[simp] theorem vars_sub (a b : Affine) : (a.sub b).vars = min a.vars b.vars := by
  simp [vars, sub]

@[simp] theorem vars_neg (a : Affine) : a.neg.vars = a.vars := by
  simp [neg]

/-- The value of the form at a point. -/
def eval (a : Affine) (point : List Int) : Int :=
  fit (a.const + Arithmetic.dot a.coeffs point)

/-- Moves variable `i` of the form to variable `places[i]` of a space of `n` variables. -/
def remap (a : Affine) (n : Nat) (places : List Nat) : Affine where
  coeffs := (List.range n).map fun j =>
    fit ((a.coeffs.zip places).foldl (fun sum (c, place) => if place = j then sum + c else sum) 0)
  const := a.const

@[simp] theorem vars_remap (a : Affine) (n : Nat) (places : List Nat) :
    (a.remap n places).vars = n := by
  simp [vars, remap]

/-! ### Text -/

/-- A term of a form which is not its first. -/
private def laterTerm (c : Int) (name : String) : String :=
  if c = 1 then " + " ++ name
  else if c = -1 then " - " ++ name
  else if c < 0 then " - " ++ toString (fit (-c)) ++ name
  else " + " ++ toString c ++ name

private def firstTerm (c : Int) (name : String) : String :=
  if c = 1 then name
  else if c = -1 then "-" ++ name
  else toString c ++ name

/-- The terms whose coefficients are not zero. A term counts as the first as long as nothing has been
written, which matters when a variable has no name. -/
def termsWith (a : Affine) (names : List String) : String :=
  (a.coeffs.zipIdx).foldl (fun text (c, i) =>
    let name := names.getD i ""
    if c = 0 then text
    else if text.isEmpty then firstTerm c name
    else text ++ laterTerm c name) ""

/-- The terms of a form, followed by the constant unless it is zero. -/
def textWith (a : Affine) (names : List String) : String :=
  let terms := a.termsWith names
  if terms.isEmpty then toString a.const
  else if a.const < 0 then terms ++ " - " ++ toString (fit (-a.const))
  else if a.const > 0 then terms ++ " + " ++ toString a.const
  else terms

def text (a : Affine) : String := a.textWith (Text.numbered "x" a.vars)

/-! ### Guarded forms -/

/-- A form over `n` variables can only mention those. -/
def var? (n i : Int) : Except Fault Affine := do
  let n ← countOf n
  require (0 ≤ i && i < n) .indexOutOfRange
  return var n i.toNat

def coeff? (a : Affine) (i : Int) : Except Fault Int := elementAt a.coeffs i

def sameVars (a b : Affine) : Except Fault Unit :=
  require (a.vars == b.vars) (.broken ("incompatible affine expressions (" ++ toString a.vars ++
    " vs " ++ toString b.vars ++ " variables)"))

def add? (a b : Affine) : Except Fault Affine := do
  sameVars a b
  return a.add b

def sub? (a b : Affine) : Except Fault Affine := do
  sameVars a b
  return a.sub b

def eval? (a : Affine) (point : List Int) : Except Fault Int := do
  require (point.length == a.vars) (.broken ("invalid point (expected " ++ toString a.vars ++
    " values, got " ++ toString point.length ++ ")"))
  return a.eval point

/-- Every variable needs a place, and the place has to exist. -/
def placed (n : Nat) (vars : Nat) (places : List Int) : Except Fault Unit :=
  require (vars ≤ places.length && (places.take vars).all fun p => 0 ≤ p && p < n) .indexOutOfRange

def remap? (a : Affine) (n : Int) (places : List Int) : Except Fault Affine := do
  let n ← countOf n
  placed n a.vars places
  return a.remap n (places.map Int.toNat)

def extend? (a : Affine) (k : Int) : Except Fault Affine := do
  return a.extend (← countOf k)

/-- Every variable that is mentioned needs a name. -/
def named (a : Affine) (names : Nat) : Except Fault Unit :=
  require ((a.coeffs.drop names).all (· == 0)) .indexOutOfRange

def textWith? (a : Affine) (names : List String) : Except Fault String := do
  a.named names.length
  return a.textWith names

end Affine

end StreamLoom
