/-!
# Types of values

The elements of an array are truth values, integers or reals. While types are being inferred a type
may also be unknown.
-/

namespace StreamLoom

inductive ValueType where
  | unknown
  | bool
  | int
  | real
deriving DecidableEq, Repr, Inhabited

namespace ValueType

/-- The type with a given name. -/
def ofName? : String → Option ValueType
  | "bool" => some bool
  | "int" => some int
  | "real" => some real
  | _ => none

def text : ValueType → String
  | unknown => "?"
  | bool => "bool"
  | int => "int"
  | real => "real"

@[simp] theorem ofName?_text {t : ValueType} (h : t ≠ unknown) : ofName? t.text = some t := by
  cases t <;> first | rfl | exact absurd rfl h

/-- Whether arithmetic applies to values of the type. -/
def isNumeric : ValueType → Bool
  | int | real => true
  | _ => false

end ValueType

/-- The reasons for which operands do not have suitable types. -/
inductive TypeMismatch where
  | incompatible (a b : ValueType)
  | arity (operator : String) (expected found : Nat)
  | notBoolean (operator : String) (found : ValueType)
  | notCondition (operator : String) (found : ValueType)
  | notNumeric (operator : String) (found : ValueType)
deriving DecidableEq, Repr

def TypeMismatch.message : TypeMismatch → String
  | incompatible a b => "incompatible types " ++ a.text ++ " and " ++ b.text
  | arity operator expected found =>
    operator ++ " expects " ++ toString expected ++ " operands (found " ++ toString found ++ ")"
  | notBoolean operator found =>
    operator ++ " expects boolean operands (found " ++ found.text ++ ")"
  | notCondition operator found =>
    operator ++ " expects boolean condition (found " ++ found.text ++ ")"
  | notNumeric operator found =>
    operator ++ " expects numeric operands (found " ++ found.text ++ ")"

/-- The least type that holds the values of two types. An unknown type goes with any other, and
integers become reals, but truth values are no numbers. -/
def ValueType.join (a b : ValueType) : Except TypeMismatch ValueType :=
  if a = .unknown then .ok b
  else if b = .unknown ∨ a = b then .ok a
  else if a.isNumeric && b.isNumeric then .ok .real
  else .error (.incompatible a b)

end StreamLoom
