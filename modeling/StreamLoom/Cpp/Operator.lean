import StreamLoom.Program.Op

/-!
# Spelling of operations in C++

Every operation is written as an operator of the language, before or between its operands, or as
the call of a function.
-/

namespace StreamLoom.Cpp

/-- How an operation is written. -/
structure Spelling where
  text : String
  /-- Whether it is an operator of the language rather than a function. -/
  isOperator : Bool

def spelling : Op → Spelling
  | .negate => ⟨"-", true⟩
  | .add => ⟨"+", true⟩
  | .subtract => ⟨"-", true⟩
  | .multiply => ⟨"*", true⟩
  | .divide => ⟨"/", true⟩
  | .divideInteger => ⟨"floor_div", false⟩
  | .modulo => ⟨"mod", false⟩
  | .raise => ⟨"std::pow", false⟩
  | .equal => ⟨"==", true⟩
  | .notEqual => ⟨"!=", true⟩
  | .less => ⟨"<", true⟩
  | .lessEqual => ⟨"<=", true⟩
  | .greater => ⟨">", true⟩
  | .greaterEqual => ⟨">=", true⟩
  | .and => ⟨"&&", true⟩
  | .or => ⟨"||", true⟩
  | .not => ⟨"!", true⟩
  | .conditional => ⟨"?:", true⟩
  | op => ⟨"std::" ++ op.name, false⟩

end StreamLoom.Cpp
