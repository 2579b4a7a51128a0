import StreamLoom.Model.Basic

/-!
# Description of models

How a model is written: its arrays, its statements and its dependencies, one after another. The
storage of an array is written once it is known.
-/

namespace StreamLoom

namespace Extent

def text (e : Extent) : String := e.elim "inf" toString

end Extent

namespace Buffer

/-- The period of a stream, once it has one. -/
def periodText (b : Buffer) : String :=
  if b.period > 0 then " period=" ++ toString b.period ++ " offset=" ++ toString b.offset else ""

def storageText (b : Buffer) : String :=
  if b.sizes.isEmpty then ""
  else " buffer=" ++ Text.integers b.sizes ++ " order=" ++ Text.naturals b.order ++
    " inter-period=" ++ toString b.outlives

end Buffer

def DataArray.text (a : DataArray) : String :=
  "array " ++ a.name ++ ": " ++ a.type.text ++ " [" ++ " ".intercalate (a.extents.map Extent.text) ++
    "]" ++ (if a.input.isSome then " input" else "") ++ (if a.isOutput then " output" else "") ++
    (if a.isInfinite then a.buffer.periodText else "") ++ a.buffer.storageText

namespace Model

variable [Arithmetic]

def text (m : Model) : String :=
  let arrays := m.arrays.map fun a => a.text ++ "\n"
  let statements := m.statements.map fun s =>
    "statement " ++ s.name ++ ": " ++ s.domain.text ++ "\n  = " ++ s.computation.text ++ "\n"
  let dependencies := m.dependencies.map fun d =>
    "dependency " ++ m.nameOf d.producer ++ " -> " ++ m.nameOf d.consumer ++ ": " ++
      d.relation.text ++ "\n"
  String.join (arrays ++ statements ++ dependencies)

end Model

end StreamLoom
