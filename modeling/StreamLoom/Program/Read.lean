import StreamLoom.Program.Resolution
import StreamLoom.Program.Typing

/-!
# Reading programs

Reading goes through the declarations of all files, then their bodies, then their types, and stops
after the first of these that has errors.
-/

namespace StreamLoom.Program

variable [Arithmetic]

/-- What reading the files of a program leads to. -/
structure Reading where
  result : Except (List SyntaxError) Program
  records : List Record
  /-- The paths at which imports have been looked for. -/
  probed : List String

/-- The program with the bodies of its identifiers, and the errors in them. -/
def withBodies (p : Program) (definitions : List Definition) : Program × List SyntaxError :=
  let bodies := List.zipWith (p.bodiesOf · ·) p.identifiers definitions
  let identifiers := List.zipWith (fun id (body : List Pattern × List SyntaxError) =>
    { id with patterns := body.1 }) p.identifiers bodies
  ({ p with identifiers }, bodies.flatMap (·.2))

/-- The program with its output, which has to be an identifier. -/
def withOutput (p : Program) : Option (Origin × String) → Program × List SyntaxError
  | none => (p, [])
  | some (origin, name) =>
    match p.identifier? name with
    | some i => ({ p with output := some i }, [])
    | none => (p, [origin.error ("unknown output " ++ name)])

/-- The program that a draft declares, unless there are errors. -/
def complete (d : Draft) : Except (List SyntaxError) Program :=
  if !d.errors.isEmpty then .error d.errors
  else
    let (p, bodyErrors) := d.program.withBodies d.definitions
    let (p, outputErrors) := p.withOutput d.output
    let errors := bodyErrors ++ outputErrors
    if errors.isEmpty then Typing.infer p else .error errors

/-- Reads the files of a program. -/
def read (library : Library) (files : List SourceFile) : Reading :=
  let (_, draft) := (Draft.declareAll library files).run {}
  ⟨complete draft, draft.records, draft.probed⟩

end StreamLoom.Program
