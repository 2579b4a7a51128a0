import StreamLoom.Decimal.Numeral
import StreamLoom.Files
import StreamLoom.Program.Basic
import StreamLoom.Program.Version
import StreamLoom.Report
import StreamLoom.Term.Parser

/-!
# Declarations

Reading a program starts with the declarations of all its files, so that the bodies which are
resolved afterwards can refer to each other in any order. An import declares what is in another
file at the place where it stands, unless that file has been declared before.
-/

namespace StreamLoom

/-- The definition of an identifier, which is yet to be resolved. -/
structure Definition where
  file : SourceFile
  term : Term
  /-- The parts that define the identifier: a single expression for a scalar, patterns otherwise. -/
  bodies : List Term
  isScalar : Bool

/-- What has been declared so far. -/
structure Draft where
  program : Program := {}
  /-- One definition per identifier. -/
  definitions : List Definition := []
  /-- The name of the output, and where it is written. -/
  output : Option (Origin × String) := none
  /-- The files that need not be declared again, by absolute path. -/
  visited : List String := []
  /-- The paths at which imports have been looked for. -/
  probed : List String := []
  errors : List SyntaxError := []
  records : List Record := []

/-- Where the files of a program are found, and what is a version in them. -/
structure Library where
  files : FileTree
  /-- Directories in which imports are looked for. -/
  importDirs : List String := []
  [versions : Versioning]

/-- The extension that imports leave out. -/
def Library.extension : String := ".fun"

namespace Draft

abbrev Declaring := StateM Draft

def fail (origin : Origin) (message : String) : Declaring Unit :=
  modify fun d => { d with errors := d.errors ++ [origin.error message] }

def debug (message : String) : Declaring Unit :=
  modify fun d => { d with records := d.records ++ [⟨.debug, message⟩] }

/-- The position of a term in a file. -/
def place (file : SourceFile) (t : Term) : Origin := ⟨file, t.span⟩

/-! ### Parts of declarations -/

/-- The extents that an array lists. At most one of them is infinite. -/
def extents (file : SourceFile) (infinite : Bool) : List Term → Except SyntaxError (List Extent)
  | [] => .ok []
  | t :: rest =>
    if t.symbol? = some "inf" then
      if infinite then .error ((place file t).error "multiple infinite dimensions")
      else (extents file true rest).map (none :: ·)
    else match t.symbol?.bind Numeral.integer? with
      | some n =>
        if n > 0 then (extents file infinite rest).map (some n :: ·)
        else .error ((place file t).error "invalid extent")
      | none => .error ((place file t).error "invalid extent")

/-- The extents of a term, which has to be an array. -/
def extentsOf (file : SourceFile) (t : Term) : Except SyntaxError (List Extent) :=
  match t.array? with
  | some elements => extents file false elements
  | none => .error ((place file t).error "expected extents")

/-- The type that a symbol names. -/
def typeOf (file : SourceFile) (t : Term) (name : String) : Except SyntaxError ValueType :=
  match ValueType.ofName? name with
  | some type => .ok type
  | none => .error ((place file t).error "unknown type")

/-- A name can be declared only once, and operations keep their names. -/
def checkFresh (p : Program) (file : SourceFile) (t : Term) (name : String) :
    Except SyntaxError Unit :=
  if (p.identifier? name).isSome || (p.input? name).isSome then
    .error ((place file t).error (name ++ " already declared"))
  else if (Op.find? name).isSome then
    .error ((place file t).error (name ++ " is a primitive operator"))
  else .ok ()

def extentsText (extents : List Extent) : String := Text.integers (extents.map Extent.code)

/-! ### Declarations -/

def declareVersion (library : Library) (file : SourceFile) (term : Term) : List Term → Declaring Unit
  | [_, .symbol span value] => do
    let text := Term.unquoted value
    let origin : Origin := ⟨file, span⟩
    match library.versions.parse text with
    | .error reason => fail origin ("invalid version (" ++ reason ++ ")")
    | .ok version =>
      if !library.versions.isSupported version then
        fail origin ("unsupported version " ++ text ++ " (require " ++ Version.supported ++ ")")
      else modify fun d =>
        if d.program.version.isEmpty then
          { d with program := { d.program with version := library.versions.text version } }
        else d
  | _ => fail (place file term) "expected (version \"x.y.z\")"

/-- The input of a declaration `(input name type [extents])`. -/
def inputOf (p : Program) (file : SourceFile) (term : Term) : List Term → Except SyntaxError Input
  | _ :: t :: u :: rest =>
    match t.symbol?, u.symbol?, rest with
    | some name, some type, [] => do
      let type ← typeOf file u type
      checkFresh p file t name
      return ⟨name, type, []⟩
    | some name, some type, [v] => do
      let type ← typeOf file u type
      checkFresh p file t name
      return ⟨name, type, ← extentsOf file v⟩
    | _, _, _ => .error ((place file term).error "expected (input name type [extents])")
  | _ => .error ((place file term).error "expected (input name type [extents])")

def declareInput (file : SourceFile) (term : Term) (elements : List Term) : Declaring Unit := do
  match inputOf (← get).program file term elements with
  | .error e => modify fun d => { d with errors := d.errors ++ [e] }
  | .ok input =>
    debug ("declared input " ++ input.name ++ " of type " ++ input.type.text ++ " with extents " ++
      extentsText input.extents)
    modify fun d => { d with program := { d.program with inputs := d.program.inputs ++ [input] } }

/-- The identifier of a declaration `(array name [type] [extents] patterns...)`, and its patterns. -/
def arrayOf (p : Program) (file : SourceFile) (term : Term) :
    List Term → Except SyntaxError (Identifier × List Term)
  | _ :: t :: rest =>
    match t.symbol? with
    | none =>
      .error ((place file term).error "expected (array name [type] [extents] patterns...)")
    | some name => do
      checkFresh p file t name
      let (type, rest) ← match rest with
        | u :: more =>
          match u.symbol? with
          | some word => do pure (← typeOf file u word, more)
          | none => pure (.unknown, u :: more)
        | [] => pure (.unknown, [])
      let (extents, rest) ← match rest with
        | u :: more =>
          match u.array? with
          | some elements => do pure (some (← extents file false elements), more)
          | none => pure (none, u :: more)
        | [] => pure (none, [])
      if rest.isEmpty then .error ((place file term).error "array has no patterns")
      else .ok (⟨name, place file term, type, extents.isSome, extents.getD [], []⟩, rest)
  | _ => .error ((place file term).error "expected (array name [type] [extents] patterns...)")

/-- The scalar of a declaration `(define name [type] expr)`, and its expression. -/
def scalarOf (p : Program) (file : SourceFile) (term : Term) :
    List Term → Except SyntaxError (Identifier × List Term)
  | _ :: t :: rest =>
    match t.symbol?, rest with
    | some name, [body] => do
      checkFresh p file t name
      return (⟨name, place file term, .unknown, true, [], []⟩, [body])
    | some name, [u, body] => do
      checkFresh p file t name
      match u.symbol? with
      | none => .error ((place file u).error "expected type")
      | some word => return (⟨name, place file term, ← typeOf file u word, true, [], []⟩, [body])
    | _, _ => .error ((place file term).error "expected (define name [type] expr)")
  | _ => .error ((place file term).error "expected (define name [type] expr)")

/-- Adds an identifier whose bodies are to be resolved later. -/
def declareIdentifier (file : SourceFile) (term : Term) (isScalar : Bool)
    (declared : Except SyntaxError (Identifier × List Term)) : Declaring Unit := do
  match declared with
  | .error e => modify fun d => { d with errors := d.errors ++ [e] }
  | .ok (id, bodies) =>
    modify fun d => { d with
      program := { d.program with identifiers := d.program.identifiers ++ [id] }
      definitions := d.definitions ++ [⟨file, term, bodies, isScalar⟩] }
    debug (if isScalar then "declared scalar " ++ id.name
      else "declared array " ++ id.name ++ " with extents " ++ extentsText id.extents)

def declareOutput (file : SourceFile) (term : Term) (elements : List Term) : Declaring Unit := do
  if (← get).output.isSome then fail (place file term) "multiple outputs declared"
  else match elements with
    | [_, .symbol span name] => modify fun d => { d with output := some (⟨file, span⟩, name) }
    | _ => fail (place file term) "expected (output name)"

/-- Looks for an import in one directory after the other. Each file is declared only once. -/
def importFrom (library : Library) (declareFile : SourceFile → Declaring Unit) (origin : Origin)
    (name : String) : List String → Declaring Unit
  | [] => fail origin ("unable to find import " ++ name)
  | directory :: rest => do
    let path := Path.join directory (name ++ Library.extension)
    let absolute := library.files.absolute path
    modify fun d => { d with probed := d.probed ++ [absolute] }
    match library.files.find? path with
    | none => importFrom library declareFile origin name rest
    | some _ =>
      if (← get).visited.contains absolute then return
      modify fun d => { d with visited := d.visited ++ [absolute] }
      match library.files.read path with
      | .error reason => fail origin reason
      | .ok contents =>
        debug ("importing " ++ name ++ " from " ++ path)
        declareFile ⟨path, contents.toList⟩

def declareImport (library : Library) (declareFile : SourceFile → Declaring Unit)
    (file : SourceFile) (term : Term) : List Term → Declaring Unit
  | [_, .symbol span value] =>
    importFrom library declareFile ⟨file, span⟩ (Term.unquoted value)
      (Path.parent file.name :: library.importDirs)
  | _ => fail (place file term) "expected (import name)"

/-- Declares a term of a file, where `declareFile` declares a file that it imports. -/
def declareTerm (library : Library) (declareFile : SourceFile → Declaring Unit)
    (file : SourceFile) (term : Term) : Declaring Unit := do
  match term.list? with
  | some (.symbol span head :: rest) =>
    let elements := .symbol span head :: rest
    match head with
    | "version" => declareVersion library file term elements
    | "import" => declareImport library declareFile file term elements
    | "input" => declareInput file term elements
    | "array" => declareIdentifier file term false (arrayOf (← get).program file term elements)
    | "define" => declareIdentifier file term true (scalarOf (← get).program file term elements)
    | "output" => declareOutput file term elements
    | _ => fail ⟨file, span⟩ "unknown declaration"
  | _ => fail (place file term) "expected declaration"

/-- Declares a file, following imports up to the given depth. Since every import leads to a file
that has not been visited, the number of files bounds the depth. -/
def declareFile (library : Library) : Nat → SourceFile → Declaring Unit
  | 0, _ => pure ()
  | depth + 1, file =>
    let parsed := Term.parse file
    match parsed.error with
    | some e => modify fun d => { d with errors := d.errors ++ [e] }
    | none => parsed.terms.forM (declareTerm library (declareFile library depth) file)

/-- Declares the files of a program in the order given. -/
def declareAll (library : Library) (files : List SourceFile) : Declaring Unit :=
  files.forM fun file => do
    modify fun d => { d with visited := d.visited ++ [library.files.absolute file.name] }
    declareFile library (library.files.size + 1) file

end Draft

end StreamLoom
