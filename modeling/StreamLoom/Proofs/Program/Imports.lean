import Mathlib.Logic.Relation
import StreamLoom.Program.Declaration
import StreamLoom.Proofs.Files
import StreamLoom.Proofs.Program.Declarations

/-!
# Imports

Which files a file imports depends on what is in it and on where it stands, but not on the path that it
has been named by. So the files of a library form a graph, whose vertices are absolute paths.
-/

namespace StreamLoom

/-- The name in a term `(import name)`. -/
def Term.importName? (t : Term) : Option String :=
  match t.list? with
  | some [.symbol _ "import", .symbol _ value] => some (Term.unquoted value)
  | _ => none

/-- The name in a term that declares one. -/
def Term.declaredName? (t : Term) : Option String :=
  match t.list? with
  | some (.symbol _ head :: .symbol _ name :: _) =>
    if head = "input" ∨ head = "array" ∨ head = "define" then some name else none
  | _ => none

/-- The terms of a file, which are not declared if it cannot be parsed. -/
def Term.declarations (contents : List Char) : List Term :=
  let parsed := Term.parse ⟨"", contents⟩
  if parsed.error.isSome then [] else parsed.terms

theorem Term.declarations_eq (file : SourceFile) : Term.declarations file.contents =
    if (Term.parse file).error.isSome then [] else (Term.parse file).terms := by
  simp only [Term.declarations, Term.parse, Option.isSome_map]

namespace Library

open StreamLoom.Path

variable {library : Library} {name path word contents : String} {file : SourceFile}

/-- The absolute path of a file, by which it is told apart from others. -/
def key (library : Library) (file : SourceFile) : String := library.files.absolute file.name

def Contains (library : Library) (file : SourceFile) : Prop :=
  library.files.read file.name = .ok (String.ofList file.contents)

def isFile (library : Library) (place : String) : Bool :=
  match library.files.entries.lookup place with
  | some (.file _) => true
  | _ => false

/-- The path at which an import in the file of some name is found. -/
def importPath? (library : Library) (name word : String) : Option String :=
  ((parent name :: library.importDirs).map fun directory => join directory (word ++ extension)).find?
    fun path => (library.files.find? path).isSome

def Imports (library : Library) (place place' : String) : Prop :=
  ∃ contents, library.files.entries.lookup place = some (.file contents) ∧
    ∃ t ∈ Term.declarations contents.toList, ∃ word path, t.importName? = some word ∧
      library.importPath? place word = some path ∧ library.files.absolute path = place'

/-- A place is that of a file from which another one is reached by imports. -/
abbrev Reaches (library : Library) : String → String → Prop := Relation.ReflTransGen library.Imports

theorem ne_empty_of_extension (word : String) : word ++ extension ≠ "" := by
  intro h
  have hlength := congrArg String.length h
  rw [String.length_append] at hlength
  have hextension : extension.length = 4 := rfl
  have hempty : "".length = 0 := rfl
  omega

/-- Imports are looked for at cleaned paths. -/
theorem clean_of_importPath? (h : library.importPath? name word = some path) : ∃ p, path = clean p := by
  obtain ⟨directory, -, rfl⟩ := List.mem_map.mp (List.mem_of_find?_eq_some h)
  have hword : (word ++ extension).isEmpty = false :=
    String.isEmpty_eq_false_iff.mpr (ne_empty_of_extension word)
  rw [join, hword]
  cases directory.isEmpty with
  | true => exact ⟨_, rfl⟩
  | false => exact ⟨_, rfl⟩

variable (ht : library.files.WellFormed)

include ht

theorem lookup_of_contains (h : library.Contains file) :
    library.files.entries.lookup (library.key file) = some (.file (String.ofList file.contents)) :=
  library.files.find?_of_read ht h

/-- Imports lead to the same places, by whatever path the file that they stand in has been named. -/
theorem importPath?_absolute (h : library.files.read name = .ok contents) (word : String) :
    (library.importPath? name word).map library.files.absolute =
      (library.importPath? (library.files.absolute name) word).map library.files.absolute := by
  have hsame : library.files.absolute (join (parent name) (word ++ extension)) =
      library.files.absolute (join (parent (library.files.absolute name)) (word ++ extension)) := by
    rw [FileTree.absolute_eq ht.home_absolute, FileTree.absolute_eq ht.home_absolute,
      FileTree.route_join (parent_ne_empty _) (ne_empty_of_extension word),
      FileTree.route_join (parent_ne_empty _) (ne_empty_of_extension word),
      FileTree.route_parent_of_read ht h, FileTree.route_parent_of_read ht (FileTree.read_absolute ht h),
      FileTree.route_absolute ht.home_absolute]
  rw [importPath?, importPath?, List.map_cons, List.map_cons, List.find?_cons, List.find?_cons,
    FileTree.find?, FileTree.find?, hsame]
  split
  · rw [Option.map_some, Option.map_some, hsame]
  · rfl

/-- What a file imports, by the path that it has been named by. -/
theorem imports_iff (h : library.Contains file) {place : String} :
    library.Imports (library.key file) place ↔ ∃ t ∈ Term.declarations file.contents, ∃ path,
      t.importName?.bind (library.importPath? file.name) = some path ∧
        library.files.absolute path = place := by
  have hlookup := library.lookup_of_contains ht h
  have hcontents : (String.ofList file.contents).toList = file.contents := String.toList_ofList
  constructor
  · rintro ⟨contents, hfile, t, hmem, word, path, hword, hpath, rfl⟩
    rw [hlookup] at hfile
    cases hfile
    rw [hcontents] at hmem
    have hsame := library.importPath?_absolute ht h word
    rw [key] at hpath
    rw [hpath, Option.map_some, Option.map_eq_some_iff] at hsame
    obtain ⟨path', hpath', hplace⟩ := hsame
    exact ⟨t, hmem, path', by rw [hword]; exact hpath', hplace⟩
  · rintro ⟨t, hmem, path, hpath, rfl⟩
    obtain ⟨word, hword, hpath⟩ := Option.bind_eq_some_iff.mp hpath
    have hsame := library.importPath?_absolute ht h word
    rw [hpath, Option.map_some] at hsame
    obtain ⟨path', hpath', hplace⟩ := Option.map_eq_some_iff.mp hsame.symm
    exact ⟨_, hlookup, t, by rwa [hcontents], word, path', hword, hpath', hplace⟩

end Library

namespace Draft

open Library

variable {library : Library} {file : SourceFile} {term : Term} {d : Draft}

/-- What an import adds to the visited places, and the file that is to be declared next. -/
def entered (library : Library) (visited : List String) : Option String → List String × Option SourceFile
  | none => ([], none)
  | some path =>
    if library.files.absolute path ∈ visited then ([], none)
    else ([library.files.absolute path], match library.files.read path with
      | .ok contents => some ⟨path, contents.toList⟩
      | .error _ => none)

/-! ### Terms -/

/-- A declaration that visits nothing, and declares no other names than one. -/
structure Adds (name? : Option String) (f : Declaring Unit) : Prop where
  visited : ∀ d, (f d).2.visited = d.visited
  known : ∀ d name, (f d).2.program.Knows name → d.program.Knows name ∨ name? = some name

private theorem adds_of_program {name? : Option String} {f : Declaring Unit}
    (h : ∀ d, (f d).2.visited = d.visited ∧ ∀ name, (f d).2.program.Knows name → d.program.Knows name) :
    Adds name? f :=
  ⟨fun d => (h d).1, fun d name hname => .inl ((h d).2 name hname)⟩

private theorem adds_fail {name? : Option String} (origin : Origin) (message : String) :
    Adds name? (fail origin message) :=
  adds_of_program fun _ => ⟨rfl, fun _ h => h⟩

private theorem adds_declareVersion {name? : Option String} (elements : List Term) :
    Adds name? (declareVersion library file term elements) := by
  unfold declareVersion
  split
  · dsimp only
    split
    · exact adds_fail _ _
    · split
      · exact adds_fail _ _
      · refine adds_of_program fun d => ?_
        change (if d.program.version.isEmpty then _ else d : Draft).visited = _ ∧
          ∀ name, (if d.program.version.isEmpty then _ else d : Draft).program.Knows name → _
        split
        · exact ⟨rfl, fun _ h => h⟩
        · exact ⟨rfl, fun _ h => h⟩
  · exact adds_fail _ _

private theorem adds_get {name? : Option String} {f : Draft → Declaring Unit} (h : ∀ d, Adds name? (f d)) :
    Adds name? (get >>= f) :=
  ⟨fun d => (h d).visited d, fun d => (h d).known d⟩

private theorem adds_declareInput {elements : List Term} {name? : Option String}
    (hname : ∀ name, Names elements name → name? = some name) :
    Adds name? (declareInput file term elements) := by
  refine adds_get fun d => ?_
  split
  · exact adds_of_program fun _ => ⟨rfl, fun _ h => h⟩
  · rename_i input hinput
    refine ⟨fun _ => rfl, fun d name hknown => ?_⟩
    rw [Program.knows_iff] at hknown ⊢
    rcases hknown with hid | ⟨other, hother, rfl⟩
    · exact .inl (.inl hid)
    · rcases List.mem_append.mp hother with hother | hother
      · exact .inl (.inr ⟨other, hother, rfl⟩)
      · rw [List.mem_singleton.mp hother]
        exact .inr (hname _ (declaration_inputOf hinput).1.names)

private theorem adds_declareIdentifier {name? : Option String} (isScalar : Bool)
    {declared : Except SyntaxError (Identifier × List Term)}
    (hname : ∀ id bodies, declared = .ok (id, bodies) → name? = some id.name) :
    Adds name? (declareIdentifier file term isScalar declared) := by
  unfold declareIdentifier
  split
  · exact adds_of_program fun _ => ⟨rfl, fun _ h => h⟩
  · rename_i id bodies
    refine ⟨fun _ => rfl, fun d name hknown => ?_⟩
    rw [Program.knows_iff] at hknown ⊢
    rcases hknown with ⟨other, hother, rfl⟩ | hinput
    · rcases List.mem_append.mp hother with hother | hother
      · exact .inl (.inl ⟨other, hother, rfl⟩)
      · rw [List.mem_singleton.mp hother]
        exact .inr (hname id bodies rfl)
    · exact .inl (.inr hinput)

private theorem adds_declareOutput {name? : Option String} (elements : List Term) :
    Adds name? (declareOutput file term elements) := by
  refine adds_get fun d => ?_
  split
  · exact adds_fail _ _
  · split
    · exact adds_of_program fun _ => ⟨rfl, fun _ h => h⟩
    · exact adds_fail _ _

/-- How a declaration depends on the way in which an imported file is declared: this is the last thing that it
does. Before that it visits no other place than that of the import, and declares no other name than its own. -/
structure Follows (library : Library) (path? name? : Option String)
    (f : (SourceFile → Declaring Unit) → Declaring Unit) (d : Draft) : Prop where
  last : ∀ declare,
    f declare d = ((entered library d.visited path?).2.elim (pure ()) declare) (f (fun _ => pure ()) d).2
  visited : (f (fun _ => pure ()) d).2.visited = d.visited ++ (entered library d.visited path?).1
  known : ∀ name, (f (fun _ => pure ()) d).2.program.Knows name → d.program.Knows name ∨ name? = some name

private theorem Adds.follows {name? : Option String} {f : Declaring Unit} (h : Adds name? f) (d : Draft) :
    Follows library none name? (fun _ => f) d :=
  ⟨fun _ => rfl, (h.visited d).trans (List.append_nil _).symm, h.known d⟩

/-! ### Imports -/

/-- A draft after looking for an import at some path. -/
def probing (d : Draft) (place : String) : Draft := { d with probed := d.probed ++ [place] }

section

variable {directory path : String} {rest : List String} {name : String}
  (hpath : Path.join directory (name ++ extension) = path)

include hpath

private theorem importFrom_next (hfind : library.files.find? path = none)
    (declare : SourceFile → Declaring Unit) (origin : Origin) (d : Draft) :
    importFrom library declare origin name (directory :: rest) d =
      importFrom library declare origin name rest (d.probing (library.files.absolute path)) := by
  rw [importFrom, hpath]
  simp only [hfind]
  rfl

private theorem importFrom_found {entry : FileEntry} (hfind : library.files.find? path = some entry)
    (declare : SourceFile → Declaring Unit) (origin : Origin) (d : Draft) :
    importFrom library declare origin name (directory :: rest) d =
      (if d.visited.contains (library.files.absolute path) then pure ()
      else do
        modify fun d : Draft => { d with visited := d.visited ++ [library.files.absolute path] }
        match library.files.read path with
        | .error reason => fail origin reason
        | .ok contents =>
          debug ("importing " ++ name ++ " from " ++ path)
          declare ⟨path, contents.toList⟩ : Declaring Unit) (d.probing (library.files.absolute path)) := by
  rw [importFrom, hpath]
  simp only [hfind]
  rfl

end

private theorem follows_importFrom {name? : Option String} (origin : Origin) (name : String)
    (directories : List String) (d : Draft) {path? : Option String}
    (hpath? : (directories.map (Path.join · (name ++ extension))).find?
      (fun path => (library.files.find? path).isSome) = path?) :
    Follows library path? name? (fun declare => importFrom library declare origin name directories) d := by
  induction directories generalizing d with
  | nil =>
    obtain rfl := hpath?
    exact (adds_fail origin _).follows d
  | cons directory rest ih =>
    rw [List.map_cons, List.find?_cons] at hpath?
    obtain ⟨path, hpath⟩ : ∃ path, Path.join directory (name ++ extension) = path := ⟨_, rfl⟩
    rw [hpath] at hpath?
    cases hfind : library.files.find? path with
    | none =>
      rw [hfind] at hpath?
      obtain ⟨hlast, hvisited, hknown⟩ := ih (d.probing (library.files.absolute path)) hpath?
      constructor <;> simp only [importFrom_next hpath hfind]
      · exact hlast
      · exact hvisited
      · exact hknown
    | some entry =>
      rw [hfind] at hpath?
      obtain rfl : some path = path? := hpath?
      by_cases hvisited : library.files.absolute path ∈ d.visited
      · have hentered : entered library d.visited (some path) = ([], none) := if_pos hvisited
        constructor <;> simp only [importFrom_found hpath hfind, hentered,
          if_pos (List.contains_iff_mem.mpr hvisited)]
        · exact fun _ => rfl
        · exact (List.append_nil _).symm
        · exact fun _ hknown => .inl hknown
      · have hcontains : ¬d.visited.contains (library.files.absolute path) = true :=
          fun h => hvisited (List.contains_iff_mem.mp h)
        cases hread : library.files.read path with
        | error reason =>
          have hentered : entered library d.visited (some path) = ([library.files.absolute path], none) := by
            rw [entered, if_neg hvisited, hread]
          constructor <;> simp only [importFrom_found hpath hfind, hentered, if_neg hcontains, hread]
          · exact fun _ => rfl
          · rfl
          · exact fun _ hknown => .inl hknown
        | ok contents =>
          have hentered : entered library d.visited (some path) =
              ([library.files.absolute path], some ⟨path, contents.toList⟩) := by
            rw [entered, if_neg hvisited, hread]
          constructor <;> simp only [importFrom_found hpath hfind, hentered, if_neg hcontains, hread]
          · exact fun _ => rfl
          · rfl
          · exact fun _ hknown => .inl hknown

private theorem follows_declareImport (span span' : Span) (rest : List Term) (d : Draft)
    {name? : Option String} :
    Follows library ((Term.group span .round (.symbol span' "import" :: rest)).importName?.bind
        (library.importPath? file.name)) name?
      (fun declare => declareImport library declare file (.group span .round (.symbol span' "import" :: rest))
        (.symbol span' "import" :: rest)) d := by
  match rest with
  | [.symbol span'' value] => exact follows_importFrom _ _ _ d rfl
  | [] => exact (adds_fail _ _).follows d
  | [.group ..] => exact (adds_fail _ _).follows d
  | .symbol .. :: _ :: _ => exact (adds_fail _ _).follows d
  | .group .. :: _ :: _ => exact (adds_fail _ _).follows d

private theorem importName?_eq_none {span span' : Span} {head : String} {rest : List Term}
    (h : head ≠ "import") :
    (Term.group span .round (.symbol span' head :: rest)).importName? = none := by
  unfold Term.importName? Term.list?
  split
  · rename_i heq
    cases heq
    exact absurd rfl h
  · rfl

/-- A declaration that imports nothing. -/
private theorem adds_declareTerm (library : Library) (file : SourceFile) (span span' : Span) {head : String}
    (rest : List Term) (himport : head ≠ "import") :
    ∃ f, Adds (Term.group span .round (.symbol span' head :: rest)).declaredName? f ∧ ∀ declare,
      declareTerm library declare file (.group span .round (.symbol span' head :: rest)) = f := by
  have hname : ∀ name, Names (.symbol span' head :: rest) name →
      head = "input" ∨ head = "array" ∨ head = "define" →
      (Term.group span .round (.symbol span' head :: rest)).declaredName? = some name := by
    rintro name ⟨first, span, others, helements⟩ hhead
    obtain ⟨-, rfl⟩ := List.cons.inj helements
    exact if_pos hhead
  unfold declareTerm
  dsimp only [Term.list?]
  split
  · exact ⟨_, adds_declareVersion _, fun _ => rfl⟩
  · exact absurd rfl himport
  · exact ⟨_, adds_declareInput fun name h => hname name h (.inl rfl), fun _ => rfl⟩
  · exact ⟨_, adds_get fun d => adds_declareIdentifier false fun id bodies h =>
      hname _ (declaration_arrayOf h).names (.inr (.inl rfl)), fun _ => rfl⟩
  · exact ⟨_, adds_get fun d => adds_declareIdentifier true fun id bodies h =>
      hname _ (declaration_scalarOf h).1.names (.inr (.inr rfl)), fun _ => rfl⟩
  · exact ⟨_, adds_declareOutput _, fun _ => rfl⟩
  · exact ⟨_, adds_fail _ _, fun _ => rfl⟩

/-- Each declaration follows what it imports, and declares its name. -/
theorem follows_declareTerm (library : Library) (file : SourceFile) (term : Term) (d : Draft) :
    Follows library (term.importName?.bind (library.importPath? file.name)) term.declaredName?
      (fun declare => declareTerm library declare file term) d := by
  cases term with
  | symbol span value => exact (adds_fail _ _).follows d
  | group span bracket elements =>
    cases bracket with
    | square => exact (adds_fail _ _).follows d
    | round =>
      cases elements with
      | nil => exact (adds_fail _ _).follows d
      | cons t rest =>
        cases t with
        | group span' bracket elements => exact (adds_fail _ _).follows d
        | symbol span' head =>
          by_cases himport : head = "import"
          · subst himport
            exact follows_declareImport span span' rest d
          · obtain ⟨f, hadds, hf⟩ := adds_declareTerm library file span span' rest himport
            rw [importName?_eq_none himport]
            simp only [hf]
            exact hadds.follows d

end Draft

end StreamLoom
