import Mathlib.Data.List.Nodup
import StreamLoom.Proofs.Program.Imports

/-!
# Files that are declared

Declaring a program comes down to a list of steps, in which the declarations of a file that is imported
stand right after the import. A place is visited once by imports, whatever the imports are like. But a
file that is listed is declared when it comes to it in the list, even if an import has led to it before.
-/

namespace StreamLoom.Draft

open Library

/-- What is done to declare a program, apart from following imports. -/
inductive Step where
  | listing (file : SourceFile)
  | refusal (error : SyntaxError)
  | declaration (file : SourceFile) (term : Term)

namespace Step

variable (library : Library)

def run (d : Draft) : Step → Draft
  | listing file => { d with visited := d.visited ++ [library.key file] }
  | refusal e => { d with errors := d.errors ++ [e] }
  | declaration file term => (declareTerm library (fun _ => pure ()) file term d).2

def ofFile (file : SourceFile) : List Step :=
  match (Term.parse file).error with
  | some e => [.refusal e]
  | none => (Term.parse file).terms.map (.declaration file)

/-- What a step declares, and the place at which it stands. -/
def declared? : Step → Option (String × Term)
  | declaration file term => some (library.key file, term)
  | _ => none

def name? : Step → Option String
  | declaration _ term => term.declaredName?
  | _ => none

end Step

def namesOf (file : SourceFile) : List String :=
  (Term.declarations file.contents).filterMap Term.declaredName?

def declarationsAt (library : Library) (place : String) : List (String × Term) :=
  match library.files.entries.lookup place with
  | some (.file contents) => (Term.declarations contents.toList).map fun term => (place, term)
  | _ => []

/-- How many of the entries of a library stand for places that have not been visited. -/
def unvisited (library : Library) (visited : List String) : Nat :=
  library.files.entries.countP fun entry => !visited.contains entry.1

/-- Some steps lead from one draft to another one. They are steps of their own, and those for the files that
are opened by following imports from a place. -/
structure Explores (library : Library) (source : String) (own : List Step) (d d' : Draft) (steps : List Step)
    (new : List String) (opened : List SourceFile) : Prop where
  run_eq : d' = steps.foldl (Step.run library) d
  visited_eq : d'.visited = d.visited ++ new
  perm : steps.Perm (own ++ opened.flatMap Step.ofFile)
  nodup : new.Nodup
  fresh : ∀ place ∈ new, place ∉ d.visited
  opened_eq : opened.map library.key = new.filter library.isFile
  contained : ∀ file ∈ opened, library.Contains file
  reached : ∀ place ∈ new, library.Reaches source place
  closed : ∀ file ∈ opened, ∀ place, library.Imports (library.key file) place → place ∈ d'.visited

variable {library : Library} {source : String} {own own' steps steps' : List Step} {d d' d'' : Draft}
  {new new' : List String} {opened opened' : List SourceFile} {file : SourceFile} {term : Term}

namespace Explores

/-- A step that opens no file, though it may visit a directory. -/
theorem of_step {step : Step} (hrun : d' = step.run library d) (hvisited : d'.visited = d.visited ++ new)
    (hnodup : new.Nodup) (hnew : ∀ place ∈ new, place ∉ d.visited ∧ library.isFile place = false ∧
      library.Imports source place) : Explores library source [step] d d' [step] new [] where
  run_eq := hrun
  visited_eq := hvisited
  perm := .refl _
  nodup := hnodup
  fresh := fun place hplace => (hnew place hplace).1
  opened_eq := by
    refine (List.filter_eq_nil_iff.mpr fun place hplace => ?_).symm
    rw [(hnew place hplace).2.1]
    exact Bool.false_ne_true
  contained := fun _ h => absurd h List.not_mem_nil
  reached := fun place hplace => .single (hnew place hplace).2.2
  closed := fun _ h => absurd h List.not_mem_nil

theorem append (h : Explores library source own d d' steps new opened)
    (h' : Explores library source own' d' d'' steps' new' opened') :
    Explores library source (own ++ own') d d'' (steps ++ steps') (new ++ new') (opened ++ opened') where
  run_eq := by rw [List.foldl_append, ← h.run_eq, h'.run_eq]
  visited_eq := by rw [h'.visited_eq, h.visited_eq, List.append_assoc]
  perm := by
    rw [List.flatMap_append, List.append_assoc]
    refine (h.perm.append h'.perm).trans ?_
    rw [List.append_assoc]
    exact List.perm_append_comm_assoc .. |>.append_left own
  nodup := by
    refine List.nodup_append.mpr ⟨h.nodup, h'.nodup, ?_⟩
    rintro place hplace _ hplace' rfl
    refine h'.fresh place hplace' ?_
    rw [h.visited_eq]
    exact List.mem_append_right _ hplace
  fresh := by
    intro place hplace
    rcases List.mem_append.mp hplace with hplace | hplace
    · exact h.fresh place hplace
    · intro hvisited
      refine h'.fresh place hplace ?_
      rw [h.visited_eq]
      exact List.mem_append_left _ hvisited
  opened_eq := by rw [List.map_append, h.opened_eq, h'.opened_eq, List.filter_append]
  contained := by
    intro file hfile
    rcases List.mem_append.mp hfile with hfile | hfile
    · exact h.contained file hfile
    · exact h'.contained file hfile
  reached := by
    intro place hplace
    rcases List.mem_append.mp hplace with hplace | hplace
    · exact h.reached place hplace
    · exact h'.reached place hplace
  closed := by
    intro file hfile place himports
    rcases List.mem_append.mp hfile with hfile | hfile
    · rw [h'.visited_eq]
      exact List.mem_append_left _ (h.closed file hfile place himports)
    · exact h'.closed file hfile place himports

/-- A file that is imported is declared right after the import. -/
theorem opening (h : Explores library (library.key file) (Step.ofFile file) d' d'' steps new opened)
    {step : Step} (hrun : d' = step.run library d) (hvisited : d'.visited = d.visited ++ [library.key file])
    (hfresh : library.key file ∉ d.visited) (hfile : library.isFile (library.key file) = true)
    (hcontains : library.Contains file) (himports : library.Imports source (library.key file))
    (hclosed : ∀ place, library.Imports (library.key file) place → place ∈ d''.visited) :
    Explores library source [step] d d'' (step :: steps) (library.key file :: new) (file :: opened) where
  run_eq := by rw [List.foldl_cons, ← hrun, h.run_eq]
  visited_eq := by rw [h.visited_eq, hvisited, List.append_assoc, List.singleton_append]
  perm := h.perm.cons step
  nodup := by
    refine List.nodup_cons.mpr ⟨fun hmem => h.fresh _ hmem ?_, h.nodup⟩
    rw [hvisited]
    exact List.mem_append_right _ (List.mem_singleton_self _)
  fresh := by
    intro place hplace
    rcases List.mem_cons.mp hplace with rfl | hplace
    · exact hfresh
    · intro hmem
      refine h.fresh place hplace ?_
      rw [hvisited]
      exact List.mem_append_left _ hmem
  opened_eq := by rw [List.map_cons, h.opened_eq, List.filter_cons_of_pos hfile]
  contained := by
    intro other hother
    rcases List.mem_cons.mp hother with rfl | hother
    · exact hcontains
    · exact h.contained other hother
  reached := by
    intro place hplace
    rcases List.mem_cons.mp hplace with rfl | hplace
    · exact .single himports
    · exact .head himports (h.reached place hplace)
  closed := by
    intro other hother
    rcases List.mem_cons.mp hother with rfl | hother
    · exact hclosed
    · exact h.closed other hother

end Explores

/-! ### Following imports -/

/-- A way to declare files which follows their imports, as long as there are not too many places left. -/
def FollowsImports (library : Library) (declare : SourceFile → Declaring Unit) (bound : Nat) : Prop :=
  ∀ file d, library.Contains file → unvisited library d.visited < bound →
    (∃ steps new opened,
      Explores library (library.key file) (Step.ofFile file) d (declare file d).2 steps new opened) ∧
    ∀ place, library.Imports (library.key file) place → place ∈ (declare file d).2.visited

theorem unvisited_append_le (visited new : List String) :
    unvisited library (visited ++ new) ≤ unvisited library visited := by
  refine List.countP_mono_left fun entry _ h => ?_
  simp only [List.contains_append, Bool.not_or, Bool.and_eq_true] at h
  exact h.1

theorem unvisited_append_lt {visited : List String} {place : String} {entry : FileEntry}
    (hentry : library.files.entries.lookup place = some entry) (hplace : place ∉ visited) :
    unvisited library (visited ++ [place]) < unvisited library visited := by
  obtain ⟨before, after, hentries, -⟩ := List.lookup_eq_some_iff.mp hentry
  have hle := fun entries : List (String × FileEntry) => List.countP_mono_left (l := entries)
    (p := fun entry => !(visited ++ [place]).contains entry.1) (q := fun entry => !visited.contains entry.1)
    fun entry _ h => by
      simp only [List.contains_append, Bool.not_or, Bool.and_eq_true] at h
      exact h.1
  have hbefore := hle before
  have hafter := hle after
  rw [unvisited, unvisited, hentries, List.countP_append, List.countP_append, List.countP_cons_of_neg,
    List.countP_cons_of_pos]
  · omega
  · simpa using hplace
  · simp

theorem isFile_of_contains (ht : library.files.WellFormed) (h : library.Contains file) :
    library.isFile (library.key file) = true := by
  rw [isFile, library.lookup_of_contains ht h]

/-- What is found by an import and cannot be read is a directory. -/
private theorem isFile_of_read_error (ht : library.files.WellFormed) {name path reason : String}
    (hpath : term.importName?.bind (library.importPath? name) = some path)
    (hread : library.files.read path = .error reason) :
    library.isFile (library.files.absolute path) = false := by
  obtain ⟨word, -, hpath⟩ := Option.bind_eq_some_iff.mp hpath
  obtain ⟨p, rfl⟩ := library.clean_of_importPath? hpath
  unfold isFile
  split
  · rename_i contents hlookup
    rw [library.files.read_of_find? ht hlookup] at hread
    cases hread
  · rfl

private theorem exists_explores_term (ht : library.files.WellFormed) {declare : SourceFile → Declaring Unit}
    {bound : Nat} (hdeclare : FollowsImports library declare bound) (hfile : library.Contains file)
    (hterm : term ∈ Term.declarations file.contents) (d : Draft)
    (hd : unvisited library d.visited ≤ bound) :
    (∃ steps new opened, Explores library (library.key file) [.declaration file term] d
      (declareTerm library declare file term d).2 steps new opened) ∧
    ∀ path, term.importName?.bind (library.importPath? file.name) = some path →
      library.files.absolute path ∈ (declareTerm library declare file term d).2.visited := by
  obtain ⟨hlast, hvisited, -⟩ := follows_declareTerm library file term d
  rw [hlast declare]
  cases hpath : term.importName?.bind (library.importPath? file.name) with
  | none =>
    rw [hpath] at hvisited
    refine ⟨⟨_, [], [], .of_step rfl hvisited .nil fun _ h => absurd h List.not_mem_nil⟩, ?_⟩
    rintro _ ⟨⟩
  | some path =>
    rw [hpath] at hvisited
    have himports : library.Imports (library.key file) (library.files.absolute path) :=
      (library.imports_iff ht hfile).mpr ⟨term, hterm, path, hpath, rfl⟩
    by_cases hold : library.files.absolute path ∈ d.visited
    · have hentered : entered library d.visited (some path) = ([], none) := if_pos hold
      rw [hentered] at hvisited ⊢
      refine ⟨⟨_, [], [], .of_step rfl hvisited .nil fun _ h => absurd h List.not_mem_nil⟩, ?_⟩
      rintro _ ⟨⟩
      exact hvisited ▸ List.mem_append_left _ hold
    · cases hread : library.files.read path with
      | error reason =>
        have hentered : entered library d.visited (some path) = ([library.files.absolute path], none) := by
          rw [entered, if_neg hold, hread]
        rw [hentered] at hvisited ⊢
        have hnodup : [library.files.absolute path].Nodup := List.pairwise_singleton _ _
        refine ⟨⟨_, _, [], .of_step rfl hvisited hnodup ?_⟩, ?_⟩
        · intro place hplace
          obtain rfl := List.mem_singleton.mp hplace
          exact ⟨hold, isFile_of_read_error ht hpath hread, himports⟩
        · rintro _ ⟨⟩
          exact hvisited ▸ List.mem_append_right _ (List.mem_singleton_self _)
      | ok contents =>
        have hentered : entered library d.visited (some path) =
            ([library.files.absolute path], some ⟨path, contents.toList⟩) := by
          rw [entered, if_neg hold, hread]
        rw [hentered] at hvisited ⊢
        have hnext : library.Contains ⟨path, contents.toList⟩ := by
          rw [Contains, hread, String.ofList_toList]
        have hless := unvisited_append_lt (library.lookup_of_contains ht hnext) hold
        have hbound : unvisited library (declareTerm library (fun _ => pure ()) file term d).2.visited < bound := by
          rw [hvisited]
          exact Nat.lt_of_lt_of_le hless hd
        obtain ⟨⟨steps, new, opened, h⟩, hclosed⟩ := hdeclare ⟨path, contents.toList⟩ _ hnext hbound
        have hisFile := isFile_of_contains ht hnext
        refine ⟨⟨_, _, _, h.opening rfl hvisited hold hisFile hnext himports hclosed⟩, ?_⟩
        rintro _ ⟨⟩
        change _ ∈ (declare ⟨path, contents.toList⟩ _).2.visited
        rw [h.visited_eq, hvisited]
        exact List.mem_append_left _ (List.mem_append_right _ (List.mem_singleton_self _))

private theorem exists_explores_terms (ht : library.files.WellFormed) {declare : SourceFile → Declaring Unit}
    {bound : Nat} (hdeclare : FollowsImports library declare bound) (hfile : library.Contains file)
    {terms : List Term} (hterms : ∀ t ∈ terms, t ∈ Term.declarations file.contents) (d : Draft)
    (hd : unvisited library d.visited ≤ bound) :
    (∃ steps new opened, Explores library (library.key file) (terms.map (.declaration file)) d
      (terms.forM (declareTerm library declare file) d).2 steps new opened) ∧
    ∀ t ∈ terms, ∀ path, t.importName?.bind (library.importPath? file.name) = some path →
      library.files.absolute path ∈ (terms.forM (declareTerm library declare file) d).2.visited := by
  induction terms generalizing d with
  | nil =>
    refine ⟨⟨[], [], [], ?_⟩, fun _ h => absurd h List.not_mem_nil⟩
    exact ⟨rfl, (List.append_nil _).symm, .refl _, .nil, fun _ h => absurd h List.not_mem_nil, rfl,
      fun _ h => absurd h List.not_mem_nil, fun _ h => absurd h List.not_mem_nil,
      fun _ h => absurd h List.not_mem_nil⟩
  | cons t rest ih =>
    obtain ⟨⟨steps, new, opened, hfirst⟩, himports⟩ :=
      exists_explores_term ht hdeclare hfile (hterms t List.mem_cons_self) d hd
    have hless : unvisited library (declareTerm library declare file t d).2.visited ≤ bound := by
      rw [hfirst.visited_eq]
      exact Nat.le_trans (unvisited_append_le _ _) hd
    obtain ⟨⟨steps', new', opened', hrest⟩, himports'⟩ :=
      ih (fun u hu => hterms u (List.mem_cons_of_mem _ hu)) (declareTerm library declare file t d).2 hless
    refine ⟨⟨_, _, _, hfirst.append hrest⟩, fun u hu path hpath => ?_⟩
    rcases List.mem_cons.mp hu with rfl | hu
    · change _ ∈ (rest.forM (declareTerm library declare file)
        (declareTerm library declare file u d).2).2.visited
      rw [hrest.visited_eq]
      exact List.mem_append_left _ (himports path hpath)
    · exact himports' u hu path hpath

/-- Declaring a file follows its imports, since there are no more places left than what the depth is. -/
theorem followsImports_declareFile (ht : library.files.WellFormed) (depth : Nat) :
    FollowsImports library (declareFile library depth) depth := by
  induction depth with
  | zero => exact fun _ _ _ h => absurd h (Nat.not_lt_zero _)
  | succ depth ih =>
    intro file d hfile hd
    have hdeclarations := Term.declarations_eq file
    unfold declareFile
    dsimp only
    cases herror : (Term.parse file).error with
    | some e =>
      rw [herror] at hdeclarations
      refine ⟨⟨[.refusal e], [], [], ?_⟩, fun place hplace => ?_⟩
      · rw [Step.ofFile, herror]
        exact .of_step rfl (List.append_nil _).symm .nil fun _ h => absurd h List.not_mem_nil
      · obtain ⟨t, hmem, -⟩ := (library.imports_iff ht hfile).mp hplace
        rw [hdeclarations] at hmem
        exact absurd hmem List.not_mem_nil
    | none =>
      rw [herror] at hdeclarations
      have hterms : ∀ t ∈ (Term.parse file).terms, t ∈ Term.declarations file.contents := by
        rw [hdeclarations]
        exact fun _ h => h
      obtain ⟨⟨steps, new, opened, h⟩, himports⟩ :=
        exists_explores_terms ht ih hfile hterms d (Nat.lt_succ_iff.mp hd)
      refine ⟨⟨steps, new, opened, ?_⟩, ?_⟩
      · rw [Step.ofFile, herror]
        exact h
      · intro place hplace
        obtain ⟨t, ht, path, hpath, rfl⟩ := (library.imports_iff ht hfile).mp hplace
        rw [hdeclarations] at ht
        exact himports t ht path hpath

/-! ### Listed files -/

/-- A place is that of a file which is reached from some listed one. -/
def Reached (library : Library) (files : List SourceFile) (place : String) : Prop :=
  library.isFile place = true ∧ ∃ file ∈ files, library.Reaches (library.key file) place

/-- A place is that of a listed file which is reached from one that is listed before it. -/
def Repeated (library : Library) (files : List SourceFile) (place : String) : Prop :=
  ∃ before file after, files = before ++ file :: after ∧ library.key file = place ∧
    Reached library before place

open Classical in
/-- Some steps declare a program. Apart from those which mark the listed files, they are the steps of the files
that are opened, which have been reached from the listed ones. Each of them is opened once, and a listed file
is opened again if it has been reached before it is listed. -/
structure Declares (library : Library) (files : List SourceFile) (steps : List Step)
    (opened : List SourceFile) : Prop where
  run_eq : (declareAll library files {}).2 = steps.foldl (Step.run library) {}
  perm : steps.Perm (files.map .listing ++ opened.flatMap Step.ofFile)
  contained : ∀ file ∈ opened, library.Contains file
  count_eq : ∀ place, (opened.map library.key).count place =
    (if Reached library files place then 1 else 0) + if Repeated library files place then 1 else 0

variable {files : List SourceFile}

theorem repeated_append_iff {place : String} : Repeated library (files ++ [file]) place ↔
    Repeated library files place ∨ library.key file = place ∧ Reached library files place := by
  constructor
  · rintro ⟨before, other, after, hfiles, hkey, hreached⟩
    rcases List.eq_nil_or_concat after with rfl | ⟨rest, last, rfl⟩
    · obtain ⟨rfl, hlast⟩ := List.append_inj' hfiles rfl
      obtain rfl : file = other := by simpa using hlast
      exact .inr ⟨hkey, hreached⟩
    · rw [List.concat_eq_append, ← List.cons_append, ← List.append_assoc] at hfiles
      exact .inl ⟨before, other, rest, (List.append_inj' hfiles rfl).1, hkey, hreached⟩
  · rintro (⟨before, other, after, rfl, hkey, hreached⟩ | ⟨hkey, hreached⟩)
    · exact ⟨before, other, after ++ [file], by simp, hkey, hreached⟩
    · exact ⟨files, file, [], rfl, hkey, hreached⟩

theorem Repeated.mem {place : String} (h : Repeated library files place) : place ∈ files.map library.key := by
  obtain ⟨before, file, after, rfl, rfl, -⟩ := h
  simp

/-- Places that have been visited are those that are reached from the listed files. -/
structure Covers (library : Library) (files opened : List SourceFile) (d : Draft) : Prop where
  visited_iff : ∀ place, place ∈ d.visited ↔ ∃ file ∈ files, library.Reaches (library.key file) place
  closed : ∀ file ∈ opened, ∀ place, library.Imports (library.key file) place → place ∈ d.visited

theorem Covers.reached_iff (h : Covers library files opened d) {place : String} :
    Reached library files place ↔ library.isFile place = true ∧ place ∈ d.visited := by
  rw [Reached, h.visited_iff]

private theorem declareAll_append (files : List SourceFile) (file : SourceFile) (d : Draft) :
    (declareAll library (files ++ [file]) d).2 = (declareFile library (library.files.size + 1) file
      (Step.run library (declareAll library files d).2 (.listing file))).2 := by
  unfold declareAll
  rw [List.forM_eq_forM, List.forM_append]
  rfl

private theorem Covers.append (hcovers : Covers library files opened d)
    (hopened : ∀ place ∈ d.visited, library.isFile place = true → place ∈ opened.map library.key)
    (hvisited : d'.visited = d.visited ++ [library.key file])
    (h : Explores library (library.key file) own d' d'' steps new opened')
    (hclosed : ∀ place, library.Imports (library.key file) place → place ∈ d''.visited) :
    Covers library (files ++ [file]) (opened ++ file :: opened') d'' := by
  have hmem : ∀ place, place ∈ d''.visited ↔
      place ∈ d.visited ∨ place = library.key file ∨ place ∈ new := by
    intro place
    rw [h.visited_eq, hvisited, List.mem_append, List.mem_append, List.mem_singleton, or_assoc]
  have hclosed' : ∀ other ∈ opened ++ file :: opened', ∀ place,
      library.Imports (library.key other) place → place ∈ d''.visited := by
    intro other hother place himports
    rcases List.mem_append.mp hother with hother | hother
    · exact (hmem place).mpr (.inl (hcovers.closed other hother place himports))
    · rcases List.mem_cons.mp hother with rfl | hother
      · exact hclosed place himports
      · exact h.closed other hother place himports
  refine ⟨fun place => ⟨fun hplace => ?_, ?_⟩, hclosed'⟩
  · rcases (hmem place).mp hplace with hold | rfl | hnew
    · obtain ⟨other, hother, hreaches⟩ := (hcovers.visited_iff place).mp hold
      exact ⟨other, by simp [hother], hreaches⟩
    · exact ⟨file, by simp, .refl⟩
    · exact ⟨file, by simp, h.reached place hnew⟩
  · rintro ⟨other, hother, hreaches⟩
    -- Everything that a visited file imports has been visited, since this file has been opened.
    induction hreaches with
    | refl =>
      rcases List.mem_append.mp hother with hother | hother
      · exact (hmem _).mpr (.inl ((hcovers.visited_iff _).mpr ⟨other, hother, .refl⟩))
      · obtain rfl := List.mem_singleton.mp hother
        exact (hmem _).mpr (.inr (.inl rfl))
    | tail _ himports ih =>
      rename_i middle last _
      obtain ⟨contents, hlookup, -⟩ := id himports
      have hfile : library.isFile middle = true := by rw [isFile, hlookup]
      have hmiddle : middle ∈ (opened ++ file :: opened').map library.key := by
        rw [List.map_append, List.map_cons, h.opened_eq]
        rcases (hmem middle).mp ih with hold | rfl | hnew
        · exact List.mem_append_left _ (hopened middle hold hfile)
        · simp
        · simp [hnew, hfile]
      obtain ⟨between, hbetween, rfl⟩ := List.mem_map.mp hmiddle
      exact hclosed' between hbetween last himports

/-- How often a place is opened, given that it is visited once by imports unless it is listed. -/
private theorem count_append {isFile old listed new repeated reached' repeated' : Prop} [Decidable isFile]
    [Decidable old] [Decidable listed] [Decidable new] [Decidable repeated] [Decidable reached']
    [Decidable repeated'] (hfile : listed → isFile) (hnew : new → ¬old ∧ ¬listed)
    (hrepeated : repeated → ¬listed) (hreached' : reached' ↔ isFile ∧ (old ∨ listed ∨ new))
    (hrepeated' : repeated' ↔ repeated ∨ listed ∧ isFile ∧ old) :
    ((if isFile ∧ old then 1 else 0) + if repeated then 1 else 0) +
      ((if isFile ∧ new then 1 else 0) + if listed then 1 else 0) =
        (if reached' then 1 else 0) + if repeated' then 1 else 0 := by
  by_cases isFile <;> by_cases old <;> by_cases listed <;> by_cases new <;> by_cases repeated <;>
    simp_all

/-- A listed file that is declared adds the steps for itself and for what is opened by its imports. -/
private theorem Declares.append (ht : library.files.WellFormed) (hcontains : library.Contains file)
    (hnew : library.key file ∉ files.map library.key) (hdeclares : Declares library files steps opened)
    (hcovers : Covers library files opened (declareAll library files {}).2)
    (hd : d = Step.run library (declareAll library files {}).2 (.listing file))
    (h : Explores library (library.key file) (Step.ofFile file) d (declareAll library (files ++ [file]) {}).2
      steps' new opened')
    (hcovers' : Covers library (files ++ [file]) (opened ++ file :: opened')
      (declareAll library (files ++ [file]) {}).2) :
    Declares library (files ++ [file]) (steps ++ .listing file :: steps') (opened ++ file :: opened') where
  run_eq := by rw [h.run_eq, List.foldl_append, ← hdeclares.run_eq, List.foldl_cons, ← hd]
  perm := by
    rw [List.map_append, List.flatMap_append, List.flatMap_cons]
    refine (hdeclares.perm.append (h.perm.cons (.listing file))).trans ?_
    rw [List.append_assoc, List.append_assoc, List.map_singleton]
    exact (List.perm_append_comm_assoc _ [Step.listing file] _).append_left _
  contained := by
    intro other hother
    rcases List.mem_append.mp hother with hother | hother
    · exact hdeclares.contained other hother
    · rcases List.mem_cons.mp hother with rfl | hother
      · exact hcontains
      · exact h.contained other hother
  count_eq := by
    classical
    intro place
    have hvisited : d.visited = (declareAll library files {}).2.visited ++ [library.key file] := by
      rw [hd]
      rfl
    have hmem : place ∈ (declareAll library (files ++ [file]) {}).2.visited ↔
        place ∈ (declareAll library files {}).2.visited ∨ library.key file = place ∨ place ∈ new := by
      rw [h.visited_eq, hvisited, List.mem_append, List.mem_append, List.mem_singleton, or_assoc, eq_comm]
    have hfilter : (new.filter library.isFile).count place =
        if library.isFile place = true ∧ place ∈ new then 1 else 0 := by
      rw [List.Nodup.count (List.Nodup.filter _ h.nodup)]
      simp only [List.mem_filter, and_comm]
    have hfile : library.key file = place → library.isFile place = true := by
      rintro rfl
      exact isFile_of_contains ht hcontains
    have hfresh : place ∈ new →
        place ∉ (declareAll library files {}).2.visited ∧ library.key file ≠ place := by
      intro hplace
      have hfresh := h.fresh place hplace
      rw [hvisited] at hfresh
      exact ⟨fun hold => hfresh (by simp [hold]), fun heq => hfresh (by simp [heq])⟩
    have hlisted : Repeated library files place → library.key file ≠ place := by
      rintro hrepeated rfl
      exact hnew hrepeated.mem
    rw [List.map_append, List.map_cons, List.count_append, List.count_cons, h.opened_eq, hfilter,
      hdeclares.count_eq]
    simp only [hcovers.reached_iff, beq_iff_eq]
    refine count_append hfile hfresh hlisted (hcovers'.reached_iff.trans (and_congr_right' hmem)) ?_
    rw [repeated_append_iff, hcovers.reached_iff]

theorem exists_declares (ht : library.files.WellFormed) (hfiles : ∀ file ∈ files, library.Contains file)
    (hdistinct : (files.map library.key).Nodup) :
    ∃ steps opened, Declares library files steps opened ∧
      Covers library files opened (declareAll library files {}).2 := by
  induction files using List.reverseRecOn with
  | nil =>
    refine ⟨[], [], ⟨rfl, .refl _, fun _ h => absurd h List.not_mem_nil, fun place => ?_⟩, ?_⟩
    · rw [if_neg, if_neg]
      · rfl
      · exact fun h => absurd h.mem List.not_mem_nil
      · rintro ⟨-, _, h, -⟩
        exact absurd h List.not_mem_nil
    · refine ⟨fun place => iff_of_false List.not_mem_nil ?_, fun _ h => absurd h List.not_mem_nil⟩
      rintro ⟨_, h, -⟩
      exact absurd h List.not_mem_nil
  | append_singleton files file ih =>
    have hcontains : library.Contains file := hfiles file (by simp)
    rw [List.map_append, List.nodup_append] at hdistinct
    have hnew : library.key file ∉ files.map library.key := fun h =>
      hdistinct.2.2 _ h _ (List.mem_singleton_self _) rfl
    obtain ⟨steps, opened, hdeclares, hcovers⟩ := ih (fun other h => hfiles other (by simp [h])) hdistinct.1
    obtain ⟨d, hd⟩ : ∃ d, d = Step.run library (declareAll library files {}).2 (.listing file) := ⟨_, rfl⟩
    have hbound : unvisited library d.visited < library.files.size + 1 :=
      Nat.lt_succ_of_le List.countP_le_length
    obtain ⟨⟨steps', new, opened', h⟩, hclosed⟩ :=
      followsImports_declareFile ht (library.files.size + 1) file d hcontains hbound
    have hrun : (declareAll library (files ++ [file]) {}).2 =
        (declareFile library (library.files.size + 1) file d).2 := by
      rw [declareAll_append, hd]
    rw [← hrun] at h hclosed
    have hopened : ∀ place ∈ (declareAll library files {}).2.visited, library.isFile place = true →
        place ∈ opened.map library.key := by
      intro place hplace hfile
      rw [← List.count_pos_iff, hdeclares.count_eq, if_pos (hcovers.reached_iff.mpr ⟨hfile, hplace⟩)]
      omega
    have hcovers' := hcovers.append hopened (by rw [hd]; rfl) h hclosed
    exact ⟨_, _, hdeclares.append ht hcontains hnew hcovers hd h hcovers', hcovers'⟩

/-! ### Names and declarations -/

/-- A name that is known after some steps has been declared by one of them. -/
private theorem exists_declaration {name : String} (h : (steps.foldl (Step.run library) d).program.Knows name) :
    d.program.Knows name ∨ ∃ step ∈ steps, step.name? = some name := by
  induction steps generalizing d with
  | nil => exact .inl h
  | cons step steps ih =>
    rcases ih h with hknown | ⟨step', hstep', hname⟩
    · cases step with
      | listing => exact .inl hknown
      | refusal => exact .inl hknown
      | declaration file term =>
        rcases (follows_declareTerm library file term d).known name hknown with hknown | hname
        · exact .inl hknown
        · exact .inr ⟨.declaration file term, List.mem_cons_self, hname⟩
    · exact .inr ⟨step', List.mem_cons_of_mem _ hstep', hname⟩

private theorem filterMap_ofFile {β : Type} {f : Step → Option β} (hrefusal : ∀ e, f (.refusal e) = none)
    (file : SourceFile) : (Step.ofFile file).filterMap f =
      (Term.declarations file.contents).filterMap fun term => f (.declaration file term) := by
  rw [Term.declarations_eq, Step.ofFile]
  cases (Term.parse file).error with
  | some e => rw [List.filterMap_cons_none (hrefusal e)]; rfl
  | none => rw [List.filterMap_map]; rfl

namespace Declares

theorem filterMap_perm {β : Type} {f : Step → Option β} (h : Declares library files steps opened)
    (hlisting : ∀ file, f (.listing file) = none) (hrefusal : ∀ e, f (.refusal e) = none) :
    (steps.filterMap f).Perm (opened.flatMap fun file =>
      (Term.declarations file.contents).filterMap fun term => f (.declaration file term)) := by
  refine (h.perm.filterMap f).trans (.of_eq ?_)
  have hnone : (files.map Step.listing).filterMap f = [] := by
    rw [List.filterMap_map, List.filterMap_eq_nil_iff]
    exact fun file _ => hlisting file
  rw [List.filterMap_append, hnone, List.nil_append, List.filterMap_flatMap]
  exact congrArg (opened.flatMap ·) (funext fun file => filterMap_ofFile hrefusal file)

/-- A name is found to have been declared only if the files that are opened declare it twice. -/
theorem two_le_count (h : Declares library files steps opened) {before after : List Step} {name : String}
    (hsteps : steps = before ++ .declaration file term :: after) (hname : term.declaredName? = some name)
    (hknown : (before.foldl (Step.run library) {}).program.Knows name) :
    2 ≤ (opened.flatMap namesOf).count name := by
  have hperm : (steps.filterMap Step.name?).Perm (opened.flatMap namesOf) :=
    h.filterMap_perm (fun _ => rfl) fun _ => rfl
  rcases exists_declaration hknown with hstart | ⟨step, hstep, hstepName⟩
  · rw [Program.knows_iff] at hstart
    rcases hstart with ⟨_, hmem, -⟩ | ⟨_, hmem, -⟩
    · exact absurd hmem List.not_mem_nil
    · exact absurd hmem List.not_mem_nil
  · have hbefore : 0 < (before.filterMap Step.name?).count name :=
      List.count_pos_iff.mpr (List.mem_filterMap.mpr ⟨step, hstep, hstepName⟩)
    have hlast : Step.name? (.declaration file term) = some name := hname
    rw [← hperm.count_eq, hsteps, List.filterMap_append, List.filterMap_cons_some hlast, List.count_append,
      List.count_cons_self]
    omega

theorem declared_perm (ht : library.files.WellFormed) (h : Declares library files steps opened) :
    (steps.filterMap (Step.declared? library)).Perm
      ((opened.map library.key).flatMap (declarationsAt library)) := by
  refine (h.filterMap_perm (fun _ => rfl) fun _ => rfl).trans (.of_eq ?_)
  rw [List.flatMap_map]
  refine List.flatMap_congr fun file hfile => ?_
  rw [declarationsAt, library.lookup_of_contains ht (h.contained file hfile)]
  dsimp only
  rw [String.toList_ofList, ← List.filterMap_eq_map]
  rfl

/-- The order of the listed files does not matter for what is opened, if none is listed after what reaches it. -/
theorem opened_perm {files' : List SourceFile} (h : Declares library files steps opened)
    (h' : Declares library files' steps' opened') (hperm : files'.Perm files)
    (honce : ∀ place, ¬Repeated library files place) (honce' : ∀ place, ¬Repeated library files' place) :
    (opened'.map library.key).Perm (opened.map library.key) := by
  classical
  refine List.perm_iff_count.mpr fun place => ?_
  have hreached : Reached library files' place ↔ Reached library files place := by
    simp only [Reached, hperm.mem_iff]
  rw [h.count_eq, h'.count_eq, if_neg (honce place), if_neg (honce' place)]
  exact congrArg (· + 0) (if_congr hreached rfl rfl)

end Declares

/-- Declaring a program comes to an end with each file that is reached from the listed ones opened once, and
so with its declarations made once, whatever the imports are like, except that a listed file is opened twice
if it is reached from one that is listed before it. A name is found to have been declared before only if the
files that are opened declare it twice. If no file is opened twice, then the declarations that are made do not
depend on the order in which the files are listed. -/
theorem declared_once (ht : library.files.WellFormed) (hfiles : ∀ file ∈ files, library.Contains file)
    (hdistinct : (files.map library.key).Nodup) :
    (∃ steps opened, Declares library files steps opened ∧
      ∀ before file term after, steps = before ++ .declaration file term :: after →
        ∀ name, term.declaredName? = some name → (before.foldl (Step.run library) {}).program.Knows name →
          2 ≤ (opened.flatMap namesOf).count name) ∧
    ∀ files' steps steps' opened opened', files'.Perm files → Declares library files steps opened →
      Declares library files' steps' opened' → (∀ place, ¬Repeated library files place) →
      (∀ place, ¬Repeated library files' place) →
        (steps'.filterMap (Step.declared? library)).Perm (steps.filterMap (Step.declared? library)) := by
  constructor
  · obtain ⟨steps, opened, hdeclares, -⟩ := exists_declares ht hfiles hdistinct
    exact ⟨steps, opened, hdeclares, fun _ _ _ _ hsteps _ hname hknown =>
      hdeclares.two_le_count hsteps hname hknown⟩
  · intro files' steps steps' opened opened' hperm h h' honce honce'
    have hopened := h.opened_perm h' hperm honce honce'
    exact (h'.declared_perm ht).trans ((hopened.flatMap_right _).trans (h.declared_perm ht).symm)

/-- A file that imports the other one. -/
private def first : SourceFile := ⟨"a.fun", "(import b)(define x 1)".toList⟩

private def second : SourceFile := ⟨"b.fun", "(import a)(define y x)".toList⟩

private def cycle : Library where
  files := ⟨"/", [("/", .directory), ("/a.fun", .file "(import b)(define x 1)"),
    ("/b.fun", .file "(import a)(define y x)")]⟩

private theorem wellFormed_cycle : cycle.files.WellFormed :=
  ⟨by decide +kernel, by decide +kernel, by decide +kernel, by decide +kernel⟩

/-- Each of the files is declared once, although they import each other. -/
theorem declared_once_cycle : ∃ steps opened, Declares cycle [first] steps opened ∧
    (opened.map cycle.key).count "/a.fun" = 1 ∧ (opened.map cycle.key).count "/b.fun" = 1 := by
  have hread : Outcome.passes (cycle.files.read first.name) (· == String.ofList first.contents) = true := by
    decide +kernel
  have hfirst : cycle.Contains first := by
    obtain ⟨contents, hread, hcontents⟩ := Outcome.exists_of_passes hread
    rw [Contains, hread, eq_of_beq hcontents]
  have hcontains : ∀ file ∈ [first], cycle.Contains file := by
    intro file hfile
    rwa [List.mem_singleton.mp hfile]
  obtain ⟨⟨steps, opened, hdeclares, -⟩, -⟩ := declared_once wellFormed_cycle hcontains (by decide +kernel)
  have hkey : cycle.key first = "/a.fun" := by decide +kernel
  have himports : ((Term.declarations first.contents).any fun t =>
      (t.importName?.bind (cycle.importPath? first.name)).any fun path =>
        cycle.files.absolute path == "/b.fun") = true := by
    decide +kernel
  replace himports : cycle.Imports "/a.fun" "/b.fun" := by
    obtain ⟨t, hmem, hpath⟩ := List.any_eq_true.mp himports
    obtain ⟨path, hpath, hplace⟩ := (Option.any_eq_true _ _).mp hpath
    exact hkey ▸ (cycle.imports_iff wellFormed_cycle hfirst).mpr ⟨t, hmem, path, hpath, eq_of_beq hplace⟩
  have honce : ∀ place, ¬Repeated cycle [first] place := by
    rintro place ⟨before, file, after, hfiles, -, -, _, hmem, -⟩
    cases before with
    | nil => exact List.not_mem_nil hmem
    | cons other before => exact absurd (List.cons.inj hfiles).2 (by simp)
  refine ⟨steps, opened, hdeclares, ?_, ?_⟩
  · rw [hdeclares.count_eq, if_pos, if_neg (honce _)]
    exact ⟨by decide +kernel, first, List.mem_singleton_self _, hkey ▸ .refl⟩
  · rw [hdeclares.count_eq, if_pos, if_neg (honce _)]
    exact ⟨by decide +kernel, first, List.mem_singleton_self _, hkey ▸ .single himports⟩

/-- When both are listed, the second one is declared again. -/
example : (declareAll cycle [first, second] {}).2.errors.map (·.message) = ["y already declared"] := by
  decide +kernel

end StreamLoom.Draft
