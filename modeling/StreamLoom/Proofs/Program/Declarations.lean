import StreamLoom.Program.Declaration
import StreamLoom.Proofs.Outcome

/-!
# Properties of declared programs

What is declared is added to a program one declaration at a time. So a property of programs holds of all that
are declared as soon as no single declaration breaks it, whatever files are imported on the way.
-/

namespace StreamLoom

def Program.Knows (p : Program) (name : String) : Prop :=
  (p.identifier? name).isSome ∨ (p.input? name).isSome

theorem Program.knows_iff {p : Program} {name : String} :
    p.Knows name ↔ (∃ id ∈ p.identifiers, id.name = name) ∨ ∃ input ∈ p.inputs, input.name = name := by
  simp [Knows, identifier?, input?, List.findIdx?_isSome]

namespace Draft

/-! ### Single declarations -/

/-- The second element of a declaration is a symbol. -/
def Names (elements : List Term) (name : String) : Prop :=
  ∃ first span rest, elements = first :: .symbol span name :: rest

/-- What is declared if there is no error: a name that is new, with extents that are either listed or left
out. -/
structure Declaration (p : Program) (file : SourceFile) (elements : List Term) (name : String)
    (extents : List Extent) : Prop where
  names : Names elements name
  fresh : ¬ p.Knows name
  extents : extents = [] ∨ ∃ terms, Draft.extents file false terms = .ok extents

variable {p : Program} {file : SourceFile} {term : Term} {elements : List Term}

private theorem declaration_of_checkFresh {first t : Term} {rest : List Term} {name : String}
    {found : List Extent} {u : Unit} (hname : t.symbol? = some name)
    (hfresh : checkFresh p file t name = .ok u)
    (hfound : found = [] ∨ ∃ terms, extents file false terms = .ok found) :
    Declaration p file (first :: t :: rest) name found := by
  refine ⟨?_, ?_, hfound⟩
  · cases t with
    | symbol span value =>
      obtain rfl : value = name := Option.some.inj hname
      exact ⟨first, span, rest, rfl⟩
    | group => cases hname
  · unfold checkFresh at hfresh
    split at hfresh
    · cases hfresh
    · rename_i hknown
      rwa [Bool.or_eq_true] at hknown

theorem known_of_typeOf {t : Term} {name : String} {type : ValueType}
    (h : typeOf file t name = .ok type) : type ≠ .unknown := by
  unfold typeOf at h
  split at h
  · rename_i hname
    cases h
    rintro rfl
    unfold ValueType.ofName? at hname
    split at hname <;> cases hname
  · cases h

theorem declaration_inputOf {input : Input} (h : inputOf p file term elements = .ok input) :
    Declaration p file elements input.name input.extents ∧ input.type ≠ .unknown := by
  unfold inputOf at h
  split at h
  · split at h
    · rename_i hname _
      obtain ⟨type, htype, h⟩ := Outcome.bind_eq_ok h
      obtain ⟨_, hfresh, h⟩ := Outcome.bind_eq_ok h
      cases h
      exact ⟨declaration_of_checkFresh hname hfresh (.inl rfl), known_of_typeOf htype⟩
    · rename_i hname _
      obtain ⟨type, htype, h⟩ := Outcome.bind_eq_ok h
      obtain ⟨_, hfresh, h⟩ := Outcome.bind_eq_ok h
      obtain ⟨found, hfound, h⟩ := Outcome.bind_eq_ok h
      cases h
      refine ⟨declaration_of_checkFresh hname hfresh ?_, known_of_typeOf htype⟩
      unfold extentsOf at hfound
      split at hfound
      · exact .inr ⟨_, hfound⟩
      · cases hfound
    · cases h
  · cases h

theorem declaration_arrayOf {id : Identifier} {bodies : List Term}
    (h : arrayOf p file term elements = .ok (id, bodies)) :
    Declaration p file elements id.name id.extents := by
  unfold arrayOf at h
  split at h
  · split at h
    · cases h
    · rename_i name hname
      obtain ⟨_, hfresh, h⟩ := Outcome.bind_eq_ok h
      extract_lets complete at h
      have hcomplete : ∀ typed, complete typed = .ok (id, bodies) →
          id.name = name ∧ (id.extents = [] ∨ ∃ terms, extents file false terms = .ok id.extents) := by
        intro typed hcomplete
        simp only [complete] at hcomplete
        split at hcomplete
        · split at hcomplete
          · obtain ⟨found, hfound, hcomplete⟩ := Outcome.bind_eq_ok hcomplete
            obtain ⟨_, hpure, hcomplete⟩ := Outcome.bind_eq_ok hcomplete
            cases hpure
            dsimp only at hcomplete
            split at hcomplete
            · cases hcomplete
            · cases hcomplete
              exact ⟨rfl, .inr ⟨_, hfound⟩⟩
          · obtain ⟨_, hpure, hcomplete⟩ := Outcome.bind_eq_ok hcomplete
            cases hpure
            dsimp only at hcomplete
            split at hcomplete
            · cases hcomplete
            · cases hcomplete
              exact ⟨rfl, .inl rfl⟩
        · cases hcomplete
      have hid : id.name = name ∧ (id.extents = [] ∨ ∃ terms, extents file false terms = .ok id.extents) := by
        split at h
        · split at h
          · obtain ⟨type, -, h⟩ := Outcome.bind_eq_ok h
            obtain ⟨typed, -, h⟩ := Outcome.bind_eq_ok h
            exact hcomplete typed h
          · obtain ⟨typed, -, h⟩ := Outcome.bind_eq_ok h
            exact hcomplete typed h
        · obtain ⟨typed, -, h⟩ := Outcome.bind_eq_ok h
          exact hcomplete typed h
      rw [hid.1]
      exact declaration_of_checkFresh hname hfresh hid.2
  · cases h

theorem declaration_scalarOf {id : Identifier} {bodies : List Term}
    (h : scalarOf p file term elements = .ok (id, bodies)) :
    Declaration p file elements id.name id.extents ∧ ∃ body, bodies = [body] := by
  unfold scalarOf at h
  split at h
  · split at h
    · rename_i hname
      obtain ⟨_, hfresh, h⟩ := Outcome.bind_eq_ok h
      cases h
      exact ⟨declaration_of_checkFresh hname hfresh (.inl rfl), _, rfl⟩
    · rename_i hname
      obtain ⟨_, hfresh, h⟩ := Outcome.bind_eq_ok h
      split at h
      · cases h
      · obtain ⟨_, -, h⟩ := Outcome.bind_eq_ok h
        cases h
        exact ⟨declaration_of_checkFresh hname hfresh (.inl rfl), _, rfl⟩
    · cases h
  · cases h

end Draft

/-! ### Whole programs -/

/-- A property of programs that no declaration breaks. -/
structure Program.Lasting (I : Program → Prop) : Prop where
  version : ∀ {p : Program} (version : String), I p → I { p with version }
  input : ∀ {p : Program} {file : SourceFile} {elements : List Term} {input : Input}, I p →
    Draft.Declaration p file elements input.name input.extents → input.type ≠ .unknown →
      I { p with inputs := p.inputs ++ [input] }
  identifier : ∀ {p : Program} {file : SourceFile} {elements : List Term} {id : Identifier}, I p →
    Draft.Declaration p file elements id.name id.extents → I { p with identifiers := p.identifiers ++ [id] }

namespace Draft

/-- A property of drafts that no declaration breaks. -/
structure Lasting (J : Draft → Prop) : Prop where
  beside : ∀ {d d' : Draft}, J d → d'.program = d.program → d'.definitions = d.definitions → J d'
  version : ∀ {d : Draft} (version : String), J d → J { d with program := { d.program with version } }
  input : ∀ {d : Draft} {file : SourceFile} {elements : List Term} {input : Input}, J d →
    Declaration d.program file elements input.name input.extents → input.type ≠ .unknown →
      J { d with program := { d.program with inputs := d.program.inputs ++ [input] } }
  identifier : ∀ {d : Draft} {file : SourceFile} {term : Term} {elements : List Term} {id : Identifier}
    {bodies : List Term} {isScalar : Bool}, J d → term.list? = some elements →
    Declaration d.program file elements id.name id.extents →
    (isScalar = true → ∃ body, bodies = [body]) → J { d with
      program := { d.program with identifiers := d.program.identifiers ++ [id] }
      definitions := d.definitions ++ [⟨file, term, bodies, isScalar⟩] }

variable {I : Program → Prop} {J : Draft → Prop} {library : Library}

theorem lasting_of_program (hI : Program.Lasting I) : Lasting fun d => I d.program where
  beside hd hprogram _ := hprogram ▸ hd
  version version hd := hI.version version hd
  input hd h htype := hI.input hd h htype
  identifier hd _ h _ := hI.identifier hd h

def Maintains (J : Draft → Prop) (f : Declaring Unit) : Prop := ∀ d : Draft, J d → J (f d).2

theorem maintains_pure : Maintains J (pure ()) := fun _ hd => hd

theorem maintains_bind {α : Type} {f : Declaring α} {g : α → Declaring Unit}
    (hf : ∀ d : Draft, J d → J (f d).2) (hg : ∀ a, Maintains J (g a)) : Maintains J (f >>= g) :=
  fun d hd => hg (f d).1 (f d).2 (hf d hd)

theorem maintains_get {f : Draft → Declaring Unit} (hf : ∀ d : Draft, J d → J (f d d).2) :
    Maintains J (get >>= f) := hf

theorem maintains_modify {f : Draft → Draft} (hf : ∀ d : Draft, J d → J (f d)) : Maintains J (modify f) := hf

theorem maintains_fail (hJ : Lasting J) (origin : Origin) (message : String) : Maintains J (fail origin message) :=
  fun _ hd => hJ.beside hd rfl rfl

theorem maintains_debug (hJ : Lasting J) (message : String) : Maintains J (debug message) :=
  fun _ hd => hJ.beside hd rfl rfl

theorem maintains_forM {α : Type} {f : α → Declaring Unit} (hf : ∀ a, Maintains J (f a)) (xs : List α) :
    Maintains J (xs.forM f) := by
  induction xs with
  | nil => exact maintains_pure
  | cons x xs ih =>
    rw [List.forM_eq_forM, List.forM_cons]
    exact maintains_bind (hf x) fun _ => ih

theorem maintains_declareVersion (hJ : Lasting J) (file : SourceFile) (term : Term) (elements : List Term) :
    Maintains J (declareVersion library file term elements) := by
  unfold declareVersion
  split
  · dsimp only
    split
    · exact maintains_fail hJ _ _
    · split
      · exact maintains_fail hJ _ _
      · apply maintains_modify
        intro d hd
        split
        · exact hJ.version _ hd
        · exact hd
  · exact maintains_fail hJ _ _

theorem maintains_declareInput (hJ : Lasting J) (file : SourceFile) (term : Term) (elements : List Term) :
    Maintains J (declareInput file term elements) := by
  apply maintains_get
  intro d hd
  cases h : inputOf d.program file term elements with
  | error e => exact hJ.beside hd rfl rfl
  | ok input =>
    obtain ⟨hinput, htype⟩ := declaration_inputOf h
    exact hJ.beside (hJ.input hd hinput htype) rfl rfl

/-- An identifier is added to the draft that it has been declared for. -/
theorem maintains_declareIdentifier (hJ : Lasting J) {file : SourceFile} {term : Term} {elements : List Term}
    {isScalar : Bool} {declared : Except SyntaxError (Identifier × List Term)} {d : Draft} (hd : J d)
    (hterm : term.list? = some elements) (h : ∀ id bodies, declared = .ok (id, bodies) →
      Declaration d.program file elements id.name id.extents ∧ (isScalar = true → ∃ body, bodies = [body])) :
    J (declareIdentifier file term isScalar declared d).2 := by
  cases declared with
  | error e => exact hJ.beside hd rfl rfl
  | ok declared =>
    obtain ⟨hdeclared, hbodies⟩ := h declared.1 declared.2 rfl
    exact hJ.beside (hJ.identifier hd hterm hdeclared hbodies) rfl rfl

theorem maintains_declareOutput (hJ : Lasting J) (file : SourceFile) (term : Term) (elements : List Term) :
    Maintains J (declareOutput file term elements) := by
  refine maintains_bind (fun _ hd => hd) fun d => ?_
  split
  · exact maintains_fail hJ _ _
  · split
    · exact maintains_modify fun _ hd => hJ.beside hd rfl rfl
    · exact maintains_fail hJ _ _

theorem maintains_importFrom (hJ : Lasting J) {declare : SourceFile → Declaring Unit}
    (hdeclare : ∀ file, Maintains J (declare file)) (origin : Origin) (name : String) (directories : List String) :
    Maintains J (importFrom library declare origin name directories) := by
  induction directories with
  | nil => exact maintains_fail hJ _ _
  | cons directory rest ih =>
    refine maintains_bind (fun _ hd => hJ.beside hd rfl rfl) fun _ => ?_
    split
    · exact ih
    · refine maintains_bind (fun _ hd => hd) fun d => ?_
      split
      · exact maintains_pure
      · refine maintains_bind (fun _ hd => hJ.beside hd rfl rfl) fun _ => ?_
        split
        · exact maintains_fail hJ _ _
        · exact maintains_bind (maintains_debug hJ _) fun _ => hdeclare _

theorem maintains_declareTerm (hJ : Lasting J) {declare : SourceFile → Declaring Unit}
    (hdeclare : ∀ file, Maintains J (declare file)) (file : SourceFile) (term : Term) :
    Maintains J (declareTerm library declare file term) := by
  unfold declareTerm
  split
  · rename_i span head rest hterm
    split
    · exact maintains_declareVersion hJ _ _ _
    · dsimp only [declareImport]
      split
      · exact maintains_importFrom hJ hdeclare _ _ _
      · exact maintains_fail hJ _ _
    · exact maintains_declareInput hJ _ _ _
    · exact maintains_get fun d hd => maintains_declareIdentifier hJ hd hterm fun _ _ h =>
        ⟨declaration_arrayOf h, by simp⟩
    · exact maintains_get fun d hd => maintains_declareIdentifier hJ hd hterm fun _ _ h =>
        ⟨(declaration_scalarOf h).1, fun _ => (declaration_scalarOf h).2⟩
    · exact maintains_declareOutput hJ _ _ _
    · exact maintains_fail hJ _ _
  · exact maintains_fail hJ _ _

theorem maintains_declareFile (hJ : Lasting J) (depth : Nat) (file : SourceFile) :
    Maintains J (declareFile library depth file) := by
  induction depth generalizing file with
  | zero => exact maintains_pure
  | succ depth ih =>
    unfold declareFile
    dsimp only
    split
    · exact fun _ hd => hJ.beside hd rfl rfl
    · exact maintains_forM (fun term => maintains_declareTerm hJ ih file term) _

theorem maintains_declareAll (hJ : Lasting J) (files : List SourceFile) :
    Maintains J (declareAll library files) :=
  maintains_forM
    (fun _ => maintains_bind (fun _ hd => hJ.beside hd rfl rfl) fun _ => maintains_declareFile hJ _ _) _

def Keeps (I : Program → Prop) (f : Declaring Unit) : Prop := ∀ d : Draft, I d.program → I (f d).2.program

theorem keeps_declareAll (hI : Program.Lasting I) (files : List SourceFile) :
    Keeps I (declareAll library files) :=
  maintains_declareAll (lasting_of_program hI) files

end Draft

end StreamLoom
