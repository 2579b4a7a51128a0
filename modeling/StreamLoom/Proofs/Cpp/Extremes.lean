import StreamLoom.Proofs.Cpp.Steps
import StreamLoom.Proofs.Nest.Scope
import StreamLoom.Proofs.Program.Names

/-!
# Extremes in generated C++

The extremes of the standard library are called for operations, whereas the loops of a nest have extremes with
an explicit type. The operands of an operation have been converted to a common type, but a literal among them
is not a value of the type which is kept. So the arguments of a call are of one type exactly if both of them
are narrow or neither of them is.
-/

namespace StreamLoom.Cpp

open Fragment (text int binary)

variable {model : Model} {Γ : Locals}

/-! ### Expressions of loops -/

section

variable {α : Type} {d d' : Draft}

theorem guarded_cases {x : Except Fault α} {a : α} (h : (guarded x).from d = (.ok a, d')) :
    x = .ok a ∧ d = d' := by
  cases x with
  | ok b =>
    cases h
    exact ⟨rfl, rfl⟩
  | error e => cases h

theorem adds_guarded {x : Except Fault α} : Adds model Γ (guarded x) fun Γ' a => Γ' = Γ ∧ x = .ok a := by
  cases x with
  | ok a => exact adds_of_gives (Drafting.gives_pure a) ⟨rfl, rfl⟩
  | error e => exact adds_throw _

end

/-- A call with a type of its own, or of a helper. -/
private theorem plain_call {g : String} {x y : Fragment} (hg : g ∉ extremes) (hx : Plain x) (hy : Plain y) :
    Plain (.call (text g) (.commas [x, y])) :=
  calls_call.mpr ⟨hg, calls_commas.mpr (List.forall_mem_cons.mpr ⟨hx, List.forall_mem_singleton.mpr hy⟩)⟩

private theorem plain_foldl {join : Fragment → Fragment → Fragment}
    (hjoin : ∀ x y, Plain x → Plain y → Plain (join x y)) {rest : List Fragment} {f : Fragment} (hf : Plain f) (hrest : ∀ x ∈ rest, Plain x) :
    Plain (rest.foldl join f) := by
  induction rest generalizing f with
  | nil => exact hf
  | cons x rest ih =>
    obtain ⟨hx, hrest⟩ := List.forall_mem_cons.mp hrest
    exact ih (hjoin f x hf hx) hrest

mutual

theorem plain_expr : (e : Nest.Expr) → {f : Fragment} → expr e = .ok f → Plain f
  | .int n, f, h => by
    cases h
    exact calls_int n
  | .name name, f, h => by
    cases h
    exact calls_text name
  | .binary op l r, f, h => by
    rw [expr] at h
    obtain ⟨x, hx, h⟩ := Outcome.bind_eq_ok h
    obtain ⟨y, hy, h⟩ := Outcome.bind_eq_ok h
    have hx := plain_expr l hx
    have hy := plain_expr r hy
    cases op with
    | add | sub | mul =>
      cases h
      exact calls_binary.mpr ⟨hx, hy⟩
    | floorDiv | ceilDiv | mod =>
      cases h
      exact plain_call (by decide) hx hy
  | .extreme op es, f, h => by
    rw [expr] at h
    obtain ⟨fs, hfs, h⟩ := Outcome.bind_eq_ok h
    have hfs := plain_exprs es hfs
    split at h
    · cases h
    · cases h
      obtain ⟨hfirst, hrest⟩ := List.forall_mem_cons.mp hfs
      have hnamed : "std::" ++ op.text ++ "<int64_t>" ∉ extremes := by
        cases op <;> decide
      exact plain_foldl (fun x y hx hy => plain_call hnamed hx hy) hfirst hrest

theorem plain_exprs : (es : List Nest.Expr) → {fs : List Fragment} → exprs es = .ok fs → ∀ f ∈ fs, Plain f
  | [], fs, h => by
    cases h
    exact fun f hf => absurd hf List.not_mem_nil
  | e :: rest, fs, h => by
    rw [exprs] at h
    obtain ⟨f, hf, h⟩ := Outcome.bind_eq_ok h
    obtain ⟨fs, hfs, h⟩ := Outcome.bind_eq_ok h
    cases h
    exact List.forall_mem_cons.mpr ⟨plain_expr e hf, plain_exprs rest hfs⟩

end

theorem plain_condition {c : Nest.Condition} {f : Fragment} (h : condition c = .ok f) : Plain f := by
  obtain ⟨x, hx, h⟩ := Outcome.bind_eq_ok h
  obtain ⟨y, hy, h⟩ := Outcome.bind_eq_ok h
  cases h
  exact calls_binary.mpr ⟨plain_expr c.left hx, plain_expr c.right hy⟩

theorem plain_conjunction {conditions : List Nest.Condition} {f : Fragment} (h : conjunction conditions = .ok f) :
    Plain f := by
  obtain ⟨fs, hfs, h⟩ := Outcome.bind_eq_ok h
  have hplain : ∀ f ∈ fs, Plain f := by
    intro f hf
    obtain ⟨c, -, hc⟩ := Outcome.exists_of_forall₂ (Outcome.forall₂_of_mapM hfs) hf
    exact plain_condition hc
  split at h
  · cases h
    exact calls_missing
  · cases h
    obtain ⟨hfirst, hrest⟩ := List.forall_mem_cons.mp hplain
    exact plain_foldl (fun x y hx hy => calls_binary.mpr ⟨hx, hy⟩) hfirst hrest

theorem indices_exprs {names : Set String} (hnames : ∀ name ∈ names, (name, .int) ∈ Γ) {es : List Nest.Expr}
    (hes : ∀ e ∈ es, e.Atom names) {fs : List Fragment} (h : exprs es = .ok fs) : ∀ f ∈ fs, Index model Γ f := by
  induction es generalizing fs with
  | nil =>
    cases h
    exact fun f hf => absurd hf List.not_mem_nil
  | cons e es ih =>
    obtain ⟨he, hes⟩ := List.forall_mem_cons.mp hes
    rw [exprs] at h
    obtain ⟨f, hf, h⟩ := Outcome.bind_eq_ok h
    obtain ⟨fs, hfs, h⟩ := Outcome.bind_eq_ok h
    cases h
    refine List.forall_mem_cons.mpr ⟨?_, ih hes hfs⟩
    rcases he with ⟨n, rfl⟩ | ⟨name, hname, rfl⟩
    · cases hf
      exact index_int n
    · cases hf
      exact index_name (hnames name hname)

/-! ### Loop nests -/

theorem isIterator_of_mem {name : String} (h : name ∈ Nest.iterators) : IsIterator name := by
  rcases h with rfl | ⟨dim, rfl⟩
  · exact isIterator_single 't'
  · apply isIterator_of_head
    simp [Nest.iteratorName]

theorem adds_iterator {name : String} {f : Fragment} (hname : IsIterator name) (hf : Plain f) :
    Adds model Γ (Drafting.add (.declare (text "int64_t") (text name) f)) fun Γ' _ =>
      ∀ v ∈ ({name} : Set String), (v, .int) ∈ Γ' := by
  have hdeclared : declared [.declare (text "int64_t") (text name) f] = {(name, .int)} := declared_variable rfl
  intro d x d' hrun
  cases hrun
  refine ⟨_, rfl, ⟨?_, ?_⟩, ?_⟩
  · exact hdeclared ▸ Apart.iterator hname
  · rw [List.forall_mem_singleton]
    exact calls_declare.mpr ⟨calls_text _, calls_text name, checked_of_plain hf⟩
  · rintro v rfl
    exact .inr (hdeclared.ge rfl)

/-- What lowering to C++ relies on in a model: everything has a type. -/
structure Complete (model : Model) : Prop where
  arrays : ∀ array ∈ model.arrays, array.type ≠ .unknown
  inputs : ∀ input ∈ model.inputs, input.type ≠ .unknown
  typed : model.Typed

section

variable [Arithmetic] {names : Set String} {steady : Bool}

mutual

theorem adds_node (hm : Complete model) : (n : Nest.Node) → {Γ : Locals} → {names : Set String} →
    n.Scoped names → (∀ name ∈ names, (name, .int) ∈ Γ) →
    Adds model Γ (node model steady n) fun Γ' _ => ∀ name ∈ n.bound, (name, .int) ∈ Γ'
  | .block body, Γ, names, hscoped, hnames => by
    rw [node]
    refine (adds_of_nested (adds_nodes hm body hscoped hnames) fun inner d x d' hrun => ?_).imp
      fun _ _ _ _ h => absurd h (Set.notMem_empty _)
    cases hrun
    exact ⟨_, rfl, rfl, fun n n' hsound => hsound.block⟩
  | .loop iterator lower upper body, Γ, names, hscoped, hnames => by
    rw [node]
    obtain ⟨hiterator, hbody⟩ := hscoped
    have hnames' : ∀ name ∈ names ∪ {iterator}, (name, .int) ∈ Γ ∪ {(iterator, .int)} := by
      rintro name (hname | rfl)
      · exact .inl (hnames name hname)
      · exact .inr rfl
    refine (adds_of_nested (adds_nodes hm body hbody hnames') fun inner d x d' hrun => ?_).imp
      fun _ _ _ _ h => absurd h (Set.notMem_empty _)
    obtain ⟨l, d₁, hl, hrun⟩ := Outcome.run_bind_cases hrun
    obtain ⟨hlower, rfl⟩ := guarded_cases hl
    obtain ⟨u, d₂, hu, hrun⟩ := Outcome.run_bind_cases hrun
    obtain ⟨hupper, rfl⟩ := guarded_cases hu
    cases hrun
    refine ⟨_, rfl, rfl, fun n n' hsound => ?_⟩
    exact hsound.loop (isIterator_of_mem hiterator) (plain_expr lower hlower) (plain_expr upper hupper)
  | .guarded conditions body, Γ, names, hscoped, hnames => by
    rw [node]
    refine (adds_of_nested (adds_nodes hm body hscoped hnames) fun inner d x d' hrun => ?_).imp
      fun _ _ _ _ h => absurd h (Set.notMem_empty _)
    obtain ⟨c, d₁, hc, hrun⟩ := Outcome.run_bind_cases hrun
    obtain ⟨hcondition, rfl⟩ := guarded_cases hc
    cases hrun
    refine ⟨_, rfl, rfl, fun n n' hsound => ?_⟩
    exact hsound.branch (checked_of_plain (plain_conjunction hcondition)) (sound_nil le_rfl)
  | .assign name value, Γ, names, hscoped, _ => by
    rw [node]
    refine adds_guarded.bind fun Γ' f _ ⟨hsame, hf⟩ => ?_
    exact adds_iterator (isIterator_of_mem hscoped) (plain_expr value hf)
  | .visit statement name index, Γ, names, hscoped, hnames => by
    rw [node]
    refine adds_guarded.bind fun Γ' fs _ ⟨hsame, hfs⟩ => ?_
    have hindices : (discipline model hm.arrays hm.inputs).Indices Γ' fs :=
      indices_exprs (fun name hname => hsame ▸ hnames name hname) hscoped hfs
    have hstatement : Adds model Γ' (Lowering.statement model (target model) statement fs steady)
        fun _ _ => True :=
      (discipline model hm.arrays hm.inputs).holds_statement hm.typed statement hindices steady
    exact hstatement.imp fun _ _ _ _ h => absurd h (Set.notMem_empty _)

theorem adds_nodes (hm : Complete model) : (ns : List Nest.Node) → {Γ : Locals} → {names : Set String} →
    Nest.Node.ScopedAll names ns → (∀ name ∈ names, (name, .int) ∈ Γ) →
    Adds model Γ (nodes model steady ns) fun _ _ => True
  | [], Γ, names, _, _ => by
    rw [nodes]
    exact adds_of_gives (Drafting.gives_pure _) trivial
  | n :: rest, Γ, names, hscoped, hnames => by
    rw [nodes]
    refine (adds_node hm n hscoped.1 hnames).bind fun Γ' _ hsubset hbound => ?_
    apply adds_nodes hm rest hscoped.2
    rintro name (hname | hname)
    · exact hsubset (hnames name hname)
    · exact hbound name hname

end

end

/-! ### Definitions -/

/-- The extremes inside of a definition have arguments of one type as far as possible, and its variables are
told apart by their names. -/
structure Agrees (model : Model) (f : Fragment) : Prop where
  unique : ∀ v ∈ declared [f], ∀ v' ∈ declared [f], v.1 = v'.1 → v = v'
  checked : Checked model (declared [f]) f

section

variable {f : Fragment} {α β : Type} {part : Drafting α} {n n' : Nat}

theorem agrees_of_plain (hdeclared : ∀ v, ¬ Declares f v) (hf : Plain f) : Agrees model f :=
  ⟨fun v hv => absurd (declared_singleton.mp hv) (hdeclared v), checked_of_plain hf⟩

theorem declared_function {specifier name : String} {type : Fragment} {parameters body : List Fragment} :
    declared [.function specifier type name parameters body] = declared body := by
  ext v
  rw [declared_singleton]
  constructor
  · intro h
    cases h with
    | function hf h => exact ⟨_, hf, h⟩
  · rintro ⟨f, hf, h⟩
    exact .function hf h

theorem Sound.agrees {specifier name type : String} {parameters body : List Fragment}
    (hparameters : ∀ x ∈ parameters, Plain x) (h : Sound model ∅ n n' body) :
    Agrees model (.function specifier (text type) name parameters body) := by
  constructor
  · rw [declared_function]
    exact h.apart.unique
  · rw [declared_function]
    refine calls_function.mpr ⟨calls_text type, fun x hx => checked_of_plain (hparameters x hx), fun f hf => ?_⟩
    rw [← Set.empty_union (declared body)]
    exact h.checked f hf

theorem adds_nested {part : Drafting Unit} (h : Adds model Γ part fun _ _ => True) :
    Adds model Γ (Drafting.nested part) fun Γ' body => Γ' = Γ ∧ ∃ n n', Sound model Γ n n' body := by
  intro d body d' hrun
  obtain ⟨hstatements, hsound⟩ := sound_of_nested h hrun
  refine ⟨[], ?_, sound_nil hsound.apart.le, ?_, _, _, hsound⟩
  · rw [hstatements, List.append_nil]
  · rw [declared_nil, Set.union_empty]

theorem adds_mapM {P : β → Prop} {g : α → Drafting β} {xs : List α}
    (h : ∀ x ∈ xs, Adds model Γ (g x) fun Γ' y => Γ' = Γ ∧ P y) :
    Adds model Γ (xs.mapM g) fun Γ' ys => Γ' = Γ ∧ ∀ y ∈ ys, P y := by
  induction xs with
  | nil =>
    rw [List.mapM_nil]
    exact adds_of_gives (Drafting.gives_pure _) ⟨rfl, fun y hy => absurd hy List.not_mem_nil⟩
  | cons x xs ih =>
    obtain ⟨hx, hxs⟩ := List.forall_mem_cons.mp h
    rw [List.mapM_cons]
    refine hx.bind fun Γ₁ y _ ⟨hsame, hy⟩ => ?_
    subst hsame
    refine (ih hxs).bind fun Γ₂ ys _ ⟨hsame, hys⟩ => ?_
    exact adds_of_gives (Drafting.gives_pure _) ⟨hsame, List.forall_mem_cons.mpr ⟨hy, hys⟩⟩

theorem adds_forIn {g : α → Drafting (ForInStep PUnit)} {xs : List α}
    (h : ∀ (Γ : Locals), ∀ x ∈ xs, Adds model Γ (g x) fun _ _ => True) :
    Adds model Γ (forIn xs PUnit.unit fun x _ => g x) fun _ _ => True := by
  induction xs generalizing Γ with
  | nil => exact adds_of_gives (Drafting.gives_pure _) trivial
  | cons x xs ih =>
    rw [List.forIn_cons]
    refine (h Γ x List.mem_cons_self).bind fun Γ' step _ _ => ?_
    cases step with
    | done _ => exact adds_of_gives (Drafting.gives_pure _) trivial
    | yield _ => exact ih fun Γ y hy => h Γ y (List.mem_cons_of_mem x hy)

private theorem plain_indexMod {v x : Fragment} {modulus : Int} (hv : Plain v) (h : indexMod v modulus = .ok x) :
    Plain x := by
  unfold indexMod at h
  split at h
  · cases h
    exact calls_int 0
  · split at h
    · obtain ⟨n, -, rfl⟩ := Outcome.map_eq_ok h
      exact calls_int n
    · cases h
      exact plain_call (by decide) hv (calls_int modulus)

theorem adds_parameters : Adds model Γ (parameters model) fun Γ' ps => Γ' = Γ ∧ ∀ p ∈ ps, Plain p := by
  unfold parameters
  refine (adds_mapM (P := Plain) fun entry _ => ?inputs).bind fun Γ₁ inputs _ hmapped => ?_
  case inputs =>
    refine adds_typeOf.bind fun Γ₁ type _ htyped => ?_
    obtain ⟨hsame, name, htype, -⟩ := htyped
    exact adds_of_gives (Drafting.gives_pure _) ⟨hsame, by simp [Plain, htype]⟩
  obtain ⟨rfl, hinputs⟩ := hmapped
  have hall : ∀ output, (∀ p ∈ output, Plain p) → ∀ p ∈ inputs ++ output ++
      [(text "state*").parameter stateParameter], Plain p := by
    intro output houtput p hp
    rcases List.mem_append.mp hp with hp | hp
    · exact (List.mem_append.mp hp).elim (hinputs p) (houtput p)
    · rw [List.mem_singleton.mp hp]
      exact calls_parameter.mpr ⟨calls_text _, calls_text _⟩
  dsimp only
  split
  · refine (adds_arrayAt _).bind fun Γ₂ array _ hfound => ?_
    obtain ⟨rfl, -⟩ := hfound
    refine adds_typeOf.bind fun Γ₃ type _ htyped => ?_
    obtain ⟨hsame, name, htype, -⟩ := htyped
    exact adds_of_gives (Drafting.gives_pure _) ⟨hsame, hall _ (by simp [Plain, htype, outputParameter])⟩
  · exact adds_of_gives (Drafting.gives_pure _) ⟨rfl, hall [] fun p hp => absurd hp List.not_mem_nil⟩

end

section

variable [Arithmetic]

theorem adds_advance : Adds model Γ (advance model) fun _ _ => True := by
  unfold advance
  refine (adds_forIn fun Γ array _ => ?phases).bind fun Γ' _ _ _ => ?count
  case phases =>
    have hphase : Plain (ofState (phaseName array)) := by simp [Plain, ofState, stateParameter]
    split
    · refine adds_guarded.bind fun Γ' turned _ hguarded => ?_
      obtain ⟨-, hturned⟩ := hguarded
      have hplain : Plain turned := plain_indexMod (calls_binary.mpr ⟨hphase, calls_int _⟩) hturned
      refine (adds_assign (checked_of_plain hphase) (checked_of_plain hplain)).bind fun _ _ _ _ => ?_
      exact adds_of_gives (Drafting.gives_pure _) trivial
    · exact adds_of_gives (Drafting.gives_pure _) trivial
  case count => exact adds_step declared_increment (by simp [ofState, stateParameter])

theorem adds_state : Adds model Γ (state model) fun Γ' f => Γ' = Γ ∧ Plain f ∧ ∀ v, ¬ Declares f v := by
  unfold state
  refine (adds_mapM (P := fun fs => ∀ f ∈ fs, Plain f) fun array _ => ?_).bind
    fun Γ₁ fields _ ⟨hsame, hfields⟩ => ?_
  · refine adds_typeOf.bind fun Γ₁ type _ ⟨hsame, name, htype, _⟩ => ?_
    refine adds_of_gives (Drafting.gives_pure _) ⟨hsame, ?_⟩
    split
    · simp [Plain, htype]
    · simp [Plain, htype]
  · refine adds_of_gives (Drafting.gives_pure _) ⟨hsame, ?_, fun v h => by cases h⟩
    refine calls_struct.mpr fun f hf => ?_
    rcases List.mem_append.mp hf with hf | hf
    · obtain ⟨fs, hfs, hf⟩ := List.mem_flatten.mp hf
      exact hfields fs hfs f hf
    · rw [List.mem_singleton.mp hf]
      simp

theorem adds_function (hm : Complete model) {name : String} {body : List Nest.Node}
    (hbody : Nest.Node.ScopedAll ∅ body) (steady : Bool) :
    Adds model ∅ (function model name body steady) fun Γ' f => Γ' = ∅ ∧ Agrees model f := by
  unfold function
  refine adds_parameters.bind fun Γ₁ ps _ ⟨hsame, hps⟩ => ?_
  subst hsame
  have hnodes : ∀ Γ, Adds model Γ (nodes model steady body) fun _ _ => True :=
    fun Γ => adds_nodes hm body hbody fun _ h => absurd h (Set.notMem_empty _)
  have hstart : Adds model ∅ (Drafting.add (.assign (.unary "*" stateParameter) (text "state()")))
      fun _ _ => True :=
    adds_assign (calls_unary.mpr (calls_text _)) (calls_text _)
  have hbody : Adds model ∅ (do
      if !steady then Drafting.add (.assign (.unary "*" stateParameter) (text "state()"))
      nodes model steady body
      if steady then advance model) fun _ _ => True := by
    cases steady with
    | true => exact (hnodes ∅).bind fun Γ' _ _ _ => adds_advance
    | false =>
      refine hstart.bind fun Γ' _ _ _ => (hnodes Γ').bind fun Γ'' _ _ _ => ?_
      exact adds_of_gives (Drafting.gives_pure _) trivial
  refine (adds_nested hbody).bind fun Γ₂ inner _ ⟨hsame, n, n', hsound⟩ => ?_
  exact adds_of_gives (Drafting.gives_pure _) ⟨hsame, hsound.agrees hps⟩

theorem adds_definitions (hm : Complete model) {nests : Nest.Nests}
    (hprologue : Nest.Node.ScopedAll ∅ nests.prologue) (hsteady : Nest.Node.ScopedAll ∅ nests.steady) :
    Adds model ∅ (definitions model nests) fun _ parts => ∀ part ∈ parts, Agrees model part := by
  unfold definitions
  refine adds_state.bind fun Γ₁ f _ ⟨hsame, hf, hfdeclared⟩ => ?_
  subst hsame
  refine (adds_function hm hprologue false).bind fun Γ₁ g _ ⟨hsame, hg⟩ => ?_
  subst hsame
  have hstate : Agrees model f := agrees_of_plain hfdeclared hf
  have hblank : Agrees model .blankLine := agrees_of_plain (fun v h => by cases h) calls_blankLine
  have hhelpers : Agrees model (.verbatim helpers) := agrees_of_plain (fun v h => by cases h) (calls_verbatim _)
  split
  · refine adds_of_gives (Drafting.gives_pure _) ?_
    simp [hhelpers, hstate, hblank, hg]
  · refine (adds_function hm hsteady true).bind fun Γ₁ g' _ ⟨hsame, hg'⟩ => ?_
    refine adds_of_gives (Drafting.gives_pure _) ?_
    simp [hhelpers, hstate, hblank, hg, hg']

end

/-! ### Compiled programs -/

section

variable [Arithmetic] {config : Config} {library : Library} {files : List SourceFile} {c : Compilation}

theorem complete_of_staged {m : Model} (hc : c.Staged config library files m) : Complete c.model where
  arrays := hc.named.typed
  inputs := by
    obtain ⟨copies, written, hassembled⟩ := Model.assembled_of_build hc.build
    have hinputs : c.model.inputs = c.program.inputs :=
      (Allocation.inputs_eq hc.allocate).trans hassembled.inputs
    rw [hinputs]
    exact (Program.named_of_read hc.read).1.typed
  typed := (Model.typed_of_build hc.build).allocate hc.allocate

theorem exists_definitions {model : Model} {nests : Nest.Nests} {space code : String}
    (h : (generate model nests space).1 = .ok code) : ∃ parts d body,
      (definitions model nests).from {} = (.ok parts, d) ∧
      Fragment.render (.scope (if space.isEmpty then defaultNamespace else space) parts) = .ok body ∧
      code = includes ++ body ++ "\n" := by
  have hrun : (source model nests space).from {} = (.ok code, ((source model nests space).from {}).2) :=
    Prod.ext h rfl
  obtain ⟨parts, d, hparts, hrun⟩ := Outcome.run_bind_cases hrun
  obtain ⟨body, d', hbody, hrun⟩ := Outcome.run_bind_cases hrun
  cases hrun
  exact ⟨parts, d, body, hparts, (guarded_cases hbody).1, rfl⟩

/-- In each definition of a generated program, no name belongs to variables of different types, and each
extreme that is called has two arguments. These have a common type if and only if both of them are narrow or
neither of them is, provided that nothing inside of them keeps them from having a type. -/
theorem extremes_typed_iff (h : (Compilation.compile config library files).execute.1 = .ok c)
    {space code : String} (hcode : (generate c.model c.nests space).1 = .ok code) : ∃ parts d body,
      (definitions c.model c.nests).from {} = (.ok parts, d) ∧
      Fragment.render (.scope (if space.isEmpty then defaultNamespace else space) parts) = .ok body ∧
      code = includes ++ body ++ "\n" ∧
      ∀ part ∈ parts,
        (∀ v ∈ declared [part], ∀ v' ∈ declared [part], v.1 = v'.1 → v = v') ∧
        ∀ f ∈ extremes, ∀ arguments, Fragment.Part (.call (text f) arguments) part →
          ∃ x y, arguments = .commas [x, y] ∧
            ((∃ σ, HasType c.model (declared [part]) x σ ∧ HasType c.model (declared [part]) y σ) ↔
              Tidy x ∧ Tidy y ∧ (Narrow x ↔ Narrow y)) := by
  obtain ⟨m, hc⟩ := Compilation.staged_of_compile h
  obtain ⟨hprologue, hsteady⟩ := Nest.scopedAll_generate hc.generate
  obtain ⟨parts, d, body, hparts, hbody, hcode⟩ := exists_definitions hcode
  refine ⟨parts, d, body, hparts, hbody, hcode, fun part hpart => ?_⟩
  obtain ⟨_, -, -, hagrees⟩ := adds_definitions (complete_of_staged hc) hprologue hsteady {} parts d hparts
  obtain ⟨hunique, hchecked⟩ := hagrees part hpart
  refine ⟨hunique, fun f hf arguments hcall => ?_⟩
  obtain ⟨x, y, harguments, htyped⟩ := hchecked f arguments hcall hf
  refine ⟨x, y, harguments, ?_, ?_⟩
  · rintro ⟨σ, hx, hy⟩
    exact ⟨hx.tidy, hy.tidy, hx.narrow_iff.trans hy.narrow_iff.symm⟩
  · rintro ⟨hx, hy, hnarrow⟩
    exact htyped hx hy hnarrow

end

/-! ### A literal beside an iterator -/

section

attribute [local instance] Arithmetic.word64

/-- An iterator that is bounded by a short literal. -/
def clamped : List SourceFile := [⟨"", "(array a int [inf] (pattern [i] (min i 3)))".toList⟩]

/-- Whether a fragment is the lesser of an iterator, to which the period has been added, and three. -/
def isClamp : Fragment → Bool
  | .call (.text f) (.commas [.binary op (.text i) (.member (.text s) field), .int n]) =>
    decide (f = "std::min" ∧ op = "+" ∧ i = "i0" ∧ s = "s" ∧ field = "period" ∧ n = 3)
  | _ => false

theorem eq_of_isClamp {f : Fragment} (h : isClamp f = true) :
    f = .call (text "std::min") (.commas [binary "+" (text "i0") (ofState "period"), int 3]) := by
  unfold isClamp at h
  split at h
  · obtain ⟨rfl, rfl, rfl, rfl, rfl, rfl⟩ := of_decide_eq_true h
    rfl
  · cases h

theorem extremes_typed_clamped : ∃ c code parts d,
    (Compilation.compile {} ⟨⟨"", []⟩, []⟩ clamped).execute.1 = .ok c ∧
    (generate c.model c.nests "").1 = .ok code ∧
    (definitions c.model c.nests).from {} = (.ok parts, d) ∧
    ∃ part ∈ parts, ∃ x y, Fragment.Part (.call (text "std::min") (.commas [x, y])) part ∧
      ¬ ∃ σ, HasType c.model (declared [part]) x σ ∧ HasType c.model (declared [part]) y σ := by
  have hrun : (Outcome.passes (Compilation.compile {} ⟨⟨"", []⟩, []⟩ clamped).execute.1 fun c =>
      Outcome.passes (generate c.model c.nests "").1 (fun _ => true) &&
        Outcome.passes ((definitions c.model c.nests).from {}).1 fun parts =>
          (parts[5]?.bind (Fragment.at? [2, 3, 1, 1])).any isClamp) = true := by
    decide +kernel
  obtain ⟨c, hc, hpasses⟩ := Outcome.exists_of_passes hrun
  obtain ⟨hgenerate, hdefinitions⟩ := Bool.and_eq_true_iff.mp hpasses
  obtain ⟨code, hcode, -⟩ := Outcome.exists_of_passes hgenerate
  obtain ⟨parts, d, body, hparts, -, -, hall⟩ := extremes_typed_iff hc hcode
  rw [hparts] at hdefinitions
  obtain ⟨call, hcall, hclamp⟩ := (Option.any_eq_true _ _).mp hdefinitions
  obtain ⟨part, hpart, hat⟩ := Option.bind_eq_some_iff.mp hcall
  have hpart : part ∈ parts := List.mem_of_getElem? hpart
  have hclamped := eq_of_isClamp hclamp ▸ Fragment.part_of_at? hat
  obtain ⟨x, y, heq, htyped⟩ := (hall part hpart).2 "std::min" (by decide) _ hclamped
  cases heq
  refine ⟨c, code, parts, d, hc, hcode, hparts, part, hpart, _, _, hclamped, fun hcommon => ?_⟩
  obtain ⟨-, -, hnarrow⟩ := htyped.mp hcommon
  -- Three is narrow, but a sum with an iterator is not.
  cases hnarrow.mpr (.int (by decide)) with
  | arithmetic _ hi _ => cases hi

end

end StreamLoom.Cpp
