import StreamLoom.Proofs.Cpp.Types

/-!
# Calls in generated C++

What is asked of the calls in a fragment, whatever the fragment is: a property of all calls holds of a fragment
as soon as it holds of its children, and of itself if it is a call. The extremes are checked under the
condition that nothing inside of their arguments keeps these from having a type.
-/

namespace StreamLoom.Cpp

open Fragment (text int binary Part part_iff)

def Calls (P : String → Fragment → Prop) (f : Fragment) : Prop :=
  ∀ g arguments, Part (.call (text g) arguments) f → P g arguments

section

attribute [local simp] Fragment.children

variable {P Q : String → Fragment → Prop} {f g x y : Fragment} {op : String} {parts : List Fragment}

theorem Calls.imp (h : Calls P f) (himp : ∀ g arguments, P g arguments → Q g arguments) : Calls Q f :=
  fun g arguments hpart => himp g arguments (h g arguments hpart)

theorem calls_iff : Calls P f ↔
    (∀ c ∈ f.children, Calls P c) ∧ ∀ g arguments, f = .call (text g) arguments → P g arguments := by
  constructor
  · intro h
    constructor
    · intro c hc g arguments hpart
      exact h g arguments (.child hc hpart)
    · intro g arguments heq
      apply h
      rw [heq]
      exact .self
  · intro h g arguments hpart
    cases part_iff.mp hpart with
    | inl heq => exact h.2 g arguments heq.symm
    | inr hchild =>
      obtain ⟨c, hc, hpart⟩ := hchild
      exact h.1 c hc g arguments hpart

/-- What is no call consists of its children. -/
private theorem calls_iff_children (hf : ∀ g arguments, f ≠ .call (text g) arguments) :
    Calls P f ↔ ∀ c ∈ f.children, Calls P c := by
  rw [calls_iff]
  exact and_iff_left fun g arguments heq => absurd heq (hf g arguments)

@[simp] theorem calls_text (s : String) : Calls P (text s) := by
  simp [calls_iff_children]

@[simp] theorem calls_verbatim (s : String) : Calls P (.verbatim s) := by
  simp [calls_iff_children]

@[simp] theorem calls_blankLine : Calls P .blankLine := by
  simp [calls_iff_children]

@[simp] theorem calls_missing : Calls P .missing := by
  simp [calls_iff_children]

@[simp] theorem calls_int (n : Int) : Calls P (int n) := by
  simp [calls_iff_children]

@[simp] theorem calls_real (r : Binary64) : Calls P (.real r) := by
  simp [calls_iff_children]

@[simp] theorem calls_bool (b : Bool) : Calls P (.bool b) := by
  simp [calls_iff_children]

@[simp] theorem calls_binary : Calls P (binary op x y) ↔ Calls P x ∧ Calls P y := by
  simp [calls_iff_children]

@[simp] theorem calls_unary : Calls P (.unary op x) ↔ Calls P x := by
  simp [calls_iff_children]

@[simp] theorem calls_element : Calls P (.element x y) ↔ Calls P x ∧ Calls P y := by
  simp [calls_iff_children]

@[simp] theorem calls_member {name : String} : Calls P (.member x name) ↔ Calls P x := by
  simp [calls_iff_children]

@[simp] theorem calls_commas : Calls P (.commas parts) ↔ ∀ c ∈ parts, Calls P c := by
  simp [calls_iff_children]

@[simp] theorem calls_sequence : Calls P (.sequence parts) ↔ ∀ c ∈ parts, Calls P c := by
  simp [calls_iff_children]

@[simp] theorem calls_cast : Calls P (.cast x y) ↔ Calls P x ∧ Calls P y := by
  simp [calls_iff_children]

@[simp] theorem calls_declare : Calls P (.declare f x y) ↔ Calls P f ∧ Calls P x ∧ Calls P y := by
  simp [calls_iff_children]

@[simp] theorem calls_assign : Calls P (.assign x y) ↔ Calls P x ∧ Calls P y := by
  simp [calls_iff_children]

@[simp] theorem calls_increment : Calls P (.increment x) ↔ Calls P x := by
  simp [calls_iff_children]

@[simp] theorem calls_branch {first second : List Fragment} : Calls P (.branch x first second) ↔
    Calls P x ∧ (∀ c ∈ first, Calls P c) ∧ ∀ c ∈ second, Calls P c := by
  simp [calls_iff_children, or_imp, forall_and]

@[simp] theorem calls_loop {body : List Fragment} : Calls P (.loop f x y body) ↔
    Calls P f ∧ Calls P x ∧ Calls P y ∧ ∀ c ∈ body, Calls P c := by
  simp [calls_iff_children]

@[simp] theorem calls_block : Calls P (.block parts) ↔ ∀ c ∈ parts, Calls P c := by
  simp [calls_iff_children]

@[simp] theorem calls_parameter : Calls P (.parameter x y) ↔ Calls P x ∧ Calls P y := by
  simp [calls_iff_children]

@[simp] theorem calls_function {specifier name : String} {body : List Fragment} :
    Calls P (.function specifier x name parts body) ↔
      Calls P x ∧ (∀ c ∈ parts, Calls P c) ∧ ∀ c ∈ body, Calls P c := by
  simp [calls_iff_children, or_imp, forall_and]

@[simp] theorem calls_struct {name : String} : Calls P (.struct name parts) ↔ ∀ c ∈ parts, Calls P c := by
  simp [calls_iff_children]

@[simp] theorem calls_call {g : String} : Calls P (.call (text g) x) ↔ P g x ∧ Calls P x := by
  rw [calls_iff]
  simp [and_comm]

end

/-! ### Extremes -/

/-- The helpers that exist for integers and for reals. -/
def versioned : List String := ["mod", "floor_div"]

/-- A call whose arguments are wide enough: both arguments of an extreme are narrow or neither of them is, and
not both arguments of a helper are. -/
def IsTidy (g : String) (arguments : Fragment) : Prop :=
  ∀ x y, arguments = .commas [x, y] →
    (g ∈ extremes → (Narrow x ↔ Narrow y)) ∧ (g ∈ versioned → ¬ (Narrow x ∧ Narrow y))

/-- Nothing inside of an expression keeps it from having a type. -/
abbrev Tidy (x : Fragment) : Prop := Calls IsTidy x

variable {model : Model} {Γ Γ' : Locals} {f x y : Fragment} {σ : CType}

private theorem not_mem_tested {g : String} (h : g ∈ "std::abs" :: "std::pow" :: realFunctions) :
    g ∉ extremes ∧ g ∉ versioned := by
  revert g
  decide

private theorem not_mem_versioned {g : String} (h : g ∈ extremes) : g ∉ versioned := by
  revert g
  decide

private theorem tidy_call {g : String} {arguments : List Fragment}
    (hg : g ∈ "std::abs" :: "std::pow" :: realFunctions) (h : ∀ y ∈ arguments, Tidy y) : Tidy (.call (text g) (.commas arguments)) := by
  obtain ⟨hextreme, hversioned⟩ := not_mem_tested hg
  refine calls_call.mpr ⟨fun _ _ _ => ?_, calls_commas.mpr h⟩
  exact ⟨fun h => absurd h hextreme, fun h => absurd h hversioned⟩

theorem tidy_pair {g : String} : Tidy (.call (text g) (.commas [x, y])) ↔
    ((g ∈ extremes → (Narrow x ↔ Narrow y)) ∧ (g ∈ versioned → ¬ (Narrow x ∧ Narrow y))) ∧ Tidy x ∧ Tidy y := by
  have htidy : IsTidy g (.commas [x, y]) ↔
      (g ∈ extremes → (Narrow x ↔ Narrow y)) ∧ (g ∈ versioned → ¬ (Narrow x ∧ Narrow y)) := by
    constructor
    · exact fun h => h x y rfl
    · intro h x' y' heq
      cases heq
      exact h
  rw [Tidy, calls_call, htidy, calls_commas, List.forall_mem_cons, List.forall_mem_singleton]

private theorem not_narrow_of_version {ρ σ υ : CType} (hx : HasType model Γ x ρ) (hy : HasType model Γ y σ)
    (hversion : ρ.version σ = some υ) : ¬ (Narrow x ∧ Narrow y) := by
  rw [hx.narrow_iff, hy.narrow_iff]
  rintro ⟨rfl, rfl⟩
  cases hversion

theorem HasType.tidy (h : HasType model Γ x σ) : Tidy x := by
  induction h with
  | int n => exact calls_int n
  | real r => exact calls_real r
  | bool b => exact calls_bool b
  | name => exact calls_text _
  | phase => simp [ofState, stateParameter]
  | period => simp [ofState, stateParameter]
  | buffer _ _ _ _ ih => simp [ofState, stateParameter, ih]
  | input _ _ _ _ ih => simp [ih]
  | cast _ _ ih => simp [ih]
  | negate _ _ ih => exact calls_unary.mpr ih
  | not _ ih => exact calls_unary.mpr ih
  | arithmetic _ _ _ _ _ ihx ihy => exact calls_binary.mpr ⟨ihx, ihy⟩
  | comparison _ _ _ ihx ihy => exact calls_binary.mpr ⟨ihx, ihy⟩
  | logical _ _ _ ihx ihy => exact calls_binary.mpr ⟨ihx, ihy⟩
  | extreme hg hx hy ihx ihy =>
    refine tidy_pair.mpr ⟨⟨fun _ => ?_, fun hversioned => absurd hversioned (not_mem_versioned hg)⟩, ihx, ihy⟩
    rw [hx.narrow_iff, hy.narrow_iff]
  | abs _ _ ih => exact tidy_call (by decide) (List.forall_mem_singleton.mpr ih)
  | real₁ hg _ ih =>
    apply tidy_call (List.mem_cons_of_mem _ (List.mem_cons_of_mem _ hg))
    exact List.forall_mem_singleton.mpr ih
  | pow _ _ ihx ihy =>
    exact tidy_call (by decide) (List.forall_mem_cons.mpr ⟨ihx, List.forall_mem_singleton.mpr ihy⟩)
  | mod hx hy hversion ihx ihy =>
    refine tidy_pair.mpr ⟨⟨fun hextreme => absurd hextreme (by decide), fun _ => ?_⟩, ihx, ihy⟩
    exact not_narrow_of_version hx hy hversion
  | floorDiv hx hy hversion ihx ihy =>
    refine tidy_pair.mpr ⟨⟨fun hextreme => absurd hextreme (by decide), fun _ => ?_⟩, ihx, ihy⟩
    exact not_narrow_of_version hx hy hversion

def IsPlain (g : String) (_ : Fragment) : Prop := g ∉ extremes

/-- There is no extreme inside of an expression. -/
abbrev Plain (x : Fragment) : Prop := Calls IsPlain x

/-- The arguments of an extreme are of one type, if both are narrow or neither of them is and nothing inside
of them keeps them from having a type. -/
def IsChecked (model : Model) (Γ : Locals) (g : String) (arguments : Fragment) : Prop :=
  g ∈ extremes → ∃ x y, arguments = .commas [x, y] ∧
    (Tidy x → Tidy y → (Narrow x ↔ Narrow y) → ∃ σ, HasType model Γ x σ ∧ HasType model Γ y σ)

/-- All extremes inside of a fragment have arguments of one type, as far as possible. -/
abbrev Checked (model : Model) (Γ : Locals) (f : Fragment) : Prop := Calls (IsChecked model Γ) f

theorem Checked.mono (h : Checked model Γ f) (hsubset : Γ ⊆ Γ') : Checked model Γ' f := by
  refine h.imp fun g arguments hchecked hg => ?_
  obtain ⟨x, y, harguments, htyped⟩ := hchecked hg
  refine ⟨x, y, harguments, fun hx hy hnarrow => ?_⟩
  obtain ⟨σ, hxσ, hyσ⟩ := htyped hx hy hnarrow
  exact ⟨σ, hxσ.mono hsubset, hyσ.mono hsubset⟩

theorem checked_of_plain (h : Plain f) : Checked model Γ f := h.imp fun _ _ hplain hg => absurd hg hplain

end StreamLoom.Cpp
