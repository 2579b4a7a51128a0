import StreamLoom.Proofs.Cpp.Calls
import StreamLoom.Proofs.Cpp.Variables
import StreamLoom.Proofs.Model.Types

/-!
# Values in generated C++

The expressions that stand for indices and for elements. An index is a literal or wide. An element is of the
type that is kept, unless it is a narrow integer, provided that nothing inside of it is in the way. So two
operands of one type differ at most in whether they are narrow.
-/

namespace StreamLoom.Cpp

open Fragment (text int binary)

/-- A value of one type can stand for one of the other type. -/
def Below (ρ σ : CType) : Prop := ρ = σ ∨ ρ = .int ∧ σ = .int64

instance (ρ σ : CType) : Decidable (Below ρ σ) := inferInstanceAs (Decidable (_ ∨ _))

section

variable {ρ ρ' σ σ' : CType} {τ : ValueType}

theorem Below.ne_bool (h : Below ρ σ) (hσ : σ ≠ .bool) : ρ ≠ .bool := by
  rintro rfl
  rcases h with rfl | ⟨h, -⟩
  · exact hσ rfl
  · cases h

theorem Below.common (h : Below ρ σ) (h' : Below ρ' σ) (hσ : σ ≠ .bool) : Below (ρ.common ρ') σ := by
  cases ρ <;> cases ρ' <;> cases σ <;> simp_all [Below, CType.common]

theorem Below.version (h : Below ρ σ) (h' : Below ρ' σ) (hσ : σ ≠ .bool) (hwide : ¬ (ρ = .int ∧ ρ' = .int)) :
    ρ.version ρ' = some σ := by
  cases ρ <;> cases ρ' <;> cases σ <;> simp_all [Below, CType.version]

/-- Two values of one type that are both narrow or both wide have the same type. -/
theorem Below.eq (h : Below ρ σ) (h' : Below ρ' σ) (hnarrow : ρ = .int ↔ ρ' = .int) : ρ = ρ' := by
  cases ρ <;> cases ρ' <;> cases σ <;> simp_all [Below]

theorem Below.common_wide (h : Below ρ .int64) : ρ.common .int64 = .int64 ∧ CType.int64.common ρ = .int64 := by
  rcases h with rfl | ⟨rfl, -⟩
  · decide
  · decide

theorem Below.eq_of_ne (h : Below ρ σ) (hσ : σ ≠ .int64) : ρ = σ := h.resolve_right fun h => hσ h.2

theorem Spells.unique (h : Spells τ σ) (h' : Spells τ σ') : σ = σ' := by
  rw [spells_iff] at h h'
  aesop

theorem Spells.ne_bool (h : Spells τ σ) (hτ : τ ≠ .bool) : σ ≠ .bool := by
  rintro rfl
  rw [spells_iff] at h
  simp [hτ] at h

theorem exists_spells (h : τ ≠ .unknown) : ∃ σ, Spells τ σ := by
  cases τ with
  | unknown => exact absurd rfl h
  | bool => exact ⟨.bool, rfl⟩
  | int => exact ⟨.int64, rfl⟩
  | real => exact ⟨.double, rfl⟩

end

variable {model : Model} {Γ Γ' : Locals} {u v x y : Fragment} {τ : ValueType} {op g : String}

/-! ### Indices -/

structure Index (model : Model) (Γ : Locals) (v : Fragment) : Prop where
  plain : Plain v
  typed : (∃ n, v = int n) ∨ HasType model Γ v .int64

theorem Index.mono (h : Index model Γ v) (hsubset : Γ ⊆ Γ') : Index model Γ' v :=
  ⟨h.plain, h.typed.imp_right fun hv => hv.mono hsubset⟩

theorem index_int (n : Int) : Index model Γ (int n) := ⟨calls_int n, .inl ⟨n, rfl⟩⟩

theorem Index.exists_hasType (h : Index model Γ v) : ∃ ι, HasType model Γ v ι ∧ Below ι .int64 := by
  rcases h.typed with ⟨n, rfl⟩ | hv
  · refine ⟨_, .int n, ?_⟩
    split
    · decide
    · decide
  · exact ⟨.int64, hv, .inl rfl⟩

/-- A sum or a product in which not both operands are literals. -/
private theorem index_binary (hop : op ∈ arithmetics) (hu : Index model Γ u) (hv : Index model Γ v)
    (hwide : HasType model Γ u .int64 ∨ HasType model Γ v .int64) : Index model Γ (binary op u v) := by
  refine ⟨calls_binary.mpr ⟨hu.plain, hv.plain⟩, .inr ?_⟩
  obtain ⟨ρ, hρ, hbelow⟩ := hu.exists_hasType
  obtain ⟨σ, hσ, hbelow'⟩ := hv.exists_hasType
  have hne : ρ ≠ .bool := hbelow.ne_bool (by decide)
  have hne' : σ ≠ .bool := hbelow'.ne_bool (by decide)
  rcases hwide with hwide | hwide
  · rw [← hbelow'.common_wide.2]
    exact .arithmetic hop hwide hσ (by decide) hne'
  · rw [← hbelow.common_wide.1]
    exact .arithmetic hop hρ hwide hne (by decide)

private theorem Index.wide (h : Index model Γ v) (hv : ∀ n, v ≠ int n) : HasType model Γ v .int64 :=
  h.typed.resolve_left fun ⟨n, hn⟩ => hv n hn

/-- How two indices are combined: literals are combined at once, and neutral ones are left out. -/
private inductive Combined (op : String) (u v : Fragment) : Fragment → Prop
  | literal (n : Int) : Combined op u v (int n)
  | left : Combined op u v u
  | right : Combined op u v v
  | binary (h : (∀ n, u ≠ int n) ∨ ∀ n, v ≠ int n) : Combined op u v (binary op u v)

private theorem Combined.index {x : Fragment} (h : Combined op u v x) (hop : op ∈ arithmetics)
    (hu : Index model Γ u) (hv : Index model Γ v) : Index model Γ x := by
  cases h with
  | literal n => exact index_int n
  | left => exact hu
  | right => exact hv
  | binary h => exact index_binary hop hu hv (h.imp hu.wide hv.wide)

theorem index_indexMod (hv : Index model Γ v) {modulus : Int} {x : Fragment} (h : indexMod v modulus = .ok x) :
    Index model Γ x := by
  unfold indexMod at h
  split at h
  · cases h
    exact index_int 0
  · split at h
    · obtain ⟨n, -, rfl⟩ := Outcome.map_eq_ok h
      exact index_int n
    · rename_i hliteral
      cases h
      have hwide := hv.wide hliteral
      have hmodulus : Index model Γ (int modulus) := index_int modulus
      obtain ⟨σ, hσ, hbelow⟩ := hmodulus.exists_hasType
      have hversion : CType.int64.version σ = some .int64 :=
        Below.version (.inl rfl) hbelow (by decide) fun h => absurd h.1 (by decide)
      refine ⟨?_, .inr (.mod hwide hσ hversion)⟩
      simp [Plain, IsPlain, extremes, hv.plain]

section

variable [Arithmetic]

theorem index_indexAdd (hu : Index model Γ u) (hv : Index model Γ v) : Index model Γ (indexAdd u v) := by
  have hcombined : Combined "+" u v (indexAdd u v) := by
    unfold indexAdd
    split
    · exact .literal _
    · split
      · exact .left
      · exact .binary (.inl ‹_›)
    · split
      · exact .right
      · exact .binary (.inr ‹_›)
    · exact .binary (.inr ‹_›)
  exact hcombined.index (by decide) hu hv

theorem index_indexMul (hu : Index model Γ u) (hv : Index model Γ v) : Index model Γ (indexMul u v) := by
  have hcombined : Combined "*" u v (indexMul u v) := by
    unfold indexMul
    split
    · exact .literal _
    · split
      · exact .left
      · exact .binary (.inl ‹_›)
    · split
      · exact .right
      · exact .binary (.inr ‹_›)
    · exact .binary (.inr ‹_›)
  exact hcombined.index (by decide) hu hv

end

/-! ### Elements -/

structure Element (model : Model) (τ : ValueType) (Γ : Locals) (v : Fragment) : Prop where
  checked : Checked model Γ v
  typed : ∃ σ, Spells τ σ ∧ (Tidy v → ∃ ρ, HasType model Γ v ρ ∧ Below ρ σ)

theorem Element.mono (h : Element model τ Γ v) (hsubset : Γ ⊆ Γ') : Element model τ Γ' v := by
  obtain ⟨σ, hσ, hv⟩ := h.typed
  refine ⟨h.checked.mono hsubset, σ, hσ, fun htidy => ?_⟩
  obtain ⟨ρ, hρ, hbelow⟩ := hv htidy
  exact ⟨ρ, hρ.mono hsubset, hbelow⟩

theorem Index.element (h : Index model Γ v) : Element model .int Γ v :=
  ⟨checked_of_plain h.plain, .int64, rfl, fun _ => h.exists_hasType⟩

theorem element_of_hasType {σ : CType} (hplain : Plain v) (hσ : Spells τ σ) (hv : HasType model Γ v σ) :
    Element model τ Γ v := ⟨checked_of_plain hplain, σ, hσ, fun _ => ⟨σ, hv, .inl rfl⟩⟩

theorem Element.hasType {σ : CType} (h : Element model τ Γ v) (hne : σ ≠ .int64) (hσ : Spells τ σ)
    (htidy : Tidy v) : HasType model Γ v σ := by
  obtain ⟨σ', hσ', hv⟩ := h.typed
  obtain ⟨ρ, hρ, hbelow⟩ := hv htidy
  rw [hσ.unique hσ', ← hbelow.eq_of_ne (hσ.unique hσ' ▸ hne)]
  exact hρ

theorem element_constant (c : Constant) : Element model c.type Γ (constant c) := by
  cases c with
  | bool b => exact element_of_hasType (calls_bool b) (show Spells .bool .bool from rfl) (.bool b)
  | int n => exact (index_int n).element
  | real x => exact element_of_hasType (calls_real x) (show Spells .real .double from rfl) (.real x)

theorem element_cast {σ : ValueType} {type : String} (hx : Element model σ Γ x) (htype : typeName τ = .ok type) :
    Element model τ Γ (.cast (text type) x) := by
  have hknown : τ ≠ .unknown := by
    rintro rfl
    cases htype
  obtain ⟨σ', hσ'⟩ := exists_spells hknown
  obtain rfl : σ'.text = type := Except.ok.inj (hσ'.symm.trans htype)
  obtain ⟨σ, -, hxσ⟩ := hx.typed
  refine ⟨calls_cast.mpr ⟨calls_text _, hx.checked⟩, σ', hσ', fun htidy => ?_⟩
  obtain ⟨ρ, hρ, -⟩ := hxσ (calls_cast.mp htidy).2
  exact ⟨σ', .cast hσ' hρ, .inl rfl⟩

theorem element_buffer {array : DataArray} (harray : array ∈ model.arrays) (htype : array.type ≠ .unknown)
    {offset : Fragment} (h : Index model Γ offset) :
    Element model array.type Γ (.element (ofState (bufferName array)) offset) := by
  obtain ⟨σ, hσ⟩ := exists_spells htype
  obtain ⟨ι, hι, hbelow⟩ := h.exists_hasType
  refine element_of_hasType ?_ hσ (.buffer harray hσ hι (hbelow.symm.imp_left And.left))
  simp [Plain, ofState, stateParameter, h.plain]

theorem element_input {number : Nat} {input : Input} (hinput : model.inputs[number]? = some input)
    (htype : input.type ≠ .unknown) {offset : Fragment} (h : Index model Γ offset) :
    Element model input.type Γ (.element (text (inputName number)) offset) := by
  obtain ⟨σ, hσ⟩ := exists_spells htype
  obtain ⟨ι, hι, hbelow⟩ := h.exists_hasType
  refine element_of_hasType ?_ hσ (.input hinput hσ hι (hbelow.symm.imp_left And.left))
  simp [Plain, h.plain]

/-! ### Operations -/

theorem Element.negate (hx : Element model τ Γ x) (hτ : τ ≠ .bool) : Element model τ Γ (.unary "-" x) := by
  obtain ⟨σ, hσ, hxσ⟩ := hx.typed
  refine ⟨calls_unary.mpr hx.checked, σ, hσ, fun htidy => ?_⟩
  obtain ⟨ρ, hρ, hbelow⟩ := hxσ (calls_unary.mp htidy)
  exact ⟨ρ, .negate hρ (hbelow.ne_bool (hσ.ne_bool hτ)), hbelow⟩

theorem Element.not (hx : Element model .bool Γ x) : Element model .bool Γ (.unary "!" x) := by
  refine ⟨calls_unary.mpr hx.checked, .bool, rfl, fun htidy => ?_⟩
  exact ⟨.bool, .not (hx.hasType (by decide) (show Spells .bool .bool from rfl) (calls_unary.mp htidy)), .inl rfl⟩

private theorem Element.pair (hx : Element model τ Γ x) (hy : Element model τ Γ y) : ∃ σ, Spells τ σ ∧
    (Tidy x → ∃ ρ, HasType model Γ x ρ ∧ Below ρ σ) ∧ (Tidy y → ∃ ρ, HasType model Γ y ρ ∧ Below ρ σ) := by
  obtain ⟨σ, hσ, hxσ⟩ := hx.typed
  obtain ⟨σ', hσ', hyσ⟩ := hy.typed
  obtain rfl := hσ.unique hσ'
  exact ⟨σ, hσ, hxσ, hyσ⟩

theorem Element.arithmetic (hop : op ∈ arithmetics) (hx : Element model τ Γ x) (hy : Element model τ Γ y)
    (hτ : τ ≠ .bool) : Element model τ Γ (binary op x y) := by
  obtain ⟨σ, hσ, hxσ, hyσ⟩ := hx.pair hy
  refine ⟨calls_binary.mpr ⟨hx.checked, hy.checked⟩, σ, hσ, fun htidy => ?_⟩
  obtain ⟨htidyx, htidyy⟩ := calls_binary.mp htidy
  obtain ⟨ρ, hρ, hbelow⟩ := hxσ htidyx
  obtain ⟨ρ', hρ', hbelow'⟩ := hyσ htidyy
  have hne := hσ.ne_bool hτ
  exact ⟨_, .arithmetic hop hρ hρ' (hbelow.ne_bool hne) (hbelow'.ne_bool hne), hbelow.common hbelow' hne⟩

theorem Element.comparison (hop : op ∈ comparisons) (hx : Element model τ Γ x) (hy : Element model τ Γ y) :
    Element model .bool Γ (binary op x y) := by
  obtain ⟨σ, -, hxσ, hyσ⟩ := hx.pair hy
  refine ⟨calls_binary.mpr ⟨hx.checked, hy.checked⟩, .bool, rfl, fun htidy => ?_⟩
  obtain ⟨htidyx, htidyy⟩ := calls_binary.mp htidy
  obtain ⟨ρ, hρ, -⟩ := hxσ htidyx
  obtain ⟨ρ', hρ', -⟩ := hyσ htidyy
  exact ⟨.bool, .comparison hop hρ hρ', .inl rfl⟩

theorem Element.connective (hop : op ∈ connectives) (hx : Element model .bool Γ x)
    (hy : Element model .bool Γ y) : Element model .bool Γ (binary op x y) := by
  refine ⟨calls_binary.mpr ⟨hx.checked, hy.checked⟩, .bool, rfl, fun htidy => ?_⟩
  obtain ⟨htidyx, htidyy⟩ := calls_binary.mp htidy
  have htruth : Spells .bool .bool := rfl
  exact ⟨.bool, .logical hop (hx.hasType (by decide) htruth htidyx) (hy.hasType (by decide) htruth htidyy),
    .inl rfl⟩

private theorem checked_call {arguments : List Fragment} (hg : g ∉ extremes)
    (h : ∀ x ∈ arguments, Checked model Γ x) : Checked model Γ (.call (text g) (.commas arguments)) :=
  calls_call.mpr ⟨fun h => absurd h hg, calls_commas.mpr h⟩

private theorem tidy_argument (h : Tidy (.call (text g) (.commas [x]))) : Tidy x :=
  calls_commas.mp (calls_call.mp h).2 x List.mem_cons_self

theorem Element.extreme (hg : g ∈ extremes) (hx : Element model τ Γ x) (hy : Element model τ Γ y) :
    Element model τ Γ (.call (text g) (.commas [x, y])) := by
  obtain ⟨σ, hσ, hxσ, hyσ⟩ := hx.pair hy
  -- Both operands are below the same type, so that they differ only if exactly one of them is narrow.
  have hsame : Tidy x → Tidy y → (Narrow x ↔ Narrow y) →
      ∃ ρ, HasType model Γ x ρ ∧ HasType model Γ y ρ ∧ Below ρ σ := by
    intro htidyx htidyy hnarrow
    obtain ⟨ρ, hρ, hbelow⟩ := hxσ htidyx
    obtain ⟨ρ', hρ', hbelow'⟩ := hyσ htidyy
    rw [hρ.narrow_iff, hρ'.narrow_iff] at hnarrow
    obtain rfl := hbelow.eq hbelow' hnarrow
    exact ⟨ρ, hρ, hρ', hbelow⟩
  refine ⟨calls_call.mpr ⟨fun _ => ⟨x, y, rfl, fun htidyx htidyy hnarrow => ?_⟩, ?_⟩, σ, hσ, fun htidy => ?_⟩
  · obtain ⟨ρ, hρ, hρ', -⟩ := hsame htidyx htidyy hnarrow
    exact ⟨ρ, hρ, hρ'⟩
  · exact calls_commas.mpr (List.forall_mem_cons.mpr ⟨hx.checked, List.forall_mem_singleton.mpr hy.checked⟩)
  · obtain ⟨⟨hnarrow, -⟩, htidyx, htidyy⟩ := tidy_pair.mp htidy
    obtain ⟨ρ, hρ, hρ', hbelow⟩ := hsame htidyx htidyy (hnarrow hg)
    exact ⟨ρ, .extreme hg hρ hρ', hbelow⟩

theorem Element.abs (hx : Element model τ Γ x) (hτ : τ ≠ .bool) :
    Element model τ Γ (.call (text "std::abs") (.commas [x])) := by
  obtain ⟨σ, hσ, hxσ⟩ := hx.typed
  refine ⟨checked_call (by decide) (List.forall_mem_singleton.mpr hx.checked), σ, hσ, fun htidy => ?_⟩
  obtain ⟨ρ, hρ, hbelow⟩ := hxσ (tidy_argument htidy)
  exact ⟨ρ, .abs hρ (hbelow.ne_bool (hσ.ne_bool hτ)), hbelow⟩

private theorem not_mem_extremes (hg : g ∈ realFunctions) : g ∉ extremes := by
  revert g
  decide

theorem Element.realFunction (hg : g ∈ realFunctions) (hx : Element model .real Γ x) :
    Element model .real Γ (.call (text g) (.commas [x])) := by
  refine ⟨checked_call (not_mem_extremes hg) (List.forall_mem_singleton.mpr hx.checked), .double, rfl, ?_⟩
  intro htidy
  have hreal := hx.hasType (by decide) (show Spells .real .double from rfl) (tidy_argument htidy)
  exact ⟨.double, .real₁ hg hreal, .inl rfl⟩

theorem Element.pow (hx : Element model .real Γ x) (hy : Element model .real Γ y) :
    Element model .real Γ (.call (text "std::pow") (.commas [x, y])) := by
  refine ⟨checked_call (by decide) ?_, .double, rfl, fun htidy => ?_⟩
  · exact List.forall_mem_cons.mpr ⟨hx.checked, List.forall_mem_singleton.mpr hy.checked⟩
  · obtain ⟨-, htidyx, htidyy⟩ := tidy_pair.mp htidy
    have hdouble : Spells .real .double := rfl
    have hreal := hx.hasType (by decide) hdouble htidyx
    have hreal' := hy.hasType (by decide) hdouble htidyy
    exact ⟨.double, .pow hreal hreal', .inl rfl⟩

/-- One version of a helper fits its arguments. -/
private theorem exists_version (hg : g ∈ versioned) (hx : Element model τ Γ x) (hy : Element model τ Γ y)
    (hτ : τ ≠ .bool) (htidy : Tidy (.call (text g) (.commas [x, y]))) : ∃ ρ ρ' σ, Spells τ σ ∧
      HasType model Γ x ρ ∧ HasType model Γ y ρ' ∧ ρ.version ρ' = some σ := by
  obtain ⟨σ, hσ, hxσ, hyσ⟩ := hx.pair hy
  obtain ⟨⟨-, hwide⟩, htidyx, htidyy⟩ := tidy_pair.mp htidy
  obtain ⟨ρ, hρ, hbelow⟩ := hxσ htidyx
  obtain ⟨ρ', hρ', hbelow'⟩ := hyσ htidyy
  replace hwide := hwide hg
  rw [hρ.narrow_iff, hρ'.narrow_iff] at hwide
  exact ⟨ρ, ρ', σ, hσ, hρ, hρ', hbelow.version hbelow' (hσ.ne_bool hτ) hwide⟩

theorem Element.mod (hx : Element model τ Γ x) (hy : Element model τ Γ y) (hτ : τ ≠ .bool) :
    Element model τ Γ (.call (text "mod") (.commas [x, y])) := by
  obtain ⟨σ, hσ, -⟩ := hx.typed
  refine ⟨checked_call (by decide) ?_, σ, hσ, fun htidy => ?_⟩
  · exact List.forall_mem_cons.mpr ⟨hx.checked, List.forall_mem_singleton.mpr hy.checked⟩
  · obtain ⟨ρ, ρ', σ', hσ', hρ, hρ', hversion⟩ := exists_version (by decide) hx hy hτ htidy
    exact ⟨σ', .mod hρ hρ' hversion, .inl (hσ'.unique hσ)⟩

theorem Element.floorDiv (hx : Element model τ Γ x) (hy : Element model τ Γ y) (hτ : τ ≠ .bool) :
    Element model .int Γ (.call (text "floor_div") (.commas [x, y])) := by
  refine ⟨checked_call (by decide) ?_, .int64, rfl, fun htidy => ?_⟩
  · exact List.forall_mem_cons.mpr ⟨hx.checked, List.forall_mem_singleton.mpr hy.checked⟩
  · obtain ⟨ρ, ρ', σ', -, hρ, hρ', hversion⟩ := exists_version (by decide) hx hy hτ htidy
    exact ⟨.int64, .floorDiv hρ hρ' hversion, .inl rfl⟩

/-! ### Spellings -/

private theorem unary_cases {op : Op} (h : op.arity = 1) : op = .negate ∨ op = .not ∨ op = .abs ∨
    op.rule = .fractional ∧ (spelling op).isOperator = false ∧ (spelling op).text ∈ realFunctions := by
  revert h
  cases op <;> decide

private theorem binary_cases {op : Op} (h : op.arity = 2) :
    op = .divide ∨ op = .divideInteger ∨ op = .modulo ∨ op = .raise ∨
    op.rule = .numeric ∧ (spelling op).isOperator = true ∧ (spelling op).text ∈ arithmetics ∨
    op.rule = .comparison ∧ (spelling op).isOperator = true ∧ (spelling op).text ∈ comparisons ∨
    op.rule = .logical ∧ (spelling op).isOperator = true ∧ (spelling op).text ∈ connectives ∨
    op.rule = .numeric ∧ (spelling op).isOperator = false ∧ (spelling op).text ∈ extremes := by
  revert h
  cases op <;> decide

private theorem arity_cases (op : Op) : op.arity = 1 ∨ op.arity = 2 ∨ op = .conditional := by
  cases op <;> decide

private theorem primitive_function {op : Op} (hop : op.arity ≠ 3) (h : (spelling op).isOperator = false)
    (operands : List Fragment) :
    primitive op operands = pure (.call (text (spelling op).text) (.commas operands)) := by
  cases op
  all_goals first | rfl | exact absurd rfl hop | cases h

private theorem primitive_operator {op : Op} (hop : op.arity ≠ 3) (h : (spelling op).isOperator = true) :
    primitive op [x, y] = pure (binary (spelling op).text x y) := by
  cases op
  all_goals first | rfl | exact absurd rfl hop | cases h

private theorem adds_made (h : Element model τ Γ v) : Adds model Γ (pure v) (Element model τ) :=
  adds_of_gives (Drafting.gives_pure v) h

private theorem adds_unary {op : Op} {common : ValueType} (harity : op.arity = 1) (hyields : op.Yields common τ)
    (hx : Element model common Γ x) : Adds model Γ (primitive op [x]) (Element model τ) := by
  rcases unary_cases harity with rfl | rfl | rfl | ⟨hrule, hoperator, htext⟩
  · obtain ⟨rfl, hcommon⟩ := hyields
    exact adds_made (hx.negate hcommon)
  · obtain ⟨rfl, rfl⟩ := hyields
    exact adds_made hx.not
  · obtain ⟨rfl, hcommon⟩ := hyields
    exact adds_made (hx.abs hcommon)
  · rw [Op.Yields, hrule] at hyields
    obtain ⟨rfl, rfl⟩ := hyields
    rw [primitive_function (by omega) hoperator]
    exact adds_made (hx.realFunction htext)

private theorem adds_binary {op : Op} {common : ValueType} (harity : op.arity = 2) (hyields : op.Yields common τ)
    (hx : Element model common Γ x) (hy : Element model common Γ y) :
    Adds model Γ (primitive op [x, y]) (Element model τ) := by
  rcases binary_cases harity with rfl | rfl | rfl | rfl | hform
  · obtain ⟨rfl, rfl⟩ := hyields
    exact adds_made (hx.arithmetic (by decide) hy (by decide))
  · obtain ⟨rfl, hcommon⟩ := hyields
    exact adds_made (hx.floorDiv hy hcommon)
  · obtain ⟨rfl, hcommon⟩ := hyields
    exact adds_made (hx.mod hy hcommon)
  · obtain ⟨rfl, rfl⟩ := hyields
    exact adds_made (hx.pow hy)
  · -- All other operations are written as their rules say.
    rw [Op.Yields] at hyields
    rcases hform with ⟨hrule, hoperator, htext⟩ | ⟨hrule, hoperator, htext⟩ | ⟨hrule, hoperator, htext⟩ |
      ⟨hrule, hoperator, htext⟩
    · rw [hrule] at hyields
      obtain ⟨rfl, hcommon⟩ := hyields
      rw [primitive_operator (by omega) hoperator]
      exact adds_made (hx.arithmetic htext hy hcommon)
    · rw [hrule] at hyields
      obtain rfl := hyields
      rw [primitive_operator (by omega) hoperator]
      exact adds_made (hx.comparison htext hy)
    · rw [hrule] at hyields
      obtain ⟨rfl, rfl⟩ := hyields
      rw [primitive_operator (by omega) hoperator]
      exact adds_made (hx.connective htext hy)
    · rw [hrule] at hyields
      obtain ⟨rfl, hcommon⟩ := hyields
      rw [primitive_function (by omega) hoperator]
      exact adds_made (hx.extreme htext hy)

/-- An operation on operands of a common type makes a value of the type of its result. -/
theorem adds_primitive {op : Op} {common : ValueType} {operands : List Fragment}
    (hlength : operands.length = op.arity) (hyields : op.Yields common τ)
    (h : ∀ x ∈ operands, Element model common Γ x) :
    Adds model Γ (primitive op operands) (Element model τ) := by
  rcases arity_cases op with harity | harity | rfl
  · obtain ⟨x, rfl⟩ := List.length_eq_one_iff.mp (hlength.trans harity)
    exact adds_unary harity hyields (h x (by simp))
  · obtain ⟨x, y, rfl⟩ := List.length_eq_two.mp (hlength.trans harity)
    exact adds_binary harity hyields (h x (by simp)) (h y (by simp))
  · exact adds_throw _

end StreamLoom.Cpp
