import StreamLoom.Proofs.Cpp.Members
import StreamLoom.Proofs.Cpp.Values
import StreamLoom.Proofs.Lowering.Discipline

/-!
# Steps of lowering to C++

Each step of the target makes values of the expected kinds of such values, and adds sound statements. With
this discipline the statements of a model are lowered to sound statements.
-/

namespace StreamLoom.Cpp

open Fragment (text int binary)

variable {model : Model} {Γ : Locals} {u v x offset : Fragment} {σ τ : ValueType} {number : Nat}

/-! ### Expressions -/

theorem adds_typeOf : Adds model Γ (typeOf τ) fun Γ' type =>
    Γ' = Γ ∧ ∃ name, type = text name ∧ typeName τ = .ok name := by
  intro d type d' hrun
  unfold typeOf at hrun
  split at hrun
  · rename_i name hname
    cases hrun
    exact ⟨[], (List.append_nil _).symm, sound_nil le_rfl, by simp, name, rfl, hname⟩
  · cases hrun

theorem adds_convert (hv : Element model σ Γ v) : Adds model Γ (convert v σ τ) (Element model τ) := by
  unfold convert
  split
  · rename_i hsame
    exact adds_of_gives (Drafting.gives_pure v) (hsame ▸ hv)
  · refine adds_typeOf.bind fun Γ' type _ ⟨heq, name, htype, hname⟩ => ?_
    rw [htype, heq]
    exact adds_of_gives (Drafting.gives_pure _) (element_cast hv hname)

theorem adds_indexMod [Arithmetic] (hv : Index model Γ v) (modulus : Int) :
    Adds model Γ ((target model).indexMod v modulus) (Index model) := by
  dsimp only [target]
  split
  · rename_i x hx
    exact adds_of_gives (Drafting.gives_pure x) (index_indexMod hv hx)
  · exact adds_throw _

theorem adds_arrayAt (number : Nat) : Adds model Γ (Lowering.arrayAt model number)
    fun Γ' array => Γ' = Γ ∧ model.arrays[number]? = some array := by
  unfold Lowering.arrayAt
  split
  · rename_i array harray
    exact adds_of_gives (Drafting.gives_pure array) ⟨rfl, harray⟩
  · exact adds_throw _

private theorem index_ofState {name : String} (h : HasType model Γ (ofState name) .int64) :
    Index model Γ (ofState name) := by
  refine ⟨?_, .inr h⟩
  simp [Plain, ofState, stateParameter]

theorem adds_phase [Arithmetic] (array : Nat) : Adds model Γ ((target model).phase array) (Index model) := by
  refine (adds_arrayAt array).bind fun Γ' a _ ⟨_, ha⟩ => ?_
  exact adds_of_gives (Drafting.gives_pure _) (index_ofState (.phase (List.mem_of_getElem? ha)))

theorem adds_bufferElement {array : DataArray} (harray : model.arrays[number]? = some array)
    (hknown : array.type ≠ .unknown) (h : Index model Γ offset) :
    Adds model Γ (bufferElement model number offset) (Element model array.type) :=
  adds_of_gives (gives_bufferElement harray offset) (element_buffer (List.mem_of_getElem? harray) hknown h)

/-! ### Statements -/

theorem adds_assign (hx : Checked model Γ x) (hv : Checked model Γ v) :
    Adds model Γ (Drafting.add (.assign x v)) fun _ _ => True :=
  adds_step declared_assign (calls_assign.mpr ⟨hx, hv⟩)

theorem adds_store {array : DataArray} (harray : model.arrays[number]? = some array)
    (hknown : array.type ≠ .unknown) (h : Index model Γ offset) (hv : Checked model Γ v) :
    Adds model Γ (do Drafting.add (.assign (← bufferElement model number offset) v)) fun _ _ => True := by
  refine (adds_bufferElement harray hknown h).bind fun Γ' x hsubset hx => ?_
  exact adds_assign hx.checked (hv.mono hsubset)

def Cell (τ : ValueType) (Γ : Locals) (v : Fragment) : Prop :=
  τ ≠ .unknown ∧ ∃ name, v = text name ∧ (name, τ) ∈ Γ

theorem Cell.element (h : Cell τ Γ v) : Element model τ Γ v := by
  obtain ⟨hknown, name, rfl, hname⟩ := h
  obtain ⟨σ, hσ⟩ := exists_spells hknown
  exact element_of_hasType (calls_text name) hσ (.name hname hσ)

theorem adds_temporary : Adds model Γ (temporary τ) (Cell τ) := by
  intro d x d' hrun
  obtain ⟨_, d₁, hget, hrun⟩ := Outcome.run_bind_cases hrun
  cases hget
  obtain ⟨_, d₂, hset, hrun⟩ := Outcome.run_bind_cases hrun
  cases hset
  obtain ⟨type, d₃, htype, hrun⟩ := Outcome.run_bind_cases hrun
  unfold typeOf at htype
  split at htype
  · rename_i name hname
    cases htype
    cases hrun
    have hdeclared : declared [.declare (text name) (text (temporaryName d.temporaries))
        (constant (Constant.zero τ))] = {(temporaryName d.temporaries, τ)} := declared_variable hname
    refine ⟨_, rfl, ⟨?_, ?_⟩, ?_, _, rfl, ?_⟩
    · exact hdeclared ▸ Apart.temporary _ τ
    · intro f hf
      obtain rfl := List.mem_singleton.mp hf
      exact calls_declare.mpr ⟨calls_text name, calls_text _, (element_constant _).checked⟩
    · rintro rfl
      cases hname
    · exact .inr (hdeclared.ge rfl)
  · cases htype

theorem adds_branch {first second : Drafting Unit} (hv : Checked model Γ v)
    (hfirst : Adds model Γ first fun _ _ => True) (hsecond : Adds model Γ second fun _ _ => True) :
    Adds model Γ (branch v first second) fun _ _ => True := by
  intro d x d' hrun
  obtain ⟨inner, d₁, hrun₁, hrun⟩ := Outcome.run_bind_cases hrun
  obtain ⟨inner', d₂, hrun₂, hrun⟩ := Outcome.run_bind_cases hrun
  cases hrun
  obtain ⟨hstatements₁, hsound₁⟩ := sound_of_nested hfirst hrun₁
  obtain ⟨hstatements₂, hsound₂⟩ := sound_of_nested hsecond hrun₂
  refine ⟨[.branch v inner inner'], ?_, hsound₁.branch hv hsound₂, trivial⟩
  show d₂.statements ++ [_] = _
  rw [hstatements₂, hstatements₁]

def reductionName (n : Nat) : String := "r" ++ toString n

theorem isIterator_reductionName (n : Nat) : IsIterator (reductionName n) := by
  apply isIterator_of_head
  simp [reductionName]

theorem index_name {name : String} (h : (name, .int) ∈ Γ) : Index model Γ (text name) :=
  ⟨calls_text name, .inr (.name h rfl)⟩

theorem adds_loop {lower upper : Int} {body : Fragment → Drafting Unit}
    (hbody : ∀ Γ' v, Γ ⊆ Γ' → Index model Γ' v → Adds model Γ' (body v) fun _ _ => True) :
    Adds model Γ (loop lower upper body) fun _ _ => True := by
  intro d x d' hrun
  obtain ⟨_, d₁, hget, hrun⟩ := Outcome.run_bind_cases hrun
  cases hget
  obtain ⟨_, d₂, hset, hrun⟩ := Outcome.run_bind_cases hrun
  cases hset
  have hindex : Index model (Γ ∪ {(reductionName d.loops, .int)}) (text (reductionName d.loops)) :=
    index_name (.inr rfl)
  apply adds_of_nested (hbody _ _ Set.subset_union_left hindex) _ _ _ _ hrun
  intro inner d₃ x d₄ hadd
  cases hadd
  refine ⟨_, rfl, rfl, fun n n' hsound => ?_⟩
  exact hsound.loop (isIterator_reductionName _) (calls_int lower) (calls_int upper)

/-! ### The discipline -/

/-- All values are of the kinds that are expected of them, for a model whose arrays and inputs have types. -/
def discipline [Arithmetic] (model : Model) (harrays : ∀ array ∈ model.arrays, array.type ≠ .unknown)
    (hinputs : ∀ input ∈ model.inputs, input.type ≠ .unknown) :
    Lowering.Discipline model (target model) where
  World := Locals
  Later := (· ⊆ ·)
  Holds := Adds model
  refl := Set.Subset.refl
  trans h h' := h.trans h'
  pure h := adds_of_gives (Drafting.gives_pure _) h
  throw e := adds_throw e
  bind h hf := h.bind hf
  imp h himp := h.imp himp
  Index := Index model
  Element := Element model
  Cell := Cell
  Fits c := c.Typed model.arrays model.inputs
  index_later h hv := hv.mono h
  element_later h hv := hv.mono h
  cell_later h hv := ⟨hv.1, hv.2.imp fun _ hname => ⟨hname.1, h hname.2⟩⟩
  element_of_index h := h.element
  fits_operand h _ hc := by
    cases h with
    | apply _ hoperands => exact hoperands _ hc
  fits_body h := by
    cases h with
    | reduce _ hbody => exact hbody
  constant c := adds_of_gives (Drafting.gives_pure _) (element_constant c)
  convert hv := adds_convert hv
  index c := adds_of_gives (Drafting.gives_pure _) (index_int c)
  indexAdd hu hv := adds_of_gives (Drafting.gives_pure _) (index_indexAdd hu hv)
  indexMul hu hv := adds_of_gives (Drafting.gives_pure _) (index_indexMul hu hv)
  indexMod hv modulus := adds_indexMod hv modulus
  phase array := adds_phase array
  period := adds_of_gives (Drafting.gives_pure _) (index_ofState .period)
  load harray _ h := adds_bufferElement harray (harrays _ (List.mem_of_getElem? harray)) h
  read hfits _ h := by
    cases hfits with
    | read _ harray => exact adds_bufferElement harray (harrays _ (List.mem_of_getElem? harray)) h
  store harray _ _ h hv := adds_store harray (harrays _ (List.mem_of_getElem? harray)) h hv.checked
  loadInput hfits _ h := by
    cases hfits with
    | input _ hinput =>
      exact adds_of_gives (Drafting.gives_pure _)
        (element_input hinput (hinputs _ (List.mem_of_getElem? hinput)) h)
  storeOutput h hv := by
    refine adds_assign ?_ hv.checked
    exact calls_element.mpr ⟨calls_text _, checked_of_plain h.plain⟩
  primitive hfits _ hlength hvs := by
    cases hfits with
    | apply h _ =>
      have harity := (List.length_map _).symm.trans (Op.length_of_resultType h)
      exact adds_primitive (hlength.trans harity) (Op.yields_of_resultType h) hvs
  fold hfits _ _ hu hv := by
    cases hfits with
    | reduce h _ =>
      have hyields := Op.yields_of_yields (Op.yields_of_resultType h)
      apply adds_primitive (Op.length_of_resultType h) hyields
      exact List.forall_mem_cons.mpr ⟨hu, List.forall_mem_singleton.mpr hv⟩
  temporary _ := adds_temporary
  assign hcell hv := adds_assign hcell.element.checked hv.checked
  use hcell := adds_of_gives (Drafting.gives_pure _) hcell.element
  branch hcondition _ _ hfirst hsecond :=
    adds_branch hcondition.checked (hfirst _ (Set.Subset.refl _)) (hsecond _ (Set.Subset.refl _))
  loop hbody := adds_loop hbody
  note _ := adds_modify (fun _ => rfl) fun _ => rfl

end StreamLoom.Cpp
