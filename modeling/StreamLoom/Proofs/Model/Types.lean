import StreamLoom.Proofs.Program.Names

/-!
# Types of computations

Every application of a model has operands of suitable types. To which type the operands are converted, and
which type the result then has, depends on the rule of the operation only: arithmetic stays within one numeric
type, and all else ends in a type of its own.
-/

namespace StreamLoom

/-! ### Operations -/

namespace Op

/-- The type of a result, given the type that the operands have been converted to. -/
def Yields (op : Op) (common τ : ValueType) : Prop :=
  match op.rule with
  | .numeric => τ = common ∧ common ≠ .bool
  | .fractional => τ = .real ∧ common = .real
  | .integral => τ = .int ∧ common ≠ .bool
  | .comparison => τ = .bool
  | .logical => τ = .bool ∧ common = .bool
  | .select => True

variable {op : Op} {types : List ValueType} {r τ : ValueType}

private theorem joined_ne_bool {a b c : ValueType} (h : a.join b = .ok c) (ha : a ≠ .bool) (hb : b ≠ .bool) :
    c ≠ .bool := by
  unfold ValueType.join at h
  split at h
  · cases h
    exact hb
  · split at h
    · cases h
      exact ha
    · split at h
      · cases h
        decide
      · cases h

/-- Operands that have a join are all numbers, unless truth values are among them on purpose. -/
private theorem joinOperands_cases (h : op.joinOperands r types = .ok τ) :
    types.foldl (fun a b => (a.join b).toOption.getD .unknown) r = τ ∧
      (op.rule ≠ .select → op.rule ≠ .comparison → r ≠ .bool → τ ≠ .bool) := by
  induction types generalizing r with
  | nil =>
    cases h
    exact ⟨rfl, fun _ _ hr => hr⟩
  | cons t types ih =>
    rw [joinOperands] at h
    obtain ⟨joined, hjoined, h⟩ := Outcome.bind_eq_ok h
    split at h
    · cases h
    · rename_i hnumeric
      obtain ⟨hfold, hne⟩ := ih h
      refine ⟨?_, fun hselect hcomparison hr => ?_⟩
      · rw [List.foldl_cons, hjoined]
        exact hfold
      · exact hne hselect hcomparison (joined_ne_bool hjoined hr fun ht => hnumeric ⟨hselect, hcomparison, ht⟩)

theorem length_of_resultType (h : op.resultType types = .ok τ) : types.length = op.arity := by
  unfold resultType at h
  split at h
  · cases h
  · rename_i hlength
    exact not_not.mp hlength

theorem yields_of_resultType (h : op.resultType types = .ok τ) : op.Yields (op.operandType types) τ := by
  unfold resultType at h
  split at h
  · cases h
  · unfold Yields operandType
    cases hrule : op.rule with
    | numeric =>
      rw [hrule] at h
      obtain ⟨hfold, hne⟩ := joinOperands_cases h
      rw [hrule] at hne
      have hknown := hne (by decide) (by decide) (by decide)
      rw [← hfold] at hknown
      exact ⟨hfold.symm, hknown⟩
    | fractional =>
      rw [hrule] at h
      obtain ⟨_, -, rfl⟩ := Outcome.map_eq_ok h
      exact ⟨rfl, rfl⟩
    | integral =>
      rw [hrule] at h
      obtain ⟨_, hjoined, rfl⟩ := Outcome.map_eq_ok h
      obtain ⟨hfold, hne⟩ := joinOperands_cases hjoined
      rw [hrule] at hne
      have hknown := hne (by decide) (by decide) (by decide)
      rw [← hfold] at hknown
      exact ⟨rfl, hknown⟩
    | comparison =>
      rw [hrule] at h
      obtain ⟨_, -, rfl⟩ := Outcome.map_eq_ok h
      rfl
    | logical =>
      rw [hrule] at h
      dsimp only at h
      split at h
      · cases h
      · cases h
        exact ⟨rfl, rfl⟩
    | select => trivial

/-- The result of a reduction can be combined with further values of its type. -/
theorem yields_of_yields {common : ValueType} (h : op.Yields common τ) : op.Yields τ τ := by
  unfold Yields at h ⊢
  cases hrule : op.rule with
  | numeric =>
    rw [hrule] at h
    exact ⟨rfl, h.1 ▸ h.2⟩
  | fractional =>
    rw [hrule] at h
    exact ⟨h.1, h.1⟩
  | integral =>
    rw [hrule] at h
    exact ⟨h.1, by rw [h.1]; decide⟩
  | comparison =>
    rw [hrule] at h
    exact h
  | logical =>
    rw [hrule] at h
    exact ⟨h.1, h.1⟩
  | select => trivial

end Op

/-! ### Computations -/

/-- All parts of a computation have the types that are expected of them, given some arrays and inputs. -/
inductive Computation.Typed (arrays : List DataArray) (inputs : List Input) : Computation → Prop
  | constant (c : Constant) : Typed arrays inputs (.constant c)
  | iterator (v : IteratorValue) : Typed arrays inputs (.iterator v)
  | apply {op : Op} {τ : ValueType} {operands : List Computation}
      (h : op.resultType (operands.map (·.type)) = .ok τ) (hoperands : ∀ c ∈ operands, Typed arrays inputs c) :
      Typed arrays inputs (.apply op τ operands)
  | input {number : Nat} {input : Input} (access : Access) (h : inputs[number]? = some input) :
      Typed arrays inputs (.input number input.type access)
  | read {number : Nat} {array : DataArray} (access : Access) (h : arrays[number]? = some array) :
      Typed arrays inputs (.read number array.type access)
  | reduce {op : Op} {τ : ValueType} {dim : Nat} {lower upper : Int} {body : Computation}
      (h : op.resultType [body.type, body.type] = .ok τ) (hbody : Typed arrays inputs body) :
      Typed arrays inputs (.reduce op τ dim lower upper body)

/-- Types stay what they are as long as those of the arrays do. -/
theorem Computation.Typed.transfer {arrays arrays' : List DataArray} {inputs : List Input} {c : Computation}
    (h : c.Typed arrays inputs)
    (harrays : ∀ (number : Nat) (array : DataArray), arrays[number]? = some array →
      ∃ array' : DataArray, arrays'[number]? = some array' ∧ array'.type = array.type) :
    c.Typed arrays' inputs := by
  induction h with
  | constant c => exact .constant c
  | iterator v => exact .iterator v
  | apply h _ ih => exact .apply h ih
  | input access h => exact .input access h
  | read access h =>
    obtain ⟨array', harray', htype⟩ := harrays _ _ h
    rw [← htype]
    exact .read access harray'
  | reduce h _ ih => exact .reduce h ih

variable [Arithmetic]

namespace Program

variable {p : Program} {arrays : List DataArray}

private theorem typed_accessArray {f : Frame} {origin : Option Origin} {number : Nat} {indices : List Expr}
    {c : Computation} (h : accessArray arrays f origin number indices = .ok c) : c.Typed arrays p.inputs := by
  obtain ⟨array, access, harray, -, rfl⟩ := accessArray_cases h
  exact .read access harray

private theorem typed_accessInput {f : Frame} {origin : Option Origin} {number : Nat} {indices : List Expr}
    {c : Computation} (h : p.accessInput arrays f origin number indices = .ok c) : c.Typed arrays p.inputs := by
  rcases accessInput_cases h with h | ⟨input, access, hinput, -, -, rfl⟩
  · exact typed_accessArray h
  · exact .input access hinput

mutual

theorem typed_computation : (e : Expr) → {f : Frame} → {c : Computation} →
    p.computation arrays f e = .ok c → c.Typed arrays p.inputs
  | .constant .., f, c, h => by
    rw [computation] at h
    cases h
    exact .constant _
  | .iterator .., f, c, h => by
    rw [computation] at h
    cases h
    exact .iterator _
  | .element .., f, c, h => by
    rw [computation] at h
    exact typed_accessArray h
  | .input .., f, c, h => by
    rw [computation] at h
    exact typed_accessInput h
  | .apply origin op operands, f, c, h => by
    rw [computation] at h
    obtain ⟨cs, hcs, h⟩ := Outcome.bind_eq_ok h
    obtain ⟨τ, hτ, rfl⟩ := applied_cases h
    exact .apply hτ (typed_computations operands (forall₂_of_computations hcs))
  | .reduce origin op dim lower upper body, f, c, h => by
    rw [computation] at h
    obtain ⟨c', hc', h⟩ := Outcome.bind_eq_ok h
    obtain ⟨τ, hτ, rfl⟩ := reduced_cases h
    exact .reduce hτ (typed_computation body hc')

private theorem typed_computations : (es : List Expr) → {f : Frame} → {cs : List Computation} →
    List.Forall₂ (fun e c => p.computation arrays f e = .ok c) es cs → ∀ c ∈ cs, c.Typed arrays p.inputs
  | [], _, _, .nil => fun _ hc => absurd hc List.not_mem_nil
  | e :: rest, _, _, .cons hc hcs =>
    List.forall_mem_cons.mpr ⟨typed_computation e hc, typed_computations rest hcs⟩

end

end Program

def Model.Typed (m : Model) : Prop := ∀ s ∈ m.statements, s.computation.Typed m.arrays m.inputs

theorem Model.typed_of_build {p : Program} {m : Model} (h : (Model.build p).execute.1 = .ok m) : m.Typed := by
  obtain ⟨copies, written, hassembled⟩ := assembled_of_build h
  intro s hs
  cases hassembled.stems s hs with
  | copy hinput _ _ hcopy =>
    rw [hcopy, hassembled.inputs]
    exact .input _ hinput
  | pattern _ _ _ hstates =>
    rw [hassembled.inputs]
    exact Program.typed_computation _ hstates.computation

theorem Model.Typed.allocate {m : Model} (hm : m.Typed) {s : Schedule} {a : Allocation}
    (ha : (Allocation.allocate m s).execute.1 = .ok a) : a.model.Typed := by
  rw [Typed, Allocation.statements_eq ha, Allocation.inputs_eq ha]
  intro st hst
  apply (hm st hst).transfer
  intro number array harray
  obtain ⟨array', harray', _, rfl⟩ := Outcome.getElem?_of_forall₂ (Allocation.forall₂_arrays ha) harray
  exact ⟨_, harray', rfl⟩

end StreamLoom
