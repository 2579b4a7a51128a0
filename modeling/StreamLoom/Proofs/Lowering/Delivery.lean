import StreamLoom.Proofs.Lowering.Run

/-!
# Deliveries

A machine keeps no record of its output, so that what becomes of it is a matter of the target. A target that
hands the output over computes the same values as the machine, since no computation looks at the output. A
statement of an output array stores its value, and then delivers it once.
-/

namespace StreamLoom.Lowering

attribute [local instance] Arithmetic.exact

variable {V : Type} {I : Interpretation V} {deliver : V → V → Running V Unit} {m : Model}

/-- A target that executes at once what it is told to emit, and hands over the output. -/
def Interpretation.delivering (I : Interpretation V) (deliver : V → V → Running V Unit) :
    Target (Running V) V :=
  { I.target with storeOutput := deliver }

/-! ### Computations deliver nothing -/

private theorem operandValues_delivering {cs : List Computation} {s : Scope V}
    (h : ∀ c ∈ cs, value m (I.delivering deliver) s c = value m I.target s c) (common : ValueType) :
    operandValues m (I.delivering deliver) s common cs = operandValues m I.target s common cs := by
  induction cs with
  | nil => rw [operandValues, operandValues]
  | cons c rest ih =>
    rw [operandValues, operandValues, h c (by simp), ih fun c hc => h c (by simp [hc])]
    rfl

private theorem apply_delivering {op : Op} {type : ValueType} {operands : List Computation} {s : Scope V}
    (h : ∀ c ∈ operands, value m (I.delivering deliver) s c = value m I.target s c) :
    value m (I.delivering deliver) s (.apply op type operands) =
      value m I.target s (.apply op type operands) := by
  by_cases hconditional : ∃ condition first second, op = .conditional ∧ operands = [condition, first, second]
  · obtain ⟨condition, first, second, rfl, rfl⟩ := hconditional
    rw [value, value, h condition (by simp), h first (by simp), h second (by simp)]
    rfl
  · have hother : ∀ condition first second, op = .conditional →
        operands = [condition, first, second] → False :=
      fun condition first second hop hoperands => hconditional ⟨condition, first, second, hop, hoperands⟩
    rw [value, value, operandValues_delivering h]
    · rfl
    · exact hother
    · exact hother

mutual

theorem value_delivering : (c : Computation) → (s : Scope V) →
    value m (I.delivering deliver) s c = value m I.target s c
  | .constant c, s => by
    rw [value, value]
    rfl
  | .iterator v, s => by
    rw [value, value]
    rfl
  | .input number _ access, s => by
    rw [value, value]
    rfl
  | .read number _ access, s => by
    rw [value, value]
    rfl
  | .apply _ _ operands, s => apply_delivering fun c hc => values_delivering operands c hc s
  | .reduce op type dim lower upper body, s => by
    have hbody := value_delivering body
    rw [value, value]
    simp only [hbody]
    rfl

theorem values_delivering : (cs : List Computation) → ∀ c ∈ cs, ∀ s : Scope V,
    value m (I.delivering deliver) s c = value m I.target s c
  | [], c, hc, s => by simp at hc
  | c :: rest, c', hc, s => by
    have hfirst := value_delivering c s
    have hrest := values_delivering rest
    rcases List.mem_cons.mp hc with rfl | hc
    · exact hfirst
    · exact hrest c' hc s

end

theorem statementValue_delivering (s : Scope V) (array : DataArray) :
    statementValue m (I.delivering deliver) s array = statementValue m I.target s array := by
  unfold statementValue
  split
  · rfl
  · exact value_delivering _ s

/-! ### Statements -/

/-- Stores the value of a statement, and returns the offset in the buffer of its array. -/
def storing (m : Model) (I : Interpretation V) (st : Statement) (array : DataArray) (x : List V)
    (steady : Bool) : Running V V := do
  let result ← statementValue m I.target ⟨st, x, steady⟩ array
  let element ← I.target.convert result st.computation.type array.type
  let offset ← bufferOffset m I.target st.array x
  I.target.store st.array offset element
  return offset

variable {i : Nat} {st : Statement} {array : DataArray} {σ σ' : Machine V} {x : List V} {steady : Bool}

/-- A statement of an output array delivers what it has stored, at the offset of its point in the window. -/
theorem statement_eq (hst : m.statements[i]? = some st) (harray : m.arrays[st.array]? = some array)
    (houtput : array.isOutput = true) (hx : x.length = st.dims) (period : V)
    (deliver : V → V → Running V Unit) :
    statement m (I.delivering deliver) i (period :: x) steady = (do
      let offset ← storing m I st array x steady
      let position ← streamOffset I.target array x steady
      deliver position (← I.target.load st.array offset)) := by
  simp only [statement, hst, arrayAt, harray, pure_bind, List.length_cons, hx, ne_eq, not_true, if_false,
    houtput, if_true, statementValue_delivering, storing, bind_assoc, List.tail_cons]
  rfl

end StreamLoom.Lowering
