import Mathlib.Logic.Function.Basic
import StreamLoom.Lowering.Walk
import StreamLoom.Proofs.Affine.Value
import StreamLoom.Proofs.Outcome

/-!
# A machine

A target that executes at once what it is told to emit. The buffers of a machine hold values of any
type, and what is computed with them is left open: an interpretation says what constants, conversions
and operations give, and what the inputs hold. Indices are integers among the values.

Evaluating a computation leaves everything but the temporary cells of a machine alone. Only a statement
stores anything, and it does so once.
-/

namespace StreamLoom.Lowering

attribute [local instance] Arithmetic.exact

/-- What is computed with values of type `V`, and what the inputs hold. -/
structure Interpretation (V : Type) where
  ofInt : Int → V
  toInt : V → Int
  toInt_ofInt : ∀ x, toInt (ofInt x) = x
  zero : ValueType → V
  constant : Constant → V
  convert : V → ValueType → ValueType → V
  primitive : Op → ValueType → ValueType → List V → Except Failure V
  truth : V → Bool
  /-- What is at an offset of the window that an input shows in a phase, after some periods. -/
  input : Nat → Bool → Int → Int → V

structure Stored (V : Type) where
  statement : Nat
  point : List Int
  array : Nat
  slot : Int
  value : V

structure Machine (V : Type) where
  /-- The slots of the buffer of each array. -/
  buffers : Nat → Int → V
  phases : Nat → Int := fun _ => 0
  /-- The number of periods that have been completed. -/
  period : Int := 0
  steady : Bool := false
  cells : List V := []
  /-- The statement that is executed, and its point among all periods. -/
  current : Nat × List Int := (0, [])
  /-- Everything that has been stored, in the order in which it was. -/
  log : List (Stored V) := []

abbrev Running (V : Type) := ExceptT Failure (StateM (Machine V))

def Running.from {V α : Type} (part : Running V α) (σ : Machine V) : Except Failure α × Machine V :=
  StateT.run (ExceptT.run part) σ

variable {V α β : Type}

/-- Puts a value into a slot, on behalf of the current statement. -/
def Machine.store (σ : Machine V) (array : Nat) (slot : Int) (v : V) : Machine V :=
  { σ with
    buffers := Function.update σ.buffers array (Function.update (σ.buffers array) slot v)
    log := σ.log ++ [⟨σ.current.1, σ.current.2, array, slot, v⟩] }

namespace Interpretation

variable (I : Interpretation V)

def loop (lower upper : Int) (body : V → Running V Unit) : Running V Unit :=
  (List.range (upper - lower + 1).toNat).forM fun n => body (I.ofInt (lower + n))

/-- Executes what is emitted. Cells are referred to by their numbers. -/
def target : Target (Running V) V where
  constant c := pure (I.constant c)
  convert v source target := pure (I.convert v source target)
  index x := pure (I.ofInt x)
  indexAdd a b := pure (I.ofInt (fit (I.toInt a + I.toInt b)))
  indexMul a b := pure (I.ofInt (fit (I.toInt a * I.toInt b)))
  indexMod v modulus := pure (I.ofInt (Arithmetic.residue (I.toInt v) modulus))
  phase array := do return I.ofInt ((← get).phases array)
  period := do return I.ofInt (← get).period
  load array offset := do return (← get).buffers array (I.toInt offset)
  store array offset v := modify (·.store array (I.toInt offset) v)
  loadInput number offset := do
    let σ ← get
    return I.input number σ.steady σ.period (I.toInt offset)
  storeOutput _ _ := pure ()
  primitive op operand result operands := ExceptT.mk (pure (I.primitive op operand result operands))
  temporary type := do
    let σ ← get
    set { σ with cells := σ.cells ++ [I.zero type] }
    return I.ofInt σ.cells.length
  assign x v := modify fun σ => { σ with cells := σ.cells.set (I.toInt x).toNat v }
  use x := do return (← get).cells.getD (I.toInt x).toNat x
  branch condition first second := if I.truth condition then first else second
  loop := I.loop
  note _ := pure ()

end Interpretation

/-! ### Runs -/

namespace Running

variable {part : Running V α} {f : α → Running V β} {σ σ' : Machine V} {a : α} {b : β}

theorem from_bind (h : part.from σ = (.ok a, σ')) : (part >>= f).from σ = (f a).from σ' := by
  change StateT.run (ExceptT.run part) σ = _ at h
  rw [Running.from, ExceptT.run_bind, StateT.run_bind, h]
  rfl

theorem from_bind_error {e : Failure} (h : part.from σ = (.error e, σ')) :
    (part >>= f).from σ = (.error e, σ') := by
  change StateT.run (ExceptT.run part) σ = _ at h
  rw [Running.from, ExceptT.run_bind, StateT.run_bind, h]
  rfl

/-- What ends well after something else was preceded by a good end of it. -/
theorem from_bind_cases (h : (part >>= f).from σ = (.ok b, σ')) :
    ∃ a σ₁, part.from σ = (.ok a, σ₁) ∧ (f a).from σ₁ = (.ok b, σ') := Outcome.run_bind_cases h

end Running

/-! ### Frames -/

/-- A machine differs from another one in its temporary cells only. -/
def Machine.Agrees (σ' σ : Machine V) : Prop := ∃ cells, σ' = { σ with cells := cells }

theorem Machine.Agrees.refl (σ : Machine V) : σ.Agrees σ := ⟨σ.cells, rfl⟩

theorem Machine.Agrees.trans {σ σ' σ'' : Machine V} (h : σ''.Agrees σ') (h' : σ'.Agrees σ) :
    σ''.Agrees σ := by
  obtain ⟨cells, rfl⟩ := h
  obtain ⟨cells', rfl⟩ := h'
  exact ⟨cells, rfl⟩

/-- A part of a run changes nothing but temporary cells, however it ends. -/
def Quiet (part : Running V α) : Prop := ∀ σ, (part.from σ).2.Agrees σ

namespace Quiet

protected theorem pure (a : α) : Quiet (pure a : Running V α) := fun σ => .refl σ

protected theorem throw (e : Failure) : Quiet (throw e : Running V α) := fun σ => .refl σ

protected theorem bind {part : Running V α} {f : α → Running V β} (h : Quiet part)
    (hf : ∀ a, Quiet (f a)) : Quiet (part >>= f) := by
  intro σ
  have hpart := h σ
  cases hrun : part.from σ with
  | mk result σ₁ =>
    rw [hrun] at hpart
    cases result with
    | error e =>
      rw [Running.from_bind_error hrun]
      exact hpart
    | ok a =>
      rw [Running.from_bind hrun]
      exact (hf a σ₁).trans hpart

protected theorem ite {p : Prop} [Decidable p] {first second : Running V α} (h : Quiet first)
    (h' : Quiet second) : Quiet (if p then first else second) := by
  split
  · exact h
  · exact h'

protected theorem mapM {f : α → Running V β} (hf : ∀ a, Quiet (f a)) (as : List α) :
    Quiet (as.mapM f) := by
  induction as with
  | nil => exact .pure []
  | cons a as ih =>
    rw [List.mapM_cons]
    exact .bind (hf a) fun b => .bind ih fun bs => .pure (b :: bs)

protected theorem forM {f : α → Running V PUnit} (hf : ∀ a, Quiet (f a)) (as : List α) :
    Quiet (as.forM f) := by
  induction as with
  | nil => exact .pure PUnit.unit
  | cons a as ih => exact .bind (hf a) fun _ => ih

protected theorem foldlM {f : β → α → Running V β} (hf : ∀ b a, Quiet (f b a)) (as : List α) (b : β) :
    Quiet (as.foldlM f b) := by
  induction as generalizing b with
  | nil => exact .pure b
  | cons a as ih =>
    rw [List.foldlM_cons]
    exact .bind (hf b a) fun b => ih b

end Quiet

/-! ### Computations are quiet -/

section

variable {I : Interpretation V} {model : Model}

private theorem quiet_load (array : Nat) (offset : V) : Quiet (I.target.load array offset) :=
  fun σ => .refl σ

private theorem quiet_phase (array : Nat) : Quiet (I.target.phase array) := fun σ => .refl σ

private theorem quiet_period : Quiet I.target.period := fun σ => .refl σ

private theorem quiet_loadInput (number : Nat) (offset : V) : Quiet (I.target.loadInput number offset) :=
  fun σ => .refl σ

private theorem quiet_primitive (op : Op) (operand result : ValueType) (operands : List V) :
    Quiet (I.target.primitive op operand result operands) := fun σ => .refl σ

private theorem quiet_temporary (type : ValueType) : Quiet (I.target.temporary type) :=
  fun σ => ⟨σ.cells ++ [I.zero type], rfl⟩

private theorem quiet_assign (x v : V) : Quiet (I.target.assign x v) :=
  fun σ => ⟨σ.cells.set (I.toInt x).toNat v, rfl⟩

private theorem quiet_use (x : V) : Quiet (I.target.use x) := fun σ => .refl σ

private theorem quiet_loop {body : V → Running V Unit} (hbody : ∀ v, Quiet (body v)) (lower upper : Int) :
    Quiet (I.target.loop lower upper body) := .forM (fun _ => hbody _) _

theorem quiet_arrayAt (number : Nat) : Quiet (arrayAt model number : Running V DataArray) := by
  unfold arrayAt
  split
  · exact .pure _
  · exact .throw _

private theorem quiet_addTerm (sum : Option V) (v : V) (c : Int) :
    Quiet (addTerm I.target sum v c) := by
  refine .ite (.pure _) (.ite (.bind (.pure _) ?_) (.bind (.pure _) fun _ => .bind (.pure _) ?_))
  all_goals
    intro multiple
    cases sum with
    | none => exact .pure _
    | some s => exact .bind (.pure _) fun _ => .pure _

theorem quiet_affine (c : Int) (values : List V) (coeffs : List Int) :
    Quiet (affine I.target c values coeffs) := by
  refine .bind (.foldlM (fun _ _ => quiet_addTerm _ _ _) _ _) fun sum => ?_
  split
  · exact .pure _
  · exact .ite (.pure _) (.bind (.pure _) fun _ => .pure _)

theorem quiet_mapped (env : List V) (pattern : List Affine) : Quiet (mapped I.target env pattern) :=
  .mapM (fun _ => quiet_affine _ _ _) _

theorem quiet_bufferOffset (number : Nat) (index : List V) :
    Quiet (bufferOffset model I.target number index) := by
  refine .ite (.pure _) (.bind (quiet_arrayAt _) fun array => .bind (quiet_affine _ _ _) fun flat => ?_)
  refine .ite (.bind (quiet_phase _) fun phase => ?_) (.pure _)
  have hturned : ∀ turned : V, Quiet (do
      I.target.indexMod (← I.target.indexAdd flat turned) (layoutOf array).length) :=
    fun turned => .bind (.pure _) fun _ => .pure _
  exact .ite (.bind (.pure _) hturned) (.bind (.pure _) fun _ => .bind (.pure _) hturned)

theorem quiet_streamOffset (array : DataArray) (index : List V) (steady : Bool) :
    Quiet (streamOffset I.target array index steady) := quiet_affine _ _ _

private theorem quiet_iterator (s : Scope V) (v : IteratorValue) :
    Quiet (iterator model I.target s v) := by
  unfold iterator
  split
  · exact .throw _
  · refine .ite (.bind (quiet_arrayAt _) fun array => .bind quiet_period fun period => ?_)
      (quiet_affine _ _ _)
    exact .bind (.pure _) fun _ => .bind (.pure _) fun _ => .bind (.pure _) fun _ => quiet_affine _ _ _

private theorem quiet_input (s : Scope V) (number : Nat) (pattern : List Affine) :
    Quiet (input model I.target s number pattern) := by
  refine .bind (quiet_mapped _ _) fun index => ?_
  split
  · exact .throw _
  · exact .bind (quiet_affine _ _ _) fun _ => quiet_loadInput _ _

private theorem quiet_operandValues {cs : List Computation} {s : Scope V}
    (h : ∀ c ∈ cs, Quiet (value model I.target s c)) (common : ValueType) :
    Quiet (operandValues model I.target s common cs) := by
  induction cs with
  | nil =>
    rw [operandValues]
    exact .pure []
  | cons c rest ih =>
    rw [operandValues]
    refine .bind (h c (by simp)) fun _ => .bind (.pure _) fun _ => ?_
    exact .bind (ih fun c hc => h c (by simp [hc])) fun _ => .pure _

private theorem quiet_apply {op : Op} {type : ValueType} {operands : List Computation} {s : Scope V}
    (h : ∀ c ∈ operands, Quiet (value model I.target s c)) :
    Quiet (value model I.target s (.apply op type operands)) := by
  by_cases hconditional : ∃ condition first second, op = .conditional ∧ operands = [condition, first, second]
  · obtain ⟨condition, first, second, rfl, rfl⟩ := hconditional
    have harm : ∀ (result : V) (arm : Computation) (common : ValueType), arm ∈ [condition, first, second] →
        Quiet (do
          let v ← I.target.convert (← value model I.target s arm) arm.type common
          I.target.assign result (← I.target.convert v common type)) := by
      intro result arm common harm
      exact .bind (h arm harm) fun _ => .bind (.pure _) fun _ => .bind (.pure _) fun _ => quiet_assign _ _
    rw [value]
    refine .bind (quiet_temporary _) fun result => .bind (h condition (by simp)) fun chosen => ?_
    refine .bind ?_ fun _ => quiet_use _
    exact .ite (harm result first _ (by simp)) (harm result second _ (by simp))
  · rw [value]
    · exact .bind (quiet_operandValues h _) fun _ => quiet_primitive _ _ _ _
    · intro condition first second hop hoperands
      exact hconditional ⟨condition, first, second, hop, hoperands⟩

mutual

theorem quiet_value : (c : Computation) → (s : Scope V) → Quiet (value model I.target s c)
  | .constant c, s => by
    rw [value]
    exact .pure _
  | .iterator v, s => by
    rw [value]
    exact quiet_iterator s v
  | .input number _ access, s => by
    rw [value]
    exact quiet_input s number access.pattern
  | .read number _ access, s => by
    rw [value]
    exact .bind (quiet_mapped _ _) fun _ => .bind (quiet_bufferOffset _ _) fun _ => quiet_load _ _
  | .apply _ _ operands, s => quiet_apply fun c hc => quiet_values operands c hc s
  | .reduce op type dim lower upper body, s => by
    have hbody := quiet_value body
    rw [value]
    refine .bind (quiet_temporary _) fun result => .bind (.pure _) fun start => ?_
    refine .bind (hbody _) fun first => .bind (.pure _) fun _ => .bind (quiet_assign _ _) fun _ => ?_
    refine .ite (.bind (quiet_loop (fun r => ?_) _ _) fun _ => quiet_use _) (quiet_use _)
    refine .bind (hbody _) fun _ => .bind (.pure _) fun _ => .bind (quiet_use _) fun _ => ?_
    exact .bind (quiet_primitive _ _ _ _) fun _ => quiet_assign _ _

theorem quiet_values : (cs : List Computation) → ∀ c ∈ cs, ∀ s : Scope V,
    Quiet (value model I.target s c)
  | [], c, hc, s => by simp at hc
  | c :: rest, c', hc, s => by
    have hfirst := quiet_value c s
    have hrest := quiet_values rest
    rcases List.mem_cons.mp hc with rfl | hc
    · exact hfirst
    · exact hrest c' hc s

end

end

end StreamLoom.Lowering
