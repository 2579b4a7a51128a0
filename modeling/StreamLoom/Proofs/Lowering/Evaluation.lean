import StreamLoom.Proofs.Lowering.Meaning
import StreamLoom.Proofs.Lowering.Offset

/-!
# Evaluation of computations

A machine that executes what a computation is lowered to ends with the value of the computation. Its
temporary cells are a stack: what is evaluated on the way only puts new cells on top of those that are
there, so that the cell of a conditional or of a reduction stays where it is until it is used.
-/

namespace StreamLoom.Lowering

open Arithmetic (fit_add fit_add_right fit_between fit_fit fit_mul fit_mul_right fit_zero)

variable {V α β : Type}

/-! ### Cells -/

/-- A machine with more cells on top. -/
def Machine.grown (σ : Machine V) (extra : List V) : Machine V := { σ with cells := σ.cells ++ extra }

/-- A machine with a cell that holds a value, and more cells on top of it. -/
def Machine.holding (σ : Machine V) (v : V) (extra : List V) : Machine V := σ.grown (v :: extra)

/-- A part of a run ends in some way, and puts cells on top of those of the machine. -/
def Ends (part : Running V α) (σ : Machine V) (r : Except Failure α) : Prop :=
  ∃ extra, part.from σ = (r, σ.grown extra)

/-- A part of a run changes the value that a cell holds, unless it fails. -/
def Fills (σ : Machine V) (part : Running V Unit) (v : V) (r : Except Failure V) : Prop :=
  ∀ extra, ∃ v' extra', part.from (σ.holding v extra) = (r.map fun _ => (), σ.holding v' extra') ∧
    ∀ a, r = .ok a → v' = a

@[simp] theorem Machine.memory_grown (σ : Machine V) (extra : List V) :
    (σ.grown extra).memory = σ.memory := rfl

@[simp] theorem Machine.memory_holding (σ : Machine V) (v : V) (extra : List V) :
    (σ.holding v extra).memory = σ.memory := rfl

theorem Machine.grown_nil (σ : Machine V) : σ.grown [] = σ := by
  rw [grown, List.append_nil]

theorem Machine.grown_grown (σ : Machine V) (extra more : List V) :
    (σ.grown extra).grown more = σ.grown (extra ++ more) := by
  simp only [grown, List.append_assoc]

theorem Machine.grown_holding (σ : Machine V) (v : V) (extra more : List V) :
    (σ.holding v extra).grown more = σ.holding v (extra ++ more) := by
  rw [holding, holding, grown_grown, List.cons_append]

section

variable {σ : Machine V} {part : Running V α} {f : α → Running V β} {r : Except Failure α}
  {g : α → Except Failure β}

theorem Gives.ends {a : α} (h : Gives part σ a) : Ends part σ (.ok a) :=
  ⟨[], by rw [Machine.grown_nil]; exact h⟩

namespace Ends

theorem of_throw (e : Failure) : Ends (throw e : Running V α) σ (.error e) :=
  ⟨[], by rw [Machine.grown_nil]; rfl⟩

theorem bind (h : Ends part σ r) (hf : ∀ a extra, Ends (f a) (σ.grown extra) (g a)) :
    Ends (part >>= f) σ (r >>= g) := by
  obtain ⟨extra, hpart⟩ := h
  cases r with
  | error e => exact ⟨extra, Running.from_bind_error hpart⟩
  | ok a =>
    obtain ⟨more, hrest⟩ := hf a extra
    rw [Machine.grown_grown] at hrest
    exact ⟨extra ++ more, (Running.from_bind hpart).trans hrest⟩

end Ends

/-- What is done after a part that leaves the machine as it is. -/
theorem Gives.ends_bind {a : α} {r : Except Failure β} (h : Gives part σ a) (hf : Ends (f a) σ r) :
    Ends (part >>= f) σ r := by
  obtain ⟨extra, hrest⟩ := hf
  exact ⟨extra, (Running.from_bind h).trans hrest⟩

end

variable {I : Interpretation V} {model : Model} {σ : Machine V}

private theorem ends_arrayAt (number : Nat) :
    Ends (arrayAt model number : Running V DataArray) σ (arrayAt model number) := by
  unfold arrayAt
  split
  · exact (Gives.pure _).ends
  · exact .of_throw _

section

variable {part : Running V α} {r : Except Failure α} {v : V}

private theorem set_holding (σ : Machine V) (v w : V) (extra : List V) :
    (σ.holding v extra).cells.set σ.cells.length w = (σ.holding w extra).cells := by
  simp [Machine.holding, Machine.grown]

private theorem getD_holding (σ : Machine V) (v w : V) (extra : List V) :
    (σ.holding v extra).cells.getD σ.cells.length w = v := by
  simp [Machine.holding, Machine.grown]

private theorem fills_pure (v : V) : Fills σ (pure ()) v (.ok v) :=
  fun extra => ⟨v, extra, rfl, fun _ ha => Except.ok.inj ha⟩

/-- What is evaluated before the cell is changed puts more cells on top of it. -/
private theorem fills_bind {f : α → Running V Unit} {g : α → Except Failure V}
    (h : ∀ extra, Ends part (σ.holding v extra) r) (hf : ∀ a, Fills σ (f a) v (g a)) :
    Fills σ (part >>= f) v (r >>= g) := by
  intro extra
  obtain ⟨more, hpart⟩ := h extra
  rw [Machine.grown_holding] at hpart
  cases r with
  | error e => exact ⟨v, extra ++ more, Running.from_bind_error hpart, fun _ ha => by cases ha⟩
  | ok a =>
    obtain ⟨v', extra', hrest, hv'⟩ := hf a (extra ++ more)
    exact ⟨v', extra', (Running.from_bind hpart).trans hrest, hv'⟩

private theorem fills_seq {part rest : Running V Unit} {r : Except Failure V} {g : V → Except Failure V}
    (h : Fills σ part v r) (hrest : ∀ a, r = .ok a → Fills σ rest a (g a)) :
    Fills σ (part >>= fun _ => rest) v (r >>= g) := by
  intro extra
  obtain ⟨v', extra', hpart, hv'⟩ := h extra
  cases r with
  | error e => exact ⟨v', extra', Running.from_bind_error hpart, fun _ ha => by cases ha⟩
  | ok a =>
    obtain rfl := hv' a rfl
    obtain ⟨v'', extra'', hafter, hv''⟩ := hrest v' rfl extra'
    exact ⟨v'', extra'', (Running.from_bind hpart).trans hafter, hv''⟩

end

section

variable [Arithmetic]

/-! ### Temporary cells -/

private theorem fills_assign (v w : V) :
    Fills σ (I.executing.assign (I.ofInt σ.cells.length) w) v (.ok w) := by
  refine fun extra => ⟨w, extra, ?_, fun _ ha => Except.ok.inj ha⟩
  change (Except.ok (), { σ.holding v extra with
    cells := (σ.holding v extra).cells.set (I.toInt (I.ofInt σ.cells.length)).toNat w }) = _
  rw [I.toInt_ofInt, Int.toNat_natCast, set_holding]
  rfl

private theorem fills_assign_seq {rest : Running V Unit} {v w : V} {r : Except Failure V}
    (h : Fills σ rest w r) :
    Fills σ (I.executing.assign (I.ofInt σ.cells.length) w >>= fun _ => rest) v r := by
  refine fills_seq (g := fun _ => r) (fills_assign v w) fun a ha => ?_
  rwa [← Except.ok.inj ha]

/-- A part that reads the cell finds the value that it holds. -/
private theorem fills_use {f : V → Running V Unit} {v : V} {r : Except Failure V} (h : Fills σ (f v) v r) :
    Fills σ (I.executing.use (I.ofInt σ.cells.length) >>= f) v r := by
  intro extra
  have huse : (I.executing.use (I.ofInt σ.cells.length)).from (σ.holding v extra) =
      (.ok v, σ.holding v extra) := by
    change (Except.ok ((σ.holding v extra).cells.getD (I.toInt (I.ofInt σ.cells.length)).toNat _), _) = _
    rw [I.toInt_ofInt, Int.toNat_natCast, getD_holding]
  rw [Running.from_bind huse]
  exact h extra

/-- A new cell that some part fills is used in the end. -/
private theorem ends_of_fills {type : ValueType} (part : V → Running V Unit) {r : Except Failure V}
    (h : Fills σ (part (I.ofInt σ.cells.length)) (I.zero type) r) :
    Ends (do
      let result ← I.executing.temporary type
      part result
      I.executing.use result) σ r := by
  have htemporary : (I.executing.temporary type).from σ =
      (.ok (I.ofInt σ.cells.length), σ.holding (I.zero type) []) := rfl
  obtain ⟨v, extra, hpart, hv⟩ := h []
  rw [Ends, Running.from_bind htemporary]
  cases r with
  | error e => exact ⟨v :: extra, Running.from_bind_error hpart⟩
  | ok a =>
    obtain rfl := hv a rfl
    refine ⟨v :: extra, ?_⟩
    rw [Running.from_bind hpart]
    change (Except.ok ((σ.holding v extra).cells.getD (I.toInt (I.ofInt σ.cells.length)).toNat _), _) = _
    rw [I.toInt_ofInt, Int.toNat_natCast, getD_holding]
    rfl

/-! ### Indices -/

private theorem indexAdd_eq (a b : Int) :
    I.executing.indexAdd (I.ofInt a) (I.ofInt b) = pure (I.ofInt (fit (a + b))) := by
  change pure (I.ofInt (fit (I.toInt (I.ofInt a) + I.toInt (I.ofInt b)))) = _
  rw [I.toInt_ofInt, I.toInt_ofInt]

private theorem indexMod_eq (a modulus : Int) :
    I.executing.indexMod (I.ofInt a) modulus = pure (I.ofInt (Arithmetic.residue a modulus)) := by
  change pure (I.ofInt (Arithmetic.residue (I.toInt (I.ofInt a)) modulus)) = _
  rw [I.toInt_ofInt]

private theorem index_eq (a : Int) : I.executing.index a = pure (I.ofInt (fit a)) := rfl

private theorem convert_eq (v : V) (source target : ValueType) :
    I.executing.convert v source target = pure (I.convert v source target) := rfl

variable [Arithmetic.Modular]

/-- Values are numbers of the arithmetic. -/
def Numbers (xs : List Int) : Prop := ∀ x ∈ xs, fit x = x

private theorem indexMul_eq (a b : Int) :
    I.executing.indexMul (I.ofInt a) (I.ofInt (fit b)) = pure (I.ofInt (fit (a * b))) := by
  change pure (I.ofInt (fit (I.toInt (I.ofInt a) * I.toInt (I.ofInt (fit b))))) = _
  rw [I.toInt_ofInt, I.toInt_ofInt, fit_mul_right]

/-- A sum without terms stands for zero, and another one for what is kept of it. -/
private def Keeps (I : Interpretation V) (sum : Option V) (a : Int) : Prop :=
  sum.elim (a = 0) (· = I.ofInt (fit a))

private theorem keeps_added {sum : Option V} {a : Int} (h : Keeps I sum a) (b : Int) :
    ∃ sum', (match sum with
      | none => pure (some (I.ofInt (fit b)))
      | some s => do return some (← I.executing.indexAdd s (I.ofInt (fit b))) : Running V (Option V)) =
        pure sum' ∧ Keeps I sum' (a + b) := by
  cases sum with
  | none =>
    obtain rfl : a = 0 := h
    exact ⟨some (I.ofInt (fit b)), rfl, by rw [zero_add]; rfl⟩
  | some s =>
    obtain rfl : s = I.ofInt (fit a) := h
    refine ⟨some (I.ofInt (fit (a + b))), ?_, rfl⟩
    dsimp only
    rw [indexAdd_eq, pure_bind, fit_add, fit_add_right]

private theorem keeps_addTerm {sum : Option V} {a : Int} (h : Keeps I sum a) {x : Int} (hx : fit x = x)
    (c : Int) : ∃ sum', addTerm I.executing sum (I.ofInt x) c = pure sum' ∧ Keeps I sum' (a + x * c) := by
  unfold addTerm
  by_cases hzero : c = 0
  · rw [if_pos hzero, hzero, mul_zero, add_zero]
    exact ⟨sum, rfl, h⟩
  rw [if_neg hzero]
  dsimp only
  obtain ⟨sum', hadded, hkeeps⟩ := keeps_added h (x * c)
  refine ⟨sum', ?_, hkeeps⟩
  by_cases hone : c = 1
  · rw [hone, mul_one, hx] at hadded
    rw [if_pos hone, pure_bind]
    exact hadded
  · rw [if_neg hone, index_eq, pure_bind, indexMul_eq, pure_bind]
    exact hadded

private theorem keeps_sum {sum : Option V} {a : Int} (h : Keeps I sum a) {xs : List Int}
    (hxs : Numbers xs) (ks : List Int) :
    ∃ sum', ((xs.map I.ofInt).zip ks).foldlM (fun sum (v, k) => addTerm I.executing sum v k) sum =
      pure sum' ∧ Keeps I sum' (a + Arithmetic.dot xs ks) := by
  induction xs generalizing ks sum a with
  | nil => exact ⟨sum, rfl, by rwa [Arithmetic.dot, add_zero]; simp⟩
  | cons x xs ih =>
    cases ks with
    | nil => exact ⟨sum, rfl, by rwa [Arithmetic.dot, add_zero]; simp⟩
    | cons k ks =>
      obtain ⟨sum₁, hadd, hkeeps⟩ := keeps_addTerm h (hxs x (by simp)) k
      obtain ⟨sum', hrest, hkeeps'⟩ := ih hkeeps (fun y hy => hxs y (by simp [hy])) ks
      refine ⟨sum', ?_, by rwa [Arithmetic.dot, ← add_assoc]⟩
      rw [List.map_cons, List.zip_cons_cons, List.foldlM_cons]
      dsimp only
      rw [hadd, pure_bind, hrest]

private theorem affine_eq (c : Int) {xs : List Int} (hxs : Numbers xs) (ks : List Int) :
    affine I.executing c (xs.map I.ofInt) ks = pure (I.ofInt (fit (c + Arithmetic.dot xs ks))) := by
  obtain ⟨sum, hsum, hkeeps⟩ := keeps_sum (show Keeps I none 0 from rfl) hxs ks
  rw [zero_add] at hkeeps
  rw [affine, hsum, pure_bind]
  cases sum with
  | none =>
    rw [show Arithmetic.dot xs ks = 0 from hkeeps, add_zero]
    exact index_eq c
  | some s =>
    obtain rfl : s = I.ofInt (fit (Arithmetic.dot xs ks)) := hkeeps
    dsimp only
    split
    · rename_i hzero
      rw [hzero, zero_add]
    · rw [index_eq, pure_bind, indexAdd_eq, fit_add, fit_add_right, add_comm]

private theorem mapped_eq {env : List Int} (henv : Numbers env) (pattern : List Affine) :
    mapped I.executing (env.map I.ofInt) pattern = pure ((pattern.map (·.eval env)).map I.ofInt) := by
  unfold mapped
  induction pattern with
  | nil => rfl
  | cons a pattern ih =>
    have heval : a.eval env = fit (a.const + Arithmetic.dot env a.coeffs) := by
      rw [Affine.eval, dot_comm]
    rw [List.mapM_cons, affine_eq a.const henv, pure_bind, ih, pure_bind, List.map_cons, List.map_cons,
      heval]

private theorem numbers_eval (env : List Int) (pattern : List Affine) :
    Numbers (pattern.map (·.eval env)) := by
  intro x hx
  obtain ⟨a, -, rfl⟩ := List.mem_map.mp hx
  rw [Affine.eval, fit_fit]

/-! ### Elements -/

private theorem ends_bufferOffset (number : Nat) {index : List Int} (hindex : Numbers index) :
    Ends (bufferOffset model I.executing number (index.map I.ofInt)) σ
      (I.ofInt <$> σ.memory.slot model number index) := by
  unfold bufferOffset Memory.slot
  by_cases hempty : index = []
  · rw [if_pos (by simp [hempty]), if_pos (by simp [hempty]), index_eq, fit_zero]
    exact (Gives.pure _).ends
  rw [if_neg (by simpa using hempty), if_neg (by simpa using hempty), map_bind]
  refine (ends_arrayAt number).bind fun array extra => Gives.ends ?_
  generalize hσ' : σ.grown extra = σ'
  dsimp only
  rw [affine_eq 0 hindex, pure_bind, zero_add]
  by_cases hperiod : array.buffer.period > 0
  · rw [if_pos hperiod, if_pos hperiod]
    refine .bind (a := I.ofInt (σ.phases number)) (by rw [← hσ']; rfl) ?_
    have hfinish : ∀ turned, fit turned = fit (σ.phases number * (layoutOf array).slice) →
        Gives (do
          I.executing.indexMod (← I.executing.indexAdd
            (I.ofInt (fit (Arithmetic.dot index (layoutOf array).strides))) (I.ofInt turned))
              (layoutOf array).length) σ'
          (I.ofInt ((layoutOf array).flatten index (σ.phases number))) := by
      intro turned hturned
      rw [indexAdd_eq, pure_bind, indexMod_eq, Layout.flatten, fit_add, ← fit_add_right, hturned,
        fit_add_right, add_comm]
      exact .pure _
    by_cases hslice : (layoutOf array).slice = 1
    · rw [if_pos hslice]
      exact .bind (.pure _) (hfinish _ (by rw [hslice, mul_one]))
    · rw [if_neg hslice]
      refine .bind (.pure _) (.bind (a := I.ofInt (fit (σ.phases number * (layoutOf array).slice))) ?_ ?_)
      · rw [indexMul_eq]
        exact .pure _
      · exact hfinish _ (fit_fit _)
  · rw [if_neg hperiod, if_neg hperiod, indexMod_eq, Layout.flatten, zero_mul, zero_add]
    exact .pure _

/-! ### Computations -/

variable {μ : Memory V} {st : Statement} {env : List Int}

/-- A computation is evaluated to its value by all machines with the same memory. -/
def Evaluates (I : Interpretation V) (model : Model) (μ : Memory V) (st : Statement) (env : List Int)
    (c : Computation) : Prop :=
  ∀ σ : Machine V, σ.memory = μ → Ends (value model I.executing ⟨st, env.map I.ofInt, μ.steady⟩ c) σ
    (denote I model μ st c env)

private theorem affine_single (c : Int) {y : Int} (hy : fit y = y) (k : Int) :
    affine I.executing c [I.ofInt y] [k] = pure (I.ofInt (fit (k * y + c))) := by
  have hnumbers : Numbers [y] := fun x hx => by rwa [List.mem_singleton.mp hx]
  have h := affine_eq (I := I) c hnumbers [k]
  rwa [Arithmetic.dot, Arithmetic.dot, add_zero, mul_comm, add_comm] at h
  simp

private theorem evaluates_iterator (henv : Numbers env) (v : IteratorValue) :
    Evaluates I model μ st env (.iterator v) := by
  rintro σ rfl
  rw [value, denote, iterator, Memory.absolute, List.getElem?_map]
  cases hx : env[v.dim]? with
  | none => exact .of_throw _
  | some x =>
    have hnumber : fit x = x := henv x (List.mem_of_getElem? hx)
    rw [Option.map_some]
    dsimp only
    split
    · rw [bind_assoc]
      refine (ends_arrayAt _).bind fun array extra => Gives.ends (.bind (a := I.ofInt σ.period) rfl ?_)
      have hvalue : fit (v.ratio * fit (x + σ.period * array.buffer.period) + v.offset) =
          fit (v.ratio * (x + σ.period * array.buffer.period) + v.offset) := by
        rw [← fit_add, fit_mul_right, fit_add]
      rw [index_eq, pure_bind, indexMul_eq, pure_bind, indexAdd_eq, pure_bind, fit_add_right,
        affine_single _ (fit_fit _), hvalue]
      exact .pure _
    · rw [affine_single _ hnumber]
      exact (Gives.pure _).ends

private theorem evaluates_input (henv : Numbers env) (number : Nat) (type : ValueType) (access : Access) :
    Evaluates I model μ st env (.input number type access) := by
  rintro σ rfl
  rw [value, denote, input, Memory.inputAt, mapped_eq henv, pure_bind]
  cases model.inputs[number]? with
  | none => exact .of_throw _
  | some i =>
    dsimp only
    rw [affine_eq 0 (numbers_eval env access.pattern), pure_bind, zero_add]
    have hload : Gives (I.executing.loadInput number (I.ofInt (fit (Arithmetic.dot
        (access.pattern.map (·.eval env))
          ((rowMajor i.extents (List.range i.extents.length)).map (·.2)))))) σ
        (I.input number σ.steady σ.period (I.toInt (I.ofInt (fit (Arithmetic.dot
          (access.pattern.map (·.eval env))
            ((rowMajor i.extents (List.range i.extents.length)).map (·.2))))))) := rfl
    rw [I.toInt_ofInt] at hload
    exact hload.ends

private theorem evaluates_read (henv : Numbers env) (number : Nat) (type : ValueType) (access : Access) :
    Evaluates I model μ st env (.read number type access) := by
  rintro σ rfl
  rw [value, denote, mapped_eq henv, pure_bind]
  have hoffset : Ends (bufferOffset model I.executing number ((access.pattern.map (·.eval env)).map I.ofInt))
      σ (I.ofInt <$> σ.memory.slot model number (access.pattern.map (·.eval env))) :=
    ends_bufferOffset number (numbers_eval env access.pattern)
  have hload : ∀ offset extra, Ends (I.executing.load number offset) (σ.grown extra)
      (.ok (σ.buffers number (I.toInt offset))) := fun offset extra => Gives.ends rfl
  have hread := hoffset.bind hload
  rw [bind_map_left] at hread
  simp only [I.toInt_ofInt] at hread
  exact hread

private def arm (I : Interpretation V) (model : Model) (s : Scope V) (c : Computation)
    (common type : ValueType) (result : V) : Running V Unit := do
  let v ← I.executing.convert (← value model I.executing s c) c.type common
  I.executing.assign result (← I.executing.convert v common type)

omit [Arithmetic.Modular] in
private theorem fills_arm {c : Computation} (h : Evaluates I model μ st env c) (hσ : σ.memory = μ)
    (common type : ValueType) (v : V) :
    Fills σ (arm I model ⟨st, env.map I.ofInt, μ.steady⟩ c common type (I.ofInt σ.cells.length)) v (do
      return I.convert (I.convert (← denote I model μ st c env) c.type common) common type) :=
  fills_bind (fun _ => h _ hσ) fun _ => fills_assign _ _

omit [Arithmetic.Modular] in
private theorem evaluates_conditional {type : ValueType} {condition first second : Computation}
    (hcondition : Evaluates I model μ st env condition) (hfirst : Evaluates I model μ st env first)
    (hsecond : Evaluates I model μ st env second) :
    Evaluates I model μ st env (.apply .conditional type [condition, first, second]) := by
  intro σ hσ
  rw [value, denote]
  generalize Op.conditional.operandType [condition.type, first.type, second.type] = common
  have hpart : Fills σ (do
      let chosen ← value model I.executing ⟨st, env.map I.ofInt, μ.steady⟩ condition
      I.executing.branch chosen
        (arm I model ⟨st, env.map I.ofInt, μ.steady⟩ first common type (I.ofInt σ.cells.length))
        (arm I model ⟨st, env.map I.ofInt, μ.steady⟩ second common type (I.ofInt σ.cells.length)))
      (I.zero type) (do
      if I.truth (← denote I model μ st condition env) then
        return I.convert (I.convert (← denote I model μ st first env) first.type common) common type
      else
        return I.convert (I.convert (← denote I model μ st second env) second.type common) common type) := by
    refine fills_bind (fun _ => hcondition _ hσ) fun chosen => ?_
    change Fills σ (if I.truth chosen then _ else _) _ _
    split
    · exact fills_arm hfirst hσ _ _ _
    · exact fills_arm hsecond hσ _ _ _
  have hends := ends_of_fills (fun result => do
    let chosen ← value model I.executing ⟨st, env.map I.ofInt, μ.steady⟩ condition
    I.executing.branch chosen
      (arm I model ⟨st, env.map I.ofInt, μ.steady⟩ first common type result)
      (arm I model ⟨st, env.map I.ofInt, μ.steady⟩ second common type result)) hpart
  simpa only [bind_assoc, arm] using hends

section

omit [Arithmetic.Modular]

private theorem ends_operandValues {cs : List Computation} (h : ∀ c ∈ cs, Evaluates I model μ st env c)
    (common : ValueType) (hσ : σ.memory = μ) :
    Ends (operandValues model I.executing ⟨st, env.map I.ofInt, μ.steady⟩ common cs) σ
      ((·.map fun (v, t) => I.convert v t common) <$> denoteAll I model μ st cs env) := by
  induction cs generalizing σ with
  | nil =>
    rw [operandValues, denoteAll]
    exact (Gives.pure _).ends
  | cons c rest ih =>
    rw [operandValues, denoteAll, map_bind]
    refine (h c (by simp) σ hσ).bind fun v extra => ?_
    have hrest := (ih (fun c hc => h c (by simp [hc])) (σ := σ.grown extra) hσ).bind
      (f := fun vs => pure (I.convert v c.type common :: vs)) fun vs extra => (Gives.pure _).ends
    rw [bind_map_left] at hrest
    rw [map_bind]
    exact hrest

private theorem types_of_denoteAll {cs : List Computation} {vs : List (V × ValueType)}
    (h : denoteAll I model μ st cs env = .ok vs) : vs.map (·.2) = cs.map (·.type) := by
  induction cs generalizing vs with
  | nil =>
    cases h
    rfl
  | cons c rest ih =>
    rw [denoteAll] at h
    obtain ⟨v, -, h⟩ := Outcome.bind_eq_ok h
    obtain ⟨others, hothers, h⟩ := Outcome.bind_eq_ok h
    cases h
    rw [List.map_cons, List.map_cons, ih hothers]

private theorem ends_primitive (op : Op) (operand result : ValueType) (vs : List V) :
    Ends (I.executing.primitive op operand result vs) σ (I.primitive op operand result vs) :=
  ⟨[], by rw [Machine.grown_nil]; rfl⟩

private theorem evaluates_apply {op : Op} {type : ValueType} {operands : List Computation}
    (hne : ∀ condition first second, op = .conditional → operands = [condition, first, second] → False)
    (h : ∀ c ∈ operands, Evaluates I model μ st env c) :
    Evaluates I model μ st env (.apply op type operands) := by
  intro σ hσ
  rw [value, denote]
  · have happlied := (ends_operandValues h (op.operandType (operands.map (·.type))) hσ).bind
      (f := fun vs => I.executing.primitive op (op.operandType (operands.map (·.type))) type vs)
        fun vs extra => ends_primitive (σ := σ.grown extra) op _ type vs
    rw [bind_map_left] at happlied
    have hdenoted : (denoteAll I model μ st operands env >>= fun vs => I.primitive op
        (op.operandType (operands.map (·.type))) type
          (vs.map fun (v, t) => I.convert v t (op.operandType (operands.map (·.type))))) =
        denoteAll I model μ st operands env >>= I.applied op type := by
      cases hvs : denoteAll I model μ st operands env with
      | error e => rfl
      | ok vs =>
        change I.primitive _ _ _ _ = I.applied op type vs
        rw [Interpretation.applied, types_of_denoteAll hvs]
    rw [← hdenoted]
    exact happlied
  · exact hne
  · exact hne

end

/-! ### Reductions -/

section

omit [Arithmetic.Modular]

omit [Arithmetic] in
private theorem bind_scope (r : Int) : Scope.bind ⟨st, env.map I.ofInt, μ.steady⟩ (I.ofInt r) =
    ⟨st, (env ++ [r]).map I.ofInt, μ.steady⟩ := by
  rw [Scope.bind, List.map_append]
  rfl

/-- A further value of the body is combined with the one that the cell of a reduction holds. -/
private def iterate (I : Interpretation V) (model : Model) (s : Scope V) (op : Op) (type : ValueType)
    (body : Computation) (result r : V) : Running V Unit := do
  let next ← I.executing.convert (← value model I.executing (s.bind r) body) body.type type
  let sum ← I.executing.use result
  I.executing.assign result (← I.executing.primitive op type type [sum, next])

variable {op : Op} {type : ValueType} {body : Computation}

/-- An iteration applies the operation to the value before and the next one. -/
private theorem fills_iterate (huniform : op.operandType [body.type, body.type] = type) {r : Int}
    (hbody : Evaluates I model μ st (env ++ [r]) body) (hσ : σ.memory = μ) (sum : V) {s : ValueType}
    (hs : s = body.type ∨ s = type) :
    Fills σ (iterate I model ⟨st, env.map I.ofInt, μ.steady⟩ op type body (I.ofInt σ.cells.length)
      (I.ofInt r)) (I.convert sum s type) (do
        let next ← denote I model μ st body (env ++ [r])
        I.applied op type [(sum, s), (next, body.type)]) := by
  unfold iterate
  rw [bind_scope]
  refine fills_bind (fun extra => hbody _ hσ) fun next => ?_
  rw [convert_eq, pure_bind]
  refine fills_use ?_
  have happlied : I.applied op type [(sum, s), (next, body.type)] =
      I.primitive op type type [I.convert sum s type, I.convert next body.type type] := by
    change I.primitive op (op.operandType [s, body.type]) type
      [I.convert sum s (op.operandType [s, body.type]),
        I.convert next body.type (op.operandType [s, body.type])] = _
    rw [Op.operandType_pair huniform hs]
  rw [happlied, ← bind_pure (I.primitive op type type _)]
  exact fills_bind (fun extra => ends_primitive (σ := σ.holding _ extra) op type type _) fun v =>
    fills_assign _ v

private theorem fills_iterations (hconvert : ∀ v t, I.convert v t t = v)
    (huniform : op.operandType [body.type, body.type] = type) {lower : Int} {ns : List Nat}
    (hbody : ∀ n ∈ ns, Evaluates I model μ st (env ++ [lower + n]) body) (hσ : σ.memory = μ) (sum : V)
    {s : ValueType} (hs : s = body.type ∨ s = type) :
    Fills σ (ns.forM fun n => iterate I model ⟨st, env.map I.ofInt, μ.steady⟩ op type body
      (I.ofInt σ.cells.length) (I.ofInt (lower + n))) (I.convert sum s type) (do
        let (last, t) ← ns.foldlM (fun (sum, t) n => do
          let next ← denote I model μ st body (env ++ [lower + n])
          return (← I.applied op type [(sum, t), (next, body.type)], type)) (sum, s)
        return I.convert last t type) := by
  induction ns generalizing sum s with
  | nil => exact fills_pure _
  | cons n ns ih =>
    rw [List.foldlM_cons, bind_assoc]
    have hfirst := fills_iterate huniform (hbody n (by simp)) hσ sum hs
    have hrest := fills_seq hfirst fun a _ => by
      have hafter := ih (fun n hn => hbody n (by simp [hn])) a (.inr rfl)
      rwa [hconvert] at hafter
    simpa only [List.forM_eq_forM, List.forM_cons, bind_assoc, pure_bind] using hrest

end

private theorem evaluates_reduce {op : Op} {type : ValueType} {dim : Nat} {lower upper : Int}
    {body : Computation} (hconvert : ∀ v t, I.convert v t t = v)
    (huniform : op.operandType [body.type, body.type] = type) (hlower : fit lower = lower)
    (hupper : fit upper = upper)
    (hbody : ∀ r, fit r = r → Evaluates I model μ st (env ++ [r]) body) :
    Evaluates I model μ st env (.reduce op type dim lower upper body) := by
  intro σ hσ
  have hiterations : ∀ first, Fills σ (if upper > lower then
      I.executing.loop (fit (lower + 1)) upper
        (iterate I model ⟨st, env.map I.ofInt, μ.steady⟩ op type body (I.ofInt σ.cells.length))
      else pure ()) (I.convert first body.type type) (do
        let (last, t) ← (List.range (upper - lower).toNat).foldlM (fun (sum, t) n => do
          let next ← denote I model μ st body (env ++ [lower + 1 + n])
          return (← I.applied op type [(sum, t), (next, body.type)], type)) (first, body.type)
        return I.convert last t type) := by
    intro first
    split
    · rename_i hlt
      have hbounds : ∀ n ∈ List.range (upper - lower).toNat, fit (lower + 1 + n) = lower + 1 + n := by
        intro n hn
        have hn := List.mem_range.mp hn
        exact fit_between (by omega) (by omega) hlower hupper
      have hnext : fit (lower + 1) = lower + 1 := fit_between (by omega) (by omega) hlower hupper
      have hcount : (upper - (lower + 1) + 1).toNat = (upper - lower).toNat := by omega
      change Fills σ (I.loop _ _ _) _ _
      rw [Interpretation.loop, hnext, hcount]
      exact fills_iterations hconvert huniform (fun n hn => hbody _ (hbounds n hn)) hσ first (.inl rfl)
    · rename_i hle
      have hcount : (upper - lower).toNat = 0 := by omega
      rw [hcount]
      exact fills_pure _
  have hpart : Fills σ (do
      let first ← value model I.executing (Scope.bind ⟨st, env.map I.ofInt, μ.steady⟩ (I.ofInt lower)) body
      I.executing.assign (I.ofInt σ.cells.length) (I.convert first body.type type)
      if upper > lower then
        I.executing.loop (fit (lower + 1)) upper
          (iterate I model ⟨st, env.map I.ofInt, μ.steady⟩ op type body (I.ofInt σ.cells.length))
      else pure ()) (I.zero type) (denote I model μ st (.reduce op type dim lower upper body) env) := by
    rw [denote, bind_scope]
    refine fills_bind (fun _ => hbody lower hlower _ hσ) fun first => ?_
    exact fills_assign_seq (hiterations first)
  have hends := ends_of_fills (fun result => do
    let first ← value model I.executing (Scope.bind ⟨st, env.map I.ofInt, μ.steady⟩ (I.ofInt lower)) body
    I.executing.assign result (I.convert first body.type type)
    if upper > lower then
      I.executing.loop (fit (lower + 1)) upper
        (iterate I model ⟨st, env.map I.ofInt, μ.steady⟩ op type body result)
    else pure ()) hpart
  have hvalue : value model I.executing ⟨st, env.map I.ofInt, μ.steady⟩
      (.reduce op type dim lower upper body) = (do
        let result ← I.executing.temporary type
        let first ← value model I.executing (Scope.bind ⟨st, env.map I.ofInt, μ.steady⟩ (I.ofInt lower)) body
        I.executing.assign result (I.convert first body.type type)
        (if upper > lower then
          I.executing.loop (fit (lower + 1)) upper
            (iterate I model ⟨st, env.map I.ofInt, μ.steady⟩ op type body result)
        else pure ())
        I.executing.use result) := by
    rw [value]
    simp only [index_eq, hlower, pure_bind, convert_eq]
    refine congrArg _ (funext fun result => congrArg _ (funext fun first => congrArg _ (funext fun _ => ?_)))
    split
    · rfl
    · rw [pure_bind]
  rw [hvalue]
  simpa only [bind_assoc] using hends

set_option linter.unusedSectionVars false in
mutual

private theorem evaluates (hconvert : ∀ v t, I.convert v t t = v) : (c : Computation) → c.Uniform →
    {env : List Int} → Numbers env → Evaluates I model μ st env c
  | .constant c, _, _, _ => by
    intro σ _
    rw [value, denote]
    exact (Gives.pure _).ends
  | .iterator v, _, _, henv => evaluates_iterator henv v
  | .input number type access, _, _, henv => evaluates_input henv number type access
  | .read number type access, _, _, henv => evaluates_read henv number type access
  | .apply op type operands, huniform, _, henv => by
    rw [Computation.Uniform] at huniform
    have hall := evaluates_all hconvert operands huniform henv
    by_cases hconditional : ∃ condition first second,
        op = .conditional ∧ operands = [condition, first, second]
    · obtain ⟨condition, first, second, rfl, rfl⟩ := hconditional
      exact evaluates_conditional (hall condition (by simp)) (hall first (by simp)) (hall second (by simp))
    · exact evaluates_apply (fun condition first second hop hoperands =>
        hconditional ⟨condition, first, second, hop, hoperands⟩) hall
  | .reduce op type dim lower upper body, huniform, env, henv => by
    rw [Computation.Uniform] at huniform
    obtain ⟨hoperand, hlower, hupper, hbody⟩ := huniform
    refine evaluates_reduce hconvert hoperand hlower hupper fun r hr => evaluates hconvert body hbody ?_
    intro x hx
    rcases List.mem_append.mp hx with hx | hx
    · exact henv x hx
    · rwa [List.mem_singleton.mp hx]

private theorem evaluates_all (hconvert : ∀ v t, I.convert v t t = v) : (cs : List Computation) →
    Computation.UniformAll cs → {env : List Int} → Numbers env →
    ∀ c ∈ cs, Evaluates I model μ st env c
  | [], _, _, _, c, hc => by simp at hc
  | c :: rest, huniform, _, henv, c', hc => by
    rw [Computation.UniformAll] at huniform
    have hfirst := evaluates hconvert c huniform.1 henv
    have hrest := evaluates_all hconvert rest huniform.2 henv
    rcases List.mem_cons.mp hc with rfl | hc
    · exact hfirst
    · exact hrest c' hc

end

/-! ### Statements -/

/-- The offset of a point in the stream that its array holds. -/
private theorem gives_position (array : DataArray) {x : List Int} (hx : Numbers x) (steady : Bool) :
    Gives (streamOffset I.executing array (x.map I.ofInt) steady) σ (I.ofInt (fit ((match array.flow with
      | some flow => if steady then fit (-array.buffer.offset * (windowStrides array).getD flow 0) else 0
      | none => 0) + Arithmetic.dot x (windowStrides array)))) := by
  rw [streamOffset, affine_eq _ hx]
  exact .pure _

private theorem ends_statementValue (hconvert : ∀ v t, I.convert v t t = v)
    (huniform : st.computation.Uniform) {x : List Int} (hx : Numbers x) (array : DataArray) :
    Ends (statementValue model I.executing ⟨st, x.map I.ofInt, σ.steady⟩ array) σ
      (denoteStatement I model σ.memory st array x) := by
  have hvalue : Evaluates I model σ.memory st x st.computation := evaluates hconvert _ huniform hx
  replace hvalue := hvalue σ rfl
  unfold statementValue denoteStatement
  cases hcomputation : st.computation with
  | input number type access =>
    rw [hcomputation] at hvalue
    cases hinput : array.input.isSome with
    | false => exact hvalue
    | true =>
      refine (gives_position array hx σ.steady).ends_bind (Gives.ends ?_)
      change Gives (pure (I.input number σ.steady σ.period (I.toInt (I.ofInt _)))) σ _
      rw [I.toInt_ofInt]
      exact .pure _
  | _ =>
    rw [hcomputation] at hvalue
    exact hvalue

/-- A machine that executes a statement stores the value of its computation into the slot of the point,
or fails as the computation does. -/
theorem stores_denoted {i : Nat} {array : DataArray} (hst : model.statements[i]? = some st)
    (harray : model.arrays[st.array]? = some array) (hconvert : ∀ v t, I.convert v t t = v)
    (huniform : st.computation.Uniform) {x : List Int} (hlength : x.length = st.dims) (hx : Numbers x)
    (σ : Machine V) (counter : V) : ∃ slot σ', σ.memory.slot model st.array x = .ok slot ∧
      (statement model I.executing i (counter :: x.map I.ofInt) σ.steady).from σ =
        ((denoteStatement I model σ.memory st array x).map fun _ => (), σ') ∧
      σ'.Agrees ((denoteStatement I model σ.memory st array x).toOption.elim σ fun v =>
        σ.store st.array slot (I.convert v st.computation.type array.type)) := by
  obtain ⟨slot, hslot⟩ : ∃ slot, σ.memory.slot model st.array x = .ok slot := by
    unfold Memory.slot
    rw [arrayAt, harray]
    split
    · exact ⟨_, rfl⟩
    · exact ⟨_, rfl⟩
  have hvalue : Ends (statementValue model I.executing ⟨st, x.map I.ofInt, σ.steady⟩ array) σ
      (denoteStatement I model σ.memory st array x) := ends_statementValue hconvert huniform hx array
  have hstatement : statement model I.executing i (counter :: x.map I.ofInt) σ.steady = (do
      let result ← statementValue model I.executing ⟨st, x.map I.ofInt, σ.steady⟩ array
      let offset ← bufferOffset model I.executing st.array (x.map I.ofInt)
      I.executing.store st.array offset (I.convert result st.computation.type array.type)
      if array.isOutput then
        let position ← streamOffset I.executing array (x.map I.ofInt) σ.steady
        I.executing.storeOutput position (← I.executing.load st.array offset)) := by
    unfold statement
    rw [hst]
    dsimp only
    rw [arrayAt, harray, pure_bind, if_neg (by simp [hlength])]
    rfl
  obtain ⟨extra, hvalue⟩ := hvalue
  rw [hstatement]
  cases hdenoted : denoteStatement I model σ.memory st array x with
  | error e =>
    rw [hdenoted] at hvalue
    exact ⟨slot, σ.grown extra, hslot, Running.from_bind_error hvalue, ⟨_, rfl⟩⟩
  | ok v =>
    rw [hdenoted] at hvalue
    have hoffset : Ends (bufferOffset model I.executing st.array (x.map I.ofInt)) (σ.grown extra)
        (I.ofInt <$> (σ.grown extra).memory.slot model st.array x) := ends_bufferOffset _ hx
    rw [Machine.memory_grown, hslot] at hoffset
    obtain ⟨more, hoffset⟩ := hoffset
    rw [Machine.grown_grown] at hoffset
    have hstore : (I.executing.store st.array (I.ofInt slot)
        (I.convert v st.computation.type array.type)).from (σ.grown (extra ++ more)) =
          (.ok (), (σ.grown (extra ++ more)).store st.array slot
            (I.convert v st.computation.type array.type)) := by
      change (Except.ok (), (σ.grown (extra ++ more)).store st.array (I.toInt (I.ofInt slot)) _) = _
      rw [I.toInt_ofInt]
    refine ⟨slot, (σ.grown (extra ++ more)).store st.array slot
      (I.convert v st.computation.type array.type), hslot, ?_, ⟨_, rfl⟩⟩
    rw [Running.from_bind hvalue, Running.from_bind hoffset, Running.from_bind hstore]
    -- Writing the output changes nothing in the buffers.
    split
    · exact Gives.bind (gives_position array hx σ.steady) (.bind (a := _) rfl rfl)
    · rfl

end

/-- Values that are words, of which sums are computed. -/
private def words : Interpretation Int where
  ofInt x := x
  toInt x := x
  toInt_ofInt _ := rfl
  zero _ := 0
  constant
    | .int x => x
    | _ => 0
  convert x _ _ := x
  primitive op _ _ operands :=
    match op, operands with
    | .add, [x, y] => .ok (Arithmetic.wrap (x + y))
    | _, _ => .error (.unsupported "words" "operation")
  truth x := x != 0
  input _ _ _ _ := 0

/-- Sums `k + i` for `k` from 1 to 3. -/
private def sumOf : Statement :=
  ⟨"a", ⟨"a", 1, 0, []⟩,
    .reduce .add .int 1 1 3 (.apply .add .int [.iterator (.ofDim 1), .iterator (.ofDim 0)]),
    0, ⟨"a", "a", 1, 1, 0, []⟩, some 0, none⟩

private def sums : Model where
  arrays := [⟨"a", .int, [none], none, false, ⟨2, 0, [0], [2], false⟩⟩]
  statements := [sumOf]

private def started : Machine Int := { buffers := fun _ _ => 0, period := 2, steady := true }

attribute [local instance] Arithmetic.word64

/-- After two periods the point 1 stands for 5, so that the sum is 21. -/
theorem stores_denoted_sums : ∃ σ',
    (statement sums words.executing 0 [0, 1] true).from started = (.ok (), σ') ∧
      σ'.Agrees (started.store 0 1 21) := by
  have hnumbers : Numbers [1] := fun x hx => by rw [List.mem_singleton.mp hx]; rfl
  have huniform : sumOf.computation.Uniform := ⟨rfl, rfl, rfl, trivial, trivial, trivial⟩
  have hst : sums.statements[0]? = some sumOf := rfl
  obtain ⟨slot, σ', hslot, hrun, hagrees⟩ := stores_denoted (I := words) hst rfl (fun _ _ => rfl) huniform rfl
    hnumbers started 0
  cases hslot
  exact ⟨σ', hrun, hagrees⟩

end StreamLoom.Lowering
