import StreamLoom.Lowering.Walk

/-!
# Disciplines of targets

Statements are lowered in the same way for every target, so what a target emits for them can be described
once: by what holds of the values which stand for indices, for elements and for variables, where each step of
the target yields such values of such values. A discipline consists of these descriptions, with a rule for
each step; what the lowering of a whole statement keeps to follows from them.

The values are described relative to a world, which can be anything that changes while code is emitted and
keeps what has been known before.
-/

namespace StreamLoom.Lowering

variable {m : Type → Type} [Monad m] [MonadExceptOf Failure m] {V : Type}

/-- How to tell what holds when a part of a lowering ends well. -/
structure Logic (m : Type → Type) [Monad m] [MonadExceptOf Failure m] where
  World : Type
  Later : World → World → Prop
  Holds {α : Type} : World → m α → (World → α → Prop) → Prop
  refl (w : World) : Later w w
  trans {w w' w'' : World} (h : Later w w') (h' : Later w' w'') : Later w w''
  pure {α : Type} {w : World} {x : α} {Q : World → α → Prop} (h : Q w x) : Holds w (pure x) Q
  throw {α : Type} {w : World} {Q : World → α → Prop} (e : Failure) : Holds w (throw e) Q
  bind {α β : Type} {w : World} {part : m α} {f : α → m β} {Q : World → α → Prop} {R : World → β → Prop}
    (h : Holds w part Q) (hf : ∀ w' x, Later w w' → Q w' x → Holds w' (f x) R) : Holds w (part >>= f) R
  imp {α : Type} {w : World} {part : m α} {Q Q' : World → α → Prop} (h : Holds w part Q)
    (himp : ∀ w' x, Q w' x → Q' w' x) : Holds w part Q'

/-- What holds of the values of a target, and a rule for each of its steps. -/
structure Discipline (model : Model) (t : Target m V) extends Logic m where
  Index : World → V → Prop
  Element : ValueType → World → V → Prop
  Cell : ValueType → World → V → Prop
  /-- The computations that are lowered. -/
  Fits : Computation → Prop
  index_later {w w' : World} {v : V} (h : Later w w') (hv : Index w v) : Index w' v
  element_later {w w' : World} {τ : ValueType} {v : V} (h : Later w w') (hv : Element τ w v) : Element τ w' v
  cell_later {w w' : World} {τ : ValueType} {v : V} (h : Later w w') (hv : Cell τ w v) : Cell τ w' v
  element_of_index {w : World} {v : V} (h : Index w v) : Element .int w v
  fits_operand {op : Op} {τ : ValueType} {operands : List Computation} (h : Fits (.apply op τ operands))
    {c : Computation} (hc : c ∈ operands) : Fits c
  fits_body {op : Op} {τ : ValueType} {dim : Nat} {lower upper : Int} {body : Computation}
    (h : Fits (.reduce op τ dim lower upper body)) : Fits body
  constant {w : World} (c : Constant) : Holds w (t.constant c) (Element c.type)
  convert {w : World} {v : V} {σ τ : ValueType} (hv : Element σ w v) : Holds w (t.convert v σ τ) (Element τ)
  index {w : World} (c : Int) : Holds w (t.index c) Index
  indexAdd {w : World} {u v : V} (hu : Index w u) (hv : Index w v) : Holds w (t.indexAdd u v) Index
  indexMul {w : World} {u v : V} (hu : Index w u) (hv : Index w v) : Holds w (t.indexMul u v) Index
  indexMod {w : World} {v : V} (hv : Index w v) (modulus : Int) : Holds w (t.indexMod v modulus) Index
  phase {w : World} (array : Nat) : Holds w (t.phase array) Index
  period {w : World} : Holds w t.period Index
  load {w : World} {number : Nat} {array : DataArray} (harray : model.arrays[number]? = some array) {offset : V}
    (h : Index w offset) : Holds w (t.load number offset) (Element array.type)
  read {w : World} {number : Nat} {τ : ValueType} {access : Access} (hfits : Fits (.read number τ access))
    {offset : V} (h : Index w offset) : Holds w (t.load number offset) (Element τ)
  store {w : World} {number : Nat} {array : DataArray}
    (harray : model.arrays[number]? = some array) {offset v : V}
    (h : Index w offset) (hv : Element array.type w v) : Holds w (t.store number offset v) fun _ _ => True
  loadInput {w : World} {number : Nat} {τ : ValueType} {access : Access} (hfits : Fits (.input number τ access))
    {offset : V} (h : Index w offset) : Holds w (t.loadInput number offset) (Element τ)
  storeOutput {w : World} {τ : ValueType} {offset v : V} (h : Index w offset) (hv : Element τ w v) :
    Holds w (t.storeOutput offset v) fun _ _ => True
  primitive {w : World} {op : Op} {τ : ValueType} {operands : List Computation}
    (hfits : Fits (.apply op τ operands)) {vs : List V} (hlength : vs.length = operands.length)
    (hvs : ∀ v ∈ vs, Element (op.operandType (operands.map (·.type))) w v) :
    Holds w (t.primitive op (op.operandType (operands.map (·.type))) τ vs) (Element τ)
  fold {w : World} {op : Op} {τ : ValueType} {dim : Nat} {lower upper : Int} {body : Computation}
    (hfits : Fits (.reduce op τ dim lower upper body)) {u v : V} (hu : Element τ w u) (hv : Element τ w v) :
    Holds w (t.primitive op τ τ [u, v]) (Element τ)
  temporary {w : World} (τ : ValueType) : Holds w (t.temporary τ) (Cell τ)
  assign {w : World} {τ : ValueType} {cell v : V} (hcell : Cell τ w cell) (hv : Element τ w v) :
    Holds w (t.assign cell v) fun _ _ => True
  use {w : World} {τ : ValueType} {cell : V} (hcell : Cell τ w cell) : Holds w (t.use cell) (Element τ)
  branch {w : World} {τ : ValueType} {condition : V} (hcondition : Element τ w condition) {first second : m Unit}
    (hfirst : ∀ w', Later w w' → Holds w' first fun _ _ => True)
    (hsecond : ∀ w', Later w w' → Holds w' second fun _ _ => True) :
    Holds w (t.branch condition first second) fun _ _ => True
  loop {w : World} {lower upper : Int} {body : V → m Unit}
    (hbody : ∀ w' v, Later w w' → Index w' v → Holds w' (body v) fun _ _ => True) :
    Holds w (t.loop lower upper body) fun _ _ => True
  note {w : World} (text : String) : Holds w (t.note text) fun _ _ => True

namespace Discipline

variable {model : Model} {t : Target m V} (D : Discipline model t) {w w' : D.World}

def Indices (w : D.World) (index : List V) : Prop := ∀ v ∈ index, D.Index w v

theorem indices_later {index : List V} (h : D.Later w w') (hindex : D.Indices w index) : D.Indices w' index :=
  fun v hv => D.index_later h (hindex v hv)

theorem holds_ite {α : Type} {c : Prop} [Decidable c] {first second : m α} {Q : D.World → α → Prop}
    (hfirst : c → D.Holds w first Q) (hsecond : ¬ c → D.Holds w second Q) :
    D.Holds w (if c then first else second) Q := by
  split
  · rename_i h
    exact hfirst h
  · rename_i h
    exact hsecond h

/-! ### Indices -/

theorem holds_mapM [LawfulMonad m] {α : Type} {P : D.World → V → Prop} {f : α → m V} {xs : List α}
    (hP : ∀ {w w' v}, D.Later w w' → P w v → P w' v)
    (hf : ∀ w' x, D.Later w w' → x ∈ xs → D.Holds w' (f x) P) :
    D.Holds w (xs.mapM f) fun w' vs => ∀ v ∈ vs, P w' v := by
  induction xs generalizing w with
  | nil =>
    rw [List.mapM_nil]
    exact D.pure fun v hv => absurd hv List.not_mem_nil
  | cons x xs ih =>
    rw [List.mapM_cons]
    refine D.bind (hf w x (D.refl w) List.mem_cons_self) fun w₁ v hlater hv => ?_
    have hrest : D.Holds w₁ (xs.mapM f) fun w' vs => ∀ v ∈ vs, P w' v := by
      apply ih
      intro w' y hlater' hy
      exact hf w' y (D.trans hlater hlater') (List.mem_cons_of_mem _ hy)
    refine D.bind hrest fun w₂ vs hlater' hvs => ?_
    exact D.pure (List.forall_mem_cons.mpr ⟨hP hlater' hv, hvs⟩)

/-- A multiple of an index, which needs no product when it is the index itself. -/
private theorem holds_multiple {β : Type} {v : V} (hv : D.Index w v) (c : Int) {f : V → m β}
    {Q : D.World → β → Prop} (hf : ∀ w' x, D.Later w w' → D.Index w' x → D.Holds w' (f x) Q) :
    D.Holds w (if c = 1 then pure v >>= f else t.index c >>= fun k => t.indexMul v k >>= f) Q := by
  split
  · exact D.bind (D.pure hv) hf
  · refine D.bind (D.index c) fun w₁ k hlater₁ hk => ?_
    refine D.bind (D.indexMul (D.index_later hlater₁ hv) hk) fun w₂ x hlater₂ hx => ?_
    exact hf w₂ x (D.trans hlater₁ hlater₂) hx

theorem holds_addTerm {sum : Option V} (hsum : ∀ s, sum = some s → D.Index w s) {v : V} (hv : D.Index w v)
    (c : Int) : D.Holds w (addTerm t sum v c) fun w' sum' => ∀ s, sum' = some s → D.Index w' s := by
  unfold addTerm
  split
  · exact D.pure hsum
  · cases sum with
    | none =>
      refine D.holds_multiple hv c fun w' x _ hx => D.pure fun s hs => ?_
      exact Option.some.inj hs ▸ hx
    | some s =>
      refine D.holds_multiple hv c fun w' x hlater hx => ?_
      refine D.bind (D.indexAdd (D.index_later hlater (hsum s rfl)) hx) fun w'' total _ htotal => ?_
      exact D.pure fun s' hs' => Option.some.inj hs' ▸ htotal

private theorem holds_terms {terms : List (V × Int)} (hterms : ∀ term ∈ terms, D.Index w term.1) {sum : Option V}
    (hsum : ∀ s, sum = some s → D.Index w s) :
    D.Holds w (terms.foldlM (fun sum (v, k) => addTerm t sum v k) sum) fun w' sum' =>
      ∀ s, sum' = some s → D.Index w' s := by
  induction terms generalizing w sum with
  | nil => exact D.pure hsum
  | cons term terms ih =>
    obtain ⟨hterm, hrest⟩ := List.forall_mem_cons.mp hterms
    rw [List.foldlM_cons]
    refine D.bind (D.holds_addTerm hsum hterm term.2) fun w' sum' hlater hsum' => ?_
    exact ih (fun term' hmem => D.index_later hlater (hrest term' hmem)) hsum'

theorem holds_affine {values : List V} (hvalues : D.Indices w values) (c : Int) (coeffs : List Int) :
    D.Holds w (affine t c values coeffs) D.Index := by
  unfold affine
  have hterms : ∀ term ∈ values.zip coeffs, D.Index w term.1 :=
    fun term hterm => hvalues term.1 (List.of_mem_zip hterm).1
  refine D.bind (D.holds_terms hterms fun s hs => nomatch hs) fun w' sum _ hsum => ?_
  cases sum with
  | none => exact D.index c
  | some s =>
    dsimp only
    split
    · exact D.pure (hsum s rfl)
    · refine D.bind (D.index c) fun w'' k hlater hk => ?_
      exact D.indexAdd (D.index_later hlater (hsum s rfl)) hk

theorem holds_mapped [LawfulMonad m] {env : List V} (henv : D.Indices w env) (pattern : List Affine) :
    D.Holds w (mapped t env pattern) D.Indices :=
  D.holds_mapM D.index_later fun _ a hlater _ => D.holds_affine (D.indices_later hlater henv) a.const a.coeffs

theorem holds_arrayAt (number : Nat) :
    D.Holds w (arrayAt model number) fun _ array => model.arrays[number]? = some array := by
  unfold arrayAt
  split
  · rename_i array harray
    exact D.pure harray
  · exact D.throw _

section

variable [Arithmetic]

theorem holds_bufferOffset (number : Nat) {index : List V} (hindex : D.Indices w index) :
    D.Holds w (bufferOffset model t number index) D.Index := by
  unfold bufferOffset
  split
  · exact D.index 0
  · refine D.bind (D.holds_arrayAt number) fun w₁ array hlater₁ _ => ?_
    refine D.bind (D.holds_affine (D.indices_later hlater₁ hindex) 0 _) fun w₂ flat hlater₂ hflat => ?_
    split
    · refine D.bind (D.phase number) fun w₃ phase hlater₃ hphase => ?_
      refine D.holds_multiple hphase _ fun w₄ turned hlater₄ hturned => ?_
      have hflat₄ := D.index_later hlater₄ (D.index_later hlater₃ hflat)
      refine D.bind (D.indexAdd hflat₄ hturned) fun w₅ sum _ hsum => ?_
      exact D.indexMod hsum _
    · exact D.indexMod hflat _

theorem holds_streamOffset (array : DataArray) {index : List V} (hindex : D.Indices w index) (steady : Bool) :
    D.Holds w (streamOffset t array index steady) D.Index := D.holds_affine hindex _ _

end

/-! ### Computations -/

variable {s : Scope V}

theorem holds_iterator (henv : D.Indices w s.env) (v : IteratorValue) :
    D.Holds w (iterator model t s v) (D.Element .int) := by
  unfold iterator
  split
  · exact D.throw _
  · rename_i here hhere
    have hindex : D.Index w here := henv here (List.mem_of_getElem? hhere)
    split
    · refine D.bind (D.holds_arrayAt _) fun w₁ array hlater₁ _ => ?_
      refine D.bind D.period fun w₂ period hlater₂ hperiod => ?_
      refine D.bind (D.index _) fun w₃ k hlater₃ hk => ?_
      refine D.bind (D.indexMul (D.index_later hlater₃ hperiod) hk) fun w₄ shift hlater₄ hshift => ?_
      have hindex₄ := D.index_later (D.trans hlater₁ (D.trans hlater₂ (D.trans hlater₃ hlater₄))) hindex
      refine D.bind (D.indexAdd hindex₄ hshift) fun w₅ moved _ hmoved => ?_
      exact D.imp (D.holds_affine (List.forall_mem_singleton.mpr hmoved) _ _) fun _ _ => D.element_of_index
    · exact D.imp (D.holds_affine (List.forall_mem_singleton.mpr hindex) _ _) fun _ _ => D.element_of_index

theorem holds_input [Arithmetic] [LawfulMonad m] (henv : D.Indices w s.env) {number : Nat} {τ : ValueType}
    {access : Access} (hfits : D.Fits (.input number τ access)) :
    D.Holds w (input model t s number access.pattern) (D.Element τ) := by
  unfold input
  refine D.bind (D.holds_mapped henv access.pattern) fun w₁ index _ hindex => ?_
  split
  · exact D.throw _
  · refine D.bind (D.holds_affine hindex _ _) fun w₂ offset _ hoffset => ?_
    exact D.loadInput hfits hoffset

theorem indices_bind (henv : D.Indices w s.env) {v : V} (hv : D.Index w v) : D.Indices w (s.bind v).env := by
  intro u hu
  cases List.mem_append.mp hu with
  | inl hold => exact henv u hold
  | inr hnew => exact List.mem_singleton.mp hnew ▸ hv

section

variable [Arithmetic]

/-- The value of a computation is an element of its type. -/
def Lowers (c : Computation) : Prop :=
  ∀ (w : D.World) (s : Scope V), D.Indices w s.env → D.Holds w (value model t s c) (D.Element c.type)

theorem holds_operandValues (henv : D.Indices w s.env) (common : ValueType) {cs : List Computation}
    (h : ∀ c ∈ cs, D.Lowers c) :
    D.Holds w (operandValues model t s common cs) fun w' vs =>
      vs.length = cs.length ∧ ∀ v ∈ vs, D.Element common w' v := by
  induction cs generalizing w with
  | nil =>
    rw [operandValues]
    exact D.pure ⟨rfl, fun v hv => absurd hv List.not_mem_nil⟩
  | cons c cs ih =>
    obtain ⟨hc, hcs⟩ := List.forall_mem_cons.mp h
    rw [operandValues]
    refine D.bind (hc w s henv) fun w₁ v hlater₁ hv => ?_
    refine D.bind (D.convert hv) fun w₂ u hlater₂ hu => ?_
    have henv₂ := D.indices_later (D.trans hlater₁ hlater₂) henv
    refine D.bind (ih henv₂ hcs) fun w₃ vs hlater₃ hvs => ?_
    refine D.pure ⟨congrArg (· + 1) hvs.1, ?_⟩
    exact List.forall_mem_cons.mpr ⟨D.element_later hlater₃ hu, hvs.2⟩

/-- The arm of a conditional is assigned to the variable of its result. -/
private theorem holds_arm (henv : D.Indices w s.env) {arm : Computation} (harm : D.Lowers arm) {result : V}
    {common τ : ValueType} (hresult : D.Cell τ w result) :
    D.Holds w (do
      let v ← t.convert (← value model t s arm) arm.type common
      t.assign result (← t.convert v common τ)) fun _ _ => True := by
  refine D.bind (harm w s henv) fun w₁ x hlater₁ hx => ?_
  refine D.bind (D.convert hx) fun w₂ y hlater₂ hy => ?_
  refine D.bind (D.convert hy) fun w₃ z hlater₃ hz => ?_
  exact D.assign (D.cell_later (D.trans hlater₁ (D.trans hlater₂ hlater₃)) hresult) hz

private theorem lowers_apply {op : Op} {τ : ValueType} {operands : List Computation}
    (hfits : D.Fits (.apply op τ operands)) (h : ∀ c ∈ operands, D.Lowers c) :
    D.Lowers (.apply op τ operands) := by
  intro w s henv
  by_cases hconditional : ∃ condition first second, op = .conditional ∧ operands = [condition, first, second]
  · obtain ⟨condition, first, second, rfl, rfl⟩ := hconditional
    rw [value]
    refine D.bind (D.temporary τ) fun w₁ result hlater₁ hresult => ?_
    have henv₁ := D.indices_later hlater₁ henv
    refine D.bind (h condition (by simp) w₁ s henv₁) fun w₂ chosen hlater₂ hchosen => ?_
    have henv₂ := D.indices_later hlater₂ henv₁
    have hresult₂ := D.cell_later hlater₂ hresult
    have harm : ∀ arm ∈ [condition, first, second], ∀ w' common, D.Later w₂ w' → D.Holds w' (do
        let v ← t.convert (← value model t s arm) arm.type common
        t.assign result (← t.convert v common τ)) fun _ _ => True := by
      intro arm harm w' common hlater
      exact D.holds_arm (D.indices_later hlater henv₂) (h arm harm) (D.cell_later hlater hresult₂)
    refine D.bind (D.branch hchosen ?_ ?_) fun w₃ _ hlater₃ _ => D.use (D.cell_later hlater₃ hresult₂)
    · exact fun w' => harm first (by simp) w' _
    · exact fun w' => harm second (by simp) w' _
  · rw [value]
    · refine D.bind (D.holds_operandValues henv _ h) fun w₁ vs _ hvs => ?_
      exact D.primitive hfits hvs.1 hvs.2
    · intro condition first second hop hoperands
      exact hconditional ⟨condition, first, second, hop, hoperands⟩

private theorem lowers_reduce {op : Op} {τ : ValueType} {dim : Nat} {lower upper : Int} {body : Computation}
    (hfits : D.Fits (.reduce op τ dim lower upper body)) (hbody : D.Lowers body) :
    D.Lowers (.reduce op τ dim lower upper body) := by
  intro w s henv
  rw [value]
  refine D.bind (D.temporary τ) fun w₁ result hlater₁ hresult => ?_
  refine D.bind (D.index lower) fun w₂ start hlater₂ hstart => ?_
  have henv₂ := D.indices_later (D.trans hlater₁ hlater₂) henv
  refine D.bind (hbody w₂ (s.bind start) (D.indices_bind henv₂ hstart)) fun w₃ first hlater₃ hfirst => ?_
  refine D.bind (D.convert hfirst) fun w₄ converted hlater₄ hconverted => ?_
  have henv₄ := D.indices_later (D.trans hlater₃ hlater₄) henv₂
  have hresult₄ := D.cell_later (D.trans hlater₂ (D.trans hlater₃ hlater₄)) hresult
  refine D.bind (D.assign hresult₄ hconverted) fun w₅ _ hlater₅ _ => ?_
  have henv₅ := D.indices_later hlater₅ henv₄
  have hresult₅ := D.cell_later hlater₅ hresult₄
  split
  · refine D.bind (D.loop fun w' r hlater hr => ?_) fun w₆ _ hlater₆ _ => D.use (D.cell_later hlater₆ hresult₅)
    have henv' := D.indices_later hlater henv₅
    refine D.bind (hbody w' (s.bind r) (D.indices_bind henv' hr)) fun w₁' x hlater₁' hx => ?_
    refine D.bind (D.convert hx) fun w₂' next hlater₂' hnext => ?_
    have hresult' := D.cell_later (D.trans hlater (D.trans hlater₁' hlater₂')) hresult₅
    refine D.bind (D.use hresult') fun w₃' sum hlater₃' hsum => ?_
    refine D.bind (D.fold hfits hsum (D.element_later hlater₃' hnext)) fun w₄' v hlater₄' hv => ?_
    exact D.assign (D.cell_later (D.trans hlater₃' hlater₄') hresult') hv
  · exact D.use hresult₅

variable [LawfulMonad m]

theorem lowers : (c : Computation) → D.Fits c → D.Lowers c
  | .constant c, _ => by
    intro w s _
    rw [value]
    exact D.constant c
  | .iterator v, _ => by
    intro w s henv
    rw [value]
    exact D.holds_iterator henv v
  | .input number τ access, hfits => by
    intro w s henv
    rw [value]
    exact D.holds_input henv hfits
  | .read number τ access, hfits => by
    intro w s henv
    rw [value]
    refine D.bind (D.holds_mapped henv access.pattern) fun w₁ index _ hindex => ?_
    refine D.bind (D.holds_bufferOffset number hindex) fun w₂ offset _ hoffset => ?_
    exact D.read hfits hoffset
  | .apply _ _ _, hfits => D.lowers_apply hfits fun c hc => lowers c (D.fits_operand hfits hc)
  | .reduce _ _ _ _ _ body, hfits => D.lowers_reduce hfits (lowers body (D.fits_body hfits))

/-! ### Statements -/

theorem holds_statementValue (henv : D.Indices w s.env) (hfits : D.Fits s.statement.computation)
    (array : DataArray) :
    D.Holds w (statementValue model t s array) (D.Element s.statement.computation.type) := by
  unfold statementValue
  split
  · rename_i number τ access hcomputation _
    rw [hcomputation] at hfits ⊢
    refine D.bind (D.holds_streamOffset array henv s.steady) fun w₁ offset _ hoffset => ?_
    exact D.loadInput hfits hoffset
  · exact D.lowers _ hfits w s henv

/-- A statement is lowered in keeping with the discipline, for any index. -/
theorem holds_statement (hfits : ∀ st ∈ model.statements, D.Fits st.computation) (number : Nat)
    {index : List V} (hindex : D.Indices w index) (steady : Bool) :
    D.Holds w (statement model t number index steady) fun _ _ => True := by
  unfold statement
  split
  · exact D.throw _
  · rename_i st hst
    have hst : D.Fits st.computation := hfits st (List.mem_of_getElem? hst)
    refine D.bind (D.holds_arrayAt st.array) fun w₁ array hlater₁ harray => ?_
    refine D.holds_ite (fun _ => ?_) fun _ => ?_
    · exact D.bind (D.throw (Q := fun _ _ => False) _) fun _ _ _ hfalse => hfalse.elim
    have henv : D.Indices w₁ index.tail := fun v hv => D.index_later hlater₁ (hindex v (List.mem_of_mem_tail hv))
    refine D.bind (D.note _) fun w₂ _ hlater₂ _ => ?_
    have henv₂ := D.indices_later hlater₂ henv
    refine D.bind (D.holds_statementValue (s := ⟨st, index.tail, steady⟩) henv₂ hst array)
      fun w₃ result hlater₃ hresult => ?_
    refine D.bind (D.convert hresult) fun w₄ element hlater₄ helement => ?_
    have henv₄ := D.indices_later (D.trans hlater₃ hlater₄) henv₂
    refine D.bind (D.holds_bufferOffset st.array henv₄) fun w₅ offset hlater₅ hoffset => ?_
    have henv₅ := D.indices_later hlater₅ henv₄
    refine D.bind (D.store harray hoffset (D.element_later hlater₅ helement)) fun w₆ _ hlater₆ _ => ?_
    refine D.holds_ite (fun _ => ?_) fun _ => D.pure trivial
    have henv₆ := D.indices_later hlater₆ henv₅
    refine D.bind (D.holds_streamOffset array henv₆ steady) fun w₇ position hlater₇ hposition => ?_
    have hoffset₇ := D.index_later (D.trans hlater₆ hlater₇) hoffset
    refine D.bind (D.load harray hoffset₇) fun w₈ v hlater₈ hv => ?_
    exact D.storeOutput (D.index_later hlater₈ hposition) hv

end

end Discipline

end StreamLoom.Lowering
