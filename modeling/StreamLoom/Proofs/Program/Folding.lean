import StreamLoom.Proofs.Model.Pattern

/-!
# Folding

Some affine arithmetic on index variables is folded while a term is read, and what is left of it becomes an
affine form when a model is built. Neither makes a difference to the integers that come out, on words that
wrap around: what a term means is defined here without any folding, operation by operation.

What is not arithmetic on integers is left open, since indices do not depend on it.
-/

namespace StreamLoom

open StreamLoom.Arithmetic

namespace Expr

inductive Value (W : Type) where
  | int (n : Int)
  /-- A truth value or a real. -/
  | other (w : W)
deriving DecidableEq, Repr

/-- The integers that some values are, if all of them are. -/
def Value.integers? {W : Type} : List (Value W) → Option (List Int)
  | [] => some []
  | .int n :: rest => (integers? rest).map (n :: ·)
  | .other _ :: _ => none

/-- What everything has for a value that is not arithmetic on integers. -/
structure Setting (W : Type) where
  constant : Constant → W
  element : Nat → List (Value W) → Value W
  input : Nat → List (Value W) → Value W
  apply : Op → List (Value W) → Value W
  reduce : Op → Int → Int → (Int → Value W) → Value W

variable [Arithmetic] {W : Type} (σ : Setting W)

def Setting.applied (op : Op) (values : List (Value W)) : Value W :=
  match (Value.integers? values).bind op.onIntegers with
  | some n => .int (fit n)
  | none => σ.apply op values

/-- The value of a binary operation on two values or more, from left to right. -/
def Setting.chained (op : Op) : List (Value W) → Value W
  | [] => σ.applied op []
  | v :: rest => rest.foldl (fun v w => σ.applied op [v, w]) v

mutual

/-- The value of an expression where the variables have the given values. -/
def value : Expr → (Nat → Int) → Value W
  | constant _ (.int n), _ => .int (fit n)
  | constant _ c, _ => .other (σ.constant c)
  | iterator _ v, x => .int (fit (v.ratio * x v.dim + v.offset))
  | element _ target indices, x => σ.element target (values indices x)
  | input _ i indices, x => σ.input i (values indices x)
  | apply _ op operands, x => σ.applied op (values operands x)
  | reduce _ op dim lower upper body, x =>
    σ.reduce op lower upper fun k => body.value (Function.update x dim k)

def values : List Expr → (Nat → Int) → List (Value W)
  | [], _ => []
  | e :: rest, x => e.value x :: values rest x

end

end Expr

namespace Program

open StreamLoom.Expr (Value Setting)

variable [Arithmetic] {W : Type} (p : Program) (σ : Setting W)

/-- The value of what the program declares under some name. -/
def declared? (name : String) : Option (List (Value W) → Value W) :=
  match p.identifier? name, p.input? name with
  | some target, _ => some (σ.element target)
  | none, some i => some (σ.input i)
  | none, none => none

def symbolMeaning? (scope : Scope) (word : String) : Option ((Nat → Int) → Value W) :=
  match scope.find? word with
  | some dim => some fun x => .int (fit (x dim))
  | none =>
    if word = "true" ∨ word = "false" then some fun _ => .other (σ.constant (.bool (word == "true")))
    else match Numeral.integer? word, Numeral.real? word with
      | some n, _ => some fun _ => .int (fit n)
      | none, some r => some fun _ => .other (σ.constant (.real r))
      | none, none => (p.declared? σ word).map fun f _ => f []

/-- What a term with some head and number of operands does to the values of its operands. -/
def operation? (head : String) (count : Nat) : Option (List (Value W) → Value W) :=
  (p.declared? σ head).or <|
    if head = "-" ∧ count = 1 then some (σ.applied .negate)
    else do
      let op ← Op.find? head
      if op.arity = 2 ∧ !op.isComparison ∧ 2 < count then some (σ.chained op)
      else if op.arity = count then some (σ.applied op)
      else none

mutual

/-- The value of a term, by what is written in it. -/
def meaning? (file : SourceFile) (scope : Scope) : Term → Option ((Nat → Int) → Value W)
  | .symbol _ word => p.symbolMeaning? σ scope word
  | .group _ .square _ => none
  | .group span .round (.symbol _ head :: args) =>
    if head = "reduce" then
      match args with
      | [opTerm, rangeTerm, body] => do
        let r ← (reductionHead file ⟨file, span⟩ opTerm rangeTerm).toOption
        let f ← meaning? file (scope.bind r.var) body
        return fun x => σ.reduce r.op r.lower r.upper fun k => f (Function.update x scope.dims k)
      | _ => none
    else do
      let f ← p.operation? σ head args.length
      let operands ← meanings? file scope args
      return fun x => f (operands x)
  | .group _ .round _ => none

def meanings? (file : SourceFile) (scope : Scope) : List Term → Option ((Nat → Int) → List (Value W))
  | [] => some fun _ => []
  | t :: rest => do
    let f ← meaning? file scope t
    let fs ← meanings? file scope rest
    return fun x => f x :: fs x

end

end Program

namespace Expr

variable [Arithmetic] {W : Type} {σ : Setting W} {x : Nat → Int}

theorem value_located (origin : Origin) (e : Expr) : (e.located origin).value σ x = e.value σ x := by
  cases e with
  | constant _ c => cases c <;> rfl
  | _ => rfl

private theorem value_chain (op : Op) (rest : List Expr) (e : Expr) :
    (rest.foldl (fun e arg => apply none op [e, arg]) e).value σ x =
      (values σ rest x).foldl (fun v w => σ.applied op [v, w]) (e.value σ x) := by
  induction rest generalizing e with
  | nil => rfl
  | cons arg rest ih =>
    rw [List.foldl_cons, ih]
    rfl

theorem value_chained (origin : Origin) (op : Op) (a b : Expr) (rest : List Expr) :
    (chained origin op a b rest).value σ x = σ.chained op (values σ (a :: b :: rest) x) := by
  rw [chained, value_located, value_chain]
  rfl

/-! ### Folding -/

omit [Arithmetic] in
private theorem iteratorAndInt_eq_some {a b : Expr} {v : IteratorValue} {c : Int}
    (h : iteratorAndInt a b = some (v, c)) :
    ∃ o o', a = iterator o v ∧ b = constant o' (.int c) := by
  unfold iteratorAndInt at h
  split at h
  · obtain ⟨rfl, rfl⟩ := Prod.mk.inj (Option.some.inj h)
    exact ⟨_, _, rfl, rfl⟩
  · cases h

/-- What is folded into an index variable has the value of the operation. -/
theorem value_folded [Modular] {op : Op} {operands : List Expr} {v : IteratorValue}
    (h : folded op operands = some v) :
    σ.applied op (values σ operands x) = .int (fit (v.ratio * x v.dim + v.offset)) := by
  unfold folded at h
  split at h
  · obtain rfl := Option.some.inj h
    change Value.int (fit (-fit _)) = _
    rw [fit_neg, fit_mul_add, fit_add_right]
    congr 2
    ring
  · obtain ⟨⟨w, c⟩, hpair, heq⟩ := Option.bind_eq_some_iff.mp h
    obtain rfl := Option.some.inj heq
    rcases Option.or_eq_some_iff.mp hpair with hab | ⟨-, hba⟩
    · obtain ⟨_, _, rfl, rfl⟩ := iteratorAndInt_eq_some hab
      change Value.int (fit (fit _ + fit c)) = _
      rw [fit_add, fit_add_right, fit_add_right, add_assoc]
    · obtain ⟨_, _, rfl, rfl⟩ := iteratorAndInt_eq_some hba
      change Value.int (fit (fit c + fit _)) = _
      rw [fit_add, fit_add_right, fit_add_right, add_comm, add_assoc]
  · obtain ⟨⟨w, c⟩, hpair, heq⟩ := Option.bind_eq_some_iff.mp h
    obtain rfl := Option.some.inj heq
    obtain ⟨_, _, rfl, rfl⟩ := iteratorAndInt_eq_some hpair
    change Value.int (fit (fit _ - fit c)) = _
    rw [fit_sub, fit_sub_right, fit_add_right, add_sub_assoc]
  · obtain ⟨⟨w, c⟩, hpair, heq⟩ := Option.bind_eq_some_iff.mp h
    obtain rfl := Option.some.inj heq
    have hproduct : fit (fit (w.ratio * c) * x w.dim + fit (w.offset * c)) =
        fit ((w.ratio * x w.dim + w.offset) * c) := by
      rw [fit_mul_add, fit_add_right]
      congr 1
      ring
    rcases Option.or_eq_some_iff.mp hpair with hab | ⟨-, hba⟩
    · obtain ⟨_, _, rfl, rfl⟩ := iteratorAndInt_eq_some hab
      change Value.int (fit (fit _ * fit c)) = _
      rw [fit_mul, fit_mul_right, hproduct]
    · obtain ⟨_, _, rfl, rfl⟩ := iteratorAndInt_eq_some hba
      change Value.int (fit (fit c * fit _)) = _
      rw [fit_mul, fit_mul_right, hproduct, mul_comm]
  · cases h

theorem value_applied [Modular] (origin : Origin) (op : Op) (operands : List Expr) :
    (applied origin op operands).value σ x = σ.applied op (values σ operands x) := by
  unfold applied
  split
  · rename_i v hfolded
    rw [value_folded hfolded]
    rfl
  · rfl

/-! ### Affine forms -/

omit [Arithmetic] in
private theorem integers?_map_int (ns : List Int) :
    Value.integers? (ns.map (Value.int : Int → Value W)) = some ns := by
  induction ns with
  | nil => rfl
  | cons n ns ih => rw [List.map_cons, Value.integers?, ih, Option.map_some]

private theorem values_of_forall₂ {es : List Expr} {as : List Affine}
    (h : List.Forall₂ (fun e a => e.value σ x = .int (fit (a.valueAt x))) es as) :
    values σ es x = (as.map fun a => fit (a.valueAt x)).map .int := by
  induction h with
  | nil => rfl
  | cons he _ ih => rw [values, he, ih, List.map_cons, List.map_cons]

theorem value_of_affine? [Modular] {n : Nat} (e : Expr) {a : Affine} (h : e.affine? n = some a) :
    e.value σ x = .int (fit (a.valueAt x)) := by
  refine affine?_induction (P := fun e a => e.value σ x = .int (fit (a.valueAt x))) ?_ ?_ ?_ e h
  · intro _ value
    simp [Expr.value]
  · intro _ v hlt
    rw [Expr.value, Affine.fit_valueAt_plus, ← fit_add (Affine.valueAt ..), Affine.fit_valueAt_scale,
      fit_add, Affine.valueAt_var hlt]
  · intro _ op operands as a has hvalues hcombine
    have hvalue := onIntegers_of_combine (vars_affines? has) hcombine x
    obtain ⟨m, hm, hkept⟩ := Option.map_eq_some_iff.mp hvalue
    rw [Expr.value, values_of_forall₂ hvalues, Setting.applied, integers?_map_int, Option.bind_some, hm,
      ← hkept]

theorem values_of_affines? [Modular] {n : Nat} {es : List Expr} {as : List Affine}
    (h : affines? n es = some as) : values σ es x = (as.map fun a => fit (a.valueAt x)).map .int :=
  values_of_forall₂ ((forall₂_of_affines? h).imp fun e _ he => value_of_affine? e he)

end Expr

namespace Program

open StreamLoom.Expr (Value Setting)

variable [Arithmetic] {W : Type} {p : Program} {σ : Setting W} {file : SourceFile}

/-! ### Terms -/

theorem reference?_keeps (origin : Origin) (name : String) (operands : List Expr) :
    (p.reference? origin name operands).map (·.value σ) =
      (p.declared? σ name).map fun f x => f (Expr.values σ operands x) := by
  unfold reference? declared?
  cases p.identifier? name with
  | some target => rfl
  | none => cases p.input? name <;> rfl

theorem symbolExpr_keeps (scope : Scope) (origin : Origin) (word : String) :
    (p.symbolExpr scope origin word).toOption.map (·.value σ) = p.symbolMeaning? σ scope word := by
  unfold symbolExpr symbolMeaning?
  cases scope.find? word with
  | some dim => simp [Except.toOption, Expr.value, IteratorValue.ofDim]
  | none =>
    dsimp only
    split
    · rfl
    · cases Numeral.integer? word with
      | some n => rfl
      | none =>
        cases Numeral.real? word with
        | some r => rfl
        | none =>
          refine Eq.trans ?_ (reference?_keeps origin word [])
          cases p.reference? origin word [] <;> rfl

/-- An operation with as many operands as it takes. -/
private theorem saturated_eq [Modular] (origin : Origin) (op : Op) (operands : List Expr) (e : SyntaxError) :
    (if op.arity ≠ operands.length then .error e
      else .ok (.applied origin op operands) : Except SyntaxError Expr).toOption.map (·.value σ) =
      (if op.arity = operands.length then some (σ.applied op) else none).map
        fun f x => f (Expr.values σ operands x) := by
  by_cases harity : op.arity = operands.length
  · rw [if_neg (not_not.mpr harity), if_pos harity]
    exact congrArg some (funext fun x => Expr.value_applied origin op operands)
  · rw [if_pos harity, if_neg harity]
    rfl

theorem applicationExpr_keeps [Modular] (origin headOrigin : Origin) (head : String) (operands : List Expr) :
    (p.applicationExpr origin headOrigin head operands).toOption.map (·.value σ) =
      (p.operation? σ head operands.length).map fun f x => f (Expr.values σ operands x) := by
  have hdeclared := reference?_keeps (p := p) (σ := σ) origin head operands
  unfold operation? applicationExpr
  cases hreference : p.reference? origin head operands with
  | some e =>
    obtain ⟨f, hf, hvalue⟩ := Option.map_eq_some_iff.mp (hdeclared.symm.trans (congrArg _ hreference))
    rw [hf, Option.some_or, Option.map_some, hvalue]
    rfl
  | none =>
    rw [hreference, Option.map_none, eq_comm, Option.map_eq_none_iff] at hdeclared
    rw [hdeclared, Option.none_or]
    dsimp only
    by_cases hminus : head = "-" ∧ operands.length = 1
    · rw [if_pos hminus, if_pos hminus]
      exact congrArg some (funext fun x => Expr.value_applied origin .negate operands)
    rw [if_neg hminus, if_neg hminus]
    cases Op.find? head with
    | none => rfl
    | some op =>
      rw [Option.bind_eq_bind, Option.bind_some]
      split
      · cases ‹some op = none›
      · rename_i a b c rest hop
        cases hop
        -- More than two operands are never folded, only applied from left to right.
        by_cases hchain : op.arity = 2 ∧ !op.isComparison
        · rw [if_pos hchain, if_pos ⟨hchain.1, hchain.2, by simp⟩]
          exact congrArg some (funext fun x => Expr.value_chained origin op a b (c :: rest))
        · have hunchained : ¬(op.arity = 2 ∧ !op.isComparison ∧ 2 < (a :: b :: c :: rest).length) :=
            fun h => hchain ⟨h.1, h.2.1⟩
          rw [if_neg hchain, if_neg hunchained]
          exact saturated_eq origin op _ _
      · rename_i operands _ _ _ hop hshort
        cases hop
        have hcount : ¬2 < operands.length := by
          rcases operands with _ | ⟨a, _ | ⟨b, _ | ⟨c, rest⟩⟩⟩
          case cons.cons.cons => exact absurd rfl (hshort a b c rest)
          all_goals simp
        have hunchained : ¬(op.arity = 2 ∧ !op.isComparison ∧ 2 < operands.length) := fun h => hcount h.2.2
        rw [if_neg hunchained]
        exact saturated_eq origin op operands _

theorem length_of_resolveAll {scope : Scope} {ts : List Term} {operands : List Expr}
    (h : p.resolveAll file scope ts = .ok operands) : operands.length = ts.length := by
  induction ts generalizing operands with
  | nil =>
    cases h
    rfl
  | cons t rest ih =>
    rw [resolveAll] at h
    obtain ⟨e, -, hrest⟩ := Outcome.bind_eq_ok h
    obtain ⟨es, hes, hpure⟩ := Outcome.bind_eq_ok hrest
    cases hpure
    rw [List.length_cons, List.length_cons, ih hes]

/-- A term is read as an expression with the value of the term, or is not read at all if it has none. -/
theorem resolve_keeps [Modular] : (∀ scope (t : Term),
      (p.resolve file scope t).toOption.map (·.value σ) = p.meaning? σ file scope t) ∧
    ∀ scope (ts : List Term),
      (p.resolveAll file scope ts).toOption.map (Expr.values σ) = p.meanings? σ file scope ts := by
  -- The induction follows how terms are read, with another scope inside of every reduction.
  refine resolve.mutual_induct file _ _ ?symbol ?array ?reduce ?shape ?application ?other ?nil ?cons
  case symbol =>
    intro scope span word
    rw [meaning?, resolve, symbolExpr_keeps]
  case array =>
    intro scope span elements
    rw [meaning?, resolve]
    rfl
  case reduce =>
    intro scope span headSpan opTerm rangeTerm body ih
    rw [meaning?, resolve, if_pos rfl, if_pos rfl]
    cases reductionHead file ⟨file, span⟩ opTerm rangeTerm with
    | error e => rfl
    | ok r =>
      change ((p.resolve file (scope.bind r.var) body).bind _).toOption.map _ =
        (p.meaning? σ file (scope.bind r.var) body).bind _
      rw [← ih r]
      cases p.resolve file (scope.bind r.var) body <;> rfl
  case shape =>
    intro scope span headSpan args hargs
    rw [meaning?, resolve, if_pos rfl, if_pos rfl]
    · rfl
    · exact hargs
    · exact hargs
  case application =>
    intro scope span headSpan head args hhead ih
    unfold meaning? resolve
    dsimp only
    rw [if_neg hhead, if_neg hhead, ← ih]
    cases hoperands : p.resolveAll file scope args with
    | error e => cases p.operation? σ head args.length <;> rfl
    | ok operands =>
      rw [← length_of_resolveAll hoperands]
      change (p.applicationExpr _ _ head operands).toOption.map _ = _
      rw [applicationExpr_keeps]
      cases p.operation? σ head operands.length <;> rfl
  case other =>
    intro scope span elements helements
    rw [meaning?, resolve]
    · rfl
    · exact helements
    · exact helements
  case nil =>
    intro scope
    rfl
  case cons =>
    intro scope t rest iht ihrest
    rw [meanings?, resolveAll, ← iht, ← ihrest]
    cases p.resolve file scope t with
    | error e => rfl
    | ok e => cases p.resolveAll file scope rest <;> rfl

end Program

attribute [local instance] Arithmetic.word64

/-- On words, converting an expression to an affine form keeps its value, and so does folding an application
while it is read. What a term is read as therefore has the value of the term, and an element whose indices
are read and converted has the indices that are written. -/
theorem Program.indices_keep_meaning {W : Type} (σ : Expr.Setting W) :
    (∀ (e : Expr) (a : Affine) (x : List Int), e.affine? x.length = some a →
      ∃ n, a.eval? x = .ok n ∧ e.value σ (valuation x) = .int n) ∧
    (∀ (origin : Origin) (op : Op) (operands : List Expr) (x : Nat → Int),
      (Expr.applied origin op operands).value σ x = (Expr.apply origin op operands).value σ x) ∧
    (∀ (p : Program) (file : SourceFile) (scope : Scope) (t : Term),
      (p.resolve file scope t).toOption.map (·.value σ) = p.meaning? σ file scope t) ∧
    ∀ (p : Program) (file : SourceFile) (scope : Scope) (ts : List Term) (indices : List Expr)
      (pattern : List Affine) (x : List Int), p.resolveAll file scope ts = .ok indices →
        Access.indexForms x.length indices = .ok pattern →
        ∃ f, p.meanings? σ file scope ts = some f ∧
          f (valuation x) = pattern.map fun a => .int (a.eval x) := by
  refine ⟨fun e a x h => ?_, fun origin op operands x => ?_, fun p file scope t => ?_,
    fun p file scope ts indices pattern x hindices hpattern => ?_⟩
  · have hvars : x.length = a.vars := (Expr.vars_affine? e h).symm
    refine ⟨a.eval x, ?_, ?_⟩
    · simp [Affine.eval?, hvars, require]
    · rw [Expr.value_of_affine? e h, Affine.eval_eq_fit]
  · exact Expr.value_applied origin op operands
  · exact resolve_keeps.1 scope t
  · have hvalues : (p.resolveAll file scope ts).toOption.map (Expr.values σ) = _ := resolve_keeps.2 scope ts
    rw [hindices] at hvalues
    refine ⟨Expr.values σ indices, hvalues.symm, ?_⟩
    rw [Expr.values_of_affines? (Access.affines?_of_indexForms hpattern), List.map_map]
    exact List.map_congr_left fun a _ => congrArg Expr.Value.int (a.eval_eq_fit x).symm

/-- The index `(+ (* 4611686018427387904 (- i 1)) (* 2 i 3))`. -/
def Term.wrapping : Term :=
  let word := Term.symbol .origin
  let list := Term.group .origin .round
  list [word "+", list [word "*", word "4611686018427387904", list [word "-", word "i", word "1"]],
    list [word "*", word "2", word "i", word "3"]]

/-- The product wraps around at `i = 5`, whether it is computed at once or folded with what comes before. -/
theorem Program.indices_keep_meaning_wrapping :
    ∃ indices pattern f, ({} : Program).resolveAll .unknown ⟨[("i", 0)], 1⟩ [.wrapping] = .ok indices ∧
      Access.indexForms 1 indices = .ok pattern ∧
      ({} : Program).meanings? (W := Unit) ⟨fun _ => (), fun _ _ => .other (), fun _ _ => .other (),
        fun _ _ => .other (), fun _ _ _ _ => .other ()⟩ .unknown ⟨[("i", 0)], 1⟩ [.wrapping] = some f ∧
      pattern = [⟨[4611686018427387910], -4611686018427387904⟩] ∧ f (valuation [5]) = [.int 30] := by
  have hrun : (Outcome.passes (({} : Program).resolveAll .unknown ⟨[("i", 0)], 1⟩ [.wrapping]) fun indices =>
      Outcome.passes (Access.indexForms 1 indices) fun pattern =>
        pattern = [⟨[4611686018427387910], -4611686018427387904⟩]) = true := by decide +kernel
  obtain ⟨indices, hindices, hrun⟩ := Outcome.exists_of_passes hrun
  obtain ⟨pattern, hpattern, hrun⟩ := Outcome.exists_of_passes hrun
  obtain rfl := of_decide_eq_true hrun
  obtain ⟨f, hf, hvalue⟩ := (indices_keep_meaning _).2.2.2 _ _ _ _ _ _ [5] hindices hpattern
  exact ⟨indices, _, f, hindices, hpattern, hf, rfl, hvalue.trans (by decide)⟩

end StreamLoom
