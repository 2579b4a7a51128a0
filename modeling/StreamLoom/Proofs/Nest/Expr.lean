import Mathlib.Algebra.Order.Floor.Ring
import StreamLoom.Nest.Generation
import StreamLoom.Proofs.Affine.Value
import StreamLoom.Proofs.Outcome

/-!
# Values of generated expressions

The expressions of a loop nest are made from affine forms. They have the values of these forms, as long
as the variables which occur in them are bound: a variable whose coefficient is zero does not occur, and
this is what allows the bounds of a loop to be formed from rows over its own iterator.
-/

namespace StreamLoom.Nest

attribute [local instance] Arithmetic.exact

/-! ### Names -/

theorem iteratorName_injective {d e : Nat} (h : iteratorName d = iteratorName e) : d = e := by
  have hrepr : d.repr = e.repr := (String.append_right_inj "i").mp h
  have hdigits : Nat.toDigits 10 d = Nat.toDigits 10 e := by
    rw [← Nat.toList_repr, ← Nat.toList_repr, hrepr]
  rw [← Nat.ofDigitChars_ten_toDigits (n := d), hdigits, Nat.ofDigitChars_ten_toDigits]

/-- The iterators of some dimensions are bound to the coordinates of a point. -/
def Binds (env : Env) (dims : List Nat) (x : Nat → Int) : Prop :=
  ∀ d ∈ dims, env.lookup (iteratorName d) = some (x d)

theorem binds_cons {env : Env} {dims : List Nat} {x : Nat → Int} (h : Binds env dims x) {d : Nat}
    (hd : d ∉ dims) : Binds ((iteratorName d, x d) :: env) (dims ++ [d]) x := by
  intro e he
  rw [List.lookup_cons]
  rcases List.mem_append.mp he with he | he
  · have hne : (iteratorName e == iteratorName d) = false := by
      rw [beq_eq_false_iff_ne]
      intro heq
      exact hd (iteratorName_injective heq ▸ he)
    rw [hne]
    exact h e he
  · obtain rfl := List.mem_singleton.mp he
    simp

/-! ### Sums -/

variable {env : Env}

theorem eval_binary {op : Operation} {l r : Expr} {a b : Int} (hl : l.eval env = .ok a)
    (hr : r.eval env = .ok b) : (Expr.binary op l r).eval env = op.eval a b := by
  rw [Expr.eval, hl, hr]
  rfl

theorem eval_name {name : String} {a : Int} (h : env.lookup name = some a) :
    (Expr.name name).eval env = .ok a := by
  rw [Expr.eval, h]

/-- A term has the value of its coefficient, but for the sign. -/
theorem eval_term {c a : Int} {name : String} (h : env.lookup name = some a) :
    (term c name).eval env = .ok (|c| * a) := by
  unfold term
  split
  · rename_i hc
    have hone : |c| = 1 := by
      rcases hc with rfl | rfl <;> rfl
    rw [eval_name h, hone, one_mul]
  · have habs : Arithmetic.abs c = |c| := by
      rw [Arithmetic.abs]
      split
      · rename_i hneg
        rw [abs_of_neg hneg, Arithmetic.fit_exact]
      · rename_i hpos
        rw [abs_of_nonneg (by omega)]
    rw [eval_binary rfl (eval_name h), Operation.eval, Arithmetic.fit_exact, habs]

/-- A sum, to which nothing may have been added yet, has a value. -/
def Sums (env : Env) (sum : Option Expr) (value : Int) : Prop :=
  match sum with
  | none => value = 0
  | some e => e.eval env = .ok value

theorem sums_addTerm {sum : Option Expr} {value : Int} (hsum : Sums env sum value) {c a : Int}
    {name : String} (h : c ≠ 0 → env.lookup name = some a) :
    Sums env (addTerm sum c name) (value + c * a) := by
  unfold addTerm
  split
  · rename_i hc
    rw [hc, zero_mul, add_zero]
    exact hsum
  · rename_i hc
    have hterm := eval_term (c := c) (h hc)
    split
    · rename_i hneg
      have hvalue : value = 0 := hsum
      change Expr.eval env _ = _
      rw [eval_binary rfl hterm, Operation.eval, Arithmetic.fit_exact, hvalue,
        abs_of_neg (of_decide_eq_true hneg)]
      congr 1
      ring
    · rename_i hpos
      have hvalue : value = 0 := hsum
      change Expr.eval env _ = _
      rw [hterm, hvalue, abs_of_nonneg (not_lt.mp (of_decide_eq_false hpos)), zero_add]
    · rename_i hneg
      change Expr.eval env _ = _
      rw [eval_binary hsum hterm, Operation.eval, Arithmetic.fit_exact,
        abs_of_neg (of_decide_eq_true hneg)]
      congr 1
      ring
    · rename_i hpos
      change Expr.eval env _ = _
      rw [eval_binary hsum hterm, Operation.eval, Arithmetic.fit_exact,
        abs_of_nonneg (not_lt.mp (of_decide_eq_false hpos))]

private theorem sums_foldl {coeffs : List Int} {names : List String} {x : Nat → Int}
    (hlength : coeffs.length = names.length)
    (h : ∀ (i : Nat) (name : String), names[i]? = some name → coeffs.getD i 0 ≠ 0 →
      env.lookup name = some (x i)) (sum : Option Expr) (value : Int) (hsum : Sums env sum value) :
    Sums env ((coeffs.zip names).foldl (fun sum (c, name) => addTerm sum c name) sum)
      (value + Affine.linear coeffs x) := by
  induction coeffs generalizing names x sum value with
  | nil =>
    rw [Affine.linear_nil, add_zero]
    exact hsum
  | cons c coeffs ih =>
    cases names with
    | nil => cases hlength
    | cons name names =>
      rw [List.zip_cons_cons, List.foldl_cons, Affine.linear_cons, Int.cast_id, ← add_assoc]
      refine ih (Nat.succ.inj hlength) (fun i other hother hne => ?_) _ _
        (sums_addTerm hsum fun hc => h 0 name rfl hc)
      exact h (i + 1) other hother hne

theorem eval_affineExpr {a : Affine} {names : List String} (hlength : a.vars = names.length)
    {x : Nat → Int}
    (h : ∀ (i : Nat) (name : String), names[i]? = some name → a.coeff i ≠ 0 →
      env.lookup name = some (x i)) :
    (affineExpr a names).eval env = .ok (a.valueAt x) := by
  have hsum := sums_foldl hlength h none 0 rfl
  rw [zero_add] at hsum
  unfold affineExpr
  split
  · rename_i hnone
    rw [hnone] at hsum
    rw [Affine.valueAt, hsum, add_zero]
    rfl
  · rename_i e hsome
    rw [hsome] at hsum
    change e.eval env = _ at hsum
    rw [Affine.valueAt]
    split
    · rw [eval_binary hsum rfl, Operation.eval, Arithmetic.fit_exact, add_comm]
      rfl
    · split
      · rw [eval_binary hsum rfl, Operation.eval, Arithmetic.fit_exact, Arithmetic.fit_exact,
          sub_neg_eq_add, add_comm]
        rfl
      · have hzero : a.const = 0 := by omega
        rw [hsum, hzero]
        simp

/-! ### Quotients -/

theorem le_floorDiv_iff {a b t : Int} (hb : 0 < b) : t ≤ Arithmetic.floorDiv a b ↔ b * t ≤ a := by
  rw [Arithmetic.floorDiv, Arithmetic.fit_exact, Int.fdiv_eq_ediv_of_nonneg _ hb.le,
    Int.le_ediv_iff_mul_le hb, mul_comm]

theorem ceilDiv_le_iff {a b t : Int} (hb : 0 < b) : Arithmetic.ceilDiv a b ≤ t ↔ a ≤ b * t := by
  have hfloor := le_floorDiv_iff (a := -a) (t := -t) hb
  rw [mul_neg] at hfloor
  rw [Arithmetic.ceilDiv, Arithmetic.fit_exact, Arithmetic.fit_exact]
  omega

private theorem valueAt_of_isConstant {a : Affine} (h : a.isConstant = true) (x : Nat → Int) :
    a.valueAt x = a.const := by
  have hlinear : Affine.linear a.coeffs x = 0 := by
    have hzero : ∀ c ∈ a.coeffs, c = 0 := by simpa [Affine.isConstant] using h
    rw [List.eq_replicate_of_mem hzero, Affine.linear_replicate_zero]
  rw [Affine.valueAt, hlinear, add_zero]
  rfl

variable {a : Affine} {names : List String} {x : Nat → Int} {den : Int}

/-- A quotient that is rounded up is the least number that the form divides down to. -/
theorem eval_quotient_up (hlength : a.vars = names.length)
    (h : ∀ (i : Nat) (name : String), names[i]? = some name → a.coeff i ≠ 0 →
      env.lookup name = some (x i)) (hden : 0 < den) :
    ∃ q, (quotient a den true names).eval env = .ok q ∧ ∀ t, q ≤ t ↔ a.valueAt x ≤ den * t := by
  unfold quotient
  split
  · rename_i hconstant
    refine ⟨_, rfl, fun t => ?_⟩
    rw [valueAt_of_isConstant hconstant]
    exact ceilDiv_le_iff hden
  · split
    · rename_i hone
      exact ⟨_, eval_affineExpr hlength h, fun t => by rw [hone, one_mul]⟩
    · refine ⟨Arithmetic.ceilDiv (a.valueAt x) den, ?_, fun t => ceilDiv_le_iff hden⟩
      have hne : (den != 0) = true := by simpa using hden.ne'
      rw [if_pos rfl, eval_binary (eval_affineExpr hlength h) rfl]
      simp [Operation.eval, Arithmetic.ceilDiv?, Arithmetic.nonzero, hne, bind, Except.bind, pure,
        Except.pure]

/-- A quotient that is rounded down is the greatest number that the form divides down to. -/
theorem eval_quotient_down (hlength : a.vars = names.length)
    (h : ∀ (i : Nat) (name : String), names[i]? = some name → a.coeff i ≠ 0 →
      env.lookup name = some (x i)) (hden : 0 < den) :
    ∃ q, (quotient a den false names).eval env = .ok q ∧ ∀ t, t ≤ q ↔ den * t ≤ a.valueAt x := by
  unfold quotient
  split
  · rename_i hconstant
    refine ⟨_, rfl, fun t => ?_⟩
    rw [valueAt_of_isConstant hconstant]
    exact le_floorDiv_iff hden
  · split
    · rename_i hone
      exact ⟨_, eval_affineExpr hlength h, fun t => by rw [hone, one_mul]⟩
    · refine ⟨Arithmetic.floorDiv (a.valueAt x) den, ?_, fun t => le_floorDiv_iff hden⟩
      have hne : (den != 0) = true := by simpa using hden.ne'
      rw [if_neg (by simp), eval_binary (eval_affineExpr hlength h) rfl]
      simp [Operation.eval, Arithmetic.floorDiv?, Arithmetic.nonzero, hne, bind, Except.bind, pure,
        Except.pure]

/-! ### Extremes -/

/-- What an extreme is to be compared by: the greatest value is at most what all values are, and the
least is at least that. -/
def Extreme.Meets : Extreme → Int → Int → Prop
  | .max, value, t => value ≤ t
  | .min, value, t => t ≤ value

theorem Extreme.meets_pick (op : Extreme) (a b t : Int) :
    op.Meets (op.pick a b) t ↔ op.Meets a t ∧ op.Meets b t := by
  cases op with
  | min => exact le_min_iff
  | max => exact max_le_iff

theorem Extreme.meets_foldl (op : Extreme) (values : List Int) (a t : Int) :
    op.Meets (values.foldl op.pick a) t ↔ op.Meets a t ∧ ∀ value ∈ values, op.Meets value t := by
  induction values generalizing a with
  | nil => simp
  | cons b values ih =>
    rw [List.foldl_cons, ih, Extreme.meets_pick, List.forall_mem_cons, and_assoc]

theorem evalAll_of_forall₂ {elements : List Expr} {values : List Int}
    (h : List.Forall₂ (fun e v => Expr.eval env e = .ok v) elements values) :
    Expr.evalAll env elements = .ok values := by
  induction h with
  | nil => rfl
  | cons he _ ih =>
    rw [Expr.evalAll, he, ih]
    rfl

private theorem exists_values {elements : List Expr} (h : ∀ e ∈ elements, ∃ v, Expr.eval env e = .ok v) :
    ∃ values, List.Forall₂ (fun e v => Expr.eval env e = .ok v) elements values := by
  induction elements with
  | nil => exact ⟨[], .nil⟩
  | cons e elements ih =>
    obtain ⟨v, hv⟩ := h e (by simp)
    obtain ⟨values, hvalues⟩ := ih fun f hf => h f (by simp [hf])
    exact ⟨v :: values, .cons hv hvalues⟩

private theorem meets_all_iff {op : Extreme} {elements : List Expr} {values : List Int}
    (h : List.Forall₂ (fun e v => Expr.eval env e = .ok v) elements values) (t : Int) :
    (∀ v ∈ values, op.Meets v t) ↔ ∀ e ∈ elements, ∀ v, Expr.eval env e = .ok v → op.Meets v t := by
  induction h with
  | nil => simp
  | cons he _ ih =>
    rw [List.forall_mem_cons, List.forall_mem_cons, ih]
    refine and_congr_left fun _ => ⟨fun hmeets v hv => ?_, fun hmeets => hmeets _ he⟩
    rw [he] at hv
    rwa [← Except.ok.inj hv]

private theorem eval_extreme (op : Extreme) {elements : List Expr} (hne : elements ≠ [])
    (h : ∀ e ∈ elements, ∃ v, Expr.eval env e = .ok v) :
    ∃ value, (Expr.extreme op elements).eval env = .ok value ∧
      ∀ t, op.Meets value t ↔ ∀ e ∈ elements, ∀ v, Expr.eval env e = .ok v → op.Meets v t := by
  obtain ⟨values, hvalues⟩ := exists_values h
  cases hvalues with
  | nil => exact absurd rfl hne
  | @cons e v elements values he hrest =>
    refine ⟨values.foldl op.pick v, ?_, fun t => ?_⟩
    · rw [Expr.eval, evalAll_of_forall₂ (.cons he hrest)]
      rfl
    · rw [op.meets_foldl, ← meets_all_iff (.cons he hrest), List.forall_mem_cons]

private theorem eq_int_of_literal? {e : Expr} {value : Int} (h : e.literal? = some value) :
    e = .int value := by
  cases e with
  | int v =>
    obtain rfl := Option.some.inj h
    rfl
  | name | binary | extreme => cases h

/-- Some bounds, in which the constants have been combined. -/
private def elements (op : Extreme) (bounds : List Expr) : List Expr :=
  bounds.filter (·.literal?.isNone) ++ match bounds.filterMap (·.literal?) with
    | [] => []
    | x :: rest => [.int (rest.foldl op.pick x)]

private theorem combine_eq (op : Extreme) (bounds : List Expr) :
    combine op bounds = match elements op bounds with
      | [e] => e
      | _ => .extreme op (elements op bounds) := rfl

/-- Combining the constants among some bounds does not change what all of them are compared with. -/
private theorem meets_elements_iff (env : Env) (op : Extreme) (bounds : List Expr) (t : Int) :
    (∀ e ∈ elements op bounds, ∀ v, Expr.eval env e = .ok v → op.Meets v t) ↔
      ∀ e ∈ bounds, ∀ v, Expr.eval env e = .ok v → op.Meets v t := by
  have hconstants : (∀ e ∈ (match bounds.filterMap (·.literal?) with
        | [] => []
        | x :: rest => [Expr.int (rest.foldl op.pick x)]),
      ∀ v, Expr.eval env e = .ok v → op.Meets v t) ↔
      ∀ v ∈ bounds.filterMap (·.literal?), op.Meets v t := by
    cases bounds.filterMap (·.literal?) with
    | nil => simp
    | cons x rest =>
      have hfold := op.meets_foldl rest x t
      simp [Expr.eval, hfold]
  rw [elements, List.forall_mem_append]
  refine (and_congr_right fun _ => hconstants).trans ⟨?_, fun h => ⟨?_, ?_⟩⟩
  · rintro ⟨hothers, hliterals⟩ e he v hv
    cases hliteral : e.literal? with
    | none => exact hothers e (List.mem_filter.mpr ⟨he, by simp [hliteral]⟩) v hv
    | some value =>
      obtain rfl := eq_int_of_literal? hliteral
      obtain rfl := Except.ok.inj hv
      exact hliterals value (List.mem_filterMap.mpr ⟨_, he, rfl⟩)
  · exact fun e he => h e (List.mem_of_mem_filter he)
  · intro v hv
    obtain ⟨e, he, hliteral⟩ := List.mem_filterMap.mp hv
    obtain rfl := eq_int_of_literal? hliteral
    exact h _ he v rfl

private theorem eval_elements (op : Extreme) {bounds : List Expr}
    (h : ∀ e ∈ bounds, ∃ v, Expr.eval env e = .ok v) :
    ∀ e ∈ elements op bounds, ∃ v, Expr.eval env e = .ok v := by
  intro e he
  rcases List.mem_append.mp he with he | he
  · exact h e (List.mem_of_mem_filter he)
  · split at he
    · cases he
    · obtain rfl := List.mem_singleton.mp he
      exact ⟨_, rfl⟩

private theorem elements_ne_nil (op : Extreme) {bounds : List Expr} (hne : bounds ≠ []) :
    elements op bounds ≠ [] := by
  intro hnil
  obtain ⟨hfilter, hconstants⟩ := List.append_eq_nil_iff.mp hnil
  obtain ⟨e, rest, rfl⟩ := List.exists_cons_of_ne_nil hne
  cases hliteral : e.literal? with
  | none => simp [hliteral] at hfilter
  | some value =>
    rw [List.filterMap_cons, hliteral] at hconstants
    cases hconstants

/-- The combination of some bounds is their extreme. -/
theorem eval_combine (op : Extreme) {bounds : List Expr} (hne : bounds ≠ [])
    (h : ∀ e ∈ bounds, ∃ v, Expr.eval env e = .ok v) :
    ∃ value, (combine op bounds).eval env = .ok value ∧
      ∀ t, op.Meets value t ↔ ∀ e ∈ bounds, ∀ v, Expr.eval env e = .ok v → op.Meets v t := by
  have hmeets := meets_elements_iff env op bounds
  have hall := eval_elements op h
  have hnonempty := elements_ne_nil op hne
  rw [combine_eq]
  generalize elements op bounds = elements at hmeets hall hnonempty ⊢
  split
  · rename_i e
    obtain ⟨value, hvalue⟩ := hall e (List.mem_singleton_self e)
    refine ⟨value, hvalue, fun t => ?_⟩
    rw [← hmeets t, List.forall_mem_singleton, hvalue]
    simp
  · obtain ⟨value, hvalue, hiff⟩ := eval_extreme op hnonempty hall
    exact ⟨value, hvalue, fun t => (hiff t).trans (hmeets t)⟩

end StreamLoom.Nest
