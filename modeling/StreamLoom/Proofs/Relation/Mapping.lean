import Mathlib.Tactic.LinearCombination
import StreamLoom.Proofs.Outcome
import StreamLoom.Proofs.Relation.Membership
import StreamLoom.Relation.Guarded

/-!
# Functions embodied by relations

A mapping is found by solving equalities, one output at a time. Whatever order the constraints stand in, the
row of an output gives its value at every solution, so that a mapping that is found is the function which the
relation embodies. It is found exactly when the equalities determine the outputs one after the other: an
output that can be solved stays so until a round comes to its equality.
-/

namespace StreamLoom

attribute [local instance] Arithmetic.exact

open StreamLoom.System (Solves Over)

namespace Relation

variable {m : Relation} {solved : List (Option Affine)} {c : Constraint} {o : Nat}

/-! ### Solving in turn -/

/-- An output is the only one that an equality mentions besides those that are known, and its coefficient is
one or minus one. -/
structure Resolves (m : Relation) (c : Constraint) (known : Nat → Prop) (o : Nat) : Prop where
  equality : c.equality = true
  inside : o < m.outputs
  fresh : ¬ known o
  unit : |c.coeff (m.inputs + o)| = 1
  sole : ∀ p, p < m.outputs → p ≠ o → c.coeff (m.inputs + p) ≠ 0 → known p

/-- The outputs that equalities determine one after the other, the last one first. -/
inductive InTurn (m : Relation) : List Nat → Prop
  | nil : m.InTurn []
  | cons {known : List Nat} {c : Constraint} {o : Nat} (hknown : m.InTurn known) (hc : c ∈ m.cons)
      (hresolves : m.Resolves c (· ∈ known) o) : m.InTurn (o :: known)

/-- The equalities of a relation determine all of its outputs, one after the other. -/
def Solvable (m : Relation) : Prop :=
  ∃ order, m.InTurn order ∧ ∀ o, o < m.outputs → o ∈ order

theorem InTurn.length_le {order : List Nat} (h : m.InTurn order) : order.length ≤ m.outputs := by
  have hnodup : order.Nodup ∧ ∀ o ∈ order, o < m.outputs := by
    induction h with
    | nil => simp
    | cons _ _ hresolves ih =>
      refine ⟨List.nodup_cons.mpr ⟨hresolves.fresh, ih.1⟩, ?_⟩
      intro p hp
      cases hp with
      | head => exact hresolves.inside
      | tail _ hp => exact ih.2 p hp
  have hsubset : order ⊆ List.range m.outputs := fun o ho => List.mem_range.mpr (hnodup.2 o ho)
  have hle := (hnodup.1.subperm hsubset).length_le
  rwa [List.length_range] at hle

def Known (solved : List (Option Affine)) (o : Nat) : Prop := (solved.getD o none).isSome = true

theorem getD_set {row : Affine} (ho : o < solved.length) (p : Nat) :
    (solved.set o (some row)).getD p none = if p = o then some row else solved.getD p none := by
  simp only [List.getD_eq_getElem?_getD, List.getElem?_set]
  by_cases hp : o = p
  · subst hp
    simp [ho]
  · rw [if_neg hp, if_neg (Ne.symm hp)]

theorem known_set {row : Affine} (ho : o < solved.length) {p : Nat} :
    Known (solved.set o (some row)) p ↔ p = o ∨ Known solved p := by
  rw [Known, getD_set ho]
  by_cases hp : p = o
  · simp [hp]
  · simp [hp, Known]

/-! ### One step -/

private theorem mem_openOutputs (hc : c.equality = true) {p : Nat} :
    p ∈ m.openOutputs c solved ↔
      p < m.outputs ∧ c.coeff (m.inputs + p) ≠ 0 ∧ ¬ Known solved p := by
  rw [openOutputs, if_pos hc, List.mem_filter, List.mem_range]
  simp [Known]

private theorem openOutputs_eq_iff (hc : c.equality = true) :
    m.openOutputs c solved = [o] ↔ ∀ p, p ∈ m.openOutputs c solved ↔ p = o := by
  constructor
  · intro h p
    rw [h, List.mem_singleton]
  · intro h
    have hnodup : (m.openOutputs c solved).Nodup := by
      rw [openOutputs, if_pos hc]
      exact List.nodup_range.filter _
    apply List.perm_singleton.mp
    apply (List.perm_ext_iff_of_nodup hnodup (List.nodup_singleton o)).mpr
    intro p
    rw [h, List.mem_singleton]

private theorem resolves_iff : m.Resolves c (Known solved) o ↔
    m.openOutputs c solved = [o] ∧ Arithmetic.abs (c.coeff (m.inputs + o)) = 1 := by
  rw [Arithmetic.abs_eq_natAbs, ← Int.abs_eq_natAbs]
  constructor
  · intro h
    refine ⟨(openOutputs_eq_iff h.equality).mpr fun p => ?_, h.unit⟩
    rw [mem_openOutputs h.equality]
    constructor
    · intro hp
      by_contra hne
      exact hp.2.2 (h.sole p hp.1 hne hp.2.1)
    · intro hp
      subst hp
      refine ⟨h.inside, fun hzero => ?_, h.fresh⟩
      have hunit := h.unit
      rw [hzero] at hunit
      cases hunit
  · intro h
    have hequality : c.equality = true := by
      by_contra hnot
      have hopen := h.1
      rw [openOutputs, if_neg hnot] at hopen
      cases hopen
    have hopen := (openOutputs_eq_iff hequality).mp h.1
    simp only [mem_openOutputs hequality] at hopen
    have ho := (hopen o).mpr rfl
    refine ⟨hequality, ho.1, ho.2.2, h.2, fun p hp hne hcoeff => ?_⟩
    by_contra hfresh
    exact hne ((hopen p).mp ⟨hp, hcoeff, hfresh⟩)

/-- A step solves the output that its constraint resolves, and does nothing when there is none. -/
theorem solveStep_cases (m : Relation) (solved : List (Option Affine)) (c : Constraint) :
    (∃ o, m.Resolves c (Known solved) o ∧
      m.solveStep solved c = solved.set o (some (m.solveRow c solved o))) ∨
    ((∀ o, ¬ m.Resolves c (Known solved) o) ∧ m.solveStep solved c = solved) := by
  rw [solveStep]
  split
  · rename_i target hopen
    split
    · rename_i hunit
      exact .inl ⟨target, resolves_iff.mpr ⟨hopen, hunit⟩, rfl⟩
    · rename_i hunit
      refine .inr ⟨fun o ho => ?_, rfl⟩
      have hresolves := resolves_iff.mp ho
      rw [hopen] at hresolves
      cases hresolves.1
      exact hunit hresolves.2
  · rename_i hopen
    exact .inr ⟨fun o ho => hopen o (resolves_iff.mp ho).1, rfl⟩

/-! ### Rows -/

section

variable {w : Nat → Int}

/-- Without locals, an equality relates its inputs to its outputs. -/
private theorem valueAt_split (hvars : c.vars = m.inputs + m.outputs) (w : Nat → Int) :
    c.form.valueAt w = (⟨c.coeffs.take m.inputs, c.const⟩ : Affine).valueAt w +
      ∑ o ∈ Finset.range m.outputs, c.coeff (m.inputs + o) * w (m.inputs + o) := by
  have hlength : c.coeffs.length = m.inputs + m.outputs := hvars
  have htake : (c.coeffs.take m.inputs).length = m.inputs := by
    rw [List.length_take]
    omega
  have hinputs : ∀ i ∈ Finset.range m.inputs,
      ((c.coeffs.take m.inputs).getD i 0 : Int) * w i = (c.coeffs.getD i 0 : Int) * w i := by
    intro i hi
    rw [List.getD_eq_getElem?_getD, List.getElem?_take_of_lt (Finset.mem_range.mp hi),
      ← List.getD_eq_getElem?_getD]
  show c.const + Affine.linear c.coeffs w =
    c.const + Affine.linear (c.coeffs.take m.inputs) w + _
  rw [Affine.linear_eq_sum, Affine.linear_eq_sum, hlength, htake, Finset.sum_range_add]
  simp only [Int.cast_id]
  rw [Finset.sum_congr rfl hinputs, add_assoc]
  rfl

/-- What a known output adds to the row of another one. -/
private def contribution (m : Relation) (c : Constraint) (solved : List (Option Affine)) (target : Nat)
    (row : Affine) (o : Nat) : Affine :=
  match solved.getD o none with
  | some known =>
    if o ≠ target ∧ c.coeff (m.inputs + o) ≠ 0 then row.add (known.scale (c.coeff (m.inputs + o)))
    else row
  | none => row

private theorem solveRow_eq (m : Relation) (c : Constraint) (solved : List (Option Affine)) (target : Nat) :
    m.solveRow c solved target =
      ((List.range m.outputs).foldl (contribution m c solved target)
        ⟨c.coeffs.take m.inputs, c.const⟩).scale (-c.coeff (m.inputs + target)) := rfl

/-- The rows that have been found are over the inputs, and give the outputs of a solution. -/
def Explains (m : Relation) (solved : List (Option Affine)) (w : Nat → Int) : Prop :=
  ∀ o row, solved.getD o none = some row → row.vars = m.inputs ∧ w (m.inputs + o) = row.valueAt w

private theorem valueAt_contribution {row : Affine} (hrow : row.vars = m.inputs)
    (hsolved : m.Explains solved w) {target p : Nat}
    (hsole : p ≠ target → c.coeff (m.inputs + p) ≠ 0 → Known solved p) :
    (contribution m c solved target row p).vars = m.inputs ∧
      (contribution m c solved target row p).valueAt w = row.valueAt w +
        if p = target then 0 else c.coeff (m.inputs + p) * w (m.inputs + p) := by
  unfold contribution
  cases hp : solved.getD p none with
  | none =>
    refine ⟨hrow, ?_⟩
    by_cases htarget : p = target
    · simp [htarget]
    · have hcoeff : c.coeff (m.inputs + p) = 0 := by
        by_contra hne
        have hknown := hsole htarget hne
        rw [Known, hp] at hknown
        cases hknown
      simp [hcoeff]
  | some known =>
    obtain ⟨hvars, hvalue⟩ := hsolved p known hp
    dsimp only
    split
    · rename_i hboth
      refine ⟨by simp [hrow, hvars], ?_⟩
      rw [if_neg hboth.1, Affine.valueAt_add (by simp [hrow, hvars]), Affine.valueAt_scale, hvalue]
      rfl
    · rename_i hnot
      refine ⟨hrow, ?_⟩
      by_cases htarget : p = target
      · simp [htarget]
      · have hcoeff : c.coeff (m.inputs + p) = 0 := by
          by_contra hne
          exact hnot ⟨htarget, hne⟩
        simp [hcoeff]

private theorem valueAt_foldl_contribution {start : Affine} (hstart : start.vars = m.inputs)
    (hsolved : m.Explains solved w) {target : Nat} (n : Nat)
    (hsole : ∀ p, p < n → p ≠ target → c.coeff (m.inputs + p) ≠ 0 → Known solved p) :
    ((List.range n).foldl (contribution m c solved target) start).vars = m.inputs ∧
      ((List.range n).foldl (contribution m c solved target) start).valueAt w = start.valueAt w +
        ∑ p ∈ Finset.range n, if p = target then 0 else c.coeff (m.inputs + p) * w (m.inputs + p) := by
  induction n with
  | zero => simp [hstart]
  | succ n ih =>
    obtain ⟨hvars, hvalue⟩ := ih fun p hp => hsole p (Nat.lt_succ_of_lt hp)
    obtain ⟨hvars', hvalue'⟩ := valueAt_contribution hvars hsolved (hsole n (Nat.lt_succ_self n))
    rw [List.range_succ, List.foldl_append, List.foldl_cons, List.foldl_nil, Finset.sum_range_succ]
    refine ⟨hvars', ?_⟩
    rw [hvalue', hvalue, add_assoc]

private theorem valueAt_solveRow (hvars : c.vars = m.inputs + m.outputs) (hadmits : c.Admits w)
    (hsolved : m.Explains solved w) (hresolves : m.Resolves c (Known solved) o) :
    (m.solveRow c solved o).vars = m.inputs ∧ w (m.inputs + o) = (m.solveRow c solved o).valueAt w := by
  have hstart : Affine.vars ⟨c.coeffs.take m.inputs, c.const⟩ = m.inputs := by
    have hlength : c.coeffs.length = m.inputs + m.outputs := hvars
    show (c.coeffs.take m.inputs).length = m.inputs
    rw [List.length_take]
    omega
  obtain ⟨hrow, hvalue⟩ := valueAt_foldl_contribution (c := c) hstart hsolved m.outputs hresolves.sole
  rw [solveRow_eq, Affine.vars_scale, Affine.valueAt_scale, hvalue]
  refine ⟨hrow, ?_⟩
  -- The equality, with the output to be solved apart from the others.
  have hzero : c.form.valueAt w = 0 := by
    have hboth := hadmits
    rwa [Constraint.Admits, if_pos hresolves.equality] at hboth
  have hmem := Finset.mem_range.mpr hresolves.inside
  have hothers : ∑ p ∈ Finset.range m.outputs,
      (if p = o then 0 else c.coeff (m.inputs + p) * w (m.inputs + p)) =
        ∑ p ∈ Finset.range m.outputs, c.coeff (m.inputs + p) * w (m.inputs + p) -
          c.coeff (m.inputs + o) * w (m.inputs + o) := by
    rw [← Finset.add_sum_erase _ _ hmem, ← Finset.add_sum_erase _ _ hmem, if_pos rfl,
      add_sub_cancel_left, zero_add]
    apply Finset.sum_congr rfl
    intro p hp
    rw [if_neg (Finset.ne_of_mem_erase hp)]
  rw [valueAt_split hvars] at hzero
  rw [hothers]
  have hunit : c.coeff (m.inputs + o) * c.coeff (m.inputs + o) = 1 := by
    rw [← abs_mul_abs_self, hresolves.unit, one_mul]
  simp only [Int.cast_neg, Int.cast_id]
  linear_combination c.coeff (m.inputs + o) * hzero - w (m.inputs + o) * hunit

end

/-! ### Rounds -/

structure Progress (m : Relation) (solved : List (Option Affine)) : Prop where
  length : solved.length = m.outputs
  explains : ∀ w : Nat → Int, Solves w m.cons → m.Explains solved w
  ordered : ∃ order, m.InTurn order ∧ ∀ o, o ∈ order ↔ Known solved o

namespace Progress

theorem initial (m : Relation) : m.Progress (List.replicate m.outputs none) := by
  have hnone : ∀ o, (List.replicate m.outputs (none : Option Affine)).getD o none = none := by
    intro o
    rw [List.getD_eq_getElem?_getD, List.getElem?_replicate]
    split <;> rfl
  refine ⟨List.length_replicate, fun w _ o row ho => ?_, [], .nil, fun o => ?_⟩
  · rw [hnone] at ho
    cases ho
  · rw [Known, hnone]
    simp

theorem step (hm : m.Regular) (hlocals : m.locals = 0) (h : m.Progress solved) (hc : c ∈ m.cons) :
    m.Progress (m.solveStep solved c) ∧ ∀ o, Known solved o → Known (m.solveStep solved c) o := by
  cases m.solveStep_cases solved c with
  | inr hnone =>
    rw [hnone.2]
    exact ⟨h, fun o ho => ho⟩
  | inl hsome =>
    obtain ⟨o, hresolves, hstep⟩ := hsome
    have hvars : c.vars = m.inputs + m.outputs := by
      have hover := hm c hc
      rwa [vars, hlocals, Nat.add_zero] at hover
    have ho : o < solved.length := by
      rw [h.length]
      exact hresolves.inside
    rw [hstep]
    refine ⟨⟨?_, fun w hw p row hp => ?_, ?_⟩, fun p hp => (known_set ho).mpr (.inr hp)⟩
    · rw [List.length_set, h.length]
    · rw [getD_set ho] at hp
      split at hp
      · rename_i heq
        cases hp
        rw [heq]
        exact valueAt_solveRow hvars (hw c hc) (h.explains w hw) hresolves
      · exact h.explains w hw p row hp
    · obtain ⟨order, hturn, horder⟩ := h.ordered
      refine ⟨o :: order, .cons hturn hc ?_, fun p => ?_⟩
      · refine ⟨hresolves.equality, hresolves.inside, ?_, hresolves.unit, fun p hp hne hcoeff => ?_⟩
        · rw [horder]
          exact hresolves.fresh
        · rw [horder]
          exact hresolves.sole p hp hne hcoeff
      · rw [List.mem_cons, known_set ho, horder]

theorem foldl (hm : m.Regular) (hlocals : m.locals = 0) (cs : List Constraint) (hcs : ∀ c ∈ cs, c ∈ m.cons)
    (h : m.Progress solved) :
    m.Progress (cs.foldl m.solveStep solved) ∧
      ∀ o, Known solved o → Known (cs.foldl m.solveStep solved) o := by
  induction cs generalizing solved with
  | nil => exact ⟨h, fun o ho => ho⟩
  | cons c cs ih =>
    obtain ⟨hstep, hkept⟩ := h.step hm hlocals (hcs c List.mem_cons_self)
    obtain ⟨hrest, hkept'⟩ := ih (fun c' hc' => hcs c' (List.mem_cons_of_mem c hc')) hstep
    exact ⟨hrest, fun o ho => hkept' o (hkept o ho)⟩

theorem rounds (hm : m.Regular) (hlocals : m.locals = 0) (n : Nat) (h : m.Progress solved) :
    m.Progress (m.solveRounds n solved) ∧ ∀ o, Known solved o → Known (m.solveRounds n solved) o := by
  induction n generalizing solved with
  | zero => exact ⟨h, fun o ho => ho⟩
  | succ n ih =>
    obtain ⟨hround, hkept⟩ := h.foldl hm hlocals m.cons fun c hc => hc
    obtain ⟨hrest, hkept'⟩ := ih hround
    exact ⟨hrest, fun o ho => hkept' o (hkept o ho)⟩

/-- A round solves what an equality determines from what is known before it. -/
theorem known_of_round (hm : m.Regular) (hlocals : m.locals = 0) (h : m.Progress solved)
    {known : List Nat} (hknown : ∀ p ∈ known, Known solved p) (hc : c ∈ m.cons)
    (hresolves : m.Resolves c (· ∈ known) o) : Known (m.cons.foldl m.solveStep solved) o := by
  obtain ⟨before, after, hcons⟩ := List.append_of_mem hc
  have hbefore : ∀ c' ∈ before, c' ∈ m.cons := by
    intro c' hc'
    rw [hcons]
    exact List.mem_append_left _ hc'
  have hafter : ∀ c' ∈ after, c' ∈ m.cons := by
    intro c' hc'
    rw [hcons]
    exact List.mem_append_right _ (List.mem_cons_of_mem c hc')
  obtain ⟨hreached, hkept⟩ := h.foldl hm hlocals before hbefore
  obtain ⟨hstep, hkept'⟩ := hreached.step hm hlocals hc
  obtain ⟨-, hkept''⟩ := hstep.foldl hm hlocals after hafter
  rw [hcons, List.foldl_append, List.foldl_cons]
  apply hkept''
  by_cases hsolved : Known (before.foldl m.solveStep solved) o
  · exact hkept' o hsolved
  · have hnow : m.Resolves c (Known (before.foldl m.solveStep solved)) o :=
      ⟨hresolves.equality, hresolves.inside, hsolved, hresolves.unit, fun p hp hne hcoeff =>
        hkept p (hknown p (hresolves.sole p hp hne hcoeff))⟩
    cases m.solveStep_cases (before.foldl m.solveStep solved) c with
    | inr hnone => exact absurd hnow (hnone.1 o)
    | inl hsome =>
      obtain ⟨p, hp, hset⟩ := hsome
      -- No other output is left open in the constraint.
      have hsame : p = o := by
        by_contra hne
        refine hp.fresh (hnow.sole p hp.inside hne fun hzero => ?_)
        have hunit := hp.unit
        rw [hzero] at hunit
        cases hunit
      rw [hset, hsame]
      apply (known_set ?_).mpr (.inl rfl)
      rw [hreached.length]
      exact hresolves.inside

end Progress

theorem solveRounds_succ (m : Relation) (n : Nat) (solved : List (Option Affine)) :
    m.solveRounds (n + 1) solved = m.cons.foldl m.solveStep (m.solveRounds n solved) := by
  induction n generalizing solved with
  | zero => rfl
  | succ n ih => exact ih (m.cons.foldl m.solveStep solved)

/-- As many rounds as there are outputs to determine solve them all, whatever order their equalities
stand in. -/
theorem InTurn.known (hm : m.Regular) (hlocals : m.locals = 0) {order : List Nat} (h : m.InTurn order) :
    ∀ n, order.length ≤ n →
      ∀ o ∈ order, Known (m.solveRounds n (List.replicate m.outputs none)) o := by
  induction h with
  | nil =>
    intro n _ o ho
    cases ho
  | @cons known c o hknown hc hresolves ih =>
    intro n hn p hp
    cases n with
    | zero => cases hn
    | succ n =>
      have hle : known.length ≤ n := Nat.le_of_succ_le_succ hn
      obtain ⟨hprogress, -⟩ := (Progress.initial m).rounds hm hlocals n
      rw [solveRounds_succ]
      cases hp with
      | head => exact hprogress.known_of_round hm hlocals (ih n hle) hc hresolves
      | tail _ hp => exact (hprogress.foldl hm hlocals m.cons fun c hc => hc).2 p (ih n hle p hp)

/-! ### Mappings -/

private theorem findIdx?_isNone_iff :
    solved.findIdx? (·.isNone) = none ↔ ∀ o, o < solved.length → Known solved o := by
  rw [List.findIdx?_eq_none_iff]
  constructor
  · intro h o ho
    rw [Known, List.getD_eq_getElem?_getD, List.getElem?_eq_getElem ho]
    exact Option.isNone_eq_false_iff.mp (h solved[o] (List.getElem_mem ho))
  · intro h row hrow
    obtain ⟨o, ho, rfl⟩ := List.getElem_of_mem hrow
    have hknown := h o ho
    rw [Known, List.getD_eq_getElem?_getD, List.getElem?_eq_getElem ho] at hknown
    exact Option.isNone_eq_false_iff.mpr hknown

private theorem map_some_filterMap (h : ∀ row ∈ solved, row.isSome = true) :
    (solved.filterMap id).map some = solved := by
  induction solved with
  | nil => rfl
  | cons row rows ih =>
    have hrest := ih fun r hr => h r (List.mem_cons_of_mem _ hr)
    cases row with
    | none => cases h none List.mem_cons_self
    | some a =>
      show some a :: (rows.filterMap id).map some = some a :: rows
      rw [hrest]

/-- The rows that the equalities of a simplified relation give. -/
private def solution (m : Relation) : List (Option Affine) :=
  m.simplify.solveRounds m.outputs (List.replicate m.outputs none)

private theorem progress_solution (hm : m.Regular) (hlocals : m.simplify.locals = 0) :
    m.simplify.Progress m.solution :=
  ((Progress.initial m.simplify).rounds (regular_simplify hm) hlocals m.outputs).1

private theorem mapping_eq_ok_iff {g : Mapping} : m.mapping = .ok g ↔
    m.simplify.locals = 0 ∧ m.solution.findIdx? (·.isNone) = none ∧
      g = ⟨m.inputs, m.solution.filterMap id⟩ := by
  simp only [mapping]
  split
  · rename_i hlocals
    simp [hlocals.ne']
  · rename_i hlocals
    have hzero : m.simplify.locals = 0 := by omega
    split
    · rename_i o hnone
      have hfind : m.solution.findIdx? (·.isNone) = some o := hnone
      simp [hfind]
    · rename_i hnone
      have hfind : m.solution.findIdx? (·.isNone) = none := hnone
      constructor
      · intro h
        exact ⟨hzero, hfind, (Except.ok.inj h).symm⟩
      · intro h
        exact congrArg Except.ok h.2.2.symm

/-- A mapping has a row for every output. At a pair that is related, it gives the output from the inputs. -/
theorem row_of_mapping (hm : m.Regular) {g : Mapping} (hg : m.mapping = .ok g) :
    g.rows.length = m.outputs ∧ ∀ x y : Nat → Int, m.Links x y → ∀ o row, g.rows[o]? = some row →
      row.vars = m.inputs ∧ y o = row.valueAt x := by
  obtain ⟨hlocals, hfind, rfl⟩ := mapping_eq_ok_iff.mp hg
  have hprogress := progress_solution hm hlocals
  have hrows : (m.solution.filterMap id).map some = m.solution := by
    apply map_some_filterMap
    intro row hrow
    exact Option.isNone_eq_false_iff.mp (List.findIdx?_eq_none_iff.mp hfind row hrow)
  have hlength : (m.solution.filterMap id).length = m.outputs := by
    have hboth := congrArg List.length hrows
    rw [List.length_map, hprogress.length] at hboth
    exact hboth
  refine ⟨hlength, fun x y hxy o row ho => ?_⟩
  have hsolved : m.solution.getD o none = some row := by
    rw [← hrows, List.getD_eq_getElem?_getD, List.getElem?_map, ho]
    rfl
  obtain ⟨w, hwx, hwy, hw⟩ := (links_simplify hm).mpr hxy
  have hinside : o < m.outputs := by
    rw [← hlength]
    exact (List.getElem?_eq_some_iff.mp ho).1
  obtain ⟨hvars, hvalue⟩ := hprogress.explains w hw o row hsolved
  refine ⟨hvars, ?_⟩
  have hinputs : row.valueAt w = row.valueAt x := Affine.valueAt_congr_of_lt hvars.le hwx
  rw [← hwy o hinside, ← hinputs]
  exact hvalue

/-- A mapping that is found is the function which the relation embodies, and one is found exactly when
no locals remain and the equalities determine the outputs one after the other. -/
theorem mapping_exact (m : Relation) (hm : m.Regular) :
    (∀ g, m.mapping? = .ok (.ok g) → ∀ x y, m.Relates x y → g.eval? x = .ok y) ∧
    ((∃ g, m.mapping? = .ok (.ok g)) ↔ m.simplify.locals = 0 ∧ m.simplify.Solvable) := by
  have hguard : m.mapping? = .ok m.mapping := by
    have hregular : m.isRegular = .ok () := PointSet.isRegular_eq_ok (regular_pairs.mpr hm)
    rw [mapping?, hregular]
    rfl
  simp only [hguard, Except.ok.injEq]
  constructor
  · intro g hg x y hxy
    obtain ⟨hlength, hrows⟩ := row_of_mapping hm hg
    obtain ⟨hx, hy, hlinks⟩ := (relates_iff hm).mp hxy
    apply Outcome.mapM_eq_ok
    rw [List.forall₂_iff_get]
    refine ⟨hlength.trans hy.symm, fun o ho ho' => ?_⟩
    obtain ⟨hvars, hvalue⟩ := hrows _ _ hlinks o _ (List.getElem?_eq_getElem ho)
    have heval : g.rows[o].eval? x = .ok (g.rows[o].eval x) := by
      simp [Affine.eval?, hx, hvars]
    rw [List.get_eq_getElem, List.get_eq_getElem, heval, Affine.eval_eq_valueAt, ← hvalue]
    simp [valuation, ho']
  · constructor
    · intro h
      obtain ⟨g, hg⟩ := h
      obtain ⟨hlocals, hfind, -⟩ := mapping_eq_ok_iff.mp hg
      have hprogress := progress_solution hm hlocals
      obtain ⟨order, hturn, horder⟩ := hprogress.ordered
      refine ⟨hlocals, order, hturn, fun o ho => (horder o).mpr ?_⟩
      apply findIdx?_isNone_iff.mp hfind
      rwa [hprogress.length]
    · intro h
      obtain ⟨hlocals, order, hturn, hall⟩ := h
      have hprogress := progress_solution hm hlocals
      refine ⟨_, mapping_eq_ok_iff.mpr ⟨hlocals, findIdx?_isNone_iff.mpr fun o ho => ?_, rfl⟩⟩
      rw [hprogress.length] at ho
      exact hturn.known (regular_simplify hm) hlocals m.outputs hturn.length_le o (hall o ho)

/-- The points one below the input and three times that, as long as they are not negative. -/
def tripled : Relation :=
  ⟨"C", "A", 1, 2, 0, [.zero ⟨[-1, 1, 0], 1⟩, .zero ⟨[0, -3, 1], 0⟩, .atLeast ⟨[0, 1, 0], 0⟩]⟩

theorem mapping_exact_tripled : tripled.Regular ∧ ∃ g, tripled.mapping? = .ok (.ok g) ∧
    tripled.Relates [5] [4, 12] ∧ g.eval? [5] = .ok [4, 12] ∧ tripled.simplify.Solvable := by
  have hregular : tripled.Regular := by
    show ∀ c ∈ tripled.cons, c.vars = tripled.vars
    decide
  have hrelates : tripled.Relates [5] [4, 12] := ⟨rfl, rfl, [], rfl, by decide⟩
  obtain ⟨heval, hsolvable⟩ := mapping_exact tripled hregular
  have hfound : (Outcome.passes tripled.mapping? fun g => Outcome.passes g fun _ => true) = true := by
    decide +kernel
  obtain ⟨_, hguard, hfound⟩ := Outcome.exists_of_passes hfound
  obtain ⟨g, rfl, -⟩ := Outcome.exists_of_passes hfound
  exact ⟨hregular, g, hguard, hrelates, heval g hguard [5] [4, 12] hrelates, (hsolvable.mp ⟨g, hguard⟩).2⟩

end Relation

end StreamLoom
