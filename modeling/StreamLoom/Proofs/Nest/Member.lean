import StreamLoom.Proofs.Nest.Loops
import StreamLoom.Proofs.Schedule.Time

/-!
# Statements at a step

The part of a loop over time that belongs to a statement visits the points of the statement at the
current step. The carrier is recovered from the step, when the step is one that the carrier reaches at
all. Constraints on the carrier alone are looked after by the steps between which the statement is
active.
-/

namespace StreamLoom.Nest

attribute [local instance] Arithmetic.exact

open StreamLoom.System (Solves Over)

/-- What loops rely on in a placement. -/
structure Coherent (p : Placement) : Prop where
  regular : p.domain.Regular
  locals : p.domain.locals = 0
  carrier : ∀ c, p.carrier = some c → c < p.dims
  scale : 0 < p.scale

/-- A statement of a phase is active for as long as it has points. -/
structure Member.Sound (m : Member) : Prop extends Coherent m.placement where
  active : ∃ interval, m.placement.domain.bound m.placement.leading = some interval ∧
    interval.ends? = some (m.first, m.last)

namespace Member.Sound

variable {m : Member} {x : Nat → Int} {t : Int}

/-- A statement has no points before or after it is active. -/
theorem thetaAt_bounds (hm : m.Sound) (hx : Solves x m.placement.domain.cons) :
    m.first ≤ m.placement.thetaAt x ∧ m.placement.thetaAt x ≤ m.last := by
  obtain ⟨interval, hbound, hends⟩ := hm.active
  obtain ⟨interval', hbound', hcontains⟩ := PointSet.bound_of_has hm.regular Placement.vars_leading
    (PointSet.has_of_solves hx)
  rw [hbound] at hbound'
  obtain rfl := Option.some.inj hbound'
  rw [Interval.contains_of_ends? hends, Placement.valueAt_leading hm.carrier] at hcontains
  exact hcontains

private theorem valueAt_leading_rat (hm : m.Sound) {c : Nat} (hc : m.placement.carrier = some c)
    (y : Nat → ℚ) :
    m.placement.leading.valueAt y = (m.placement.scale : ℚ) * y c + m.placement.delay := by
  unfold Placement.leading
  rw [hc]
  simp [Affine.valueAt_var (hm.carrier c hc)]

theorem thetaAt_of_none (hm : m.Sound) (hnone : m.placement.carrier = none) (hfirst : m.first ≤ t)
    (hlast : t ≤ m.last) (x : Nat → Int) : m.placement.thetaAt x = t := by
  obtain ⟨interval, hbound, hends⟩ := hm.active
  obtain ⟨y, -, hvalue⟩ := PointSet.exists_solves_of_bound hm.regular Placement.vars_leading hbound
    ((Interval.contains_of_ends? hends).mpr ⟨hfirst, hlast⟩)
  have hdelay : m.placement.leading.valueAt y = (m.placement.delay : ℚ) := by
    unfold Placement.leading
    rw [hnone]
    simp
  rw [hdelay] at hvalue
  rw [Placement.thetaAt, hnone]
  change 0 + m.placement.delay = t
  rw [zero_add]
  exact_mod_cast hvalue

/-- While a statement is active, its points satisfy the constraints on the carrier alone. -/
theorem admits_of_thetaAt (hm : m.Sound) (hfirst : m.first ≤ t) (hlast : t ≤ m.last)
    (hx : m.placement.thetaAt x = t) {c : Constraint} (hc : c ∈ m.placement.domain.cons)
    (hsupport : ∀ v, c.coeff v ≠ 0 → v ∈ m.placement.carrier.toList) : c.Admits x := by
  obtain ⟨interval, hbound, hends⟩ := hm.active
  obtain ⟨y, hy, hvalue⟩ := PointSet.exists_solves_of_bound hm.regular Placement.vars_leading hbound
    ((Interval.contains_of_ends? hends).mpr ⟨hfirst, hlast⟩)
  refine (Constraint.admits_intCast c x).mp ((Constraint.admits_congr fun v hv => ?_).mp (hy c hc))
  have hmem := hsupport v hv
  cases hcarrier : m.placement.carrier with
  | none =>
    rw [hcarrier] at hmem
    simp at hmem
  | some k =>
    rw [hcarrier] at hmem
    obtain rfl : v = k := by simpa using hmem
    -- Both points are at the same step, and so are their carriers.
    have hstep : m.placement.scale * x v + m.placement.delay = t := by
      rw [← hx, Placement.thetaAt, hcarrier]
      rfl
    rw [hm.valueAt_leading_rat hcarrier, ← hstep] at hvalue
    push_cast at hvalue
    have hscale : (m.placement.scale : ℚ) ≠ 0 := by exact_mod_cast hm.scale.ne'
    exact mul_left_cancel₀ hscale (by linarith)

end Member.Sound

/-! ### Conditions -/

theorem allHold_append {env : Env} {cs ds : List Condition} {a b : Bool}
    (hcs : Condition.allHold env cs = .ok a) (hds : Condition.allHold env ds = .ok b) :
    Condition.allHold env (cs ++ ds) = .ok (a && b) := by
  induction cs with
  | nil =>
    cases hcs
    exact hds
  | cons c cs ih =>
    rw [Condition.allHold] at hcs
    obtain ⟨holds, hholds, hrest⟩ := Outcome.bind_eq_ok hcs
    rw [List.cons_append, Condition.allHold, hholds]
    cases holds with
    | true => exact ih hrest
    | false =>
      cases hrest
      rfl

private theorem allHold_single {env : Env} {c : Condition} {l r : Int} (hl : c.left.eval env = .ok l)
    (hr : c.right.eval env = .ok r) : Condition.allHold env [c] = .ok (c.op.holds l r) := by
  rw [Condition.allHold, Condition.holds, hl, hr]
  change (if c.op.holds l r then _ else _) = _
  cases c.op.holds l r <;> rfl

def atStep (t : Int) : Env := [(timeName, t)]

theorem eval_timeName (t : Int) : (Expr.name timeName).eval (atStep t) = .ok t :=
  eval_name (by simp [atStep])

/-- The conditions that restrict a loop to the steps at which a statement is active. -/
def activeConditions (m : Member) (first last : Int) : List Condition :=
  (if m.first > first then [⟨.name timeName, .ge, .int m.first⟩] else []) ++
    (if m.last < last then [⟨.name timeName, .le, .int m.last⟩] else [])

theorem allHold_activeConditions {m : Member} {first last t : Int} (hfirst : first ≤ t)
    (hlast : t ≤ last) :
    Condition.allHold (atStep t) (activeConditions m first last) =
      .ok (decide (m.first ≤ t) && decide (t ≤ m.last)) := by
  refine allHold_append ?_ ?_
  · split
    · exact allHold_single (eval_timeName t) rfl
    · have hactive : m.first ≤ t := by omega
      simp [Condition.allHold, hactive]
  · split
    · exact allHold_single (eval_timeName t) rfl
    · have hactive : t ≤ m.last := by omega
      simp [Condition.allHold, hactive]

theorem eval_subtract {env : Env} {e : Expr} {a : Int} (he : e.eval env = .ok a) (c : Int) :
    (subtract e c).eval env = .ok (a - c) := by
  unfold subtract
  split
  · rw [eval_binary he rfl, Operation.eval, Arithmetic.fit_exact]
  · split
    · rw [eval_binary he rfl, Operation.eval, Arithmetic.fit_exact, Arithmetic.fit_exact, sub_eq_add_neg]
    · have hzero : c = 0 := by omega
      rw [he, hzero, sub_zero]

/-- The carrier is recovered from the steps that it reaches. -/
theorem carrierAt_spec {p : Placement} (hscale : 0 < p.scale) (t : Int) :
    Condition.allHold (atStep t) (carrierAt p).1 = .ok (decide (p.scale ∣ t - p.delay)) ∧
      (carrierAt p).2.eval (atStep t) = .ok ((t - p.delay) / p.scale) := by
  have hoffset := eval_subtract (eval_timeName t) p.delay
  unfold carrierAt
  dsimp only
  split
  · have hne : (p.scale != 0) = true := by simpa using hscale.ne'
    constructor
    · have hmod : (Expr.binary .mod (subtract (.name timeName) p.delay) (.int p.scale)).eval (atStep t) =
          .ok ((t - p.delay) % p.scale) := by
        rw [eval_binary hoffset rfl]
        simp [Operation.eval, Arithmetic.residue?, Arithmetic.residue, Arithmetic.nonzero, hne, bind,
          Except.bind, pure, Except.pure]
      rw [allHold_single hmod rfl]
      simp only [Comparison.holds, Int.dvd_iff_emod_eq_zero]
      rw [Bool.beq_eq_decide_eq]
    · rw [eval_binary hoffset rfl]
      simp [Operation.eval, Arithmetic.floorDiv?, Arithmetic.floorDiv, Arithmetic.nonzero, hne,
        Int.fdiv_eq_ediv_of_nonneg _ hscale.le, bind, Except.bind, pure, Except.pure]
  · have hone : p.scale = 1 := by omega
    rw [hoffset, hone]
    simp [Condition.allHold]

/-! ### Nodes of members -/

/-- A body under conditions, of which there may be none. -/
private theorem execute_conditional {env : Env} {conditions : List Condition} {body : List Node} {b : Bool}
    {P : Visit → Prop} {R : Visit → Visit → Prop} (hconditions : Condition.allHold env conditions = .ok b)
    (h : b = true → (Node.executeAll env body).Makes () P R) :
    (Node.execute env (if conditions.isEmpty then .block body else .guarded conditions body)).Makes env
      (fun v => b = true ∧ P v) R := by
  split
  · rename_i hempty
    obtain rfl : conditions = [] := List.isEmpty_iff.mp hempty
    obtain rfl : true = b := Except.ok.inj hconditions
    exact (Node.execute_block (h rfl)).congr fun v => by simp
  · exact Node.execute_guarded hconditions h

variable {m : Member} {first last t : Int} {node : Node}

/-- What is required of the current step for the carrier to reach it. -/
def alignedConditions (p : Placement) : List Condition := p.carrier.elim [] fun _ => (carrierAt p).1

def Reached (p : Placement) (t : Int) : Prop := ∀ c, p.carrier = some c → p.scale ∣ t - p.delay

private theorem memberNode_cases (h : memberNode m first last = .ok node) :
    ∃ inner, innerLoops m.placement.domain (visiting m.statement m.name m.placement.dims)
        m.placement.carrier.toList m.placement.inner = .ok inner ∧
      node = if (activeConditions m first last ++ alignedConditions m.placement).isEmpty
        then .block ((m.placement.carrier.elim [] fun c =>
          [Node.assign (iteratorName c) (carrierAt m.placement).2]) ++ [inner])
        else .guarded (activeConditions m first last ++ alignedConditions m.placement)
          ((m.placement.carrier.elim [] fun c =>
            [Node.assign (iteratorName c) (carrierAt m.placement).2]) ++ [inner]) := by
  unfold memberNode at h
  dsimp only at h
  obtain ⟨inner, hinner, h⟩ := Outcome.bind_eq_ok h
  refine ⟨inner, Outcome.mapError_eq_ok hinner, ?_⟩
  rw [← Except.ok.inj h, alignedConditions]
  cases m.placement.carrier <;> rfl

private theorem allHold_alignedConditions {p : Placement} (hscale : 0 < p.scale) (t : Int) :
    ∃ b, Condition.allHold (atStep t) (alignedConditions p) = .ok b ∧ (b = true ↔ Reached p t) := by
  unfold alignedConditions Reached
  cases p.carrier with
  | none => exact ⟨true, rfl, by simp⟩
  | some c => exact ⟨_, (carrierAt_spec hscale t).1, by simp⟩

theorem mem_carrier_append_inner (p : Placement) (hcarrier : ∀ c, p.carrier = some c → c < p.dims)
    (d : Nat) : d ∈ p.carrier.toList ++ p.inner ↔ d < p.dims := by
  cases hc : p.carrier with
  | none => simp [Placement.inner, Placement.innerOf, hc]
  | some c =>
    have hlt := hcarrier c hc
    by_cases hd : d = c
    · simp [hd, hlt]
    · simp [Placement.inner, Placement.innerOf, hc, hd, Ne.symm hd]

theorem nodup_carrier_append_inner (p : Placement) : (p.carrier.toList ++ p.inner).Nodup := by
  have hinner : p.inner.Nodup := List.nodup_range.filter _
  cases hc : p.carrier with
  | none => simpa using hinner
  | some c =>
    refine List.nodup_cons.mpr ⟨?_, hinner⟩
    simp [Placement.inner, Placement.innerOf, hc]

/-- At a step that the carrier reaches, the body of a member visits the points whose carrier is the one
at that step. -/
private theorem execute_body (hm : m.Sound) (hreached : Reached m.placement t) {inner : Node}
    (hinner : innerLoops m.placement.domain (visiting m.statement m.name m.placement.dims)
      m.placement.carrier.toList m.placement.inner = .ok inner) :
    (Node.executeAll (atStep t) ((m.placement.carrier.elim [] fun c =>
        [Node.assign (iteratorName c) (carrierAt m.placement).2]) ++ [inner])).Makes ()
      (Visits m.statement m.name m.placement.dims fun y =>
        (∀ c, m.placement.carrier = some c → m.placement.thetaAt y = t) ∧
          Fits m.placement.domain m.placement.carrier.toList m.placement.inner y)
      fun v w => m.placement.inner.map v.at < m.placement.inner.map w.at := by
  have hdims := mem_carrier_append_inner m.placement hm.carrier
  have hnodup := nodup_carrier_append_inner m.placement
  cases hc : m.placement.carrier with
  | none =>
    rw [hc] at hinner hdims hnodup
    have hbinds : Binds (atStep t) (none : Option Nat).toList fun _ => 0 := by simp [Binds]
    have hloops := execute_innerLoops hm.regular hinner hnodup hdims hbinds
    refine (Node.executeAll_singleton hloops).congr fun v => ?_
    simp [Visits]
  | some c =>
    rw [hc] at hinner hdims hnodup
    have hvalue := (carrierAt_spec hm.scale t).2
    have hbinds : Binds ((iteratorName c, (t - m.placement.delay) / m.placement.scale) :: atStep t)
        [c] fun _ => (t - m.placement.delay) / m.placement.scale := by
      intro d hd
      obtain rfl := List.mem_singleton.mp hd
      simp
    have hloops := execute_innerLoops hm.regular hinner hnodup hdims hbinds
    have hexact := Int.mul_ediv_cancel' (hreached c hc)
    refine (Node.executeAll_assign hvalue (Node.executeAll_singleton hloops)).congr fun v => ?_
    have hcarried : ∀ y : Nat → Int, (∀ e ∈ (some c).toList,
        y e = (t - m.placement.delay) / m.placement.scale) ↔
        ∀ k, some c = some k → m.placement.thetaAt y = t := by
      intro y
      have htheta : m.placement.thetaAt y = m.placement.scale * y c + m.placement.delay := by
        rw [Placement.thetaAt, hc]
        rfl
      simp only [Option.toList_some, List.forall_mem_singleton, Option.some.injEq, forall_eq', htheta]
      constructor
      · intro hy
        rw [hy]
        omega
      · intro hy
        refine mul_left_cancel₀ hm.scale.ne' ?_
        omega
    simp only [Visits, hcarried]

/-- The node of a member visits the points of its statement at the current step, in the order of their
inner dimensions. -/
theorem execute_memberNode (hm : m.Sound) (h : memberNode m first last = .ok node) (hfirst : first ≤ t)
    (hlast : t ≤ last) :
    (node.execute (atStep t)).Makes (atStep t)
      (Visits m.statement m.name m.placement.dims fun y =>
        Solves y m.placement.domain.cons ∧ m.placement.thetaAt y = t)
      fun v w => m.placement.inner.map v.at < m.placement.inner.map w.at := by
  obtain ⟨inner, hinner, rfl⟩ := memberNode_cases h
  obtain ⟨aligned, haligned, hreached⟩ := allHold_alignedConditions hm.scale t
  have hconditions := allHold_append (allHold_activeConditions (m := m) hfirst hlast) haligned
  have hdims := mem_carrier_append_inner m.placement hm.carrier
  have hnodup := nodup_carrier_append_inner m.placement
  refine (execute_conditional hconditions fun hb =>
    execute_body hm (hreached.mp (Bool.and_eq_true_iff.mp hb).2) hinner).congr fun v => ⟨?_, ?_⟩
  · rintro ⟨hb, y, rfl, hlength, hcarried, hfits⟩
    simp only [Bool.and_eq_true, decide_eq_true_eq] at hb
    obtain ⟨⟨hlow, hhigh⟩, -⟩ := hb
    have htheta : m.placement.thetaAt (valuation y) = t := by
      cases hc : m.placement.carrier with
      | some c => exact hcarried c hc
      | none => exact hm.thetaAt_of_none hc hlow hhigh _
    refine ⟨y, rfl, hlength, ?_, htheta⟩
    exact solves_of_fits hm.regular hm.locals hinner hnodup hdims
      (fun c hc hsupport => hm.admits_of_thetaAt hlow hhigh htheta hc hsupport) hfits
  · rintro ⟨y, rfl, hlength, hy, htheta⟩
    obtain ⟨hlow, hhigh⟩ := hm.thetaAt_bounds hy
    rw [htheta] at hlow hhigh
    have haligned : aligned = true := by
      refine hreached.mpr fun c hc => ⟨valuation y c, ?_⟩
      rw [← htheta, Placement.thetaAt, hc, add_sub_cancel_right]
      rfl
    refine ⟨by simp [hlow, hhigh, haligned], y, rfl, hlength, fun _ _ => htheta, ?_⟩
    exact fits_of_solves hm.regular hnodup hy

end StreamLoom.Nest
