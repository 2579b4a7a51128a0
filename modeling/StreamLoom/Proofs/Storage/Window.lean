import StreamLoom.Proofs.Schedule.Time
import StreamLoom.Storage.Requirement

/-!
# Windows of interfering writes

An element that is written while another one waits to be read lies in the window of the two. The
window is put together from what the phases, the steps, the orders and the inner dimensions of three
instances say, and each of these is read off the times of the points. What a requirement asks for is
then an upper bound for the distance of two elements along the carrier.
-/

namespace StreamLoom

attribute [local instance] Arithmetic.exact

open StreamLoom.System (Solves Over)

/-! ### Executions -/

/-- A point of a statement, together with the instance that executes it. -/
structure Execution (m : Model) (s : Schedule) where
  number : Nat
  statement : Statement
  point : Nat → Int
  placement : Placement
  isSteady : Bool
  domain : PointSet
  placed : (if isSteady then s.steady else s.prologue).placement? number = some placement
  made : Instance.ofPlacement number isSteady domain placement ∈ Instance.ofStatement m s number
  regular : domain.Regular
  dims : domain.dims = statement.dims
  placementDims : placement.dims = statement.dims
  carrier : ∀ c, placement.carrier = some c → c < placement.dims
  has : domain.Has point
  started : isSteady = true → 0 ≤ placement.thetaAt point

namespace Execution

variable {m : Model} {s : Schedule}

def unit (e : Execution m s) : Instance := .ofPlacement e.number e.isSteady e.domain e.placement

def time (e : Execution m s) : List Int :=
  if e.isSteady then s.lateTime e.placement e.point else s.earlyTime e.placement e.point

theorem exists_of_occurs (hs : s.Consistent m) (hm : m.Proper) {i : Nat} {x t : List Int}
    (h : s.Occurs m i x t) :
    ∃ e : Execution m s, e.number = i ∧ m.statements[i]? = some e.statement ∧
      e.point = valuation x ∧ e.time = t ∧ x.length = e.statement.dims ∧
      Solves (valuation x) e.statement.domain.cons := by
  rcases h with ⟨hst, hp, hearly, hlength, hx⟩ | ⟨hst, hp, hlate, hlength, hx, hfrom⟩
  · rename_i st p
    obtain ⟨-, hregular, -⟩ := hm st (List.mem_of_getElem? hst)
    have hdims : p.dims = st.dims := by rw [Placement.dims, hearly.domain, Schedule.dims_earlyDomain]
    have hdomain : p.domain.Regular := by
      rw [hearly.domain]
      exact Schedule.regular_earlyDomain s hregular
    have hhas : p.domain.Has (valuation x) := by
      rw [hearly.domain]
      exact PointSet.has_of_solves hx
    have hinside : Solves (valuation x) st.domain.cons := by
      unfold Schedule.earlyDomain at hx
      split at hx
      · exact (PointSet.solves_constrain.mp hx).1
      · exact hx
    let e : Execution m s := {
      number := i, statement := st, point := valuation x, placement := p, isSteady := false
      domain := p.domain, placed := hp, made := by simp [Instance.ofStatement, hp]
      regular := hdomain, dims := hdims, placementDims := hdims
      carrier := by rw [hdims]; exact hearly.carrier
      has := hhas, started := by rintro ⟨⟩ }
    exact ⟨e, rfl, hst, rfl, rfl, hlength, hinside⟩
  · rename_i st p flow
    obtain ⟨-, hregular, -⟩ := hm st (List.mem_of_getElem? hst)
    have hflow : s.flow i = flow := by rw [hs.flows i st hst, hlate.flows, Option.getD_some]
    have hover : Over st.domain.dims
        [.le (.constant st.dims (s.offset i)) (.var st.dims (s.flow i))] := by
      intro c hc
      obtain rfl := List.mem_singleton.mp hc
      simp [Statement.dims]
    have hhas : (Instance.steadyDomain s st i).Has (valuation x) := by
      refine PointSet.has_of_solves (PointSet.solves_constrain.mpr ⟨hx, ?_⟩)
      rw [hflow, System.solves_cons, Constraint.admits_le (by simp), Affine.valueAt_var hlate.inside]
      exact ⟨by simpa using hfrom, by simp⟩
    have hcarrier : ∀ c, p.carrier = some c → c < p.dims := by
      intro c hc
      rw [hlate.carrier] at hc
      obtain rfl := Option.some.inj hc
      rw [hlate.dims_eq]
      exact hlate.inside
    let e : Execution m s := {
      number := i, statement := st, point := valuation x, placement := p, isSteady := true
      domain := Instance.steadyDomain s st i, placed := hp
      made := by simp [Instance.ofStatement, hp, hst]
      regular := PointSet.regular_constrain hregular hover, dims := rfl
      placementDims := hlate.dims_eq, carrier := hcarrier, has := hhas
      started := fun _ => (hlate.thetaAt_nonneg_iff _).mpr hfrom }
    exact ⟨e, rfl, hst, rfl, rfl, hlength, hx⟩

variable {e f : Execution m s}

theorem vars_theta (e : Execution m s) : e.unit.theta.vars = e.statement.dims := by
  rw [← e.placementDims]
  exact Placement.vars_leading

theorem valueAt_theta (e : Execution m s) : e.unit.theta.valueAt e.point = e.placement.thetaAt e.point :=
  Placement.valueAt_leading e.carrier _

/-- The steady state is not followed by the prologue. -/
theorem isSteady_of_lt (hs : s.Consistent m) (hlt : e.time < f.time) (hsteady : e.isSteady = true) :
    f.isSteady = true := by
  by_contra hnot
  have hp := e.placed
  rw [if_pos hsteady] at hp
  rw [time, time, if_pos hsteady, if_neg hnot] at hlt
  obtain ⟨_, flow, -, hlate⟩ := hs.late e.number e.placement hp
  have hafter := (hlate.thetaAt_nonneg_iff e.point).mp (e.started hsteady)
  exact absurd hlt (List.lt_asymm (Schedule.earlyTime_lt_lateTime hlate f.point hafter))

/-- In one phase, the times of the placements decide. -/
theorem timeAt_lt_of_lt (hs : s.Consistent m) (hlt : e.time < f.time)
    (hphase : e.isSteady = f.isSteady) :
    e.placement.timeAt e.point < f.placement.timeAt f.point := by
  have hp := e.placed
  have hq := f.placed
  rw [← hphase] at hq
  rw [time, time, ← hphase] at hlt
  cases hsteady : e.isSteady with
  | true =>
    simp only [hsteady, if_true] at hp hq hlt
    exact (Schedule.lateTime_lt_lateTime_iff hs hp hq _ _).mp hlt
  | false =>
    simp only [hsteady] at hp hq hlt
    exact (Schedule.earlyTime_lt_earlyTime_iff hs hp hq _ _).mp hlt

/-- In one phase, the order of statements is strict. -/
theorem eq_of_order (hs : s.Consistent m) (hphase : e.isSteady = f.isSteady)
    (horder : e.placement.order = f.placement.order) : e.number = f.number := by
  have hp := e.placed
  have hq := f.placed
  rw [← hphase] at hq
  cases hsteady : e.isSteady with
  | true =>
    simp only [hsteady, if_true] at hp hq
    exact hs.lateOrder _ _ _ _ hp hq horder
  | false =>
    simp only [hsteady] at hp hq
    exact hs.earlyOrder _ _ _ _ hp hq horder

/-- In one phase, a statement has one placement. -/
theorem eq_of_number (hphase : e.isSteady = f.isSteady) (hnumber : e.number = f.number) :
    e.placement = f.placement := by
  have hp := e.placed
  rw [hphase, hnumber, f.placed] at hp
  exact (Option.some.inj hp).symm

/-- A point that comes first takes no later a step, and an earlier one unless its statement comes
first as well. -/
theorem thetaAt_of_lt (hs : s.Consistent m) (hlt : e.time < f.time) (hphase : e.isSteady = f.isSteady) :
    e.placement.thetaAt e.point ≤ f.placement.thetaAt f.point ∧
      (e.number ≠ f.number → ¬ e.placement.order < f.placement.order →
        e.placement.thetaAt e.point < f.placement.thetaAt f.point) := by
  have htime := timeAt_lt_of_lt hs hlt hphase
  simp only [Placement.timeAt, List.cons_lt_cons_iff, Int.ofNat_lt, Nat.cast_inj] at htime
  rcases htime with htheta | ⟨htheta, horder | ⟨horder, -⟩⟩
  · exact ⟨htheta.le, fun _ _ => htheta⟩
  · exact ⟨htheta.le, fun _ hnot => absurd horder hnot⟩
  · exact ⟨htheta.le, fun hne _ => absurd (eq_of_order hs hphase horder) hne⟩

end Execution

/-! ### Pieces of a window -/

namespace Requirement

/-- A set over `n` dimensions has a point. -/
structure Covers (n : Nat) (w : Nat → Int) (piece : PointSet) : Prop where
  regular : piece.Regular
  dims : piece.dims = n
  has : piece.Has w

variable {n start : Nat} {w : Nat → Int} {piece : PointSet}

theorem Covers.constrain (h : Covers n w piece) {cs : List Constraint} (hcs : Over n cs)
    (hsolves : Solves w cs) : Covers n w (piece.constrain cs) := by
  rw [← h.dims] at hcs
  exact ⟨PointSet.regular_constrain h.regular hcs, h.dims, (PointSet.has_constrain hcs).mpr ⟨h.has, hsolves⟩⟩

theorem Covers.le (h : Covers n w piece) {l r : Affine} (hl : l.vars = n) (hr : r.vars = n)
    (hle : l.valueAt w ≤ r.valueAt w) : Covers n w (piece.constrain [.le l r]) := by
  refine h.constrain ?_ ?_
  · intro c hc
    obtain rfl := List.mem_singleton.mp hc
    simp [hl, hr]
  · rw [System.solves_cons, Constraint.admits_le (by rw [hl, hr])]
    exact ⟨hle, by simp⟩

theorem Covers.lt (h : Covers n w piece) {l r : Affine} (hl : l.vars = n) (hr : r.vars = n)
    (hlt : l.valueAt w < r.valueAt w) : Covers n w (piece.constrain [.lt l r]) := by
  refine h.constrain ?_ ?_
  · intro c hc
    obtain rfl := List.mem_singleton.mp hc
    simp [hl, hr]
  · rw [System.solves_cons, Constraint.admits_lt (by rw [hl, hr])]
    exact ⟨hlt, by simp⟩

theorem Covers.equal (h : Covers n w piece) {l r : Affine} (hl : l.vars = n) (hr : r.vars = n)
    (heq : l.valueAt w = r.valueAt w) : Covers n w (piece.constrain [.equal l r]) := by
  refine h.constrain ?_ ?_
  · intro c hc
    obtain rfl := List.mem_singleton.mp hc
    simp [hl, hr]
  · rw [System.solves_cons, Constraint.admits_equal (by rw [hl, hr])]
    exact ⟨heq, by simp⟩

/-- Points of one statement at the same step lie in the piece of the first dimension in which they
differ. -/
theorem exists_tie (start : Nat) (dims : List Nat) (hdims : ∀ d ∈ dims, d < n ∧ start + d < n)
    (h : Covers n w piece) (hlt : (dims.map fun d => w (start + d)) < dims.map w) :
    ∃ tie ∈ tiesBefore n start dims piece, Covers n w tie := by
  induction dims generalizing piece with
  | nil => exact absurd hlt (List.lt_irrefl [])
  | cons d dims ih =>
    obtain ⟨hd, hd'⟩ := hdims d (by simp)
    have hz := Affine.valueAt_var hd' w
    have hx := Affine.valueAt_var hd w
    rw [List.map_cons, List.map_cons, List.cons_lt_cons_iff] at hlt
    rcases hlt with hlt | ⟨heq, hlt⟩
    · exact ⟨_, List.mem_cons_self, h.lt (by simp) (by simp) (by rw [hz, hx]; exact hlt)⟩
    · obtain ⟨tie, htie, hcovers⟩ := ih (fun e he => hdims e (by simp [he]))
        (h.equal (by simp) (by simp) (hz.trans (heq.trans hx.symm))) hlt
      exact ⟨tie, List.mem_cons_of_mem _ htie, hcovers⟩

@[simp] theorem vars_shifted (a : Affine) : (shifted n start a).vars = n := by
  simp [shifted]

theorem valueAt_shifted {a : Affine} (ha : start + a.vars ≤ n) {x : Nat → Int}
    (hx : ∀ i, i < a.vars → w (start + i) = x i) : (shifted n start a).valueAt w = a.valueAt x := by
  have hplaces : ∀ p ∈ List.range' start a.vars, p < n := by
    intro p hp
    rw [List.mem_range'_1] at hp
    omega
  rw [shifted, Affine.valueAt_remap a n _ (by simp) hplaces]
  apply Affine.valueAt_congr_of_lt le_rfl
  intro i hi
  simpa [List.getD_eq_getElem?_getD, hi] using hx i hi

/-! ### Interfering writes -/

/-- A read of what a writer wrote, and another write in between, of an element that agrees with the
one which is read but for the carrier. -/
structure Interferes {m : Model} {s : Schedule} (pairs : Relation) (carrier : Nat)
    (reader writer other : Execution m s) : Prop where
  regular : pairs.Regular
  links : pairs.Links reader.point writer.point
  inputs : pairs.inputs = reader.statement.dims
  outputs : pairs.outputs = writer.statement.dims
  rank : other.statement.dims = writer.statement.dims
  later : writer.time < other.time
  sooner : other.time < reader.time
  inside : carrier < writer.statement.dims
  agrees : ∀ d, d < writer.statement.dims → d ≠ carrier → writer.point d = other.point d

namespace Interferes

variable {m : Model} {s : Schedule} {pairs : Relation} {carrier : Nat}
  {reader writer other : Execution m s}

/-- The coordinates of the three points, one after the other. -/
def joint (pairs : Relation) (reader writer other : Execution m s) : Nat → Int :=
  Relation.joined pairs.dims (Relation.joined pairs.inputs reader.point writer.point) other.point

theorem joint_reader (h : Interferes pairs carrier reader writer other) {d : Nat}
    (hd : d < reader.statement.dims) : joint pairs reader writer other d = reader.point d := by
  have hlt : d < pairs.inputs := by rw [h.inputs]; exact hd
  rw [joint, Relation.joined_of_lt (by simp only [Relation.dims]; omega), Relation.joined_of_lt hlt]

theorem joint_writer (h : Interferes pairs carrier reader writer other) {d : Nat}
    (hd : d < writer.statement.dims) :
    joint pairs reader writer other (pairs.inputs + d) = writer.point d := by
  have hlt : d < pairs.outputs := by rw [h.outputs]; exact hd
  rw [joint, Relation.joined_of_lt (by simp only [Relation.dims]; omega), Relation.joined_add]

theorem joint_other (d : Nat) :
    joint pairs reader writer other (pairs.dims + d) = other.point d := by
  rw [joint, Relation.joined_add]

private theorem covers_product (h : Interferes pairs carrier reader writer other) :
    Covers (pairs.dims + other.unit.domain.dims) (joint pairs reader writer other)
      (pairs.pairs.product other.unit.domain) := by
  refine ⟨PointSet.regular_product, rfl, ?_⟩
  have hregular : other.unit.domain.Regular := other.regular
  rw [PointSet.has_product (Relation.regular_pairs.mpr h.regular) hregular, Relation.has_pairs]
  constructor
  · refine (Relation.links_congr (fun i hi => ?_) fun o ho => ?_).mpr h.links
    · exact h.joint_reader (by rwa [← h.inputs])
    · exact h.joint_writer (by rwa [← h.outputs])
  · exact (PointSet.has_congr fun i _ => joint_other i).mpr other.has

private theorem covers_agreeing (h : Interferes pairs carrier reader writer other) (ds : List Nat)
    (hds : ∀ d ∈ ds, d < writer.statement.dims ∧ d ≠ carrier) {piece : PointSet}
    (hpiece : Covers (pairs.dims + other.unit.domain.dims) (joint pairs reader writer other) piece) :
    Covers (pairs.dims + other.unit.domain.dims) (joint pairs reader writer other)
      (ds.foldl (fun (w : PointSet) d => w.constrain
        [.equal (.var (pairs.dims + other.unit.domain.dims) (pairs.inputs + d))
          (.var (pairs.dims + other.unit.domain.dims) (pairs.dims + d))]) piece) := by
  have hunit : other.unit.domain.dims = writer.statement.dims := other.dims.trans h.rank
  have houtputs := h.outputs
  induction ds generalizing piece with
  | nil => exact hpiece
  | cons d ds ih =>
    obtain ⟨hd, hne⟩ := hds d (by simp)
    refine ih (fun e he => hds e (by simp [he])) (hpiece.equal (by simp) (by simp) ?_)
    rw [Affine.valueAt_var (by simp only [Relation.dims]; omega), Affine.valueAt_var (by omega),
      h.joint_writer hd, joint_other, h.agrees d hd hne]

private theorem theta_reader (h : Interferes pairs carrier reader writer other) :
    (shifted (pairs.dims + other.unit.domain.dims) 0 reader.unit.theta).valueAt
      (joint pairs reader writer other) = reader.placement.thetaAt reader.point := by
  have hinputs := h.inputs
  rw [← reader.valueAt_theta]
  refine valueAt_shifted ?_ fun d hd => ?_
  · rw [reader.vars_theta]
    simp only [Relation.dims]
    omega
  · rw [Nat.zero_add]
    exact h.joint_reader (by rwa [← reader.vars_theta])

private theorem theta_writer (h : Interferes pairs carrier reader writer other) :
    (shifted (pairs.dims + other.unit.domain.dims) pairs.inputs writer.unit.theta).valueAt
      (joint pairs reader writer other) = writer.placement.thetaAt writer.point := by
  have houtputs := h.outputs
  rw [← writer.valueAt_theta]
  refine valueAt_shifted ?_ fun d hd => ?_
  · rw [writer.vars_theta]
    simp only [Relation.dims]
    omega
  · exact h.joint_writer (by rwa [← writer.vars_theta])

private theorem theta_other :
    (shifted (pairs.dims + other.unit.domain.dims) pairs.dims other.unit.theta).valueAt
      (joint pairs reader writer other) = other.placement.thetaAt other.point := by
  rw [← other.valueAt_theta]
  refine valueAt_shifted ?_ fun d _ => joint_other d
  rw [other.vars_theta, ← other.dims]
  exact le_rfl

/-- The interfering write lies in the window. -/
theorem covers_window (hs : s.Consistent m) (h : Interferes pairs carrier reader writer other) :
    Covers (pairs.dims + other.unit.domain.dims) (joint pairs reader writer other)
      (window pairs writer.unit other.unit carrier) := by
  have hunit : other.unit.domain.dims = writer.statement.dims := other.dims.trans h.rank
  have hagreeing := h.covers_agreeing ((List.range other.unit.domain.dims).filter (· ≠ carrier))
    (fun d hd => by
      rw [hunit] at hd
      simpa using hd) h.covers_product
  simp only [window]
  split
  · exact hagreeing
  · rename_i hphase
    have hphase : writer.isSteady = other.isSteady := not_not.mp hphase
    obtain ⟨hle, hlt⟩ := Execution.thetaAt_of_lt hs h.later hphase
    split
    · rename_i hstatement
      refine hagreeing.lt (by simp) (by simp) ?_
      rw [h.theta_writer, theta_other]
      obtain ⟨hne, horder⟩ := hstatement
      change other.number ≠ writer.number at hne
      change other.placement.order < writer.placement.order at horder
      exact hlt hne.symm (by omega)
    · refine hagreeing.le (by simp) (by simp) ?_
      rw [h.theta_writer, theta_other]
      exact hle

/-- In the phase of the reader, the interfering write lies in a piece of what comes before it. -/
theorem exists_before (hs : s.Consistent m) (h : Interferes pairs carrier reader writer other)
    (hphase : other.isSteady = reader.isSteady) :
    ∃ piece ∈ before (window pairs writer.unit other.unit carrier) other.unit reader.unit
        (shifted (pairs.dims + other.unit.domain.dims) pairs.dims other.unit.theta)
        (shifted (pairs.dims + other.unit.domain.dims) 0 reader.unit.theta) pairs.dims,
      Covers (pairs.dims + other.unit.domain.dims) (joint pairs reader writer other) piece := by
  have hwindow := h.covers_window hs
  obtain ⟨hle, hlt⟩ := Execution.thetaAt_of_lt hs h.sooner hphase
  unfold before
  split
  · rename_i hne
    refine ⟨_, List.mem_singleton_self _, ?_⟩
    split
    · refine hwindow.le (by simp) (by simp) ?_
      rw [theta_other, h.theta_reader]
      exact hle
    · rename_i horder
      refine hwindow.lt (by simp) (by simp) ?_
      rw [theta_other, h.theta_reader]
      exact hlt hne horder
  · rename_i hsame
    have hnumber : other.number = reader.number := not_not.mp hsame
    have hplacement := Execution.eq_of_number hphase hnumber
    have htime := Execution.timeAt_lt_of_lt hs h.sooner hphase
    rw [Placement.timeAt, Placement.timeAt, List.cons_lt_cons_iff] at htime
    rcases htime with htheta | ⟨htheta, htime⟩
    · refine ⟨_, List.mem_cons_self, hwindow.lt (by simp) (by simp) ?_⟩
      rw [theta_other, h.theta_reader]
      exact htheta
    · rw [hplacement, List.cons_lt_cons_iff] at htime
      have hinner : reader.placement.inner.map other.point < reader.placement.inner.map reader.point := by
        rcases htime with horder | ⟨-, hinner⟩
        · exact absurd horder (lt_irrefl _)
        · exact hinner
      have hdims : ∀ d ∈ reader.placement.inner,
          d < reader.statement.dims ∧ d < other.unit.domain.dims := by
        intro d hd
        have hlt := Placement.lt_of_mem_inner hd
        refine ⟨by rwa [← reader.placementDims], ?_⟩
        rw [show other.unit.domain.dims = other.statement.dims from other.dims, ← other.placementDims,
          hplacement]
        exact hlt
      have hinputs := h.inputs
      have hequal := hwindow.equal (l := shifted (pairs.dims + other.unit.domain.dims) pairs.dims
        other.unit.theta) (r := shifted (pairs.dims + other.unit.domain.dims) 0 reader.unit.theta)
        (by simp) (by simp) (by rw [theta_other, h.theta_reader]; exact htheta)
      obtain ⟨tie, htie, hcovers⟩ := exists_tie pairs.dims reader.placement.inner (fun d hd => by
          obtain ⟨hlt, hlt'⟩ := hdims d hd
          simp only [Relation.dims]
          omega) hequal (by
          have hothers : (reader.placement.inner.map fun d =>
              joint pairs reader writer other (pairs.dims + d)) = reader.placement.inner.map other.point :=
            List.map_congr_left fun d _ => joint_other d
          have hreaders : reader.placement.inner.map (joint pairs reader writer other) =
              reader.placement.inner.map reader.point :=
            List.map_congr_left fun d hd => h.joint_reader (hdims d hd).1
          rw [hothers, hreaders]
          exact hinner)
      refine ⟨tie, List.mem_cons_of_mem _ ?_, hcovers⟩
      rw [hwindow.dims, show other.unit.inner = reader.placement.inner by rw [← hplacement]; rfl]
      exact htie

end Interferes

/-! ### Requirements -/

variable {m : Model} {s : Schedule} {d : Dependency}

private theorem le_slotsOf {difference : Affine} {slots slots' : Int}
    (h : slotsOf m d difference slots piece = .ok slots') : slots ≤ slots' := by
  unfold slotsOf at h
  split at h
  · cases h
    exact le_rfl
  · split at h
    · cases h
    · cases h
      exact le_max_left _ _

private theorem abs_lt_slotsOf {difference : Affine} (hvars : difference.vars = n)
    (hpiece : Covers n w piece) {slots slots' : Int}
    (h : slotsOf m d difference slots piece = .ok slots') : |difference.valueAt w| < slots' := by
  obtain ⟨interval, hbound, hcontains⟩ := PointSet.bound_of_has hpiece.regular
    (hvars.trans hpiece.dims.symm) hpiece.has
  unfold slotsOf at h
  rw [hbound] at h
  simp only at h
  split at h
  · cases h
  · rename_i lo hi hends
    cases h
    have hrange := (Interval.contains_of_ends? hends).mp hcontains
    simp only [Arithmetic.fit_exact]
    rw [abs_lt]
    omega

theorem Interferes.abs_lt_span {pairs : Relation} {carrier : Nat} {reader writer other : Execution m s}
    (hs : s.Consistent m) (h : Interferes pairs carrier reader writer other) {slots : Int}
    (hspan : span m d pairs reader.unit writer.unit other.unit carrier = .ok slots) :
    |other.point carrier - writer.point carrier| < slots := by
  have hafter := Execution.isSteady_of_lt hs h.later
  have hbefore := Execution.isSteady_of_lt hs h.sooner
  simp only [span] at hspan
  split at hspan
  · rename_i hphases
    have hphases : (!reader.isSteady && other.isSteady || writer.isSteady && !other.isSteady) = true :=
      hphases
    cases hreader : reader.isSteady <;> cases hother : other.isSteady <;>
      cases hwriter : writer.isSteady <;> simp_all
  · have hinside := h.inside
    have houtputs := h.outputs
    have hunit : other.unit.domain.dims = writer.statement.dims := other.dims.trans h.rank
    have hpiece : ∃ piece ∈ (if reader.unit.isSteady = other.unit.isSteady then
        before (window pairs writer.unit other.unit carrier) other.unit reader.unit
          (shifted (pairs.dims + other.unit.domain.dims) pairs.dims other.unit.theta)
          (shifted (pairs.dims + other.unit.domain.dims) 0 reader.unit.theta) pairs.dims
        else [window pairs writer.unit other.unit carrier]),
        Covers (pairs.dims + other.unit.domain.dims) (Interferes.joint pairs reader writer other) piece := by
      split
      · rename_i hphase
        exact h.exists_before hs (Eq.symm hphase)
      · exact ⟨_, List.mem_singleton_self _, h.covers_window hs⟩
    obtain ⟨piece, hmem, hcovers⟩ := hpiece
    obtain ⟨-, hreaches⟩ := Outcome.foldlM_reaches (g := id) (fun _ _ _ => le_slotsOf) hspan
    obtain ⟨c, c', hslots, hle⟩ := hreaches piece hmem
    refine lt_of_lt_of_le ?_ hle
    have hdistance := abs_lt_slotsOf (by simp) hcovers hslots
    rw [Affine.valueAt_sub (by simp), Affine.valueAt_var (by omega),
      Affine.valueAt_var (by simp only [Relation.dims]; omega), Interferes.joint_other,
      h.joint_writer hinside] at hdistance
    exact hdistance

/-- What a join of two instances consists of. -/
private theorem join_cases {writers : List Instance} {carrier : Nat} {a b : Instance}
    {r r' : Requirement} (h : join m d writers carrier a b r = .ok r') :
    r.slices ≤ r'.slices ∧
      (((d.relation.intersectDomain a.domain).intersectRange b.domain).isEmpty = false →
        ∀ c ∈ writers, ∃ slots, span m d ((d.relation.intersectDomain a.domain).intersectRange b.domain)
          a b c carrier = .ok slots ∧ slots ≤ r'.slices) := by
  simp only [join] at h
  split at h
  · rename_i hempty
    cases h
    refine ⟨le_rfl, fun hnot => ?_⟩
    rw [hempty] at hnot
    cases hnot
  split at h
  · cases h
  have hfold : writers.foldlM (fun slices c => do
      return max slices (← span m d ((d.relation.intersectDomain a.domain).intersectRange b.domain)
        a b c carrier)) r.slices = .ok r'.slices := by
    split at h <;>
      · obtain ⟨steps, -, h⟩ := Outcome.bind_eq_ok h
        obtain ⟨slices, hfold, h⟩ := Outcome.bind_eq_ok h
        cases h
        exact hfold
  have hraises : ∀ (n : Int) (c : Instance) (n' : Int), (do
      return max n (← span m d ((d.relation.intersectDomain a.domain).intersectRange b.domain)
        a b c carrier)) = Except.ok n' → n ≤ n' := by
    intro n c n' hstep
    obtain ⟨slots, -, hstep⟩ := Outcome.bind_eq_ok hstep
    cases hstep
    exact le_max_left _ _
  obtain ⟨hle, hreaches⟩ := Outcome.foldlM_reaches (g := id) hraises hfold
  refine ⟨hle, fun _ c hc => ?_⟩
  obtain ⟨n, n', hstep, hle'⟩ := hreaches c hc
  obtain ⟨slots, hspan, hstep⟩ := Outcome.bind_eq_ok hstep
  cases hstep
  exact ⟨slots, hspan, le_trans (le_max_right _ _) hle'⟩

/-- What a dependency requires suffices to keep elements apart that agree but for the carrier. -/
theorem abs_lt_slices (hs : s.Consistent m) {carrier : Nat} {r : Requirement}
    (hr : ofDependency m s (some carrier) d = .ok r) (hregular : d.relation.Regular)
    {reader writer other : Execution m s} (hreader : reader.number = d.consumer)
    (hwriter : writer.number = d.producer) (hother : other.number ∈ m.writers d.array)
    (hinputs : d.relation.inputs = reader.statement.dims)
    (houtputs : d.relation.outputs = writer.statement.dims)
    (hrank : other.statement.dims = writer.statement.dims)
    (hlinks : d.relation.Links reader.point writer.point) (hlater : writer.time < other.time)
    (hsooner : other.time < reader.time) (hinside : carrier < writer.statement.dims)
    (hagrees : ∀ d, d < writer.statement.dims → d ≠ carrier → writer.point d = other.point d) :
    |other.point carrier - writer.point carrier| < r.slices := by
  have hdomain : (d.relation.intersectDomain reader.unit.domain).Regular :=
    Relation.regular_intersectDomain hregular
  have hpairs : ((d.relation.intersectDomain reader.unit.domain).intersectRange writer.unit.domain).Links
      reader.point writer.point := by
    refine (Relation.links_intersectRange hdomain writer.regular (writer.dims.trans houtputs.symm)).mpr
      ⟨?_, writer.has⟩
    exact (Relation.links_intersectDomain hregular reader.regular
      (reader.dims.trans hinputs.symm)).mpr ⟨hlinks, reader.has⟩
  have hinterferes : Interferes
      ((d.relation.intersectDomain reader.unit.domain).intersectRange writer.unit.domain) carrier
      reader writer other :=
    ⟨Relation.regular_intersectRange, hpairs, hinputs, houtputs, hrank, hlater, hsooner, hinside, hagrees⟩
  have hnonempty : ((d.relation.intersectDomain reader.unit.domain).intersectRange
      writer.unit.domain).isEmpty = false :=
    PointSet.isEmpty_of_has (Relation.regular_pairs.mpr Relation.regular_intersectRange)
      (Relation.links_iff_has.mp hpairs)
  have hwriters : other.unit ∈ (m.writers d.array).flatMap (Instance.ofStatement m s) :=
    List.mem_flatMap.mpr ⟨other.number, hother, other.made⟩
  have hpair : (reader.unit, writer.unit) ∈ (Instance.ofStatement m s d.consumer).flatMap fun x =>
      (Instance.ofStatement m s d.producer).map fun y => (x, y) := by
    refine List.mem_flatMap.mpr ⟨reader.unit, ?_, List.mem_map.mpr ⟨writer.unit, ?_, rfl⟩⟩
    · rw [← hreader]
      exact reader.made
    · rw [← hwriter]
      exact writer.made
  obtain ⟨-, hreaches⟩ := Outcome.foldlM_reaches (g := Requirement.slices)
    (fun _ _ _ hjoin => (join_cases hjoin).1) hr
  obtain ⟨before, after, hjoin, hle⟩ := hreaches _ hpair
  obtain ⟨slots, hspan, hle'⟩ := (join_cases hjoin).2 hnonempty _ hwriters
  exact lt_of_lt_of_le (hinterferes.abs_lt_span hs hspan) (le_trans hle' hle)

end Requirement

end StreamLoom
