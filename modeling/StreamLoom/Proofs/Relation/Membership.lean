import StreamLoom.Proofs.PointSet.Locals
import StreamLoom.Relation.Basic

/-!
# Membership in relations

A relation links two points when some values of its locals solve its constraints. As with sets, the
points are valuations as long as relations are computed with. `Relates` says the same of points that
are lists, and is what statements about whole programs are made in.
-/

namespace StreamLoom

attribute [local instance] Arithmetic.exact

open StreamLoom.System (Solves Over)

namespace Relation

/-- Some values of the locals satisfy the constraints at a pair of points. -/
def Relates (m : Relation) (x y : List Int) : Prop :=
  x.length = m.inputs ∧ y.length = m.outputs ∧
    ∃ locals : List Int, locals.length = m.locals ∧
      ∀ c ∈ m.cons, c.holds (x ++ y ++ locals) = true

def Regular (m : Relation) : Prop := Over m.vars m.cons

/-- Some values of the locals solve the constraints at a pair of valuations. -/
def Links (m : Relation) (x y : Nat → Int) : Prop :=
  ∃ w : Nat → Int, (∀ i, i < m.inputs → w i = x i) ∧
    (∀ o, o < m.outputs → w (m.inputs + o) = y o) ∧ Solves w m.cons

theorem links_congr {m : Relation} {x x' y y' : Nat → Int} (hx : ∀ i, i < m.inputs → x i = x' i)
    (hy : ∀ o, o < m.outputs → y o = y' o) : m.Links x y ↔ m.Links x' y' := by
  constructor
  · rintro ⟨w, hwx, hwy, hsolves⟩
    exact ⟨w, fun i hi => (hwx i hi).trans (hx i hi), fun o ho => (hwy o ho).trans (hy o ho), hsolves⟩
  · rintro ⟨w, hwx, hwy, hsolves⟩
    exact ⟨w, fun i hi => (hwx i hi).trans (hx i hi).symm,
      fun o ho => (hwy o ho).trans (hy o ho).symm, hsolves⟩

/-! ### Pairs -/

theorem regular_pairs {m : Relation} : m.pairs.Regular ↔ m.Regular := Iff.rfl

/-- The valuation of a pair, given the number of input coordinates. -/
def joined (inputs : Nat) (x y : Nat → Int) : Nat → Int :=
  fun i => if i < inputs then x i else y (i - inputs)

@[simp] theorem joined_add (inputs o : Nat) (x y : Nat → Int) : joined inputs x y (inputs + o) = y o := by
  simp [joined]

theorem joined_of_lt {inputs i : Nat} (hi : i < inputs) (x y : Nat → Int) :
    joined inputs x y i = x i := if_pos hi

theorem has_pairs {m : Relation} {p : Nat → Int} :
    m.pairs.Has p ↔ m.Links p fun o => p (m.inputs + o) := by
  constructor
  · rintro ⟨w, hw, hsolves⟩
    refine ⟨w, fun i hi => hw i ?_, fun o ho => hw (m.inputs + o) ?_, hsolves⟩ <;>
      simp only [pairs, dims] <;> omega
  · rintro ⟨w, hwx, hwy, hsolves⟩
    refine ⟨w, fun i hi => ?_, hsolves⟩
    have hi' : i < m.inputs + m.outputs := hi
    by_cases hlt : i < m.inputs
    · exact hwx i hlt
    · have hrest := hwy (i - m.inputs) (by omega)
      simpa only [show m.inputs + (i - m.inputs) = i by omega] using hrest

theorem links_iff_has {m : Relation} {x y : Nat → Int} :
    m.Links x y ↔ m.pairs.Has (joined m.inputs x y) := by
  rw [has_pairs]
  refine links_congr (fun i hi => (joined_of_lt hi x y).symm) fun o _ => ?_
  rw [joined_add]

theorem relates_iff {m : Relation} (hm : m.Regular) {x y : List Int} :
    m.Relates x y ↔
      x.length = m.inputs ∧ y.length = m.outputs ∧ m.Links (valuation x) (valuation y) := by
  refine and_congr_right fun hx => and_congr_right fun hy => ?_
  have hfirst : ∀ l : List Int, ∀ i, i < m.inputs → valuation (x ++ y ++ l) i = valuation x i := by
    intro l i hi
    rw [List.append_assoc, valuation_append_left (hx.symm ▸ hi)]
  have hsecond : ∀ l : List Int, ∀ o, o < m.outputs →
      valuation (x ++ y ++ l) (m.inputs + o) = valuation y o := by
    intro l o ho
    rw [List.append_assoc, ← hx, valuation_append_right, valuation_append_left (hy.symm ▸ ho)]
  constructor
  · rintro ⟨l, -, hholds⟩
    exact ⟨valuation (x ++ y ++ l), hfirst l, hsecond l,
      fun c hc => (Constraint.holds_iff c _).mp (hholds c hc)⟩
  · rintro ⟨w, hwx, hwy, hsolves⟩
    let l := (List.range m.locals).map fun i => w (m.dims + i)
    refine ⟨l, by simp [l], fun c hc => (Constraint.holds_iff c _).mpr ?_⟩
    refine (System.solves_congr hm fun i hi => ?_).mp hsolves c hc
    simp only [vars, dims] at hi
    by_cases hin : i < m.inputs
    · rw [hwx i hin, hfirst l i hin]
    · by_cases hout : i < m.inputs + m.outputs
      · have hrest := hwy (i - m.inputs) (by omega)
        rw [← hsecond l (i - m.inputs) (by omega)] at hrest
        rwa [show m.inputs + (i - m.inputs) = i by omega] at hrest
      · simp only [valuation, List.getD_eq_getElem?_getD]
        rw [List.getElem?_append_right (by simp; omega), List.length_append, hx, hy]
        have hlocal : i - (m.inputs + m.outputs) < m.locals := by omega
        simp only [l, List.getElem?_map, List.getElem?_range hlocal, dims, Option.map_some,
          Option.getD_some]
        congr 1
        omega

/-! ### Operations -/

section

variable {m : Relation}

private theorem getD_reversed (m : Relation) {i : Nat} (hi : i < m.vars) :
    (List.range' m.outputs m.inputs ++ List.range m.outputs ++ List.range' m.dims m.locals).getD i 0 =
      if i < m.inputs then m.outputs + i
      else if i < m.inputs + m.outputs then i - m.inputs else i := by
  simp only [vars, dims] at hi
  rw [getD_append_block, List.length_append, List.length_range', List.length_range,
    List.range_eq_range', getD_blocks]
  by_cases hin : i < m.inputs
  · rw [if_pos (by omega), if_pos hin, if_pos hin]
  · by_cases hout : i < m.inputs + m.outputs
    · rw [if_pos hout, if_neg hin, if_pos hout, if_neg hin, if_pos hout, Nat.zero_add]
    · rw [if_neg hout, if_neg hin, if_pos (by omega), if_neg hout]
      simp only [dims]
      omega

theorem regular_reverse : m.reverse.Regular := by
  have hover : Over m.vars m.reverse.cons := System.over_map_remap
  simpa [Regular, reverse, vars, dims, Nat.add_comm] using hover

theorem links_reverse (hm : m.Regular) {x y : Nat → Int} : m.reverse.Links y x ↔ m.Links x y := by
  have hsolves : ∀ w : Nat → Int, Solves w m.reverse.cons ↔
      Solves (fun i => w (if i < m.inputs then m.outputs + i
        else if i < m.inputs + m.outputs then i - m.inputs else i)) m.cons := by
    intro w
    rw [reverse, System.solves_map_remap hm]
    · exact System.solves_congr hm fun i hi => by rw [getD_reversed m hi]
    · simp [vars, dims, Nat.add_assoc]
    · intro p hp
      simp only [List.mem_append, List.mem_range'_1, List.mem_range, dims, vars] at hp ⊢
      omega
  constructor
  · rintro ⟨w, hwy, hwx, hw⟩
    refine ⟨_, fun i hi => ?_, fun o ho => ?_, (hsolves w).mp hw⟩
    · rw [if_pos hi]
      exact hwx i hi
    · rw [if_neg (by omega), if_pos (by omega), Nat.add_sub_cancel_left]
      exact hwy o ho
  · rintro ⟨w, hwx, hwy, hw⟩
    let w' : Nat → Int := fun j =>
      if j < m.outputs then w (m.inputs + j)
      else if j < m.inputs + m.outputs then w (j - m.outputs) else w j
    refine ⟨w', fun o ho => ?_, fun i hi => ?_, (hsolves w').mpr ?_⟩
    · have ho' : o < m.outputs := ho
      simp only [w', if_pos ho']
      exact hwy o ho
    · have hi' : i < m.inputs := hi
      simp only [w', reverse]
      rw [if_neg (by omega), if_pos (by omega), Nat.add_sub_cancel_left]
      exact hwx i hi
    · refine (System.solves_congr hm fun i hi => ?_).mpr hw
      simp only [vars] at hi
      by_cases hin : i < m.inputs
      · simp only [if_pos hin, w']
        rw [if_neg (by omega), if_pos (by omega), Nat.add_sub_cancel_left]
      · simp only [if_neg hin]
        by_cases hout : i < m.inputs + m.outputs
        · simp only [if_pos hout, w']
          rw [if_pos (by omega)]
          congr 1
          omega
        · simp only [if_neg hout, w']
          rw [if_neg (by omega)]

theorem regular_intersectDomain {s : PointSet} (hm : m.Regular) :
    (m.intersectDomain s).Regular := by
  have hover : Over (m.vars + s.locals) (m.intersectDomain s).cons :=
    System.over_append.mpr ⟨System.over_map_extend hm, System.over_map_remap⟩
  simpa [Regular, intersectDomain, vars, dims, Nat.add_assoc] using hover

theorem links_intersectDomain {s : PointSet} (hm : m.Regular) (hs : s.Regular)
    (hdims : s.dims = m.inputs) {x y : Nat → Int} :
    (m.intersectDomain s).Links x y ↔ m.Links x y ∧ s.Has x := by
  have hsolves : ∀ w : Nat → Int, Solves w (s.cons.map (·.remap (m.vars + s.locals)
      (List.range s.dims ++ List.range' m.vars s.locals))) ↔
      Solves (fun i => w (if i < s.dims then i else m.vars + (i - s.dims))) s.cons := by
    intro w
    rw [List.range_eq_range', System.solves_map_remap hs (by simp [PointSet.vars])
      (lt_of_mem_blocks (by simp only [vars, dims]; omega) (by omega))]
    refine System.solves_congr hs fun i hi => ?_
    simp only [PointSet.vars] at hi
    rw [getD_blocks, if_pos (show i < s.dims + s.locals by omega), Nat.zero_add]
  constructor
  · rintro ⟨w, hwx, hwy, hw⟩
    obtain ⟨hold, hnew⟩ := (System.solves_append w _ _).mp hw
    rw [System.solves_map_extend] at hold
    refine ⟨⟨w, hwx, hwy, hold⟩, ⟨_, fun i hi => ?_, (hsolves w).mp hnew⟩⟩
    rw [if_pos hi]
    exact hwx i (by simp only [intersectDomain]; omega)
  · rintro ⟨⟨w, hwx, hwy, hold⟩, ⟨v, hv, hnew⟩⟩
    let w' : Nat → Int := fun i => if i < m.vars then w i else v (s.dims + (i - m.vars))
    have hbelow : ∀ i, i < m.vars → w' i = w i := fun i hi => if_pos hi
    refine ⟨w', fun i hi => ?_, fun o ho => ?_, (System.solves_append w' _ _).mpr ⟨?_, ?_⟩⟩
    · have hi' : i < m.inputs := hi
      rw [hbelow i (by simp only [vars, dims]; omega), hwx i hi']
    · have ho' : o < m.outputs := ho
      simp only [intersectDomain]
      rw [hbelow _ (by simp only [vars, dims]; omega), hwy o ho']
    · rw [System.solves_map_extend]
      exact (System.solves_congr hm hbelow).mpr hold
    · rw [hsolves]
      refine (System.solves_congr hs fun i hi => ?_).mpr hnew
      by_cases hlt : i < s.dims
      · rw [if_pos hlt, hbelow i (by simp only [vars, dims]; omega), hwx i (by omega), hv i hlt]
      · rw [if_neg hlt]
        simp only [w']
        rw [if_neg (by omega), Nat.add_sub_cancel_left]
        congr 1
        omega

theorem regular_intersectRange {s : PointSet} : (m.intersectRange s).Regular := regular_reverse

theorem links_intersectRange {s : PointSet} (hm : m.Regular) (hs : s.Regular)
    (hdims : s.dims = m.outputs) {x y : Nat → Int} :
    (m.intersectRange s).Links x y ↔ m.Links x y ∧ s.Has y := by
  have hreverse : m.reverse.Regular := regular_reverse
  rw [intersectRange, links_reverse (regular_intersectDomain hreverse),
    links_intersectDomain hreverse hs hdims, links_reverse hm]

theorem regular_simplify (hm : m.Regular) : m.simplify.Regular := by
  have hover := PointSet.regular_simplify (regular_pairs.mpr hm)
  rw [PointSet.Regular, PointSet.vars, PointSet.dims_simplify] at hover
  exact hover

theorem links_simplify (hm : m.Regular) {x y : Nat → Int} : m.simplify.Links x y ↔ m.Links x y := by
  rw [links_iff_has, links_iff_has, ← PointSet.has_simplify (regular_pairs.mpr hm), PointSet.Has,
    PointSet.Has, PointSet.dims_simplify]
  rfl

/-- The points in between become locals. -/
private def composed (m o : Relation) : Relation :=
  let ends := m.inputs + o.outputs
  let n := ends + m.outputs + m.locals + o.locals
  let left := List.range m.inputs ++ List.range' ends (m.outputs + m.locals)
  let right := List.range' ends m.outputs ++ List.range' m.inputs o.outputs ++
    List.range' (ends + m.outputs + m.locals) o.locals
  ⟨m.source, o.target, m.inputs, o.outputs, m.outputs + m.locals + o.locals,
    m.cons.map (·.remap n left) ++ o.cons.map (·.remap n right)⟩

variable {o : Relation}

private theorem regular_composed : (composed m o).Regular := by
  have hover : Over (m.inputs + o.outputs + m.outputs + m.locals + o.locals) (composed m o).cons :=
    System.over_append.mpr ⟨System.over_map_remap, System.over_map_remap⟩
  simpa [Regular, composed, vars, dims, Nat.add_assoc] using hover

/-- The constraints of the first relation, with their variables where the composition has them. -/
private theorem solves_first (hm : m.Regular) (o : Relation) (w : Nat → Int) :
    Solves w (m.cons.map (·.remap (m.inputs + o.outputs + m.outputs + m.locals + o.locals)
        (List.range m.inputs ++ List.range' (m.inputs + o.outputs) (m.outputs + m.locals)))) ↔
      Solves (fun i => w (if i < m.inputs then i else o.outputs + i)) m.cons := by
  rw [List.range_eq_range', System.solves_map_remap hm (by simp [vars, dims, Nat.add_assoc])
    (lt_of_mem_blocks (by omega) (by omega))]
  refine System.solves_congr hm fun i hi => ?_
  simp only [vars, dims] at hi
  rw [getD_blocks]
  congr 1
  split
  · omega
  · rw [if_pos (by omega)]
    omega

/-- The constraints of the second relation, whose inputs are the points in between. -/
private theorem solves_second (ho : o.Regular) (hbetween : m.outputs = o.inputs) (w : Nat → Int) :
    Solves w (o.cons.map (·.remap (m.inputs + o.outputs + m.outputs + m.locals + o.locals)
        (List.range' (m.inputs + o.outputs) m.outputs ++ List.range' m.inputs o.outputs ++
          List.range' (m.inputs + o.outputs + m.outputs + m.locals) o.locals))) ↔
      Solves (fun i => w (if i < o.inputs then m.inputs + o.outputs + i
        else if i < o.inputs + o.outputs then m.inputs + (i - o.inputs)
        else m.inputs + m.locals + i)) o.cons := by
  rw [System.solves_map_remap ho]
  · refine System.solves_congr ho fun i hi => ?_
    simp only [vars, dims] at hi
    rw [getD_append_block, getD_blocks, List.length_append, List.length_range', List.length_range',
      hbetween]
    congr 1
    by_cases hin : i < o.inputs
    · rw [if_pos (by omega), if_pos hin, if_pos hin]
    · by_cases hout : i < o.inputs + o.outputs
      · rw [if_pos hout, if_neg hin, if_pos hout, if_neg hin, if_pos hout]
      · rw [if_neg hout, if_pos (by omega), if_neg hin, if_neg hout]
        omega
  · simp [vars, dims, hbetween, Nat.add_assoc]
  · intro p hp
    simp only [List.mem_append, List.mem_range'_1] at hp
    omega

private theorem composed_of_links (hm : m.Regular) (ho : o.Regular) (hbetween : m.outputs = o.inputs)
    {x y z : Nat → Int} (hxy : m.Links x y) (hyz : o.Links y z) : (composed m o).Links x z := by
  obtain ⟨u, hux, huy, hu⟩ := hxy
  obtain ⟨v, hvy, hvz, hv⟩ := hyz
  let w : Nat → Int := fun i =>
    if i < m.inputs then x i
    else if i < m.inputs + o.outputs then z (i - m.inputs)
    else if i < m.inputs + o.outputs + m.outputs + m.locals then u (i - o.outputs)
    else v (i - m.inputs - m.locals)
  refine ⟨w, fun i hi => if_pos hi, fun i hi => ?_, (System.solves_append w _ _).mpr
    ⟨(solves_first hm o w).mpr ?_, (solves_second ho hbetween w).mpr ?_⟩⟩
  · have hi' : i < o.outputs := hi
    simp only [w, composed]
    rw [if_neg (by omega), if_pos (by omega), Nat.add_sub_cancel_left]
  · refine (System.solves_congr hm fun i hi => ?_).mpr hu
    simp only [vars, dims] at hi
    by_cases hin : i < m.inputs
    · simp only [if_pos hin, w]
      rw [hux i hin]
    · simp only [if_neg hin, w]
      rw [if_neg (by omega), if_neg (by omega), if_pos (by omega), Nat.add_sub_cancel_left]
  · refine (System.solves_congr ho fun i hi => ?_).mpr hv
    simp only [vars, dims] at hi
    by_cases hin : i < o.inputs
    · simp only [if_pos hin, w]
      rw [if_neg (by omega), if_neg (by omega), if_pos (by omega), hvy i hin,
        ← huy i (by omega)]
      congr 1
      omega
    · simp only [if_neg hin]
      by_cases hout : i < o.inputs + o.outputs
      · simp only [if_pos hout, w]
        have hvi := hvz (i - o.inputs) (by omega)
        rw [if_neg (by omega), if_pos (by omega), Nat.add_sub_cancel_left, ← hvi]
        congr 1
        omega
      · simp only [if_neg hout, w]
        rw [if_neg (by omega), if_neg (by omega), if_neg (by omega)]
        congr 1
        omega

private theorem links_composed (hm : m.Regular) (ho : o.Regular) (hbetween : m.outputs = o.inputs)
    {x z : Nat → Int} : (composed m o).Links x z ↔ ∃ y, m.Links x y ∧ o.Links y z := by
  constructor
  · rintro ⟨w, hwx, hwz, hw⟩
    obtain ⟨hfirst, hsecond⟩ := (System.solves_append w _ _).mp hw
    refine ⟨fun i => w (m.inputs + o.outputs + i),
      ⟨_, fun i hi => ?_, fun i hi => ?_, (solves_first hm o w).mp hfirst⟩,
      ⟨_, fun i hi => ?_, fun i hi => ?_, (solves_second ho hbetween w).mp hsecond⟩⟩
    · rw [if_pos hi]
      exact hwx i hi
    · rw [if_neg (by omega)]
      congr 1
      omega
    · rw [if_pos hi]
    · rw [if_neg (by omega), if_pos (by omega), Nat.add_sub_cancel_left]
      exact hwz i hi
  · rintro ⟨y, hxy, hyz⟩
    exact composed_of_links hm ho hbetween hxy hyz

theorem regular_compose : (m.compose o).Regular := regular_simplify regular_composed

theorem links_compose (hm : m.Regular) (ho : o.Regular) (hbetween : m.outputs = o.inputs)
    {x z : Nat → Int} : (m.compose o).Links x z ↔ ∃ y, m.Links x y ∧ o.Links y z :=
  (links_simplify regular_composed).trans (links_composed hm ho hbetween)

end

/-! ### Functions -/

section

variable {source target : String} {inputs : Nat} {rows : List Affine}

theorem regular_ofRows : (ofRows source inputs target rows).Regular := by
  intro c hc
  obtain ⟨⟨row, o⟩, -, rfl⟩ := List.mem_map.mp hc
  change ((Affine.var _ _).sub _).vars = _
  simp [ofRows, vars, dims]

theorem links_ofRows (hrows : ∀ row ∈ rows, row.vars = inputs) {x y : Nat → Int} :
    (ofRows source inputs target rows).Links x y ↔
      ∀ o (ho : o < rows.length), y o = rows[o].valueAt x := by
  have hadmits : ∀ (w : Nat → Int) (o : Nat) (ho : o < rows.length),
      (Constraint.equal (.var (inputs + rows.length) (inputs + o))
        (rows[o].remap (inputs + rows.length) (List.range inputs))).Admits w ↔
      w (inputs + o) = rows[o].valueAt w := by
    intro w o ho
    have hvars : rows[o].vars = inputs := hrows _ (List.getElem_mem ho)
    rw [Constraint.admits_equal (by simp), Affine.valueAt_var (by omega), Affine.valueAt_remap]
    · refine iff_of_eq (congrArg _ (Affine.valueAt_congr_of_lt hvars.le fun i hi => ?_))
      simp [List.getD_eq_getElem?_getD, hi]
    · simp [hvars]
    · intro p hp
      have := List.mem_range.mp hp
      omega
  have hvalue : ∀ (w : Nat → Int) (o : Nat) (ho : o < rows.length),
      (∀ i, i < inputs → w i = x i) → rows[o].valueAt w = rows[o].valueAt x := by
    intro w o ho hw
    exact Affine.valueAt_congr_of_lt (hrows _ (List.getElem_mem ho)).le hw
  have hsolves : ∀ w : Nat → Int, Solves w (ofRows source inputs target rows).cons ↔
      ∀ o (ho : o < rows.length), w (inputs + o) = rows[o].valueAt w := by
    intro w
    constructor
    · intro hw o ho
      rw [← hadmits w o ho]
      apply hw
      refine List.mem_map.mpr ⟨(rows[o], o), ?_, rfl⟩
      exact List.mem_zipIdx_iff_getElem?.mpr (List.getElem?_eq_getElem ho)
    · intro hw c hc
      obtain ⟨⟨row, o⟩, hmem, rfl⟩ := List.mem_map.mp hc
      have hget : rows[o]? = some row := List.mem_zipIdx_iff_getElem?.mp hmem
      obtain ⟨ho, rfl⟩ := List.getElem?_eq_some_iff.mp hget
      exact (hadmits w o ho).mpr (hw o ho)
  constructor
  · rintro ⟨w, hwx, hwy, hw⟩ o ho
    rw [← hwy o ho]
    exact ((hsolves w).mp hw o ho).trans (hvalue w o ho hwx)
  · intro h
    have hx : ∀ i, i < inputs → joined inputs x y i = x i := fun i hi => joined_of_lt hi x y
    refine ⟨joined inputs x y, hx, fun o _ => joined_add inputs o x y, (hsolves _).mpr ?_⟩
    intro o ho
    rw [joined_add, h o ho, hvalue _ o ho hx]

theorem links_identity {n : Nat} {x y : Nat → Int} :
    (identity source target n).Links x y ↔ ∀ i, i < n → y i = x i := by
  rw [identity, links_ofRows (by simp)]
  simp only [List.length_map, List.length_range, List.getElem_map, List.getElem_range]
  exact forall₂_congr fun i hi => by rw [Affine.valueAt_var hi]

end

end Relation

end StreamLoom
