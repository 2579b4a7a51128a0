import StreamLoom.Proofs.Outcome
import StreamLoom.Proofs.Relation.Membership
import StreamLoom.Relation.Union

/-!
# Relational algebra

The operations on sets and relations are those of relational algebra, on the points and pairs that the
constraints describe. Variables are moved and locals come and go on the way, but none of this shows:
each operation has one law, in which only points occur.

The laws hold for integer points exactly, although eliminating a variable is not exact in general.
Nothing is eliminated here but locals that an equality defines.
-/

namespace StreamLoom

attribute [local instance] Arithmetic.exact

open StreamLoom.System (Solves Over)

/-! ### Sets -/

namespace PointSet

variable {s t : PointSet}

theorem includes_intersect (hs : s.Regular) (ht : t.Regular) (hdims : s.dims = t.dims) (p : List Int) :
    (s.intersect t).Includes p ↔ s.Includes p ∧ t.Includes p := by
  rw [includes_iff (regular_intersect hs), includes_iff hs, includes_iff ht,
    has_intersect hs ht hdims.symm, ← hdims]
  exact and_and_left

theorem includes_product (hs : s.Regular) (ht : t.Regular) (r : List Int) :
    (s.product t).Includes r ↔ ∃ p q, r = p ++ q ∧ s.Includes p ∧ t.Includes q := by
  simp only [includes_iff regular_product, includes_iff hs, includes_iff ht, has_product hs ht]
  constructor
  · rintro ⟨hlength, hsp, htq⟩
    have hlength' : r.length = s.dims + t.dims := hlength
    refine ⟨r.take s.dims, r.drop s.dims, (List.take_append_drop _ _).symm, ⟨by simp; omega, ?_⟩,
      ⟨by simp; omega, ?_⟩⟩
    · refine (has_congr fun i hi => ?_).mp hsp
      simp [valuation, List.getD_eq_getElem?_getD, List.getElem?_take_of_lt hi]
    · refine (has_congr fun i _ => ?_).mp htq
      simp [valuation, List.getD_eq_getElem?_getD]
  · rintro ⟨p, q, rfl, ⟨hp, hsp⟩, ⟨hq, htq⟩⟩
    refine ⟨by simp [product, hp, hq], (has_congr fun i hi => ?_).mp hsp,
      (has_congr fun i _ => ?_).mp htq⟩
    · simp [valuation, List.getD_eq_getElem?_getD, List.getElem?_append_left (show i < p.length by omega)]
    · simp [valuation, List.getD_eq_getElem?_getD, ← hp, List.getElem?_append_right]

theorem includes_simplify (hs : s.Regular) (p : List Int) : s.simplify.Includes p ↔ s.Includes p := by
  rw [includes_iff (regular_simplify hs), includes_iff hs, has_simplify hs, dims_simplify]

end PointSet

/-! ### Relations -/

namespace Relation

variable {m o : Relation} {s : PointSet}

theorem relates_reverse (hm : m.Regular) (x y : List Int) : m.reverse.Relates y x ↔ m.Relates x y := by
  rw [relates_iff regular_reverse, relates_iff hm, links_reverse hm]
  exact and_left_comm

theorem relates_intersectDomain (hm : m.Regular) (hs : s.Regular) (hdims : s.dims = m.inputs)
    (x y : List Int) : (m.intersectDomain s).Relates x y ↔ m.Relates x y ∧ s.Includes x := by
  rw [relates_iff (regular_intersectDomain hm), relates_iff hm, PointSet.includes_iff hs, hdims,
    links_intersectDomain hm hs hdims]
  constructor
  · rintro ⟨hx, hy, hlinks, hhas⟩
    exact ⟨⟨hx, hy, hlinks⟩, hx, hhas⟩
  · rintro ⟨⟨hx, hy, hlinks⟩, -, hhas⟩
    exact ⟨hx, hy, hlinks, hhas⟩

theorem relates_intersectRange (hm : m.Regular) (hs : s.Regular) (hdims : s.dims = m.outputs)
    (x y : List Int) : (m.intersectRange s).Relates x y ↔ m.Relates x y ∧ s.Includes y := by
  have hreverse : m.reverse.Regular := regular_reverse
  rw [intersectRange, relates_reverse (regular_intersectDomain hreverse),
    relates_intersectDomain hreverse hs hdims, relates_reverse hm]

theorem relates_simplify (hm : m.Regular) (x y : List Int) : m.simplify.Relates x y ↔ m.Relates x y := by
  rw [relates_iff (regular_simplify hm), relates_iff hm, links_simplify hm]
  rfl

theorem relates_compose (hm : m.Regular) (ho : o.Regular) (hbetween : m.outputs = o.inputs)
    (x z : List Int) : (m.compose o).Relates x z ↔ ∃ y, m.Relates x y ∧ o.Relates y z := by
  simp only [relates_iff regular_compose, relates_iff hm, relates_iff ho, links_compose hm ho hbetween]
  constructor
  · rintro ⟨hx, hz, y, hxy, hyz⟩
    have hlists : ∀ i, i < m.outputs → y i = valuation (coordinates m.outputs y) i :=
      fun i hi => (valuation_coordinates hi y).symm
    refine ⟨coordinates m.outputs y, ⟨hx, length_coordinates _ _, ?_⟩,
      ⟨by rw [length_coordinates, hbetween], hz, ?_⟩⟩
    · exact (links_congr (fun _ _ => rfl) hlists).mp hxy
    · exact (links_congr (fun i hi => hlists i (by omega)) fun _ _ => rfl).mp hyz
  · rintro ⟨y, ⟨hx, -, hxy⟩, ⟨-, hz, hyz⟩⟩
    exact ⟨hx, hz, valuation y, hxy, hyz⟩

theorem regular_domain (hm : m.Regular) : m.domain.Regular := by
  refine PointSet.regular_simplify ?_
  simpa only [PointSet.Regular, PointSet.vars, Regular, vars, dims, Nat.add_assoc] using hm

theorem includes_domain (hm : m.Regular) (x : List Int) : m.domain.Includes x ↔ ∃ y, m.Relates x y := by
  have hopen : PointSet.Regular ⟨m.source, m.inputs, m.outputs + m.locals, m.cons⟩ := by
    simpa only [PointSet.Regular, PointSet.vars, Regular, vars, dims, Nat.add_assoc] using hm
  rw [domain, PointSet.includes_simplify hopen, PointSet.includes_iff hopen]
  simp only [relates_iff hm]
  constructor
  · rintro ⟨hx, w, hwx, hw⟩
    refine ⟨coordinates m.outputs fun o => w (m.inputs + o), hx, length_coordinates _ _, w, hwx, ?_, hw⟩
    intro o ho
    rw [valuation_coordinates ho]
  · rintro ⟨y, hx, -, w, hwx, -, hw⟩
    exact ⟨hx, w, hwx, hw⟩

theorem includes_range (hm : m.Regular) (y : List Int) : m.range.Includes y ↔ ∃ x, m.Relates x y := by
  simp only [range, includes_domain regular_reverse, relates_reverse hm]

theorem includes_image (hm : m.Regular) (hs : s.Regular) (hdims : s.dims = m.inputs) (y : List Int) :
    (m.image s).Includes y ↔ ∃ x, s.Includes x ∧ m.Relates x y := by
  simp only [image, includes_range (regular_intersectDomain hm), relates_intersectDomain hm hs hdims]
  exact exists_congr fun x => and_comm

theorem relates_ofRows {source target : String} {inputs : Nat} {rows : List Affine}
    (hrows : ∀ row ∈ rows, row.vars = inputs) (x y : List Int) :
    (ofRows source inputs target rows).Relates x y ↔
      x.length = inputs ∧ y = rows.map (·.eval x) := by
  rw [relates_iff regular_ofRows, links_ofRows hrows]
  refine and_congr_right fun _ => ?_
  have hvalue : ∀ i (hi : i < rows.length),
      valuation (rows.map (·.eval x)) i = rows[i].valueAt (valuation x) := by
    intro i hi
    rw [← Affine.eval_eq_valueAt]
    simp [valuation, List.getD_eq_getElem?_getD, hi]
  constructor
  · rintro ⟨hlength, hy⟩
    have hlength' : y.length = rows.length := hlength
    refine ext_of_valuation (by simpa using hlength') fun i hi => ?_
    have hi' : i < rows.length := by simpa using hi
    rw [hvalue i hi', hy i hi']
  · rintro rfl
    exact ⟨List.length_map _, fun i hi => hvalue i hi⟩

end Relation

/-! ### Unions -/

/-- Some set over the space of the given name includes a point. -/
def SetUnion.Includes (u : SetUnion) (name : String) (p : List Int) : Prop :=
  ∃ s ∈ u.sets, s.name = name ∧ s.Includes p

namespace RelationUnion

/-- Some relation between the spaces of the given names relates two points. -/
def Relates (u : RelationUnion) (source : String) (x : List Int) (target : String) (y : List Int) :
    Prop :=
  ∃ m ∈ u.relations, m.source = source ∧ m.target = target ∧ m.Relates x y

variable {u : RelationUnion} {domains : SetUnion} {m : Relation}

private theorem mapM_eq_map {ε α β : Type} {f : α → Except ε β} {g : α → β} {xs : List α}
    (h : ∀ x ∈ xs, f x = .ok (g x)) : xs.mapM f = .ok (xs.map g) := by
  apply Outcome.mapM_eq_ok
  rw [List.forall₂_map_right_iff, List.forall₂_same]
  exact h

/-- The restrictions of a relation to sets of its input space, as far as they are not empty. -/
private def restrictions (domains : SetUnion) (m : Relation) : List Relation :=
  (domains.get m.source).filterMap fun s =>
    if (m.intersectDomain s).isEmpty then none else some (m.intersectDomain s)

private theorem restrict?_eq (hm : m.Regular) (hsets : ∀ s ∈ domains.sets, s.Regular)
    (hdims : ∀ s ∈ domains.sets, s.name = m.source → s.dims = m.inputs) :
    restrict? domains m = .ok (restrictions domains m) := by
  have hparts : ∀ s ∈ domains.get m.source, (do
      let part ← m.intersectDomain? s
      return if ← part.isEmpty? then none else some part) =
      (.ok (if (m.intersectDomain s).isEmpty then none else some (m.intersectDomain s)) :
        Except Fault (Option Relation)) := by
    intro s hs
    obtain ⟨hmem, hname⟩ := List.mem_filter.mp hs
    have hregular := hsets s hmem
    have hmovable : PointSet.movable s.vars s.cons = .ok () := by
      have hall : s.cons.all (·.vars ≤ s.vars) = true := by
        rw [List.all_eq_true]
        exact fun c hc => decide_eq_true (hregular c hc).le
      rw [PointSet.movable, hall, require_true]
    have hpart := PointSet.isRegular_eq_ok
      (Relation.regular_pairs.mpr (Relation.regular_intersectDomain (s := s) hm))
    have hmatch : (s.dims == m.inputs) = true := beq_iff_eq.mpr (hdims s hmem (by simpa using hname))
    simp only [Relation.intersectDomain?, hmatch, require_true, hmovable, Relation.isEmpty?,
      PointSet.isEmpty?, bind, Except.bind, pure, Except.pure, hpart]
    rfl
  rw [restrict?, mapM_eq_map hparts]
  change Except.ok _ = _
  rw [restrictions, List.filterMap_map]
  rfl

private theorem mem_restrictions {part : Relation} : part ∈ restrictions domains m ↔
    ∃ s ∈ domains.sets, s.name = m.source ∧ m.intersectDomain s = part ∧ part.isEmpty = false := by
  simp only [restrictions, List.mem_filterMap, SetUnion.get, List.mem_filter, beq_iff_eq, and_assoc]
  refine exists_congr fun s => and_congr_right fun _ => and_congr_right fun _ => ?_
  split
  · rename_i hempty
    constructor
    · rintro ⟨⟩
    · rintro ⟨rfl, hnot⟩
      rw [hempty] at hnot
      cases hnot
  · rename_i hempty
    constructor
    · intro hsome
      obtain rfl := Option.some.inj hsome
      exact ⟨rfl, by simpa using hempty⟩
    · rintro ⟨rfl, -⟩
      rfl

/-- Restricting relations to sets relates the points of the sets as before, and no others. A
restriction that is left out relates nothing. -/
theorem relates_intersectDomain? (hu : ∀ m ∈ u.relations, m.Regular)
    (hsets : ∀ s ∈ domains.sets, s.Regular)
    (hdims : ∀ m ∈ u.relations, ∀ s ∈ domains.sets, s.name = m.source → s.dims = m.inputs) :
    ∃ u', u.intersectDomain? domains = .ok u' ∧ ∀ source x target y,
      u'.Relates source x target y ↔ u.Relates source x target y ∧ domains.Includes source x := by
  refine ⟨⟨(u.relations.map (restrictions domains)).flatten⟩, ?_, fun source x target y => ?_⟩
  · rw [intersectDomain?, mapM_eq_map fun m hm => restrict?_eq (hu m hm) hsets (hdims m hm)]
    rfl
  · constructor
    · rintro ⟨part, hpart, rfl, rfl, hrelates⟩
      rw [List.mem_flatten] at hpart
      obtain ⟨parts, hparts, hpart⟩ := hpart
      obtain ⟨m, hm, rfl⟩ := List.mem_map.mp hparts
      obtain ⟨s, hs, hname, rfl, -⟩ := mem_restrictions.mp hpart
      rw [Relation.relates_intersectDomain (hu m hm) (hsets s hs) (hdims m hm s hs hname)] at hrelates
      exact ⟨⟨m, hm, rfl, rfl, hrelates.1⟩, ⟨s, hs, hname, hrelates.2⟩⟩
    · rintro ⟨⟨m, hm, rfl, rfl, hrelates⟩, ⟨s, hs, hname, hincludes⟩⟩
      have hregular := Relation.regular_intersectDomain (s := s) (hu m hm)
      have hpart := (Relation.relates_intersectDomain (hu m hm) (hsets s hs)
        (hdims m hm s hs hname) x y).mpr ⟨hrelates, hincludes⟩
      obtain ⟨-, -, hlinks⟩ := (Relation.relates_iff hregular).mp hpart
      have hempty : (m.intersectDomain s).isEmpty = false :=
        PointSet.isEmpty_of_has (Relation.regular_pairs.mpr hregular) (Relation.links_iff_has.mp hlinks)
      refine ⟨m.intersectDomain s, ?_, rfl, rfl, hpart⟩
      rw [List.mem_flatten]
      exact ⟨_, List.mem_map_of_mem hm, mem_restrictions.mpr ⟨s, hs, hname, rfl, hempty⟩⟩

end RelationUnion

/-! ### All laws together -/

/-- The operations on sets, relations and unions denote relational algebra on integer points. -/
theorem Relation.denotes_algebra {s t : PointSet} {m o : Relation} {u : RelationUnion}
    {domains : SetUnion} (hs : s.Regular) (ht : t.Regular) (hm : m.Regular) (ho : o.Regular)
    (hu : ∀ m ∈ u.relations, m.Regular) (hsets : ∀ s ∈ domains.sets, s.Regular) :
    (s.dims = t.dims → ∀ p, (s.intersect t).Includes p ↔ s.Includes p ∧ t.Includes p) ∧
    (∀ r, (s.product t).Includes r ↔ ∃ p q, r = p ++ q ∧ s.Includes p ∧ t.Includes q) ∧
    (∀ x y, m.reverse.Relates y x ↔ m.Relates x y) ∧
    (s.dims = m.inputs → ∀ x y, (m.intersectDomain s).Relates x y ↔ m.Relates x y ∧ s.Includes x) ∧
    (s.dims = m.outputs → ∀ x y, (m.intersectRange s).Relates x y ↔ m.Relates x y ∧ s.Includes y) ∧
    (m.outputs = o.inputs → ∀ x z, (m.compose o).Relates x z ↔ ∃ y, m.Relates x y ∧ o.Relates y z) ∧
    (s.dims = m.inputs → ∀ y, (m.image s).Includes y ↔ ∃ x, s.Includes x ∧ m.Relates x y) ∧
    (∀ x, m.domain.Includes x ↔ ∃ y, m.Relates x y) ∧
    (∀ y, m.range.Includes y ↔ ∃ x, m.Relates x y) ∧
    (∀ (source target : String) (inputs : Nat) (rows : List Affine),
      (∀ row ∈ rows, row.vars = inputs) → ∀ x y, (ofRows source inputs target rows).Relates x y ↔
        x.length = inputs ∧ y = rows.map (·.eval x)) ∧
    (∀ p, s.simplify.Includes p ↔ s.Includes p) ∧
    (∀ x y, m.simplify.Relates x y ↔ m.Relates x y) ∧
    ((∀ m ∈ u.relations, ∀ s ∈ domains.sets, s.name = m.source → s.dims = m.inputs) →
      ∃ u', u.intersectDomain? domains = .ok u' ∧ ∀ source x target y,
        u'.Relates source x target y ↔
          u.Relates source x target y ∧ domains.Includes source x) :=
  ⟨PointSet.includes_intersect hs ht, PointSet.includes_product hs ht, relates_reverse hm,
    relates_intersectDomain hm hs, relates_intersectRange hm hs, relates_compose hm ho,
    includes_image hm hs, includes_domain hm, includes_range hm,
    fun _ _ _ _ hrows => relates_ofRows hrows, PointSet.includes_simplify hs, relates_simplify hm,
    RelationUnion.relates_intersectDomain? hu hsets⟩

def PointSet.evens : PointSet := ⟨"s", 1, 1, [.zero ⟨[1, -2], 0⟩]⟩

/-- Relates a number to those that differ from it by a multiple of three. -/
def Relation.threeApart : Relation := ⟨"s", "s", 1, 1, 1, [.zero ⟨[1, -1, 3], 0⟩]⟩

/-- Composing and restricting relations that have locals themselves. Two steps of three lead from four to
ten, which is even. -/
theorem Relation.denotes_algebra_threeApart :
    PointSet.evens.Regular ∧ threeApart.Regular ∧
    (∀ x z, (threeApart.compose threeApart).Relates x z ↔
      ∃ y, threeApart.Relates x y ∧ threeApart.Relates y z) ∧
    (threeApart.compose threeApart).Relates [4] [10] ∧
    (threeApart.intersectRange .evens).Relates [4] [10] ∧
    ∃ u', RelationUnion.intersectDomain? ⟨[threeApart]⟩ ⟨[.evens]⟩ = .ok u' ∧
      u'.Relates "s" [4] "s" [10] := by
  have hevens : PointSet.evens.Regular := by
    change ∀ c ∈ PointSet.evens.cons, c.vars = PointSet.evens.vars
    decide
  have hthree : threeApart.Regular := by
    change ∀ c ∈ threeApart.cons, c.vars = threeApart.vars
    decide
  have hstep : threeApart.Relates [4] [7] := ⟨rfl, rfl, [1], rfl, by decide⟩
  have hnext : threeApart.Relates [7] [10] := ⟨rfl, rfl, [1], rfl, by decide⟩
  have hboth : threeApart.Relates [4] [10] := ⟨rfl, rfl, [2], rfl, by decide⟩
  have hfour : PointSet.evens.Includes [4] := ⟨rfl, [2], rfl, by decide⟩
  have hten : PointSet.evens.Includes [10] := ⟨rfl, [5], rfl, by decide⟩
  have hrelations : ∀ m ∈ (RelationUnion.mk [threeApart]).relations, m.Regular := by simpa using hthree
  have hsets : ∀ s ∈ (SetUnion.mk [.evens]).sets, s.Regular := by simpa using hevens
  obtain ⟨-, -, -, -, hrange, hcompose, -, -, -, -, -, -, hunion⟩ :=
    denotes_algebra hevens hevens hthree hthree hrelations hsets
  obtain ⟨u', hok, hrelates⟩ := hunion (by simp [PointSet.evens, threeApart])
  refine ⟨hevens, hthree, hcompose rfl, (hcompose rfl _ _).mpr ⟨_, hstep, hnext⟩,
    (hrange rfl _ _).mpr ⟨hboth, hten⟩, u', hok, (hrelates _ _ _ _).mpr ⟨?_, ?_⟩⟩
  · exact ⟨threeApart, by simp, rfl, rfl, hboth⟩
  · exact ⟨.evens, by simp, rfl, hfour⟩

end StreamLoom
