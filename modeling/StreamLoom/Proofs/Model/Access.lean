import StreamLoom.Model.Build
import StreamLoom.Proofs.Outcome
import StreamLoom.Proofs.Relation.Membership

/-!
# Domains and accesses

Everything that a model says about points is made of a few kinds of constraints: the box of an array,
the conditions of a guard and the index of an access. Each kind is over as many variables as the set
or relation it belongs to, and its solutions are what it was written for.
-/

namespace StreamLoom

attribute [local instance] Arithmetic.exact

open StreamLoom.System (Solves Over)

namespace Constraint

@[simp] theorem vars_le (l r : Affine) : (le l r).vars = min r.vars l.vars := by
  change (r.sub l).vars = _
  simp

@[simp] theorem vars_lt (l r : Affine) : (lt l r).vars = min r.vars l.vars := by
  change ((r.sub l).plus (-1)).vars = _
  simp

@[simp] theorem vars_equal (l r : Affine) : (equal l r).vars = min l.vars r.vars := by
  change (l.sub r).vars = _
  simp

end Constraint

/-! ### Boxes -/

namespace PointSet

@[simp] theorem dims_box (name : String) (extents : List Extent) :
    (box name extents).dims = extents.length := rfl

@[simp] theorem locals_box (name : String) (extents : List Extent) : (box name extents).locals = 0 := rfl

private def boxRows (extents : List Extent) : List Constraint :=
  (extents.zipIdx).flatMap fun (extent, k) =>
    .atLeast (.var extents.length k) :: match extent with
      | some size => [.lt (.var extents.length k) (.constant extents.length size)]
      | none => []

private theorem mem_boxRows {extents : List Extent} {c : Constraint} :
    c ∈ boxRows extents ↔ ∃ k extent, extents[k]? = some extent ∧
      (c = .atLeast (.var extents.length k) ∨ ∃ size, extent = some size ∧
        c = .lt (.var extents.length k) (.constant extents.length size)) := by
  simp only [boxRows, List.mem_flatMap, Prod.exists, List.mem_zipIdx_iff_getElem?, List.mem_cons]
  constructor
  · rintro ⟨extent, k, hget, hc⟩
    refine ⟨k, extent, hget, hc.imp_right fun hc => ?_⟩
    cases extent with
    | none => simp at hc
    | some size => exact ⟨size, rfl, List.mem_singleton.mp hc⟩
  · rintro ⟨k, extent, hget, hc⟩
    refine ⟨extent, k, hget, hc.imp_right ?_⟩
    rintro ⟨size, rfl, rfl⟩
    simp

private theorem over_boxRows (extents : List Extent) : Over extents.length (boxRows extents) := by
  intro c hc
  obtain ⟨k, extent, -, rfl | ⟨size, -, rfl⟩⟩ := mem_boxRows.mp hc
  · simp
  · simp

theorem regular_box (name : String) (extents : List Extent) : (box name extents).Regular := by
  have hfull : (full name extents.length).Regular := by simp [Regular, Over, full]
  exact regular_constrain hfull (over_boxRows extents)

theorem solves_box {name : String} {extents : List Extent} {p : Nat → Int} :
    Solves p (box name extents).cons ↔
      ∀ k extent, extents[k]? = some extent → 0 ≤ p k ∧ ∀ size, extent = some size → p k < size := by
  have hrows : Solves p (box name extents).cons ↔ Solves p (boxRows extents) := by
    change Solves p ([] ++ (boxRows extents).map (·.extend 0)) ↔ _
    simp
  have hk : ∀ {k : Nat} {extent : Extent}, extents[k]? = some extent → k < extents.length :=
    fun hget => (List.getElem?_eq_some_iff.mp hget).1
  rw [hrows]
  constructor
  · intro h k extent hget
    have hlow := h _ (mem_boxRows.mpr ⟨k, extent, hget, .inl rfl⟩)
    rw [Constraint.admits_atLeast, Affine.valueAt_var (hk hget)] at hlow
    refine ⟨hlow, fun size hsize => ?_⟩
    have hhigh := h _ (mem_boxRows.mpr ⟨k, extent, hget, .inr ⟨size, hsize, rfl⟩⟩)
    rw [Constraint.admits_lt (by simp), Affine.valueAt_var (hk hget)] at hhigh
    simpa using hhigh
  · intro h c hc
    obtain ⟨k, extent, hget, rfl | ⟨size, hsize, rfl⟩⟩ := mem_boxRows.mp hc
    · rw [Constraint.admits_atLeast, Affine.valueAt_var (hk hget)]
      exact (h k extent hget).1
    · rw [Constraint.admits_lt (by simp), Affine.valueAt_var (hk hget)]
      simpa using (h k extent hget).2 size hsize

end PointSet

/-- An index satisfies the bounds of some extents. Along a flow, it may lie before the start. -/
structure Extent.Admits (extents : List Extent) (flow : Option Nat) (y : List Int) : Prop where
  length : y.length = extents.length
  lower : ∀ d, d < extents.length → flow ≠ some d → 0 ≤ valuation y d
  upper : ∀ d size, extents[d]? = some (some size) → valuation y d < size

namespace Extent.Admits

variable {extents : List Extent} {name : String} {y : List Int}

/-- Without a flow, the bounds are those of the box. -/
theorem iff_solves : Extent.Admits extents none y ↔
    y.length = extents.length ∧ Solves (valuation y) (PointSet.box name extents).cons := by
  rw [PointSet.solves_box]
  constructor
  · rintro ⟨hlength, hlower, hupper⟩
    refine ⟨hlength, fun k extent hk => ⟨hlower k (List.getElem?_eq_some_iff.mp hk).1 nofun, ?_⟩⟩
    rintro size rfl
    exact hupper k size hk
  · rintro ⟨hlength, hbox⟩
    refine ⟨hlength, fun d hd _ => (hbox d _ (List.getElem?_eq_getElem hd)).1, fun d size hd => ?_⟩
    exact (hbox d _ hd).2 size rfl

theorem iff_includes : Extent.Admits extents none y ↔ (PointSet.box name extents).Includes y := by
  rw [PointSet.includes_iff (PointSet.regular_box name extents),
    PointSet.has_iff_solves (PointSet.regular_box name extents) rfl, PointSet.dims_box, iff_solves]

end Extent.Admits

/-! ### Affine expressions and guards -/

namespace Expr

section

variable [Arithmetic]

private theorem vars_combine {n : Nat} {op : Op} {as : List Affine} {a : Affine}
    (has : ∀ b ∈ as, b.vars = n) (h : combine op as = some a) : a.vars = n := by
  unfold combine at h
  split at h
  · obtain rfl := Option.some.inj h
    simpa using has
  · obtain rfl := Option.some.inj h
    simp_all
  · obtain rfl := Option.some.inj h
    simp_all
  · split at h
    · obtain rfl := Option.some.inj h
      simp_all
    · split at h
      · obtain rfl := Option.some.inj h
        simp_all
      · cases h
  · cases h

/-- The affine forms of some expressions are the affine form of each of them. -/
theorem forall₂_of_affines? {n : Nat} {es : List Expr} {as : List Affine} (h : affines? n es = some as) :
    List.Forall₂ (fun e a => e.affine? n = some a) es as := by
  induction es generalizing as with
  | nil =>
    obtain rfl : [] = as := by simpa [affines?] using h
    exact .nil
  | cons e rest ih =>
    simp only [affines?, Option.bind_eq_bind, Option.pure_def] at h
    obtain ⟨a, ha, hrest⟩ := Option.bind_eq_some_iff.mp h
    obtain ⟨as', has', heq⟩ := Option.bind_eq_some_iff.mp hrest
    obtain rfl := Option.some.inj heq
    exact .cons ha (ih has')

mutual

/-- What holds of constants and of variables, and of an operation as long as it holds of the operands, holds
of all expressions that have an affine form. -/
theorem affine?_induction {n : Nat} {P : Expr → Affine → Prop}
    (hconstant : ∀ origin value, P (.constant origin (.int value)) (.constant n value))
    (hiterator : ∀ origin v, v.dim < n →
      P (.iterator origin v) (((Affine.var n v.dim).scale v.ratio).plus v.offset))
    (happly : ∀ origin op operands as a, affines? n operands = some as → List.Forall₂ P operands as →
      combine op as = some a → P (.apply origin op operands) a) : (e : Expr) → {a : Affine} → e.affine? n = some a → P e a
  | .constant origin value, a, h => by
    cases value <;> simp only [affine?, Option.some.injEq, reduceCtorEq] at h
    subst h
    exact hconstant origin _
  | .iterator origin v, a, h => by
    simp only [affine?] at h
    split at h
    · rename_i hlt
      obtain rfl := Option.some.inj h
      exact hiterator origin v hlt
    · cases h
  | .apply origin op operands, a, h => by
    rw [affine?] at h
    obtain ⟨as, has, hcombine⟩ := Option.bind_eq_some_iff.mp h
    exact happly origin op operands as a has
      (forall₂_of_affine? hconstant hiterator happly operands (forall₂_of_affines? has)) hcombine
  | .element .., a, h => by simp [affine?] at h
  | .input .., a, h => by simp [affine?] at h
  | .reduce .., a, h => by simp [affine?] at h

private theorem forall₂_of_affine? {n : Nat} {P : Expr → Affine → Prop}
    (hconstant : ∀ origin value, P (.constant origin (.int value)) (.constant n value))
    (hiterator : ∀ origin v, v.dim < n →
      P (.iterator origin v) (((Affine.var n v.dim).scale v.ratio).plus v.offset))
    (happly : ∀ origin op operands as a, affines? n operands = some as → List.Forall₂ P operands as →
      combine op as = some a → P (.apply origin op operands) a) : (es : List Expr) → {as : List Affine} →
    List.Forall₂ (fun e a => e.affine? n = some a) es as → List.Forall₂ P es as
  | [], _, .nil => .nil
  | e :: rest, _, .cons ha has =>
    .cons (affine?_induction hconstant hiterator happly e ha)
      (forall₂_of_affine? hconstant hiterator happly rest has)

end

theorem vars_affine? {n : Nat} (e : Expr) {a : Affine} (h : e.affine? n = some a) : a.vars = n := by
  refine affine?_induction (P := fun _ a => a.vars = n) ?_ ?_ ?_ e h
  · simp
  · simp
  · intro _ _ _ as a _ has hcombine
    exact vars_combine (fun b hb => (Outcome.exists_of_forall₂ has hb).elim fun _ hvars => hvars.2) hcombine

theorem vars_affines? {n : Nat} {es : List Expr} {as : List Affine} (h : affines? n es = some as) :
    ∀ a ∈ as, a.vars = n := by
  intro a ha
  obtain ⟨e, -, he⟩ := Outcome.exists_of_forall₂ (forall₂_of_affines? h) ha
  exact vars_affine? e he

end

end Expr

namespace Guard

private theorem vars_comparison {n : Nat} {op : Op} {l r : Affine} {c : Constraint}
    (hl : l.vars = n) (hr : r.vars = n) (h : comparison op l r = some c) : c.vars = n := by
  unfold comparison at h
  split at h
  all_goals cases h
  all_goals simp [hl, hr]

private theorem over_comparing {n : Nat} {negated : Bool} {origin : Option Origin} {op : Op}
    {operands : List Expr} {cs : List Constraint} (h : comparing n negated origin op operands = .ok cs) :
    Over n cs := by
  unfold comparing at h
  split at h
  · rename_i l r haffines
    have hvars := Expr.vars_affines? haffines
    split at h
    · rename_i c hc
      cases h
      intro c' hc'
      obtain rfl := List.mem_singleton.mp hc'
      exact vars_comparison (hvars l (by simp)) (hvars r (by simp)) hc
    · cases h
  · cases h

theorem over_constraints {n : Nat} {negated : Bool} {e : Expr} {cs : List Constraint}
    (h : constraints n negated e = .ok cs) : Over n cs := by
  have happend : ∀ {a b : Expr} {negated : Bool} {cs : List Constraint},
      (∀ {cs : List Constraint}, constraints n negated a = .ok cs → Over n cs) →
      (∀ {cs : List Constraint}, constraints n negated b = .ok cs → Over n cs) →
      (do return (← constraints n negated a) ++ (← constraints n negated b)) = .ok cs →
      Over n cs := by
    intro a b negated cs ha hb h
    obtain ⟨as, has, hrest⟩ := Outcome.bind_eq_ok h
    obtain ⟨bs, hbs, hpure⟩ := Outcome.bind_eq_ok hrest
    cases hpure
    exact System.over_append.mpr ⟨ha has, hb hbs⟩
  fun_induction constraints n negated e generalizing cs with
  | case1 negated origin value =>
    cases h
    split <;> simp [Over, Constraint.never]
  | case2 negated origin e ih => exact ih h
  | case3 => cases h
  | case4 negated origin a b hnegated iha ihb => exact happend iha ihb h
  | case5 origin a b iha ihb => exact happend iha ihb h
  | case6 => cases h
  | case7 => exact over_comparing h
  | case8 => cases h
  | case9 => cases h

end Guard

/-! ### Accesses -/

namespace Access

theorem affines?_of_indexForms [Arithmetic] {n : Nat} {es : List Expr} {pattern : List Affine}
    (h : indexForms n es = .ok pattern) : Expr.affines? n es = some pattern := by
  induction es generalizing pattern with
  | nil =>
    cases h
    rfl
  | cons e rest ih =>
    rw [indexForms] at h
    split at h
    · rename_i a ha
      obtain ⟨as, has, rfl⟩ := Outcome.map_eq_ok h
      rw [Expr.affines?, ha, ih has]
      rfl
    · cases h

theorem indexForms_spec {n : Nat} {es : List Expr} {pattern : List Affine}
    (h : indexForms n es = .ok pattern) :
    pattern.length = es.length ∧ ∀ a ∈ pattern, a.vars = n := by
  have haffines := affines?_of_indexForms h
  exact ⟨(Expr.forall₂_of_affines? haffines).length_eq.symm, Expr.vars_affines? haffines⟩

variable {f : Frame} {target : String} {pattern : List Affine}

/-- The index of an access, before the domain of its statement is taken into account. -/
private def indexed (f : Frame) (target : String) (pattern : List Affine) : Relation :=
  let rank := pattern.length
  let locals := f.reductions.length
  let n := f.dims + rank + locals
  let places := List.range f.dims ++ List.range' (f.dims + rank) locals
  let indices := (pattern.zipIdx).map fun (a, o) =>
    Constraint.equal (.var n (f.dims + o)) (a.remap n places)
  let bounds := (f.reductions.zipIdx).flatMap fun ((lower, upper), l) =>
    let v := Affine.var n (f.dims + rank + l)
    [.le (.constant n lower) v, .le v (.constant n upper)]
  ⟨f.name, target, f.dims, rank, locals, indices ++ bounds⟩

private theorem relate_eq :
    relate f target pattern = ((indexed f target pattern).intersectDomain f.domain).simplify := rfl

private theorem regular_indexed : (indexed f target pattern).Regular := by
  refine System.over_append.mpr ⟨fun c hc => ?_, fun c hc => ?_⟩
  · obtain ⟨⟨a, o⟩, -, rfl⟩ := List.mem_map.mp hc
    simp [indexed, Relation.vars, Relation.dims]
  · obtain ⟨⟨⟨lower, upper⟩, l⟩, -, hc⟩ := List.mem_flatMap.mp hc
    rcases List.mem_cons.mp hc with rfl | hc
    · simp [indexed, Relation.vars, Relation.dims]
    · obtain rfl := List.mem_singleton.mp hc
      simp [indexed, Relation.vars, Relation.dims]

end Access

/-- The values of the reduction variables are within their bounds. -/
def Frame.Ranges (f : Frame) (r : Nat → Int) : Prop :=
  ∀ l lower upper, f.reductions[l]? = some (lower, upper) → lower ≤ r l ∧ r l ≤ upper

/-- One more reduction continues the values of those around it. -/
theorem Frame.Ranges.within {f : Frame} {outer : List Int} (h : f.Ranges (valuation outer))
    (hlength : outer.length = f.reductions.length) {lower upper x : Int} (hlow : lower ≤ x)
    (hhigh : x ≤ upper) : (f.within lower upper).Ranges (valuation (outer ++ [x])) := by
  intro l a b hget
  by_cases hl : l < f.reductions.length
  · rw [Frame.within, List.getElem?_append_left hl] at hget
    rw [valuation_append_left (hlength.symm ▸ hl)]
    exact h l a b hget
  · have hlast : l = f.reductions.length := by
      have hlt := (List.getElem?_eq_some_iff.mp hget).1
      simp only [Frame.within, List.length_append, List.length_singleton] at hlt
      omega
    rw [Frame.within, hlast, List.getElem?_concat_length] at hget
    obtain ⟨rfl, rfl⟩ := Prod.mk.inj (Option.some.inj hget)
    rw [hlast, ← hlength]
    simpa [valuation] using And.intro hlow hhigh

namespace Access

variable {f : Frame} {target : String} {pattern : List Affine}

private theorem admits_index (hpattern : ∀ a ∈ pattern, a.vars = f.vars) (w : Nat → Int) {o : Nat}
    (ho : o < pattern.length) :
    (Constraint.equal (.var (f.dims + pattern.length + f.reductions.length) (f.dims + o))
      (pattern[o].remap (f.dims + pattern.length + f.reductions.length)
        (List.range f.dims ++ List.range' (f.dims + pattern.length) f.reductions.length))).Admits w ↔
    w (f.dims + o) =
      pattern[o].valueAt (Relation.joined f.dims w fun l => w (f.dims + pattern.length + l)) := by
  have hvars : pattern[o].vars = f.dims + f.reductions.length := hpattern _ (List.getElem_mem ho)
  rw [Constraint.admits_equal (by simp), Affine.valueAt_var (by omega), List.range_eq_range',
    Affine.valueAt_remap _ _ _ (by simp [hvars]) (lt_of_mem_blocks (by omega) (by omega))]
  refine iff_of_eq (congrArg _ (Affine.valueAt_congr_of_lt hvars.le fun i hlt => ?_))
  rw [getD_blocks, Relation.joined]
  by_cases hdims : i < f.dims
  · rw [if_pos hdims, if_pos hdims, Nat.zero_add]
  · rw [if_neg hdims, if_neg hdims, if_pos hlt]

private theorem solves_indexed (hpattern : ∀ a ∈ pattern, a.vars = f.vars) (w : Nat → Int) :
    Solves w (indexed f target pattern).cons ↔
      (∀ o (ho : o < pattern.length), w (f.dims + o) =
        pattern[o].valueAt (Relation.joined f.dims w fun l => w (f.dims + pattern.length + l))) ∧
      f.Ranges fun l => w (f.dims + pattern.length + l) := by
  have hrange : ∀ {l : Nat} {b : Int × Int}, f.reductions[l]? = some b → l < f.reductions.length :=
    fun hget => (List.getElem?_eq_some_iff.mp hget).1
  rw [indexed, System.solves_append]
  refine and_congr ⟨fun h o ho => ?_, fun h c hc => ?_⟩ ⟨fun h l lower upper hget => ?_, fun h c hc => ?_⟩
  · refine (admits_index hpattern w ho).mp (h _ (List.mem_map.mpr ⟨(pattern[o], o), ?_, rfl⟩))
    exact List.mem_zipIdx_iff_getElem?.mpr (List.getElem?_eq_getElem ho)
  · obtain ⟨⟨a, o⟩, hmem, rfl⟩ := List.mem_map.mp hc
    have hget : pattern[o]? = some a := List.mem_zipIdx_iff_getElem?.mp hmem
    obtain ⟨ho, rfl⟩ := List.getElem?_eq_some_iff.mp hget
    exact (admits_index hpattern w ho).mpr (h o ho)
  · have hmem : ((lower, upper), l) ∈ f.reductions.zipIdx := List.mem_zipIdx_iff_getElem?.mpr hget
    have hl := hrange hget
    have hlow := h _ (List.mem_flatMap.mpr ⟨_, hmem, List.mem_cons_self⟩)
    have hhigh := h _ (List.mem_flatMap.mpr ⟨_, hmem, List.mem_cons_of_mem _ (List.mem_singleton.mpr rfl)⟩)
    rw [Constraint.admits_le (by simp), Affine.valueAt_var (by omega)] at hlow hhigh
    exact ⟨by simpa using hlow, by simpa using hhigh⟩
  · obtain ⟨⟨⟨lower, upper⟩, l⟩, hmem, hc⟩ := List.mem_flatMap.mp hc
    have hget : f.reductions[l]? = some (lower, upper) := List.mem_zipIdx_iff_getElem?.mp hmem
    have hl := hrange hget
    obtain ⟨hlow, hhigh⟩ := h l lower upper hget
    rcases List.mem_cons.mp hc with rfl | hc
    · rw [Constraint.admits_le (by simp), Affine.valueAt_var (by omega)]
      simpa using hlow
    · obtain rfl := List.mem_singleton.mp hc
      rw [Constraint.admits_le (by simp), Affine.valueAt_var (by omega)]
      simpa using hhigh

@[simp] theorem inputs_relate : (relate f target pattern).inputs = f.dims := rfl

@[simp] theorem outputs_relate : (relate f target pattern).outputs = pattern.length := rfl

@[simp] theorem target_relate : (relate f target pattern).target = target := rfl

theorem regular_relate : (relate f target pattern).Regular := by
  rw [relate_eq]
  exact Relation.regular_simplify (Relation.regular_intersectDomain regular_indexed)

/-- An access refers, from each point of the domain, to the elements at its index, for all values of
the reduction variables. -/
theorem links_relate (hdomain : f.domain.Regular) (hpattern : ∀ a ∈ pattern, a.vars = f.vars)
    {x y : Nat → Int} :
    (relate f target pattern).Links x y ↔ f.domain.Has x ∧ ∃ r, f.Ranges r ∧
      ∀ o (ho : o < pattern.length), y o = pattern[o].valueAt (Relation.joined f.dims x r) := by
  rw [relate_eq, Relation.links_simplify (Relation.regular_intersectDomain regular_indexed),
    Relation.links_intersectDomain regular_indexed hdomain rfl, and_comm]
  refine and_congr_right fun _ => ?_
  constructor
  · rintro ⟨w, hwx, hwy, hw⟩
    obtain ⟨hindex, hranges⟩ := (solves_indexed hpattern w).mp hw
    refine ⟨fun l => w (f.dims + pattern.length + l), hranges, fun o ho => ?_⟩
    rw [← hwy o ho]
    refine (hindex o ho).trans (congrArg _ ?_)
    funext i
    simp only [Relation.joined]
    split
    · exact hwx i ‹_›
    · rfl
  · rintro ⟨r, hranges, hindex⟩
    let w := Relation.joined f.dims x (Relation.joined pattern.length y r)
    have hreductions : (fun l => w (f.dims + pattern.length + l)) = r := by
      funext l
      simp only [w, Nat.add_assoc, Relation.joined_add]
    have hpoint : Relation.joined f.dims w r = Relation.joined f.dims x r := by
      funext i
      simp only [Relation.joined, w]
      split <;> rfl
    have hindices : ∀ o, o < pattern.length → w (f.dims + o) = y o := by
      intro o ho
      simp only [w]
      rw [Relation.joined_add, Relation.joined_of_lt ho]
    refine ⟨w, fun i hi => Relation.joined_of_lt hi _ _, hindices,
      (solves_indexed hpattern w).mpr ⟨fun o ho => ?_, ?_⟩⟩
    · rw [hreductions, hpoint, ← hindex o ho, hindices o ho]
    · rwa [hreductions]

/-- What an access that could be made consists of. -/
theorem make_cases {origin : Option Origin} {domain : PointSet} {flow : Option Nat}
    {indices : List Expr} {access : Access} (h : make f origin domain flow indices = .ok access) :
    access.pattern.length = domain.dims ∧ (∀ a ∈ access.pattern, a.vars = f.vars) ∧
      access.relation = relate f domain.name access.pattern ∧
      domain.cons.all (isWithin access.relation.range flow) = true := by
  simp only [make] at h
  split at h
  · cases h
  · rename_i hlength
    obtain ⟨pattern, hpattern, hrest⟩ := Outcome.bind_eq_ok h
    obtain ⟨hforms, hvars⟩ := indexForms_spec hpattern
    split at hrest
    · rename_i hwithin
      cases hrest
      exact ⟨hforms.trans (by simpa using hlength), hvars, rfl, hwithin⟩
    · cases hrest

/-! ### Bounds -/

private theorem isLowerBound_eq_false {c : Constraint} {d k : Nat} (hne : k ≠ d) (hk : c.coeff k ≠ 0) :
    isLowerBound c d = false := by
  have hlt : k < c.form.coeffs.length := by
    by_contra hle
    exact hk (Affine.coeff_of_le (not_lt.mp hle))
  have hget : c.form.coeffs[k]? = some (c.form.coeffs.getD k 0) := by
    simp [hlt]
  rw [isLowerBound, List.all_eq_false]
  exact ⟨(c.coeff k, k), List.mem_zipIdx_iff_getElem?.mpr hget, by simp [hne, hk]⟩

private theorem admits_of_isWithin {image : PointSet} {flow : Option Nat} {c : Constraint}
    (himage : image.Regular) (hvars : c.vars = image.dims) (hequality : c.equality = false)
    (hlower : ∀ d, flow = some d → isLowerBound c d = false) (h : isWithin image flow c = true)
    {y : Nat → Int} (hy : image.Has y) : c.Admits y := by
  have hover : Over image.dims [c.negate] := by
    intro c' hc'
    obtain rfl := List.mem_singleton.mp hc'
    rw [← hvars]
    change (c.form.neg.plus (-1)).vars = c.form.vars
    simp
  have hempty : (image.constrain [c.negate]).isEmpty = true := by
    have hnone : flow.any (isLowerBound c ·) = false := by
      cases flow with
      | none => rfl
      | some d => exact hlower d rfl
    simpa [isWithin, hequality, hnone] using h
  by_contra hnot
  refine PointSet.not_has_of_isEmpty (PointSet.regular_constrain himage hover) hempty y
    ((PointSet.has_constrain hover).mpr ⟨hy, fun c' hc' => ?_⟩)
  obtain rfl := List.mem_singleton.mp hc'
  exact (Constraint.admits_negate hequality y).mpr hnot

/-- The elements of an access satisfy the bounds of its target. -/
theorem admits_of_check {name : String} {extents : List Extent} {flow : Option Nat} {image : PointSet}
    (himage : image.Regular) (h : (PointSet.box name extents).cons.all (isWithin image flow) = true)
    (hflow : ∀ d, flow = some d → extents[d]? = some none) (hdims : image.dims = extents.length)
    {y : List Int} (hlength : y.length = extents.length) (hy : image.Has (valuation y)) :
    Extent.Admits extents flow y := by
  have hadmits : ∀ c ∈ PointSet.boxRows extents, c.vars = extents.length → c.equality = false →
      (∀ d, flow = some d → isLowerBound c d = false) → c.Admits (valuation y) := by
    intro c hc hvars hequality hlower
    have hmem : c.extend 0 ∈ (PointSet.box name extents).cons := by
      change c.extend 0 ∈ [] ++ (PointSet.boxRows extents).map (·.extend 0)
      exact List.mem_append_right _ (List.mem_map_of_mem hc)
    have hextend : c.extend 0 = c := by simp [Constraint.extend, Affine.extend]
    rw [hextend] at hmem
    exact admits_of_isWithin himage (hvars.trans hdims.symm) hequality hlower
      (List.all_eq_true.mp h c hmem) hy
  refine ⟨hlength, fun d hd hne => ?_, fun d size hd => ?_⟩
  · have hlow := hadmits _ (PointSet.mem_boxRows.mpr ⟨d, _, List.getElem?_eq_getElem hd, .inl rfl⟩) (by simp)
      rfl fun k hk => isLowerBound_eq_false (k := d) (by rintro rfl; exact hne hk) (by
        change (Affine.var _ _).coeff d ≠ 0
        simp [Affine.coeff_var hd])
    rwa [Constraint.admits_atLeast, Affine.valueAt_var hd] at hlow
  · have hlt := (List.getElem?_eq_some_iff.mp hd).1
    have hhigh := hadmits _ (PointSet.mem_boxRows.mpr ⟨d, _, hd, .inr ⟨size, rfl, rfl⟩⟩) (by simp) rfl
      fun k hk => isLowerBound_eq_false (k := d)
        (by
          rintro rfl
          rw [hflow d hk] at hd
          cases hd)
        (by
          change ((Affine.constant _ _).sub (Affine.var _ _)).coeff d ≠ 0
          simp [Affine.coeff_sub, Affine.coeff_var hlt])
    rwa [Constraint.admits_lt (by simp), Affine.valueAt_var hlt, Affine.valueAt_constant] at hhigh

end Access

end StreamLoom
