import StreamLoom.Proofs.Model.Dependency
import StreamLoom.Proofs.Relation.Algebra

/-!
# Accesses stay within bounds

An access is checked once, when it is made, and the check is one of its whole image: no constraint of the
target can be violated by any element that some point of the domain refers to, for some values of the
reductions around. What is left to see is that every access of a model was made in the frame that it
occurs in. A part of a computation is the computation of a part of the expression, inside of as many
reductions.
-/

namespace StreamLoom

attribute [local instance] Arithmetic.exact

open StreamLoom.System (Solves Over)

/-! ### Bounds -/

namespace Extent.Admits

variable {extents : List Extent} {flow : Option Nat} {y : List Int}

/-- An index that satisfies the bounds is that of an element, up to its place along the flow. -/
theorem exists_solves (h : Extent.Admits extents flow y) (hflow : ∀ d, flow = some d → extents[d]? = some none)
    (name : String) : ∃ z : Nat → Int, Solves z (PointSet.box name extents).cons ∧
      ∀ d, flow ≠ some d → z d = valuation y d := by
  refine ⟨fun d => if flow = some d then 0 else valuation y d, ?_, fun d hd => if_neg hd⟩
  rw [PointSet.solves_box]
  intro d extent hd
  have hlt := (List.getElem?_eq_some_iff.mp hd).1
  by_cases hne : flow = some d
  · rw [if_pos hne]
    refine ⟨le_rfl, ?_⟩
    rintro size rfl
    rw [hflow d hne] at hd
    cases hd
  · rw [if_neg hne]
    refine ⟨h.lower d hlt hne, ?_⟩
    rintro size rfl
    exact h.upper d size hd

theorem relax (h : Extent.Admits extents none y) : Extent.Admits extents flow y :=
  ⟨h.length, fun d hd _ => h.lower d hd nofun, h.upper⟩

end Extent.Admits

/-! ### Parts of computations -/

namespace Computation

/-- A computation contains another one as a part, with a value for each of the reduction variables around
it. -/
inductive Contains : Computation → Computation → List Int → Prop
  | here {c : Computation} : Contains c c []
  | operand {op : Op} {result : ValueType} {operands : List Computation} {c part : Computation}
      {r : List Int} (hc : c ∈ operands) (h : Contains c part r) : Contains (.apply op result operands) part r
  | body {op : Op} {result : ValueType} {dim : Nat} {lower upper : Int} {c part : Computation} {x : Int}
      {r : List Int} (hlow : lower ≤ x) (hhigh : x ≤ upper) (h : Contains c part r) :
      Contains (.reduce op result dim lower upper c) part (x :: r)

end Computation

/-- The reductions of a frame continue those of another one, with the given values. -/
def Frame.Extends (g f : Frame) (r : List Int) : Prop :=
  g.domain = f.domain ∧ ∀ outer : List Int, outer.length = f.reductions.length →
    f.Ranges (valuation outer) → g.Ranges (valuation (outer ++ r))

namespace Frame

theorem Extends.refl (f : Frame) : f.Extends f [] :=
  ⟨rfl, fun outer _ h => by rwa [List.append_nil]⟩

theorem Extends.within {f g : Frame} {lower upper x : Int} {r : List Int}
    (h : g.Extends (f.within lower upper) r) (hlow : lower ≤ x) (hhigh : x ≤ upper) :
    g.Extends f (x :: r) := by
  refine ⟨h.1, fun outer hlength hranges => ?_⟩
  have hinner := h.2 (outer ++ [x]) (by simp [Frame.within, hlength])
    (hranges.within hlength hlow hhigh)
  rwa [List.append_assoc, List.singleton_append] at hinner

end Frame

namespace Program

variable {p : Program} {arrays : List DataArray} {f : Frame}

/-- What is known of a computation by its kind, given the frame that it was made in. -/
def Makes (p : Program) (arrays : List DataArray) (f : Frame) : Computation → Prop
  | .constant _ | .iterator _ => True
  | .apply _ _ operands => ∃ es, p.computations arrays f es = .ok operands
  | .read number _ access => ∃ array origin indices, arrays[number]? = some array ∧
      Access.make f origin array.domain array.flow indices = .ok access
  | .input number _ access => ∃ input origin indices, p.inputs[number]? = some input ∧
      input.isStream = false ∧
      Access.make f origin (.box input.name input.extents) none indices = .ok access
  | .reduce _ _ _ lower upper body => ∃ e, p.computation arrays (f.within lower upper) e = .ok body

private theorem makes_accessArray {origin : Option Origin} {number : Nat} {indices : List Expr}
    {c : Computation} (h : accessArray arrays f origin number indices = .ok c) : p.Makes arrays f c := by
  obtain ⟨array, access, harray, haccess, rfl⟩ := accessArray_cases h
  exact ⟨array, origin, indices, harray, haccess⟩

private theorem makes_accessInput {origin : Option Origin} {number : Nat} {indices : List Expr}
    {c : Computation} (h : p.accessInput arrays f origin number indices = .ok c) :
    p.Makes arrays f c := by
  rcases accessInput_cases h with h | ⟨input, access, hinput, hstream, haccess, rfl⟩
  · exact makes_accessArray h
  · exact ⟨input, origin, indices, hinput, hstream, haccess⟩

theorem makes_computation {e : Expr} {c : Computation} (h : p.computation arrays f e = .ok c) :
    p.Makes arrays f c := by
  cases e with
  | constant origin value =>
    rw [computation] at h
    cases h
    trivial
  | iterator origin value =>
    rw [computation] at h
    cases h
    trivial
  | element origin target indices =>
    rw [computation] at h
    exact makes_accessArray h
  | input origin number indices =>
    rw [computation] at h
    exact makes_accessInput h
  | apply origin op operands =>
    rw [computation] at h
    obtain ⟨cs, hcs, h⟩ := Outcome.bind_eq_ok h
    obtain ⟨_, -, rfl⟩ := applied_cases h
    exact ⟨operands, hcs⟩
  | reduce origin op dim lower upper body =>
    rw [computation] at h
    obtain ⟨c', hc', h⟩ := Outcome.bind_eq_ok h
    obtain ⟨_, -, rfl⟩ := reduced_cases h
    exact ⟨body, hc'⟩

/-- A part of a computation was made in a frame that the reductions around it extend. -/
theorem makes_of_contains {part c : Computation} {r : List Int} (hpart : c.Contains part r)
    {e : Expr} (h : p.computation arrays f e = .ok c) : ∃ g : Frame, g.Extends f r ∧ p.Makes arrays g part := by
  induction hpart generalizing e f with
  | here => exact ⟨f, .refl f, makes_computation h⟩
  | operand hc _ ih =>
    obtain ⟨es, hes⟩ := makes_computation h
    obtain ⟨e', -, he'⟩ := Outcome.exists_of_forall₂ (forall₂_of_computations hes) hc
    exact ih he'
  | body hlow hhigh _ ih =>
    obtain ⟨e', he'⟩ := makes_computation h
    obtain ⟨g, hextends, hmakes⟩ := ih he'
    exact ⟨g, hextends.within hlow hhigh, hmakes⟩

end Program

/-! ### Accesses -/

namespace Access

variable {f : Frame} {extents : List Extent} {flow : Option Nat} {x : List Int}

/-- Whatever is linked to a point by a relation that has been checked satisfies the bounds. -/
theorem admits_of_links {relation : Relation} (hregular : relation.Regular) {name : String}
    (hwithin : (PointSet.box name extents).cons.all (isWithin relation.range flow) = true)
    (hflow : ∀ d, flow = some d → extents[d]? = some none) (hx : x.length = relation.inputs) {y : List Int}
    (houtputs : y.length = relation.outputs) (hy : y.length = extents.length)
    (hlinks : relation.Links (valuation x) (valuation y)) : Extent.Admits extents flow y := by
  have hrange : relation.range.Regular := Relation.regular_domain Relation.regular_reverse
  have hincludes := (Relation.includes_range hregular y).mpr
    ⟨x, (Relation.relates_iff hregular).mpr ⟨hx, houtputs, hlinks⟩⟩
  obtain ⟨hdims, hhas⟩ := (PointSet.includes_iff hrange).mp hincludes
  exact admits_of_check hrange hwithin hflow (hdims.symm.trans hy) hy hhas

/-- An access that could be made refers to elements within the bounds of its target, at every point of
its domain and for all values of the reductions around it. -/
theorem admits_of_make (hregular : f.domain.Regular) {origin : Option Origin} {name : String}
    {indices : List Expr} {access : Access}
    (h : make f origin (.box name extents) flow indices = .ok access)
    (hflow : ∀ d, flow = some d → extents[d]? = some none) (hx : x.length = f.dims)
    (hdomain : f.domain.Has (valuation x)) {r : List Int} (hranges : f.Ranges (valuation r)) :
    Extent.Admits extents flow (access.pattern.map (·.eval (x ++ r))) := by
  obtain ⟨hlength, hvars, hrelation, hwithin⟩ := make_cases h
  have hrelate : access.relation.Regular := by
    rw [hrelation]
    exact regular_relate
  apply admits_of_links (x := x) hrelate hwithin hflow
  · rw [hx, hrelation, inputs_relate]
  · rw [List.length_map, hrelation, outputs_relate]
  · rw [List.length_map, hlength, PointSet.dims_box]
  · rw [hrelation, links_relate hregular hvars]
    refine ⟨hdomain, valuation r, hranges, fun o ho => ?_⟩
    rw [← hx, ← valuation_append, ← Affine.eval_eq_valueAt]
    simp [valuation, ho]

end Access

namespace Model

variable {m : Model} {st : Statement} {x r : List Int}

theorem Built.admits_of_reading (hm : m.Built) (hst : st ∈ m.statements) {number : Nat}
    {type : ValueType} {access : Access}
    (hreading : st.computation.Reading r number type access) {array : DataArray}
    (harray : m.arrays[number]? = some array) (hlength : x.length = st.dims)
    (hx : Solves (valuation x) st.domain.cons) :
    Extent.Admits array.extents array.flow (access.pattern.map (·.eval (x ++ r))) := by
  obtain ⟨home, hhoused⟩ := hm.housed st hst
  obtain ⟨g, array', hdomain, hget, hrank, -, hrelation, hwithin, -⟩ :=
    hreading.framed hhoused.modelled (show ([] : List Int).length = _ from rfl) (by simp [Frame.Ranges])
  obtain rfl := Option.some.inj (harray.symm.trans hget)
  have hregular : access.relation.Regular := by
    rw [hrelation]
    exact Access.regular_relate
  apply Access.admits_of_links (x := x) hregular hwithin fun d hd => DataArray.extent_of_flow hd
  · rw [hrelation, Access.inputs_relate, Frame.dims, hdomain, hlength]
    rfl
  · rw [List.length_map, hrelation, Access.outputs_relate]
  · rw [List.length_map, hrank]
    rfl
  · exact hm.links_of_reading hst hreading hlength hx

private theorem map_eval_var (x : List Int) :
    ((List.range x.length).map (Affine.var x.length)).map (·.eval x) = x := by
  refine ext_of_valuation (by simp) fun d hd => ?_
  have hd' : d < x.length := by simpa using hd
  simp [valuation, hd', Affine.eval_eq_valueAt, Affine.valueAt_var]

variable {p : Program}

/-- The parts of a statement were made for the points of its domain, unless it copies a stream input. -/
theorem makes_of_contains (hm : (build p).execute.1 = .ok m) (hst : st ∈ m.statements)
    {part : Computation} (hpart : st.computation.Contains part r) :
    (∃ input number k, p.inputs[number]? = some input ∧
      m.arrays[k]? = some (Program.inputArray input number) ∧
      st = Program.inputStatement (Program.inputArray input number) number k ∧
      part = st.computation ∧ r = []) ∨
    ∃ g : Frame, g.domain = st.domain ∧ g.Ranges (valuation r) ∧ p.Makes m.arrays g part := by
  cases stems_of_build hm st hst with
  | @copy input number k hinput hstream harray h =>
    refine .inl ⟨input, number, k, hinput, harray, h, ?_⟩
    rw [h] at hpart ⊢
    cases hpart
    exact ⟨rfl, rfl⟩
  | pattern hid hpattern harray h =>
    obtain ⟨g, ⟨hdomain, hranges⟩, hmakes⟩ := Program.makes_of_contains hpart h.computation
    exact .inr ⟨g, hdomain, hranges [] rfl (by simp [Frame.Ranges]), hmakes⟩

/-- All indices that a statement uses at a point are within the bounds of what they refer to. Only what
is read of a stream may lie before its start. -/
structure Bounded (m : Model) (st : Statement) (x : List Int) : Prop where
  write : ∃ array, m.arrays[st.array]? = some array ∧ Extent.Admits array.extents none x
  read {r : List Int} {number : Nat} {type : ValueType} {access : Access}
    (h : st.computation.Contains (.read number type access) r) :
    ∃ array, m.arrays[number]? = some array ∧
      Extent.Admits array.extents array.flow (access.pattern.map (·.eval (x ++ r)))
  input {r : List Int} {number : Nat} {type : ValueType} {access : Access}
    (h : st.computation.Contains (.input number type access) r) :
    ∃ input, m.inputs[number]? = some input ∧
      Extent.Admits input.extents none (access.pattern.map (·.eval (x ++ r)))

theorem bounded_of_build (hm : (build p).execute.1 = .ok m) (hst : st ∈ m.statements)
    (hx : st.domain.Includes x) : m.Bounded st x := by
  obtain ⟨_, _, hassembled⟩ := assembled_of_build hm
  obtain ⟨array, hhoused⟩ := (built_of_build hm).housed st hst
  obtain ⟨hlength, hhas⟩ := (PointSet.includes_iff hhoused.regular).mp hx
  have hsolves := hhoused.inside _ ((PointSet.has_iff_solves hhoused.regular hhoused.locals).mp hhas)
  have hwritten : Extent.Admits array.extents none x := by
    rw [Extent.Admits.iff_includes, PointSet.includes_iff (PointSet.regular_box array.name array.extents)]
    exact ⟨hlength.trans hhoused.dims, PointSet.has_of_solves hsolves⟩
  refine ⟨⟨array, hhoused.home, hwritten⟩, fun hpart => ?_, fun {_ number _ _} hpart => ?_⟩
  · obtain ⟨_, _, _, -, -, rfl, hcopy, -⟩ | ⟨g, hdomain, hranges, array', origin, indices, harray', hmake⟩ :=
      makes_of_contains hm hst hpart
    · cases hcopy
    · rw [← hdomain] at hlength hhas
      exact ⟨array', harray', Access.admits_of_make (by rw [hdomain]; exact hhoused.regular) hmake
        (fun d hd => DataArray.extent_of_flow hd) hlength hhas hranges⟩
  · rw [hassembled.inputs]
    obtain ⟨input, number', k, hinput, -, rfl, hcopy, rfl⟩ |
      ⟨g, hdomain, hranges, input, origin, indices, hinput, -, hmake⟩ := makes_of_contains hm hst hpart
    · obtain ⟨rfl, -, rfl⟩ := Computation.input.inj hcopy
      have hindex : x.length = input.extents.length := hlength
      refine ⟨input, hinput, ?_⟩
      rw [List.append_nil, show (Program.inputArray input number).rank = input.extents.length from rfl,
        ← hindex, map_eval_var]
      exact Extent.Admits.iff_includes.mpr hx
    · rw [← hdomain] at hlength hhas
      exact ⟨input, hinput, Access.admits_of_make (by rw [hdomain]; exact hhoused.regular) hmake nofun
        hlength hhas hranges⟩

end Model

end StreamLoom
