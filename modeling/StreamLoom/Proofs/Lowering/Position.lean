import StreamLoom.Proofs.Lowering.Offset
import StreamLoom.Proofs.Model.Bounds

/-!
# Row-major positions

Inputs and outputs are addressed in row-major order, a finite input with its dimensions as they are
declared, and a stream with its flow dimension outermost. Either way the position of an element is the
number that its indices stand for in the system of the extents, and the strides are made so that a machine
arrives at this number.
-/

namespace StreamLoom.Lowering

attribute [local instance] Arithmetic.exact

/-! ### Strides -/

/-- The extents of some dimensions, as they are written in a listing. -/
def codesOf (extents : List Extent) (order : List Nat) : List Int :=
  order.map fun d => Extent.code (extents[d]?).join

@[simp] theorem codesOf_cons (extents : List Extent) (c : Nat) (order : List Nat) :
    codesOf extents (c :: order) = Extent.code (extents[c]?).join :: codesOf extents order := rfl

@[simp] theorem length_codesOf (extents : List Extent) (order : List Nat) :
    (codesOf extents order).length = order.length := List.length_map _

theorem rowMajor_cons (extents : List Extent) (c : Nat) (order : List Nat) :
    rowMajor extents (c :: order) = (c, (codesOf extents order).prod) :: rowMajor extents order := by
  simp [rowMajor, List.zipIdx_cons, List.zipIdx_succ, Arithmetic.product_eq_prod, codesOf]

theorem lookup_rowMajor (extents : List Extent) (order : List Nat) (d : Nat) :
    ((rowMajor extents order).lookup d).getD 0 = Layout.strideIn order (codesOf extents order) d := by
  induction order with
  | nil => rfl
  | cons c order ih =>
    rw [rowMajor_cons, codesOf_cons, Layout.strideIn_cons, List.lookup_cons]
    by_cases hcd : c = d
    · rw [if_pos hcd, ← hcd, beq_self_eq_true]
      rfl
    · rw [if_neg hcd, ← ih, beq_false_of_ne (Ne.symm hcd)]

theorem map_rowMajor (extents : List Extent) {order : List Nat} (hnodup : order.Nodup) :
    (rowMajor extents order).map (·.2) = order.map (Layout.strideIn order (codesOf extents order)) := by
  induction order with
  | nil => rfl
  | cons c order ih =>
    obtain ⟨hc, hnodup⟩ := List.nodup_cons.mp hnodup
    rw [rowMajor_cons, codesOf_cons, List.map_cons, List.map_cons, ih hnodup, Layout.strideIn_cons,
      if_pos rfl]
    congr 1
    refine List.map_congr_left fun d hd => ?_
    rw [Layout.strideIn_cons, if_neg (by rintro rfl; exact hc hd)]

/-! ### Finite inputs -/

/-- The position of an element of a finite input. -/
def positionIn (i : Input) (index : List Int) : Int :=
  Layout.number index (i.extents.map Extent.code)

theorem positionIn_bounds {i : Input} (hfinite : i.isStream = false) {index : List Int}
    (h : Extent.Admits i.extents none index) :
    0 ≤ positionIn i index ∧ positionIn i index < Arithmetic.product (i.extents.map Extent.code) := by
  rw [Arithmetic.product_eq_prod]
  apply Layout.number_bounds
  rw [List.forall₂_iff_get]
  refine ⟨by rw [h.length, List.length_map], fun d hd hd' => ?_⟩
  rw [List.length_map] at hd'
  have hvalue : valuation index d = index[d] := by simp [valuation, hd]
  cases hextent : i.extents[d] with
  | none =>
    have hinfinite : i.isStream = true :=
      List.any_eq_true.mpr ⟨none, hextent ▸ List.getElem_mem hd', rfl⟩
    rw [hfinite] at hinfinite
    cases hinfinite
  | some size =>
    have hlow := h.lower d hd' (by simp)
    have hhigh := h.upper d size (by rw [List.getElem?_eq_getElem hd', hextent])
    rw [hvalue] at hlow hhigh
    simp only [List.get_eq_getElem, List.getElem_map, hextent]
    exact ⟨hlow, hhigh⟩

variable {V : Type} {I : Interpretation V} {σ : Machine V} {model : Model}

private theorem codesOf_range (extents : List Extent) :
    codesOf extents (List.range extents.length) = extents.map Extent.code := by
  apply List.ext_getElem
  · simp
  · intro d hd hd'
    have hlt : d < extents.length := by simpa using hd
    simp [codesOf, hlt]

theorem gives_input {number : Nat} {i : Input} (hinput : model.inputs[number]? = some i)
    {pattern : List Affine} (hlength : pattern.length = i.extents.length) (st : Statement) (env : List Int)
    (steady : Bool) :
    Gives (input model I.target ⟨st, env.map I.ofInt, steady⟩ number pattern) σ
      (I.input number σ.steady σ.period (positionIn i (pattern.map (·.eval env)))) := by
  unfold input
  refine .bind (gives_mapped env pattern) ?_
  rw [hinput]
  refine .bind (gives_affine 0 _ _) ?_
  have hindex : (pattern.map (·.eval env)).length = i.extents.length := by rw [List.length_map, hlength]
  have hdot : Arithmetic.dot (pattern.map (·.eval env))
      ((rowMajor i.extents (List.range i.extents.length)).map (·.2)) =
        positionIn i (pattern.map (·.eval env)) := by
    generalize pattern.map (·.eval env) = index at hindex
    rw [← hindex, map_rowMajor i.extents List.nodup_range,
      Layout.dot_eq_number (List.Perm.refl _) (length_codesOf i.extents _) fun d hd => by
        simp [valuation, hd],
      show (List.range index.length).map (valuation index) = index from coordinates_valuation index, hindex,
      codesOf_range]
    rfl
  rw [zero_add, hdot]
  change Gives (do
    let σ ← get
    return I.input number σ.steady σ.period (I.toInt (I.ofInt _))) σ _
  rw [I.toInt_ofInt]
  rfl

end StreamLoom.Lowering
