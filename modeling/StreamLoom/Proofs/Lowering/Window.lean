import StreamLoom.Proofs.Lowering.Position
import StreamLoom.Proofs.Lowering.Run
import StreamLoom.Proofs.Storage.Allocation

/-!
# Windows of streams

A stream is passed on in parts. The prologue shows the flow indices before the steady state, and each
period shows those that it advances by. A machine addresses an element by its offset in the current window:
its row-major position less that of the first element which the window shows. Quotient and remainder by the
size of a slice give the flow index and the place inside of it back, so that an offset tells the element.
-/

namespace StreamLoom

attribute [local instance] Arithmetic.exact

open StreamLoom.Nest (Visit)

namespace Lowering

/-! ### Positions -/

/-- The number of elements of a stream that have the same flow index. -/
def sliceOf (extents : List Extent) : Int := Arithmetic.product (extents.filterMap id)

/-- The position of an element of a stream in row-major order, with the flow dimension outermost. -/
def streamPosition (array : DataArray) (flow : Nat) (y : List Int) : Int :=
  Layout.number ((flow :: Buffer.others array.rank flow).map (valuation y))
    (codesOf array.extents (flow :: Buffer.others array.rank flow))

private theorem map_extents (extents : List Extent) :
    (List.range extents.length).map (fun d => (extents[d]?).join) = extents := by
  apply List.ext_getElem
  · simp
  · intro d hd hd'
    simp [hd']

/-- The finite extents are those of all dimensions but the flow. -/
theorem prod_codesOf_others {extents : List Extent} (hsingle : Extent.Single extents) {flow : Nat}
    (hflow : extents[flow]? = some none) :
    (codesOf extents (Buffer.others extents.length flow)).prod = sliceOf extents := by
  have hnone : ∀ d ∈ List.range extents.length, (extents[d]?).join = none ↔ d = flow := by
    intro d hd
    have hget := List.getElem?_eq_getElem (List.mem_range.mp hd)
    constructor
    · intro hjoin
      rw [hget, Option.join_some] at hjoin
      exact hsingle d flow (hget.trans (congrArg some hjoin)) hflow
    · rintro rfl
      rw [hflow, Option.join_some]
  have hfinite : ∀ dims : List Nat, (∀ d ∈ dims, (extents[d]?).join = none ↔ d = flow) →
      dims.filterMap (fun d => (extents[d]?).join) = codesOf extents (dims.filter (· ≠ flow)) := by
    intro dims
    induction dims with
    | nil => exact fun _ => rfl
    | cons d dims ih =>
      intro hdims
      have hrest := ih fun d hd => hdims d (List.mem_cons_of_mem _ hd)
      by_cases hd : d = flow
      · rw [List.filterMap_cons, (hdims d List.mem_cons_self).mpr hd, List.filter_cons_of_neg (by simpa)]
        exact hrest
      · obtain ⟨size, hsize⟩ := Option.ne_none_iff_exists'.mp (mt (hdims d List.mem_cons_self).mp hd)
        rw [List.filterMap_cons, List.filter_cons_of_pos (by simpa), codesOf_cons, hsize, ← hrest]
        rfl
  rw [sliceOf, Arithmetic.product_eq_prod, Buffer.others, ← hfinite _ hnone]
  conv_rhs => rw [← map_extents extents, List.filterMap_map]
  rfl

section

variable {array : DataArray} {flow : Nat}

private theorem digits_of_admits (hsingle : Extent.Single array.extents) (hflow : array.flow = some flow)
    {y : List Int} (hy : Extent.Admits array.extents array.flow y) :
    List.Forall₂ (fun digit size => 0 ≤ digit ∧ digit < size)
      ((Buffer.others array.rank flow).map (valuation y))
      (codesOf array.extents (Buffer.others array.rank flow)) := by
  apply Buffer.digits_others
  intro d hd hne
  have hother : array.flow ≠ some d := by
    rw [hflow]
    exact fun heq => hne (Option.some.inj heq).symm
  obtain ⟨size, hsize⟩ := array.exists_extent hsingle hd hother
  rw [hsize]
  exact ⟨hy.lower d hd hother, hy.upper d size hsize⟩

theorem streamPosition_eq (hsingle : Extent.Single array.extents) (hflow : array.flow = some flow)
    (y : List Int) :
    streamPosition array flow y = valuation y flow * sliceOf array.extents +
      Layout.number ((Buffer.others array.rank flow).map (valuation y))
        (codesOf array.extents (Buffer.others array.rank flow)) := by
  rw [← prod_codesOf_others hsingle (DataArray.extent_of_flow hflow)]
  rfl

/-- The elements of a flow index stand together. -/
theorem streamPosition_bounds (hsingle : Extent.Single array.extents) (hflow : array.flow = some flow)
    {y : List Int} (hy : Extent.Admits array.extents array.flow y) :
    valuation y flow * sliceOf array.extents ≤ streamPosition array flow y ∧
      streamPosition array flow y < (valuation y flow + 1) * sliceOf array.extents := by
  obtain ⟨hlow, hhigh⟩ := Layout.number_bounds (digits_of_admits hsingle hflow hy)
  rw [show array.rank = array.extents.length from rfl,
    prod_codesOf_others hsingle (DataArray.extent_of_flow hflow)] at hhigh
  rw [streamPosition_eq hsingle hflow, add_mul, one_mul]
  exact ⟨le_add_of_nonneg_right hlow, add_lt_add_right hhigh _⟩

theorem streamPosition_injective (hsingle : Extent.Single array.extents) (hflow : array.flow = some flow)
    {y z : List Int} (hy : Extent.Admits array.extents array.flow y)
    (hz : Extent.Admits array.extents array.flow z)
    (h : streamPosition array flow y = streamPosition array flow z) : y = z := by
  have hdigits := digits_of_admits hsingle hflow hy
  have hdigits' := digits_of_admits hsingle hflow hz
  obtain ⟨hlow, hhigh⟩ := Layout.number_bounds hdigits
  obtain ⟨hlow', hhigh'⟩ := Layout.number_bounds hdigits'
  obtain ⟨hcarried, hinner⟩ := Layout.eq_of_mul_add_eq hlow hhigh hlow' hhigh' h
  have hagree := List.map_inj_left.mp (Layout.number_injective hdigits hdigits' hinner)
  refine ext_of_valuation (hy.length.trans hz.length.symm) fun d hd => ?_
  by_cases hne : d = flow
  · rw [hne, hcarried]
  · exact hagree d (Buffer.mem_others.mpr ⟨by rwa [hz.length] at hd, hne⟩)

/-! ### Windows -/

/-- The flow indices of a stream that are shown at a time. -/
structure Window where
  first : Int
  count : Int

/-- What a stream shows in a phase, after some periods. -/
def windowOf (array : DataArray) (k : Int) : Bool → Window
  | false => ⟨0, array.buffer.offset⟩
  | true => ⟨array.buffer.offset + k * array.buffer.period, array.buffer.period⟩

namespace Window

/-- How far an element is from the first one of a window. -/
def offset (w : Window) (array : DataArray) (flow : Nat) (y : List Int) : Int :=
  streamPosition array flow y - w.first * sliceOf array.extents

/-- An offset leads to an element of a stream. -/
structure Locates (w : Window) (array : DataArray) (flow : Nat) (y : List Int) (offset : Int) : Prop where
  nonneg : 0 ≤ offset
  index : valuation y flow = w.first + offset / sliceOf array.extents
  position : w.first * sliceOf array.extents + offset = streamPosition array flow y
  inside : offset < w.count * sliceOf array.extents ↔ valuation y flow < w.first + w.count

theorem locates (hsingle : Extent.Single array.extents) (hflow : array.flow = some flow) {y : List Int}
    (hy : Extent.Admits array.extents array.flow y) {w : Window} (hfirst : w.first ≤ valuation y flow) :
    w.Locates array flow y (w.offset array flow y) := by
  obtain ⟨hlow, hhigh⟩ := streamPosition_bounds hsingle hflow hy
  have hpos : 0 < sliceOf array.extents := by linarith
  have hstart := mul_le_mul_of_nonneg_right hfirst hpos.le
  constructor
  · rw [offset]
    omega
  · have hquotient : w.offset array flow y / sliceOf array.extents = valuation y flow - w.first := by
      rw [Int.ediv_eq_iff_of_pos hpos, offset]
      constructor <;> linarith
    omega
  · rw [offset]
    omega
  · rw [offset, sub_lt_iff_lt_add, ← add_mul, add_comm w.count]
    constructor
    · intro hlt
      exact lt_of_mul_lt_mul_right (hlow.trans_lt hlt) hpos.le
    · intro hlt
      exact hhigh.trans_le (mul_le_mul_of_nonneg_right (by omega) hpos.le)

end Window

/-! ### Offsets of a machine -/

private theorem order_eq (hflow : array.flow = some flow) :
    (array.flow.toList ++ (List.range array.rank).filter fun d => array.flow != some d) =
      flow :: Buffer.others array.rank flow := by
  rw [hflow, Option.toList_some, List.singleton_append, Buffer.others]
  congr 2
  funext d
  by_cases hd : d = flow
  · simp [hd]
  · simp [hd, Ne.symm hd]

private theorem getD_windowStrides (hflow : array.flow = some flow) {d : Nat} (hd : d < array.rank) :
    (windowStrides array).getD d 0 = Layout.strideIn (flow :: Buffer.others array.rank flow)
      (codesOf array.extents (flow :: Buffer.others array.rank flow)) d := by
  simp only [windowStrides, order_eq hflow, lookup_rowMajor]
  simp [hd]

private theorem dot_windowStrides (hflow : array.flow = some flow) {x : List Int}
    (hx : x.length = array.rank) :
    Arithmetic.dot x (windowStrides array) = streamPosition array flow x := by
  have hinside : flow < array.rank := (List.getElem?_eq_some_iff.mp (DataArray.extent_of_flow hflow)).1
  apply Layout.dot_eq_number
  · rw [hx]
    exact Buffer.perm_others hinside
  · exact length_codesOf array.extents _
  · intro d hd
    exact getD_windowStrides hflow (by rwa [hx] at hd)

/-- Elements of neighbouring flow indices are a slice apart. -/
private theorem getD_windowStrides_flow (hsingle : Extent.Single array.extents)
    (hflow : array.flow = some flow) : (windowStrides array).getD flow 0 = sliceOf array.extents := by
  have hinfinite := DataArray.extent_of_flow hflow
  rw [getD_windowStrides hflow (List.getElem?_eq_some_iff.mp hinfinite).1, codesOf_cons, Layout.strideIn_cons,
    if_pos rfl]
  exact prod_codesOf_others hsingle hinfinite

theorem streamPosition_modify (hsingle : Extent.Single array.extents) (hflow : array.flow = some flow)
    {x : List Int} (hx : x.length = array.rank) (t : Int) :
    streamPosition array flow (x.modify flow (· + t)) =
      streamPosition array flow x + t * sliceOf array.extents := by
  have hinside : flow < array.rank := (List.getElem?_eq_some_iff.mp (DataArray.extent_of_flow hflow)).1
  rw [← dot_windowStrides hflow (by rw [List.length_modify, hx]), ← dot_windowStrides hflow hx,
    dot_modify (by rwa [hx]), getD_windowStrides_flow hsingle hflow]

variable {V : Type} {I : Interpretation V} {σ : Machine V}

/-- A machine arrives at the offset that an index of the first period has there. -/
theorem gives_streamOffset (hsingle : Extent.Single array.extents) (hflow : array.flow = some flow)
    {x : List Int} (hx : x.length = array.rank) (steady : Bool) :
    Gives (streamOffset I.target array (x.map I.ofInt) steady) σ
      (I.ofInt ((windowOf array 0 steady).offset array flow x)) := by
  have hgives := gives_affine (I := I) (σ := σ)
    (if steady then -array.buffer.offset * sliceOf array.extents else 0) x (windowStrides array)
  rw [dot_windowStrides hflow hx] at hgives
  simp only [streamOffset, hflow, getD_windowStrides_flow hsingle hflow, Arithmetic.fit_exact]
  convert hgives using 2
  rw [Window.offset]
  cases steady with
  | false => simp [windowOf]
  | true =>
    simp only [windowOf, if_true]
    ring

end

end Lowering

end StreamLoom
