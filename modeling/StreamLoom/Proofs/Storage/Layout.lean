import Mathlib.Algebra.BigOperators.Group.List.Basic
import Mathlib.Algebra.Order.BigOperators.GroupWithZero.List
import StreamLoom.Proofs.Affine.Value
import StreamLoom.Proofs.Outcome
import StreamLoom.Storage.Layout

/-!
# Slots of a buffer

The sizes of a buffer are the base of a number system in which the indices of an element are the
digits. All digits but that of the carrier stay below their sizes, and the number is cut off where the
digit of the carrier runs over. So two elements share a slot just when they agree but for the carrier,
and there up to the number of slots.
-/

namespace StreamLoom

/-! ### What the guarded forms give -/

namespace Layout

variable [Arithmetic] {array : DataArray} {layout : Layout}

theorem eq_of_ofArray? (h : ofArray? array = .ok layout) : layout = ofBuffer array.rank array.buffer := by
  simp only [ofArray?] at h
  split at h
  · obtain ⟨_, -, h⟩ := Outcome.bind_eq_ok h
    obtain ⟨_, -, h⟩ := Outcome.bind_eq_ok h
    exact (Except.ok.inj h).symm
  · exact (Except.ok.inj h).symm

theorem eq_of_flatten? {index : List Int} {phase offset : Int}
    (h : layout.flatten? index phase = .ok offset) : offset = layout.flatten index phase := by
  obtain ⟨_, -, h⟩ := Outcome.bind_eq_ok h
  obtain ⟨_, -, h⟩ := Outcome.bind_eq_ok h
  exact (Except.ok.inj h).symm

end Layout

attribute [local instance] Arithmetic.exact

theorem Arithmetic.product_eq_prod (xs : List Int) : Arithmetic.product xs = xs.prod := by
  have hfold : ∀ (xs : List Int) (n : Int), xs.foldl (fun acc x => fit (acc * x)) n = n * xs.prod := by
    intro xs
    induction xs with
    | nil => simp
    | cons x xs ih =>
      intro n
      rw [List.foldl_cons, ih, List.prod_cons, Arithmetic.fit_exact, mul_assoc]
  rw [product, hfold, one_mul]

namespace Layout

/-! ### Digits -/

/-- The number that some digits stand for, each of which counts what comes after it. -/
def number : List Int → List Int → Int
  | digit :: digits, _ :: sizes => digit * sizes.prod + number digits sizes
  | _, _ => 0

theorem number_bounds {digits sizes : List Int}
    (h : List.Forall₂ (fun digit size => 0 ≤ digit ∧ digit < size) digits sizes) :
    0 ≤ number digits sizes ∧ number digits sizes < sizes.prod := by
  induction h with
  | nil => simp [number]
  | @cons digit size digits sizes hdigit _ ih =>
    obtain ⟨hfirst, hlast⟩ := ih
    have hpos : 0 < sizes.prod := by omega
    have hlow := mul_nonneg hdigit.1 hpos.le
    have hhigh : (digit + 1) * sizes.prod ≤ size * sizes.prod :=
      mul_le_mul_of_nonneg_right (by omega) hpos.le
    rw [add_mul, one_mul] at hhigh
    rw [number, List.prod_cons]
    omega

/-- A quotient and a remainder determine each other's number. -/
theorem eq_of_mul_add_eq {n a b r s : Int} (hr : 0 ≤ r) (hr' : r < n) (hs : 0 ≤ s) (hs' : s < n)
    (h : a * n + r = b * n + s) : a = b ∧ r = s := by
  have hquotient : a = b := by
    have ha : (a * n + r) / n = a := by
      rw [Int.add_comm, Int.add_mul_ediv_right _ _ (by omega), Int.ediv_eq_zero_of_lt hr hr', zero_add]
    have hb : (b * n + s) / n = b := by
      rw [Int.add_comm, Int.add_mul_ediv_right _ _ (by omega), Int.ediv_eq_zero_of_lt hs hs', zero_add]
    rw [← ha, h, hb]
  subst hquotient
  exact ⟨rfl, by omega⟩

/-- A number is cut off where its first digit runs over. -/
theorem mul_add_emod {slots n a r : Int} (hslots : 0 < slots) (hr : 0 ≤ r) (hr' : r < n) :
    (a * n + r) % (slots * n) = a % slots * n + r := by
  have hpos : 0 < n := by omega
  have hlow := mul_nonneg (Int.emod_nonneg a hslots.ne') hpos.le
  have hhigh : (a % slots + 1) * n ≤ slots * n :=
    mul_le_mul_of_nonneg_right (Int.emod_lt_of_pos a hslots) hpos.le
  rw [add_mul, one_mul] at hhigh
  have hsplit : a * n + r = (a % slots * n + r) + slots * n * (a / slots) := by
    calc a * n + r = (slots * (a / slots) + a % slots) * n + r := by rw [Int.mul_ediv_add_emod]
      _ = (a % slots * n + r) + slots * n * (a / slots) := by ring
  rw [hsplit, Int.add_mul_emod_self_left, Int.emod_eq_of_lt (by omega) (by omega)]

theorem number_injective {digits digits' sizes : List Int}
    (h : List.Forall₂ (fun digit size => 0 ≤ digit ∧ digit < size) digits sizes)
    (h' : List.Forall₂ (fun digit size => 0 ≤ digit ∧ digit < size) digits' sizes)
    (heq : number digits sizes = number digits' sizes) : digits = digits' := by
  induction h generalizing digits' with
  | nil =>
    cases h'
    rfl
  | cons _ hrest ih =>
    cases h' with
    | cons _ hrest' =>
      obtain ⟨hlow, hhigh⟩ := number_bounds hrest
      obtain ⟨hlow', hhigh'⟩ := number_bounds hrest'
      obtain ⟨rfl, hnumber⟩ := eq_of_mul_add_eq hlow hhigh hlow' hhigh' heq
      rw [ih hrest' hnumber]

/-! ### Strides -/

/-- The distance between elements which are adjacent in a dimension, in some order of the dimensions. -/
def strideIn (order : List Nat) (sizes : List Int) (d : Nat) : Int :=
  match order.idxOf? d with
  | some j => (sizes.drop (j + 1)).prod
  | none => 0

theorem strideIn_cons (c d : Nat) (order : List Nat) (size : Int) (sizes : List Int) :
    strideIn (c :: order) (size :: sizes) d = if c = d then sizes.prod else strideIn order sizes d := by
  unfold strideIn
  rw [List.idxOf?_cons]
  by_cases hcd : c = d
  · simp [hcd]
  · simp only [beq_iff_eq, hcd, if_false]
    cases order.idxOf? d <;> simp

theorem strideIn_pos {order : List Nat} {sizes : List Int} {d : Nat} (hd : d ∈ order)
    (hpos : ∀ size ∈ sizes, 0 < size) : 0 < strideIn order sizes d := by
  obtain ⟨j, hj⟩ : ∃ j, order.idxOf? d = some j := by
    rw [← Option.isSome_iff_exists, List.isSome_idxOf?]
    exact hd
  rw [strideIn, hj]
  exact List.prod_pos fun size hsize => hpos size (List.mem_of_mem_drop hsize)

private theorem sum_strideIn {order : List Nat} {sizes : List Int} (hnodup : order.Nodup)
    (hlength : order.length = sizes.length) (x : Nat → Int) :
    (order.map fun d => x d * strideIn order sizes d).sum = number (order.map x) sizes := by
  induction order generalizing sizes with
  | nil => simp [number]
  | cons c order ih =>
    cases sizes with
    | nil => cases hlength
    | cons size sizes =>
      obtain ⟨hc, hnodup⟩ := List.nodup_cons.mp hnodup
      have hrest : (order.map fun d => x d * strideIn (c :: order) (size :: sizes) d) =
          order.map fun d => x d * strideIn order sizes d := by
        refine List.map_congr_left fun d hd => ?_
        rw [strideIn_cons, if_neg (by rintro rfl; exact hc hd)]
      rw [List.map_cons, List.sum_cons, hrest, ih hnodup (Nat.succ.inj hlength), strideIn_cons,
        if_pos rfl, List.map_cons, number]

/-- With the strides of an order, an index is taken to its number in that order. -/
theorem dot_eq_number {order : List Nat} {sizes strides index : List Int}
    (hperm : order.Perm (List.range index.length)) (hsizes : sizes.length = order.length)
    (hstrides : ∀ d, d < index.length → valuation strides d = strideIn order sizes d) :
    Arithmetic.dot index strides = number (order.map (valuation index)) sizes := by
  have hnodup : order.Nodup := hperm.nodup_iff.mpr List.nodup_range
  calc Arithmetic.dot index strides
      = ∑ d ∈ Finset.range index.length, valuation index d * strideIn order sizes d := by
        rw [Affine.dot_eq_linear, Affine.linear_eq_sum]
        refine Finset.sum_congr rfl fun d hd => ?_
        rw [hstrides d (Finset.mem_range.mp hd)]
        rfl
    _ = ((List.range index.length).map fun d => valuation index d * strideIn order sizes d).sum := rfl
    _ = (order.map fun d => valuation index d * strideIn order sizes d).sum := ((hperm.map _).sum_eq).symm
    _ = number (order.map (valuation index)) sizes := sum_strideIn hnodup hsizes.symm _

/-- Everything that is stored further inside lies between adjacent elements. -/
theorem strides_ofBuffer {rank d : Nat} {b : Buffer} (hsizes : b.sizes.length ≤ rank) (hd : d < rank) :
    (ofBuffer rank b).strides.getD d 0 = strideIn b.order b.sizes d := by
  simp only [ofBuffer, List.getD_eq_getElem?_getD, List.getElem?_map, List.getElem?_range hd,
    Option.map_some, Option.getD_some, strideOf, strideIn, Arithmetic.product_eq_prod]
  cases b.order.idxOf? d with
  | none => rfl
  | some j => exact congrArg (fun sizes => (sizes.drop (j + 1)).prod) (List.take_of_length_le hsizes)

/-- Without a phase, an element is held where the number of its indices says. -/
theorem dot_strides {rank : Nat} {b : Buffer} (hperm : b.order.Perm (List.range rank))
    (hsizes : b.sizes.length = rank) {index : List Int} (hlength : index.length = rank) :
    Arithmetic.dot index (ofBuffer rank b).strides = number (b.order.map (valuation index)) b.sizes := by
  subst hlength
  refine dot_eq_number hperm (by rw [hsizes, hperm.length_eq, List.length_range]) fun d hd => ?_
  exact strides_ofBuffer hsizes.le hd

/-- An element is held in the slice of its first index, which runs over and is turned by the phase, at the
number of the other indices. -/
theorem flatten_ofBuffer {rank c : Nat} {b : Buffer} {ds : List Nat} {slots : Int} {sizes index : List Int}
    (hperm : b.order.Perm (List.range rank)) (horder : b.order = c :: ds) (hsizes : b.sizes = slots :: sizes)
    (hslots : 0 < slots) (hlength : index.length = rank)
    (hdigits : List.Forall₂ (fun digit size => 0 ≤ digit ∧ digit < size) (ds.map (valuation index)) sizes)
    (phase : Int) :
    (ofBuffer rank b).flatten index phase =
      (phase + valuation index c) % slots * sizes.prod + number (ds.map (valuation index)) sizes := by
  obtain ⟨hlow, hhigh⟩ := number_bounds hdigits
  have hrank : b.sizes.length = rank := by
    have hcount := hperm.length_eq
    have hinner := hdigits.length_eq
    rw [horder, List.length_cons, List.length_range] at hcount
    rw [List.length_map] at hinner
    rw [hsizes, List.length_cons, ← hinner, hcount]
  have hdot := dot_strides hperm hrank hlength
  rw [horder, hsizes, List.map_cons, number] at hdot
  have hslice : (ofBuffer rank b).slice = sizes.prod := by
    simp [ofBuffer, Arithmetic.product_eq_prod, hsizes]
  have htotal : (ofBuffer rank b).length = slots * sizes.prod := by
    simp [ofBuffer, Buffer.length, Arithmetic.product_eq_prod, hsizes]
  rw [flatten, Arithmetic.residue, Arithmetic.fit_exact, htotal, hslice, hdot, ← add_assoc, ← add_mul,
    mul_add_emod hslots hlow hhigh]

/-! ### Guarded forms -/

theorem ofArray?_eq {array : DataArray} (hperm : array.buffer.order.Perm (List.range array.rank))
    (hsizes : array.buffer.sizes.length = array.rank) :
    ofArray? array = .ok (ofBuffer array.rank array.buffer) := by
  have horder : array.buffer.order.length = array.rank := by rw [hperm.length_eq, List.length_range]
  have hall : array.buffer.order.all (· < array.rank) = true := by
    rw [List.all_eq_true]
    intro d hd
    simpa using hperm.mem_iff.mp hd
  simp [ofArray?, horder, hsizes, hall, bind, Except.bind, pure, Except.pure]

theorem flatten?_eq {l : Layout} {index : List Int} (hindex : index.length = l.strides.length)
    (hlength : l.length ≠ 0) (phase : Int) : l.flatten? index phase = .ok (l.flatten index phase) := by
  simp only [flatten?, hindex, beq_self_eq_true, require_true, Arithmetic.nonzero_eq_ok hlength]
  rfl

end Layout

/-! ### Circular buffers -/

def Buffer.others (rank carrier : Nat) : List Nat := (List.range rank).filter (· ≠ carrier)

namespace Buffer

theorem mem_others {rank carrier d : Nat} : d ∈ others rank carrier ↔ d < rank ∧ d ≠ carrier := by
  simp [others]

theorem perm_others {rank carrier : Nat} (hinside : carrier < rank) :
    (carrier :: others rank carrier).Perm (List.range rank) := by
  refine (List.perm_ext_iff_of_nodup ?_ List.nodup_range).mpr fun d => ?_
  · exact List.nodup_cons.mpr ⟨by simp [mem_others], List.nodup_range.filter _⟩
  · rw [List.mem_cons, mem_others, List.mem_range]
    by_cases hd : d = carrier
    · simp [hd, hinside]
    · simp [hd]

/-- Indices within some extents are digits in the system of these. -/
theorem digits_others {rank carrier : Nat} {extent : Nat → Int} {index : List Int}
    (h : ∀ d, d < rank → d ≠ carrier → 0 ≤ valuation index d ∧ valuation index d < extent d) :
    List.Forall₂ (fun digit size => 0 ≤ digit ∧ digit < size)
      ((others rank carrier).map (valuation index)) ((others rank carrier).map extent) := by
  rw [List.forall₂_map_left_iff, List.forall₂_map_right_iff, List.forall₂_same]
  intro d hd
  obtain ⟨hlt, hne⟩ := mem_others.mp hd
  exact h d hlt hne

end Buffer

/-- A buffer which circulates along its carrier, with the given number of slots there, and has room
for all indices of the other dimensions. -/
structure Buffer.Circular (b : Buffer) (rank carrier : Nat) (slots : Int) (extent : Nat → Int) :
    Prop where
  inside : carrier < rank
  order : b.order = carrier :: others rank carrier
  sizes : b.sizes = slots :: (others rank carrier).map extent
  slots : 0 < slots

namespace Buffer.Circular

variable {b : Buffer} {rank carrier : Nat} {slots : Int} {extent : Nat → Int}

private theorem perm (hb : b.Circular rank carrier slots extent) :
    b.order.Perm (List.range rank) := by
  rw [hb.order]
  exact perm_others hb.inside

private theorem length_sizes (hb : b.Circular rank carrier slots extent) : b.sizes.length = rank := by
  have hlength := hb.perm.length_eq
  rw [hb.order, List.length_range] at hlength
  rw [hb.sizes]
  simpa using hlength

/-- The number of an element among those with its index of the carrier. -/
def inner (rank carrier : Nat) (extent : Nat → Int) (index : List Int) : Int :=
  Layout.number ((others rank carrier).map (valuation index)) ((others rank carrier).map extent)

theorem length_eq (hb : b.Circular rank carrier slots extent) :
    (Layout.ofBuffer rank b).length = slots * (Layout.ofBuffer rank b).slice := by
  simp [Layout.ofBuffer, Buffer.length, Arithmetic.product_eq_prod, hb.sizes]

theorem slice_eq (hb : b.Circular rank carrier slots extent) :
    (Layout.ofBuffer rank b).slice = ((others rank carrier).map extent).prod := by
  simp [Layout.ofBuffer, Arithmetic.product_eq_prod, hb.sizes]

theorem slots_eq (hb : b.Circular rank carrier slots extent) :
    (Layout.ofBuffer rank b).slots = slots := by
  have hinside := hb.inside
  simp [Layout.ofBuffer, hb.sizes, show rank ≠ 0 by omega]

/-- An element whose indices are within the extents is held in the slice of its index of the carrier,
at its number there. -/
theorem flatten_eq (hb : b.Circular rank carrier slots extent) {index : List Int}
    (hlength : index.length = rank)
    (h : ∀ d, d < rank → d ≠ carrier → 0 ≤ valuation index d ∧ valuation index d < extent d)
    (phase : Int) :
    (Layout.ofBuffer rank b).flatten index phase =
      (phase + valuation index carrier) % slots * (Layout.ofBuffer rank b).slice +
        inner rank carrier extent index := by
  rw [hb.slice_eq]
  exact Layout.flatten_ofBuffer hb.perm hb.order hb.sizes hb.slots hlength (digits_others h) phase

/-- Two elements share a slot just when they agree but for the carrier, and there up to the number of
slots. -/
theorem flatten_eq_flatten_iff (hb : b.Circular rank carrier slots extent) {index index' : List Int}
    (hlength : index.length = rank) (hlength' : index'.length = rank)
    (h : ∀ d, d < rank → d ≠ carrier → 0 ≤ valuation index d ∧ valuation index d < extent d)
    (h' : ∀ d, d < rank → d ≠ carrier → 0 ≤ valuation index' d ∧ valuation index' d < extent d)
    (phase phase' : Int) :
    (Layout.ofBuffer rank b).flatten index phase = (Layout.ofBuffer rank b).flatten index' phase' ↔
      slots ∣ (phase + valuation index carrier) - (phase' + valuation index' carrier) ∧
        ∀ d, d < rank → d ≠ carrier → valuation index d = valuation index' d := by
  obtain ⟨hlow, hhigh⟩ := Layout.number_bounds (digits_others h)
  obtain ⟨hlow', hhigh'⟩ := Layout.number_bounds (digits_others h')
  rw [hb.flatten_eq hlength h, hb.flatten_eq hlength' h', hb.slice_eq]
  constructor
  · intro heq
    obtain ⟨hcarrier, hinner⟩ := Layout.eq_of_mul_add_eq hlow hhigh hlow' hhigh' heq
    refine ⟨Int.dvd_of_emod_eq_zero (Int.emod_eq_emod_iff_emod_sub_eq_zero.mp hcarrier), ?_⟩
    intro d hd hne
    have hdigits := Layout.number_injective (digits_others h) (digits_others h') hinner
    exact List.map_inj_left.mp hdigits d (mem_others.mpr ⟨hd, hne⟩)
  · rintro ⟨hdvd, hagree⟩
    have hcarrier : (phase + valuation index carrier) % slots =
        (phase' + valuation index' carrier) % slots :=
      Int.emod_eq_emod_iff_emod_sub_eq_zero.mpr (Int.emod_eq_zero_of_dvd hdvd)
    have hinner : (others rank carrier).map (valuation index) =
        (others rank carrier).map (valuation index') := by
      refine List.map_congr_left fun d hd => ?_
      obtain ⟨hlt, hne⟩ := mem_others.mp hd
      exact hagree d hlt hne
    rw [hcarrier, inner, inner, hinner]

/-! ### Guarded forms -/

theorem ofArray?_eq {array : DataArray} (hb : array.buffer.Circular array.rank carrier slots extent) :
    Layout.ofArray? array = .ok (Layout.ofBuffer array.rank array.buffer) :=
  Layout.ofArray?_eq hb.perm hb.length_sizes

theorem length_pos (hb : b.Circular rank carrier slots extent) {index : List Int}
    (h : ∀ d, d < rank → d ≠ carrier → 0 ≤ valuation index d ∧ valuation index d < extent d) :
    0 < (Layout.ofBuffer rank b).length := by
  obtain ⟨hlow, hhigh⟩ := Layout.number_bounds (digits_others h)
  rw [hb.length_eq, hb.slice_eq]
  exact mul_pos hb.slots (by omega)

theorem flatten?_eq (hb : b.Circular rank carrier slots extent) {index : List Int}
    (hlength : index.length = rank)
    (h : ∀ d, d < rank → d ≠ carrier → 0 ≤ valuation index d ∧ valuation index d < extent d)
    (phase : Int) :
    (Layout.ofBuffer rank b).flatten? index phase = .ok ((Layout.ofBuffer rank b).flatten index phase) :=
  Layout.flatten?_eq (by simp [Layout.ofBuffer, hlength]) (hb.length_pos h).ne' phase

end Buffer.Circular

end StreamLoom
