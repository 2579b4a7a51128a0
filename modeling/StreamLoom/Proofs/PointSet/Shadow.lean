import Mathlib.Data.Rat.Floor
import StreamLoom.Proofs.PointSet.Locals

/-!
# Shadows

What elimination answers lies between the integers and the rationals. An answer never excludes an
integer point, and whatever it leaves open is attained by a rational solution.

Bounds are integers, so that this is known of the integers between them at first. The rationals in
between follow, because the solutions of constraints are convex: a value that is not an integer lies on
the segment between the solutions for its two neighbours.
-/

namespace StreamLoom

attribute [local instance] Arithmetic.exact

open StreamLoom.System (Solves Over)

/-! ### Segments -/

theorem Affine.valueAt_segment {K : Type} [CommRing K] (a : Affine) (x y : Nat → K) (t : K) :
    a.valueAt (fun i => x i + t * (y i - x i)) = a.valueAt x + t * (a.valueAt y - a.valueAt x) := by
  have hlinear : ∀ (cs : List Int) (x y : Nat → K), linear cs (fun i => x i + t * (y i - x i)) =
      linear cs x + t * (linear cs y - linear cs x) := by
    intro cs
    induction cs with
    | nil => simp
    | cons c cs ih =>
      intro x y
      rw [linear_cons, linear_cons, linear_cons, ih (fun i => x (i + 1)) fun i => y (i + 1)]
      ring
  rw [valueAt, valueAt, valueAt, hlinear]
  ring

/-- A segment between two solutions consists of solutions. -/
theorem System.solves_segment {rows : List Constraint} {x y : Nat → ℚ} (hx : Solves x rows)
    (hy : Solves y rows) {t : ℚ} (hlow : 0 ≤ t) (hhigh : t ≤ 1) :
    Solves (fun i => x i + t * (y i - x i)) rows := by
  intro r hr
  have hxr := hx r hr
  have hyr := hy r hr
  rw [Constraint.Admits] at hxr hyr ⊢
  rw [Affine.valueAt_segment]
  split
  · rename_i hequality
    rw [if_pos hequality] at hxr hyr
    rw [hxr, hyr, sub_zero, mul_zero, add_zero]
  · rename_i hequality
    rw [if_neg hequality] at hxr hyr
    have hleft := mul_nonneg (sub_nonneg.mpr hhigh) hxr
    have hright := mul_nonneg hlow hyr
    linarith

/-! ### Rational values between bounds -/

namespace Extended

def IsBelow : Extended → ℚ → Prop
  | negInf, _ => True
  | int x, q => x ≤ q
  | posInf, _ => False

def IsAbove : Extended → ℚ → Prop
  | negInf, _ => False
  | int x, q => q ≤ x
  | posInf, _ => True

theorem le_floor {e : Extended} {q : ℚ} (h : e.IsBelow q) : e ≤ .int ⌊q⌋ := by
  cases e with
  | negInf => exact negInf_le _
  | int x => exact int_le_int.mpr (Int.le_floor.mpr h)
  | posInf => exact h.elim

theorem ceil_le {e : Extended} {q : ℚ} (h : e.IsAbove q) : .int ⌈q⌉ ≤ e := by
  cases e with
  | negInf => exact h.elim
  | int x => exact int_le_int.mpr (Int.ceil_le.mpr h)
  | posInf => exact le_posInf _

end Extended

def Interval.Spans (i : Interval) (q : ℚ) : Prop := i.lower.IsBelow q ∧ i.upper.IsAbove q

theorem Interval.contains_neighbours {i : Interval} {q : ℚ} (h : i.Spans q) :
    i.contains ⌊q⌋ = true ∧ i.contains ⌈q⌉ = true := by
  have hneighbours : Extended.int ⌊q⌋ ≤ .int ⌈q⌉ := Extended.int_le_int.mpr (Int.floor_le_ceil q)
  have hlow := Extended.le_floor h.1
  have hhigh := Extended.ceil_le h.2
  rw [contains_iff, contains_iff]
  exact ⟨⟨hlow, Extended.le_trans hneighbours hhigh⟩, ⟨Extended.le_trans hlow hneighbours, hhigh⟩⟩

namespace PointSet

variable {s : PointSet}

/-- Every rational in the range of an objective is its value at a rational solution. -/
theorem exists_solves_of_spans (hs : s.Regular) {f : Affine} (hf : f.vars = s.dims)
    {interval : Interval} (h : s.bound f = some interval) {q : ℚ} (hq : interval.Spans q) :
    ∃ x : Nat → ℚ, Solves x s.cons ∧ f.valueAt x = q := by
  obtain ⟨hfloor, hceil⟩ := Interval.contains_neighbours hq
  obtain ⟨x, hx, hvalue⟩ := exists_solves_of_bound hs hf h hfloor
  obtain ⟨y, hy, hvalue'⟩ := exists_solves_of_bound hs hf h hceil
  have hlow : 0 ≤ q - ⌊q⌋ := sub_nonneg.mpr (Int.floor_le q)
  have hhigh : q - ⌊q⌋ ≤ 1 := by
    have := Int.lt_floor_add_one q
    linarith
  refine ⟨_, System.solves_segment hx hy hlow hhigh, ?_⟩
  rw [Affine.valueAt_segment, hvalue, hvalue']
  by_cases hinteger : (⌊q⌋ : ℚ) = q
  · rw [hinteger, sub_self, zero_mul, add_zero]
  · -- The neighbours of what is not an integer are one apart.
    have hnext : (⌈q⌉ : ℚ) = ⌊q⌋ + 1 := by
      have hle : ⌈q⌉ ≤ ⌊q⌋ + 1 := Int.ceil_le_floor_add_one q
      have hlt : ⌊q⌋ < ⌈q⌉ := Int.lt_ceil.mpr (lt_of_le_of_ne (Int.floor_le q) hinteger)
      have heq : ⌈q⌉ = ⌊q⌋ + 1 := by omega
      rw [heq]
      push_cast
      ring
    rw [hnext]
    ring

/-- The range of an objective contains its value at every point, and is there if there is a point. -/
theorem bound_of_includes (hs : s.Regular) {f : Affine} (hf : f.vars = s.dims) {p : List Int}
    (hp : s.Includes p) :
    ∃ interval, s.bound f = some interval ∧ interval.contains (f.eval p) = true := by
  rw [Affine.eval_eq_valueAt]
  exact bound_of_has hs hf ((includes_iff hs).mp hp).2

/-- The shadow of a set on some dimensions includes these coordinates of each of its points. -/
theorem includes_projection (hs : s.Regular) {dims : List Nat} (hnodup : dims.Nodup)
    (hdims : ∀ d ∈ dims, d < s.dims) {p : List Int} (hp : s.Includes p) :
    (s.projection dims).Includes (dims.map (p.getD · 0)) := by
  obtain ⟨-, x, hx, hsolves⟩ := (includes_iff hs).mp hp
  have hlength : (s.projection dims).dims = dims.length := by
    unfold projection
    split <;> rfl
  have hlocals : (s.projection dims).locals = 0 := by
    unfold projection
    split <;> rfl
  have hover := regular_projection hs hnodup
  have hregular : (s.projection dims).Regular := by
    rwa [Regular, vars, hlength, hlocals, Nat.add_zero]
  refine (includes_iff hregular).mpr ⟨by rw [hlength, List.length_map], has_of_solves ?_⟩
  refine (System.solves_congr hover fun i hi => ?_).mp (solves_projection hs hnodup hsolves)
  have hmem : dims[i] ∈ dims := List.getElem_mem hi
  simp only [valuation, List.getD_eq_getElem?_getD, List.getElem?_map, List.getElem?_eq_getElem hi,
    Option.map_some, Option.getD_some]
  rw [hx _ (hdims _ hmem)]
  simp [valuation]

/-- Emptiness, bounds and projections lie between the integers and the rationals. Each of them holds
for all integer points, and none goes beyond what rational solutions attain. -/
theorem shadow_between (s : PointSet) (hs : s.Regular) :
    ((s.isEmpty = true → ∀ x : Nat → Int, ¬ Solves x s.cons) ∧
      ((∀ x : Nat → ℚ, ¬ Solves x s.cons) → s.isEmpty = true)) ∧
    (∀ f : Affine, f.vars = s.dims →
      (s.bound f = none → ∀ p, ¬ s.Includes p) ∧
      ∀ interval, s.bound f = some interval →
        (∀ p, s.Includes p → interval.contains (f.eval p) = true) ∧
        ∀ q : ℚ, interval.Spans q → ∃ x : Nat → ℚ, Solves x s.cons ∧ f.valueAt x = q) ∧
    (∀ dims : List Nat, dims.Nodup → (∀ d ∈ dims, d < s.dims) →
      (∀ p, s.Includes p → (s.projection dims).Includes (dims.map (p.getD · 0))) ∧
      ∀ q : Nat → ℚ, Solves q (s.projection dims).cons →
        ∃ x : Nat → ℚ, Solves x s.cons ∧ ∀ i, i < dims.length → x (dims.getD i 0) = q i) := by
  refine ⟨⟨fun hempty x hx => ?_, fun hnone => ?_⟩, fun f hf => ⟨fun hbound p hp => ?_,
    fun interval hbound => ⟨fun p hp => ?_, fun q hq => exists_solves_of_spans hs hf hbound hq⟩⟩,
    fun dims hnodup hdims => ⟨fun p hp => includes_projection hs hnodup hdims hp,
      fun q hq => exists_solves_of_projection hs hnodup hq⟩⟩
  · exact not_has_of_isEmpty hs hempty x (has_of_solves hx)
  · by_contra hempty
    obtain ⟨x, hx⟩ := exists_solves_of_isEmpty hs (by simpa using hempty)
    exact hnone x hx
  · obtain ⟨interval, hsome, -⟩ := bound_of_includes hs hf hp
    rw [hbound] at hsome
    cases hsome
  · obtain ⟨interval', hsome, hcontains⟩ := bound_of_includes hs hf hp
    rw [hbound] at hsome
    obtain rfl := Option.some.inj hsome
    exact hcontains

/-- The multiples of three from one to seven: twice such a number is three times another one. -/
def thirds : PointSet :=
  ⟨"s", 1, 1, [.zero ⟨[2, -3], 0⟩, .atLeast ⟨[1, 0], -1⟩, .atLeast ⟨[-1, 0], 7⟩]⟩

/-- One is no multiple of three, but a rational solution attains the lower bound all the same. -/
theorem shadow_between_thirds : thirds.Regular ∧
    ∃ interval, thirds.bound (.var 1 0) = some interval ∧ interval.lower = .int 1 ∧
      (∀ p, thirds.Includes p → interval.contains ((Affine.var 1 0).eval p) = true) ∧
      ∃ x : Nat → ℚ, Solves x thirds.cons ∧ (Affine.var 1 0).valueAt x = 1 := by
  have hregular : thirds.Regular := by
    change ∀ c ∈ thirds.cons, c.vars = thirds.vars
    decide
  have hbound : thirds.bound (.var 1 0) = some ⟨.int 1, .int 7, by decide⟩ := by decide +kernel
  obtain ⟨-, hbounds, -⟩ := shadow_between thirds hregular
  obtain ⟨hinside, hattained⟩ := (hbounds (.var 1 0) rfl).2 _ hbound
  refine ⟨hregular, _, hbound, rfl, hinside, hattained 1 ⟨?_, ?_⟩⟩
  · change ((1 : Int) : ℚ) ≤ 1
    norm_num
  · change (1 : ℚ) ≤ ((7 : Int) : ℚ)
    norm_num

end PointSet

end StreamLoom
