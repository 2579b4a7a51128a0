import StreamLoom.Proofs.Outcome
import StreamLoom.Proofs.PointSet.Emptiness

/-!
# Enumeration of points

The points of a set are listed coordinate by coordinate. The range of a coordinate is that of the rational shadow,
so there can be values which no point has; their lists are empty, and the values after them are tried all the same.
What is listed are the points of the set in lexicographic order, and no others unless the set has locals.
-/

namespace StreamLoom

attribute [local instance] Arithmetic.exact

open StreamLoom.System (Solves Over)

namespace PointSet

/-! ### Consecutive values -/

section

variable {α : Type} {each : Int → Except Unbounded (List α)} {count : Nat} {x : Int} {ys : List α}

private theorem forValues_succ (h : forValues each (count + 1) x = .ok ys) :
    ∃ here rest, each x = .ok here ∧ forValues each count (x + 1) = .ok rest ∧ ys = here ++ rest := by
  obtain ⟨here, hhere, h⟩ := Outcome.bind_eq_ok h
  obtain ⟨rest, hrest, h⟩ := Outcome.bind_eq_ok h
  exact ⟨here, rest, hhere, hrest, (Except.ok.inj h).symm⟩

theorem mem_of_forValues (h : forValues each count x = .ok ys) {y : α} (hy : y ∈ ys) :
    ∃ v part, each v = .ok part ∧ y ∈ part ∧ x ≤ v := by
  induction count generalizing x ys with
  | zero =>
    obtain rfl := Except.ok.inj h
    cases hy
  | succ count ih =>
    obtain ⟨here, rest, hhere, hrest, rfl⟩ := forValues_succ h
    rcases List.mem_append.mp hy with hy | hy
    · exact ⟨x, here, hhere, hy, le_rfl⟩
    · obtain ⟨v, part, hpart, hmem, hle⟩ := ih hrest hy
      exact ⟨v, part, hpart, hmem, by omega⟩

/-- The list of each of the values is there, and all of it. -/
theorem exists_part_of_forValues (h : forValues each count x = .ok ys) {v : Int} (hlow : x ≤ v)
    (hhigh : v < x + count) : ∃ part, each v = .ok part ∧ ∀ y ∈ part, y ∈ ys := by
  induction count generalizing x ys with
  | zero => omega
  | succ count ih =>
    obtain ⟨here, rest, hhere, hrest, rfl⟩ := forValues_succ h
    by_cases hv : v = x
    · exact ⟨here, hv ▸ hhere, fun y hy => List.mem_append_left rest hy⟩
    · obtain ⟨part, hpart, hmem⟩ := ih hrest (by omega) (by omega)
      exact ⟨part, hpart, fun y hy => List.mem_append_right here (hmem y hy)⟩

theorem pairwise_of_forValues {R : α → α → Prop} (h : forValues each count x = .ok ys)
    (hwithin : ∀ v part, each v = .ok part → part.Pairwise R)
    (hbetween : ∀ v w part part', v < w → each v = .ok part → each w = .ok part' →
      ∀ y ∈ part, ∀ z ∈ part', R y z) : ys.Pairwise R := by
  induction count generalizing x ys with
  | zero =>
    obtain rfl := Except.ok.inj h
    exact .nil
  | succ count ih =>
    obtain ⟨here, rest, hhere, hrest, rfl⟩ := forValues_succ h
    refine List.pairwise_append.mpr ⟨hwithin x here hhere, ih hrest, fun y hy z hz => ?_⟩
    obtain ⟨v, part, hpart, hmem, hle⟩ := mem_of_forValues hrest hz
    exact hbetween x v here part (by omega) hhere hpart y hy z hmem

theorem exists_forValues (h : ∀ v, ∃ part, each v = .ok part) (count : Nat) (x : Int) :
    ∃ ys, forValues each count x = .ok ys := by
  induction count generalizing x with
  | zero => exact ⟨[], rfl⟩
  | succ count ih =>
    obtain ⟨here, hhere⟩ := h x
    obtain ⟨rest, hrest⟩ := ih (x + 1)
    refine ⟨here ++ rest, ?_⟩
    rw [forValues, hhere]
    change (forValues each count (x + 1) >>= fun rest => pure (here ++ rest)) = _
    rw [hrest]
    rfl

end

/-! ### Prefixes -/

variable {s : PointSet} {start : List Int}

/-- The constraints leave no choice for the coordinates that a point starts with. -/
def StartsWith (s : PointSet) (start : List Int) : Prop :=
  ∀ x : Nat → ℚ, Solves x s.cons → ∀ i, i < start.length → x i = valuation start i

theorem startsWith_fix (hstart : s.StartsWith start) (hlt : start.length < s.dims) (v : Int) :
    (s.fix start.length v).StartsWith (start ++ [v]) := by
  intro x hx i hi
  obtain ⟨hsolves, hvalue⟩ := (solves_fix hlt v).mp hx
  rw [List.length_append, List.length_singleton] at hi
  by_cases hlast : i = start.length
  · rw [hlast, hvalue, ← Nat.add_zero start.length, valuation_append_right]
    rfl
  · have hi' : i < start.length := by omega
    rw [hstart x hsolves i hi', valuation_append_left hi']

/-- What is known of a list of points with a common prefix. -/
structure Lists (s : PointSet) (start : List Int) (ps : List (List Int)) : Prop where
  extend : ∀ p ∈ ps, start <+: p
  sorted : ps.Pairwise (· < ·)
  complete : ∀ p, s.Includes p → p ∈ ps
  sound : s.locals = 0 → ∀ p ∈ ps, s.Includes p

/-- Points are in the order of the coordinates in which they first differ. -/
private theorem lt_of_prefixes {v w : Int} (hlt : v < w) {p q : List Int} (hp : start ++ [v] <+: p)
    (hq : start ++ [w] <+: q) : p < q := by
  obtain ⟨p', rfl⟩ := hp
  obtain ⟨q', rfl⟩ := hq
  rw [List.append_assoc, List.append_assoc]
  exact List.append_left_lt (List.cons_lt_cons_iff.mpr (.inl hlt))

private theorem lists_whole (hs : s.Regular) (hlength : start.length = s.dims)
    (hstart : s.StartsWith start) : s.Lists start (if s.isEmpty then [] else [start]) := by
  split
  · rename_i hempty
    exact ⟨by simp, .nil, fun p hp => absurd ((includes_iff hs).mp hp).2 (not_has_of_isEmpty hs hempty _),
      by simp⟩
  · rename_i hempty
    refine ⟨by simp, List.pairwise_singleton _ _, fun p hp => List.mem_singleton.mpr ?_,
      fun hlocals p hp => ?_⟩
    · obtain ⟨hp, x, hx, hsolves⟩ := (includes_iff hs).mp hp
      refine ext_of_valuation (hp.trans hlength.symm) fun i hi => ?_
      have hvalue := hstart _ ((System.solves_intCast x s.cons).mpr hsolves) i hi
      rw [← hx i (by omega)]
      exact_mod_cast hvalue
    · rw [List.mem_singleton.mp hp]
      obtain ⟨x, hx⟩ := exists_solves_of_isEmpty hs (by simpa using hempty)
      have hcoordinates : ∀ i, i < s.dims → x i = valuation start i := by
        intro i hi
        exact hstart x hx i (by omega)
      exact (includes_iff hs).mpr
        ⟨hlength, has_of_solves (solves_of_coordinates hs hlocals hx hcoordinates)⟩

/-- The points with one prefix after the other are the points with what the prefixes have in common. -/
private theorem lists_forValues (hs : s.Regular) (hlt : start.length < s.dims) {interval : Interval}
    (hbound : s.bound (.var s.dims start.length) = some interval) {lo hi : Int}
    (hends : interval.ends? = some (lo, hi)) {each : Int → Except Unbounded (List (List Int))}
    (heach : ∀ v part, each v = .ok part → (s.fix start.length v).Lists (start ++ [v]) part)
    {ps : List (List Int)} (h : forValues each (hi - lo + 1).toNat lo = .ok ps) : s.Lists start ps where
  extend := by
    intro p hp
    obtain ⟨v, part, hpart, hmem, -⟩ := mem_of_forValues h hp
    exact (List.prefix_append start [v]).trans ((heach v part hpart).extend p hmem)
  sorted := by
    refine pairwise_of_forValues h (fun v part hpart => (heach v part hpart).sorted) ?_
    intro v w part part' hvw hpart hpart' p hp q hq
    exact lt_of_prefixes hvw ((heach v part hpart).extend p hp) ((heach w part' hpart').extend q hq)
  complete := by
    intro p hp
    obtain ⟨interval', hbound', hinside⟩ :=
      bound_of_has hs (Affine.vars_var s.dims start.length) ((includes_iff hs).mp hp).2
    obtain rfl := Option.some.inj (hbound.symm.trans hbound')
    rw [Affine.valueAt_var hlt, Interval.contains_of_ends? hends] at hinside
    obtain ⟨part, hpart, hmem⟩ := exists_part_of_forValues h hinside.1 (by omega)
    exact hmem p ((heach _ part hpart).complete p ((includes_fix hs hlt _).mpr ⟨hp, rfl⟩))
  sound := by
    intro hlocals p hp
    obtain ⟨v, part, hpart, hmem, -⟩ := mem_of_forValues h hp
    exact ((includes_fix hs hlt v).mp ((heach v part hpart).sound hlocals p hmem)).1

theorem lists_pointsFrom {count : Nat} (hs : s.Regular) (hdims : s.dims = start.length + count)
    (hstart : s.StartsWith start) {ps : List (List Int)} (h : s.pointsFrom start count = .ok ps) :
    s.Lists start ps := by
  induction count generalizing s start ps with
  | zero =>
    obtain rfl := Except.ok.inj h
    exact lists_whole hs (by omega) hstart
  | succ count ih =>
    have hlt : start.length < s.dims := by omega
    have hdim : s.dims - (count + 1) = start.length := by omega
    rw [pointsFrom, hdim] at h
    split at h
    · rename_i hbound
      obtain rfl := Except.ok.inj h
      refine ⟨by simp, .nil, fun p hp => ?_, by simp⟩
      obtain ⟨interval, hbound', -⟩ :=
        bound_of_has hs (Affine.vars_var s.dims start.length) ((includes_iff hs).mp hp).2
      rw [hbound] at hbound'
      cases hbound'
    · rename_i interval hbound
      split at h
      · cases h
      · rename_i lo hi hends
        refine lists_forValues hs hlt hbound hends (fun v part hpart => ?_) h
        refine ih (regular_fix hs _ v) ?_ (startsWith_fix hstart hlt v) hpart
        rw [dims_fix, hdims, List.length_append, List.length_singleton]
        omega

/-! ### Bounded sets -/

theorem bounded_fix (hbounded : s.Bounded) {dim : Nat} (hdim : dim < s.dims) (v : Int) :
    (s.fix dim v).Bounded := by
  obtain ⟨size, hsize⟩ := hbounded
  exact ⟨size, fun x hx => hsize x ((solves_fix hdim v).mp hx).1⟩

/-- An objective has no end only if it takes values of any size. -/
theorem ends_of_bounded (hs : s.Regular) (hbounded : s.Bounded) {dim : Nat} (hdim : dim < s.dims)
    {interval : Interval} (hbound : s.bound (.var s.dims dim) = some interval) :
    interval.ends? ≠ none := by
  intro hends
  obtain ⟨size, hsize⟩ := hbounded
  obtain ⟨rows, -, hrows⟩ := Option.bind_eq_some_iff.mp hbound
  obtain ⟨t, ht, hbeyond⟩ := System.exists_beyond_of_bounds hrows hends size
  obtain ⟨x, hx, hvalue⟩ := exists_solves_of_bound hs (Affine.vars_var s.dims dim) hbound ht
  rw [Affine.valueAt_var hdim] at hvalue
  have hle := hsize x hx dim (by simp only [vars]; omega)
  rw [hvalue] at hle
  exact absurd hle (not_le.mpr hbeyond)

private theorem exists_pointsFrom (hs : s.Regular) (hbounded : s.Bounded) {count : Nat} (hcount : count ≤ s.dims)
    (start : List Int) : ∃ ps, s.pointsFrom start count = .ok ps := by
  induction count generalizing s start with
  | zero => exact ⟨_, rfl⟩
  | succ count ih =>
    have hdim : s.dims - (count + 1) < s.dims := by omega
    rw [pointsFrom]
    split
    · exact ⟨[], rfl⟩
    · rename_i interval hbound
      split
      · rename_i hends
        exact absurd hends (ends_of_bounded hs hbounded hdim hbound)
      · refine exists_forValues (fun v => ?_) _ _
        exact ih (regular_fix hs _ v) (bounded_fix hbounded hdim v) (by rw [dims_fix]; omega) _

/-! ### The points of a set -/

theorem points?_eq_ok_iff (hs : s.Regular) {ps : List (List Int)} :
    s.points? = .ok (.ok ps) ↔ s.pointsFrom [] s.dims = .ok ps := by
  rw [points?, isRegular_eq_ok hs]
  exact ⟨fun h => Except.ok.inj h, fun h => congrArg Except.ok h⟩

/-- The points of a bounded set can be listed. -/
theorem exists_points_of_bounded (hs : s.Regular) (hbounded : s.Bounded) :
    ∃ ps, s.points? = .ok (.ok ps) := by
  obtain ⟨ps, hps⟩ := exists_pointsFrom hs hbounded le_rfl []
  exact ⟨ps, (points?_eq_ok_iff hs).mpr hps⟩

theorem lists_points (hs : s.Regular) {ps : List (List Int)} (h : s.points? = .ok (.ok ps)) :
    s.Lists [] ps := by
  have hstart : s.StartsWith [] := fun _ _ i hi => absurd hi (Nat.not_lt_zero i)
  exact lists_pointsFrom hs (Nat.zero_add s.dims).symm hstart ((points?_eq_ok_iff hs).mp h)

/-- Without locals, a set contains a point just when every constraint holds there, and what is listed are these
points. Points are listed once, each before those that are greater in the lexicographic order. Also a set with
locals contains and lists every point that it has. -/
theorem contains_points_exact (s : PointSet) (hs : s.Regular) :
    (s.locals = 0 →
      (∀ p, p.length = s.dims → s.contains? p = .ok (s.cons.all (·.holds p))) ∧
      ∀ ps, s.points? = .ok (.ok ps) →
        ∀ p, p ∈ ps ↔ p.length = s.dims ∧ ∀ c ∈ s.cons, c.holds p = true) ∧
    (∀ ps, s.points? = .ok (.ok ps) → ps.Pairwise (· < ·) ∧ ps.Nodup) ∧
    (∀ p, s.Includes p →
      s.contains? p = .ok true ∧ ∀ ps, s.points? = .ok (.ok ps) → p ∈ ps) := by
  refine ⟨fun hlocals => ⟨fun p hlength => ?_, fun ps hps p => ?_⟩, fun ps hps => ?_,
    fun p hp => ⟨?_, fun ps hps => (lists_points hs hps).complete p hp⟩⟩
  · refine (contains?_eq_ok_iff hs).mpr ⟨hlength, Bool.eq_iff_iff.mpr ?_⟩
    rw [contains_iff hs hlocals hlength, List.all_eq_true]
    exact forall₂_congr fun c _ => (c.holds_iff p).symm
  · rw [← includes_iff_holds hlocals]
    exact ⟨(lists_points hs hps).sound hlocals p, (lists_points hs hps).complete p⟩
  · have hsorted := (lists_points hs hps).sorted
    exact ⟨hsorted, hsorted.imp fun hlt => ne_of_lt hlt⟩
  · exact (contains?_eq_ok_iff hs).mpr ⟨hp.1, contains_of_includes hs hp⟩

/-- The pairs from zero to six of which twice the first is three times the second. -/
def halves : PointSet :=
  ⟨"s", 2, 0, [.zero ⟨[2, -3], 0⟩, .atLeast ⟨[1, 0], 0⟩, .atLeast ⟨[-1, 0], 6⟩]⟩

/-- Most values of the first coordinate leave no integer for the other one. -/
theorem contains_points_exact_halves : halves.Regular ∧ halves.locals = 0 ∧
    halves.points? = .ok (.ok [[0, 0], [3, 2], [6, 4]]) ∧
    (∀ p, p ∈ [[0, 0], [3, 2], [6, 4]] ↔ p.length = 2 ∧ ∀ c ∈ halves.cons, c.holds p = true) ∧
    halves.Includes [3, 2] ∧ halves.contains? [3, 2] = .ok true := by
  have hregular : halves.Regular := by
    change ∀ c ∈ halves.cons, c.vars = halves.vars
    decide
  have hpoints : halves.points? = .ok (.ok [[0, 0], [3, 2], [6, 4]]) := by decide +kernel
  have hincludes : halves.Includes [3, 2] := ⟨rfl, [], rfl, by decide⟩
  obtain ⟨hwithout, -, hwith⟩ := contains_points_exact halves hregular
  exact ⟨hregular, rfl, hpoints, (hwithout rfl).2 _ hpoints, hincludes, (hwith _ hincludes).1⟩

end PointSet

end StreamLoom
