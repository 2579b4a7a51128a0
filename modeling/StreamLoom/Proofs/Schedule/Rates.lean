import Mathlib.Data.Rat.Defs
import Mathlib.Algebra.Order.Field.Rat
import StreamLoom.Proofs.Affine.Solutions
import StreamLoom.Proofs.Outcome
import StreamLoom.Schedule.Rates

/-!
# Rates as integers

The rates of connected arrays are found as rational numbers, one balance after another, and are then
scaled to the least integers. The period is a common multiple of these.
-/

namespace StreamLoom

attribute [local instance] Arithmetic.exact

namespace Arithmetic

theorem lcm_eq_lcm (a b : Int) : lcm a b = (Int.lcm a b : Int) := by
  unfold lcm
  split
  · rename_i hzero
    rcases hzero with rfl | rfl <;> simp
  · rename_i hne
    rw [not_or] at hne
    rw [fit_exact, abs_eq_natAbs, abs_eq_natAbs, truncDiv, fit_exact, gcd_eq_gcd, Int.natAbs_tdiv,
      Int.natAbs_natCast, Int.lcm_def, Nat.lcm_eq_mul_div,
      Nat.mul_div_right_comm (Nat.gcd_dvd_left _ _)]
    rfl

end Arithmetic

namespace Rates

/-! ### Entries -/

section

variable {α : Type} {rates more : Rates α} {a : Nat} {v : α}

theorem mem_of_lookup (h : rates.lookup a = some v) : (a, v) ∈ rates := by
  obtain ⟨before, after, rfl, -⟩ := List.lookup_eq_some_iff.mp h
  simp

theorem lookup_isSome_iff : (rates.lookup a).isSome ↔ a ∈ rates.map (·.1) := by
  rw [List.lookup_isSome_iff, List.mem_map]
  refine exists_congr fun r => and_congr_right fun _ => ?_
  rw [beq_iff_eq, eq_comm]

theorem lookup_eq_none_iff : rates.lookup a = none ↔ a ∉ rates.map (·.1) := by
  rw [← lookup_isSome_iff, Option.not_isSome_iff_eq_none]

theorem lookup_append_of_some (h : rates.lookup a = some v) : (rates ++ more).lookup a = some v := by
  rw [List.lookup_append, h, Option.some_or]

theorem lookup_append_of_none (h : rates.lookup a = none) : (rates ++ more).lookup a = more.lookup a := by
  rw [List.lookup_append, h, Option.none_or]

theorem lookup_eq_none_of_append (h : (rates ++ more).lookup a = none) : rates.lookup a = none := by
  rw [List.lookup_append, Option.or_eq_none_iff] at h
  exact h.1

theorem lookup_of_mem (hnodup : (rates.map (·.1)).Nodup) (h : (a, v) ∈ rates) : rates.lookup a = some v := by
  obtain ⟨before, after, rfl⟩ := List.append_of_mem h
  rw [List.map_append, List.map_cons, List.nodup_append] at hnodup
  have hbefore : before.lookup a = none :=
    lookup_eq_none_iff.mpr fun hmem => hnodup.2.2 a hmem a (by simp) rfl
  rw [lookup_append_of_none hbefore, List.lookup_cons_self]

theorem nodup_concat (hnodup : (rates.map (·.1)).Nodup) (hnew : rates.lookup a = none) :
    ((rates ++ [(a, v)]).map (·.1)).Nodup := by
  rw [List.map_append, List.nodup_append]
  refine ⟨hnodup, List.nodup_singleton a, fun a' ha' b hb => ?_⟩
  obtain rfl := List.mem_singleton.mp hb
  rintro rfl
  exact lookup_eq_none_iff.mp hnew ha'

end

/-! ### Period -/

theorem common_pos {a b : Int} (hb : 0 < b) : 0 < common a b := by
  unfold common
  split
  · exact hb
  · rename_i hne
    rw [Arithmetic.lcm_eq_lcm]
    have := Int.lcm_pos hne hb.ne'
    omega

theorem dvd_common (a b : Int) : a ∣ common a b ∨ a = 0 := by
  unfold common
  split
  · exact .inr ‹_›
  · left
    rw [Arithmetic.lcm_eq_lcm]
    exact Int.dvd_lcm_left a b

theorem dvd_common' (a b : Int) : b ∣ common a b := by
  unfold common
  split
  · exact dvd_rfl
  · rw [Arithmetic.lcm_eq_lcm]
    exact Int.dvd_lcm_right a b

private theorem foldl_common {α : Type} (f : α → Int) (rs : List α) (hrs : ∀ r ∈ rs, 0 < f r)
    (l : Int) :
    (0 < l → 0 < rs.foldl (fun l r => common l (f r)) l ∧
        l ∣ rs.foldl (fun l r => common l (f r)) l) ∧
      ∀ r ∈ rs, 0 < rs.foldl (fun l r => common l (f r)) l ∧
        f r ∣ rs.foldl (fun l r => common l (f r)) l := by
  induction rs generalizing l with
  | nil => exact ⟨fun h => ⟨h, dvd_rfl⟩, by simp⟩
  | cons r rs ih =>
    obtain ⟨hfirst, hrest⟩ := ih (fun r' hr' => hrs r' (by simp [hr'])) (common l (f r))
    obtain ⟨hpos, hdvd⟩ := hfirst (common_pos (hrs r (by simp)))
    rw [List.foldl_cons]
    refine ⟨fun hl => ⟨hpos, ?_⟩, fun r' hr' => ?_⟩
    · exact ((dvd_common l (f r)).resolve_right hl.ne').trans hdvd
    · rcases List.mem_cons.mp hr' with rfl | hr'
      · exact ⟨hpos, (dvd_common' l (f r')).trans hdvd⟩
      · exact hrest r' hr'

theorem dvd_period {rates : Rates Int} (hpos : ∀ r ∈ rates, 0 < r.2) {r : Nat × Int} (hr : r ∈ rates) :
    0 < rates.period ∧ r.2 ∣ rates.period := by
  have hmem : ∀ r', r' ∈ rates.sorted ↔ r' ∈ rates := fun r' => List.mem_mergeSort
  exact (foldl_common (·.2) rates.sorted (fun r' hr' => hpos r' ((hmem r').mp hr')) 0).2 r
    ((hmem r).mpr hr)

/-! ### Integers -/

/-- What rates were scaled to: integers in the same proportions, without a divisor in common. -/
structure Least (rates : Rates Rat) (periods : Rates Int) (factor : Rat) : Prop where
  pos : 0 < factor
  scaled : List.Forall₂ (fun r y => y.1 = r.1 ∧ (y.2 : Rat) = factor * r.2) rates periods
  coprime : ∀ g : Int, (∀ y ∈ periods, g ∣ y.2) → g ∣ 1

namespace Least

variable {rates : Rates Rat} {periods : Rates Int} {factor : Rat}

theorem keys (h : Least rates periods factor) : periods.map (·.1) = rates.map (·.1) := by
  obtain ⟨-, hscaled, -⟩ := h
  induction hscaled with
  | nil => rfl
  | cons hentry _ ih => rw [List.map_cons, List.map_cons, hentry.1, ih]

theorem positive (h : Least rates periods factor) (hpos : ∀ r ∈ rates, 0 < r.2) :
    ∀ y ∈ periods, 0 < y.2 := by
  intro y hy
  obtain ⟨r, hr, -, hvalue⟩ := Outcome.exists_of_forall₂ h.scaled hy
  have hcast : (0 : Rat) < y.2 := hvalue ▸ mul_pos h.pos (hpos r hr)
  exact_mod_cast hcast

theorem lookup (h : Least rates periods factor) {a : Nat} {y : Int} (hy : periods.lookup a = some y) :
    ∃ r, rates.lookup a = some r ∧ (y : Rat) = factor * r := by
  obtain ⟨-, hscaled, -⟩ := h
  induction hscaled with
  | nil => cases hy
  | @cons r entry _ _ hentry _ ih =>
    obtain ⟨key, value⟩ := r
    obtain ⟨key', value'⟩ := entry
    obtain ⟨rfl, hvalue⟩ := hentry
    rw [List.lookup_cons] at hy ⊢
    cases hkey : a == key' with
    | true =>
      rw [hkey] at hy
      obtain rfl := Option.some.inj hy
      exact ⟨value, rfl, hvalue⟩
    | false =>
      rw [hkey] at hy
      exact ih hy

end Least

private theorem num_mul {q : Rat} {d : Int} (h : (q.den : Int) ∣ d) : ((q * d).num : Rat) = q * d := by
  obtain ⟨e, rfl⟩ := h
  have hwhole : q * ((q.den * e : Int) : Rat) = ((q.num * e : Int) : Rat) := by
    push_cast
    rw [← mul_assoc, Rat.mul_den_eq_num]
  rw [hwhole, Rat.num_intCast]

private theorem divided_spec {numerators periods : Rates Int} {divisor : Int}
    (hdivisor : divisor = Arithmetic.gcdOf (numerators.map (·.2))) (hpos : ∀ n ∈ numerators, 0 < n.2)
    (hne : numerators ≠ [])
    (h : (numerators.mapM fun n => return (n.1, ← Arithmetic.truncDiv? n.2 divisor) :
      Except Fault (Rates Int)) = .ok periods) :
    0 < divisor ∧ List.Forall₂ (fun n y => y.1 = n.1 ∧ divisor * y.2 = n.2) numerators periods ∧
      ∀ g : Int, (∀ y ∈ periods, g ∣ y.2) → g ∣ 1 := by
  have hdvd : ∀ n ∈ numerators, divisor ∣ n.2 := by
    intro n hn
    rw [hdivisor]
    exact Arithmetic.gcdOf_dvd (List.mem_map_of_mem hn)
  have hdivisorPos : 0 < divisor := by
    obtain ⟨n, hn⟩ := List.exists_mem_of_ne_nil numerators hne
    have hnonneg : 0 ≤ divisor := hdivisor ▸ Arithmetic.gcdOf_nonneg _
    refine lt_of_le_of_ne hnonneg fun hzero => (hpos n hn).ne' ?_
    have hnumber := hdvd n hn
    rwa [← hzero, zero_dvd_iff] at hnumber
  have hquotients : List.Forall₂ (fun n y => y.1 = n.1 ∧ divisor * y.2 = n.2) numerators periods := by
    refine ((List.forall₂_and_left _ _).mpr ⟨hdvd, Outcome.forall₂_of_mapM h⟩).imp ?_
    rintro n y ⟨hmultiple, hy⟩
    obtain ⟨quotient, hquotient, hpure⟩ := Outcome.bind_eq_ok hy
    cases hpure
    obtain ⟨_, -, hpure⟩ := Outcome.bind_eq_ok hquotient
    cases hpure
    exact ⟨rfl, by rw [Arithmetic.truncDiv, Arithmetic.fit_exact, Int.mul_tdiv_cancel' hmultiple]⟩
  refine ⟨hdivisorPos, hquotients, fun g hg => ?_⟩
  have hgreatest : divisor * g ∣ divisor := by
    rw [hdivisor]
    refine Arithmetic.dvd_gcdOf (List.forall_mem_map.mpr fun n hn => ?_)
    obtain ⟨y, hy, -, hvalue⟩ := Outcome.exists_of_forall₂ hquotients.flip hn
    rw [← hdivisor, ← hvalue]
    exact mul_dvd_mul_left divisor (hg y hy)
  exact (mul_dvd_mul_iff_left hdivisorPos.ne').mp (by rwa [mul_one])

/-- A common multiple of the denominators makes all rates integers, and their greatest common divisor makes these
the least ones. -/
theorem exists_least_of_integral {rates : Rates Rat} {periods : Rates Int} (hpos : ∀ r ∈ rates, 0 < r.2)
    (hne : rates ≠ []) (h : integral rates = .ok periods) : ∃ factor, Least rates periods factor := by
  simp only [integral, Arithmetic.fit_exact] at h
  generalize hden : rates.foldl (fun d r => common d ((r.2.den : Nat) : Int)) 1 = denominator at h
  obtain ⟨hfirst, hall⟩ := foldl_common (fun r : Nat × Rat => ((r.2.den : Nat) : Int)) rates
    (fun r _ => by simpa using r.2.pos) 1
  rw [hden] at hfirst hall
  have hdenominator : (0 : Rat) < denominator := by exact_mod_cast (hfirst one_pos).1
  have hnumerators : ∀ n ∈ rates.map (fun r => (r.1, (r.2 * (denominator : Rat)).num)), 0 < n.2 := by
    intro n hn
    obtain ⟨r, hr, rfl⟩ := List.mem_map.mp hn
    exact Rat.num_pos.mpr (mul_pos (hpos r hr) hdenominator)
  obtain ⟨hdivisor, hquotients, hcoprime⟩ :=
    divided_spec List.foldl_map.symm hnumerators (by simpa using hne) h
  have hdivisor' : (0 : Rat) < _ := Int.cast_pos.mpr hdivisor
  refine ⟨denominator / _, div_pos hdenominator hdivisor', ?_, hcoprime⟩
  refine ((List.forall₂_and_left _ _).mpr ⟨hall, List.forall₂_map_left_iff.mp hquotients⟩).imp ?_
  rintro r y ⟨hmultiple, hkey, hproduct⟩
  refine ⟨hkey, ?_⟩
  rw [div_mul_eq_mul_div, eq_div_iff hdivisor'.ne', mul_comm _ r.2, ← num_mul hmultiple.2, mul_comm]
  exact_mod_cast hproduct

end Rates

end StreamLoom
