import StreamLoom.Proofs.Affine.Words
import StreamLoom.Proofs.Model.Pattern

/-!
# Patterns on words

A guard that compares index variables with each other and with constants, each of them up to a constant,
is made of differences, and so is the domain of its pattern. Whether the domains of two such patterns have
an element in common is found on words as it is in unbounded integers, as long as the constants are small
for the rank of their array.
-/

namespace StreamLoom

attribute [local instance] Arithmetic.exact

open StreamLoom.System (Differences)

/-! ### Comparisons -/

namespace Affine

variable {n bound : Nat} {a b l r : Affine}

/-- A form that is an index variable or nothing, up to a bounded constant. -/
structure Shift (n bound : Nat) (a : Affine) : Prop extends a.Difference n bound where
  adds : ∀ v, 0 ≤ a.coeff v

namespace Shift

theorem mono {bound' : Nat} (h : a.Shift n bound) (hle : bound ≤ bound') : a.Shift n bound' :=
  ⟨h.toDifference.mono hle, h.adds⟩

protected theorem constant (n : Nat) (c : Int) : (constant n c).Shift n c.natAbs :=
  ⟨.constant n c, by simp⟩

protected theorem var {v : Nat} (hv : v < n) : (var n v).Shift n 0 := by
  refine ⟨.var hv, fun w => ?_⟩
  rw [coeff_var hv]
  split <;> simp

/-- What a form adds is all that matters, apart from its constant. -/
private theorem congr (ha : a.Shift n bound) (hvars : b.vars = n) (hcoeff : ∀ v, b.coeff v = a.coeff v)
    (hconst : b.const.natAbs ≤ bound) : b.Shift n bound where
  vars := hvars
  unit v := by simpa [hcoeff] using ha.unit v
  added v w := by simpa [hcoeff] using ha.added v w
  taken v w := by simpa [hcoeff] using ha.taken v w
  const := hconst
  adds v := by simpa [hcoeff] using ha.adds v

theorem add (hl : l.Shift n bound) (hr : r.Shift n bound)
    (hconstant : (∀ v, l.coeff v = 0) ∨ ∀ v, r.coeff v = 0)
    (hsum : (l.const + r.const).natAbs ≤ bound) : (l.add r).Shift n bound := by
  have hcoeff := coeff_add (hl.vars.trans hr.vars.symm)
  have hvars : (l.add r).vars = n := by rw [vars_add, hl.vars, hr.vars, min_self]
  rcases hconstant with hzero | hzero
  · exact hr.congr hvars (fun v => by rw [hcoeff, hzero, zero_add]) hsum
  · exact hl.congr hvars (fun v => by rw [hcoeff, hzero, add_zero]) hsum

theorem sub (hl : l.Shift n bound) (hr : r.Shift n bound) (hconstant : ∀ v, r.coeff v = 0)
    (hdifference : (l.const - r.const).natAbs ≤ bound) : (l.sub r).Shift n bound := by
  have hcoeff := coeff_sub (hl.vars.trans hr.vars.symm)
  have hvars : (l.sub r).vars = n := by rw [vars_sub, hl.vars, hr.vars, min_self]
  exact hl.congr hvars (fun v => by rw [hcoeff, hconstant, sub_zero]) hdifference

end Shift

theorem Difference.plus_words (h : a.Difference n bound) (hbound : bound < 2 ^ 62) {c : Int}
    (hc : c.natAbs ≤ bound) : @plus .word64 a c = a.plus c := by
  have hconst := h.const
  simp only [plus, Arithmetic.fit_word64, Arithmetic.fit_exact]
  rw [Arithmetic.wrap_of_natAbs_lt (by omega)]

theorem Difference.plus (h : a.Difference n bound) (c : Int) :
    (a.plus c).Difference n (bound + c.natAbs) := by
  have hconst := h.const
  refine { h with const := ?_ }
  simp only [Affine.plus, Arithmetic.fit_exact]
  omega

end Affine

/-- A comparison that words make the same constraint of, which is a difference. -/
structure Constraint.Compares (n bound : Nat) (words exact : Constraint) : Prop where
  eq : words = exact
  difference : exact.form.Difference n bound

namespace Constraint.Compares

variable {n bound : Nat} {l r : Affine}

theorem le (hl : l.Shift n bound) (hr : r.Shift n bound) (hbound : bound < 2 ^ 61) :
    Compares n (2 * bound + 1) (@Constraint.le .word64 l r) (.le l r) := by
  refine ⟨congrArg atLeast (hr.sub_words hl.toDifference (by omega)), ?_⟩
  exact (hr.sub_of_nonneg hl.toDifference hr.adds hl.adds).mono (by omega)

theorem lt (hl : l.Shift n bound) (hr : r.Shift n bound) (hbound : bound < 2 ^ 61) :
    Compares n (2 * bound + 1) (@Constraint.lt .word64 l r) (.lt l r) := by
  have hdifference := hr.sub_of_nonneg hl.toDifference hr.adds hl.adds
  refine ⟨?_, (hdifference.plus (-1)).mono (by simp; omega)⟩
  simp only [Constraint.lt]
  rw [hr.sub_words hl.toDifference (by omega),
    (hdifference.mono (by omega : bound + bound ≤ 2 * bound + 1)).plus_words (by omega) (by simp)]

theorem equal (hl : l.Shift n bound) (hr : r.Shift n bound) (hbound : bound < 2 ^ 61) :
    Compares n (2 * bound + 1) (@Constraint.equal .word64 l r) (.equal l r) := by
  refine ⟨congrArg Constraint.zero (hl.sub_words hr.toDifference (by omega)), ?_⟩
  exact (hl.sub_of_nonneg hr.toDifference hl.adds hr.adds).mono (by omega)

end Constraint.Compares

theorem Guard.comparison_words {n bound : Nat} {l r : Affine} (hl : l.Shift n bound)
    (hr : r.Shift n bound) (hbound : bound < 2 ^ 61) (op : Op) :
    @comparison .word64 op l r = comparison op l r ∧
      ∀ c, comparison op l r = some c → c.form.Difference n (2 * bound + 1) := by
  have hcompares {words exact : Constraint} (h : Constraint.Compares n (2 * bound + 1) words exact) :
      some words = some exact ∧ ∀ c, some exact = some c → c.form.Difference n (2 * bound + 1) :=
    ⟨congrArg some h.eq, fun c hc => Option.some.inj hc ▸ h.difference⟩
  unfold comparison
  split
  · exact hcompares (.equal hl hr hbound)
  · exact hcompares (.lt hl hr hbound)
  · exact hcompares (.le hl hr hbound)
  · exact hcompares (.lt hr hl hbound)
  · exact hcompares (.le hr hl hbound)
  · simp

/-! ### Guards -/

namespace Expr

/-- Whether an expression mentions an index variable, and the constant that it adds to it. Only sums of at
most one variable and of constants have one, as long as no constant in them exceeds a bound. -/
def shift? (bound : Nat) : Expr → Option (Bool × Int)
  | constant _ (.int c) => if c.natAbs ≤ bound then some (false, c) else none
  | iterator _ v => if v.ratio = 1 ∧ v.offset.natAbs ≤ bound then some (true, v.offset) else none
  | apply _ .add [a, b] =>
    match a.shift? bound, b.shift? bound with
    | some (v, x), some (w, y) =>
      if (v && w) = false ∧ (x + y).natAbs ≤ bound then some (v || w, x + y) else none
    | _, _ => none
  | apply _ .subtract [a, b] =>
    match a.shift? bound, b.shift? bound with
    | some (v, x), some (w, y) => if w = false ∧ (x - y).natAbs ≤ bound then some (v, x - y) else none
    | _, _ => none
  | _ => none

/-- Whether every comparison of a guard is between index variables and constants within a bound. -/
def comparesWithin (bound : Nat) : Expr → Bool
  | constant _ _ => true
  | apply _ .not [e] => e.comparesWithin bound
  | apply _ .and [a, b] | apply _ .or [a, b] => a.comparesWithin bound && b.comparesWithin bound
  | apply _ _ [a, b] => (a.shift? bound).isSome && (b.shift? bound).isSome
  | _ => false

theorem affines?_pair [Arithmetic] (n : Nat) (a b : Expr) :
    affines? n [a, b] = (a.affine? n).bind fun l => (b.affine? n).bind fun r => some [l, r] := by
  simp [affines?, Option.bind_assoc]

theorem affine?_pair [Arithmetic] (n : Nat) (origin : Option Origin) (op : Op) (a b : Expr) :
    (apply origin op [a, b]).affine? n =
      (a.affine? n).bind fun l => (b.affine? n).bind fun r => combine op [l, r] := by
  rw [affine?, affines?_pair]
  cases a.affine? n <;> cases b.affine? n <;> rfl

private theorem pair_words {n : Nat} {origin : Option Origin} {op : Op} {a b : Expr} {P : Affine → Prop}
    (ha : @affine? .word64 n a = a.affine? n) (hb : @affine? .word64 n b = b.affine? n)
    (hcombine : ∀ l r, a.affine? n = some l → b.affine? n = some r →
      @combine .word64 op [l, r] = combine op [l, r] ∧ ∀ c, combine op [l, r] = some c → P c) :
    @affine? .word64 n (apply origin op [a, b]) = (apply origin op [a, b]).affine? n ∧
      ∀ c, (apply origin op [a, b]).affine? n = some c → P c := by
  rw [affine?_pair, @affine?_pair .word64, ha, hb]
  cases hl : affine? n a with
  | none => simp
  | some l =>
    cases hr : affine? n b with
    | none => simp
    | some r => exact hcombine l r hl hr

/-- The affine form of such an expression, on words as in unbounded integers. -/
theorem affine?_words {n bound : Nat} (hbound : bound < 2 ^ 61) {e : Expr} {v : Bool} {x : Int}
    (h : e.shift? bound = some (v, x)) :
    @affine? .word64 n e = e.affine? n ∧ ∀ a, e.affine? n = some a →
      a.Shift n bound ∧ a.const = x ∧ (v = false → ∀ w, a.coeff w = 0) := by
  fun_induction shift? bound e generalizing v x with
  | case1 origin c hc =>
    obtain ⟨rfl, rfl⟩ := Prod.mk.inj (Option.some.inj h)
    unfold affine?
    refine ⟨rfl, fun a ha => ?_⟩
    obtain rfl := Option.some.inj ha
    exact ⟨(Affine.Shift.constant n _).mono hc, rfl, by simp⟩
  | case3 origin i hi =>
    obtain ⟨rfl, rfl⟩ := Prod.mk.inj (Option.some.inj h)
    obtain ⟨hratio, hoffset⟩ := hi
    unfold affine?
    rw [hratio]
    by_cases hdim : i.dim < n
    · have hvar := (Affine.Shift.var hdim).mono (Nat.zero_le bound)
      have hplus := (Affine.Difference.var hdim).plus i.offset
      rw [if_pos hdim, if_pos hdim, hvar.scale_words (by omega) (by simp), Affine.Difference.scale_one,
        hvar.plus_words (by omega) hoffset]
      refine ⟨rfl, fun a ha => ?_⟩
      obtain rfl := Option.some.inj ha
      refine ⟨⟨hplus.mono (by omega), hvar.adds⟩, ?_, by simp⟩
      simp [Affine.plus, Affine.var]
    · rw [if_neg hdim, if_neg hdim]
      simp
  | case5 origin a b v₁ x₁ v₂ x₂ hb ha hsum iha ihb =>
    obtain ⟨rfl, rfl⟩ := Prod.mk.inj (Option.some.inj h)
    obtain ⟨hwords, hforms⟩ := iha ha
    obtain ⟨hwords', hforms'⟩ := ihb hb
    obtain ⟨hone, hsum⟩ := hsum
    refine pair_words hwords hwords' fun l r hl hr => ?_
    obtain ⟨hshift, rfl, hzero⟩ := hforms l hl
    obtain ⟨hshift', rfl, hzero'⟩ := hforms' r hr
    refine ⟨congrArg some (hshift.add_words hshift'.toDifference (by omega)), fun c hc => ?_⟩
    obtain rfl := Option.some.inj hc
    refine ⟨hshift.add hshift' ?_ hsum, rfl, fun hv w => ?_⟩
    · rcases Bool.and_eq_false_iff.mp hone with hv | hv
      · exact .inl (hzero hv)
      · exact .inr (hzero' hv)
    · obtain ⟨hv, hv'⟩ := Bool.or_eq_false_iff.mp hv
      rw [Affine.coeff_add (hshift.vars.trans hshift'.vars.symm), hzero hv, hzero' hv', add_zero]
  | case8 origin a b v₁ x₁ v₂ x₂ hb ha hdifference iha ihb =>
    obtain ⟨rfl, rfl⟩ := Prod.mk.inj (Option.some.inj h)
    obtain ⟨hwords, hforms⟩ := iha ha
    obtain ⟨hwords', hforms'⟩ := ihb hb
    obtain ⟨hconstant, hdifference⟩ := hdifference
    refine pair_words hwords hwords' fun l r hl hr => ?_
    obtain ⟨hshift, rfl, hzero⟩ := hforms l hl
    obtain ⟨hshift', rfl, hzero'⟩ := hforms' r hr
    refine ⟨congrArg some (hshift.sub_words hshift'.toDifference (by omega)), fun c hc => ?_⟩
    obtain rfl := Option.some.inj hc
    refine ⟨hshift.sub hshift' (hzero' hconstant) hdifference, rfl, fun hv w => ?_⟩
    rw [Affine.coeff_sub (hshift.vars.trans hshift'.vars.symm), hzero hv, hzero' hconstant, sub_zero]
  | _ => cases h

end Expr

namespace Guard

variable {n bound : Nat}

private theorem comparing_words (hbound : bound < 2 ^ 61) {a b : Expr} (ha : (a.shift? bound).isSome)
    (hb : (b.shift? bound).isSome) (negated : Bool) (origin : Option Origin) (op : Op) :
    @comparing .word64 n negated origin op [a, b] = comparing n negated origin op [a, b] ∧
      ∀ cs, comparing n negated origin op [a, b] = .ok cs → Differences n (2 * bound + 1) cs := by
  obtain ⟨⟨v, x⟩, ha⟩ := Option.isSome_iff_exists.mp ha
  obtain ⟨⟨w, y⟩, hb⟩ := Option.isSome_iff_exists.mp hb
  obtain ⟨hwords, hforms⟩ := Expr.affine?_words (n := n) hbound ha
  obtain ⟨hwords', hforms'⟩ := Expr.affine?_words (n := n) hbound hb
  unfold comparing
  rw [Expr.affines?_pair, @Expr.affines?_pair .word64, hwords, hwords']
  cases hl : a.affine? n with
  | none => simp
  | some l =>
    cases hr : b.affine? n with
    | none => simp
    | some r =>
      obtain ⟨hsame, hdifference⟩ := comparison_words (hforms l hl).1 (hforms' r hr).1 hbound
        (if negated then complement op else op)
      simp only [Option.bind_some, hsame]
      split
      · rename_i c hc
        refine ⟨trivial, fun cs hcs => ?_⟩
        cases hcs
        simpa [Differences] using hdifference c hc
      · simp

private theorem append_words {a b : Expr} {negated : Bool}
    (ha : @constraints .word64 n negated a = constraints n negated a ∧
      ∀ cs, constraints n negated a = .ok cs → Differences n bound cs)
    (hb : @constraints .word64 n negated b = constraints n negated b ∧
      ∀ cs, constraints n negated b = .ok cs → Differences n bound cs) :
    (do return (← @constraints .word64 n negated a) ++ (← @constraints .word64 n negated b)) =
      (do return (← constraints n negated a) ++ (← constraints n negated b)) ∧
    ∀ cs, (do return (← constraints n negated a) ++ (← constraints n negated b)) = .ok cs →
      Differences n bound cs := by
  rw [ha.1, hb.1]
  refine ⟨rfl, fun cs h => ?_⟩
  obtain ⟨as, has, hrest⟩ := Outcome.bind_eq_ok h
  obtain ⟨bs, hbs, hpure⟩ := Outcome.bind_eq_ok hrest
  cases hpure
  intro c hc
  rcases List.mem_append.mp hc with hc | hc
  · exact ha.2 as has c hc
  · exact hb.2 bs hbs c hc

theorem constraints_words (hbound : bound < 2 ^ 61) {e : Expr} (h : e.comparesWithin bound = true)
    (negated : Bool) : @constraints .word64 n negated e = constraints n negated e ∧
      ∀ cs, constraints n negated e = .ok cs → Differences n (2 * bound + 1) cs := by
  fun_induction constraints n negated e with
  | case1 negated origin value =>
    unfold constraints
    refine ⟨rfl, fun cs hcs => ?_⟩
    cases hcs
    split
    · simp [Differences]
    · intro c hc
      obtain rfl := List.mem_singleton.mp hc
      exact (Affine.Difference.constant n (-1)).mono (by simp)
  | case2 negated origin e ih =>
    rw [Expr.comparesWithin] at h
    exact ih h
  | case3 => exact ⟨rfl, by simp⟩
  | case4 negated origin a b hnegated iha ihb =>
    rw [Expr.comparesWithin, Bool.and_eq_true] at h
    obtain rfl : negated = false := by simpa using hnegated
    exact append_words (iha h.1) (ihb h.2)
  | case5 origin a b iha ihb =>
    rw [Expr.comparesWithin, Bool.and_eq_true] at h
    exact append_words (iha h.1) (ihb h.2)
  | case6 negated origin a b hnegated =>
    obtain rfl : negated = false := by simpa using hnegated
    exact ⟨rfl, by simp⟩
  | case7 negated origin op operands hnot hand hor hcomparison =>
    obtain ⟨a, b, rfl, ha, hb⟩ : ∃ a b, operands = [a, b] ∧ (a.shift? bound).isSome ∧
        (b.shift? bound).isSome := by
      unfold Expr.comparesWithin at h
      split at h <;> simp_all
    have hwords : @constraints .word64 n negated (.apply origin op [a, b]) =
        @comparing .word64 n negated origin op [a, b] := by
      unfold constraints
      split <;> simp_all
    rw [hwords]
    exact comparing_words hbound ha hb negated origin op
  | case8 negated origin op operands hnot hand hor hcomparison =>
    unfold constraints
    split <;> simp_all
  | case9 negated e =>
    unfold constraints
    split <;> simp_all

end Guard

/-! ### Sets -/

/-- A set without locals that is the same on words as in unbounded integers, and whose rows are
differences. -/
structure PointSet.Alike (n bound : Nat) (words exact : PointSet) : Prop where
  eq : words = exact
  dims : exact.dims = n
  locals : exact.locals = 0
  differences : Differences n bound exact.cons

namespace PointSet.Alike

variable {n bound : Nat} {words exact words' exact' : PointSet}

theorem rename (h : Alike n bound words exact) (name : String) :
    Alike n bound (words.rename name) (exact.rename name) :=
  ⟨congrArg (·.rename name) h.eq, h.dims, h.locals, h.differences⟩

theorem constrain (h : Alike n bound words exact) {cs : List Constraint} (hcs : Differences n bound cs) :
    Alike n bound (words.constrain cs) (exact.constrain cs) := by
  refine ⟨congrArg (·.constrain cs) h.eq, h.dims, h.locals, fun c hc => ?_⟩
  rcases List.mem_append.mp hc with hc | hc
  · exact h.differences c hc
  · obtain ⟨c, hc', rfl⟩ := List.mem_map.mp hc
    rw [h.locals, Constraint.extend, Affine.Difference.extend_zero]
    exact hcs c hc'

theorem fix (h : Alike n bound words exact) (hbound : bound < 2 ^ 62) {dim : Nat} (hdim : dim < n)
    {value : Int} (hvalue : value.natAbs ≤ bound) :
    Alike n bound (@PointSet.fix .word64 words dim value) (exact.fix dim value) := by
  have hvar := (Affine.Difference.var hdim).mono (Nat.zero_le bound)
  have hplus := (Affine.Difference.var hdim).plus (-value)
  unfold PointSet.fix
  rw [Arithmetic.fit_word64, Arithmetic.wrap_of_natAbs_lt (by omega), Arithmetic.fit_exact, h.eq, h.dims,
    hvar.plus_words hbound (by simpa using hvalue)]
  refine (Alike.mk rfl h.dims h.locals h.differences).constrain fun c hc => ?_
  obtain rfl := List.mem_singleton.mp hc
  exact hplus.mono (by simpa using hvalue)

theorem box (name : String) {extents : List Extent} (hbound : bound < 2 ^ 61)
    (hextents : ∀ size, some size ∈ extents → size.natAbs ≤ bound) :
    Alike extents.length (2 * bound + 1) (@PointSet.box .word64 name extents) (.box name extents) := by
  have hlt {k : Nat} (hk : k < extents.length) {size : Int} (hsize : some size ∈ extents) :
      Constraint.Compares extents.length (2 * bound + 1)
        (@Constraint.lt .word64 (.var extents.length k) (.constant extents.length size))
        (.lt (.var extents.length k) (.constant extents.length size)) :=
    .lt ((Affine.Shift.var hk).mono (Nat.zero_le bound))
      ((Affine.Shift.constant _ size).mono (hextents size hsize)) hbound
  have hentry {extent : Extent} {k : Nat} (h : (extent, k) ∈ extents.zipIdx) :
      k < extents.length ∧ extent ∈ extents := by
    have hget := List.mem_zipIdx_iff_getElem?.mp h
    exact ⟨(List.getElem?_eq_some_iff.mp hget).1, List.mem_of_getElem? hget⟩
  refine ⟨?_, rfl, rfl, ?_⟩
  · simp only [PointSet.box, List.flatMap_def]
    congr 2
    refine List.map_congr_left fun entry hmem => ?_
    obtain ⟨extent, k⟩ := entry
    obtain ⟨hk, hextent⟩ := hentry hmem
    cases extent with
    | none => rfl
    | some size => simp only [(hlt hk hextent).eq]
  · have hfull : Alike extents.length (2 * bound + 1) (.full name extents.length)
        (.full name extents.length) := ⟨rfl, rfl, rfl, by simp [Differences, PointSet.full]⟩
    refine (hfull.constrain fun c hc => ?_).differences
    obtain ⟨⟨extent, k⟩, hmem, hc⟩ := List.mem_flatMap.mp hc
    obtain ⟨hk, hextent⟩ := hentry hmem
    rcases List.mem_cons.mp hc with rfl | hc
    · exact (Affine.Difference.var hk).mono (by omega)
    · cases extent with
      | none => cases hc
      | some size =>
        obtain rfl := List.mem_singleton.mp hc
        exact (hlt hk hextent).difference

theorem intersect (h : Alike n bound words exact) (h' : Alike n bound words' exact') :
    Alike n bound (@PointSet.intersect .word64 words words') (exact.intersect exact') := by
  obtain ⟨rfl, rfl, hlocals, hrows⟩ := h
  obtain ⟨rfl, -, hlocals', hrows'⟩ := h'
  have hplaces : List.range words.dims ++ List.range' words.vars words'.locals = List.range words.dims := by
    simp [hlocals']
  have hvars : words.vars + words'.locals = words.dims := by simp [vars, hlocals, hlocals']
  have hleft : words.cons.map (·.extend words'.locals) = words.cons := by
    refine (List.map_congr_left fun c _ => ?_).trans (List.map_id _)
    rw [hlocals', Constraint.extend, Affine.Difference.extend_zero]
    rfl
  have hright : words'.cons.map (·.remap words.dims (List.range words.dims)) = words'.cons := by
    refine (List.map_congr_left fun c hc => ?_).trans (List.map_id _)
    rw [Constraint.remap, Affine.Difference.remap_range (hrows' c hc).vars]
    rfl
  have hwords : words'.cons.map (@Constraint.remap .word64 · words.dims (List.range words.dims)) =
      words'.cons := by
    refine (List.map_congr_left fun c hc => ?_).trans (List.map_id _)
    unfold Constraint.remap
    rw [(hrows' c hc).remap_range_words]
    rfl
  refine ⟨?_, rfl, by simp [PointSet.intersect, hlocals, hlocals'], ?_⟩
  · simp only [PointSet.intersect, hplaces, hvars, hleft, hright, hwords]
  · simp only [PointSet.intersect, hplaces, hvars, hleft, hright]
    intro c hc
    rcases List.mem_append.mp hc with hc | hc
    · exact hrows c hc
    · exact hrows' c hc

/-- A set is found to have integer points on words as it is in unbounded integers. -/
theorem isIntegerEmpty (h : Alike n bound words exact)
    (hbound : 2 ^ ((n + 1) * (n + 1)) * bound < 2 ^ 62) :
    @PointSet.isIntegerEmpty .word64 words = exact.isIntegerEmpty := by
  obtain ⟨rfl, rfl, hlocals, hrows⟩ := h
  have hvars : words.vars = words.dims := by simp [vars, hlocals]
  have hle : 2 ^ words.dims * bound ≤ 2 ^ ((words.dims + 1) * (words.dims + 1)) * bound :=
    Nat.mul_le_mul_right bound (Nat.pow_le_pow_right (by decide) (by nlinarith))
  have hle' : bound ≤ 2 ^ words.dims * bound := Nat.le_mul_of_pos_left _ (by positivity)
  have hproject := System.project_alike (List.range words.dims) hrows
    (by rw [List.length_range]; omega)
  have hsystem := System.ofConstraints_alike hrows (by omega)
  unfold PointSet.isIntegerEmpty isEmpty
  rw [hvars, hproject.eq, hsystem.eq]
  cases hbuilt : System.ofConstraints words.cons with
  | none => rfl
  | some rows => simp only [System.hasIntegerSolution_words (hsystem.differences rows hbuilt) hbound]

end PointSet.Alike

/-! ### Domains -/

/-- The extents of an array that are finite are within a bound. -/
def DataArray.sizesWithin (bound : Nat) (array : DataArray) : Bool :=
  array.extents.all fun extent => extent.all (·.natAbs ≤ bound)

/-- The indices of a pattern that are fixed, and the constants which its guard compares index variables
with, are within a bound. -/
def Pattern.comparesWithin (bound : Nat) (pattern : Pattern) : Bool :=
  (pattern.indices.all fun
    | .fixed value => value.natAbs ≤ bound
    | .var _ => true) && pattern.guard.all (·.comparesWithin bound)

namespace Program

variable {bound : Nat}

private theorem foldl_fix_alike (hbound : bound < 2 ^ 62) {n : Nat} {indices : List (PatternIndex × Nat)}
    (hindices : ∀ value dim, (.fixed value, dim) ∈ indices → value.natAbs ≤ bound ∧ dim < n)
    {words exact : PointSet} (h : PointSet.Alike n bound words exact) :
    PointSet.Alike n bound
      (indices.foldl (fun (s : PointSet) (index, dim) =>
        match index with
        | .fixed value => @PointSet.fix .word64 s dim value
        | .var _ => s) words)
      (indices.foldl (fun (s : PointSet) (index, dim) =>
        match index with
        | .fixed value => s.fix dim value
        | .var _ => s) exact) := by
  induction indices generalizing words exact with
  | nil => exact h
  | cons entry rest ih =>
    have hrest := fun value dim hmem => hindices value dim (List.mem_cons_of_mem entry hmem)
    obtain ⟨index, dim⟩ := entry
    cases index with
    | var name => exact ih hrest h
    | fixed value =>
      obtain ⟨hvalue, hdim⟩ := hindices value dim (by simp)
      exact ih hrest (h.fix hbound hdim hvalue)

/-- The domain of a pattern whose constants are within a bound is the same on words as in unbounded
integers. -/
theorem patternDomain_words (hbound : bound < 2 ^ 60) {array : DataArray} {pattern : Pattern}
    (hrank : pattern.indices.length = array.rank)
    (hsizes : array.sizesWithin bound = true) (hpattern : pattern.comparesWithin bound = true)
    (name : String) :
    @patternDomain .word64 array name pattern = patternDomain array name pattern ∧
      ∀ s, patternDomain array name pattern = .ok s → PointSet.Alike array.rank (2 * bound + 1) s s := by
  obtain ⟨hindices, hguard⟩ := Bool.and_eq_true_iff.mp hpattern
  have hextents (size : Int) (hsize : some size ∈ array.extents) : size.natAbs ≤ bound := by
    simpa using List.all_eq_true.mp hsizes _ hsize
  have hwithin (value : Int) (dim : Nat) (hmem : (.fixed value, dim) ∈ pattern.indices.zipIdx) :
      value.natAbs ≤ 2 * bound + 1 ∧ dim < array.rank := by
    have hget := List.mem_zipIdx_iff_getElem?.mp hmem
    have hvalue := List.all_eq_true.mp hindices _ (List.mem_of_getElem? hget)
    have hdim := (List.getElem?_eq_some_iff.mp hget).1
    simp only [decide_eq_true_eq] at hvalue hdim
    omega
  have hfixed := foldl_fix_alike (by omega) hwithin
    ((PointSet.Alike.box array.name (by omega) hextents).rename name)
  unfold patternDomain
  cases hg : pattern.guard with
  | none =>
    refine ⟨congrArg Except.ok hfixed.eq, fun s hs => ?_⟩
    cases hs
    exact { hfixed with eq := rfl }
  | some g =>
    rw [hg] at hguard
    obtain ⟨hwords, hdifferences⟩ := Guard.constraints_words (n := array.rank) (by omega) hguard false
    simp only [hwords]
    cases hcs : Guard.constraints array.rank false g with
    | error failure => exact ⟨rfl, by simp [bind, Except.bind]⟩
    | ok cs =>
      have hconstrained := hfixed.constrain (hdifferences cs hcs)
      refine ⟨congrArg Except.ok hconstrained.eq, fun s hs => ?_⟩
      cases hs
      exact { hconstrained with eq := rfl }

end Program

end StreamLoom
