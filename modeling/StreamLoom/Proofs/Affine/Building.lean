import StreamLoom.Proofs.Affine.Difference
import StreamLoom.Proofs.Affine.Tightening

/-!
# The points of a system

A system has the integer points of the constraints it is built from. Each of the steps that build it
has the points it is given: dividing a constraint by its common divisor, keeping the tightest
inequality of a direction, and tying two opposing inequalities into an equality. A step that finds no
system has no points to lose.

The steps negate, divide and add up to two of the numbers they are given. An arithmetic that leaves
integers of twice their size alone therefore builds the same system as unbounded integers do.
-/

namespace StreamLoom

attribute [local instance] Arithmetic.exact

/-! ### Arithmetics which leave small integers alone -/

namespace Arithmetic

/-- What becomes of an exact result is the result itself, up to a bound on its size. -/
def Keeps (f : Int → Int) (bound : Nat) : Prop := ∀ x : Int, x.natAbs ≤ bound → f x = x

theorem keeps_wrap {bound : Nat} (h : bound < 2 ^ 63) : Keeps wrap bound := fun _ hx =>
  wrap_of_natAbs_lt (hx.trans_lt h)

variable {f : Int → Int} {bound : Nat}

@[simp] theorem fit_mk (x : Int) : @fit ⟨f⟩ x = f x := rfl

theorem Keeps.mono {bound' : Nat} (hf : Keeps f bound) (hle : bound' ≤ bound) : Keeps f bound' :=
  fun x hx => hf x (hx.trans hle)

theorem Keeps.abs_eq (hf : Keeps f bound) {x : Int} (hx : x.natAbs ≤ bound) : @abs ⟨f⟩ x = abs x := by
  unfold abs
  rw [fit_mk, hf (-x) (by omega), fit_exact]

theorem Keeps.truncDiv_eq (hf : Keeps f bound) {x : Int} (hx : x.natAbs ≤ bound) (g : Int) :
    @truncDiv ⟨f⟩ x g = truncDiv x g :=
  hf _ ((Int.natAbs_tdiv_le_natAbs x g).trans hx)

theorem natAbs_gcd_le {x y : Int} (hx : x.natAbs ≤ bound) (hy : y.natAbs ≤ bound) :
    (gcd x y).natAbs ≤ bound := by
  rw [gcd_eq_gcd, Int.natAbs_natCast, Int.gcd]
  rcases Nat.eq_zero_or_pos x.natAbs with hzero | hpos
  · rwa [hzero, Nat.gcd_zero_left]
  · exact (Nat.gcd_le_left _ hpos).trans hx

theorem Keeps.gcdOf_eq (hf : Keeps f bound) {xs : List Int} (h : ∀ x ∈ xs, x.natAbs ≤ bound) :
    @gcdOf ⟨f⟩ xs = gcdOf xs := by
  -- the divisor found so far stays within the bound
  have hfold : ∀ g : Int, g.natAbs ≤ bound → xs.foldl (@gcd ⟨f⟩) g = xs.foldl gcd g := by
    induction xs with
    | nil => exact fun _ _ => rfl
    | cons x xs ih =>
      intro g hg
      have hx := h x (by simp)
      have hstep : @gcd ⟨f⟩ g x = gcd g x := by
        unfold gcd
        rw [hf.abs_eq hg, hf.abs_eq hx]
      rw [List.foldl_cons, List.foldl_cons, hstep]
      exact ih (fun y hy => h y (by simp [hy])) _ (natAbs_gcd_le hg hx)
  exact hfold 0 (by simp)

end Arithmetic

namespace Constraint

/-- No number of the constraint exceeds a bound. -/
structure Within (bound : Nat) (c : Constraint) : Prop where
  coeffs : ∀ x ∈ c.coeffs, x.natAbs ≤ bound
  const : c.const.natAbs ≤ bound

variable {f : Int → Int} {bound : Nat} {c : Constraint}

private theorem within_neg {c : Constraint} (h : c.Within bound) :
    (zero c.form.neg).Within bound where
  coeffs x hx := by
    obtain ⟨y, hy, rfl⟩ := List.mem_map.mp hx
    simpa using h.coeffs y hy
  const := by simpa [Constraint.const, zero, Affine.neg, Affine.scale] using h.const

private theorem neg_kept (hf : Arithmetic.Keeps f bound) {a : Affine} (h : (zero a).Within bound) :
    @Affine.neg ⟨f⟩ a = a.neg := by
  have hnegated : ∀ x : Int, x.natAbs ≤ bound → f (x * -1) = x * -1 := fun x hx =>
    hf _ (by omega)
  unfold Affine.neg Affine.scale
  simp only [Arithmetic.fit_mk]
  rw [hnegated a.const h.const]
  congr 1
  exact List.map_congr_left fun x hx => hnegated x (h.coeffs x hx)

private theorem upright_kept (hf : Arithmetic.Keeps f bound) {a : Affine} (h : (zero a).Within bound) :
    @upright ⟨f⟩ a = upright a := by
  unfold upright
  rw [neg_kept hf h]

private theorem within_upright {a : Affine} (h : (zero a).Within bound) :
    (zero (upright a)).Within bound := by
  rcases upright_eq a with he | he
  · rwa [he]
  · rw [he]
    exact within_neg h

private theorem natAbs_le_of_mem_quotients {g x : Int} (h : c.Within bound)
    (hx : x ∈ c.coeffs.map (Arithmetic.truncDiv · g)) : x.natAbs ≤ bound := by
  obtain ⟨y, hy, rfl⟩ := List.mem_map.mp hx
  exact (Int.natAbs_tdiv_le_natAbs y g).trans (h.coeffs y hy)

private theorem natAbs_floorDiv_gcdOf_le (h : c.Within bound) :
    (Arithmetic.floorDiv c.const (Arithmetic.gcdOf c.coeffs)).natAbs ≤ bound := by
  rw [Arithmetic.floorDiv, Arithmetic.fit_exact,
    Int.fdiv_eq_ediv_of_nonneg _ (Arithmetic.gcdOf_nonneg c.coeffs)]
  exact (Int.natAbs_ediv_le_natAbs _ _).trans h.const

private theorem within_quotients (h : c.Within bound) (g : Int) :
    (zero ⟨c.coeffs.map (Arithmetic.truncDiv · g), Arithmetic.truncDiv c.const g⟩).Within bound :=
  ⟨fun _ hx => natAbs_le_of_mem_quotients h hx, (Int.natAbs_tdiv_le_natAbs _ _).trans h.const⟩

/-- Lowest terms have no greater numbers. -/
theorem within_of_reduce {r : Constraint} (h : c.Within bound) (hr : c.reduce = .proper r) :
    r.Within bound := by
  unfold reduce at hr
  simp only at hr
  split at hr
  · exact absurd hr (by split <;> split <;> simp)
  split at hr
  · obtain rfl := Reduced.proper.inj hr
    exact ⟨fun _ hx => natAbs_le_of_mem_quotients h hx, natAbs_floorDiv_gcdOf_le h⟩
  split at hr
  · cases hr
  · obtain rfl := Reduced.proper.inj hr
    exact within_upright (within_quotients h _)

theorem reduce_kept (hf : Arithmetic.Keeps f bound) (h : c.Within bound) :
    @reduce ⟨f⟩ c = c.reduce := by
  have hcoeffs (g : Int) : c.coeffs.map (@Arithmetic.truncDiv ⟨f⟩ · g) =
      c.coeffs.map (Arithmetic.truncDiv · g) :=
    List.map_congr_left fun x hx => hf.truncDiv_eq (h.coeffs x hx) g
  have hfloor : @Arithmetic.floorDiv ⟨f⟩ c.const (Arithmetic.gcdOf c.coeffs) =
      Arithmetic.floorDiv c.const (Arithmetic.gcdOf c.coeffs) :=
    hf _ (natAbs_floorDiv_gcdOf_le h)
  unfold reduce
  simp only [hf.gcdOf_eq h.coeffs, hcoeffs, hfloor, hf.truncDiv_eq h.const,
    upright_kept hf (within_quotients h _)]

end Constraint

namespace System

/-- The points of a system, of which one without solutions has none. -/
def HasPoint (s : Option System) (point : List Int) : Prop :=
  ∃ rows, s = some rows ∧ ∀ r ∈ rows, r.holds point = true

theorem hasPoint_some {rows : System} {point : List Int} :
    HasPoint (some rows) point ↔ ∀ r ∈ rows, r.holds point = true := by
  simp [HasPoint]

/-- A step keeps the points if it tightens, or if there are none where it finds no system. -/
theorem hasPoint_iff {cs : List Constraint} {s : Option System}
    (hsome : ∀ rows, s = some rows → Tightens cs rows)
    (hnone : s = none → ∀ x : Nat → Int, ¬ Solves x cs) (point : List Int) :
    HasPoint s point ↔ ∀ c ∈ cs, c.holds point = true := by
  have hsolves (rows : List Constraint) :
      (∀ r ∈ rows, r.holds point = true) ↔ Solves (valuation point) rows :=
    forall₂_congr fun r _ => r.holds_iff point
  rw [hsolves cs]
  cases s with
  | none => simpa [HasPoint] using hnone rfl (valuation point)
  | some rows =>
    have htightens := hsome rows rfl
    rw [hasPoint_some, hsolves rows]
    exact ⟨htightens.complete (valuation point), htightens.sound (valuation point)⟩

theorem hasPoint_properRows (cs : List Constraint) (point : List Int) :
    HasPoint (properRows cs) point ↔ ∀ c ∈ cs, c.holds point = true :=
  hasPoint_iff (fun _ => properRows_tightens) not_solves_of_properRows point

theorem hasPoint_insert (row : Constraint) (rows : System) (point : List Int) :
    HasPoint (insert row rows) point ↔ ∀ r ∈ row :: rows, r.holds point = true :=
  hasPoint_iff (fun _ => insert_tightens) not_solves_of_insert point

theorem hasPoint_close {rows : System} (hrows : Distinct rows) (direction : List Int)
    (point : List Int) : HasPoint (close rows direction) point ↔ ∀ r ∈ rows, r.holds point = true :=
  hasPoint_iff (fun _ => close_tightens hrows) (not_solves_of_close hrows) point

/-! ### Building on words -/

variable {f : Int → Int} {bound : Nat} {rows : System}

/-- Steps that agree wherever an invariant holds agree one after another. -/
private theorem foldlM_agree {α β : Type} {P : β → Prop} {g g' : β → α → Option β} {as : List α}
    (hstep : ∀ b a, a ∈ as → P b → g b a = g' b a ∧ ∀ b', g' b a = some b' → P b') {b : β} (hb : P b) :
    as.foldlM g b = as.foldlM g' b ∧ ∀ b', as.foldlM g' b = some b' → P b' := by
  induction as generalizing b with
  | nil => exact ⟨rfl, fun b' hb' => Option.some.inj hb' ▸ hb⟩
  | cons a as ih =>
    obtain ⟨hsame, hkeeps⟩ := hstep b a (by simp) hb
    rw [List.foldlM_cons, List.foldlM_cons, hsame]
    cases hnext : g' b a with
    | none => exact ⟨rfl, by simp⟩
    | some b₁ => exact ih (fun b a ha => hstep b a (by simp [ha])) (hkeeps b₁ hnext)

private theorem properRows_kept {cs : List Constraint} (hf : Arithmetic.Keeps f bound)
    (hcs : ∀ c ∈ cs, c.Within bound) :
    @properRows ⟨f⟩ cs = properRows cs ∧
      ∀ rows, properRows cs = some rows → ∀ r ∈ rows, r.Within bound := by
  induction cs with
  | nil => simp [properRows]
  | cons c rest ih =>
    obtain ⟨hsame, hwithin⟩ := ih fun c hc => hcs c (by simp [hc])
    have hc := hcs c (by simp)
    unfold properRows
    rw [c.reduce_kept hf hc, hsame]
    refine ⟨rfl, fun rows hrows r hr => ?_⟩
    split at hrows
    · simp at hrows
    · exact hwithin rows hrows r hr
    · rename_i row hrow
      obtain ⟨rest', hrest', rfl⟩ := Option.map_eq_some_iff.mp hrows
      rcases List.mem_cons.mp hr with rfl | hr
      · exact Constraint.within_of_reduce hc hrow
      · exact hwithin rest' hrest' r hr

private theorem insert_within {row : Constraint} (hrow : row.Within bound)
    (hrows : ∀ r ∈ rows, r.Within bound) (rows' : System) (h : insert row rows = some rows') :
    ∀ r ∈ rows', r.Within bound := by
  intro r hr
  rcases List.mem_cons.mp (mem_of_mem_insert h hr) with rfl | hr
  · exact hrow
  · exact hrows r hr

private theorem close_kept {direction : List Int} (hf : Arithmetic.Keeps f (2 * bound))
    (hdirection : ∀ x ∈ direction, x.natAbs ≤ bound) (hrows : ∀ r ∈ rows, r.Within bound) :
    @close ⟨f⟩ rows direction = close rows direction ∧
      ∀ rows', close rows direction = some rows' → ∀ r ∈ rows', r.Within bound := by
  have hopposite : (direction.map fun x => f (-x)) = direction.map fun x => -x :=
    List.map_congr_left fun x hx => hf (-x) (by have := hdirection x hx; omega)
  simp only [close, Arithmetic.fit_exact, hopposite]
  split
  · rename_i c d hc hd
    have hc := hrows c (mem_of_bounding? hc).1
    have hd := hrows d (mem_of_bounding? hd).1
    have hslack : f (c.const + d.const) = c.const + d.const :=
      hf _ (by have h₁ := hc.const; have h₂ := hd.const; omega)
    have htied : (Constraint.zero c.form).Within bound := ⟨hc.coeffs, hc.const⟩
    rw [hslack, Constraint.reduce_kept (hf.mono (by omega)) htied]
    refine ⟨rfl, fun rows' h => ?_⟩
    split at h
    · cases h
    split at h
    · refine insert_within ?_ (fun r hr => hrows r (List.mem_filter.mp hr).1) rows' h
      split
      · exact Constraint.within_of_reduce htied ‹_›
      · exact htied
    · exact Option.some.inj h ▸ hrows
  · exact ⟨rfl, fun rows' h => Option.some.inj h ▸ hrows⟩

/-- An arithmetic that leaves numbers of twice their size alone builds the same system. -/
theorem ofConstraints_kept {cs : List Constraint} (hf : Arithmetic.Keeps f (2 * bound))
    (hcs : ∀ c ∈ cs, c.Within bound) : @ofConstraints ⟨f⟩ cs = ofConstraints cs := by
  obtain ⟨hsame, hproper⟩ := properRows_kept (hf.mono (by omega)) hcs
  simp only [ofConstraints, hsame]
  cases hlowest : properRows cs with
  | none => rfl
  | some proper =>
    have hinserted := foldlM_agree (P := fun rows : System => ∀ r ∈ rows, r.Within bound)
      (g := fun rows row => insert row rows)
      (fun rows row hrow hrows => ⟨rfl, insert_within (hproper proper hlowest row hrow) hrows⟩)
      (b := []) (by simp)
    simp only [Option.bind_eq_bind, Option.bind_some]
    cases hmerged : proper.foldlM (fun rows row => insert row rows) [] with
    | none => rfl
    | some rows =>
      have hrows := hinserted.2 rows hmerged
      refine (foldlM_agree (P := fun rows : System => ∀ r ∈ rows, r.Within bound)
        (fun rows' r hr hrows' => close_kept hf (fun x hx => ?_) hrows') hrows).1
      exact (hrows r (List.mem_filter.mp hr).1).coeffs x hx

/-- Building a system neither loses nor adds an integer point, and neither does any of its steps. -/
theorem hasPoint_ofConstraints {n : Nat} {cs : List Constraint} (hcs : Over n cs) :
    (∀ point, HasPoint (ofConstraints cs) point ↔ ∀ c ∈ cs, c.holds point = true) ∧
    (∀ rows, ofConstraints cs = some rows → Over n rows) ∧
    (∀ c point, HasPoint (properRows [c]) point ↔ c.holds point = true) ∧
    (∀ row rows point, HasPoint (insert row rows) point ↔
      row.holds point = true ∧ ∀ r ∈ rows, r.holds point = true) ∧
    (∀ rows direction point, Distinct rows →
      (HasPoint (close rows direction) point ↔ ∀ r ∈ rows, r.holds point = true)) ∧
    (∀ f bound, (∀ c ∈ cs, c.Within bound) → Arithmetic.Keeps f (2 * bound) →
      @ofConstraints ⟨f⟩ cs = ofConstraints cs) := by
  refine ⟨hasPoint_iff (fun _ => ofConstraints_tightens) not_solves_of_ofConstraints,
    fun rows h => (ofConstraints_tightens h).width n hcs, fun c point => ?_,
    fun row rows point => ?_, fun rows direction point hrows => hasPoint_close hrows direction point,
    fun f bound hwithin hf => ofConstraints_kept hf hwithin⟩
  · simpa using hasPoint_properRows [c] point
  · simpa using hasPoint_insert row rows point

/-- A common divisor, two inequalities of one direction and an opposing one leave `x + 2y = 4`, which
`x = 2` crosses in a single point. -/
theorem hasPoint_crossing :
    let cs : List Constraint := [.atLeast ⟨[2, 4], -5⟩, .atLeast ⟨[1, 2], -4⟩,
      .atLeast ⟨[-2, -4], 9⟩, .zero ⟨[3, 0], -6⟩]
    Over 2 cs ∧
      @ofConstraints .word64 cs = some [.zero ⟨[1, 0], -2⟩, .zero ⟨[1, 2], -4⟩] ∧
      HasPoint (@ofConstraints .word64 cs) [2, 1] ∧ ¬ HasPoint (@ofConstraints .word64 cs) [0, 2] := by
  intro cs
  have hover : Over 2 cs := by simp [cs, Over, Constraint.atLeast, Constraint.zero, Constraint.vars,
    Affine.vars]
  obtain ⟨hpoints, -, -, -, -, hwords⟩ := hasPoint_ofConstraints hover
  have hwithin : ∀ c ∈ cs, c.Within 9 := by
    simp only [cs, List.forall_mem_cons]
    exact ⟨⟨by decide, by decide⟩, ⟨by decide, by decide⟩, ⟨by decide, by decide⟩,
      ⟨by decide, by decide⟩, by simp⟩
  have hsame := hwords Arithmetic.wrap 9 hwithin (Arithmetic.keeps_wrap (by decide))
  refine ⟨hover, by decide +kernel, ?_, ?_⟩
  · rw [hsame, hpoints]
    decide +kernel
  · rw [hsame, hpoints]
    decide +kernel

end System

end StreamLoom
