import StreamLoom.Program.Read
import StreamLoom.Proofs.Affine.Modular
import StreamLoom.Proofs.Model.Access
import StreamLoom.Proofs.Model.Assembly

/-!
# What patterns define

A pattern defines the elements within the extents whose indices match and which satisfy its guard, as
integers of any size. The domain of its statement was made for these: each part of the guard became a
constraint, or the complement of one under a negation.
-/

namespace StreamLoom

attribute [local instance] Arithmetic.exact

open StreamLoom.Arithmetic (fit_add fit_add_right fit_mul fit_mul_right fit_neg fit_sub fit_sub_right)
open StreamLoom.System (Solves Over)

/-! ### Values and truth -/

namespace Op

def onIntegers : Op → List Int → Option Int
  | negate, [x] => some (-x)
  | add, [x, y] => some (x + y)
  | subtract, [x, y] => some (x - y)
  | multiply, [x, y] => some (x * y)
  | _, _ => none

def compares (x y : Int) : Op → Option Bool
  | equal => some (x = y)
  | notEqual => some (x ≠ y)
  | less => some (x < y)
  | lessEqual => some (x ≤ y)
  | greater => some (x > y)
  | greaterEqual => some (x ≥ y)
  | _ => none

end Op

namespace Expr

mutual

/-- The integer that an expression stands for where its variables have the given values. -/
def integerAt (x : List Int) : Expr → Option Int
  | constant _ (.int value) => some value
  | iterator _ v => (x[v.dim]?).map fun y => v.ratio * y + v.offset
  | apply _ op operands => (integersAt x operands).bind op.onIntegers
  | _ => none

def integersAt (x : List Int) : List Expr → Option (List Int)
  | [] => some []
  | e :: rest => do return (← e.integerAt x) :: (← integersAt x rest)

end

/-- Whether a guard is true where its variables have the given values. -/
def truthAt (x : List Int) : Expr → Option Bool
  | constant _ (.bool value) => some value
  | apply _ .not [e] => (e.truthAt x).map (!·)
  | apply _ .and [a, b] => do return (← a.truthAt x) && (← b.truthAt x)
  | apply _ .or [a, b] => do return (← a.truthAt x) || (← b.truthAt x)
  | apply _ op operands =>
    match integersAt x operands with
    | some [y, z] => op.compares y z
    | _ => none
  | _ => none

end Expr

/-- An element of an array with some extents is defined by a pattern. -/
structure Pattern.Defines (pattern : Pattern) (extents : List Extent) (x : List Int) : Prop where
  inside : Extent.Admits extents none x
  indices : ∀ d value, pattern.indices[d]? = some (.fixed value) → valuation x d = value
  guard : ∀ g, pattern.guard = some g → g.truthAt x = some true

/-! ### Affine expressions -/

namespace Expr

private theorem valueAt_of_isConstant {a : Affine} (h : a.isConstant = true) (x : Nat → Int) :
    a.valueAt x = a.const := by
  have hzeros : a.coeffs = List.replicate a.coeffs.length 0 :=
    List.eq_replicate_iff.mpr ⟨rfl, by simpa [Affine.isConstant] using h⟩
  rw [Affine.valueAt, hzeros, Affine.linear_replicate_zero, add_zero]
  rfl

/-- What is kept of the values of affine forms is computed by the operation that combines them. -/
theorem onIntegers_of_combine [Arithmetic] [Arithmetic.Modular] {n : Nat} {op : Op} {as : List Affine}
    {a : Affine} (has : ∀ b ∈ as, b.vars = n) (h : combine op as = some a) (x : Nat → Int) :
    (op.onIntegers (as.map fun b => fit (b.valueAt x))).map fit = some (fit (a.valueAt x)) := by
  unfold combine at h
  split at h
  · obtain rfl := Option.some.inj h
    simp [Op.onIntegers, fit_neg, Affine.fit_valueAt_neg]
  · rename_i b c
    obtain rfl := Option.some.inj h
    have hvars : b.vars = c.vars := by rw [has b (by simp), has c (by simp)]
    simp [Op.onIntegers, fit_add, fit_add_right, Affine.fit_valueAt_add x hvars]
  · rename_i b c
    obtain rfl := Option.some.inj h
    have hvars : b.vars = c.vars := by rw [has b (by simp), has c (by simp)]
    simp [Op.onIntegers, fit_sub, fit_sub_right, Affine.fit_valueAt_sub x hvars]
  · split at h
    · rename_i hconstant
      obtain rfl := Option.some.inj h
      simp [Op.onIntegers, valueAt_of_isConstant hconstant, fit_mul, fit_mul_right, Affine.fit_valueAt_scale]
    · split at h
      · rename_i hconstant
        obtain rfl := Option.some.inj h
        simp [Op.onIntegers, valueAt_of_isConstant hconstant, fit_mul_right, Affine.fit_valueAt_scale,
          mul_comm]
      · cases h
  · cases h

private theorem integersAt_of_forall₂ {x : List Int} {es : List Expr} {as : List Affine}
    (h : List.Forall₂ (fun e a => e.integerAt x = some (a.valueAt (valuation x))) es as) :
    integersAt x es = some (as.map (·.valueAt (valuation x))) := by
  induction h with
  | nil => simp [integersAt]
  | cons he _ ih => simp [integersAt, he, ih]

theorem integerAt_of_affine? {x : List Int} (e : Expr) {a : Affine} (h : e.affine? x.length = some a) :
    e.integerAt x = some (a.valueAt (valuation x)) := by
  refine affine?_induction (P := fun e a => e.integerAt x = some (a.valueAt (valuation x))) ?_ ?_ ?_ e h
  · intro _ value
    simp [integerAt]
  · intro _ v hlt
    simp [integerAt, Affine.valueAt_var hlt, valuation, hlt, mul_comm]
  · intro _ op operands as a has hvalues hcombine
    rw [integerAt, integersAt_of_forall₂ hvalues, Option.bind_some]
    simpa using onIntegers_of_combine (vars_affines? has) hcombine (valuation x)

theorem integersAt_of_affines? {x : List Int} {es : List Expr} {as : List Affine}
    (h : affines? x.length es = some as) : integersAt x es = some (as.map (·.valueAt (valuation x))) :=
  integersAt_of_forall₂ ((forall₂_of_affines? h).imp fun e _ he => integerAt_of_affine? e he)

end Expr

/-! ### Guards -/

namespace Guard

private theorem compares_complement (op : Op) (y z : Int) :
    (complement op).compares y z = (op.compares y z).map (!·) := by
  cases op <;> simp [complement, Op.compares]
  all_goals
    rw [← decide_not]
    simp

private theorem admits_comparison {op : Op} {l r : Affine} {c : Constraint} (hvars : l.vars = r.vars)
    (h : comparison op l r = some c) (x : Nat → Int) :
    ∃ b, op.compares (l.valueAt x) (r.valueAt x) = some b ∧ (c.Admits x ↔ b = true) := by
  unfold comparison at h
  split at h
  · cases h
    exact ⟨_, rfl, by simp [Constraint.admits_equal hvars]⟩
  · cases h
    exact ⟨_, rfl, by simp [Constraint.admits_lt hvars.symm]⟩
  · cases h
    exact ⟨_, rfl, by simp [Constraint.admits_le hvars.symm]⟩
  · cases h
    exact ⟨_, rfl, by simp [Constraint.admits_lt hvars]⟩
  · cases h
    exact ⟨_, rfl, by simp [Constraint.admits_le hvars]⟩
  · cases h

private theorem solves_comparing {x : List Int} {negated : Bool} {origin : Option Origin} {op : Op}
    {operands : List Expr} {cs : List Constraint}
    (h : comparing x.length negated origin op operands = .ok cs) :
    ∃ y z b, Expr.integersAt x operands = some [y, z] ∧ op.compares y z = some b ∧
      (Solves (valuation x) cs ↔ b ≠ negated) := by
  unfold comparing at h
  split at h
  · rename_i l r haffines
    have hvars := Expr.vars_affines? haffines
    split at h
    · rename_i c hc
      cases h
      obtain ⟨b, hb, hadmits⟩ := admits_comparison
        (by rw [hvars l (by simp), hvars r (by simp)]) hc (valuation x)
      have hoperands := Expr.integersAt_of_affines? haffines
      rw [System.solves_cons, hadmits]
      cases negated with
      | false => exact ⟨_, _, b, hoperands, hb, by simp⟩
      | true =>
        rw [if_pos rfl, compares_complement, Option.map_eq_some_iff] at hb
        obtain ⟨b', hb', rfl⟩ := hb
        exact ⟨_, _, b', hoperands, hb', by simp⟩
    · cases h
  · cases h

theorem solves_constraints {x : List Int} {negated : Bool} {e : Expr} {cs : List Constraint}
    (h : constraints x.length negated e = .ok cs) :
    ∃ b, e.truthAt x = some b ∧ (Solves (valuation x) cs ↔ b ≠ negated) := by
  fun_induction constraints x.length negated e generalizing cs with
  | case1 negated origin value =>
    cases h
    refine ⟨value, by rw [Expr.truthAt], ?_⟩
    split
    · simp_all
    · simp_all
  | case2 negated origin e ih =>
    obtain ⟨b, hb, hsolves⟩ := ih h
    refine ⟨!b, by rw [Expr.truthAt, hb, Option.map_some], hsolves.trans ?_⟩
    simp
  | case3 => cases h
  | case4 negated origin a b hnegated iha ihb =>
    obtain ⟨as, has, hrest⟩ := Outcome.bind_eq_ok h
    obtain ⟨bs, hbs, hpure⟩ := Outcome.bind_eq_ok hrest
    cases hpure
    obtain ⟨b, hb, hsolves⟩ := iha has
    obtain ⟨b', hb', hsolves'⟩ := ihb hbs
    refine ⟨b && b', by simp [Expr.truthAt, hb, hb'], ?_⟩
    rw [System.solves_append, hsolves, hsolves']
    simp_all
  | case5 origin a b iha ihb =>
    obtain ⟨as, has, hrest⟩ := Outcome.bind_eq_ok h
    obtain ⟨bs, hbs, hpure⟩ := Outcome.bind_eq_ok hrest
    cases hpure
    obtain ⟨b, hb, hsolves⟩ := iha has
    obtain ⟨b', hb', hsolves'⟩ := ihb hbs
    refine ⟨b || b', by simp [Expr.truthAt, hb, hb'], ?_⟩
    rw [System.solves_append, hsolves, hsolves']
    simp
  | case6 => cases h
  | case7 negated origin op operands hnot hand hor =>
    obtain ⟨y, z, b, hoperands, hb, hsolves⟩ := solves_comparing h
    refine ⟨b, ?_, hsolves⟩
    rw [Expr.truthAt, hoperands]
    · exact hb
    · exact hnot
    · exact hand
    · exact hor
  | case8 => cases h
  | case9 => cases h

end Guard

/-! ### Domains -/

/-- A set that was narrowed by a condition on its dimensions alone. -/
private structure Narrows (s t : PointSet) (condition : (Nat → Int) → Prop) : Prop where
  dims : t.dims = s.dims
  locals : t.locals = s.locals
  regular : s.Regular → t.Regular
  solves : ∀ x : Nat → Int, Solves x t.cons ↔ Solves x s.cons ∧ condition x

namespace Narrows

private theorem refl (s : PointSet) : Narrows s s fun _ => True :=
  ⟨rfl, rfl, fun hs => hs, by simp⟩

private theorem trans {s t u : PointSet} {first second : (Nat → Int) → Prop} (h : Narrows s t first)
    (h' : Narrows t u second) : Narrows s u fun x => first x ∧ second x := by
  refine ⟨h'.dims.trans h.dims, h'.locals.trans h.locals, fun hs => h'.regular (h.regular hs), ?_⟩
  intro x
  rw [h'.solves, h.solves, and_assoc]

private theorem congr {s t : PointSet} {first second : (Nat → Int) → Prop} (h : Narrows s t first)
    (hiff : ∀ x, first x ↔ second x) : Narrows s t second :=
  ⟨h.dims, h.locals, h.regular, fun x => (h.solves x).trans (and_congr_right fun _ => hiff x)⟩

private theorem constrain {s : PointSet} {cs : List Constraint} (hcs : Over s.dims cs) :
    Narrows s (s.constrain cs) fun x => Solves x cs :=
  ⟨rfl, rfl, fun hs => PointSet.regular_constrain hs hcs, fun _ => PointSet.solves_constrain⟩

private theorem fix {s : PointSet} {dim : Nat} (hdim : dim < s.dims) (value : Int) :
    Narrows s (s.fix dim value) fun x => x dim = value :=
  ⟨rfl, rfl, fun hs => PointSet.regular_fix hs dim value, fun _ => PointSet.solves_fix hdim value⟩

private theorem foldl_fix (indices : List (PatternIndex × Nat)) (s : PointSet)
    (hdims : ∀ entry ∈ indices, entry.2 < s.dims) :
    Narrows s (indices.foldl (fun (s : PointSet) (index, dim) =>
      match index with
      | .fixed value => s.fix dim value
      | .var _ => s) s) fun x => ∀ d value, (.fixed value, d) ∈ indices → x d = value := by
  induction indices generalizing s with
  | nil => exact (refl s).congr (by simp)
  | cons entry rest ih =>
    obtain ⟨index, dim⟩ := entry
    have hrest : ∀ entry ∈ rest, entry.2 < s.dims := fun entry hentry => hdims entry (by simp [hentry])
    cases index with
    | var name => exact (ih s hrest).congr (by simp)
    | fixed value =>
      refine ((fix (hdims (.fixed value, dim) (by simp)) value).trans (ih _ hrest)).congr fun x => ?_
      simp only [List.mem_cons, Prod.mk.injEq, PatternIndex.fixed.injEq, or_imp, forall_and, and_imp]
      simp

end Narrows

namespace Program

variable {array : DataArray} {name : String} {pattern : Pattern} {domain : PointSet}

private theorem narrows_rename (s : PointSet) (name : String) : Narrows s (s.rename name) fun _ => True :=
  ⟨rfl, rfl, fun hs => hs, fun _ => (and_true _).to_iff.symm⟩

/-- The domain of a pattern, by the constraints that its guard was translated to. -/
private theorem narrows_patternDomain (h : patternDomain array name pattern = .ok domain)
    (hrank : pattern.indices.length = array.rank) : Narrows array.domain domain fun x =>
      (∀ d value, pattern.indices[d]? = some (.fixed value) → x d = value) ∧
        ∀ g cs, pattern.guard = some g → Guard.constraints array.rank false g = .ok cs → Solves x cs := by
  have hfixed := (narrows_rename array.domain name).trans
    (Narrows.foldl_fix pattern.indices.zipIdx (array.domain.rename name) fun entry hentry => by
      have hlt := (List.getElem?_eq_some_iff.mp (List.mem_zipIdx_iff_getElem?.mp hentry)).1
      change entry.2 < array.rank
      omega)
  simp only [patternDomain] at h
  split at h
  · rename_i hguard
    cases h
    exact hfixed.congr fun x => by simp [hguard, List.mem_zipIdx_iff_getElem?]
  · rename_i guard hguard
    obtain ⟨cs, hcs, hpure⟩ := Outcome.bind_eq_ok h
    cases hpure
    refine (hfixed.trans (Narrows.constrain ?_)).congr fun x => ?_
    · rw [hfixed.dims]
      exact Guard.over_constraints hcs
    simp only [true_and, List.mem_zipIdx_iff_getElem?, hguard, Option.some.injEq]
    refine and_congr_right fun _ => ⟨?_, fun hguards => hguards guard cs rfl hcs⟩
    rintro hsolves _ cs' rfl hcs'
    obtain rfl := Except.ok.inj (hcs.symm.trans hcs')
    exact hsolves

private theorem exists_constraints (h : patternDomain array name pattern = .ok domain) {g : Expr}
    (hg : pattern.guard = some g) : ∃ cs, Guard.constraints array.rank false g = .ok cs := by
  simp only [patternDomain, hg] at h
  obtain ⟨cs, hcs, -⟩ := Outcome.bind_eq_ok h
  exact ⟨cs, hcs⟩

theorem regular_patternDomain (h : patternDomain array name pattern = .ok domain)
    (hrank : pattern.indices.length = array.rank) :
    domain.dims = array.rank ∧ domain.locals = 0 ∧ domain.Regular :=
  have hnarrows := narrows_patternDomain h hrank
  ⟨hnarrows.dims, hnarrows.locals, hnarrows.regular (PointSet.regular_box _ _)⟩

/-- The domain of a pattern is within that of its array. -/
theorem solves_of_patternDomain (h : patternDomain array name pattern = .ok domain)
    (hrank : pattern.indices.length = array.rank) {x : Nat → Int} (hx : Solves x domain.cons) :
    Solves x array.domain.cons :=
  ((narrows_patternDomain h hrank).solves x |>.mp hx).1

/-- The domain of a pattern consists of the elements that the pattern defines. -/
theorem includes_patternDomain (h : patternDomain array name pattern = .ok domain)
    (hrank : pattern.indices.length = array.rank) (x : List Int) :
    domain.Includes x ↔ pattern.Defines array.extents x := by
  have hnarrows := narrows_patternDomain h hrank
  obtain ⟨hdims, hlocals, hregular⟩ := regular_patternDomain h hrank
  have hguard {g : Expr} (hlength : x.length = array.rank) {cs : List Constraint}
      (hcs : Guard.constraints array.rank false g = .ok cs) :
      Solves (valuation x) cs ↔ g.truthAt x = some true := by
    rw [← hlength] at hcs
    obtain ⟨b, hb, hsolves⟩ := Guard.solves_constraints hcs
    simp [hsolves, hb]
  rw [PointSet.includes_iff hregular, PointSet.has_iff_solves hregular hlocals, hnarrows.solves, hdims]
  constructor
  · rintro ⟨hlength, hsolves, hindices, hguards⟩
    refine ⟨Extent.Admits.iff_solves.mpr ⟨hlength, hsolves⟩, hindices, fun g hg => ?_⟩
    obtain ⟨cs, hcs⟩ := exists_constraints h hg
    exact (hguard hlength hcs).mp (hguards g cs hg hcs)
  · rintro ⟨hadmits, hindices, htruth⟩
    obtain ⟨hlength, hsolves⟩ := Extent.Admits.iff_solves.mp hadmits
    exact ⟨hlength, hsolves, hindices, fun g cs hg hcs => (hguard hlength hcs).mpr (htruth g hg)⟩

/-- A guard that a domain was made with has a truth value for all indices. -/
theorem exists_truth_of_patternDomain (h : patternDomain array name pattern = .ok domain) {g : Expr}
    (hg : pattern.guard = some g) {x : List Int} (hlength : x.length = array.rank) :
    ∃ b, g.truthAt x = some b := by
  obtain ⟨cs, hcs⟩ := exists_constraints h hg
  rw [← hlength] at hcs
  obtain ⟨b, hb, -⟩ := Guard.solves_constraints hcs
  exact ⟨b, hb⟩

end Program

/-! ### Statements -/

/-- The statements that write the array of an identifier are those of its patterns, in their order, and the domain
of each consists of the elements that the pattern defines. An element belongs to it or not because the guard is
true or false there: none of the guards that are accepted is left without a truth value. -/
theorem Model.includes_iff_defines {p : Program} {m : Model} (hm : (build p).execute.1 = .ok m) {i : Nat}
    {id : Identifier} (hid : p.identifiers[i]? = some id) {k : Nat} {pattern : Pattern}
    (hpattern : id.patterns[k]? = some pattern) :
    ∃ array s, p.identifierArray id i = .ok array ∧ m.arrays[p.arrayOfIdentifier i]? = some array ∧
      (m.statements.filter (·.array == p.arrayOfIdentifier i))[k]? = some s ∧
      ∀ x : List Int, x.length = array.rank →
        (∀ g, pattern.guard = some g → ∃ b, g.truthAt x = some b) ∧
        (s.domain.Includes x ↔ pattern.Defines array.extents x) := by
  obtain ⟨_, _, hassembled⟩ := assembled_of_build hm
  obtain ⟨array, ss, hmade, hhome, hss, hstates⟩ := hassembled.exists_written hid
  obtain ⟨s, hs, hstate⟩ := Outcome.getElem?_of_forall₂ hstates (i := k) (x := (pattern, k)) (by simp [hpattern])
  refine ⟨array, s, hmade, hhome, ?_, fun x hx => ⟨fun g hg => ?_, ?_⟩⟩
  · rw [hassembled.filter_statements hss, hs]
  · exact Program.exists_truth_of_patternDomain hstate.domain hg hx
  · exact Program.includes_patternDomain hstate.domain hstate.rank x

/-- An array whose first element is alone, and whose others are those above two and up to nine. -/
def headAndMiddle : List SourceFile :=
  [⟨"", "(array a int [20] (pattern [0] 1)
    (pattern [i] (when (not (or (<= i 2) (not (not (> i 9)))))) 2))".toList⟩]

theorem Model.includes_iff_defines_headAndMiddle : ∃ (p : Program) (m : Model) (id : Identifier)
    (pattern : Pattern) (g : Expr) (array : DataArray) (s : Statement),
    (Program.read ⟨⟨"", []⟩, []⟩ headAndMiddle).result = .ok p ∧ (build p).execute.1 = .ok m ∧
    p.identifiers[0]? = some id ∧ id.patterns[1]? = some pattern ∧ pattern.guard = some g ∧
    [2, 3, 9, 10].map (fun x => g.truthAt [x]) = [some false, some true, some true, some false] ∧
    (m.statements.filter (·.array == p.arrayOfIdentifier 0))[1]? = some s ∧
    ∀ x, x.length = array.rank → (s.domain.Includes x ↔ pattern.Defines array.extents x) := by
  have hrun : (Outcome.passes (Program.read ⟨⟨"", []⟩, []⟩ headAndMiddle).result fun p =>
      Outcome.passes (build p).execute.1 fun _ => p.identifiers[0]?.any fun id =>
        id.patterns[1]?.any fun pattern => pattern.guard.any fun g =>
          [2, 3, 9, 10].map (fun x => g.truthAt [x]) ==
            [some false, some true, some true, some false]) = true := by
    decide +kernel
  obtain ⟨p, hread, hrun⟩ := Outcome.exists_of_passes hrun
  obtain ⟨m, hm, hrun⟩ := Outcome.exists_of_passes hrun
  obtain ⟨id, hid, hrun⟩ := (Option.any_eq_true _ _).mp hrun
  obtain ⟨pattern, hpattern, hrun⟩ := (Option.any_eq_true _ _).mp hrun
  obtain ⟨g, hg, hrun⟩ := (Option.any_eq_true _ _).mp hrun
  obtain ⟨array, s, -, -, hs, hdomain⟩ := includes_iff_defines hm hid hpattern
  exact ⟨p, m, id, pattern, g, array, s, hread, hm, hid, hpattern, hg, beq_iff_eq.mp hrun, hs,
    fun x hx => (hdomain x hx).2⟩

end StreamLoom
