import Mathlib.Order.Bounds.Basic
import StreamLoom.Program.Typing
import StreamLoom.Proofs.Outcome

/-!
# Types of expressions under better knowledge

The types of values are ordered: a type is below those that hold its values, and an unknown type is below
all of them. In this order the join of two types is their least upper bound, and there is none where the
join fails. All rules for the type of a result respect the order. Whatever becomes known of the identifiers
that an expression reads, its type can only go up, and an error in it does not go away.
-/

namespace StreamLoom

namespace ValueType

instance : PartialOrder ValueType where
  le a b := a = .unknown ∨ a = b ∨ a = .int ∧ b = .real
  le_refl _ := .inr (.inl rfl)
  le_trans a b c := by cases a <;> cases b <;> cases c <;> simp
  le_antisymm a b := by cases a <;> cases b <;> simp

theorem le_iff {a b : ValueType} : a ≤ b ↔ a = .unknown ∨ a = b ∨ a = .int ∧ b = .real := Iff.rfl

theorem unknown_le (a : ValueType) : .unknown ≤ a := .inl rfl

variable {a a' b b' c : ValueType}

private theorem isLUB_of_le (h : a ≤ b) : IsLUB {a, b} b :=
  IsGreatest.isLUB ⟨by simp, by simp [h]⟩

theorem isLUB_of_join (h : a.join b = .ok c) : IsLUB {a, b} c := by
  unfold join at h
  split at h
  · rename_i ha
    cases h
    exact isLUB_of_le (ha ▸ unknown_le b)
  · split at h
    · rename_i hb
      cases h
      rw [Set.pair_comm]
      rcases hb with hb | hb
      · exact isLUB_of_le (hb ▸ unknown_le a)
      · exact isLUB_of_le hb.ge
    · split at h
      · rename_i hne hnumeric
        cases h
        -- Of two different types of numbers one is real.
        have hreal : a ≤ .real ∧ b = .real ∨ b ≤ .real ∧ a = .real := by
          cases a <;> cases b <;> simp_all [isNumeric, le_iff]
        rcases hreal with ⟨ha, rfl⟩ | ⟨hb, rfl⟩
        · exact isLUB_of_le ha
        · rw [Set.pair_comm]
          exact isLUB_of_le hb
      · cases h

/-- Types have a join as soon as some type holds the values of both. -/
theorem exists_join (ha : a ≤ c) (hb : b ≤ c) : ∃ d, a.join b = .ok d := by
  rw [le_iff] at ha hb
  cases a <;> cases b <;> cases c <;> simp_all [join, isNumeric]

/-- Types among which there is no truth value, or nothing else, have a least upper bound. -/
theorem exists_isLUB {types : Set ValueType} {p : Prop}
    (h : ∀ t ∈ types, t ≠ .unknown → (t = .bool ↔ p)) : ∃ t, IsLUB types t := by
  by_cases hbool : ValueType.bool ∈ types
  · refine ⟨.bool, IsGreatest.isLUB ⟨hbool, fun t ht => ?_⟩⟩
    by_cases hunknown : t = .unknown
    · exact .inl hunknown
    · exact .inr (.inl ((h t ht hunknown).mpr ((h _ hbool (by decide)).mp rfl)))
  · by_cases hreal : ValueType.real ∈ types
    · refine ⟨.real, IsGreatest.isLUB ⟨hreal, fun t ht => le_iff.mpr ?_⟩⟩
      cases t <;> simp_all
    · by_cases hint : ValueType.int ∈ types
      · refine ⟨.int, IsGreatest.isLUB ⟨hint, fun t ht => le_iff.mpr ?_⟩⟩
        cases t <;> simp_all
      · refine ⟨.unknown, fun t ht => le_iff.mpr ?_, fun t _ => unknown_le t⟩
        cases t <;> simp_all

/-- If some types have the least upper bound real, one of them is real. -/
theorem real_mem_of_isLUB {types : Set ValueType} (h : IsLUB types .real) : ValueType.real ∈ types := by
  by_contra hreal
  have hint : ValueType.int ∈ upperBounds types := by
    intro t ht
    have hle := h.1 ht
    rw [le_iff] at hle ⊢
    cases t <;> simp_all
  exact absurd (h.2 hint) (by rw [le_iff]; decide)

private theorem join_unknown (a : ValueType) : a.join .unknown = .ok a := by
  cases a <;> rfl

/-- The join with a type that is not real changes an unknown type at most, and does not make it real. -/
private theorem eq_or_of_isLUB (h : IsLUB {a, b} c) (hb : b ≠ .real) :
    a = c ∨ a = .unknown ∧ c ≠ .real := by
  by_cases hc : c = .real
  · subst hc
    rcases real_mem_of_isLUB h with ha | hb'
    · exact .inl ha.symm
    · exact absurd hb'.symm hb
  · rcases h.1 (Set.mem_insert a _) with ha | ha | ⟨-, hreal⟩
    · exact .inr ⟨ha, hc⟩
    · exact .inl ha
    · exact absurd hreal hc

/-- A relation between the types that are found with some knowledge and with more of it. -/
structure Coarser (R : ValueType → ValueType → Prop) : Prop where
  refl : ∀ t, R t t
  join : ∀ {a a' b b' c'}, R a a' → R b b' → a'.join b' = .ok c' → ∃ c, a.join b = .ok c ∧ R c c'
  bool : ∀ {t}, R .bool t → t = .bool
  truth : ∀ {t t'}, R t t' → t' = .unknown ∨ t' = .bool → t = .unknown ∨ t = .bool

theorem coarser_le : Coarser (· ≤ ·) where
  refl := le_refl
  join := by
    intro a a' b b' c' ha hb hjoin
    have hlub' := isLUB_of_join hjoin
    have ha' : a ≤ c' := ha.trans (hlub'.1 (by simp))
    have hb' : b ≤ c' := hb.trans (hlub'.1 (by simp))
    obtain ⟨c, hc⟩ := exists_join ha' hb'
    exact ⟨c, hc, (isLUB_of_join hc).2 (by simp [ha', hb'])⟩
  bool h := by
    simp only [le_iff] at h
    simp_all
  truth := by
    intro t t' h htruth
    rw [le_iff] at h
    cases t <;> cases t' <;> simp_all

/-- Knowing of integers and truth values makes no type real. -/
theorem coarser_unless_real : Coarser fun t t' => t = t' ∨ t = .unknown ∧ t' ≠ .real where
  refl _ := .inl rfl
  join := by
    intro a a' b b' c' ha hb hjoin
    have hlub := isLUB_of_join hjoin
    rcases ha with rfl | ⟨rfl, ha⟩
    · rcases hb with rfl | ⟨rfl, hb⟩
      · exact ⟨c', hjoin, .inl rfl⟩
      · exact ⟨a, join_unknown a, eq_or_of_isLUB hlub hb⟩
    · refine ⟨b, rfl, ?_⟩
      rw [Set.pair_comm] at hlub
      rcases hb with rfl | ⟨rfl, hb⟩
      · exact eq_or_of_isLUB hlub ha
      · rcases eq_or_of_isLUB hlub ha with rfl | ⟨-, hc⟩
        · exact .inr ⟨rfl, hb⟩
        · exact .inr ⟨rfl, hc⟩
  bool h := by simp_all [eq_comm]
  truth := by
    intro t t' h htruth
    rcases h with rfl | ⟨h, -⟩
    · exact htruth
    · exact .inl h

end ValueType

/-! ### Operations -/

namespace Op

open ValueType (Coarser)

variable {R : ValueType → ValueType → Prop} {op : Op} {types types' : List ValueType}

private theorem joinOperands_coarser (hR : Coarser R) (h : List.Forall₂ R types types')
    {r r' : ValueType} (hr : R r r') {t' : ValueType} (ht' : op.joinOperands r' types' = .ok t') :
    ∃ t, op.joinOperands r types = .ok t ∧ R t t' := by
  induction h generalizing r r' with
  | nil =>
    cases ht'
    exact ⟨r, rfl, hr⟩
  | @cons s s' rest rest' hs _ ih =>
    rw [joinOperands] at ht'
    cases hjoin : r'.join s' with
    | error e =>
      rw [hjoin] at ht'
      cases ht'
    | ok joined' =>
      rw [hjoin] at ht'
      change (if _ then _ else _) = _ at ht'
      split at ht'
      · cases ht'
      · rename_i hnumeric
        obtain ⟨joined, hjoined, hcoarser⟩ := hR.join hr hs hjoin
        obtain ⟨t, ht, hcoarser⟩ := ih hcoarser ht'
        refine ⟨t, ?_, hcoarser⟩
        have hbool : ¬(op.rule ≠ .select ∧ op.rule ≠ .comparison ∧ s = .bool) := by
          rintro ⟨hselect, hcomparison, rfl⟩
          exact hnumeric ⟨hselect, hcomparison, hR.bool hs⟩
        rw [joinOperands, hjoined]
        change (if _ then _ else _) = _
        rw [if_neg hbool, ht]

private theorem find?_eq_none_of_coarser (hR : Coarser R) (h : List.Forall₂ R types types')
    (hnone : types'.find? (fun t => t != .unknown && t != .bool) = none) :
    types.find? (fun t => t != .unknown && t != .bool) = none := by
  induction h with
  | nil => rfl
  | @cons s s' rest rest' hs _ ih =>
    rw [List.find?_eq_none, List.forall_mem_cons] at hnone
    have htruth := hR.truth hs (by simpa [imp_iff_not_or] using hnone.1)
    rw [List.find?_cons_of_neg (by simpa [imp_iff_not_or] using htruth)]
    exact ih (List.find?_eq_none.mpr hnone.2)

/-- The type of a result is as coarse as the types of the operands. -/
theorem resultType_coarser (hR : Coarser R) (h : List.Forall₂ R types types') {t' : ValueType}
    (ht' : op.resultType types' = .ok t') : ∃ t, op.resultType types = .ok t ∧ R t t' := by
  have hunknown := hR.refl .unknown
  unfold resultType at ht' ⊢
  rw [h.length_eq]
  split at ht'
  · cases ht'
  · rename_i harity
    rw [if_neg harity]
    cases hrule : op.rule <;> simp only [hrule] at ht' ⊢
    case numeric => exact joinOperands_coarser hR h hunknown ht'
    case logical =>
      cases hfind : types'.find? fun t => t != .unknown && t != .bool with
      | some t =>
        rw [hfind] at ht'
        cases ht'
      | none =>
        rw [hfind] at ht'
        cases ht'
        have hall : types.find? (fun t => t != .unknown && t != .bool) = none :=
          find?_eq_none_of_coarser hR h hfind
        rw [hall]
        exact ⟨.bool, rfl, hR.refl _⟩
    case select =>
      cases h with
      | nil =>
        cases ht'
        exact ⟨.unknown, rfl, hunknown⟩
      | @cons condition condition' arms arms' hcondition harms =>
        dsimp only at ht' ⊢
        split at ht'
        · cases ht'
        · rename_i hfits
          have htruth := hR.truth hcondition (by simpa [imp_iff_not_or] using hfits)
          rw [if_neg (by simpa [imp_iff_not_or] using htruth)]
          exact joinOperands_coarser hR harms hunknown ht'
    all_goals
      obtain ⟨joined', hjoined', rfl⟩ := Outcome.map_eq_ok ht'
      obtain ⟨joined, hjoined, -⟩ := joinOperands_coarser hR h hunknown hjoined'
      rw [hjoined]
      exact ⟨_, rfl, hR.refl _⟩

end Op

/-! ### Expressions -/

namespace Expr

mutual

/-- The identifiers that have elements among the values an expression is made of. -/
def targets : Expr → List Nat
  | constant _ _ | iterator _ _ | input _ _ _ => []
  | element _ target _ => [target]
  | apply _ _ operands => operandTargets operands
  | reduce _ _ _ _ _ body => body.targets

def operandTargets : List Expr → List Nat
  | [] => []
  | e :: rest => e.targets ++ operandTargets rest

end

mutual

/-- An expression with other numbers for the identifiers, which is not written anywhere. -/
def renumbered (f : Nat → Nat) : Expr → Expr
  | constant _ value => constant none value
  | iterator _ value => iterator none value
  | element _ target indices => element none (f target) (renumberedAll f indices)
  | input _ i indices => input none i (renumberedAll f indices)
  | apply _ op operands => apply none op (renumberedAll f operands)
  | reduce _ op dim lower upper body => reduce none op dim lower upper (body.renumbered f)

def renumberedAll (f : Nat → Nat) : List Expr → List Expr
  | [] => []
  | e :: rest => e.renumbered f :: renumberedAll f rest

end

end Expr

namespace Typing

open ValueType (Coarser)

variable {R : ValueType → ValueType → Prop} {c c' : Context}

def Context.typeAt (c : Context) (i : Nat) : ValueType := c.identifiers.getD i .unknown

theorem applied_eq {origin : Option Origin} {op : Op} {types : List ValueType} {t : ValueType}
    (h : op.resultType types = .ok t) : applied origin op types = (t, []) := by
  rw [applied, h]

theorem resultType_of_applied {origin : Option Origin} {op : Op} {types : List ValueType}
    (h : (applied origin op types).2 = []) : op.resultType types = .ok (applied origin op types).1 := by
  unfold applied at h ⊢
  split
  · assumption
  · rename_i hresult
    rw [hresult] at h
    cases h

private theorem applied_coarser (hR : Coarser R) {origin : Option Origin} {op : Op}
    {types types' : List ValueType} (h : List.Forall₂ R types types')
    (hok : (applied origin op types').2 = []) :
    (applied origin op types).2 = [] ∧ R (applied origin op types).1 (applied origin op types').1 := by
  obtain ⟨t, ht, hcoarser⟩ := Op.resultType_coarser hR h (resultType_of_applied hok)
  rw [applied_eq ht]
  exact ⟨rfl, hcoarser⟩

mutual

/-- With less knowledge of the identifiers it reads, an expression has a coarser type. -/
theorem typeOf_coarser (hR : Coarser R) (hinputs : c.inputs = c'.inputs) : (e : Expr) →
    (∀ j ∈ e.targets, R (c.typeAt j) (c'.typeAt j)) → (typeOf c' e).2 = [] →
    (typeOf c e).2 = [] ∧ R (typeOf c e).1 (typeOf c' e).1
  | .constant _ _, _, _ => ⟨rfl, hR.refl _⟩
  | .iterator _ _, _, _ => ⟨rfl, hR.refl _⟩
  | .element _ target _, h, _ => ⟨rfl, h target (by simp [Expr.targets])⟩
  | .input _ i _, _, _ => by
    simp only [typeOf, hinputs]
    exact ⟨trivial, hR.refl _⟩
  | .apply origin op operands, h, hok => by
    rw [Expr.targets] at h
    simp only [typeOf, List.append_eq_nil_iff] at hok ⊢
    obtain ⟨hoperands, htypes⟩ := typesOf_coarser hR hinputs operands h hok.1
    obtain ⟨happlied, htype⟩ := applied_coarser hR htypes hok.2
    exact ⟨⟨hoperands, happlied⟩, htype⟩
  | .reduce origin op dim lower upper body, h, hok => by
    rw [Expr.targets] at h
    simp only [typeOf, List.append_eq_nil_iff] at hok ⊢
    obtain ⟨hbody, hcoarser⟩ := typeOf_coarser hR hinputs body h hok.1
    obtain ⟨happlied, htype⟩ := applied_coarser hR (.cons hcoarser (.cons hcoarser .nil)) hok.2
    exact ⟨⟨hbody, happlied⟩, htype⟩

theorem typesOf_coarser (hR : Coarser R) (hinputs : c.inputs = c'.inputs) : (es : List Expr) →
    (∀ j ∈ Expr.operandTargets es, R (c.typeAt j) (c'.typeAt j)) → (typesOf c' es).2 = [] →
    (typesOf c es).2 = [] ∧ List.Forall₂ R (typesOf c es).1 (typesOf c' es).1
  | [], _, _ => ⟨rfl, .nil⟩
  | e :: rest, h, hok => by
    rw [Expr.operandTargets] at h
    simp only [typesOf, List.append_eq_nil_iff] at hok ⊢
    obtain ⟨hfirst, hcoarser⟩ :=
      typeOf_coarser hR hinputs e (fun j hj => h j (List.mem_append_left _ hj)) hok.1
    obtain ⟨hrest, hcoarsers⟩ :=
      typesOf_coarser hR hinputs rest (fun j hj => h j (List.mem_append_right _ hj)) hok.2
    exact ⟨⟨hfirst, hrest⟩, .cons hcoarser hcoarsers⟩

end

private theorem applied_origin (origin origin' : Option Origin) (op : Op) (types : List ValueType) :
    (applied origin op types).1 = (applied origin' op types).1 ∧
      ((applied origin op types).2 = [] ↔ (applied origin' op types).2 = []) := by
  unfold applied
  cases op.resultType types <;> simp

mutual

/-- The type of an expression does not depend on how identifiers are numbered. -/
theorem typeOf_renumbered {f : Nat → Nat} (hinputs : c'.inputs = c.inputs)
    (hf : ∀ j, c'.typeAt (f j) = c.typeAt j) : (e : Expr) →
    (typeOf c' (e.renumbered f)).1 = (typeOf c e).1 ∧
      ((typeOf c' (e.renumbered f)).2 = [] ↔ (typeOf c e).2 = [])
  | .constant _ _ => ⟨rfl, Iff.rfl⟩
  | .iterator _ _ => ⟨rfl, Iff.rfl⟩
  | .element _ target _ => ⟨hf target, Iff.rfl⟩
  | .input _ i _ => by
    simp only [Expr.renumbered, typeOf, hinputs]
    exact ⟨trivial, trivial⟩
  | .apply origin op operands => by
    obtain ⟨htypes, herrors⟩ := typesOf_renumbered hinputs hf operands
    obtain ⟨htype, hmore⟩ := applied_origin none origin op (typesOf c operands).1
    simp only [Expr.renumbered, typeOf, List.append_eq_nil_iff, htypes, herrors]
    exact ⟨htype, and_congr_right fun _ => hmore⟩
  | .reduce origin op dim lower upper body => by
    obtain ⟨hbody, herrors⟩ := typeOf_renumbered hinputs hf body
    obtain ⟨htype, hmore⟩ := applied_origin none origin op [(typeOf c body).1, (typeOf c body).1]
    simp only [Expr.renumbered, typeOf, List.append_eq_nil_iff, hbody, herrors]
    exact ⟨htype, and_congr_right fun _ => hmore⟩

theorem typesOf_renumbered {f : Nat → Nat} (hinputs : c'.inputs = c.inputs)
    (hf : ∀ j, c'.typeAt (f j) = c.typeAt j) : (es : List Expr) →
    (typesOf c' (Expr.renumberedAll f es)).1 = (typesOf c es).1 ∧
      ((typesOf c' (Expr.renumberedAll f es)).2 = [] ↔ (typesOf c es).2 = [])
  | [] => ⟨rfl, Iff.rfl⟩
  | e :: rest => by
    obtain ⟨hfirst, herrors⟩ := typeOf_renumbered hinputs hf e
    obtain ⟨hrest, hmore⟩ := typesOf_renumbered hinputs hf rest
    simp only [Expr.renumberedAll, typesOf, List.append_eq_nil_iff, hfirst, hrest, herrors, hmore]
    exact ⟨trivial, trivial⟩

end

end Typing

end StreamLoom
