import StreamLoom.Program.Resolution
import StreamLoom.Proofs.Outcome

/-!
# Occurrences in terms

A term that is resolved is made of further terms, each of which is resolved on its own, in a scope that
depends on the reductions around it. What they denote ends up as parts of the expression. Only an index
variable or an integer may disappear from it, when affine arithmetic is folded, so that nothing which refers
to a declaration ever does.
-/

namespace StreamLoom

namespace Expr

def children : Expr → List Expr
  | constant .. | iterator .. => []
  | element _ _ operands | input _ _ operands | apply _ _ operands => operands
  | reduce _ _ _ _ _ body => [body]

@[simp] theorem children_located (origin : Origin) (e : Expr) : (e.located origin).children = e.children := by
  cases e <;> rfl

inductive Part (x : Expr) : Expr → Prop where
  | self : Part x x
  | child {e c : Expr} (hc : c ∈ e.children) (h : Part x c) : Part x e

theorem Part.trans {x y e : Expr} (h : Part x y) (h' : Part y e) : Part x e := by
  induction h' with
  | self => exact h
  | child hc _ ih => exact .child hc ih

/-- What can be folded: an index variable or an integer. -/
def Foldable : Expr → Prop
  | iterator .. => True
  | constant _ (.int _) => True
  | _ => False

theorem Foldable.eq_of_part {x e : Expr} (he : e.Foldable) (h : Part x e) : x = e := by
  cases h with
  | self => rfl
  | child hc h =>
    cases e with
    | constant => cases hc
    | iterator => cases hc
    | _ => exact absurd he id

private theorem foldable_of_iteratorAndInt {a b : Expr} {found : IteratorValue × Int}
    (h : iteratorAndInt a b = some found) : a.Foldable ∧ b.Foldable := by
  unfold iteratorAndInt at h
  split at h
  · exact ⟨trivial, trivial⟩
  · cases h

variable [Arithmetic]

theorem foldable_of_folded {op : Op} {operands : List Expr} {v : IteratorValue}
    (h : folded op operands = some v) : ∀ e ∈ operands, e.Foldable := by
  have hpair {a b : Expr} {found : IteratorValue × Int}
      (hfound : (iteratorAndInt a b).or (iteratorAndInt b a) = some found) : a.Foldable ∧ b.Foldable := by
    rcases Option.or_eq_some_iff.mp hfound with hab | ⟨-, hba⟩
    · exact foldable_of_iteratorAndInt hab
    · exact (foldable_of_iteratorAndInt hba).symm
  unfold folded at h
  split at h
  · simp [Foldable]
  · obtain ⟨found, hfound, -⟩ := Option.bind_eq_some_iff.mp h
    simpa using hpair hfound
  · obtain ⟨found, hfound, -⟩ := Option.bind_eq_some_iff.mp h
    simpa using foldable_of_iteratorAndInt hfound
  · obtain ⟨found, hfound, -⟩ := Option.bind_eq_some_iff.mp h
    simpa using hpair hfound
  · cases h

/-! ### Operands -/

theorem part_applied {e : Expr} {operands : List Expr} (he : e ∈ operands) (hkept : ¬ e.Foldable)
    (origin : Origin) (op : Op) : Part e (applied origin op operands) := by
  unfold applied
  split
  · rename_i v hfolded
    exact absurd (foldable_of_folded hfolded e he) hkept
  · exact .child he .self

omit [Arithmetic] in
private theorem part_chain {e : Expr} (op : Op) {rest : List Expr} {acc : Expr}
    (he : (∃ c ∈ acc.children, Part e c) ∨ e ∈ rest) :
    ∃ c ∈ (rest.foldl (fun e arg => apply none op [e, arg]) acc).children, Part e c := by
  induction rest generalizing acc with
  | nil => exact he.resolve_right (by simp)
  | cons arg rest ih =>
    refine ih ?_
    rcases he with ⟨c, hc, hpart⟩ | he
    · exact .inl ⟨acc, by simp [children], .child hc hpart⟩
    · rcases List.mem_cons.mp he with rfl | he
      · exact .inl ⟨e, by simp [children], .self⟩
      · exact .inr he

omit [Arithmetic] in
theorem part_chained {e a b : Expr} {rest : List Expr} (he : e ∈ a :: b :: rest) (origin : Origin) (op : Op) :
    Part e (chained origin op a b rest) := by
  have hchain : ∃ c ∈ (chained origin op a b rest).children, Part e c := by
    rw [chained, children_located]
    refine part_chain op ?_
    rcases List.mem_cons.mp he with rfl | he
    · exact .inl ⟨e, by simp [children], .self⟩
    · rcases List.mem_cons.mp he with rfl | he
      · exact .inl ⟨e, by simp [children], .self⟩
      · exact .inr he
  obtain ⟨c, hc, hpart⟩ := hchain
  exact .child hc hpart

end Expr

namespace Term

theorem eq_of_symbol? {t : Term} {value : String} (h : t.symbol? = some value) :
    ∃ span, t = .symbol span value := by
  cases t with
  | symbol span word =>
    cases h
    exact ⟨span, rfl⟩
  | group => cases h

theorem eq_of_list? {t : Term} {elements : List Term} (h : t.list? = some elements) :
    ∃ span, t = .group span .round elements := by
  cases t with
  | symbol => cases h
  | group span bracket found =>
    cases bracket with
    | round =>
      cases h
      exact ⟨span, rfl⟩
    | square => cases h

theorem eq_of_array? {t : Term} {elements : List Term} (h : t.array? = some elements) :
    ∃ span, t = .group span .square elements := by
  cases t with
  | symbol => cases h
  | group span bracket found =>
    cases bracket with
    | round => cases h
    | square =>
      cases h
      exact ⟨span, rfl⟩

end Term

/-- The term `v` is one that has to be resolved in the scope `inner` when a term is resolved in a scope: it is
the term itself, or in one of its operands, or in the body of a reduction, which binds a variable. -/
inductive Term.Within (inner : Scope) (v : Term) : Scope → Term → Prop where
  | self : Within inner v inner v
  | operand {scope : Scope} {span headSpan : Span} {head : String} {args : List Term} {t : Term}
      (hhead : head ≠ "reduce") (ht : t ∈ args) (h : Within inner v scope t) :
      Within inner v scope (.group span .round (.symbol headSpan head :: args))
  | body {scope : Scope} {span headSpan rangeSpan varSpan : Span} {var : String}
      {opTerm lower upper body : Term} (h : Within inner v (scope.bind var) body) :
      Within inner v scope (.group span .round [.symbol headSpan "reduce", opTerm,
        .group rangeSpan .square [.symbol varSpan var, lower, upper], body])

namespace Program

variable [Arithmetic] {p : Program} {file : SourceFile}

omit [Arithmetic] in
theorem part_reference? {origin : Origin} {name : String} {operands : List Expr} {e whole : Expr}
    (h : p.reference? origin name operands = some whole) (he : e ∈ operands) : e.Part whole := by
  unfold reference? at h
  split at h <;> cases h
  all_goals exact .child he .self

theorem part_applicationExpr {origin headOrigin : Origin} {head : String} {operands : List Expr}
    {e whole : Expr} (h : p.applicationExpr origin headOrigin head operands = .ok whole)
    (he : e ∈ operands) (hkept : ¬ e.Foldable) : e.Part whole := by
  unfold applicationExpr at h
  split at h
  · rename_i found hreference
    cases h
    exact part_reference? hreference he
  split at h
  · cases h
    exact Expr.part_applied he hkept origin .negate
  split at h
  · cases h
  · split at h
    · cases h
      exact Expr.part_chained he origin _
    split at h
    · cases h
    · cases h
      exact Expr.part_applied he hkept origin _
  · split at h
    · cases h
    · cases h
      exact Expr.part_applied he hkept origin _

theorem exists_of_mem_resolveAll {scope : Scope} {ts : List Term} {operands : List Expr}
    (h : p.resolveAll file scope ts = .ok operands) {t : Term} (ht : t ∈ ts) :
    ∃ e ∈ operands, p.resolve file scope t = .ok e := by
  induction ts generalizing operands with
  | nil => simp at ht
  | cons u rest ih =>
    rw [resolveAll] at h
    obtain ⟨e, he, h⟩ := Outcome.bind_eq_ok h
    obtain ⟨es, hes, h⟩ := Outcome.bind_eq_ok h
    cases h
    rcases List.mem_cons.mp ht with rfl | ht
    · exact ⟨e, by simp, he⟩
    · obtain ⟨e', he', hresolved⟩ := ih hes ht
      exact ⟨e', by simp [he'], hresolved⟩

theorem resolve_application {scope : Scope} {span headSpan : Span} {head : String} {args : List Term}
    (hhead : head ≠ "reduce") {e : Expr}
    (h : p.resolve file scope (.group span .round (.symbol headSpan head :: args)) = .ok e) :
    ∃ operands, p.resolveAll file scope args = .ok operands ∧
      p.applicationExpr ⟨file, span⟩ ⟨file, headSpan⟩ head operands = .ok e := by
  unfold resolve at h
  dsimp only at h
  rw [if_neg hhead] at h
  exact Outcome.bind_eq_ok h

theorem resolve_reduction {scope : Scope} {span headSpan : Span} {args : List Term} {e : Expr}
    (h : p.resolve file scope (.group span .round (.symbol headSpan "reduce" :: args)) = .ok e) :
    ∃ opTerm rangeTerm body r e', args = [opTerm, rangeTerm, body] ∧
      reductionHead file ⟨file, span⟩ opTerm rangeTerm = .ok r ∧
      p.resolve file (scope.bind r.var) body = .ok e' ∧
      e = .reduce (some ⟨file, span⟩) r.op scope.dims r.lower r.upper e' := by
  unfold resolve at h
  dsimp only at h
  rw [if_pos rfl] at h
  split at h
  · obtain ⟨r, hr, h⟩ := Outcome.bind_eq_ok h
    obtain ⟨e', he', h⟩ := Outcome.bind_eq_ok h
    cases h
    exact ⟨_, _, _, r, e', rfl, hr, he', rfl⟩
  · cases h

omit [Arithmetic] in
private theorem var_of_reductionHead {origin : Origin} {opTerm lower upper : Term} {rangeSpan varSpan : Span}
    {var : String} {r : Reduction} (h : reductionHead file origin opTerm
      (.group rangeSpan .square [.symbol varSpan var, lower, upper]) = .ok r) : r.var = var := by
  unfold reductionHead at h
  dsimp only at h
  split at h
  · rename_i hrange
    cases hrange
    split at h
    · cases h
    · rename_i hvar
      cases hvar
      split at h
      · cases h
      split at h
      · split at h
        · cases h
          rfl
        · cases h
      · cases h
  · cases h

/-- Every term within a term that is resolved is resolved itself, and what it denotes is part of the whole
unless it was folded. -/
theorem exists_resolved {inner outer : Scope} {v t : Term} (h : v.Within inner outer t) {whole : Expr}
    (ht : p.resolve file outer t = .ok whole) :
    ∃ e, p.resolve file inner v = .ok e ∧ (¬ e.Foldable → e.Part whole) := by
  induction h generalizing whole with
  | self => exact ⟨whole, ht, fun _ => .self⟩
  | @operand scope span headSpan head args u hhead hu _ ih =>
    obtain ⟨operands, hoperands, happlication⟩ := resolve_application hhead ht
    obtain ⟨operand, hmem, hoperand⟩ := exists_of_mem_resolveAll hoperands hu
    obtain ⟨e, he, hpart⟩ := ih hoperand
    refine ⟨e, he, fun hkept => ?_⟩
    -- an operand with a part that is kept is kept itself
    have hoperandKept : ¬ operand.Foldable := fun hfoldable => by
      rw [hfoldable.eq_of_part (hpart hkept)] at hkept
      exact hkept hfoldable
    exact (hpart hkept).trans (part_applicationExpr happlication hmem hoperandKept)
  | body _ ih =>
    obtain ⟨opTerm, rangeTerm, body, r, e', hargs, hr, hbody, rfl⟩ := resolve_reduction ht
    cases hargs
    rw [var_of_reductionHead hr] at hbody
    obtain ⟨e, he, hpart⟩ := ih hbody
    exact ⟨e, he, fun hkept => .child (by simp [Expr.children]) (hpart hkept)⟩

end Program

end StreamLoom
