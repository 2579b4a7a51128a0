import StreamLoom.Proofs.Program.Names
import StreamLoom.Proofs.Program.Occurrences

/-!
# References to declarations

A declared name refers to its declaration wherever it occurs in an expression and is not bound there, with two
exceptions: a symbol that can also be read as a constant is one, and a list that starts with `reduce` is a
reduction. Neither is kept from being declared, although the name of an operation is.
-/

namespace StreamLoom

/-- A word that is read as a constant, even if it is declared. -/
def Numeral.Literal (word : String) : Prop :=
  word = "true" ∨ word = "false" ∨ (integer? word).isSome ∨ (real? word).isSome

def Pattern.expressions (pattern : Pattern) : List Expr := pattern.guard.toList ++ [pattern.body]

def Identifier.expressions (id : Identifier) : List Expr := id.patterns.flatMap (·.expressions)

/-- The term `v` is the body or the guard of a pattern, where a scope holds the variables of its indices. -/
inductive Term.PatternWrites (file : SourceFile) : Term → Scope → Term → Prop where
  | body {span indexSpan : Span} {head v : Term} {indexTerms rest : List Term} {indices : List PatternIndex}
      {scope : Scope} (hindices : Program.patternIndices file {} 0 indexTerms = .ok (indices, scope))
      (hv : rest.getLast? = some v) :
      PatternWrites file (.group span .round (head :: .group indexSpan .square indexTerms :: rest)) scope v
  | guard {span indexSpan whenSpan wordSpan : Span} {head v body : Term} {indexTerms : List Term}
      {indices : List PatternIndex} {scope : Scope}
      (hindices : Program.patternIndices file {} 0 indexTerms = .ok (indices, scope)) :
      PatternWrites file (.group span .round [head, .group indexSpan .square indexTerms,
        .group whenSpan .round [.symbol wordSpan "when", v], body]) scope v

/-- The term `t` is an expression in a definition, where a scope holds the variables of its pattern. -/
inductive Definition.Writes (d : Definition) : Scope → Term → Prop where
  | scalar {t : Term} (hscalar : d.isScalar = true) (ht : t ∈ d.bodies) : d.Writes {} t
  | pattern {t v : Term} {scope : Scope} (hscalar : d.isScalar = false) (ht : t ∈ d.bodies)
      (hv : Term.PatternWrites d.file t scope v) : d.Writes scope v

namespace Program

/-- The expression is an element of a declaration with the given name. -/
inductive Refers (p : Program) (origin : Origin) (name : String) (operands : List Expr) : Expr → Prop where
  | element {target : Nat} (h : (p.identifiers.map (·.name))[target]? = some name) :
      Refers p origin name operands (.element origin target operands)
  | input {i : Nat} (h : (p.inputs.map (·.name))[i]? = some name) :
      Refers p origin name operands (.input origin i operands)

section

variable {p : Program} {origin : Origin} {name : String} {operands : List Expr}

theorem Refers.not_foldable {e : Expr} (h : p.Refers origin name operands e) : ¬ e.Foldable := by
  cases h <;> exact id

theorem identifier?_eq (p : Program) (name : String) :
    p.identifier? name = (p.identifiers.map (·.name)).findIdx? (· == name) := by
  rw [identifier?, List.findIdx?_map]
  rfl

theorem input?_eq (p : Program) (name : String) :
    p.input? name = (p.inputs.map (·.name)).findIdx? (· == name) := by
  rw [input?, List.findIdx?_map]
  rfl

private theorem getElem?_of_findIdx? {names : List String} {i : Nat}
    (h : names.findIdx? (· == name) = some i) : names[i]? = some name := by
  obtain ⟨hi, hname, -⟩ := List.findIdx?_eq_some_iff_getElem.mp h
  rw [List.getElem?_eq_getElem hi, eq_of_beq hname]

theorem exists_reference? (h : p.Knows name) (origin : Origin) (operands : List Expr) :
    ∃ e, p.reference? origin name operands = some e ∧ p.Refers origin name operands e := by
  unfold reference?
  cases hid : p.identifier? name with
  | some target =>
    rw [identifier?_eq] at hid
    exact ⟨_, rfl, .element (getElem?_of_findIdx? hid)⟩
  | none =>
    obtain ⟨i, hi⟩ := Option.isSome_iff_exists.mp (h.resolve_left (by simp [hid]))
    rw [hi]
    rw [input?_eq] at hi
    exact ⟨_, rfl, .input (getElem?_of_findIdx? hi)⟩

theorem Named.refers_unique (hp : p.Named) {e e' : Expr} (h : p.Refers origin name operands e)
    (h' : p.Refers origin name operands e') : e = e' := by
  obtain ⟨hinputs, hids, hdisjoint⟩ := List.nodup_append.mp hp.nodup
  cases h with
  | element h =>
    cases h' with
    | element h' => rw [(List.getElem?_inj (List.getElem?_eq_some_iff.mp h).1 hids).mp (h.trans h'.symm)]
    | input h' => exact absurd rfl (hdisjoint _ (List.mem_of_getElem? h') _ (List.mem_of_getElem? h))
  | input h =>
    cases h' with
    | element h' => exact absurd rfl (hdisjoint _ (List.mem_of_getElem? h) _ (List.mem_of_getElem? h'))
    | input h' => rw [(List.getElem?_inj (List.getElem?_eq_some_iff.mp h).1 hinputs).mp (h.trans h'.symm)]

end

section

variable [Arithmetic] {p q : Program} {file : SourceFile}

/-! ### Single occurrences -/

/-- What an occurrence of a declared name is resolved as, where `v` is the symbol, or the list that starts
with it: a reference to the declaration that ends up in an expression, or else what takes its place. -/
structure Translates (p : Program) (file : SourceFile) (scope : Scope) (v : Term) (whole : Expr) : Prop where
  symbol : ∀ span name, v = .symbol span name → p.Knows name → scope.find? name = none →
    ∃ e, p.resolve file scope v = .ok e ∧
      (p.Refers ⟨file, span⟩ name [] e ∧ e.Part whole ↔ ¬ Numeral.Literal name)
  head : ∀ span headSpan name args, v = .group span .round (.symbol headSpan name :: args) → p.Knows name →
    ∃ e, p.resolve file scope v = .ok e ∧
      ((∃ operands, p.resolveAll file scope args = .ok operands ∧
        p.Refers ⟨file, span⟩ name operands e ∧ e.Part whole) ↔ name ≠ "reduce")

omit [Arithmetic] in
/-- A declared name that is not bound is the declaration, or a constant. -/
theorem symbolExpr_of_knows {scope : Scope} {origin : Origin} {name : String} {e : Expr}
    (hknows : p.Knows name) (hfree : scope.find? name = none) (h : p.symbolExpr scope origin name = .ok e) :
    p.Refers origin name [] e ∧ ¬ Numeral.Literal name ∨
      (∃ c, e = .constant origin c) ∧ Numeral.Literal name := by
  obtain ⟨found, hfound, hrefers⟩ := exists_reference? hknows origin []
  unfold symbolExpr at h
  rw [hfree, hfound] at h
  dsimp only at h
  split at h
  · rename_i htruth
    cases h
    exact .inr ⟨⟨_, rfl⟩, htruth.elim .inl fun h => .inr (.inl h)⟩
  · rename_i htruth
    split at h
    · rename_i n hn
      cases h
      exact .inr ⟨⟨_, rfl⟩, .inr (.inr (.inl (by simp [hn])))⟩
    · rename_i x hn hx
      cases h
      exact .inr ⟨⟨_, rfl⟩, .inr (.inr (.inr (by simp [hx])))⟩
    · rename_i found' hn hx heq
      cases heq
      cases h
      refine .inl ⟨hrefers, ?_⟩
      rintro (htrue | hfalse | hint | hreal)
      · exact htruth (.inl htrue)
      · exact htruth (.inr hfalse)
      · simp [hn] at hint
      · simp [hx] at hreal
    · cases h

/-- Within a term that is resolved, all occurrences of declared names are. -/
theorem translates_of_resolve {inner outer : Scope} {v t : Term} (hv : v.Within inner outer t) {whole : Expr}
    (ht : p.resolve file outer t = .ok whole) : p.Translates file inner v whole := by
  obtain ⟨e, he, hpart⟩ := exists_resolved hv ht
  constructor
  · rintro span name rfl hknows hfree
    refine ⟨e, he, ?_⟩
    rw [resolve] at he
    rcases symbolExpr_of_knows hknows hfree he with ⟨hrefers, hname⟩ | ⟨⟨c, rfl⟩, hname⟩
    · exact ⟨fun _ => hname, fun _ => ⟨hrefers, hpart hrefers.not_foldable⟩⟩
    · refine ⟨fun h => ?_, fun h => absurd hname h⟩
      cases h.1
  · rintro span headSpan name args rfl hknows
    refine ⟨e, he, ?_⟩
    by_cases hreduce : name = "reduce"
    · subst hreduce
      obtain ⟨_, _, _, r, e', _, _, _, rfl⟩ := resolve_reduction he
      refine ⟨?_, fun h => absurd rfl h⟩
      rintro ⟨_, _, hrefers, _⟩
      cases hrefers
    · obtain ⟨operands, hoperands, happlication⟩ := resolve_application hreduce he
      obtain ⟨found, hfound, hrefers⟩ := exists_reference? hknows ⟨file, span⟩ operands
      unfold applicationExpr at happlication
      rw [hfound] at happlication
      cases happlication
      exact ⟨fun _ => hreduce, fun _ => ⟨operands, hoperands, hrefers, hpart hrefers.not_foldable⟩⟩

/-! ### Definitions -/

/-- How terms are resolved depends on the program through the numbers of its names only. -/
theorem resolve_congr (hids : ∀ name, p.identifier? name = q.identifier? name)
    (hinputs : ∀ name, p.input? name = q.input? name) :
    (∀ scope t, p.resolve file scope t = q.resolve file scope t) ∧
      ∀ scope ts, p.resolveAll file scope ts = q.resolveAll file scope ts := by
  have hreference (origin : Origin) (name : String) (operands : List Expr) :
      p.reference? origin name operands = q.reference? origin name operands := by
    unfold reference?
    rw [hids, hinputs]
  refine resolve.mutual_induct file _ _ ?symbol ?array ?reduce ?shape ?application ?other ?nil ?cons
  case symbol =>
    intro scope span word
    rw [resolve, resolve, symbolExpr, symbolExpr, hreference]
  case array =>
    intro scope span elements
    rw [resolve, resolve]
  case reduce =>
    intro scope span headSpan opTerm rangeTerm body ih
    rw [resolve, resolve, if_pos rfl, if_pos rfl]
    exact bind_congr fun r => by rw [ih r]
  case shape =>
    intro scope span headSpan args hargs
    rw [resolve, resolve, if_pos rfl, if_pos rfl]
    · exact hargs
    · exact hargs
  case application =>
    intro scope span headSpan head args hhead ih
    unfold resolve
    dsimp only
    rw [if_neg hhead, if_neg hhead, ih]
    refine bind_congr fun operands => ?_
    unfold applicationExpr
    rw [hreference]
  case other =>
    intro scope span elements helements
    rw [resolve, resolve]
    · exact helements
    · exact helements
  case nil =>
    intro scope
    rw [resolveAll, resolveAll]
  case cons =>
    intro scope t rest iht ihrest
    rw [resolveAll, resolveAll, iht, ihrest]

private theorem forall₂_patternsOf {ts : List Term} {patterns : List Pattern}
    (h : p.patternsOf file ts = (patterns, [])) :
    List.Forall₂ (fun t pattern => p.patternOf file t = .ok pattern) ts patterns := by
  induction ts generalizing patterns with
  | nil =>
    cases h
    exact .nil
  | cons u rest ih =>
    rw [patternsOf] at h
    cases hu : p.patternOf file u with
    | error e => simp [hu] at h
    | ok pattern =>
      obtain ⟨rfl, hrest⟩ : pattern :: (p.patternsOf file rest).1 = patterns ∧
          (p.patternsOf file rest).2 = [] := by simpa [hu] using h
      exact .cons hu (ih (Prod.ext rfl hrest))

omit [Arithmetic] in
private theorem eq_of_guardTerm {t condition : Term} (h : guardTerm file t = .ok condition) :
    ∃ span wordSpan, t = .group span .round [.symbol wordSpan "when", condition] := by
  unfold guardTerm at h
  split at h
  · rename_i head _ hlist
    obtain ⟨span, rfl⟩ := Term.eq_of_list? hlist
    split at h
    · rename_i hhead
      obtain ⟨wordSpan, rfl⟩ := Term.eq_of_symbol? hhead
      cases h
      exact ⟨span, wordSpan, rfl⟩
    · cases h
  · cases h

/-- What a pattern is read from: its indices, and then a body, or a guard and a body. -/
private theorem patternOf_cases {t : Term} {pattern : Pattern} (h : p.patternOf file t = .ok pattern) :
    ∃ span head indexSpan indexTerms rest indices scope,
      t = .group span .round (head :: .group indexSpan .square indexTerms :: rest) ∧
      patternIndices file {} 0 indexTerms = .ok (indices, scope) ∧
      ((∃ v, rest = [v] ∧ pattern.guard = none ∧ p.resolve file scope v = .ok pattern.body) ∨
        ∃ whenSpan wordSpan condition v guard,
          rest = [.group whenSpan .round [.symbol wordSpan "when", condition], v] ∧
          p.resolve file scope condition = .ok guard ∧ pattern.guard = some guard ∧
            p.resolve file scope v = .ok pattern.body) := by
  unfold patternOf at h
  dsimp only at h
  split at h
  · rename_i head indexTerm rest hlist
    obtain ⟨span, rfl⟩ := Term.eq_of_list? hlist
    split at h
    · rename_i indexTerms v harray
      obtain ⟨indexSpan, rfl⟩ := Term.eq_of_array? harray
      split at h
      · cases h
      obtain ⟨⟨indices, scope⟩, hindices, h⟩ := Outcome.bind_eq_ok h
      obtain ⟨e, he, h⟩ := Outcome.bind_eq_ok h
      cases h
      exact ⟨span, head, indexSpan, indexTerms, [v], indices, scope, rfl, hindices, .inl ⟨v, rfl, rfl, he⟩⟩
    · rename_i indexTerms whenTerm v harray
      obtain ⟨indexSpan, rfl⟩ := Term.eq_of_array? harray
      split at h
      · cases h
      obtain ⟨⟨indices, scope⟩, hindices, h⟩ := Outcome.bind_eq_ok h
      obtain ⟨condition, hcondition, h⟩ := Outcome.bind_eq_ok h
      obtain ⟨guard, hguard, h⟩ := Outcome.bind_eq_ok h
      obtain ⟨e, he, h⟩ := Outcome.bind_eq_ok h
      cases h
      obtain ⟨whenSpan, wordSpan, rfl⟩ := eq_of_guardTerm hcondition
      exact ⟨span, head, indexSpan, indexTerms, _, indices, scope, rfl, hindices,
        .inr ⟨whenSpan, wordSpan, condition, v, guard, rfl, hguard, rfl, he⟩⟩
    · cases h
  · cases h

/-- A list of expressions is what some terms are resolved as, each in its scope. -/
def Renders (p : Program) (file : SourceFile) (written : Scope → Term → Prop) (es : List Expr) : Prop :=
  (∀ scope t, written scope t → ∃ e ∈ es, p.resolve file scope t = .ok e) ∧
    ∀ e ∈ es, ∃ scope t, written scope t ∧ p.resolve file scope t = .ok e

private theorem renders_patternOf {t : Term} {pattern : Pattern} (h : p.patternOf file t = .ok pattern) :
    p.Renders file (Term.PatternWrites file t) pattern.expressions := by
  obtain ⟨span, head, indexSpan, indexTerms, rest, indices, scope, rfl, hindices, hrest⟩ := patternOf_cases h
  rcases hrest with ⟨v, rfl, hguard, hv⟩ | ⟨whenSpan, wordSpan, condition, v, guard, rfl, hresolved, hguard, hv⟩
  · refine ⟨fun scope' u hu => ?_, fun e he => ?_⟩
    · cases hu with
      | body hindices' hu =>
        cases hindices.symm.trans hindices'
        obtain rfl : v = u := by simpa using hu
        exact ⟨pattern.body, by simp [Pattern.expressions], hv⟩
    · obtain rfl : e = pattern.body := by simpa [Pattern.expressions, hguard] using he
      exact ⟨scope, v, .body hindices rfl, hv⟩
  · refine ⟨fun scope' u hu => ?_, fun e he => ?_⟩
    · cases hu with
      | body hindices' hu =>
        cases hindices.symm.trans hindices'
        obtain rfl : v = u := by simpa using hu
        exact ⟨pattern.body, by simp [Pattern.expressions], hv⟩
      | guard hindices' =>
        cases hindices.symm.trans hindices'
        exact ⟨guard, by simp [Pattern.expressions, hguard], hresolved⟩
    · rcases (by simpa [Pattern.expressions, hguard] using he : e = guard ∨ e = pattern.body) with rfl | rfl
      · exact ⟨scope, condition, .guard hindices, hresolved⟩
      · exact ⟨scope, v, .body hindices rfl, hv⟩

/-- An identifier has the expressions that its definition is written with. -/
theorem renders_bodiesOf {id : Identifier} {definition : Definition} {patterns : List Pattern}
    (h : p.bodiesOf id definition = (patterns, []))
    (hscalar : definition.isScalar = true → ∃ body, definition.bodies = [body]) :
    p.Renders definition.file definition.Writes (patterns.flatMap (·.expressions)) := by
  unfold bodiesOf at h
  by_cases hdefine : definition.isScalar = true
  · obtain ⟨body, hbody⟩ := hscalar hdefine
    rw [hdefine, hbody] at h
    cases hresolved : p.resolve definition.file {} body with
    | error e => simp [hresolved] at h
    | ok whole =>
      simp only [List.map_cons, List.map_nil, hresolved, if_true, Prod.mk.injEq, and_true] at h
      subst h
      refine ⟨fun scope t ht => ?_, fun e he => ?_⟩
      · cases ht with
        | scalar _ ht =>
          obtain rfl : t = body := by simpa [hbody] using ht
          exact ⟨whole, by simp [Pattern.expressions], hresolved⟩
        | pattern harray => simp [hdefine] at harray
      · obtain rfl : e = whole := by simpa [Pattern.expressions] using he
        exact ⟨{}, body, .scalar hdefine (by simp [hbody]), hresolved⟩
  · have harray : definition.isScalar = false := by simpa using hdefine
    rw [harray] at h
    obtain ⟨rfl, herrors⟩ := Prod.mk.inj h
    have hpatterns := forall₂_patternsOf (p := p) (Prod.ext rfl (List.append_eq_nil_iff.mp herrors).1)
    refine ⟨fun scope v hv => ?_, fun e he => ?_⟩
    · cases hv with
      | scalar hdefine => simp [harray] at hdefine
      | pattern _ ht hv =>
        obtain ⟨pattern, hmem, hpattern⟩ := Outcome.exists_of_forall₂ hpatterns.flip ht
        obtain ⟨e, he, hresolved⟩ := (renders_patternOf hpattern).1 scope v hv
        exact ⟨e, List.mem_flatMap.mpr ⟨pattern, hmem, he⟩, hresolved⟩
    · obtain ⟨pattern, hmem, he⟩ := List.mem_flatMap.mp he
      obtain ⟨t, ht, hpattern⟩ := Outcome.exists_of_forall₂ hpatterns hmem
      obtain ⟨scope, v, hv, hresolved⟩ := (renders_patternOf hpattern).2 e he
      exact ⟨scope, v, .pattern harray ht hv, hresolved⟩

/-! ### Whole programs -/

/-- An identifier and its definition, which names it and has one body if it is a scalar. -/
structure Defined (id : Identifier) (definition : Definition) : Prop where
  names : ∃ elements, definition.term.list? = some elements ∧ Draft.Names elements id.name
  scalar : definition.isScalar = true → ∃ body, definition.bodies = [body]

omit [Arithmetic] in
/-- Identifiers and definitions are declared together. -/
theorem lasting_defined :
    Draft.Lasting fun d => List.Forall₂ Defined d.program.identifiers d.definitions where
  beside hd hprogram hdefinitions := by rwa [hprogram, hdefinitions]
  version _ hd := hd
  input hd _ _ := hd
  identifier hd hterm h hscalar :=
    List.rel_append hd (.cons ⟨⟨_, hterm, h.names⟩, hscalar⟩ .nil)

/-- The patterns of an identifier are those of its definition, in which there are no errors. -/
private def Filled (p : Program) (id : Identifier) (definition : Definition) : Prop :=
  Defined id definition ∧ ∃ id', p.bodiesOf id' definition = (id.patterns, [])

private theorem filled_zipWith {ids : List Identifier} {definitions : List Definition}
    (h : List.Forall₂ Defined ids definitions)
    (herrors : (List.zipWith (p.bodiesOf · ·) ids definitions).flatMap (·.2) = []) :
    (List.zipWith (fun id (body : List Pattern × List SyntaxError) => { id with patterns := body.1 })
      ids (List.zipWith (p.bodiesOf · ·) ids definitions)).map (·.name) = ids.map (·.name) ∧
    List.Forall₂ p.Filled (List.zipWith (fun id (body : List Pattern × List SyntaxError) =>
      { id with patterns := body.1 }) ids (List.zipWith (p.bodiesOf · ·) ids definitions)) definitions := by
  induction h with
  | nil => exact ⟨rfl, .nil⟩
  | @cons id definition ids definitions hdefined _ ih =>
    rw [List.zipWith_cons_cons, List.flatMap_cons, List.append_eq_nil_iff] at herrors
    obtain ⟨hnames, hfilled⟩ := ih herrors.2
    refine ⟨congrArg (id.name :: ·) hnames, .cons ⟨⟨hdefined.names, hdefined.scalar⟩, id, ?_⟩ hfilled⟩
    exact Prod.ext rfl herrors.1

omit [Arithmetic] in
private theorem withOutput_keeps (p : Program) (output : Option (Origin × String)) :
    (p.withOutput output).1.identifiers = p.identifiers ∧ (p.withOutput output).1.inputs = p.inputs := by
  unfold withOutput
  split
  · exact ⟨rfl, rfl⟩
  · split <;> exact ⟨rfl, rfl⟩

private theorem filled_retyped {ids ids' : List Identifier}
    {definitions : List Definition}
    (hretyped : List.Forall₂ (fun id id' => id' = { id with type := id'.type } ∧ id'.type ≠ .unknown ∧
      (id.type ≠ .unknown → id'.type = id.type)) ids ids')
    (h : List.Forall₂ p.Filled ids definitions) :
    ids'.map (·.name) = ids.map (·.name) ∧ List.Forall₂ p.Filled ids' definitions := by
  induction hretyped generalizing definitions with
  | nil => exact ⟨rfl, h⟩
  | @cons id id' ids ids' hid _ ih =>
    cases h with
    | cons hfilled hrest =>
      obtain ⟨hnames, hrest⟩ := ih hrest
      obtain ⟨hdefined, id₀, hbodies⟩ := hfilled
      have hname : id'.name = id.name := by rw [hid.1]
      have hpatterns : id'.patterns = id.patterns := by rw [hid.1]
      refine ⟨by rw [List.map_cons, List.map_cons, hname, hnames], .cons ⟨?_, id₀, ?_⟩ hrest⟩
      · exact ⟨by rw [hname]; exact hdefined.names, hdefined.scalar⟩
      · rw [hpatterns, hbodies]

/-- The declarations of a program that was read have its names, and each identifier is filled in from its
definition. -/
private theorem filled_of_read {library : Library} {files : List SourceFile}
    (h : (read library files).result = .ok p) :
    p.identifiers.map (·.name) = (draftOf library files).program.identifiers.map (·.name) ∧
      p.inputs = (draftOf library files).program.inputs ∧
        List.Forall₂ (draftOf library files).program.Filled p.identifiers
          (draftOf library files).definitions := by
  have hinferred := Typing.inferred_of_infer (infer_of_read h)
  have hdefined : List.Forall₂ Defined (draftOf library files).program.identifiers
      (draftOf library files).definitions :=
    Draft.maintains_declareAll lasting_defined files {} .nil
  have herrors : ((draftOf library files).program.withBodies (draftOf library files).definitions).2 = [] := by
    change complete (draftOf library files) = .ok p at h
    unfold complete at h
    split at h
    · cases h
    · dsimp only at h
      split at h
      · rename_i hempty
        exact (List.append_eq_nil_iff.mp (List.isEmpty_iff.mp hempty)).1
      · cases h
  obtain ⟨hnames, hfilled⟩ := filled_zipWith hdefined herrors
  have hretyped := hinferred.retyped
  unfold untyped at hretyped
  rw [(withOutput_keeps _ _).1] at hretyped
  obtain ⟨hnames', hfilled'⟩ := filled_retyped hretyped hfilled
  refine ⟨hnames'.trans hnames, ?_, hfilled'⟩
  rw [hinferred.others]
  exact (withOutput_keeps _ _).2

/-- An identifier has the expressions that its definition writes, with everything in them translated. -/
structure Expresses (p : Program) (id : Identifier) (definition : Definition) : Prop where
  names : ∃ elements, definition.term.list? = some elements ∧ Draft.Names elements id.name
  renders : p.Renders definition.file definition.Writes id.expressions
  translates : ∀ outer t, definition.Writes outer t → ∀ whole, p.resolve definition.file outer t = .ok whole →
    ∀ inner v, v.Within inner outer t → p.Translates definition.file inner v whole

/-- In a program that was read, a declared name refers to its only declaration at every occurrence in an
expression where it is not bound, unless it is read as a constant, or as the start of a reduction. -/
theorem references_of_read {library : Library} {files : List SourceFile}
    (h : (read library files).result = .ok p) :
    (∀ origin name operands e e', p.Refers origin name operands e → p.Refers origin name operands e' →
      e = e') ∧
    List.Forall₂ p.Expresses p.identifiers (draftOf library files).definitions := by
  obtain ⟨hnames, hinputs, hfilled⟩ := filled_of_read h
  have hsame (file : SourceFile) (scope : Scope) (t : Term) :
      p.resolve file scope t = (draftOf library files).program.resolve file scope t := by
    refine (resolve_congr (fun name => ?_) fun name => ?_).1 scope t
    · rw [identifier?_eq, identifier?_eq, hnames]
    · rw [input?_eq, input?_eq, hinputs]
  refine ⟨fun _ _ _ _ _ => (named_of_read h).1.refers_unique, hfilled.imp fun id definition hid => ?_⟩
  obtain ⟨hdefined, id', hbodies⟩ := hid
  refine ⟨hdefined.names, ?_, fun outer t _ whole hresolved inner v hv => translates_of_resolve hv hresolved⟩
  simpa only [Renders, hsame, Identifier.expressions] using renders_bodiesOf hbodies hdefined.scalar

end

private def limits : SourceFile :=
  ⟨"", "(define infinity 3) (define b (+ infinity 1)) (define c (+ b 1))".toList⟩

/-- Whether the second body adds to a constant, and the third one to the second identifier. -/
private def addsToConstant : List Identifier → Bool
  | [_, ⟨_, _, _, _, _, [⟨_, _, _, .apply _ .add [.constant _ (.real _), _]⟩]⟩,
      ⟨_, _, _, _, _, [⟨_, _, _, .apply _ .add [.element _ 1 [], _]⟩]⟩] => true
  | _ => false

attribute [local instance] Arithmetic.word64

/-- The first name is also that of a number, and the second one is not. -/
theorem references_of_read_limits : ∃ p, (read ⟨⟨"", []⟩, []⟩ [limits]).result = .ok p ∧
    p.names = ["infinity", "b", "c"] ∧ Numeral.Literal "infinity" ∧ ¬ Numeral.Literal "b" ∧
      addsToConstant p.identifiers = true ∧
        List.Forall₂ p.Expresses p.identifiers (draftOf ⟨⟨"", []⟩, []⟩ [limits]).definitions := by
  have hrun : (Outcome.passes (read ⟨⟨"", []⟩, []⟩ [limits]).result fun p =>
      decide (p.names = ["infinity", "b", "c"]) && addsToConstant p.identifiers) = true := by
    decide +kernel
  obtain ⟨p, hp, hrun⟩ := Outcome.exists_of_passes hrun
  obtain ⟨hnames, hbodies⟩ := Bool.and_eq_true_iff.mp hrun
  refine ⟨p, hp, of_decide_eq_true hnames, ?_, ?_, hbodies, (references_of_read hp).2⟩
  · unfold Numeral.Literal
    decide +kernel
  · unfold Numeral.Literal
    decide +kernel

end Program

end StreamLoom
