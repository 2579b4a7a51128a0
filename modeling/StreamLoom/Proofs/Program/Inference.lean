import Mathlib.Logic.Equiv.Defs
import StreamLoom.Program.Read
import StreamLoom.Proofs.Program.Typing

/-!
# Inferred types

A type that has been found is never looked at again. It is the join of the bodies as far as their types
were known at that time, and what becomes known later can only raise this join. There is one way in which
it is raised past the type that was found: an identifier was found to be an integer from some of its
bodies, and another one reads an identifier that turns out to be real. Everywhere else the type is the join
of the bodies under all types. If it is so everywhere, then the types are the least that hold the values of
all bodies, and being the least ones they do not depend on the order of the declarations.
-/

namespace StreamLoom

/-- The bodies that define the elements of an identifier. -/
def Identifier.bodies (id : Identifier) : List Expr := id.patterns.map (·.body)

/-- What types depend on of an identifier, with other numbers for the identifiers that it reads. -/
def Identifier.definition (f : Nat → Nat) (id : Identifier) : ValueType × List Expr :=
  (id.type, id.bodies.map (·.renumbered f))

namespace Typing

variable {inputs types types' : List ValueType} {ids : List Identifier}

/-! ### Joins of bodies -/

def typesIn (c : Context) (bodies : List Expr) : Set ValueType :=
  {t | ∃ e ∈ bodies, (typeOf c e).1 = t}

/-- A type is the join of the types of some bodies, in which there are no errors. -/
structure IsJoin (c : Context) (bodies : List Expr) (t : ValueType) : Prop where
  typed : ∀ e ∈ bodies, (typeOf c e).2 = []
  least : IsLUB (typesIn c bodies) t

variable {c c' : Context} {e : Expr} {bodies : List Expr} {t t' : ValueType}

theorem typesIn_cons : typesIn c (e :: bodies) = insert (typeOf c e).1 (typesIn c bodies) := by
  ext s
  simp [typesIn, eq_comm]

private theorem isLUB_insert_iff {a b d : ValueType} {s : Set ValueType} (h : IsLUB {a, b} d) :
    IsLUB (insert d s) t ↔ IsLUB (insert a (insert b s)) t := by
  have hbounds : upperBounds (insert d s) = upperBounds (insert a (insert b s)) := by
    have hpair := h.upperBounds_eq
    rw [upperBounds_insert, upperBounds_singleton] at hpair
    rw [upperBounds_insert, upperBounds_insert, upperBounds_insert, ← hpair, Set.inter_assoc]
  rw [IsLUB, IsLUB, hbounds]

/-- What the bodies of some patterns add to a type found before. -/
private theorem joinBodies_eq_iff {patterns : List Pattern} {r : ValueType} {errors : List SyntaxError} :
    joinBodies c r errors patterns = (t, []) ↔
      errors = [] ∧ (∀ e ∈ patterns.map (·.body), (typeOf c e).2 = []) ∧
        IsLUB (insert r (typesIn c (patterns.map (·.body)))) t := by
  induction patterns generalizing r errors with
  | nil =>
    have hempty : typesIn c [] = ∅ := by simp [typesIn]
    rw [joinBodies, List.map_nil, hempty, insert_empty_eq, Prod.mk.injEq]
    constructor
    · rintro ⟨rfl, rfl⟩
      exact ⟨rfl, by simp, isLUB_singleton⟩
    · rintro ⟨rfl, -, hlub⟩
      exact ⟨isLUB_singleton.unique hlub, rfl⟩
  | cons p rest ih =>
    rw [joinBodies, List.map_cons, typesIn_cons]
    dsimp only
    cases hjoin : r.join (typeOf c p.body).1 with
    | ok joined =>
      dsimp only
      rw [ih, isLUB_insert_iff (ValueType.isLUB_of_join hjoin), List.append_eq_nil_iff, List.forall_mem_cons]
      tauto
    | error e =>
      dsimp only
      constructor
      · intro h
        simp at h
      · rintro ⟨-, -, hlub⟩
        obtain ⟨d, hd⟩ := ValueType.exists_join (hlub.1 (Set.mem_insert r _))
          (hlub.1 (Set.mem_insert_of_mem _ (Set.mem_insert _ _)))
        rw [hd] at hjoin
        cases hjoin

theorem joinBodies_eq_iff_isJoin {id : Identifier} :
    joinBodies c .unknown [] id.patterns = (t, []) ↔ IsJoin c id.bodies t := by
  have hbounds : upperBounds (insert .unknown (typesIn c id.bodies)) = upperBounds (typesIn c id.bodies) := by
    rw [upperBounds_insert, Set.inter_eq_right]
    exact fun s _ => ValueType.unknown_le s
  rw [joinBodies_eq_iff, IsLUB]
  change _ ∧ _ ∧ IsLeast (upperBounds (insert .unknown (typesIn c id.bodies))) t ↔ _
  rw [hbounds]
  exact ⟨fun ⟨_, htyped, hleast⟩ => ⟨htyped, hleast⟩, fun h => ⟨rfl, h.typed, h.least⟩⟩

/-- With more knowledge of the identifiers, the join of bodies only goes up. -/
theorem IsJoin.mono (h : IsJoin c bodies t) (h' : IsJoin c' bodies t') (hinputs : c.inputs = c'.inputs)
    (hle : ∀ j, c.typeAt j ≤ c'.typeAt j) : t ≤ t' := by
  refine h.least.2 ?_
  rintro _ ⟨e, he, rfl⟩
  have hbody := (typeOf_coarser ValueType.coarser_le hinputs e (fun j _ => hle j) (h'.typed e he)).2
  exact hbody.trans (h'.least.1 ⟨e, he, rfl⟩)

/-! ### Rounds -/

/-- What holds of some types, and still holds when a type that was unknown is set to the join of the
bodies, holds of the types that a round finds. -/
private theorem round_induction {P : List ValueType → Prop} {i : Nat} {rest : List Identifier}
    (hset : ∀ k id types t, rest[k]? = some id → P types → types.getD (i + k) .unknown = .unknown →
      IsJoin ⟨inputs, types⟩ id.bodies t → P (types.set (i + k) t))
    (hP : P types) (h : round inputs i types rest = .ok types') : P types' := by
  induction rest generalizing i types with
  | nil =>
    cases h
    exact hP
  | cons id rest ih =>
    have hset' : ∀ k id types t, rest[k]? = some id → P types →
        types.getD (i + 1 + k) .unknown = .unknown → IsJoin ⟨inputs, types⟩ id.bodies t →
          P (types.set (i + 1 + k) t) := by
      intro k id types t hid
      rw [Nat.add_assoc, Nat.add_comm 1]
      exact hset (k + 1) id types t hid
    rw [round] at h
    dsimp only at h
    split at h
    · cases h
    · rename_i herrors
      rw [Bool.not_eq_true, Bool.not_eq_false', List.isEmpty_iff] at herrors
      split at h
      · rename_i hunknown
        exact ih hset' (hset 0 id types _ rfl hP hunknown
          (joinBodies_eq_iff_isJoin.mp (Prod.ext rfl herrors))) h
      · exact ih hset' hP h

/-- The same for the types that several rounds find. -/
theorem rounds_induction {P : List ValueType → Prop}
    (hset : ∀ i id types t, ids[i]? = some id → P types → types.getD i .unknown = .unknown →
      IsJoin ⟨inputs, types⟩ id.bodies t → P (types.set i t))
    {count : Nat} (hP : P types) (h : rounds inputs ids count types = .ok types') : P types' := by
  have hround : ∀ {types types' : List ValueType}, P types → round inputs 0 types ids = .ok types' →
      P types' := by
    intro types types' hP h
    refine round_induction (fun k id types t hid => ?_) hP h
    rw [Nat.zero_add]
    exact hset k id types t hid
  induction count generalizing types with
  | zero =>
    cases h
    exact hP
  | succ count ih =>
    rw [rounds] at h
    obtain ⟨next, hnext, h⟩ := Outcome.bind_eq_ok h
    split at h
    · cases h
      exact hP
    · exact ih (hround hP hnext) h

/-! ### What inference finds -/

def contextOf (p : Program) : Context := ⟨p.inputs.map (·.type), p.identifiers.map (·.type)⟩

variable {p q p' q' : Program}

def Untyped (q : Program) (i : Nat) : Prop :=
  ∃ id, q.identifiers[i]? = some id ∧ id.type = .unknown

/-- Types that are declared and types that hold the values of all bodies. -/
structure Holds (q : Program) (c : Context) : Prop where
  inputs : c.inputs = q.inputs.map (·.type)
  declared : ∀ i id, q.identifiers[i]? = some id → id.type ≠ .unknown → c.typeAt i = id.type
  joined : ∀ i id, q.identifiers[i]? = some id → id.type = .unknown →
    ∃ t, IsJoin c id.bodies t ∧ t ≤ c.typeAt i

/-- An identifier that was found to be an integer although one of its bodies is real, since what this
body reads was found to be real only afterwards. -/
structure Overtaken (q : Program) (c : Context) (i : Nat) (id : Identifier) : Prop where
  int : c.typeAt i = .int
  real : IsJoin c id.bodies .real
  late : ∃ e ∈ id.bodies, (typeOf c e).1 = .real ∧ ∃ j ∈ e.targets, Untyped q j ∧ c.typeAt j = .real

/-- What inference makes of a program. -/
structure Inferred (q p : Program) : Prop where
  others : p = { q with identifiers := p.identifiers }
  retyped : List.Forall₂ (fun id id' => id' = { id with type := id'.type } ∧ id'.type ≠ .unknown ∧
    (id.type ≠ .unknown → id'.type = id.type)) q.identifiers p.identifiers
  joined : ∀ i id, q.identifiers[i]? = some id → id.type = .unknown →
    IsJoin (contextOf p) id.bodies ((contextOf p).typeAt i) ∨ Overtaken q (contextOf p) i id
  /-- No other types that hold the values of all bodies are below these. -/
  least : ∀ c, Holds q c → ∀ i, (contextOf p).typeAt i ≤ c.typeAt i

private def Part (q : Program) (c c' : Context) : Prop :=
  ∀ j, c.typeAt j = c'.typeAt j ∨ Untyped q j ∧ c.typeAt j = .unknown

/-- The types of inputs and identifiers while inference goes on: an identifier has the type that it
declares, or the join of its bodies, as far as their types were known when it was found. -/
private structure Found (q : Program) (c : Context) : Prop where
  length : c.identifiers.length = q.identifiers.length
  declared : ∀ i id, q.identifiers[i]? = some id → id.type ≠ .unknown → c.typeAt i = id.type
  joined : ∀ i id, q.identifiers[i]? = some id → id.type = .unknown → c.typeAt i ≠ .unknown →
    ∃ before : Context, before.inputs = c.inputs ∧ IsJoin before id.bodies (c.typeAt i) ∧ Part q before c

private theorem at_set {i : Nat} (hi : i < types.length) (j : Nat) :
    (Context.mk inputs (types.set i t)).typeAt j = if j = i then t else (Context.mk inputs types).typeAt j := by
  simp only [Context.typeAt, List.getD_eq_getElem?_getD]
  by_cases h : j = i
  · rw [if_pos h, h, List.getElem?_set_self hi, Option.getD_some]
  · rw [if_neg h, List.getElem?_set_ne (Ne.symm h)]

/-- A type that is found is the join of what was known then, and leaves all others as they were. -/
private theorem Found.set (h : Found q ⟨inputs, types⟩) {i : Nat} {id : Identifier}
    (hid : q.identifiers[i]? = some id) (hunknown : (Context.mk inputs types).typeAt i = .unknown)
    (hjoin : IsJoin ⟨inputs, types⟩ id.bodies t) : Found q ⟨inputs, types.set i t⟩ := by
  have hi : i < types.length := by
    rw [h.length]
    exact (List.getElem?_eq_some_iff.mp hid).1
  have huntyped : id.type = .unknown := by
    by_contra hdeclared
    exact hdeclared ((h.declared i id hid hdeclared).symm.trans hunknown)
  have hpart : ∀ {before : Context}, Part q before ⟨inputs, types⟩ →
      Part q before ⟨inputs, types.set i t⟩ := by
    intro before hbefore j
    rw [at_set hi]
    split
    · rename_i hj
      rw [hj]
      rcases hbefore i with heq | hlate
      · exact .inr ⟨⟨id, hid, huntyped⟩, heq.trans hunknown⟩
      · exact .inr hlate
    · exact hbefore j
  refine ⟨by rw [List.length_set, h.length], fun j other hother hdeclared => ?_,
    fun j other hother hj hknown => ?_⟩
  · have hne : j ≠ i := by
      rintro rfl
      obtain rfl := Option.some.inj (hid.symm.trans hother)
      exact hdeclared huntyped
    rw [at_set hi, if_neg hne]
    exact h.declared j other hother hdeclared
  · rw [at_set hi] at hknown ⊢
    split
    · rename_i heq
      subst heq
      obtain rfl := Option.some.inj (hid.symm.trans hother)
      exact ⟨⟨inputs, types⟩, rfl, hjoin, hpart fun _ => .inl rfl⟩
    · rename_i hne
      rw [if_neg hne] at hknown
      obtain ⟨before, hinputs, hjoin, hbefore⟩ := h.joined j other hother hj hknown
      exact ⟨before, hinputs, hjoin, hpart hbefore⟩

private theorem at_declared {i : Nat} {id : Identifier} (hid : q.identifiers[i]? = some id) :
    (Context.mk inputs (q.identifiers.map (·.type))).typeAt i = id.type := by
  rw [Context.typeAt, List.getD_eq_getElem?_getD, List.getElem?_map, hid]
  rfl

private theorem found_declared : Found q ⟨inputs, q.identifiers.map (·.type)⟩ where
  length := List.length_map _
  declared _ _ hid _ := at_declared hid
  joined _ _ hid huntyped hknown := absurd ((at_declared hid).trans huntyped) hknown

private theorem found_of_rounds {count : Nat}
    (h : rounds inputs q.identifiers count (q.identifiers.map (·.type)) = .ok types) :
    Found q ⟨inputs, types⟩ :=
  rounds_induction (P := fun types => Found q ⟨inputs, types⟩)
    (fun _ _ _ _ hid hfound hunknown hjoin => hfound.set hid hunknown hjoin) found_declared h

/-- Types that hold the values of all bodies hold everything that is found. -/
private theorem le_of_rounds {count : Nat} {c : Context} (hc : Holds q c)
    (h : rounds (q.inputs.map (·.type)) q.identifiers count (q.identifiers.map (·.type)) = .ok types) :
    ∀ j, (Context.mk (q.inputs.map (·.type)) types).typeAt j ≤ c.typeAt j := by
  refine (rounds_induction (P := fun types => Found q ⟨q.inputs.map (·.type), types⟩ ∧
    ∀ j, (Context.mk (q.inputs.map (·.type)) types).typeAt j ≤ c.typeAt j) ?_ ⟨found_declared, ?_⟩ h).2
  · rintro i id types t hid ⟨hfound, hle⟩ hunknown hjoin
    refine ⟨hfound.set hid hunknown hjoin, fun j => ?_⟩
    have hi : i < types.length := hfound.length ▸ (List.getElem?_eq_some_iff.mp hid).1
    rw [at_set hi]
    split
    · rename_i hj
      subst hj
      have huntyped : id.type = .unknown := by
        by_contra hdeclared
        exact hdeclared ((hfound.declared j id hid hdeclared).symm.trans hunknown)
      obtain ⟨t', hjoin', ht'⟩ := hc.joined j id hid huntyped
      exact (hjoin.mono hjoin' hc.inputs.symm hle).trans ht'
    · exact hle j
  · intro j
    cases hid : q.identifiers[j]? with
    | none =>
      rw [Context.typeAt, List.getD_eq_getElem?_getD, List.getElem?_map, hid]
      exact ValueType.unknown_le _
    | some id =>
      rw [at_declared hid]
      by_cases huntyped : id.type = .unknown
      · rw [huntyped]
        exact ValueType.unknown_le _
      · rw [hc.declared j id hid huntyped]

/-! ### What the checks ensure -/

/-- Without errors in the pattern of a body there is none in its type, and the body is a truth value
just when the identifier is. -/
private theorem typed_of_patternErrors {pattern : Pattern} (h : patternErrors c t pattern = []) :
    (typeOf c pattern.body).2 = [] ∧
      ((typeOf c pattern.body).1 ≠ .unknown → ((typeOf c pattern.body).1 = .bool ↔ t = .bool)) := by
  simp only [patternErrors, List.append_eq_nil_iff] at h
  obtain ⟨⟨⟨-, htyped⟩, hmisfit⟩, -⟩ := h
  refine ⟨htyped, fun hknown => ?_⟩
  by_contra hne
  rw [if_pos ⟨hknown, fun heq => hne (iff_of_eq heq)⟩] at hmisfit
  cases hmisfit

private theorem exists_isJoin {id : Identifier} (hknown : t ≠ .unknown)
    (h : identifierErrors c id t = []) : ∃ t', IsJoin c id.bodies t' := by
  rw [identifierErrors, if_neg hknown, List.flatMap_eq_nil_iff] at h
  have htyped : ∀ e ∈ id.bodies, (typeOf c e).2 = [] ∧
      ((typeOf c e).1 ≠ .unknown → ((typeOf c e).1 = .bool ↔ t = .bool)) := by
    intro e he
    obtain ⟨pattern, hpattern, rfl⟩ := List.mem_map.mp he
    exact typed_of_patternErrors (h pattern hpattern)
  have hlub : ∃ t', IsLUB (typesIn c id.bodies) t' := by
    refine ValueType.exists_isLUB (p := t = .bool) ?_
    rintro _ ⟨e, he, rfl⟩
    exact (htyped e he).2
  obtain ⟨t', hleast⟩ := hlub
  exact ⟨t', fun e he => (htyped e he).1, hleast⟩

private theorem known_of_identifierErrors {id : Identifier} (h : identifierErrors c id t = []) :
    t ≠ .unknown := by
  rintro rfl
  rw [identifierErrors, if_pos rfl] at h
  cases h

/-- If what was known when a type was found does not lead to the join under all types, then the type is
an integer, and one of the bodies is real since it reads what was found to be real only later. -/
private theorem joined_of_part {before : Context} (hinputs : before.inputs = c.inputs)
    (hpart : Part q before c) {i : Nat} {id : Identifier} (hknown : c.typeAt i ≠ .unknown)
    (hfound : IsJoin before id.bodies (c.typeAt i)) (hjoin : IsJoin c id.bodies t) :
    IsJoin c id.bodies (c.typeAt i) ∨ Overtaken q c i id := by
  have hle : ∀ j, before.typeAt j ≤ c.typeAt j := by
    intro j
    rcases hpart j with heq | ⟨-, hunknown⟩
    · exact heq.le
    · exact hunknown ▸ ValueType.unknown_le _
  rcases hfound.mono hjoin hinputs hle with hunknown | heq | ⟨hint, hreal⟩
  · exact absurd hunknown hknown
  · exact .inl (heq ▸ hjoin)
  · subst hreal
    refine .inr ⟨hint, hjoin, ?_⟩
    obtain ⟨e, he, hreal⟩ := ValueType.real_mem_of_isLUB hjoin.least
    refine ⟨e, he, hreal, ?_⟩
    by_contra hlate
    have hreads : ∀ j ∈ e.targets,
        before.typeAt j = c.typeAt j ∨ before.typeAt j = .unknown ∧ c.typeAt j ≠ .real := by
      intro j hj
      rcases hpart j with heq | ⟨huntyped, hunknown⟩
      · exact .inl heq
      · exact .inr ⟨hunknown, fun hj' => hlate ⟨j, hj, huntyped, hj'⟩⟩
    have hcoarser := (typeOf_coarser ValueType.coarser_unless_real hinputs e hreads (hjoin.typed e he)).2
    rcases hcoarser with heq | ⟨-, hne⟩
    · -- The body was known to be real, which an integer does not hold.
      have hheld : (typeOf before e).1 ≤ c.typeAt i := hfound.least.1 ⟨e, he, rfl⟩
      rw [heq, hreal, hint] at hheld
      exact absurd hheld (by rw [ValueType.le_iff]; decide)
    · exact hne hreal

private theorem map_type_zipWith (h : types.length = ids.length) :
    (List.zipWith (fun (id : Identifier) type => { id with type }) ids types).map (·.type) = types := by
  rw [List.map_zipWith, ← List.map_uncurry_zip_eq_zipWith]
  exact List.map_snd_zip h.le

private theorem getElem?_eq_at {i : Nat} (hi : i < types.length) :
    types[i]? = some ((Context.mk inputs types).typeAt i) := by
  rw [Context.typeAt, List.getD_eq_getElem?_getD, List.getElem?_eq_getElem hi, Option.getD_some]

theorem inferred_of_infer (h : infer q = .ok p) : Inferred q p := by
  obtain ⟨types, hrounds, h⟩ := Outcome.bind_eq_ok h
  dsimp only at h
  split at h
  · rename_i herrors
    cases h
    have hfound := found_of_rounds hrounds
    have hlength : types.length = q.identifiers.length := hfound.length
    have hcontext : contextOf { q with
        identifiers := List.zipWith (fun id type => { id with type }) q.identifiers types } =
        ⟨q.inputs.map (·.type), types⟩ := congrArg (Context.mk _) (map_type_zipWith hlength)
    have hchecked : ∀ i id, q.identifiers[i]? = some id →
        identifierErrors ⟨q.inputs.map (·.type), types⟩ id
          ((Context.mk (q.inputs.map (·.type)) types).typeAt i) = [] := by
      intro i id hid
      rw [List.isEmpty_iff, List.flatMap_eq_nil_iff] at herrors
      have hi : i < types.length := hlength ▸ (List.getElem?_eq_some_iff.mp hid).1
      exact herrors (id, _) (List.mem_of_getElem? (List.getElem?_zip_eq_some.mpr ⟨hid, getElem?_eq_at hi⟩))
    refine ⟨rfl, ?_, ?_, ?_⟩
    · rw [List.forall₂_iff_get]
      refine ⟨by simp [hlength], fun i hi hi' => ?_⟩
      have hid := List.getElem?_eq_getElem hi
      have htype : types.get ⟨i, hlength ▸ hi⟩ = (Context.mk (q.inputs.map (·.type)) types).typeAt i :=
        Option.some.inj ((List.getElem?_eq_getElem _).symm.trans (getElem?_eq_at (hlength ▸ hi)))
      simp only [List.get_eq_getElem, List.getElem_zipWith] at htype ⊢
      rw [htype]
      exact ⟨trivial, known_of_identifierErrors (hchecked i _ hid), hfound.declared i _ hid⟩
    · rw [hcontext]
      intro i id hid huntyped
      have herrors := hchecked i id hid
      have hknown := known_of_identifierErrors herrors
      obtain ⟨before, hinputs, hjoin, hpart⟩ := hfound.joined i id hid huntyped hknown
      obtain ⟨t, hjoin'⟩ := exists_isJoin hknown herrors
      exact joined_of_part hinputs hpart hknown hjoin hjoin'
    · rw [hcontext]
      exact fun c hc => le_of_rounds hc hrounds
  · cases h

/-! ### The order of declarations -/

/-- No undeclared integer is defined by a real body. -/
def Exact (q p : Program) : Prop :=
  ∀ i id, q.identifiers[i]? = some id → id.type = .unknown → (contextOf p).typeAt i = .int →
    ∀ e ∈ id.bodies, (typeOf (contextOf p) e).1 ≠ .real

theorem Inferred.isJoin (h : Inferred q p) (hexact : Exact q p) {i : Nat} {id : Identifier}
    (hid : q.identifiers[i]? = some id) (huntyped : id.type = .unknown) :
    IsJoin (contextOf p) id.bodies ((contextOf p).typeAt i) := by
  rcases h.joined i id hid huntyped with hjoin | hovertaken
  · exact hjoin
  · obtain ⟨e, he, hreal, -⟩ := hovertaken.late
    exact absurd hreal (hexact i id hid huntyped hovertaken.int e he)

theorem Inferred.declared (h : Inferred q p) {i : Nat} {id : Identifier}
    (hid : q.identifiers[i]? = some id) (hdeclared : id.type ≠ .unknown) :
    (contextOf p).typeAt i = id.type := by
  obtain ⟨id', hid', -, -, htype⟩ := Outcome.getElem?_of_forall₂ h.retyped hid
  rw [contextOf, Context.typeAt, List.getD_eq_getElem?_getD, List.getElem?_map, hid', Option.map_some,
    Option.getD_some, htype hdeclared]

theorem Inferred.holds (h : Inferred q p) (hexact : Exact q p) : Holds q (contextOf p) where
  inputs := by
    rw [h.others]
    rfl
  declared _ _ := h.declared
  joined _ _ hid huntyped := ⟨_, h.isJoin hexact hid huntyped, le_rfl⟩

/-- The same declarations in another order, as far as types depend on them. -/
structure Reordered (π : Equiv.Perm Nat) (q q' : Program) : Prop where
  inputs : q'.inputs.map (·.type) = q.inputs.map (·.type)
  identifiers : ∀ i, (q'.identifiers[π i]?).map (·.definition fun j => j) =
    (q.identifiers[i]?).map (·.definition π)

private theorem isJoin_renumbered {f : Nat → Nat} (hinputs : c'.inputs = c.inputs)
    (hf : ∀ j, c'.typeAt (f j) = c.typeAt j) :
    IsJoin c' (bodies.map (·.renumbered f)) t ↔ IsJoin c bodies t := by
  have htypes : typesIn c' (bodies.map (·.renumbered f)) = typesIn c bodies := by
    ext s
    simp [typesIn, (typeOf_renumbered hinputs hf _).1]
  have htyped : (∀ e ∈ bodies.map (·.renumbered f), (typeOf c' e).2 = []) ↔
      ∀ e ∈ bodies, (typeOf c e).2 = [] := by
    simp [(typeOf_renumbered hinputs hf _).2]
  exact ⟨fun h => ⟨htyped.mp h.typed, htypes ▸ h.least⟩, fun h => ⟨htyped.mpr h.typed, htypes ▸ h.least⟩⟩

variable {π : Equiv.Perm Nat}

/-- Identifiers with one definition are alike under types that go along with the numbers. -/
private theorem alike_of_definition (hinputs : c'.inputs = c.inputs)
    (hat : ∀ j, c'.typeAt (π j) = c.typeAt j) {id id' : Identifier}
    (h : id'.definition (fun j => j) = id.definition π) :
    id'.type = id.type ∧ ∀ t, IsJoin c' id'.bodies t ↔ IsJoin c id.bodies t := by
  obtain ⟨htype, hbodies⟩ := Prod.ext_iff.mp h
  refine ⟨htype, fun t => ?_⟩
  change id'.bodies.map (·.renumbered fun j => j) = id.bodies.map (·.renumbered π) at hbodies
  have hown : IsJoin c' (id'.bodies.map (·.renumbered fun j => j)) t ↔ IsJoin c' id'.bodies t :=
    isJoin_renumbered rfl fun _ => rfl
  rw [← hown, hbodies, isJoin_renumbered hinputs hat]

private theorem Holds.transfer (h : Holds q' c') (hinputs : c.inputs = q.inputs.map (·.type))
    (hmatch : ∀ i id, q.identifiers[i]? = some id → ∃ i' id', q'.identifiers[i']? = some id' ∧
      c'.typeAt i' = c.typeAt i ∧ id'.type = id.type ∧ ∀ t, IsJoin c' id'.bodies t ↔ IsJoin c id.bodies t) :
    Holds q c := by
  refine ⟨hinputs, fun i id hid hdeclared => ?_, fun i id hid huntyped => ?_⟩
  · obtain ⟨i', id', hid', hat, htype, -⟩ := hmatch i id hid
    rw [← hat, h.declared i' id' hid' (htype ▸ hdeclared), htype]
  · obtain ⟨i', id', hid', hat, htype, hjoins⟩ := hmatch i id hid
    obtain ⟨t, hjoin, hle⟩ := h.joined i' id' hid' (htype ▸ huntyped)
    exact ⟨t, (hjoins t).mp hjoin, hat ▸ hle⟩

private theorem Reordered.holds_iff (h : Reordered π q q') (hinputs : c'.inputs = c.inputs)
    (hat : ∀ j, c'.typeAt (π j) = c.typeAt j) : Holds q' c' ↔ Holds q c := by
  constructor
  · refine fun hc => hc.transfer (by rw [← hinputs, hc.inputs, h.inputs]) fun i id hid => ?_
    have hdefinition := h.identifiers i
    rw [hid, Option.map_some, Option.map_eq_some_iff] at hdefinition
    obtain ⟨id', hid', hdefinition⟩ := hdefinition
    exact ⟨π i, id', hid', hat i, alike_of_definition hinputs hat hdefinition⟩
  · refine fun hc => hc.transfer (by rw [hinputs, hc.inputs, h.inputs]) fun i id' hid' => ?_
    obtain ⟨i, rfl⟩ := π.surjective i
    have hdefinition := h.identifiers i
    rw [hid', Option.map_some, eq_comm, Option.map_eq_some_iff] at hdefinition
    obtain ⟨id, hid, hdefinition⟩ := hdefinition
    obtain ⟨htype, hjoins⟩ := alike_of_definition hinputs hat hdefinition.symm
    exact ⟨i, id, hid, (hat i).symm, htype.symm, fun t => (hjoins t).symm⟩

private theorem Inferred.at_of_none (h : Inferred q p) {i : Nat} (hi : q.identifiers[i]? = none) :
    (contextOf p).typeAt i = .unknown := by
  have hnone : p.identifiers[i]? = none := by
    rw [List.getElem?_eq_none_iff, ← h.retyped.length_eq]
    exact List.getElem?_eq_none_iff.mp hi
  rw [contextOf, Context.typeAt, List.getD_eq_getElem?_getD, List.getElem?_map, hnone]
  rfl

private theorem exists_reindexed (c : Context) {f : Nat → Nat} {n : Nat}
    (h : ∀ j, n ≤ j → c.typeAt (f j) = .unknown) :
    ∃ d : Context, d.inputs = c.inputs ∧ ∀ j, d.typeAt j = c.typeAt (f j) := by
  refine ⟨⟨c.inputs, (List.range n).map fun j => c.typeAt (f j)⟩, rfl, fun j => ?_⟩
  by_cases hj : j < n
  · simp [Context.typeAt, hj]
  · rw [h j (Nat.le_of_not_lt hj)]
    simp [Context.typeAt, hj]

/-- Where no real value is stored into an integer, types do not depend on the order of declarations. -/
theorem Inferred.at_reordered (h : Inferred q p) (h' : Inferred q' p') (hexact : Exact q p)
    (hexact' : Exact q' p') (hreordered : Reordered π q q') (i : Nat) :
    (contextOf p').typeAt (π i) = (contextOf p).typeAt i := by
  have hholds := h.holds hexact
  have hholds' := h'.holds hexact'
  have hinputs : (contextOf p').inputs = (contextOf p).inputs := by
    rw [hholds.inputs, hholds'.inputs, hreordered.inputs]
  refine le_antisymm ?_ ?_
  · obtain ⟨d, hd, hat⟩ := exists_reindexed (contextOf p) (f := π.symm) (n := q'.identifiers.length)
      fun j hj => h.at_of_none (by
        have hnone := hreordered.identifiers (π.symm j)
        rw [π.apply_symm_apply, List.getElem?_eq_none hj, Option.map_none, eq_comm,
          Option.map_eq_none_iff] at hnone
        exact hnone)
    have hle := h'.least d ((hreordered.holds_iff hd fun j => by
      rw [hat, π.symm_apply_apply]).mpr hholds) (π i)
    rw [hat, π.symm_apply_apply] at hle
    exact hle
  · obtain ⟨d, hd, hat⟩ := exists_reindexed (contextOf p') (f := π) (n := q.identifiers.length)
      fun j hj => h'.at_of_none (by
        have hnone := hreordered.identifiers j
        rw [List.getElem?_eq_none hj, Option.map_none, Option.map_eq_none_iff] at hnone
        exact hnone)
    have hle := h.least d ((hreordered.holds_iff hd.symm fun j => (hat j).symm).mp hholds') i
    rw [hat] at hle
    exact hle

end Typing

namespace Program

open Typing

section

variable [Arithmetic]

def draftOf (library : Library) (files : List SourceFile) : Draft :=
  ((Draft.declareAll library files).run {}).2

/-- The program that a draft declares, before its types are inferred. -/
def untyped (d : Draft) : Program := ((d.program.withBodies d.definitions).1.withOutput d.output).1

variable {library library' : Library} {files files' : List SourceFile} {p p' : Program}

theorem infer_of_read (h : (read library files).result = .ok p) :
    infer (untyped (draftOf library files)) = .ok p := by
  change complete (draftOf library files) = .ok p at h
  unfold complete at h
  split at h
  · cases h
  · dsimp only at h
    split at h
    · exact h
    · cases h

/-- The types of a program that was read are the joins of its bodies, but for integers that were found
before what their bodies read. If there are no such integers, the types do not depend on the order of the
declarations. -/
theorem inferred_of_read (h : (read library files).result = .ok p) :
    Inferred (untyped (draftOf library files)) p ∧
      ∀ {library' files' p' π}, (read library' files').result = .ok p' →
        Reordered π (untyped (draftOf library files)) (untyped (draftOf library' files')) →
          Exact (untyped (draftOf library files)) p → Exact (untyped (draftOf library' files')) p' →
            ∀ i, (contextOf p').typeAt (π i) = (contextOf p).typeAt i := by
  have hinferred := inferred_of_infer (infer_of_read h)
  refine ⟨hinferred, fun h' hreordered hexact hexact' i => ?_⟩
  exact hinferred.at_reordered (inferred_of_infer (infer_of_read h')) hexact hexact' hreordered i

end

/-- Whether an undeclared one comes first and what reads it comes second. -/
private def isInOrder : List Identifier → Bool
  | [⟨_, _, .unknown, _, _, [⟨_, _, _, .constant _ (.int 1)⟩]⟩,
      ⟨_, _, .unknown, _, _, [⟨_, _, _, .element _ 0 []⟩]⟩] => true
  | _ => false

private def isReversed : List Identifier → Bool
  | [⟨_, _, .unknown, _, _, [⟨_, _, _, .element _ 1 []⟩]⟩,
      ⟨_, _, .unknown, _, _, [⟨_, _, _, .constant _ (.int 1)⟩]⟩] => true
  | _ => false

private theorem reordered_swap {q q' : Program}
    (h : (q.inputs.isEmpty && isInOrder q.identifiers) = true)
    (h' : (q'.inputs.isEmpty && isReversed q'.identifiers) = true) : Reordered (Equiv.swap 0 1) q q' := by
  obtain ⟨hinputs, h⟩ := Bool.and_eq_true_iff.mp h
  obtain ⟨hinputs', h'⟩ := Bool.and_eq_true_iff.mp h'
  refine ⟨by rw [List.isEmpty_iff.mp hinputs, List.isEmpty_iff.mp hinputs'], fun i => ?_⟩
  unfold isInOrder at h
  split at h
  · rename_i hids
    unfold isReversed at h'
    split at h'
    · rename_i hids'
      rw [hids, hids']
      match i with
      | 0 => rfl
      | 1 => rfl
      | i + 2 =>
        rw [Equiv.swap_apply_of_ne_of_ne (by omega) (by omega)]
        rfl
    · cases h'
  · cases h

private def one : SourceFile := ⟨"", "(define a 1)".toList⟩

private def other : SourceFile := ⟨"", "(define b a)".toList⟩

private theorem exact_of_all {q p : Program} (h : (q.identifiers.all fun id => id.bodies.all fun e =>
    (typeOf (contextOf p) e).1 != .real) = true) : Exact q p := by
  intro i id hid _ _ e he
  rw [List.all_eq_true] at h
  have hid := h id (List.mem_of_getElem? hid)
  rw [List.all_eq_true] at hid
  simpa using hid e he

attribute [local instance] Arithmetic.exact

/-- The two integers are found in either order. -/
theorem inferred_of_read_one : ∃ p p', (read ⟨⟨"", []⟩, []⟩ [one, other]).result = .ok p ∧
    (read ⟨⟨"", []⟩, []⟩ [other, one]).result = .ok p' ∧ (contextOf p).identifiers = [.int, .int] ∧
      Inferred (untyped (draftOf ⟨⟨"", []⟩, []⟩ [one, other])) p ∧
        (contextOf p').typeAt 1 = (contextOf p).typeAt 0 ∧
          (contextOf p').typeAt 0 = (contextOf p).typeAt 1 := by
  have hrun : (Outcome.passes (read ⟨⟨"", []⟩, []⟩ [one, other]).result fun p =>
      decide ((contextOf p).identifiers = [.int, .int]) &&
        (untyped (draftOf ⟨⟨"", []⟩, []⟩ [one, other])).identifiers.all fun id => id.bodies.all fun e =>
          (typeOf (contextOf p) e).1 != .real) = true := by
    decide +kernel
  have hrun' : (Outcome.passes (read ⟨⟨"", []⟩, []⟩ [other, one]).result fun p' =>
      (untyped (draftOf ⟨⟨"", []⟩, []⟩ [other, one])).identifiers.all fun id => id.bodies.all fun e =>
        (typeOf (contextOf p') e).1 != .real) = true := by
    decide +kernel
  have hids : ((untyped (draftOf ⟨⟨"", []⟩, []⟩ [one, other])).inputs.isEmpty &&
      isInOrder (untyped (draftOf ⟨⟨"", []⟩, []⟩ [one, other])).identifiers) = true := by
    decide +kernel
  have hids' : ((untyped (draftOf ⟨⟨"", []⟩, []⟩ [other, one])).inputs.isEmpty &&
      isReversed (untyped (draftOf ⟨⟨"", []⟩, []⟩ [other, one])).identifiers) = true := by
    decide +kernel
  obtain ⟨p, hp, hrun⟩ := Outcome.exists_of_passes hrun
  obtain ⟨p', hp', hrun'⟩ := Outcome.exists_of_passes hrun'
  obtain ⟨htypes, hrun⟩ := Bool.and_eq_true_iff.mp hrun
  obtain ⟨hinferred, hreordered⟩ := inferred_of_read hp
  have hat := hreordered hp' (reordered_swap hids hids') (exact_of_all hrun) (exact_of_all hrun')
  exact ⟨p, p', hp, hp', of_decide_eq_true htypes, hinferred, hat 0, hat 1⟩

private def halves : SourceFile :=
  ⟨"", "(array a [inf] (pattern [0] 1) (pattern [1] (b 1))) (array b [inf] (pattern [i] (+ i 0.5)))".toList⟩

/-- The first array is found to be an integer before what its second pattern reads is found to be real. -/
example : Outcome.passes (read ⟨⟨"", []⟩, []⟩ [halves]).result
    (fun p => decide ((contextOf p).identifiers = [.int, .real])) = true := by
  decide +kernel

end Program

end StreamLoom
