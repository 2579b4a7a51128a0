import StreamLoom.Model.Build
import StreamLoom.Proofs.Outcome

/-!
# How models are put together

A statement of a model is the copy of a stream input or comes from a pattern, and those of one identifier
stand together in the order of its patterns. Nothing of this depends on the arithmetic.
-/

namespace StreamLoom

variable [Arithmetic]

namespace Program

variable {p : Program} {arrays : List DataArray}

/-! ### Computations -/

section

variable {f : Frame} {origin : Option Origin} {number : Nat} {indices : List Expr} {c : Computation}

theorem accessArray_cases (h : accessArray arrays f origin number indices = .ok c) :
    ∃ array access, arrays[number]? = some array ∧
      Access.make f origin array.domain array.flow indices = .ok access ∧
      c = .read number array.type access := by
  unfold accessArray at h
  split at h
  · rename_i array harray
    obtain ⟨access, haccess, h⟩ := Outcome.bind_eq_ok h
    cases h
    exact ⟨array, access, harray, haccess, rfl⟩
  · cases h

/-- A stream is read from its array, and only a finite input is accessed itself. -/
theorem accessInput_cases (h : p.accessInput arrays f origin number indices = .ok c) :
    accessArray arrays f origin (p.arrayOfInput number) indices = .ok c ∨
      ∃ input access, p.inputs[number]? = some input ∧ input.isStream = false ∧
        Access.make f origin (.box input.name input.extents) none indices = .ok access ∧
        c = .input number input.type access := by
  unfold accessInput at h
  split at h
  · rename_i input hinput
    split at h
    · exact .inl h
    · rename_i hstream
      obtain ⟨access, haccess, h⟩ := Outcome.bind_eq_ok h
      cases h
      exact .inr ⟨input, access, hinput, by simpa using hstream, haccess, rfl⟩
  · cases h

omit [Arithmetic] in
theorem applied_cases {op : Op} {operands : List Computation} (h : applied origin op operands = .ok c) :
    ∃ τ, op.resultType (operands.map (·.type)) = .ok τ ∧ c = .apply op τ operands := by
  unfold applied at h
  split at h
  · cases h
    exact ⟨_, ‹_›, rfl⟩
  · cases h

omit [Arithmetic] in
theorem reduced_cases {op : Op} {dim : Nat} {lower upper : Int} {body : Computation}
    (h : reduced origin op dim lower upper body = .ok c) :
    ∃ τ, op.resultType [body.type, body.type] = .ok τ ∧ c = .reduce op τ dim lower upper body := by
  unfold reduced at h
  split at h
  · cases h
    exact ⟨_, ‹_›, rfl⟩
  · cases h

theorem forall₂_of_computations {es : List Expr} {cs : List Computation}
    (h : p.computations arrays f es = .ok cs) :
    List.Forall₂ (fun e c => p.computation arrays f e = .ok c) es cs := by
  induction es generalizing cs with
  | nil =>
    rw [computations] at h
    cases h
    exact .nil
  | cons e rest ih =>
    rw [computations] at h
    obtain ⟨c, hc, h⟩ := Outcome.bind_eq_ok h
    obtain ⟨cs', hcs', h⟩ := Outcome.bind_eq_ok h
    cases h
    exact .cons hc (ih hcs')

end

/-! ### Statements -/

structure States (p : Program) (arrays : List DataArray) (id : Identifier) (number : Nat)
    (array : DataArray) (pattern : Pattern) (k : Nat) (s : Statement) : Prop where
  rank : pattern.indices.length = array.rank
  name : s.name = statementName id k
  domain : patternDomain array (statementName id k) pattern = .ok s.domain
  computation : p.computation arrays ⟨statementName id k, s.domain, []⟩ pattern.body = .ok s.computation
  home : s.array = number
  write : s.write = Statement.writing s.domain array
  flow : s.flow = array.flow

variable {id : Identifier} {number k : Nat} {array : DataArray} {pattern : Pattern} {s : Statement}

private theorem states_patternStatement
    (h : (p.patternStatement arrays id number array pattern k).Yields s) :
    p.States arrays id number array pattern k s := by
  simp only [patternStatement] at h
  split at h
  · obtain ⟨_, hthrow, -⟩ := Stage.yields_bind h
    exact absurd hthrow Stage.not_yields_throw
  · rename_i hrank
    obtain ⟨domain, hdomain, hrest⟩ := Stage.yields_bind h
    have hmade : ∀ {s : Statement}, Stage.Yields (do
        let computation ← Stage.ofExcept
          (p.computation arrays ⟨statementName id k, domain, []⟩ pattern.body)
        Stage.debug ("statement " ++ statementName id k ++ ": " ++ domain.text ++ " = " ++
          computation.text)
        return ⟨statementName id k, domain, computation, number, Statement.writing domain array,
          array.flow, some pattern.origin⟩) s → p.States arrays id number array pattern k s := by
      intro s hs
      obtain ⟨computation, hcomputation, hs⟩ := Stage.yields_bind hs
      obtain ⟨_, -, hs⟩ := Stage.yields_bind hs
      obtain rfl := Stage.yields_pure hs
      exact ⟨by simpa using hrank, rfl, Stage.yields_ofExcept hdomain, Stage.yields_ofExcept hcomputation,
        rfl, rfl, rfl⟩
    split at hrest
    · obtain ⟨_, -, hrest⟩ := Stage.yields_bind hrest
      exact hmade hrest
    · exact hmade hrest

end Program

/-- How a statement came into a model: as the copy of a stream input, or from a pattern. -/
inductive Statement.Stems (p : Program) (m : Model) (s : Statement) : Prop
  | copy {input : Input} {number k : Nat} (hinput : p.inputs[number]? = some input)
      (hstream : input.isStream = true) (harray : m.arrays[k]? = some (Program.inputArray input number))
      (h : s = Program.inputStatement (Program.inputArray input number) number k)
  | pattern {id : Identifier} {i k : Nat} {pattern : Pattern} {array : DataArray}
      (hid : p.identifiers[i]? = some id) (hpattern : id.patterns[k]? = some pattern)
      (harray : m.arrays[p.arrayOfIdentifier i]? = some array)
      (h : p.States m.arrays id (p.arrayOfIdentifier i) array pattern k s)

namespace Model

/-! ### Overlaps -/

omit [Arithmetic] in
private theorem pairwise_of_pairsOf {α : Type} {R : α → α → Prop} {xs : List α}
    (h : ∀ pair ∈ pairsOf xs, R pair.1 pair.2) : xs.Pairwise R := by
  induction xs with
  | nil => exact List.Pairwise.nil
  | cons x rest ih =>
    rw [pairsOf] at h
    refine List.Pairwise.cons (fun y hy => ?_) (ih fun pair hpair => h pair ?_)
    · exact h (x, y) (List.mem_append_left _ (List.mem_map_of_mem hy))
    · exact List.mem_append_right _ hpair

/-- Any two statements that write an array have been found to have no element in common. -/
theorem pairwise_of_checkOverlaps {arrays : List DataArray} {statements : List Statement}
    (h : checkOverlaps arrays statements = .ok ()) {i : Nat} (hi : i < arrays.length) :
    (statements.filter (·.array == i)).Pairwise
      fun s t => (t.domain.intersect s.domain).isIntegerEmpty = true := by
  have hchecked := Outcome.forM_eq_ok h (arrays[i], i)
    (List.mem_zipIdx_iff_getElem?.mpr (List.getElem?_eq_getElem hi))
  simp only at hchecked
  split at hchecked
  · rename_i hnone
    refine pairwise_of_pairsOf fun pair hpair => ?_
    simpa using List.find?_eq_none.mp hnone pair hpair
  · cases hchecked

/-! ### Models -/

/-- How a model is put together from a program. The statements of each identifier follow the copies of
the stream inputs. -/
structure Assembled (p : Program) (m : Model) (copies : List Statement) (written : List (List Statement)) :
    Prop where
  inputs : m.inputs = p.inputs
  arrays : ∃ declared, p.identifierArrays = .ok declared ∧
    m.arrays = (p.streams.map fun (i, number) => Program.inputArray i number) ++ declared
  copied : ∀ s ∈ copies, s.Stems p m
  below : ∀ s ∈ copies, s.array < p.streams.length
  yields : List.Forall₂ (fun entry ss => (p.identifierStatements m.arrays entry.1 entry.2).Yields ss)
    p.identifiers.zipIdx written
  statements : m.statements = copies ++ written.flatten
  dependencies : m.dependencies = dependenciesOf m.statements
  unshared : checkOverlaps m.arrays m.statements = .ok ()

variable {p : Program} {m : Model}

omit [Arithmetic] in
private theorem streams_of_mem_zipIdx {array : DataArray} {number k : Nat}
    (h : ((array, number), k) ∈ ((p.streams.map fun (i, number) => Program.inputArray i number).zip
      (p.streams.map (·.2))).zipIdx) :
    ∃ input, p.streams[k]? = some (input, number) ∧ array = Program.inputArray input number := by
  obtain ⟨harray, hnumber⟩ := List.getElem?_zip_eq_some.mp (List.mem_zipIdx_iff_getElem?.mp h)
  rw [List.getElem?_map] at harray hnumber
  obtain ⟨⟨input, number'⟩, hentry, rfl⟩ := Option.map_eq_some_iff.mp harray
  rw [hentry] at hnumber
  obtain rfl : number' = number := Option.some.inj hnumber
  exact ⟨input, hentry, rfl⟩

theorem assembled_of_build (h : (build p).execute.1 = .ok m) : ∃ copies written, m.Assembled p copies written := by
  have hyields := Stage.yields_of_execute h
  simp only [build] at hyields
  obtain ⟨_, -, hyields⟩ := Stage.yields_bind hyields
  obtain ⟨declared, hdeclared, hyields⟩ := Stage.yields_bind hyields
  obtain ⟨written, hwritten, hyields⟩ := Stage.yields_bind hyields
  obtain ⟨_, hoverlaps, hyields⟩ := Stage.yields_bind hyields
  obtain ⟨_, -, hyields⟩ := Stage.yields_bind hyields
  obtain rfl := Stage.yields_pure hyields
  refine ⟨_, written, rfl, ⟨declared, Stage.yields_ofExcept hdeclared, rfl⟩, fun s hs => ?_, fun s hs => ?_,
    Stage.yields_mapM hwritten, rfl, rfl, Stage.yields_ofExcept hoverlaps⟩
  all_goals
    obtain ⟨⟨⟨array, number⟩, k⟩, hmem, rfl⟩ := List.mem_map.mp hs
    obtain ⟨input, hentry, rfl⟩ := streams_of_mem_zipIdx hmem
    have hlt := (List.getElem?_eq_some_iff.mp hentry).1
  · obtain ⟨hinput, hstream⟩ := List.mem_filter.mp (List.mem_of_getElem? hentry)
    refine .copy (List.mem_zipIdx_iff_getElem?.mp hinput) hstream ?_ rfl
    rw [List.getElem?_append_left (by rwa [List.length_map]), List.getElem?_map, hentry]
    rfl
  · exact hlt

theorem Assembled.stems {copies : List Statement} {written : List (List Statement)}
    (h : m.Assembled p copies written) : ∀ s ∈ m.statements, s.Stems p m := by
  intro s hs
  rw [h.statements] at hs
  rcases List.mem_append.mp hs with hs | hs
  · exact h.copied s hs
  obtain ⟨ss, hss, hs⟩ := List.mem_flatten.mp hs
  obtain ⟨⟨id, i⟩, hid, hyields⟩ := Outcome.exists_of_forall₂ h.yields hss
  unfold Program.identifierStatements at hyields
  split at hyields
  · rename_i array harray
    obtain ⟨⟨pattern, k⟩, hpattern, hstatement⟩ := Outcome.exists_of_forall₂ (Stage.yields_mapM hyields) hs
    exact .pattern (List.mem_zipIdx_iff_getElem?.mp hid) (List.mem_zipIdx_iff_getElem?.mp hpattern) harray
      (Program.states_patternStatement hstatement)
  · obtain rfl := Stage.yields_pure hyields
    cases hs

theorem Assembled.exists_written {copies : List Statement} {written : List (List Statement)}
    (h : m.Assembled p copies written) {i : Nat} {id : Identifier} (hid : p.identifiers[i]? = some id) :
    ∃ array ss, p.identifierArray id i = .ok array ∧ m.arrays[p.arrayOfIdentifier i]? = some array ∧
      written[i]? = some ss ∧ List.Forall₂ (fun entry s =>
        p.States m.arrays id (p.arrayOfIdentifier i) array entry.1 entry.2 s) id.patterns.zipIdx ss := by
  have hentry : p.identifiers.zipIdx[i]? = some (id, i) := by simp [hid]
  obtain ⟨declared, hdeclared, harrays⟩ := h.arrays
  obtain ⟨array, harray, hmade⟩ :=
    Outcome.getElem?_of_forall₂ (Outcome.forall₂_of_mapM hdeclared) hentry
  obtain ⟨ss, hss, hyields⟩ := Outcome.getElem?_of_forall₂ h.yields hentry
  have hhome : m.arrays[p.arrayOfIdentifier i]? = some array := by
    rw [harrays, Program.arrayOfIdentifier, List.getElem?_append_right (by simp), List.length_map,
      Nat.add_sub_cancel_left, harray]
  simp only [Program.identifierStatements, hhome] at hyields
  exact ⟨array, ss, hmade, hhome, hss,
    (Stage.yields_mapM hyields).imp fun _ _ h => Program.states_patternStatement h⟩

theorem Assembled.home {copies : List Statement} {written : List (List Statement)}
    (h : m.Assembled p copies written) {i : Nat} {ss : List Statement} (hss : written[i]? = some ss) :
    ∀ s ∈ ss, s.array = p.arrayOfIdentifier i := by
  have hlength := h.yields.length_eq
  rw [List.length_zipIdx] at hlength
  have hlt : i < p.identifiers.length := hlength ▸ (List.getElem?_eq_some_iff.mp hss).1
  obtain ⟨array, ss', -, -, hss', hstates⟩ := h.exists_written (List.getElem?_eq_getElem hlt)
  obtain rfl := Option.some.inj (hss.symm.trans hss')
  intro s hs
  obtain ⟨_, -, hstate⟩ := Outcome.exists_of_forall₂ hstates hs
  exact hstate.home

omit [Arithmetic] in
private theorem filter_flatten_eq {α : Type} {test : α → Bool} {groups : List (List α)} {i : Nat}
    {group : List α} (hgroup : groups[i]? = some group) (hown : ∀ x ∈ group, test x = true)
    (hother : ∀ j other, j ≠ i → groups[j]? = some other → ∀ x ∈ other, test x = false) :
    groups.flatten.filter test = group := by
  induction groups generalizing i with
  | nil => simp at hgroup
  | cons first rest ih =>
    rw [List.flatten_cons, List.filter_append]
    cases i with
    | zero =>
      obtain rfl : first = group := by simpa using hgroup
      have hnone : rest.flatten.filter test = [] := by
        refine List.filter_eq_nil_iff.mpr fun x hx => ?_
        obtain ⟨other, hmem, hx⟩ := List.mem_flatten.mp hx
        obtain ⟨j, hj⟩ := List.mem_iff_getElem?.mp hmem
        simp [hother (j + 1) other (by omega) hj x hx]
      rw [List.filter_eq_self.mpr hown, hnone, List.append_nil]
    | succ i =>
      have hnone : first.filter test = [] := by
        refine List.filter_eq_nil_iff.mpr fun x hx => ?_
        simp [hother 0 first (by omega) rfl x hx]
      rw [hnone, List.nil_append]
      exact ih hgroup fun j other hne hj => hother (j + 1) other (by omega) hj

/-- What writes the array of an identifier are the statements of the identifier. -/
theorem Assembled.filter_statements {copies : List Statement} {written : List (List Statement)}
    (h : m.Assembled p copies written) {i : Nat} {ss : List Statement} (hss : written[i]? = some ss) :
    m.statements.filter (·.array == p.arrayOfIdentifier i) = ss := by
  have hcopies : copies.filter (·.array == p.arrayOfIdentifier i) = [] := by
    refine List.filter_eq_nil_iff.mpr fun s hs => ?_
    have hbelow := h.below s hs
    simp only [Program.arrayOfIdentifier, beq_iff_eq]
    omega
  rw [h.statements, List.filter_append, hcopies, List.nil_append]
  refine filter_flatten_eq hss (fun s hs => beq_iff_eq.mpr (h.home hss s hs)) ?_
  intro j other hne hj s hs
  rw [h.home hj s hs]
  simpa [Program.arrayOfIdentifier] using hne

/-- The domains of any two patterns of an identifier have been found to have no point in common. -/
theorem Assembled.exists_domains {copies : List Statement} {written : List (List Statement)}
    (h : m.Assembled p copies written) {i : Nat} {id : Identifier} (hid : p.identifiers[i]? = some id)
    {array : DataArray} (harray : p.identifierArray id i = .ok array) {k l : Nat} {first second : Pattern}
    (hkl : k < l) (hfirst : id.patterns[k]? = some first) (hsecond : id.patterns[l]? = some second) :
    first.indices.length = array.rank ∧ second.indices.length = array.rank ∧ ∃ s t : PointSet,
      Program.patternDomain array (Program.statementName id k) first = .ok s ∧
      Program.patternDomain array (Program.statementName id l) second = .ok t ∧
      (t.intersect s).isIntegerEmpty = true := by
  obtain ⟨array', ss, hmade, hhome, hss, hstates⟩ := h.exists_written hid
  obtain rfl := Except.ok.inj (harray.symm.trans hmade)
  obtain ⟨st, hst, hstate⟩ := Outcome.getElem?_of_forall₂ hstates (i := k) (x := (first, k)) (by simp [hfirst])
  obtain ⟨st', hst', hstate'⟩ := Outcome.getElem?_of_forall₂ hstates (i := l) (x := (second, l))
    (by simp [hsecond])
  refine ⟨hstate.rank, hstate'.rank, st.domain, st'.domain, hstate.domain, hstate'.domain, ?_⟩
  have hpairwise := pairwise_of_checkOverlaps h.unshared (List.getElem?_eq_some_iff.mp hhome).1
  rw [h.filter_statements hss, List.pairwise_iff_getElem] at hpairwise
  obtain ⟨hk, rfl⟩ := List.getElem?_eq_some_iff.mp hst
  obtain ⟨hl, rfl⟩ := List.getElem?_eq_some_iff.mp hst'
  exact hpairwise k l hk hl hkl

theorem stems_of_build (h : (build p).execute.1 = .ok m) : ∀ s ∈ m.statements, s.Stems p m := by
  obtain ⟨copies, written, hassembled⟩ := assembled_of_build h
  exact hassembled.stems

end Model

end StreamLoom
