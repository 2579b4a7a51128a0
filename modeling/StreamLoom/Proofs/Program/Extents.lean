import StreamLoom.Model.Build
import StreamLoom.Program.Read
import StreamLoom.Proofs.Outcome
import StreamLoom.Proofs.Program.Declarations

/-!
# Extents of declarations

An array of a program that was read has at most one infinite dimension, and a positive size in every other
one. The extents are checked where they are declared, and nothing that reading does afterwards changes them.
None of this depends on the arithmetic.
-/

namespace StreamLoom

def Extent.Single (extents : List Extent) : Prop :=
  ∀ i j : Nat, extents[i]? = some none → extents[j]? = some none → i = j

def Extent.Positive (extents : List Extent) : Prop := ∀ size, some size ∈ extents → 0 < size

/-- A property of all extents that a declaration can have: those that it lists, and those that it implies
where it lists none. -/
structure Extent.Declarable (P : List Extent → Prop) : Prop where
  listed : ∀ {file : SourceFile} {terms : List Term} {found : List Extent},
    Draft.extents file false terms = .ok found → P found
  scalar : P []
  stream : P [none]

structure Program.Declares (P : List Extent → Prop) (p : Program) : Prop where
  inputs : ∀ input ∈ p.inputs, P input.extents
  identifiers : ∀ id ∈ p.identifiers, P id.extents

namespace Draft

private theorem extents_single {file : SourceFile} {terms : List Term} {infinite : Bool}
    {found : List Extent} (h : extents file infinite terms = .ok found) :
    Extent.Single found ∧ (infinite = true → none ∉ found) := by
  induction terms generalizing infinite found with
  | nil =>
    cases h
    exact ⟨by intro i j hi; simp at hi, by simp⟩
  | cons t rest ih =>
    rw [extents] at h
    split at h
    · split at h
      · cases h
      · rename_i hfirst
        obtain ⟨others, hothers, rfl⟩ := Outcome.map_eq_ok h
        obtain ⟨-, hnone⟩ := ih hothers
        refine ⟨?_, fun hinfinite => absurd hinfinite hfirst⟩
        -- The rest lists no infinite extent, so that the first one is the only one.
        intro i j hi hj
        cases i with
        | succ i =>
          rw [List.getElem?_cons_succ] at hi
          exact absurd (List.mem_of_getElem? hi) (hnone rfl)
        | zero =>
          cases j with
          | zero => rfl
          | succ j =>
            rw [List.getElem?_cons_succ] at hj
            exact absurd (List.mem_of_getElem? hj) (hnone rfl)
    · split at h
      · split at h
        · obtain ⟨others, hothers, rfl⟩ := Outcome.map_eq_ok h
          obtain ⟨hsingle, hnone⟩ := ih hothers
          refine ⟨?_, fun hinfinite => by simpa using hnone hinfinite⟩
          intro i j hi hj
          cases i with
          | zero => cases hi
          | succ i =>
            cases j with
            | zero => cases hj
            | succ j => rw [hsingle i j hi hj]
        · cases h
      · cases h

private theorem extents_positive {file : SourceFile} {terms : List Term} {infinite : Bool}
    {found : List Extent} (h : extents file infinite terms = .ok found) : Extent.Positive found := by
  induction terms generalizing infinite found with
  | nil =>
    cases h
    intro size hsize
    cases hsize
  | cons t rest ih =>
    rw [extents] at h
    split at h
    · split at h
      · cases h
      · obtain ⟨others, hothers, rfl⟩ := Outcome.map_eq_ok h
        intro size hsize
        exact ih hothers size (List.mem_of_ne_of_mem (Option.some_ne_none size) hsize)
    · split at h
      · split at h
        · rename_i hpositive
          obtain ⟨others, hothers, rfl⟩ := Outcome.map_eq_ok h
          intro size hsize
          cases hsize with
          | head => exact hpositive
          | tail _ hsize => exact ih hothers size hsize
        · cases h
      · cases h

theorem declarable_single : Extent.Declarable Extent.Single := by
  refine ⟨fun h => (extents_single h).1, fun i j hi => ?_, fun i j hi hj => ?_⟩
  · cases hi
  · have hi' := (List.getElem?_eq_some_iff.mp hi).1
    have hj' := (List.getElem?_eq_some_iff.mp hj).1
    simp only [List.length_singleton] at hi' hj'
    omega

theorem declarable_positive : Extent.Declarable Extent.Positive := by
  refine ⟨extents_positive, fun size hsize => ?_, fun size hsize => ?_⟩
  · cases hsize
  · cases List.mem_singleton.mp hsize

theorem Declaration.declarable {P : List Extent → Prop} (hP : Extent.Declarable P) {p : Program}
    {file : SourceFile} {elements : List Term} {name : String} {found : List Extent}
    (h : Declaration p file elements name found) : P found := by
  rcases h.extents with rfl | ⟨terms, hfound⟩
  · exact hP.scalar
  · exact hP.listed hfound

theorem lasting_declares {P : List Extent → Prop} (hP : Extent.Declarable P) :
    Program.Lasting (·.Declares P) where
  version _ hp := ⟨hp.inputs, hp.identifiers⟩
  input hp h _ := by
    refine ⟨fun other hother => ?_, hp.identifiers⟩
    rcases List.mem_append.mp hother with hother | hother
    · exact hp.inputs other hother
    · obtain rfl := List.mem_singleton.mp hother
      exact h.declarable hP
  identifier hp h := by
    refine ⟨hp.inputs, fun other hother => ?_⟩
    rcases List.mem_append.mp hother with hother | hother
    · exact hp.identifiers other hother
    · obtain rfl := List.mem_singleton.mp hother
      exact h.declarable hP

end Draft

namespace Program

private theorem extents_of_mem_zipWith {β : Type} {f : Identifier → β → Identifier}
    (hf : ∀ id b, (f id b).extents = id.extents) {ids : List Identifier} {bs : List β}
    {id : Identifier} (hid : id ∈ List.zipWith f ids bs) : ∃ id' ∈ ids, id.extents = id'.extents := by
  rw [← List.map_uncurry_zip_eq_zipWith] at hid
  obtain ⟨⟨id', b⟩, hmem, rfl⟩ := List.mem_map.mp hid
  exact ⟨id', (List.of_mem_zip hmem).1, hf id' b⟩

section

variable {P : List Extent → Prop} {p q : Program}

private theorem declares_withBodies [Arithmetic] (hp : p.Declares P) (definitions : List Definition) :
    (p.withBodies definitions).1.Declares P := by
  refine ⟨hp.inputs, fun id hid => ?_⟩
  simp only [withBodies] at hid
  obtain ⟨id', hid', hextents⟩ := extents_of_mem_zipWith (by intros; rfl) hid
  rw [hextents]
  exact hp.identifiers id' hid'

private theorem declares_withOutput (hp : p.Declares P) (output : Option (Origin × String)) :
    (p.withOutput output).1.Declares P := by
  unfold withOutput
  split
  · exact hp
  · split
    · exact ⟨hp.inputs, hp.identifiers⟩
    · exact hp

private theorem declares_infer (hp : p.Declares P) (h : Typing.infer p = .ok q) : q.Declares P := by
  obtain ⟨types, -, h⟩ := Outcome.bind_eq_ok h
  dsimp only at h
  split at h
  · cases h
    refine ⟨hp.inputs, fun id hid => ?_⟩
    obtain ⟨id', hid', hextents⟩ := extents_of_mem_zipWith (by intros; rfl) hid
    rw [hextents]
    exact hp.identifiers id' hid'
  · cases h

/-- The arrays and inputs of a program that was read have the extents of their declarations. -/
theorem declares_of_read [Arithmetic] (hP : Extent.Declarable P) {library : Library} {files : List SourceFile}
    (h : (read library files).result = .ok p) : p.Declares P := by
  obtain ⟨draft, hdraft⟩ : ∃ draft, draft = (Draft.declareAll library files {}).2 := ⟨_, rfl⟩
  have hdeclares : draft.program.Declares P := by
    rw [hdraft]
    exact Draft.keeps_declareAll (Draft.lasting_declares hP) files {} ⟨by simp, by simp⟩
  have hresult : (read library files).result = complete draft := by
    rw [hdraft]
    rfl
  rw [hresult] at h
  unfold complete at h
  split at h
  · cases h
  · dsimp only at h
    split at h
    · exact declares_infer (declares_withOutput (declares_withBodies hdeclares _) _) h
    · cases h

/-- Every array of a program that was read has at most one infinite dimension. -/
theorem single_of_read [Arithmetic] {library : Library} {files : List SourceFile}
    (h : (read library files).result = .ok p) : p.Declares Extent.Single :=
  declares_of_read Draft.declarable_single h

private theorem extents_identifierArray (hP : Extent.Declarable P) {id : Identifier} (hid : P id.extents)
    {number : Nat} {array : DataArray} (h : p.identifierArray id number = .ok array) : P array.extents := by
  unfold identifierArray at h
  dsimp only at h
  split at h
  · cases h
    exact hid
  · cases h
    exact hP.scalar
  · cases h
    exact hP.stream
  · cases h

/-- So have the arrays of a model that is built from it. -/
theorem extents_of_build [Arithmetic] (hP : Extent.Declarable P) (hp : p.Declares P) {m : Model}
    (h : (Model.build p).execute.1 = .ok m) : ∀ array ∈ m.arrays, P array.extents := by
  have hyields := Stage.yields_of_execute h
  simp only [Model.build] at hyields
  obtain ⟨_, -, hyields⟩ := Stage.yields_bind hyields
  obtain ⟨others, hothers, hyields⟩ := Stage.yields_bind hyields
  obtain ⟨written, -, hyields⟩ := Stage.yields_bind hyields
  obtain ⟨_, -, hyields⟩ := Stage.yields_bind hyields
  obtain ⟨_, -, hyields⟩ := Stage.yields_bind hyields
  obtain rfl := Stage.yields_pure hyields
  intro array harray
  rcases List.mem_append.mp harray with harray | harray
  · obtain ⟨⟨input, number⟩, hinput, rfl⟩ := List.mem_map.mp harray
    have hmem := List.mem_of_mem_filter hinput
    exact hp.inputs input (List.fst_mem_of_mem_zipIdx hmem)
  · have hforall := Outcome.forall₂_of_mapM (Stage.yields_ofExcept hothers)
    obtain ⟨⟨id, number⟩, hid, hnumbered⟩ := Outcome.exists_of_forall₂ hforall harray
    exact extents_identifierArray hP (hp.identifiers id (List.fst_mem_of_mem_zipIdx hid)) hnumbered

end

end Program

theorem Model.single_of_build [Arithmetic] {p : Program} (hp : p.Declares Extent.Single) {m : Model}
    (h : (Model.build p).execute.1 = .ok m) : ∀ array ∈ m.arrays, Extent.Single array.extents :=
  Program.extents_of_build Draft.declarable_single hp h

/-- All dimensions but the flow are finite. -/
theorem DataArray.exists_extent (array : DataArray) (hsingle : Extent.Single array.extents) {d : Nat}
    (hd : d < array.rank) (hne : array.flow ≠ some d) : ∃ size, array.extents[d]? = some (some size) := by
  have hget : array.extents[d]? = some (array.extents.get ⟨d, hd⟩) := List.getElem?_eq_getElem hd
  cases hextent : array.extents.get ⟨d, hd⟩ with
  | some size => exact ⟨size, hget.trans (congrArg some hextent)⟩
  | none =>
    have hnone : array.extents[d]? = some none := hget.trans (congrArg some hextent)
    cases hflow : array.flow with
    | none => exact absurd hflow (flow_ne_none hnone)
    | some flow =>
      rw [hflow, hsingle flow d (extent_of_flow hflow) hnone] at hne
      exact absurd rfl hne

end StreamLoom
