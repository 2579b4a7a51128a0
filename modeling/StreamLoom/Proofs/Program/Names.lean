import StreamLoom.Proofs.Compilation.Stages
import StreamLoom.Proofs.Model.Build
import StreamLoom.Proofs.Program.Declarations
import StreamLoom.Proofs.Program.Inference
import StreamLoom.Proofs.Storage.Buffers

/-!
# Names of declarations

No two declarations of a program that was read have the same name, and all of them have a type. Both also
hold of the arrays of its model, each of which takes its name and its type from a declaration.
-/

namespace StreamLoom

namespace Program

open Typing (inferred_of_infer)

def names (p : Program) : List String := p.inputs.map (·.name) ++ p.identifiers.map (·.name)

/-- All names are different, and the types of inputs are known. -/
structure Named (p : Program) : Prop where
  nodup : p.names.Nodup
  typed : ∀ input ∈ p.inputs, input.type ≠ .unknown

variable {p q : Program} {name : String}

theorem mem_names_iff : name ∈ p.names ↔ p.Knows name := by
  rw [knows_iff, names, List.mem_append, List.mem_map, List.mem_map]
  exact or_comm

/-- Whatever is declared has a name that is new. -/
theorem lasting_named : Lasting Named where
  version _ hp := ⟨hp.nodup, hp.typed⟩
  input {p file elements input} hp h htype := by
    have hfresh : input.name ∉ p.names := fun hname => h.fresh (mem_names_iff.mp hname)
    refine ⟨?_, fun other hother => ?_⟩
    · have hperm : ((p.inputs ++ [input]).map (·.name) ++ p.identifiers.map (·.name)).Perm
          (input.name :: p.names) := by
        rw [List.map_append, List.append_assoc]
        exact List.perm_middle
      exact hperm.nodup_iff.mpr (List.nodup_cons.mpr ⟨hfresh, hp.nodup⟩)
    · rcases List.mem_append.mp hother with hother | hother
      · exact hp.typed other hother
      · obtain rfl := List.mem_singleton.mp hother
        exact htype
  identifier {p file elements id} hp h := by
    have hfresh : id.name ∉ p.names := fun hname => h.fresh (mem_names_iff.mp hname)
    refine ⟨?_, hp.typed⟩
    have hperm : (p.inputs.map (·.name) ++ (p.identifiers ++ [id]).map (·.name)).Perm
        (id.name :: p.names) := by
      rw [List.map_append, ← List.append_assoc]
      exact List.perm_append_singleton _ _
    exact hperm.nodup_iff.mpr (List.nodup_cons.mpr ⟨hfresh, hp.nodup⟩)

theorem Named.sublist (hp : p.Named) (hinputs : q.inputs = p.inputs)
    (hnames : (q.identifiers.map (·.name)).Sublist (p.identifiers.map (·.name))) : q.Named := by
  refine ⟨hp.nodup.sublist ?_, by rw [hinputs]; exact hp.typed⟩
  rw [names, hinputs]
  exact (List.Sublist.refl _).append hnames

section

variable [Arithmetic] {library : Library} {files : List SourceFile}

omit [Arithmetic] in
private theorem names_zipWith {β : Type} {f : Identifier → β → Identifier}
    (hf : ∀ id b, (f id b).name = id.name) (ids : List Identifier) (bs : List β) :
    ((List.zipWith f ids bs).map (·.name)).Sublist (ids.map (·.name)) := by
  induction ids generalizing bs with
  | nil => exact List.Sublist.refl _
  | cons id ids ih =>
    cases bs with
    | nil => exact List.nil_sublist _
    | cons b bs =>
      rw [List.zipWith_cons_cons, List.map_cons, List.map_cons, hf]
      exact (ih bs).cons_cons _

private theorem named_untyped {d : Draft} (hd : d.program.Named) : (untyped d).Named := by
  have hbodies : ((d.program.withBodies d.definitions).1).Named := by
    refine hd.sublist rfl ?_
    apply names_zipWith
    intro id body
    rfl
  unfold untyped withOutput
  split
  · exact hbodies
  · split
    · exact ⟨hbodies.nodup, hbodies.typed⟩
    · exact hbodies

/-- The names of a program that was read are different, and so its arrays are told apart. -/
theorem named_of_read (h : (read library files).result = .ok p) :
    p.Named ∧ ∀ id ∈ p.identifiers, id.type ≠ .unknown := by
  have hdraft : (draftOf library files).program.Named :=
    Draft.keeps_declareAll lasting_named files {} ⟨List.nodup_nil, by simp⟩
  have hinferred := inferred_of_infer (infer_of_read h)
  constructor
  · have hsame : (untyped (draftOf library files)).identifiers.map (·.name) = p.identifiers.map (·.name) := by
      rw [← List.forall₂_eq_eq_eq, List.forall₂_map_left_iff, List.forall₂_map_right_iff]
      exact hinferred.retyped.imp fun id id' h => by rw [h.1]
    exact (named_untyped hdraft).sublist (by rw [hinferred.others]) (hsame ▸ List.Sublist.refl _)
  · intro id hid
    obtain ⟨_, -, -, htype, -⟩ := Outcome.exists_of_forall₂ hinferred.retyped hid
    exact htype

/-! ### Arrays -/

omit [Arithmetic] in
private theorem names_streams : ((p.streams.map fun (i, number) => inputArray i number).map (·.name)).Sublist
    (p.inputs.map (·.name)) := by
  have hstreams : (p.streams.map Prod.fst).Sublist p.inputs := by
    have hsublist := (List.filter_sublist (l := p.inputs.zipIdx) (p := (·.1.isStream))).map Prod.fst
    rwa [List.zipIdx_map_fst] at hsublist
  have hnames := hstreams.map (·.name)
  rwa [List.map_map] at hnames ⊢

omit [Arithmetic] in
private theorem eq_identifierArray {id : Identifier} {number : Nat} {array : DataArray}
    (h : p.identifierArray id number = .ok array) : array.name = id.name ∧ array.type = id.type := by
  unfold identifierArray at h
  dsimp only at h
  split at h
  · cases h
    exact ⟨rfl, rfl⟩
  · cases h
    exact ⟨rfl, rfl⟩
  · cases h
    exact ⟨rfl, rfl⟩
  · cases h

end

end Program

namespace Model

variable [Arithmetic] {p : Program} {m : Model}

/-- The arrays of a model have different names and known types. -/
structure Named (m : Model) : Prop where
  nodup : (m.arrays.map (·.name)).Nodup
  typed : ∀ array ∈ m.arrays, array.type ≠ .unknown

theorem named_of_build (hp : p.Named) (htyped : ∀ id ∈ p.identifiers, id.type ≠ .unknown)
    (h : (build p).execute.1 = .ok m) : m.Named := by
  obtain ⟨copies, written, hassembled⟩ := assembled_of_build h
  obtain ⟨declared, hdeclared, harrays⟩ := hassembled.arrays
  have hforall := Outcome.forall₂_of_mapM hdeclared
  constructor
  · have hsame : p.identifiers.map (·.name) = declared.map (·.name) := by
      rw [← List.zipIdx_map_fst 0 p.identifiers, List.map_map, ← List.forall₂_eq_eq_eq,
        List.forall₂_map_left_iff, List.forall₂_map_right_iff]
      exact hforall.imp fun entry array h => (Program.eq_identifierArray h).1.symm
    rw [harrays, List.map_append, ← hsame]
    exact hp.nodup.sublist (Program.names_streams.append (List.Sublist.refl _))
  · intro array harray
    rw [harrays] at harray
    rcases List.mem_append.mp harray with harray | harray
    · obtain ⟨⟨input, number⟩, hinput, rfl⟩ := List.mem_map.mp harray
      exact hp.typed input (List.fst_mem_of_mem_zipIdx (List.mem_of_mem_filter hinput))
    · obtain ⟨⟨id, number⟩, hid, hnumbered⟩ := Outcome.exists_of_forall₂ hforall harray
      rw [(Program.eq_identifierArray hnumbered).2]
      exact htyped id (List.fst_mem_of_mem_zipIdx hid)

theorem Named.allocate {s : Schedule} {a : Allocation} (hm : m.Named)
    (ha : (Allocation.allocate m s).execute.1 = .ok a) : a.model.Named := by
  have hforall := Allocation.forall₂_arrays ha
  constructor
  · have hsame : m.arrays.map (·.name) = a.model.arrays.map (·.name) := by
      rw [← List.forall₂_eq_eq_eq, List.forall₂_map_left_iff, List.forall₂_map_right_iff]
      exact hforall.imp fun array array' ⟨_, h⟩ => by rw [h]
    rw [← hsame]
    exact hm.nodup
  · intro array harray
    obtain ⟨array', harray', _, rfl⟩ := Outcome.exists_of_forall₂ hforall harray
    exact hm.typed array' harray'

/-! ### Arrays by name -/

/-- The number of the first array with a name. -/
def lookup? (m : Model) (name : String) : Option Nat := m.arrays.findIdx? (·.name == name)

omit [Arithmetic] in
theorem Named.lookup?_name (hm : m.Named) {number : Nat} {array : DataArray}
    (harray : m.arrays[number]? = some array) : m.lookup? array.name = some number := by
  obtain ⟨hlt, rfl⟩ := List.getElem?_eq_some_iff.mp harray
  refine List.findIdx?_eq_some_iff_getElem.mpr ⟨hlt, by simp, fun earlier hearlier => ?_⟩
  have hne := List.pairwise_iff_getElem.mp hm.nodup earlier number (by simpa using hearlier.trans hlt)
    (by simpa using hlt) hearlier
  simpa using hne

end Model

theorem Compilation.Staged.named [Arithmetic] {config : Config} {library : Library} {files : List SourceFile}
    {m : Model} {c : Compilation} (hc : c.Staged config library files m) : c.model.Named := by
  obtain ⟨hp, htyped⟩ := Program.named_of_read hc.read
  exact (Model.named_of_build hp htyped hc.build).allocate hc.allocate

/-! ### Reads -/

namespace Model

attribute [local instance] Arithmetic.exact

/-- The array that a read has the number of is the one that its relation names. -/
theorem lookup?_read {library : Library} {files : List SourceFile} {p : Program} {m : Model}
    (hread : (Program.read library files).result = .ok p) (h : (build p).execute.1 = .ok m) {s : Statement}
    (hs : s ∈ m.statements) {r : Read} (hr : r ∈ s.reads) : m.lookup? r.relation.target = some r.array := by
  obtain ⟨hp, htyped⟩ := Program.named_of_read hread
  obtain ⟨home, hhoused⟩ := (built_of_build h).housed s hs
  obtain ⟨f, array, pattern, -, harray, -, -, hrelation⟩ :=
    Computation.reads_of_modelled s.computation hhoused.modelled r hr
  rw [hrelation, Access.target_relate]
  exact (named_of_build hp htyped h).lookup?_name harray

end Model

end StreamLoom
