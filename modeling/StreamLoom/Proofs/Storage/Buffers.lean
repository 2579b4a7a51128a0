import StreamLoom.Proofs.Outcome
import StreamLoom.Storage.Allocation

/-!
# Allocated arrays

Allocation gives every array of a model its buffer and changes nothing else. The buffer answers to each
dependency on the array: it has the slices that the dependency requires, and it outlives a period when the
dependency crosses one. None of this depends on the arithmetic.
-/

namespace StreamLoom

namespace Allocation

variable [Arithmetic] {m : Model} {s : Schedule} {a : Allocation} {number : Nat} {array : DataArray}

private theorem dependency_of_join {d : Dependency} {writers : List Instance} {carrier : Nat}
    {x y : Instance} {r r' : Requirement} (h : Requirement.join m d writers carrier x y r = .ok r') :
    r'.dependency = r.dependency := by
  simp only [Requirement.join] at h
  split at h
  · cases h
    rfl
  split at h
  · cases h
  split at h <;>
    · obtain ⟨_, -, h⟩ := Outcome.bind_eq_ok h
      obtain ⟨_, -, h⟩ := Outcome.bind_eq_ok h
      cases h
      rfl

private theorem dependency_of_require {d : Dependency} {r : Requirement} (h : require m s d = .ok r) :
    r.dependency = d := by
  unfold require Requirement.ofDependency at h
  dsimp only at h
  split at h
  · cases h
    rfl
  · refine Outcome.foldlM_induction (P := fun r : Requirement => r.dependency = d) ?_ rfl h
    rintro ⟨x, y⟩ - r r' hr hjoin
    rw [dependency_of_join hjoin, hr]

omit [Arithmetic] in
private theorem le_foldl_max (rs : List Requirement) (n : Int) :
    n ≤ rs.foldl (fun n r => max n r.slices) n ∧
      ∀ r ∈ rs, r.slices ≤ rs.foldl (fun n r => max n r.slices) n := by
  induction rs generalizing n with
  | nil => simp
  | cons r rs ih =>
    obtain ⟨hfirst, hrest⟩ := ih (max n r.slices)
    rw [List.foldl_cons]
    refine ⟨by omega, fun r' hr' => ?_⟩
    rcases List.mem_cons.mp hr' with rfl | hr'
    · omega
    · exact hrest r' hr'

private theorem arrays_of_allocate (ha : (allocate m s).execute.1 = .ok a) :
    ∃ requirements : List Requirement,
      List.Forall₂ (fun d r => require m s d = .ok r) m.dependencies requirements ∧
      a.model.arrays = (m.arrays.zipIdx).map fun (array, i) =>
        let own := requirements.filter (·.dependency.array == i)
        { array with
          buffer := buffer m s array i (own.foldl (fun n r => max n r.slices) 1)
            (own.any fun r => Requirement.crossesPeriod s r.dependency) } := by
  have hyields := Stage.yields_of_execute ha
  simp only [allocate] at hyields
  obtain ⟨requirements, hrequirements, hyields⟩ := Stage.yields_bind hyields
  obtain ⟨_, -, hyields⟩ := Stage.yields_bind hyields
  obtain rfl := Stage.yields_pure hyields
  refine ⟨requirements, (Stage.yields_mapM hrequirements).imp fun d r hstage => ?_, rfl⟩
  obtain ⟨r', hr', hstage⟩ := Stage.yields_bind hstage
  obtain ⟨_, -, hstage⟩ := Stage.yields_bind hstage
  obtain rfl := Stage.yields_pure hstage
  exact Stage.yields_ofExcept hr'

/-- Everything but the buffers of arrays is kept. -/
theorem forall₂_arrays (ha : (allocate m s).execute.1 = .ok a) :
    List.Forall₂ (fun array array' => ∃ buffer, array' = { array with buffer }) m.arrays a.model.arrays := by
  obtain ⟨_, -, harrays⟩ := arrays_of_allocate ha
  rw [harrays, List.forall₂_map_right_iff, List.forall₂_iff_get]
  refine ⟨List.length_zipIdx.symm, fun i hi hi' => ?_⟩
  simp

theorem statements_eq (ha : (allocate m s).execute.1 = .ok a) : a.model.statements = m.statements := by
  obtain ⟨_, -, hyields⟩ := Stage.yields_bind (Stage.yields_of_execute ha)
  obtain ⟨_, -, hyields⟩ := Stage.yields_bind hyields
  rw [← Stage.yields_pure hyields]

theorem inputs_eq (ha : (allocate m s).execute.1 = .ok a) : a.model.inputs = m.inputs := by
  obtain ⟨_, -, hyields⟩ := Stage.yields_bind (Stage.yields_of_execute ha)
  obtain ⟨_, -, hyields⟩ := Stage.yields_bind hyields
  rw [← Stage.yields_pure hyields]

theorem exists_array (ha : (allocate m s).execute.1 = .ok a)
    (hallocated : a.model.arrays[number]? = some array) : ∃ array', m.arrays[number]? = some array' := by
  obtain ⟨_, -, harrays⟩ := arrays_of_allocate ha
  have hlt := (List.getElem?_eq_some_iff.mp hallocated).1
  rw [harrays, List.length_map, List.length_zipIdx] at hlt
  exact ⟨_, List.getElem?_eq_getElem hlt⟩

/-- The buffer of an array has the slices that each of its dependencies requires, and unless it outlives
a period, none of them crosses one. -/
theorem exists_buffer (ha : (allocate m s).execute.1 = .ok a) (harray : m.arrays[number]? = some array) :
    ∃ slices outlives, 1 ≤ slices ∧
      a.model.arrays[number]? = some { array with buffer := buffer m s array number slices outlives } ∧
      ∀ d ∈ m.dependencies, d.array = number →
        (∃ r, require m s d = .ok r ∧ r.slices ≤ slices) ∧
        (outlives = false → Requirement.crossesPeriod s d = false) := by
  obtain ⟨requirements, hrequirements, harrays⟩ := arrays_of_allocate ha
  let own := requirements.filter (·.dependency.array == number)
  refine ⟨own.foldl (fun n r => max n r.slices) 1,
    own.any fun r => Requirement.crossesPeriod s r.dependency, (le_foldl_max own 1).1, ?_, ?_⟩
  · rw [harrays, List.getElem?_map, List.getElem?_zipIdx, harray]
    simp only [Option.map_some, Nat.zero_add]
    rfl
  · intro d hd hnumber
    obtain ⟨k, hk⟩ := List.getElem?_of_mem hd
    obtain ⟨r, hr, hrequire⟩ := Outcome.getElem?_of_forall₂ hrequirements hk
    have hdependency := dependency_of_require hrequire
    have hown : r ∈ own := by
      refine List.mem_filter.mpr ⟨List.mem_of_getElem? hr, ?_⟩
      rw [hdependency, hnumber]
      simp
    refine ⟨⟨r, hrequire, (le_foldl_max own 1).2 r hown⟩, fun hinside => ?_⟩
    rw [← hdependency, ← Bool.not_eq_true]
    exact List.any_eq_false.mp hinside r hown

end Allocation

end StreamLoom
