import Mathlib.Data.List.Nodup
import Mathlib.Data.Set.Function
import StreamLoom.Cpp.Generation
import StreamLoom.Proofs.Compilation.Stages
import StreamLoom.Proofs.Cpp.Drafting
import StreamLoom.Proofs.Program.Names

/-!
# Members of the state

The state of a generated program has a member for the buffer of each array, one for the phase of each array
whose buffer turns, and one for the number of periods. Their names come from those of the arrays, which are
different; but characters that cannot be part of a name are replaced, and different names may become the same
one. The members are told apart exactly as far as this does not happen.
-/

namespace StreamLoom.Cpp

open Fragment (text int)

/-! ### Identifiers -/

def nameCharacter (c : Char) : Char := if isNameCharacter c then c else '_'

theorem toList_identifier (name : String) : (identifier name).toList = name.toList.map nameCharacter :=
  String.toList_ofList

/-- Two names become the same identifier if they differ only in characters that cannot be part of one. -/
theorem identifier_eq_iff {s t : String} : identifier s = identifier t ↔
    List.Forall₂ (fun c c' => nameCharacter c = nameCharacter c') s.toList t.toList := by
  rw [← String.toList_inj, toList_identifier, toList_identifier, ← List.forall₂_eq_eq_eq,
    List.forall₂_map_left_iff, List.forall₂_map_right_iff]

theorem identifier_eq_self {name : String} (h : ∀ c ∈ name.toList, isNameCharacter c = true) :
    identifier name = name := by
  have hsame : ∀ c ∈ name.toList, nameCharacter c = c := fun c hc => if_pos (h c hc)
  rw [← String.toList_inj, toList_identifier, List.map_congr_left hsame, List.map_id']

theorem injOn_identifier {names : Set String} (h : ∀ name ∈ names, ∀ c ∈ name.toList, isNameCharacter c = true) :
    Set.InjOn identifier names := by
  intro s hs t ht hsame
  rwa [identifier_eq_self (h s hs), identifier_eq_self (h t ht)] at hsame

/-! ### Members -/

inductive Member where
  | buffer (array : DataArray)
  | phase (array : DataArray)
  /-- The number of periods that have been completed. -/
  | period

namespace Member

def name : Member → String
  | buffer array => bufferName array
  | phase array => phaseName array
  | period => "period"

/-- Two members whose names are told apart by nothing. -/
def Alike : Member → Member → Prop
  | buffer a, buffer b | phase a, phase b => identifier a.name = identifier b.name
  | period, period => True
  | _, _ => False

private theorem buffer_ne_phase (a b : DataArray) : bufferName a ≠ phaseName b := by
  intro h
  have hhead := congrArg (·.toList.head?) h
  simp [bufferName, phaseName] at hhead

private theorem buffer_ne_period (a : DataArray) : bufferName a ≠ "period" := by
  intro h
  have hhead := congrArg (·.toList.head?) h
  simp [bufferName] at hhead

private theorem phase_ne_period (a : DataArray) : phaseName a ≠ "period" := by
  intro h
  -- The names begin with the same character.
  have hsecond := congrArg (·.toList[1]?) h
  simp [phaseName] at hsecond

theorem name_eq_iff {x y : Member} : x.name = y.name ↔ x.Alike y := by
  cases x with
  | buffer a =>
    cases y with
    | buffer b => exact String.append_right_inj _
    | phase b => exact iff_of_false (buffer_ne_phase a b) id
    | period => exact iff_of_false (buffer_ne_period a) id
  | phase a =>
    cases y with
    | buffer b => exact iff_of_false (buffer_ne_phase b a).symm id
    | phase b => exact String.append_right_inj _
    | period => exact iff_of_false (phase_ne_period a) id
  | period =>
    cases y with
    | buffer b => exact iff_of_false (buffer_ne_period b).symm id
    | phase b => exact iff_of_false (phase_ne_period b).symm id
    | period => exact iff_of_true rfl trivial

inductive Declares [Arithmetic] : Member → Fragment → Prop
  | buffer {array : DataArray} {type : String} (h : typeName array.type = .ok type) :
      Declares (.buffer array)
        (.declare (text type) (.element (text (bufferName array)) (int array.buffer.length)) .missing)
  | phase (array : DataArray) :
      Declares (.phase array) (.declare (text "int64_t") (text (phaseName array)) .missing)
  | period : Declares .period (.declare (text "int64_t") (text "period") .missing)

end Member

def membersOf (array : DataArray) : List Member :=
  if array.buffer.period > 0 then [.buffer array, .phase array] else [.buffer array]

def members (model : Model) : List Member := model.arrays.flatMap membersOf ++ [.period]

section

variable {model : Model} {array other : DataArray} {x : Member}

theorem mem_membersOf : x ∈ membersOf array ↔ x = .buffer array ∨ 0 < array.buffer.period ∧ x = .phase array := by
  unfold membersOf
  split
  · rename_i hperiod
    simp [hperiod]
  · rename_i hperiod
    simp [hperiod]

@[simp] theorem buffer_mem_members : .buffer array ∈ members model ↔ array ∈ model.arrays := by
  simp [members, mem_membersOf]

@[simp] theorem phase_mem_members :
    .phase array ∈ members model ↔ array ∈ model.arrays ∧ 0 < array.buffer.period := by
  simp [members, mem_membersOf]

private theorem nodup_membersOf : (membersOf array).Nodup := by
  unfold membersOf
  split
  · simp
  · simp

theorem nodup_members (h : model.Named) : (members model).Nodup := by
  have hdifferent : model.arrays.Pairwise (Function.onFun List.Disjoint membersOf) := by
    refine (List.Nodup.of_map _ h.nodup).imp fun {a b} hne x hx hy => hne ?_
    rw [mem_membersOf] at hx hy
    rcases hx with rfl | ⟨-, rfl⟩
    · simpa using hy
    · obtain ⟨-, hsame⟩ : 0 < b.buffer.period ∧ a = b := by simpa using hy
      exact hsame
  have harrays : (model.arrays.flatMap membersOf).Nodup :=
    List.nodup_flatMap.mpr ⟨fun _ _ => nodup_membersOf, hdifferent⟩
  refine harrays.append (List.nodup_singleton _) fun x hx hperiod => ?_
  obtain rfl := List.mem_singleton.mp hperiod
  simp [mem_membersOf] at hx

theorem nodup_names_iff (h : model.Named) : ((members model).map Member.name).Nodup ↔
    Set.InjOn identifier {name | ∃ array ∈ model.arrays, array.name = name} := by
  rw [List.nodup_map_iff_inj_on (nodup_members h)]
  constructor
  · rintro hinj _ ⟨a, ha, rfl⟩ _ ⟨b, hb, rfl⟩ hsame
    have hbuffer : Member.buffer a = .buffer b := by
      apply hinj _ (buffer_mem_members.mpr ha) _ (buffer_mem_members.mpr hb)
      exact Member.name_eq_iff.mpr hsame
    rw [Member.buffer.inj hbuffer]
  · intro hinj x hx y hy hname
    have harrays : ∀ a ∈ model.arrays, ∀ b ∈ model.arrays, identifier a.name = identifier b.name → a = b := by
      intro a ha b hb hsame
      exact List.inj_on_of_nodup_map h.nodup ha hb (hinj ⟨a, ha, rfl⟩ ⟨b, hb, rfl⟩ hsame)
    have halike := Member.name_eq_iff.mp hname
    cases x with
    | buffer a =>
      cases y with
      | buffer b => rw [harrays a (buffer_mem_members.mp hx) b (buffer_mem_members.mp hy) halike]
      | phase b => exact halike.elim
      | period => exact halike.elim
    | phase a =>
      cases y with
      | buffer b => exact halike.elim
      | phase b => rw [harrays a (phase_mem_members.mp hx).1 b (phase_mem_members.mp hy).1 halike]
      | period => exact halike.elim
    | period =>
      cases y with
      | buffer b => exact halike.elim
      | phase b => exact halike.elim
      | period => rfl

/-- A name belongs to one member as soon as no other member has a name like it. -/
private theorem existsUnique_iff {y : Member} (hy : y ∈ members model) {P : Prop}
    (h : (∀ x ∈ members model, x.Alike y → x = y) ↔ P) :
    (∃! x, x ∈ members model ∧ x.name = y.name) ↔ P := by
  rw [← h]
  constructor
  · intro hunique x hx halike
    exact hunique.unique ⟨hx, Member.name_eq_iff.mpr halike⟩ ⟨hy, rfl⟩
  · intro halone
    exact ⟨y, ⟨hy, rfl⟩, fun x hx => halone x hx.1 (Member.name_eq_iff.mp hx.2)⟩

theorem existsUnique_buffer_iff (harray : array ∈ model.arrays) :
    (∃! x, x ∈ members model ∧ x.name = bufferName array) ↔
      ∀ other ∈ model.arrays, identifier other.name = identifier array.name → other = array := by
  apply existsUnique_iff (y := .buffer array) (buffer_mem_members.mpr harray)
  constructor
  · intro h other hother hsame
    exact Member.buffer.inj (h _ (buffer_mem_members.mpr hother) hsame)
  · intro h x hx halike
    cases x with
    | buffer other => rw [h other (buffer_mem_members.mp hx) halike]
    | phase other => exact halike.elim
    | period => exact halike.elim

theorem existsUnique_phase_iff (harray : array ∈ model.arrays) (hperiod : 0 < array.buffer.period) :
    (∃! x, x ∈ members model ∧ x.name = phaseName array) ↔ ∀ other ∈ model.arrays,
      0 < other.buffer.period → identifier other.name = identifier array.name → other = array := by
  apply existsUnique_iff (y := .phase array) (phase_mem_members.mpr ⟨harray, hperiod⟩)
  constructor
  · intro h other hother hturns hsame
    exact Member.phase.inj (h _ (phase_mem_members.mpr ⟨hother, hturns⟩) hsame)
  · intro h x hx halike
    cases x with
    | buffer other => exact halike.elim
    | phase other =>
      obtain ⟨hother, hturns⟩ := phase_mem_members.mp hx
      rw [h other hother hturns halike]
    | period => exact halike.elim

end

/-! ### Storage -/

section

variable {model : Model}

theorem gives_arrayAt {number : Nat} {array : DataArray} (h : model.arrays[number]? = some array) :
    Drafting.Gives (Lowering.arrayAt model number) array := by
  unfold Lowering.arrayAt
  rw [h]
  exact Drafting.gives_pure array

theorem gives_bufferElement {number : Nat} {array : DataArray} (h : model.arrays[number]? = some array)
    (offset : Fragment) : Drafting.Gives (bufferElement model number offset)
      (.element (ofState (bufferName array)) offset) :=
  (gives_arrayAt h).bind (Drafting.gives_pure _)

theorem gives_typeOf {τ : ValueType} (h : τ ≠ .unknown) :
    ∃ type, typeName τ = .ok type ∧ Drafting.Gives (typeOf τ) (text type) := by
  cases τ with
  | unknown => exact absurd rfl h
  | bool => exact ⟨"bool", rfl, Drafting.gives_pure _⟩
  | int => exact ⟨"int64_t", rfl, Drafting.gives_pure _⟩
  | real => exact ⟨"double", rfl, Drafting.gives_pure _⟩

variable [Arithmetic]

structure Accesses (model : Model) (number : Nat) (array : DataArray) : Prop where
  load : ∀ offset, Drafting.Gives ((target model).load number offset)
    (.element (ofState (bufferName array)) offset)
  store : ∀ offset v d, ((target model).store number offset v).from d = (.ok (),
    { d with statements := d.statements ++ [.assign (.element (ofState (bufferName array)) offset) v] })
  phase : Drafting.Gives ((target model).phase number) (ofState (phaseName array))

theorem accesses_of_getElem? {number : Nat} {array : DataArray} (h : model.arrays[number]? = some array) :
    Accesses model number array where
  load := gives_bufferElement h
  store offset _ d := Drafting.from_bind (gives_bufferElement h offset d)
  phase := (gives_arrayAt h).bind (Drafting.gives_pure _)

/-- The state declares its members one after another. -/
theorem exists_state (h : model.Named) : ∃ fields, Drafting.Gives (state model) (.struct "state" fields) ∧
    List.Forall₂ Member.Declares (members model) fields := by
  unfold state
  refine (Drafting.exists_gives_mapM
    (R := fun array fields => List.Forall₂ Member.Declares (membersOf array) fields) ?_).elim
      fun fields ⟨hfields, hdeclare⟩ => ⟨_, hfields.bind (Drafting.gives_pure _), ?_⟩
  · intro array harray
    obtain ⟨type, htype, hgives⟩ := gives_typeOf (h.typed array harray)
    refine ⟨_, hgives.bind (Drafting.gives_pure _), ?_⟩
    unfold membersOf
    split
    · exact .cons (.buffer htype) (.cons (.phase array) .nil)
    · exact .cons (.buffer htype) .nil
  · exact List.rel_append (List.rel_flatten (List.forall₂_map_left_iff.mpr hdeclare)) (.cons .period .nil)

end

/-- The state of a compiled program declares a member for everything that is accessed. The members are told
apart if and only if different names of arrays become different identifiers; in any case, an access refers to
the storage of exactly one array if and only if the name of no other array becomes the same identifier. -/
theorem members_distinct_iff [Arithmetic] {config : Config} {library : Library} {files : List SourceFile}
    {c : Compilation} (h : (Compilation.compile config library files).execute.1 = .ok c) :
    (∃ fields, Drafting.Gives (state c.model) (.struct "state" fields) ∧
      List.Forall₂ Member.Declares (members c.model) fields) ∧
    (((members c.model).map Member.name).Nodup ↔
      Set.InjOn identifier {name | ∃ array ∈ c.model.arrays, array.name = name}) ∧
    ∀ number array, c.model.arrays[number]? = some array → Accesses c.model number array ∧
      ((∃! x, x ∈ members c.model ∧ x.name = bufferName array) ↔ ∀ other ∈ c.model.arrays,
        identifier other.name = identifier array.name → other = array) ∧
      (0 < array.buffer.period → ((∃! x, x ∈ members c.model ∧ x.name = phaseName array) ↔
        ∀ other ∈ c.model.arrays, 0 < other.buffer.period →
          identifier other.name = identifier array.name → other = array)) := by
  obtain ⟨m, hc⟩ := Compilation.staged_of_compile h
  refine ⟨exists_state hc.named, nodup_names_iff hc.named, fun number array harray => ?_⟩
  have hmem : array ∈ c.model.arrays := List.mem_of_getElem? harray
  exact ⟨accesses_of_getElem? harray, existsUnique_buffer_iff hmem, existsUnique_phase_iff hmem⟩

attribute [local instance] Arithmetic.word64

/-- Two arrays whose names are no identifiers, and become different ones. -/
def hyphenated : List SourceFile :=
  [⟨"", "(array a-b int [inf] (pattern [i] i)) (define a-c 2)".toList⟩]

theorem members_distinct_hyphenated : ∃ c fields,
    (Compilation.compile {} ⟨⟨"", []⟩, []⟩ hyphenated).execute.1 = .ok c ∧
    Drafting.Gives (state c.model) (.struct "state" fields) ∧
    List.Forall₂ Member.Declares (members c.model) fields ∧
    (members c.model).map Member.name = ["buf_a_b", "phase_a_b", "buf_a_c", "period"] ∧
    ((members c.model).map Member.name).Nodup := by
  have hrun : (Outcome.passes (Compilation.compile {} ⟨⟨"", []⟩, []⟩ hyphenated).execute.1 fun c =>
      decide (c.model.arrays.map (·.name) = ["a-b", "a-c"] ∧
        (members c.model).map Member.name = ["buf_a_b", "phase_a_b", "buf_a_c", "period"])) = true := by
    decide +kernel
  obtain ⟨c, hc, hpasses⟩ := Outcome.exists_of_passes hrun
  obtain ⟨hnames, hmembers⟩ := of_decide_eq_true hpasses
  obtain ⟨⟨fields, hfields, hdeclare⟩, hdistinct, -⟩ := members_distinct_iff hc
  refine ⟨c, fields, hc, hfields, hdeclare, hmembers, hdistinct.mpr ?_⟩
  have hinjective : ∀ x ∈ ["a-b", "a-c"], ∀ y ∈ ["a-b", "a-c"], identifier x = identifier y → x = y := by
    decide +kernel
  rw [← hnames] at hinjective
  rintro _ ⟨a, ha, rfl⟩ _ ⟨b, hb, rfl⟩ hidentifiers
  exact hinjective _ (List.mem_map_of_mem ha) _ (List.mem_map_of_mem hb) hidentifiers

/-- Two names that become the same identifier. -/
example : ¬ ((members { arrays := [⟨"a-b", .int, [], none, false, {}⟩, ⟨"a_b", .int, [], none, false, {}⟩] }).map
    Member.name).Nodup := by
  decide +kernel

end StreamLoom.Cpp
