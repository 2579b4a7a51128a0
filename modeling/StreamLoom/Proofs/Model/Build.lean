import StreamLoom.Proofs.Model.Pattern

/-!
# What a model is made of

`Model.Built` is everything that later proofs may use about a model that was built from a program.
Each statement writes the elements of its array at the points of its domain, what it reads is given by
the index of each access, and no element is written by two statements. The dependencies add nothing to
this: they relate a point to the elements that it reads, as far as some statement writes them.
-/

namespace StreamLoom

attribute [local instance] Arithmetic.exact

open StreamLoom.System (Solves Over)

/-! ### Computations -/

namespace Computation

mutual

/-- Every element that is read is the one at the index of its access, inside of a frame. -/
def Modelled (arrays : List DataArray) (f : Frame) : Computation → Prop
  | constant _ | iterator _ | input .. => True
  | apply _ _ operands => ModelledAll arrays f operands
  | read number _ access => ∃ array, arrays[number]? = some array ∧
      access.pattern.length = array.rank ∧ (∀ a ∈ access.pattern, a.vars = f.vars) ∧
      access.relation = Access.relate f array.name access.pattern ∧
      array.domain.cons.all (Access.isWithin access.relation.range array.flow) = true
  | reduce _ _ _ lower upper body => Modelled arrays (f.within lower upper) body

def ModelledAll (arrays : List DataArray) (f : Frame) : List Computation → Prop
  | [] => True
  | c :: rest => Modelled arrays f c ∧ ModelledAll arrays f rest

end

/-- What a read at the points of a domain refers to. -/
def Reads (arrays : List DataArray) (domain : PointSet) (r : Read) : Prop :=
  ∃ (f : Frame) (array : DataArray) (pattern : List Affine), f.domain = domain ∧
    arrays[r.array]? = some array ∧ pattern.length = array.rank ∧ (∀ a ∈ pattern, a.vars = f.vars) ∧
    r.relation = Access.relate f array.name pattern

mutual

theorem reads_of_modelled {arrays : List DataArray} : (c : Computation) → {f : Frame} →
    c.Modelled arrays f → ∀ r ∈ c.reads, Reads arrays f.domain r
  | .constant _, _, _ => by simp [reads]
  | .iterator _, _, _ => by simp [reads]
  | .input .., _, _ => by simp [reads]
  | .apply _ _ operands, _, h => by
    rw [Modelled] at h
    rw [reads]
    exact reads_of_modelledAll operands h
  | .read number _ access, f, h => by
    rw [Modelled] at h
    obtain ⟨array, harray, hlength, hvars, hrelation, -⟩ := h
    intro r hr
    obtain rfl : r = ⟨number, access.relation⟩ := by simpa [reads] using hr
    exact ⟨f, array, access.pattern, rfl, harray, hlength, hvars, hrelation⟩
  | .reduce _ _ _ lower upper body, f, h => by
    rw [Modelled] at h
    rw [reads]
    exact reads_of_modelled body (f := f.within lower upper) h

theorem reads_of_modelledAll {arrays : List DataArray} : (cs : List Computation) → {f : Frame} →
    ModelledAll arrays f cs → ∀ r ∈ readsOf cs, Reads arrays f.domain r
  | [], _, _ => by simp [readsOf]
  | c :: rest, f, h => by
    rw [ModelledAll] at h
    intro r hr
    rw [readsOf] at hr
    rcases List.mem_append.mp hr with hr | hr
    · exact reads_of_modelled c h.1 r hr
    · exact reads_of_modelledAll rest h.2 r hr

end

end Computation

namespace Program

variable {p : Program} {arrays : List DataArray}

private theorem modelled_accessArray {f : Frame} {origin : Option Origin} {number : Nat}
    {indices : List Expr} {c : Computation} (h : accessArray arrays f origin number indices = .ok c) :
    c.Modelled arrays f := by
  obtain ⟨array, access, harray, haccess, rfl⟩ := accessArray_cases h
  obtain ⟨hlength, hvars, hrelation, hwithin⟩ := Access.make_cases haccess
  rw [Computation.Modelled]
  exact ⟨array, harray, hlength, hvars, hrelation, hwithin⟩

private theorem modelled_accessInput {f : Frame} {origin : Option Origin} {number : Nat}
    {indices : List Expr} {c : Computation} (h : p.accessInput arrays f origin number indices = .ok c) :
    c.Modelled arrays f := by
  rcases accessInput_cases h with h | ⟨_, _, -, -, -, rfl⟩
  · exact modelled_accessArray h
  · rw [Computation.Modelled]
    trivial

mutual

theorem modelled_computation : (e : Expr) → {f : Frame} → {c : Computation} →
    p.computation arrays f e = .ok c → c.Modelled arrays f
  | .constant .., f, c, h => by
    rw [computation] at h
    cases h
    rw [Computation.Modelled]
    trivial
  | .iterator .., f, c, h => by
    rw [computation] at h
    cases h
    rw [Computation.Modelled]
    trivial
  | .element .., f, c, h => by
    rw [computation] at h
    exact modelled_accessArray h
  | .input .., f, c, h => by
    rw [computation] at h
    exact modelled_accessInput h
  | .apply origin op operands, f, c, h => by
    rw [computation] at h
    obtain ⟨cs, hcs, h⟩ := Outcome.bind_eq_ok h
    obtain ⟨_, -, rfl⟩ := applied_cases h
    rw [Computation.Modelled]
    exact modelledAll_computations operands (forall₂_of_computations hcs)
  | .reduce origin op dim lower upper body, f, c, h => by
    rw [computation] at h
    obtain ⟨c', hc', h⟩ := Outcome.bind_eq_ok h
    obtain ⟨_, -, rfl⟩ := reduced_cases h
    rw [Computation.Modelled]
    exact modelled_computation body hc'

private theorem modelledAll_computations : (es : List Expr) → {f : Frame} → {cs : List Computation} →
    List.Forall₂ (fun e c => p.computation arrays f e = .ok c) es cs → Computation.ModelledAll arrays f cs
  | [], _, _, .nil => by
    rw [Computation.ModelledAll]
    trivial
  | e :: rest, _, _, .cons hc hcs => by
    rw [Computation.ModelledAll]
    exact ⟨modelled_computation e hc, modelledAll_computations rest hcs⟩

end

end Program

/-! ### Statements -/

/-- What is known of a statement and of the array that it writes. -/
structure Statement.Housed (arrays : List DataArray) (s : Statement) (array : DataArray) : Prop where
  home : arrays[s.array]? = some array
  dims : s.domain.dims = array.rank
  locals : s.domain.locals = 0
  regular : s.domain.Regular
  inside : ∀ p : Nat → Int, Solves p s.domain.cons → Solves p array.domain.cons
  flow : s.flow = array.flow
  write : s.write = Statement.writing s.domain array
  modelled : s.computation.Modelled arrays ⟨s.name, s.domain, []⟩

theorem Statement.Housed.unique {arrays : List DataArray} {s : Statement} {array array' : DataArray}
    {number : Nat} (h : s.Housed arrays array) (hnumber : s.array = number)
    (hget : arrays[number]? = some array') : array = array' := by
  have hhome := h.home
  rw [hnumber, hget] at hhome
  exact (Option.some.inj hhome).symm

namespace Program

variable {p : Program} {arrays : List DataArray}

private theorem housed_inputStatement {array : DataArray} {input number : Nat}
    (harray : arrays[number]? = some array) :
    (inputStatement array input number).Housed arrays array where
  home := harray
  dims := rfl
  locals := rfl
  regular := PointSet.regular_box _ _
  inside _ hp := hp
  flow := rfl
  write := rfl
  modelled := by
    simp only [inputStatement]
    rw [Computation.Modelled]
    trivial

variable {id : Identifier} {number k : Nat} {array : DataArray} {pattern : Pattern} {s : Statement}

private theorem States.housed (h : p.States arrays id number array pattern k s)
    (harray : arrays[number]? = some array) : s.Housed arrays array := by
  obtain ⟨hdims, hlocals, hregular⟩ := regular_patternDomain h.domain h.rank
  refine ⟨by rw [h.home, harray], hdims, hlocals, hregular,
    fun _ hx => solves_of_patternDomain h.domain h.rank hx, h.flow, h.write, ?_⟩
  rw [h.name]
  exact modelled_computation pattern.body h.computation

end Program

/-! ### Models -/

namespace Model

variable {p : Program} {m : Model}

structure Built (m : Model) : Prop where
  housed : ∀ s ∈ m.statements, ∃ array, s.Housed m.arrays array
  dependencies : m.dependencies = dependenciesOf m.statements
  unshared : checkOverlaps m.arrays m.statements = .ok ()

theorem Built.housed_of_get (hm : m.Built) {st : Statement} (hst : st ∈ m.statements) {number : Nat}
    (hnumber : st.array = number) {array : DataArray} (harray : m.arrays[number]? = some array) :
    st.Housed m.arrays array := by
  obtain ⟨array', hhoused⟩ := hm.housed st hst
  obtain rfl := hhoused.unique hnumber harray
  exact hhoused

theorem built_of_build (h : (build p).execute.1 = .ok m) : m.Built := by
  obtain ⟨copies, written, hassembled⟩ := assembled_of_build h
  refine ⟨fun s hs => ?_, hassembled.dependencies, hassembled.unshared⟩
  cases hassembled.stems s hs with
  | copy hinput hstream harray h =>
    rw [h]
    exact ⟨_, Program.housed_inputStatement harray⟩
  | pattern hid hpattern harray h => exact ⟨_, h.housed harray⟩

end Model

end StreamLoom
