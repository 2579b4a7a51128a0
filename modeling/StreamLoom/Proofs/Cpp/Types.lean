import Mathlib.Algebra.Group.Nat.Defs
import Mathlib.Data.Set.Basic
import StreamLoom.Cpp.Generation

/-!
# Types of generated C++

The types that the language gives to the expressions of a program. Arithmetic converts its operands, and the
helper functions convert their arguments, but the extremes of the standard library are templates, whose
arguments have to be of one type. Here integers come in two widths: those that are kept are wide, whereas a
literal is narrow if it is short enough, and so is everything that is computed from such literals alone.
-/

namespace StreamLoom.Cpp

open Fragment (text int binary)

/-! ### Parts of fragments -/

namespace Fragment

def children : Fragment → List Fragment
  | text _ | verbatim _ | blankLine | int _ | real _ | bool _ | missing => []
  | binary _ left right => [left, right]
  | unary _ operand => [operand]
  | element array index => [array, index]
  | member pointer _ => [pointer]
  | commas parts | sequence parts | statements parts => parts
  | call callee arguments => [callee, arguments]
  | cast type value => [type, value]
  | declare type what start => [type, what, start]
  | assign left right => [left, right]
  | increment operand => [operand]
  | branch condition first second => condition :: (first ++ second)
  | loop start condition step body => start :: condition :: step :: body
  | block body | scope _ body => body
  | parameter type what => [type, what]
  | function _ type _ parameters body => type :: (parameters ++ body)
  | struct _ fields => fields

inductive Part (x : Fragment) : Fragment → Prop
  | self : Part x x
  | child {f c : Fragment} (hc : c ∈ f.children) (h : Part x c) : Part x f

theorem part_iff {x f : Fragment} : Part x f ↔ x = f ∨ ∃ c ∈ f.children, Part x c := by
  constructor
  · intro h
    cases h with
    | self => exact .inl rfl
    | child hc h => exact .inr ⟨_, hc, h⟩
  · rintro (rfl | ⟨c, hc, h⟩)
    · exact .self
    · exact .child hc h

/-- The part that is reached by going from a fragment to one of its children, again and again. -/
def at? : List Nat → Fragment → Option Fragment
  | [], f => some f
  | i :: path, f => f.children[i]?.bind (at? path)

theorem part_of_at? {path : List Nat} {x f : Fragment} (h : at? path f = some x) : Part x f := by
  induction path generalizing f with
  | nil =>
    cases h
    exact .self
  | cons i path ih =>
    obtain ⟨c, hc, h⟩ := Option.bind_eq_some_iff.mp h
    exact .child (List.mem_of_getElem? hc) (ih h)

end Fragment

open Fragment (Part part_iff)

/-! ### Types -/

/-- The types of values, one of which is that of short literals. -/
inductive CType where
  | bool
  | int
  | int64
  | double
deriving DecidableEq

namespace CType

def text : CType → String
  | bool => "bool"
  | int => "int"
  | int64 => "int64_t"
  | double => "double"

/-- The type to which two numbers are converted before an operation. -/
def common : CType → CType → CType
  | double, _ | _, double => double
  | int64, _ | _, int64 => int64
  | _, _ => int

/-- Which of the two versions of a helper is called, that for integers or that for reals. There is none which
is the better one for two narrow integers. -/
def version : CType → CType → Option CType
  | int64, int64 | int64, int | int, int64 => some int64
  | double, double | double, int | int, double => some double
  | _, _ => none

end CType

/-- The elements of a type are kept as values of another type. -/
def Spells (τ : ValueType) (σ : CType) : Prop := typeName τ = .ok σ.text

theorem spells_iff {τ : ValueType} {σ : CType} : Spells τ σ ↔
    τ = .bool ∧ σ = .bool ∨ τ = .int ∧ σ = .int64 ∨ τ = .real ∧ σ = .double := by
  unfold Spells
  cases τ <;> cases σ <;> simp [typeName, CType.text]

/-- A literal is short if its digits stand for less than what 32 bits hold together with a sign. -/
def IsShort (n : Int) : Prop := n.natAbs < 2 ^ 31

instance (n : Int) : Decidable (IsShort n) := inferInstanceAs (Decidable (_ < _))

def arithmetics : List String := ["+", "-", "*", "/"]

def comparisons : List String := ["==", "!=", "<", "<=", ">", ">="]

def connectives : List String := ["&&", "||"]

/-- The extremes whose arguments have to be of one type. -/
def extremes : List String := ["std::min", "std::max"]

def realFunctions : List String :=
  ["std::exp", "std::exp2", "std::log", "std::log2", "std::log10", "std::sqrt", "std::sin", "std::cos",
    "std::tan", "std::asin", "std::acos", "std::atan", "std::ceil", "std::floor"]

/-- Local variables with the types of their values. -/
abbrev Locals := Set (String × ValueType)

inductive HasType (model : Model) (Γ : Locals) : Fragment → CType → Prop
  | int (n : Int) : HasType model Γ (.int n) (if IsShort n then .int else .int64)
  | real (x : Binary64) : HasType model Γ (.real x) .double
  | bool (b : Bool) : HasType model Γ (.bool b) .bool
  | name {name : String} {τ : ValueType} {σ : CType} (h : (name, τ) ∈ Γ) (hσ : Spells τ σ) :
      HasType model Γ (text name) σ
  | phase {array : DataArray} (h : array ∈ model.arrays) : HasType model Γ (ofState (phaseName array)) .int64
  | period : HasType model Γ (ofState "period") .int64
  | buffer {array : DataArray} {σ ι : CType} {index : Fragment} (h : array ∈ model.arrays)
      (hσ : Spells array.type σ) (hindex : HasType model Γ index ι) (hι : ι = .int ∨ ι = .int64) :
      HasType model Γ (.element (ofState (bufferName array)) index) σ
  | input {number : Nat} {input : Input} {σ ι : CType} {index : Fragment}
      (h : model.inputs[number]? = some input) (hσ : Spells input.type σ) (hindex : HasType model Γ index ι)
      (hι : ι = .int ∨ ι = .int64) : HasType model Γ (.element (text (inputName number)) index) σ
  | cast {x : Fragment} {τ : ValueType} {ρ σ : CType} (hσ : Spells τ σ) (hx : HasType model Γ x ρ) :
      HasType model Γ (.cast (text σ.text) x) σ
  | negate {x : Fragment} {σ : CType} (hx : HasType model Γ x σ) (hσ : σ ≠ .bool) :
      HasType model Γ (.unary "-" x) σ
  | not {x : Fragment} (hx : HasType model Γ x .bool) : HasType model Γ (.unary "!" x) .bool
  | arithmetic {op : String} {x y : Fragment} {ρ σ : CType} (hop : op ∈ arithmetics)
      (hx : HasType model Γ x ρ) (hy : HasType model Γ y σ) (hρ : ρ ≠ .bool) (hσ : σ ≠ .bool) :
      HasType model Γ (binary op x y) (ρ.common σ)
  | comparison {op : String} {x y : Fragment} {ρ σ : CType} (hop : op ∈ comparisons)
      (hx : HasType model Γ x ρ) (hy : HasType model Γ y σ) : HasType model Γ (binary op x y) .bool
  | logical {op : String} {x y : Fragment} (hop : op ∈ connectives) (hx : HasType model Γ x .bool)
      (hy : HasType model Γ y .bool) : HasType model Γ (binary op x y) .bool
  | extreme {f : String} {x y : Fragment} {σ : CType} (hf : f ∈ extremes) (hx : HasType model Γ x σ)
      (hy : HasType model Γ y σ) : HasType model Γ (.call (text f) (.commas [x, y])) σ
  | abs {x : Fragment} {σ : CType} (hx : HasType model Γ x σ) (hσ : σ ≠ .bool) :
      HasType model Γ (.call (text "std::abs") (.commas [x])) σ
  | real₁ {f : String} {x : Fragment} (hf : f ∈ realFunctions) (hx : HasType model Γ x .double) :
      HasType model Γ (.call (text f) (.commas [x])) .double
  | pow {x y : Fragment} (hx : HasType model Γ x .double) (hy : HasType model Γ y .double) :
      HasType model Γ (.call (text "std::pow") (.commas [x, y])) .double
  | mod {x y : Fragment} {ρ σ υ : CType} (hx : HasType model Γ x ρ) (hy : HasType model Γ y σ)
      (hversion : ρ.version σ = some υ) : HasType model Γ (.call (text "mod") (.commas [x, y])) υ
  | floorDiv {x y : Fragment} {ρ σ υ : CType} (hx : HasType model Γ x ρ) (hy : HasType model Γ y σ)
      (hversion : ρ.version σ = some υ) : HasType model Γ (.call (text "floor_div") (.commas [x, y])) .int64

/-- An expression that is made of short literals alone, by arithmetic that keeps them narrow. -/
inductive Narrow : Fragment → Prop
  | int {n : Int} (hn : IsShort n) : Narrow (.int n)
  | negate {x : Fragment} (hx : Narrow x) : Narrow (.unary "-" x)
  | arithmetic {op : String} {x y : Fragment} (hop : op ∈ arithmetics) (hx : Narrow x) (hy : Narrow y) :
      Narrow (binary op x y)
  | extreme {f : String} {x y : Fragment} (hf : f ∈ extremes) (hx : Narrow x) (hy : Narrow y) :
      Narrow (.call (text f) (.commas [x, y]))
  | abs {x : Fragment} (hx : Narrow x) : Narrow (.call (text "std::abs") (.commas [x]))

variable {model : Model} {Γ Γ' : Locals} {x y f : Fragment} {σ ρ : CType}

theorem HasType.mono (h : HasType model Γ x σ) (hsubset : Γ ⊆ Γ') : HasType model Γ' x σ := by
  induction h with
  | int n => exact .int n
  | real x => exact .real x
  | bool b => exact .bool b
  | name h hσ => exact .name (hsubset h) hσ
  | phase h => exact .phase h
  | period => exact .period
  | buffer h hσ _ hι ih => exact .buffer h hσ ih hι
  | input h hσ _ hι ih => exact .input h hσ ih hι
  | cast hσ _ ih => exact .cast hσ ih
  | negate _ hσ ih => exact .negate ih hσ
  | not _ ih => exact .not ih
  | arithmetic hop _ _ hρ hσ ihx ihy => exact .arithmetic hop ihx ihy hρ hσ
  | comparison hop _ _ ihx ihy => exact .comparison hop ihx ihy
  | logical hop _ _ ihx ihy => exact .logical hop ihx ihy
  | extreme hf _ _ ihx ihy => exact .extreme hf ihx ihy
  | abs _ hσ ih => exact .abs ih hσ
  | real₁ hf _ ih => exact .real₁ hf ih
  | pow _ _ ihx ihy => exact .pow ihx ihy
  | mod _ _ hversion ihx ihy => exact .mod ihx ihy hversion
  | floorDiv _ _ hversion ihx ihy => exact .floorDiv ihx ihy hversion

theorem CType.common_eq_int_iff (hρ : ρ ≠ .bool) (hσ : σ ≠ .bool) : ρ.common σ = .int ↔ ρ = .int ∧ σ = .int := by
  cases ρ <;> cases σ <;> simp_all [common]

theorem CType.version_ne_int {υ : CType} (h : ρ.version σ = some υ) : υ ≠ .int := by
  rintro rfl
  cases ρ <;> cases σ <;> cases h

theorem not_spells_int {τ : ValueType} : ¬ Spells τ .int := by
  simp [spells_iff]

private theorem Narrow.op_mem {op : String} (h : Narrow (binary op x y)) : op ∈ arithmetics := by
  cases h
  assumption

private theorem Narrow.unary_eq {op : String} (h : Narrow (.unary op x)) : op = "-" := by
  cases h
  rfl

private theorem Narrow.function_mem {g : String} (h : Narrow (.call (text g) f)) :
    g ∈ "std::abs" :: extremes := by
  cases h with
  | extreme hf => exact List.mem_cons_of_mem _ hf
  | abs => exact List.mem_cons_self

private theorem not_mem_arithmetics {op : String} (h : op ∈ comparisons ++ connectives) : op ∉ arithmetics := by
  revert op
  decide

private theorem not_mem_realFunctions {g : String} (h : g ∈ "std::abs" :: extremes) : g ∉ realFunctions := by
  revert g
  decide

/-- Among the expressions that have a type, the narrow ones are those of the narrow type. -/
theorem HasType.narrow_iff (h : HasType model Γ x σ) : Narrow x ↔ σ = .int := by
  induction h with
  | int n =>
    split
    · exact iff_of_true (.int ‹_›) rfl
    · refine iff_of_false (fun h => ?_) (by decide)
      cases h
      exact absurd ‹_› ‹_›
  | real x => exact iff_of_false (fun h => by cases h) (by decide)
  | bool b => exact iff_of_false (fun h => by cases h) (by decide)
  | name h hσ => exact iff_of_false (fun h => by cases h) fun heq => not_spells_int (heq ▸ hσ)
  | phase h => exact iff_of_false (fun h => by cases h) (by decide)
  | period => exact iff_of_false (fun h => by cases h) (by decide)
  | buffer h hσ => exact iff_of_false (fun h => by cases h) fun heq => not_spells_int (heq ▸ hσ)
  | input h hσ => exact iff_of_false (fun h => by cases h) fun heq => not_spells_int (heq ▸ hσ)
  | cast hσ hx => exact iff_of_false (fun h => by cases h) fun heq => not_spells_int (heq ▸ hσ)
  | negate hx hσ ih =>
    rw [← ih]
    constructor
    · intro h
      cases h
      assumption
    · exact .negate
  | not hx ih => exact iff_of_false (fun h => absurd h.unary_eq (by decide)) (by decide)
  | arithmetic hop hx hy hρ hσ ihx ihy =>
    rw [CType.common_eq_int_iff hρ hσ, ← ihx, ← ihy]
    constructor
    · intro h
      cases h with
      | arithmetic _ hx hy => exact ⟨hx, hy⟩
    · exact fun h => .arithmetic hop h.1 h.2
  | comparison hop hx hy =>
    exact iff_of_false (fun h => not_mem_arithmetics (List.mem_append_left _ hop) h.op_mem) (by decide)
  | logical hop hx hy =>
    exact iff_of_false (fun h => not_mem_arithmetics (List.mem_append_right _ hop) h.op_mem) (by decide)
  | extreme hf hx hy ihx ihy =>
    constructor
    · intro h
      cases h with
      | extreme _ hx _ => exact ihx.mp hx
    · exact fun h => .extreme hf (ihx.mpr h) (ihy.mpr h)
  | abs hx hσ ih =>
    rw [← ih]
    constructor
    · intro h
      cases h
      assumption
    · exact .abs
  | real₁ hf hx =>
    exact iff_of_false (fun h => not_mem_realFunctions h.function_mem hf) (by decide)
  | pow hx hy => exact iff_of_false (fun h => absurd h.function_mem (by decide)) (by decide)
  | mod hx hy hversion =>
    exact iff_of_false (fun h => absurd h.function_mem (by decide)) (CType.version_ne_int hversion)
  | floorDiv hx hy hversion => exact iff_of_false (fun h => absurd h.function_mem (by decide)) (by decide)

end StreamLoom.Cpp
