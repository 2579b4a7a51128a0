import Mathlib.Data.List.Nodup
import Mathlib.Data.Set.Insert
import StreamLoom.Llvm.Instruction

/-!
# Well-formed functions

In a well-formed function every block is ended by a terminator, every label that is jumped to is that of one
block, and every result that is used has been computed on all paths that lead there.

While a function is assembled the paths through it are not known yet. Instead, every block is given the
blocks above it: a set of blocks that a jump can only enlarge by its destination, so that all of them are on
every path to the block.
-/

namespace StreamLoom.Llvm

/-! ### Uses -/

def Instruction.operands : Instruction → List Value
  | alloca _ => []
  | load _ pointer => [pointer]
  | store value pointer => [value, pointer]
  | element _ pointer indices => pointer :: indices
  | binary _ x y | compareInt _ x y | compareReal _ x y => [x, y]
  | negate x | cast _ x _ => [x]
  | select condition x y => [condition, x, y]
  | call _ arguments => arguments

def Terminator.operands : Terminator → List Value
  | branch condition _ _ => [condition]
  | jump _ | ret => []

def Terminator.targets : Terminator → List String
  | jump label => [label]
  | branch _ first second => [first, second]
  | ret => []

namespace Block

variable (blocks : Array Block)

/-- The instruction at a position of a block, and the identifier of its result. -/
def code? (b k : Nat) : Option (Nat × Instruction) := (blocks[b]?).bind (·.code[k]?)

def terminator? (b : Nat) : Option Terminator := (blocks[b]?).bind (·.terminator)

def label? (b : Nat) : Option String := (blocks[b]?).map (·.label)

end Block

open Block (code? terminator? label?)

section

variable (blocks : Array Block)

/-! ### Paths -/

/-- A block can be followed by another one. -/
def Edge (b c : Nat) : Prop :=
  ∃ t l, terminator? blocks b = some t ∧ l ∈ t.targets ∧ label? blocks c = some l

/-- The blocks on a way from the first block to another, the last one first. -/
inductive Path : Nat → List Nat → Prop
  | entry : Path 0 [0]
  | step {b c : Nat} {p : List Nat} (h : Path b p) (hedge : Edge blocks b c) : Path c (c :: p)

def Dominates (d b : Nat) : Prop := ∀ p, Path blocks b p → d ∈ p

/-- A value can be used at a position of a block: if it is a result, it is computed before the position, or
in another block that dominates this one. -/
def Available (b k : Nat) (v : Value) : Prop :=
  ∀ id type, v = .result id type → ∃ d j i, code? blocks d j = some (id, i) ∧ i.type = type ∧
    ((d = b ∧ j < k) ∨ (d ≠ b ∧ Dominates blocks d b))

end

structure Function.WellFormed (f : Function) : Prop where
  terminated : ∀ b, b < f.blocks.size → ∃ t, terminator? f.blocks b = some t
  labels : (f.blocks.toList.map (·.label)).Nodup
  targets : ∀ b t l, terminator? f.blocks b = some t → l ∈ t.targets → ∃ c, label? f.blocks c = some l
  results : ∀ b k b' k' id i i', code? f.blocks b k = some (id, i) → code? f.blocks b' k' = some (id, i') →
    b = b' ∧ k = k'
  operands : ∀ b k id i, code? f.blocks b k = some (id, i) → ∀ v ∈ i.operands, Available f.blocks b k v
  conditions : ∀ (b : Nat) (block : Block) (t : Terminator), f.blocks[b]? = some block →
    block.terminator = some t → ∀ v ∈ t.operands, Available f.blocks b block.code.size v

/-! ### Arrangements -/

/-- A value is known in a block: if it is a result, it is computed in a block above. -/
def Known (blocks : Array Block) (above : Nat → Set Nat) (b : Nat) (v : Value) : Prop :=
  ∀ id type, v = .result id type → ∃ d ∈ above b, ∃ j i, code? blocks d j = some (id, i) ∧ i.type = type

/-- Blocks that are complete up to their terminators, and the blocks above each. -/
structure Arranged (blocks : Array Block) (above : Nat → Set Nat) : Prop where
  entry : above 0 = {0}
  self : ∀ b, b < blocks.size → b ∈ above b
  first : ∀ b, b < blocks.size → 0 ∈ above b
  labels : ∀ b c l, label? blocks b = some l → label? blocks c = some l → b = c
  results : ∀ b k b' k' id i i', code? blocks b k = some (id, i) → code? blocks b' k' = some (id, i') →
    b = b' ∧ k = k'
  operands : ∀ b k id i, code? blocks b k = some (id, i) → ∀ v ∈ i.operands, ∀ id' type,
    v = .result id' type → ∃ d ∈ above b, ∃ j i', code? blocks d j = some (id', i') ∧ i'.type = type ∧
      (d = b → j < k)
  conditions : ∀ b t, terminator? blocks b = some t → ∀ v ∈ t.operands, Known blocks above b v
  targets : ∀ b t l, terminator? blocks b = some t → l ∈ t.targets →
    ∃ c, label? blocks c = some l ∧ above c ⊆ insert c (above b)

namespace Arranged

variable {blocks : Array Block} {above : Nat → Set Nat}

/-- A jump enlarges the blocks above only by its destination. -/
theorem above_subset_of_edge (h : Arranged blocks above) {b c : Nat} (hedge : Edge blocks b c) :
    above c ⊆ insert c (above b) := by
  obtain ⟨t, l, ht, hl, hc⟩ := hedge
  obtain ⟨c', hc', hsubset⟩ := h.targets b t l ht hl
  rw [h.labels c c' l hc hc']
  exact hsubset

theorem mem_of_path (h : Arranged blocks above) {b : Nat} {p : List Nat} (hp : Path blocks b p) :
    ∀ d ∈ above b, d ∈ p := by
  induction hp with
  | entry =>
    intro d hd
    rw [h.entry] at hd
    exact List.mem_singleton.mpr hd
  | step _ hedge ih =>
    intro d hd
    cases h.above_subset_of_edge hedge hd with
    | inl heq => exact heq ▸ List.mem_cons_self
    | inr hmem => exact List.mem_cons_of_mem _ (ih d hmem)

theorem dominates (h : Arranged blocks above) {d b : Nat} (hd : d ∈ above b) : Dominates blocks d b :=
  fun _ hp => h.mem_of_path hp d hd

theorem nodup_labels (h : Arranged blocks above) : (blocks.toList.map (·.label)).Nodup := by
  apply List.nodup_iff_getElem?_ne_getElem?.mpr
  intro b c hlt hc heq
  have hlabel : ∀ k, (blocks.toList.map (·.label))[k]? = label? blocks k := by
    intro k
    rw [List.getElem?_map, Array.getElem?_toList]
    rfl
  rw [hlabel, hlabel] at heq
  obtain ⟨l, hl⟩ : ∃ l, label? blocks c = some l := by
    rw [← hlabel]
    exact ⟨_, List.getElem?_eq_getElem hc⟩
  have hbc := h.labels b c l (heq.trans hl) hl
  omega

theorem wellFormed {f : Function} (h : Arranged f.blocks above)
    (hterminated : ∀ b, b < f.blocks.size → ∃ t, terminator? f.blocks b = some t) : f.WellFormed where
  terminated := hterminated
  labels := h.nodup_labels
  targets b t l ht hl := by
    obtain ⟨c, hc, _⟩ := h.targets b t l ht hl
    exact ⟨c, hc⟩
  results := h.results
  operands b k id i hi v hv id' type hresult := by
    obtain ⟨d, hd, j, i', hcode, htype, hbefore⟩ := h.operands b k id i hi v hv id' type hresult
    refine ⟨d, j, i', hcode, htype, ?_⟩
    by_cases hdb : d = b
    · exact .inl ⟨hdb, hbefore hdb⟩
    · exact .inr ⟨hdb, h.dominates hd⟩
  conditions b block t hblock ht v hv id type hresult := by
    have hterminator : terminator? f.blocks b = some t := by
      rw [terminator?, hblock]
      exact ht
    obtain ⟨d, hd, j, i, hcode, htype⟩ := h.conditions b t hterminator v hv id type hresult
    refine ⟨d, j, i, hcode, htype, ?_⟩
    by_cases hdb : d = b
    · refine .inl ⟨hdb, ?_⟩
      rw [hdb, code?, hblock] at hcode
      exact (Array.getElem?_eq_some_iff.mp hcode).1
    · exact .inr ⟨hdb, h.dominates hd⟩

end Arranged

end StreamLoom.Llvm
