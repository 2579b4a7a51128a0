import StreamLoom.Llvm.Target
import StreamLoom.Proofs.Llvm.Assembly

/-!
# Registers

What the integer instructions compute, on truth values and on words in two's complement. Quotients and
remainders are truncated; they are undefined for a divisor of zero, and where the quotient is no word.

An assembly is followed together with the registers after all that its current block holds so far: a part
that only adds instructions to the block ends in a value, and executing the instructions tells what the value
stands for.
-/

namespace StreamLoom.Llvm

/-! ### Instructions -/

inductive Datum where
  | bit (b : Bool)
  | word (x : BitVec 64)
deriving DecidableEq

/-- The results of the instructions that have been executed. -/
abbrev Registers := Nat → Option Datum

def Value.datum? (ρ : Registers) : Value → Option Datum
  | .int .i64 x => some (.word (.ofInt 64 x))
  | .bool b => some (.bit b)
  | .result id _ => ρ id
  | _ => none

namespace BinaryOp

/-- Whether two words have a truncated quotient which is a word. -/
def divides (x y : BitVec 64) : Bool := y != 0 && !(x == .intMin 64 && y == -1)

def onWords? (x y : BitVec 64) : BinaryOp → Option (BitVec 64)
  | add => some (x + y)
  | sub => some (x - y)
  | mul => some (x * y)
  | sdiv => if divides x y then some (x.sdiv y) else none
  | srem => if divides x y then some (x.srem y) else none
  | and => some (x &&& y)
  | or => some (x ||| y)
  | xor => some (x ^^^ y)
  | _ => none

def onBits? (x y : Bool) : BinaryOp → Option Bool
  | and => some (x && y)
  | or => some (x || y)
  | xor => some (x ^^ y)
  | _ => none

def combine? (op : BinaryOp) : Datum → Datum → Option Datum
  | .word x, .word y => (op.onWords? x y).map .word
  | .bit x, .bit y => (op.onBits? x y).map .bit
  | _, _ => none

end BinaryOp

def IntPredicate.holds (x y : BitVec 64) : IntPredicate → Bool
  | eq => x == y
  | ne => x != y
  | slt => x.slt y
  | sle => x.sle y
  | sgt => y.slt x
  | sge => y.sle x

def Instruction.result? (ρ : Registers) : Instruction → Option Datum
  | binary op x y =>
    match x.datum? ρ, y.datum? ρ with
    | some a, some b => op.combine? a b
    | _, _ => none
  | compareInt p x y =>
    match x.datum? ρ, y.datum? ρ with
    | some (.word a), some (.word b) => some (.bit (p.holds a b))
    | _, _ => none
  | select condition x y =>
    match condition.datum? ρ with
    | some (.bit b) => if b then x.datum? ρ else y.datum? ρ
    | _ => none
  | _ => none

/-- Executes instructions one after another, each with the identifier of its result. -/
def execute (ρ : Registers) : List (Nat × Instruction) → Option Registers
  | [] => some ρ
  | (id, i) :: rest =>
    match i.result? ρ with
    | some d => execute (Function.update ρ id (some d)) rest
    | none => none

theorem execute_append (ρ : Registers) (code more : List (Nat × Instruction)) :
    execute ρ (code ++ more) = (execute ρ code).bind fun ρ' => execute ρ' more := by
  induction code generalizing ρ with
  | nil => rfl
  | cons c code ih =>
    obtain ⟨id, i⟩ := c
    rw [List.cons_append, execute, execute]
    cases i.result? ρ with
    | none => rfl
    | some d => exact ih _

/-! ### Runs -/

def Block.adding (b : Block) (code : List (Nat × Instruction)) : Block :=
  { b with code := b.code ++ code.toArray }

def Assembly.adding (a : Assembly) (code : List (Nat × Instruction)) : Assembly :=
  { a with
    results := a.results + code.length
    blocks := a.blocks.modify a.current (·.adding code) }

theorem Assembly.adding_nil (a : Assembly) : a.adding [] = a := by
  have hblocks : a.blocks.modify a.current (·.adding []) = a.blocks := by
    apply Array.ext_getElem?
    intro i
    simp [Array.getElem?_modify, Block.adding]
  rw [adding, hblocks]
  rfl

theorem Assembly.adding_adding (a : Assembly) (code more : List (Nat × Instruction)) :
    (a.adding code).adding more = a.adding (code ++ more) := by
  have hblocks : (a.blocks.modify a.current (·.adding code)).modify a.current (·.adding more) =
      a.blocks.modify a.current (·.adding (code ++ more)) := by
    apply Array.ext_getElem?
    intro i
    rw [Array.getElem?_modify, Array.getElem?_modify, Array.getElem?_modify]
    by_cases h : a.current = i
    · simp [h, Block.adding, Function.comp_def]
    · simp [h]
  simp only [adding, hblocks, List.length_append, Nat.add_assoc]

/-! ### Spots -/

/-- An assembly, and the registers after what its current block holds. Results that are still to come
are not in them. -/
structure Spot where
  assembly : Assembly
  registers : Registers
  fresh : ∀ id, assembly.results ≤ id → registers id = none

/-- Nothing that is in the registers has changed. -/
def Registers.Keeps (ρ ρ' : Registers) : Prop := ∀ id d, ρ id = some d → ρ' id = some d

theorem Registers.Keeps.datum? {ρ ρ' : Registers} (h : ρ.Keeps ρ') {v : Value} {d : Datum}
    (hv : v.datum? ρ = some d) : v.datum? ρ' = some d := by
  unfold Value.datum? at hv ⊢
  split at hv
  · exact hv
  · exact hv
  · exact h _ _ hv
  · cases hv

/-- A part ends in a value, and the code that it adds leads from the registers of one spot to those of
another. -/
structure Runs {α : Type} (part : Assembling α) (s : Spot) (x : α) (s' : Spot) : Prop where
  ends : part.from s.assembly = (.ok x, s'.assembly)
  executes : ∃ code, s'.assembly = s.assembly.adding code ∧ execute s.registers code = some s'.registers
  keeps : s.registers.Keeps s'.registers

/-- A part ends in a value of which something is known as soon as the added code has been executed. -/
def Gives {α : Type} (part : Assembling α) (s : Spot) (P : Registers → α → Prop) : Prop :=
  ∃ x s', Runs part s x s' ∧ P s'.registers x

section

variable {α β : Type} {part : Assembling α} {f : α → Assembling β} {s s' s'' : Spot}
  {P : Registers → α → Prop} {Q : Registers → β → Prop}

theorem Runs.pure (s : Spot) (x : α) : Runs (pure x : Assembling α) s x s where
  ends := rfl
  executes := ⟨[], s.assembly.adding_nil.symm, rfl⟩
  keeps _ _ h := h

theorem Runs.bind {x : α} {y : β} (h : Runs part s x s') (hf : Runs (f x) s' y s'') :
    Runs (part >>= f) s y s'' where
  ends := (Assembling.from_bind h.ends).trans hf.ends
  executes := by
    obtain ⟨code, hadding, hexecute⟩ := h.executes
    obtain ⟨more, hadding', hexecute'⟩ := hf.executes
    refine ⟨code ++ more, ?_, ?_⟩
    · rw [hadding', hadding, Assembly.adding_adding]
    · rw [execute_append, hexecute]
      exact hexecute'
  keeps id d hd := hf.keeps id d (h.keeps id d hd)

theorem Gives.pure {x : α} (h : P s.registers x) : Gives (pure x : Assembling α) s P :=
  ⟨x, s, .pure s x, h⟩

theorem Gives.bind (h : Gives part s P)
    (hf : ∀ x s', s.registers.Keeps s'.registers → P s'.registers x → Gives (f x) s' Q) :
    Gives (part >>= f) s Q := by
  obtain ⟨x, s', hpart, hx⟩ := h
  obtain ⟨y, s'', hrest, hy⟩ := hf x s' hpart.keeps hx
  exact ⟨y, s'', hpart.bind hrest, hy⟩

theorem Gives.imp {P' : Registers → α → Prop} (h : Gives part s P) (himp : ∀ ρ x, P ρ x → P' ρ x) :
    Gives part s P' := by
  obtain ⟨x, s', hpart, hx⟩ := h
  exact ⟨x, s', hpart, himp _ _ hx⟩

end

/-- The result of an instruction is what executing it gives. -/
theorem gives_emit {s : Spot} {i : Instruction} {d : Datum} (h : i.result? s.registers = some d) :
    Gives (Assembling.emit i) s fun ρ v => v.datum? ρ = some d := by
  let n := s.assembly.results
  let ρ : Registers := Function.update s.registers n (some d)
  have hfresh : ∀ id, n + 1 ≤ id → ρ id = none := by
    intro id hid
    have hne : id ≠ n := by omega
    exact (Function.update_of_ne hne ..).trans (s.fresh id (Nat.le_of_succ_le hid))
  let s' : Spot := ⟨s.assembly.adding [(n, i)], ρ, hfresh⟩
  refine ⟨.result n i.type, s', ⟨?_, ⟨[(n, i)], rfl, ?_⟩, ?_⟩, Function.update_self ..⟩
  · have hpush : (fun b : Block => { b with code := b.code.push (n, i) }) = (·.adding [(n, i)]) := by
      funext b
      simp [Block.adding]
    change (Except.ok (Value.result n i.type), ({ s.assembly with
      results := n + 1
      blocks := s.assembly.blocks.modify s.assembly.current fun b => { b with code := b.code.push (n, i) } } :
        Assembly)) = _
    rw [hpush]
    rfl
  · rw [execute, h]
    rfl
  · intro id d' hd'
    have hne : id ≠ n := by
      intro heq
      rw [heq, s.fresh n (Nat.le_refl n)] at hd'
      cases hd'
    exact (Function.update_of_ne hne ..).trans hd'

end StreamLoom.Llvm
