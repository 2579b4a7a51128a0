import Mathlib.Logic.Function.Basic
import StreamLoom.Llvm.Assembly
import StreamLoom.Proofs.Llvm.Dominance
import StreamLoom.Proofs.Outcome

/-!
# Steps of an assembly

What becomes of the blocks of a function when an instruction, a terminator or a block is added. Labels end
in a number of their own.
-/

namespace StreamLoom.Llvm

/-! ### Runs -/

def Assembling.from {α : Type} (part : Assembling α) (a : Assembly) : Except Failure α × Assembly :=
  StateT.run (ExceptT.run part) a

namespace Assembling

variable {α β : Type} {part : Assembling α} {f : α → Assembling β} {a a' : Assembly} {x : α}

theorem from_bind (h : part.from a = (.ok x, a')) : (part >>= f).from a = (f x).from a' := by
  change StateT.run (ExceptT.run part) a = _ at h
  rw [Assembling.from, ExceptT.run_bind, StateT.run_bind, h]
  rfl

theorem from_bind_error {e : Failure} (h : (part.from a).1 = .error e) :
    ((part >>= f).from a).1 = .error e := by
  obtain ⟨a', hpart⟩ : ∃ a', part.from a = (.error e, a') := ⟨_, Prod.ext h rfl⟩
  change StateT.run (ExceptT.run part) a = _ at hpart
  rw [Assembling.from, ExceptT.run_bind, StateT.run_bind, hpart]
  rfl

end Assembling

/-! ### Blocks -/

namespace Block

/-- Adds an instruction to a block. -/
def place (blocks : Array Block) (b : Nat) (c : Nat × Instruction) : Array Block :=
  blocks.modify b fun block => { block with code := block.code.push c }

def close (blocks : Array Block) (b : Nat) (t : Terminator) : Array Block :=
  blocks.modify b fun block => { block with terminator := some t }

variable {blocks : Array Block} {b c k : Nat} {x y : Nat × Instruction} {t : Terminator} {l : String}

theorem code?_eq_some : code? blocks b k = some x ↔ ∃ block, blocks[b]? = some block ∧ block.code[k]? = some x :=
  Option.bind_eq_some_iff

theorem lt_size_of_code? (h : code? blocks b k = some x) : b < blocks.size := by
  obtain ⟨_, hblock, _⟩ := code?_eq_some.mp h
  exact (Array.getElem?_eq_some_iff.mp hblock).1

theorem lt_size_of_label? (h : label? blocks b = some l) : b < blocks.size := by
  obtain ⟨_, hblock, _⟩ := Option.map_eq_some_iff.mp h
  exact (Array.getElem?_eq_some_iff.mp hblock).1

theorem lt_size_of_terminator? (h : terminator? blocks b = some t) : b < blocks.size := by
  obtain ⟨_, hblock, _⟩ := Option.bind_eq_some_iff.mp h
  exact (Array.getElem?_eq_some_iff.mp hblock).1

def length (blocks : Array Block) (b : Nat) : Nat := (blocks[b]?).elim 0 (·.code.size)

theorem lt_length_of_code? (h : code? blocks b k = some x) : k < length blocks b := by
  obtain ⟨_, hblock, hk⟩ := code?_eq_some.mp h
  rw [length, hblock]
  exact (Array.getElem?_eq_some_iff.mp hk).1

theorem size_place : (place blocks b x).size = blocks.size := Array.size_modify

theorem code?_place_self (h : b < blocks.size) : code? (place blocks b x) b (length blocks b) = some x := by
  rw [code?, place, length, Array.getElem?_modify, if_pos rfl, Array.getElem?_eq_getElem h]
  exact Array.getElem?_push_size

theorem code?_place_of_some (h : code? blocks c k = some y) : code? (place blocks b x) c k = some y := by
  obtain ⟨block, hblock, hk⟩ := code?_eq_some.mp h
  rw [code?, place, Array.getElem?_modify, hblock]
  split
  · have hlt : k < block.code.size := (Array.getElem?_eq_some_iff.mp hk).1
    exact (Array.getElem?_push_lt hlt).trans ((Array.getElem?_eq_getElem hlt).symm.trans hk)
  · exact hk

/-- An instruction stands where it stood before, or it is the new one, after all others of its block. -/
theorem code?_of_place (h : code? (place blocks b x) c k = some y) :
    code? blocks c k = some y ∨ (c = b ∧ k = length blocks b ∧ y = x) := by
  obtain ⟨block, hblock, hk⟩ := code?_eq_some.mp h
  rw [place, Array.getElem?_modify] at hblock
  split at hblock
  · rename_i hc
    obtain ⟨old, hold, hpush⟩ := Option.map_eq_some_iff.mp hblock
    rw [← hpush, Array.getElem?_push] at hk
    split at hk
    · rename_i hsize
      refine .inr ⟨hc.symm, ?_, (Option.some.inj hk).symm⟩
      rw [length, hc, hold]
      exact hsize
    · exact .inl (code?_eq_some.mpr ⟨old, hold, hk⟩)
  · exact .inl (code?_eq_some.mpr ⟨block, hblock, hk⟩)

theorem label?_place : label? (place blocks b x) c = label? blocks c := by
  rw [label?, label?, place, Array.getElem?_modify]
  split
  · cases blocks[c]? <;> rfl
  · rfl

theorem terminator?_place : terminator? (place blocks b x) c = terminator? blocks c := by
  rw [terminator?, terminator?, place, Array.getElem?_modify]
  split
  · cases blocks[c]? <;> rfl
  · rfl

theorem size_close : (close blocks b t).size = blocks.size := Array.size_modify

theorem code?_close : code? (close blocks b t) c k = code? blocks c k := by
  rw [code?, code?, close, Array.getElem?_modify]
  split
  · cases blocks[c]? <;> rfl
  · rfl

theorem label?_close : label? (close blocks b t) c = label? blocks c := by
  rw [label?, label?, close, Array.getElem?_modify]
  split
  · cases blocks[c]? <;> rfl
  · rfl

theorem terminator?_close_self (h : b < blocks.size) : terminator? (close blocks b t) b = some t := by
  rw [terminator?, close, Array.getElem?_modify, if_pos rfl, Array.getElem?_eq_getElem h]
  rfl

theorem terminator?_close_of_ne (h : c ≠ b) : terminator? (close blocks b t) c = terminator? blocks c := by
  rw [terminator?, terminator?, close, Array.getElem?_modify, if_neg (Ne.symm h)]

theorem terminator?_of_close {t' : Terminator} (h : terminator? (close blocks b t) c = some t') :
    terminator? blocks c = some t' ∨ (c = b ∧ t' = t) := by
  by_cases hc : c = b
  · rw [hc] at h
    have hb := lt_size_of_terminator? h
    rw [size_close] at hb
    rw [terminator?_close_self hb] at h
    exact .inr ⟨hc, (Option.some.inj h).symm⟩
  · rw [terminator?_close_of_ne hc] at h
    exact .inl h

theorem code?_push : code? (blocks.push { label := l }) c k = code? blocks c k := by
  rw [code?, code?, Array.getElem?_push]
  split
  · rename_i hc
    rw [hc, Array.getElem?_size]
    rfl
  · rfl

theorem terminator?_push : terminator? (blocks.push { label := l }) c = terminator? blocks c := by
  rw [terminator?, terminator?, Array.getElem?_push]
  split
  · rename_i hc
    rw [hc, Array.getElem?_size]
    rfl
  · rfl

theorem code?_single : code? #[{ label := l }] c k = none := by
  show code? (Array.push #[] { label := l }) c k = none
  rw [code?_push]
  rfl

theorem terminator?_single : terminator? #[{ label := l }] c = none := by
  show terminator? (Array.push #[] { label := l }) c = none
  rw [terminator?_push]
  rfl

theorem label?_push :
    label? (blocks.push { label := l }) c = if c = blocks.size then some l else label? blocks c := by
  rw [label?, label?, Array.getElem?_push]
  split <;> rfl

end Block

/-! ### Arrangements -/

section

open Block (code? terminator? label?)

variable {blocks : Array Block} {above : Nat → Set Nat} {b n : Nat} {v : Value}

theorem Known.mono {blocks' : Array Block} {above' : Nat → Set Nat} (h : Known blocks above b v)
    (hcode : ∀ d k x, code? blocks d k = some x → code? blocks' d k = some x) (habove : above b ⊆ above' b) :
    Known blocks' above' b v := by
  intro id type hresult
  obtain ⟨d, hd, j, i, hi, htype⟩ := h id type hresult
  exact ⟨d, habove hd, j, i, hcode d j _ hi, htype⟩

namespace Arranged

theorem place (h : Arranged blocks above) {i : Instruction} (hfresh : ∀ c k j, code? blocks c k ≠ some (n, j))
    (hoperands : ∀ v ∈ i.operands, Known blocks above b v) :
    Arranged (Block.place blocks b (n, i)) above where
  entry := h.entry
  self c hc := h.self c (Block.size_place ▸ hc)
  first c hc := h.first c (Block.size_place ▸ hc)
  labels c d l hc hd := h.labels c d l (Block.label?_place ▸ hc) (Block.label?_place ▸ hd)
  results := by
    intro c k c' k' id j j' hc hc'
    cases Block.code?_of_place hc with
    | inl hold =>
      cases Block.code?_of_place hc' with
      | inl hold' => exact h.results c k c' k' id j j' hold hold'
      | inr hnew' =>
        obtain ⟨_, _, hpair⟩ := hnew'
        cases hpair
        exact absurd hold (hfresh c k j)
    | inr hnew =>
      obtain ⟨hcb, hk, hpair⟩ := hnew
      cases hpair
      cases Block.code?_of_place hc' with
      | inl hold' => exact absurd hold' (hfresh c' k' j')
      | inr hnew' => exact ⟨hcb.trans hnew'.1.symm, hk.trans hnew'.2.1.symm⟩
  operands := by
    intro c k id j hcode v hv id' type hresult
    cases Block.code?_of_place hcode with
    | inl hold =>
      obtain ⟨d, hd, k', j', hcode', htype, hlt⟩ := h.operands c k id j hold v hv id' type hresult
      exact ⟨d, hd, k', j', Block.code?_place_of_some hcode', htype, hlt⟩
    | inr hnew =>
      obtain ⟨hcb, hk, hpair⟩ := hnew
      cases hpair
      rw [hcb]
      obtain ⟨d, hd, k', j', hcode', htype⟩ := hoperands v hv id' type hresult
      refine ⟨d, hd, k', j', Block.code?_place_of_some hcode', htype, fun hdb => ?_⟩
      rw [hdb] at hcode'
      exact hk ▸ Block.lt_length_of_code? hcode'
  conditions c t ht v hv := by
    rw [Block.terminator?_place] at ht
    exact (h.conditions c t ht v hv).mono (fun _ _ _ => Block.code?_place_of_some) subset_rfl
  targets c t l ht hl := by
    rw [Block.terminator?_place] at ht
    obtain ⟨d, hd, hsubset⟩ := h.targets c t l ht hl
    exact ⟨d, Block.label?_place.trans hd, hsubset⟩

theorem close (h : Arranged blocks above) {t : Terminator} (hoperands : ∀ v ∈ t.operands, Known blocks above b v)
    (htargets : ∀ l ∈ t.targets, ∃ c, label? blocks c = some l ∧ above c ⊆ insert c (above b)) :
    Arranged (Block.close blocks b t) above where
  entry := h.entry
  self c hc := h.self c (Block.size_close (t := t) ▸ hc)
  first c hc := h.first c (Block.size_close (t := t) ▸ hc)
  labels c d l hc hd := h.labels c d l (Block.label?_close ▸ hc) (Block.label?_close ▸ hd)
  results c k c' k' id j j' hc hc' :=
    h.results c k c' k' id j j' (Block.code?_close ▸ hc) (Block.code?_close ▸ hc')
  operands := by
    intro c k id j hcode v hv id' type hresult
    rw [Block.code?_close] at hcode
    obtain ⟨d, hd, k', j', hcode', hrest⟩ := h.operands c k id j hcode v hv id' type hresult
    exact ⟨d, hd, k', j', Block.code?_close.trans hcode', hrest⟩
  conditions c t' ht' v hv := by
    have hknown : Known blocks above c v := by
      cases Block.terminator?_of_close ht' with
      | inl hold => exact h.conditions c t' hold v hv
      | inr hnew =>
        obtain ⟨rfl, rfl⟩ := hnew
        exact hoperands v hv
    exact hknown.mono (fun _ _ _ => Block.code?_close.trans) subset_rfl
  targets c t' l ht' hl := by
    have hleads : ∃ d, label? blocks d = some l ∧ above d ⊆ insert d (above c) := by
      cases Block.terminator?_of_close ht' with
      | inl hold => exact h.targets c t' l hold hl
      | inr hnew =>
        obtain ⟨rfl, rfl⟩ := hnew
        exact htargets l hl
    obtain ⟨d, hd, hsubset⟩ := hleads
    exact ⟨d, Block.label?_close.trans hd, hsubset⟩

theorem single (l : String) : Arranged #[{ label := l }] fun _ => {0} := by
  refine ⟨rfl, fun b hb => ?_, fun _ _ => rfl, fun b c l' hb hc => ?_, ?_, ?_, ?_, ?_⟩
  · exact Nat.lt_one_iff.mp hb
  · have hb' : b < 1 := Block.lt_size_of_label? hb
    have hc' : c < 1 := Block.lt_size_of_label? hc
    omega
  · intro b k b' k' id i i' hi
    cases Block.code?_single.symm.trans hi
  · intro b k id i hi
    cases Block.code?_single.symm.trans hi
  · intro b t ht
    cases Block.terminator?_single.symm.trans ht
  · intro b t l' ht
    cases Block.terminator?_single.symm.trans ht

theorem push (h : Arranged blocks above) {parent : Nat} {l : String} (hparent : parent < blocks.size)
    (hfresh : ∀ c, label? blocks c ≠ some l) :
    Arranged (blocks.push { label := l })
      (Function.update above blocks.size (insert blocks.size (above parent))) := by
  have hold : ∀ c, c < blocks.size →
      Function.update above blocks.size (insert blocks.size (above parent)) c = above c :=
    fun c hc => Function.update_of_ne hc.ne ..
  have hnew : Function.update above blocks.size (insert blocks.size (above parent)) blocks.size =
      insert blocks.size (above parent) := Function.update_self ..
  refine ⟨?_, ?_, ?_, ?_, ?_, ?_, ?_, ?_⟩
  · rw [hold 0 (Nat.zero_lt_of_lt hparent)]
    exact h.entry
  · intro c hc
    rw [Array.size_push] at hc
    by_cases heq : c = blocks.size
    · rw [heq, hnew]
      exact Set.mem_insert ..
    · have hlt : c < blocks.size := by omega
      rw [hold c hlt]
      exact h.self c hlt
  · intro c hc
    rw [Array.size_push] at hc
    by_cases heq : c = blocks.size
    · rw [heq, hnew]
      exact Set.mem_insert_of_mem _ (h.first parent hparent)
    · have hlt : c < blocks.size := by omega
      rw [hold c hlt]
      exact h.first c hlt
  · intro c d l' hc hd
    rw [Block.label?_push] at hc hd
    split at hc <;> split at hd
    · omega
    · exact absurd (hd.trans hc.symm) (hfresh d)
    · exact absurd (hc.trans hd.symm) (hfresh c)
    · exact h.labels c d l' hc hd
  · intro c k c' k' id j j' hc hc'
    rw [Block.code?_push] at hc hc'
    exact h.results c k c' k' id j j' hc hc'
  · intro c k id j hcode v hv id' type hresult
    rw [Block.code?_push] at hcode
    obtain ⟨d, hd, k', j', hcode', hrest⟩ := h.operands c k id j hcode v hv id' type hresult
    rw [hold c (Block.lt_size_of_code? hcode)]
    exact ⟨d, hd, k', j', Block.code?_push.trans hcode', hrest⟩
  · intro c t ht v hv
    rw [Block.terminator?_push] at ht
    apply (h.conditions c t ht v hv).mono (fun _ _ _ => Block.code?_push.trans)
    rw [hold c (Block.lt_size_of_terminator? ht)]
  · intro c t l' ht hl
    rw [Block.terminator?_push] at ht
    obtain ⟨d, hd, hsubset⟩ := h.targets c t l' ht hl
    have hlt : d < blocks.size := Block.lt_size_of_label? hd
    refine ⟨d, (Block.label?_push.trans (if_neg hlt.ne)).trans hd, ?_⟩
    rw [hold c (Block.lt_size_of_terminator? ht), hold d hlt]
    exact hsubset

end Arranged

end

/-! ### Labels -/

/-- A word without digits. -/
def IsStem (stem : String) : Prop := ∀ c ∈ stem.toList, c.isDigit = false

/-- A label that consists of a stem and a number. -/
def Numbered (n : Nat) (label : String) : Prop := ∃ stem, IsStem stem ∧ label = stem ++ toString n

theorem filter_isDigit_of_numbered {n : Nat} {label : String} (h : Numbered n label) :
    label.toList.filter (·.isDigit) = Nat.toDigits 10 n := by
  obtain ⟨stem, hstem, rfl⟩ := h
  have hdigits : (toString n).toList = Nat.toDigits 10 n := Nat.toList_repr
  have hnone : stem.toList.filter (·.isDigit) = [] := by
    rw [List.filter_eq_nil_iff]
    intro c hc
    rw [hstem c hc]
    exact Bool.false_ne_true
  rw [String.toList_append, List.filter_append, hnone, List.nil_append, hdigits, List.filter_eq_self]
  exact fun c hc => Nat.isDigit_of_mem_toDigits (by decide) (by decide) hc

theorem Numbered.unique {m n : Nat} {label : String} (hm : Numbered m label) (hn : Numbered n label) : m = n := by
  have hdigits : Nat.toDigits 10 m = Nat.toDigits 10 n :=
    (filter_isDigit_of_numbered hm).symm.trans (filter_isDigit_of_numbered hn)
  rw [← Nat.ofDigitChars_ten_toDigits (n := m), hdigits, Nat.ofDigitChars_ten_toDigits]

theorem not_numbered_entry (n : Nat) : ¬ Numbered n "entry" := by
  intro h
  have hdigits : Nat.toDigits 10 n = [] := (filter_isDigit_of_numbered h).symm.trans (by decide)
  exact absurd hdigits Nat.toDigits_ne_nil

end StreamLoom.Llvm
