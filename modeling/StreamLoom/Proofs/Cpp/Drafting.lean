import StreamLoom.Cpp.Target
import StreamLoom.Proofs.Outcome

/-!
# Runs of a draft

How the parts of a draft end. Many of them only look up what is needed to write an expression, and add no
statement.
-/

namespace StreamLoom.Cpp

def Drafting.from {α : Type} (part : Drafting α) (d : Draft) : Except Failure α × Draft :=
  StateT.run (ExceptT.run part) d

namespace Drafting

variable {α β : Type} {part : Drafting α} {f : α → Drafting β} {d d' : Draft} {x : α} {y : β}

theorem from_bind (h : part.from d = (.ok x, d')) : (part >>= f).from d = (f x).from d' := by
  change StateT.run (ExceptT.run part) d = _ at h
  rw [Drafting.from, ExceptT.run_bind, StateT.run_bind, h]
  rfl

/-- A part of a draft ends in a value and leaves the draft as it is. -/
def Gives (part : Drafting α) (x : α) : Prop := ∀ d, part.from d = (.ok x, d)

theorem gives_pure (x : α) : Gives (pure x) x := fun _ => rfl

theorem Gives.bind (h : Gives part x) (hf : Gives (f x) y) : Gives (part >>= f) y :=
  fun d => (from_bind (h d)).trans (hf d)

theorem exists_gives_mapM {R : α → β → Prop} {xs : List α} (h : ∀ x ∈ xs, ∃ y, Gives (f x) y ∧ R x y) :
    ∃ ys, Gives (xs.mapM f) ys ∧ List.Forall₂ R xs ys := by
  induction xs with
  | nil =>
    rw [List.mapM_nil]
    exact ⟨[], gives_pure [], .nil⟩
  | cons x xs ih =>
    obtain ⟨hx, hxs⟩ := List.forall_mem_cons.mp h
    obtain ⟨y, hy, hr⟩ := hx
    obtain ⟨ys, hys, hrs⟩ := ih hxs
    rw [List.mapM_cons]
    exact ⟨y :: ys, hy.bind (hys.bind (gives_pure _)), .cons hr hrs⟩

end Drafting

end StreamLoom.Cpp
