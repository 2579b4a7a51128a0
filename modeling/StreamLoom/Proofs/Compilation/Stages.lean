import StreamLoom.Compilation.Basic
import StreamLoom.Proofs.Outcome

/-!
# The stages of a compilation

A compilation that succeeds has passed all of its stages. What it writes on the way never influences how
it ends, so that everything known of a single stage holds of its result.
-/

namespace StreamLoom

namespace Compiling

variable {α β : Type} {c : Compiling α} {a : α} {config : Config} {topic : Topic}

def Yields (c : Compiling α) (a : α) : Prop := ∃ messages, (StateT.run (ExceptT.run c) messages).1 = .ok a

theorem yields_bind {f : α → Compiling β} {b : β} (h : (c >>= f).Yields b) :
    ∃ a, c.Yields a ∧ (f a).Yields b := by
  obtain ⟨messages, hrun⟩ := h
  obtain ⟨a, messages', hc, hf⟩ := Outcome.run_bind_cases (Prod.ext hrun rfl)
  exact ⟨a, ⟨messages, congrArg Prod.fst hc⟩, ⟨messages', congrArg Prod.fst hf⟩⟩

theorem yields_report {outcome : Except Failure α × List Record} (h : (report config topic outcome).Yields a) :
    outcome.1 = .ok a := by
  unfold report at h
  split at h
  · obtain ⟨_, -, messages, hrun⟩ := yields_bind h
    exact hrun
  · obtain ⟨messages, hrun⟩ := h
    exact hrun

theorem yields_stage {activity : String} {s : Stage α} (h : (stage config topic activity s).Yields a) :
    s.execute.1 = .ok a := by
  have hduring : Failure.during activity s.execute.1 = .ok a := yields_report h
  cases hs : s.execute.1 with
  | error e =>
    rw [hs] at hduring
    cases hduring
  | ok b =>
    rw [hs] at hduring
    exact hduring

end Compiling

namespace Compilation

variable [Arithmetic]

/-- What each stage of a compilation has made of the one before it. -/
structure Staged (config : Config) (library : Library) (files : List SourceFile) (model : Model)
    (c : Compilation) : Prop where
  read : (Program.read library files).result = .ok c.program
  build : (Model.build c.program).execute.1 = .ok model
  synthesize : (Schedule.synthesize model config.schedule).execute.1 = .ok c.schedule
  allocate : (Allocation.allocate model c.schedule).execute.1 = .ok c.allocation
  generate : (Nest.generate c.model c.schedule config.nest).execute.1 = .ok c.nests

theorem staged_of_compile {config : Config} {library : Library} {files : List SourceFile} {c : Compilation}
    (h : (compile config library files).execute.1 = .ok c) : ∃ model, c.Staged config library files model := by
  have hyields : (compile config library files).Yields c := ⟨[], h⟩
  obtain ⟨program, hread, hyields⟩ := Compiling.yields_bind hyields
  obtain ⟨model, hbuild, hyields⟩ := Compiling.yields_bind hyields
  obtain ⟨_, -, hyields⟩ := Compiling.yields_bind hyields
  obtain ⟨schedule, hsynthesize, hyields⟩ := Compiling.yields_bind hyields
  obtain ⟨allocation, hallocate, hyields⟩ := Compiling.yields_bind hyields
  obtain ⟨_, -, hyields⟩ := Compiling.yields_bind hyields
  obtain ⟨nests, hgenerate, messages, hpure⟩ := Compiling.yields_bind hyields
  obtain rfl : ⟨program, schedule, allocation, nests⟩ = c := Except.ok.inj hpure
  exact ⟨model, Outcome.mapError_eq_ok (Compiling.yields_report hread), Compiling.yields_stage hbuild,
    Compiling.yields_stage hsynthesize, Compiling.yields_stage hallocate, Compiling.yields_stage hgenerate⟩

end Compilation

end StreamLoom
