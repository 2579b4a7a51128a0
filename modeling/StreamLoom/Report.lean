import StreamLoom.Failure

/-!
# Reports

The stages of a compilation report what they do. A stage ends in a value or in a failure, and the
records that it made until then remain.
-/

namespace StreamLoom

inductive Level where
  | debug
  | warning
deriving DecidableEq, Repr

structure Record where
  level : Level
  message : String
deriving DecidableEq, Repr

/-- A computation which makes records, and which may fail. -/
abbrev Stage := ExceptT Failure (StateM (List Record))

namespace Stage

def record (level : Level) (message : String) : Stage Unit :=
  modify (· ++ [⟨level, message⟩])

def debug (message : String) : Stage Unit := record .debug message

def warn (message : String) : Stage Unit := record .warning message

def ofExcept (x : Except Failure α) : Stage α := ExceptT.mk (pure x)

def ofGuarded (x : Except Fault α) : Stage α := ofExcept (x.mapError .fault)

/-- How a stage ends, and its records. -/
def execute (s : Stage α) : Except Failure α × List Record := StateT.run (ExceptT.run s) []

end Stage

end StreamLoom
