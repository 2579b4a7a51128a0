import StreamLoom.Report

/-!
# Topics

Every stage of a compilation reports under a topic of its own, and only the topics that were asked
for are written. Two further topics have no records: under them the model is written as a whole,
once when it is built and once when its storage is known.
-/

namespace StreamLoom

inductive Topic where
  | reading
  | modeling
  | model
  | scheduling
  | nests
  | allocation
  | storage
  | generation
deriving DecidableEq, Repr

namespace Topic

def all : List Topic :=
  [reading, modeling, model, scheduling, nests, allocation, storage, generation]

def name : Topic → String
  | reading => "model"
  | modeling => "ph-model-gen"
  | model => "ph-model"
  | scheduling => "ph-scheduling"
  | nests => "ph-ast"
  | allocation => "storage-alloc"
  | storage => "storage"
  | generation => "codegen"

def ofName? (name : String) : Option Topic := all.find? (·.name = name)

def unknown (name : String) : Failure :=
  .usage ("unknown topic \"" ++ name ++ "\" (expected one of " ++
    ", ".intercalate (all.map Topic.name) ++ ")")

/-- The topics of the given names, the first of which that is not known is reported. -/
def ofNames (names : List String) : Except Failure (List Topic) :=
  names.mapM fun name =>
    match ofName? name with
    | some topic => .ok topic
    | none => .error (unknown name)

end Topic

/-- What a compilation writes besides its result. -/
inductive Message where
  | record (topic : Topic) (record : Record)
  | text (text : String)
deriving DecidableEq, Repr

end StreamLoom
