import StreamLoom.Source.File

/-!
# Spans by key

An atlas holds one map of spans per file, by keys, and knows which of the files take part in a
compilation. A key is looked up in those files in the order in which they joined.
-/

namespace StreamLoom

/-- The spans of the keys that were found in a file. -/
structure SpanMap where
  file : SourceFile
  spans : List (String × Span) := []

namespace SpanMap

def find? (m : SpanMap) (key : String) : Option Span := m.spans.lookup key

def has (m : SpanMap) (key : String) : Bool := (m.find? key).isSome

/-- A key is recorded only once. -/
def put (m : SpanMap) (key : String) (span : Span) : Except Fault SpanMap :=
  if m.has key then .error (.broken ("source map key already exists: " ++ key))
  else .ok { m with spans := (key, span) :: m.spans }

def get (m : SpanMap) (key : String) : Except Fault Span :=
  match m.find? key with
  | some span => .ok span
  | none => .error (.broken ("invalid source map key: " ++ key))

end SpanMap

/-- The maps of several files, and which of them have joined. -/
structure Atlas where
  maps : List SpanMap
  joined : List Nat := []

namespace Atlas

def ofFiles (files : List SourceFile) : Atlas := ⟨files.map fun file => ⟨file, []⟩, []⟩

def map (a : Atlas) (file : Int) : Except Fault SpanMap := elementAt a.maps file

def put (a : Atlas) (file : Int) (key : String) (start stop : Int) : Except Fault Atlas := do
  let span ← Span.between start stop
  let map ← a.map file
  return { a with maps := a.maps.set file.toNat (← map.put key span) }

def join (a : Atlas) (file : Int) : Except Fault Atlas := do
  let _ ← a.map file
  return { a with joined := a.joined ++ [file.toNat] }

/-- The first file with a key, and the span of the key in it. -/
def locate? (a : Atlas) (key : String) : Option Origin :=
  a.joined.findSome? fun i => do
    let map ← a.maps[i]?
    return ⟨map.file, ← map.find? key⟩

def has (a : Atlas) (key : String) : Bool := (a.locate? key).isSome

def error (a : Atlas) (key message : String) : Except Fault SyntaxError :=
  match a.locate? key with
  | some origin => .ok (origin.error message)
  | none => .error (.broken "missing mapping for source node")

end Atlas

end StreamLoom
