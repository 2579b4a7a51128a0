import StreamLoom.Term.Lexer

/-!
# Reading terms

The terms of a file are built from its lexemes with a stack of the brackets that are still open.
Reading stops at the first error, and the terms completed before it are kept.
-/

namespace StreamLoom.Term

/-- A bracket that is still open, where it was opened, and its elements in reverse. -/
structure OpenGroup where
  bracket : Bracket
  start : Nat
  reversed : List Term

/-- The terms of a file, and the error that ended them. -/
structure Parsed where
  terms : List Term
  error : Option SyntaxError

/-- The open brackets, innermost first, and the completed terms in reverse. -/
structure Progress where
  stack : List OpenGroup := []
  reversed : List Term := []

namespace Progress

/-- Adds a term to the innermost bracket. -/
def push (p : Progress) (t : Term) : Progress :=
  match p.stack with
  | [] => { p with reversed := t :: p.reversed }
  | g :: outer => { p with stack := { g with reversed := t :: g.reversed } :: outer }

/-- What an error says, and the position at which it arises. -/
abbrev Refusal := String × Nat

def step (p : Progress) : Lexeme → Except Refusal Progress
  | .opening bracket start => .ok { p with stack := ⟨bracket, start, []⟩ :: p.stack }
  | .word start value => .ok (p.push (.symbol (.ofLength start value.length) (String.ofList value)))
  | .unterminated start => .error ("unterminated string", start)
  | .closing bracket here =>
    match p.stack with
    | g :: outer =>
      if g.bracket = bracket then
        .ok ({ p with stack := outer }.push
          (.group (.ofLength g.start (here + 1 - g.start)) bracket g.reversed.reverse))
      else .error ("unexpected " ++ String.singleton bracket.closing, here)
    | [] => .error ("unexpected " ++ String.singleton bracket.closing, here)

end Progress

/-- Takes all lexemes of a text of the given length. -/
def parseFrom (length : Nat) (p : Progress) : List Lexeme → List Term × Option Progress.Refusal
  | [] => (p.reversed.reverse, if p.stack.isEmpty then none else some ("unexpected end-of-file", length))
  | l :: rest =>
    match p.step l with
    | .ok p => parseFrom length p rest
    | .error refusal => (p.reversed.reverse, some refusal)

/-- The terms of a file. An error is reported at the character where it arises, or at the very end
of the file. -/
def parse (file : SourceFile) : Parsed :=
  let length := file.contents.length
  let (terms, refusal) := parseFrom length {} (Lexeme.scan file.contents)
  ⟨terms, refusal.map fun (message, here) =>
    ⟨file, .ofLength here (min (here + 1) length - here), message⟩⟩

end StreamLoom.Term
