import StreamLoom.Source.File

/-!
# Terms

Programs are written as terms: symbols, lists of terms in parentheses and arrays of terms in square
brackets. Each term carries the span of the file that it was read from.
-/

namespace StreamLoom

/-- The two kinds of brackets that enclose terms. -/
inductive Bracket where
  | round
  | square
deriving DecidableEq, Repr

namespace Bracket

def opening : Bracket → Char
  | round => '('
  | square => '['

def closing : Bracket → Char
  | round => ')'
  | square => ']'

end Bracket

inductive Term where
  | symbol (span : Span) (value : String)
  | group (span : Span) (bracket : Bracket) (elements : List Term)

namespace Term

def span : Term → Span
  | symbol span _ => span
  | group span _ _ => span

/-- The value of a symbol. -/
def symbol? : Term → Option String
  | symbol _ value => some value
  | group .. => none

/-- The elements of a list. -/
def list? : Term → Option (List Term)
  | group _ .round elements => some elements
  | _ => none

/-- The elements of an array. -/
def array? : Term → Option (List Term)
  | group _ .square elements => some elements
  | _ => none

def isSymbol (t : Term) : Bool := t.symbol?.isSome

/-- Whether the value of a symbol is a quoted string. -/
def isQuoted (value : String) : Bool :=
  match value.toList with
  | '"' :: rest => rest.getLast? == some '"'
  | _ => false

/-- The value of a symbol without the quotes of a quoted string. -/
def unquoted (value : String) : String :=
  if isQuoted value then String.ofList value.toList.tail.dropLast else value

mutual

/-- The term with its elements separated by single spaces. -/
def text : Term → String
  | symbol _ value => value
  | group _ bracket elements =>
    String.singleton bracket.opening ++ textAll elements ++ String.singleton bracket.closing

def textAll : List Term → String
  | [] => ""
  | [t] => t.text
  | t :: rest => t.text ++ " " ++ textAll rest

end

/-- Whether some terms are at least `n`, the first of which are the given symbols. -/
def startWith (elements : List Term) (n : Nat) (symbols : List String) : Bool :=
  n ≤ elements.length && symbols.length ≤ n &&
    (symbols.zip elements).all fun (expected, t) => t.symbol? == some expected

end Term

end StreamLoom
