/-!
# Listings

How lists of words and numbers are written: with single spaces in square brackets, or separated by
commas in a tuple.
-/

namespace StreamLoom.Text

/-- Words in square brackets, separated by single spaces. -/
def bracketed (words : List String) : String :=
  "[" ++ " ".intercalate words ++ "]"

def integers (xs : List Int) : String :=
  bracketed (xs.map toString)

def naturals (xs : List Nat) : String :=
  bracketed (xs.map toString)

/-- Words in square brackets, separated by commas. -/
def tuple (words : List String) : String :=
  "[" ++ ", ".intercalate words ++ "]"

/-- The names of `n` variables: a stem followed by their positions. -/
def numbered (stem : String) (n : Nat) : List String :=
  (List.range n).map fun i => stem ++ toString i

end StreamLoom.Text
