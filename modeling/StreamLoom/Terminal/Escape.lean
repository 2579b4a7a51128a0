/-!
# Escape sequences

The sequences by which a terminal is told to change the look of text: `ESC`, an opening bracket, the
attributes separated by semicolons, and an `m` at the end. A sequence may also have no attributes, or
be empty.
-/

namespace StreamLoom.Terminal

/-- A sequence under construction, and whether it has attributes already. -/
structure Escape where
  text : String := ""
  count : Nat := 0
deriving DecidableEq, Repr

namespace Escape

/-- A sequence that has no attributes yet. -/
def start : Escape := ⟨"\x1b", 0⟩

/-- A sequence of one attribute. -/
def single (code : String) : Escape := ⟨"\x1b[" ++ code, 1⟩

def reset : Escape := single "0"

def bold : Escape := single "1"

def underline : Escape := single "4"

/-- Adds an attribute, whose number is an unsigned word. -/
def add (e : Escape) (code : Nat) : Escape :=
  ⟨e.text ++ (if e.count > 0 then ";" else "[") ++ toString (code % 0x10000000000000000), e.count + 1⟩

/-- Sets the colour of the text. -/
def foreground (e : Escape) (colour : Nat) : Escape := e.add (colour + 30)

/-- Sets the colour behind the text. -/
def background (e : Escape) (colour : Nat) : Escape := e.add (colour + 40)

/-- The finished sequence. -/
def build (e : Escape) : String := e.text ++ "m"

end Escape

end StreamLoom.Terminal
