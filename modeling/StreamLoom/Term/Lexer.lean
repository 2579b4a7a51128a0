import StreamLoom.Term.Basic
import StreamLoom.Text.Blank

/-!
# Lexemes of terms

The text of a file is cut into brackets and words. Blanks separate words, as do brackets and
comments, which extend from a semicolon to the end of the line. A word that starts with a quote ends
at the next quote, whatever is in between.
-/

namespace StreamLoom

/-- A lexeme and the position at which it starts. -/
inductive Lexeme where
  | opening (bracket : Bracket) (start : Nat)
  | closing (bracket : Bracket) (start : Nat)
  | word (start : Nat) (value : List Char)
  | unterminated (start : Nat)
deriving DecidableEq, Repr

namespace Lexeme

/-- What the scanner is in the middle of; words are held in reverse. -/
inductive Mode where
  | blank
  | comment
  | word (start : Nat) (reversed : List Char)
  | quoted (start : Nat) (reversed : List Char)

/-- Whether a character ends a word. -/
def isDelimiter (c : Char) : Bool :=
  c == '(' || c == ')' || c == '[' || c == ']' || c == ';' || Text.isBlank c

/-- The lexeme that a character between words is, if it is one, and what it begins. -/
def initial (here : Nat) (c : Char) : List Lexeme × Mode :=
  if c = ';' then ([], .comment)
  else if Text.isBlank c then ([], .blank)
  else if c = '(' then ([.opening .round here], .blank)
  else if c = '[' then ([.opening .square here], .blank)
  else if c = ')' then ([.closing .round here], .blank)
  else if c = ']' then ([.closing .square here], .blank)
  else if c = '"' then ([], .quoted here [c])
  else ([], .word here [c])

/-- Takes one character, which completes some lexemes and leads to another mode. -/
def advance (here : Nat) (c : Char) : Mode → List Lexeme × Mode
  | .blank => initial here c
  | .comment => ([], if c = '\n' then .blank else .comment)
  | .word start reversed =>
    if isDelimiter c then
      let (lexemes, mode) := initial here c
      (.word start reversed.reverse :: lexemes, mode)
    else ([], .word start (c :: reversed))
  | .quoted start reversed =>
    if c = '"' then ([.word start (c :: reversed).reverse], .blank)
    else ([], .quoted start (c :: reversed))

/-- The lexeme that the end of the text completes. -/
def finish : Mode → List Lexeme
  | .blank | .comment => []
  | .word start reversed => [.word start reversed.reverse]
  | .quoted start _ => [.unterminated start]

def scanFrom (mode : Mode) (here : Nat) : List Char → List Lexeme
  | [] => finish mode
  | c :: rest =>
    let (lexemes, mode) := advance here c mode
    lexemes ++ scanFrom mode (here + 1) rest

def scan (text : List Char) : List Lexeme := scanFrom .blank 0 text

end Lexeme

end StreamLoom
