import StreamLoom.Arithmetic.Basic
import StreamLoom.Fault

/-!
# Source files

A source file is a named text. Spans count its characters, so that an error can be shown with the
line on which it starts.
-/

namespace StreamLoom

/-- A contiguous range of characters, the last of which is not included. -/
structure Span where
  start : Int
  stop : Int
  ordered : start ≤ stop
deriving DecidableEq

namespace Span

/-- The span between two positions, which have to be in order. -/
def between (start stop : Int) : Except Fault Span :=
  if h : start ≤ stop then .ok ⟨start, stop, h⟩ else .error (.broken "invalid span")

/-- The span of some characters from a position on. -/
def ofLength (start length : Nat) : Span := ⟨start, start + length, by omega⟩

def length [Arithmetic] (s : Span) : Int := fit (s.stop - s.start)

/-- The span of nothing, at the very start. -/
def origin : Span := ofLength 0 0

end Span

structure SourceFile where
  name : String
  contents : List Char
deriving DecidableEq

/-- A line of a file: its number (counting from one), where it starts, and its text without the
line break. -/
structure SourceLine where
  number : Nat
  start : Nat
  contents : List Char
deriving DecidableEq

namespace SourceFile

/-- Stands for a file that is not known. -/
def unknown : SourceFile := ⟨"<unknown>", []⟩

/-- The line that is `before` characters after position `here` of line `number`, which starts at
`start`, where `line` is the rest of the text from there. -/
def lineFrom (number start here : Nat) (line : List Char) : Nat → List Char → SourceLine
  | before + 1, c :: rest =>
    if c = '\n' then lineFrom (number + 1) (here + 1) (here + 1) rest before rest
    else lineFrom number start (here + 1) line before rest
  | _, _ => ⟨number, start, line.takeWhile (· ≠ '\n')⟩

/-- The line that contains the start of a span, or the last line when the span starts later. -/
def lineAt (f : SourceFile) (span : Span) : SourceLine :=
  lineFrom 1 0 0 f.contents span.start.toNat f.contents

end SourceFile

/-- An error at a span of a file. -/
structure SyntaxError where
  file : SourceFile
  span : Span
  message : String
deriving DecidableEq

namespace SyntaxError

/-- The line on which the error starts. -/
def line (e : SyntaxError) : SourceLine := e.file.lineAt e.span

/-- The message, after the file and the line at which it arises. -/
def text (e : SyntaxError) : String :=
  e.file.name ++ ":" ++ toString e.line.number ++ ": " ++ e.message

end SyntaxError

/-- Where a part of a program was written. -/
structure Origin where
  file : SourceFile
  span : Span
deriving DecidableEq

def Origin.error (o : Origin) (message : String) : SyntaxError := ⟨o.file, o.span, message⟩

end StreamLoom
