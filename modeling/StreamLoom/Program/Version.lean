/-!
# Versions of the format

A file may say which version of the format it is written in: up to three numbers, possibly followed
by a prerelease and by metadata. The first version of the format is understood, but none of its
prereleases.

Reading leaves all of this to a library of versions, whatever it takes for one. The library that is
used on the command line is that of semantic versions.
-/

namespace StreamLoom

structure Version where
  major : Nat
  minor : Nat
  patch : Nat
  prerelease : String
  metadata : String
deriving DecidableEq, Repr

/-- The versions that are understood. -/
def Version.supported : String := ">= 1.0.0, < 2.0.0"

/-- A library of versions. -/
class Versioning where
  /-- The version that a text denotes, or what is wrong with the text. -/
  parse : String → Except String Version
  /-- Whether a version is in the range `Version.supported`. -/
  isSupported : Version → Bool
  /-- The version in full. -/
  text : Version → String

/-! ### Semantic versions -/

namespace Version

def malformed : String := "Invalid Semantic Version"

/-- A nonempty sequence of digits at the start of a text. -/
def number? (cs : List Char) : Option (List Char × List Char) :=
  match cs.span Char.isDigit with
  | ([], _) => none
  | parts => some parts

/-- A further number after a point, where there is one. -/
def furtherNumber (cs : List Char) : List Char × List Char :=
  match cs with
  | '.' :: rest => (number? rest).getD ([], cs)
  | _ => ([], cs)

/-- Whether a text consists of nonempty identifiers separated by points. -/
def areIdentifiers (cs : List Char) : Bool :=
  (String.ofList cs).splitOn "." |>.all fun part =>
    !part.isEmpty && part.toList.all fun c => c.isAlphanum || c == '-'

/-- What follows a mark, up to the first plus sign. -/
def suffix? (mark : Char) (cs : List Char) : Option (List Char × List Char) :=
  match cs with
  | c :: rest =>
    if c = mark then
      let (text, rest) := rest.span (· ≠ '+')
      if areIdentifiers text then some (text, rest) else none
    else some ([], cs)
  | [] => some ([], [])

/-- The parts of a version as they are written. -/
structure Parts where
  numbers : List (List Char)
  prerelease : List Char
  metadata : List Char

def parts? (text : String) : Option Parts := do
  let cs := match text.toList with
    | 'v' :: rest => rest
    | cs => cs
  let (major, cs) ← number? cs
  let (minor, cs) := furtherNumber cs
  let (patch, cs) := furtherNumber cs
  let (prerelease, cs) ← suffix? '-' cs
  let (metadata, cs) ← suffix? '+' cs
  if cs.isEmpty then some ⟨[major, minor, patch], prerelease, metadata⟩ else none

/-- The value of a number, which has to fit an unsigned 64-bit word. -/
def numberValue (digits : List Char) : Except String Nat :=
  let n := digits.foldl (fun n c => 10 * n + (c.toNat - '0'.toNat)) 0
  if n < 0x10000000000000000 then .ok n
  else .error ("Error parsing version segment: strconv.ParseUint: parsing \"" ++
    String.ofList digits ++ "\": value out of range")

/-- A numeric identifier of a prerelease has no leading zero. -/
def hasLeadingZero (prerelease : List Char) : Bool :=
  (String.ofList prerelease).splitOn "." |>.any fun part =>
    part.length > 1 && part.startsWith "0" && part.toList.all Char.isDigit

/-- The version that a text denotes, or what is wrong with it. -/
def parse (text : String) : Except String Version := do
  match parts? text with
  | none => .error malformed
  | some parts =>
    match ← parts.numbers.mapM numberValue with
    | [major, minor, patch] =>
      if hasLeadingZero parts.prerelease then .error "Version segment starts with 0"
      else .ok ⟨major, minor, patch, String.ofList parts.prerelease, String.ofList parts.metadata⟩
    | _ => .error malformed

def isSupported (v : Version) : Bool := v.major == 1 && v.prerelease.isEmpty

def text (v : Version) : String :=
  toString v.major ++ "." ++ toString v.minor ++ "." ++ toString v.patch ++
    (if v.prerelease.isEmpty then "" else "-" ++ v.prerelease) ++
    (if v.metadata.isEmpty then "" else "+" ++ v.metadata)

instance semantic : Versioning := ⟨parse, isSupported, text⟩

end Version

end StreamLoom
