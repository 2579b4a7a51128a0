import StreamLoom.Decimal.Binary64

/-!
# Numerals

The words that denote numbers. An integer is a sequence of decimal digits with an optional sign that
fits a signed 64-bit word. A real is written in decimal with an optional fraction and exponent, or in
hexadecimal with an exponent of two, or is one of the words for infinity and for no number at all.
Underscores may separate the digits of a real.
-/

namespace StreamLoom.Numeral

/-- The value of a digit of a given base. -/
def digit? (base : Nat) (c : Char) : Option Nat :=
  let value :=
    if c.isDigit then c.toNat - '0'.toNat
    else if 'a' ≤ c ∧ c ≤ 'f' then c.toNat - 'a'.toNat + 10
    else if 'A' ≤ c ∧ c ≤ 'F' then c.toNat - 'A'.toNat + 10
    else base
  if value < base then some value else none

/-- An optional sign, and whether it was a minus. -/
def sign : List Char → Bool × List Char
  | '-' :: rest => (true, rest)
  | '+' :: rest => (false, rest)
  | cs => (false, cs)

/-- The integer that a word denotes. -/
def integer? (word : String) : Option Int :=
  let (negative, digits) := sign word.toList
  if digits.isEmpty ∨ !digits.all Char.isDigit then none
  else
    let n : Int := digits.foldl (fun n c => 10 * n + (c.toNat - '0'.toNat)) 0
    let x := if negative then -n else n
    if -0x8000000000000000 ≤ x ∧ x < 0x8000000000000000 then some x else none

/-! ### Underscores -/

/-- What the last character was, as far as underscores are concerned. -/
inductive Seen where
  | start
  | digit
  | underscore
  | other
deriving DecidableEq

/-- An underscore has to follow a digit and to be followed by one. -/
def separates (base : Nat) : Seen → List Char → Bool
  | seen, [] => seen ≠ .underscore
  | seen, c :: rest =>
    if (digit? base c).isSome then separates base .digit rest
    else if c = '_' then seen = .digit && separates base .underscore rest
    else seen ≠ .underscore && separates base .other rest

/-- Whether the underscores of a word separate digits; the mark of a base counts as a digit. -/
def underscoresOk (word : List Char) : Bool :=
  match (sign word).2 with
  | '0' :: mark :: rest =>
    if mark = 'x' ∨ mark = 'X' then separates 16 .digit rest
    else if mark ∈ ['b', 'B', 'o', 'O'] then separates 10 .digit rest
    else separates 10 .start ('0' :: mark :: rest)
  | cs => separates 10 .start cs

/-! ### Reals -/

/-- Digits that have been read: their value, how many there were at all, and how many after the
point, once there was one. -/
structure Digits where
  value : Nat := 0
  count : Nat := 0
  places : Nat := 0
  pointed : Bool := false

/-- The longest sequence of digits, underscores and at most one point. -/
def digits (base : Nat) (d : Digits) : List Char → Digits × List Char
  | [] => (d, [])
  | c :: rest =>
    if c = '_' then digits base d rest
    else if c = '.' ∧ !d.pointed then digits base { d with pointed := true } rest
    else match digit? base c with
      | some v => digits base { d with
          value := base * d.value + v
          count := d.count + 1
          places := if d.pointed then d.places + 1 else d.places } rest
      | none => (d, c :: rest)

/-- The digits of an exponent. It stops growing once it is beyond any double. -/
def exponentDigits (e : Nat) : List Char → Nat × List Char
  | [] => (e, [])
  | c :: rest =>
    if c = '_' then exponentDigits e rest
    else if c.isDigit then
      exponentDigits (if e < 10000 then 10 * e + (c.toNat - '0'.toNat) else e) rest
    else (e, c :: rest)

/-- The exponent after its mark, which has to be the rest of the word. -/
def exponent? (cs : List Char) : Option Int :=
  let (negative, cs) := sign cs
  match cs with
  | [] => none
  | c :: _ =>
    if !c.isDigit then none
    else match exponentDigits 0 cs with
      | (e, []) => some (if negative then -e else e)
      | _ => none

/-- The double nearest to `value * 10 ^ e`. Far beyond the range of doubles there is no need to
compute the power. -/
def decimal? (negative : Bool) (value : Nat) (e : Int) : Option Binary64 :=
  if value = 0 then Binary64.ofQuotient negative 0 1
  else
    let size : Int := (Nat.toDigits 10 value).length + e
    if size > 400 then none
    else if size < -400 then Binary64.ofQuotient negative 0 1
    else if e ≥ 0 then Binary64.ofQuotient negative (value * Nat.pow 10 e.toNat) 1
    else Binary64.ofQuotient negative value (Nat.pow 10 (-e).toNat)

/-- The double nearest to `value * 2 ^ e`. -/
def binary? (negative : Bool) (value : Nat) (e : Int) : Option Binary64 :=
  let size : Int := value.log2 + e
  if value = 0 ∨ size < -1200 then Binary64.ofQuotient negative 0 1
  else if size > 1200 then none
  else
    let (num, den) := Binary64.shifted value 1 e
    Binary64.ofQuotient negative num den

/-- A word for infinity or for no number, in any case. -/
def named? (word : List Char) : Option Binary64 :=
  let (negative, rest) := sign word
  let lower := String.ofList (rest.map Char.toLower)
  if lower = "inf" ∨ lower = "infinity" then some (.infinite negative)
  else if String.ofList (word.map Char.toLower) = "nan" then some .nan
  else none

/-- A real in hexadecimal, without its sign and the mark of the base. It needs an exponent. -/
def hexadecimal? (negative : Bool) (cs : List Char) : Option Binary64 := do
  let (d, rest) := digits 16 {} cs
  match rest with
  | mark :: rest =>
    if d.count = 0 ∨ (mark ≠ 'p' ∧ mark ≠ 'P') then none
    else binary? negative d.value ((← exponent? rest) - 4 * (d.places : Int))
  | [] => none

/-- A real in decimal, without its sign. -/
def plain? (negative : Bool) (cs : List Char) : Option Binary64 := do
  let (d, rest) := digits 10 {} cs
  if d.count = 0 then none
  else match rest with
    | [] => decimal? negative d.value (-(d.places : Int))
    | mark :: rest =>
      if mark ≠ 'e' ∧ mark ≠ 'E' then none
      else decimal? negative d.value ((← exponent? rest) - (d.places : Int))

/-- The real that a word denotes. -/
def real? (word : String) : Option Binary64 :=
  let cs := word.toList
  let (negative, unsigned) := sign cs
  match named? cs with
  | some x => some x
  | none =>
    if cs.contains '_' && !underscoresOk cs then none
    else match unsigned with
      | '0' :: mark :: c :: rest =>
        if mark = 'x' ∨ mark = 'X' then hexadecimal? negative (c :: rest)
        else plain? negative unsigned
      | _ => plain? negative unsigned

end StreamLoom.Numeral
