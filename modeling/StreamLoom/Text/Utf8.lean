/-!
# Decoding of files

Files hold UTF-8. A byte that is not part of a valid sequence is read as one replacement character,
so that every file has a text.
-/

namespace StreamLoom.Text

/-- Stands for a byte that cannot be decoded. -/
def replacement : Char := Char.ofNat 0xfffd

/-- The low bits of a continuation byte. -/
def continuation? (b : UInt8) : Option Nat :=
  if 0x80 ≤ b ∧ b < 0xc0 then some (b.toNat - 0x80) else none

/-- The character of a sequence of two bytes. -/
def pair? (b0 b1 : UInt8) : Option Char := do
  let c1 ← continuation? b1
  if 0xc2 ≤ b0 ∧ b0 < 0xe0 then some (Char.ofNat ((b0.toNat - 0xc0) * 0x40 + c1)) else none

/-- The character of a sequence of three bytes, which is neither overlong nor a surrogate. -/
def triple? (b0 b1 b2 : UInt8) : Option Char := do
  let c1 ← continuation? b1
  let c2 ← continuation? b2
  let code := (b0.toNat - 0xe0) * 0x1000 + c1 * 0x40 + c2
  if 0xe0 ≤ b0 ∧ b0 < 0xf0 ∧ 0x800 ≤ code ∧ ¬(0xd800 ≤ code ∧ code < 0xe000) then
    some (Char.ofNat code)
  else none

/-- The character of a sequence of four bytes. -/
def quadruple? (b0 b1 b2 b3 : UInt8) : Option Char := do
  let c1 ← continuation? b1
  let c2 ← continuation? b2
  let c3 ← continuation? b3
  let code := (b0.toNat - 0xf0) * 0x40000 + c1 * 0x1000 + c2 * 0x40 + c3
  if 0xf0 ≤ b0 ∧ b0 < 0xf8 ∧ 0x10000 ≤ code ∧ code < 0x110000 then some (Char.ofNat code) else none

/-- The character that some bytes start with, and how many further bytes it takes. -/
def head (b0 : UInt8) (rest : List UInt8) : Char × Nat :=
  if b0 < 0x80 then (Char.ofNat b0.toNat, 0)
  else
    let b (i : Nat) : UInt8 := rest.getD i 0
    match pair? b0 (b 0), triple? b0 (b 0) (b 1), quadruple? b0 (b 0) (b 1) (b 2) with
    | some c, _, _ => (c, 1)
    | none, some c, _ => (c, 2)
    | none, none, some c => (c, 3)
    | none, none, none => (replacement, 0)

/-- The text of some bytes, the first of which belong to a character already taken. -/
def decodeFrom : Nat → List UInt8 → List Char
  | _, [] => []
  | taken + 1, _ :: rest => decodeFrom taken rest
  | 0, b :: rest =>
    let (c, more) := head b rest
    c :: decodeFrom more rest

/-- The text of some bytes. -/
def decode (bytes : List UInt8) : List Char := decodeFrom 0 bytes

end StreamLoom.Text
