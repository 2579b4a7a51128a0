import StreamLoom.Decimal.Shortest
import StreamLoom.Llvm.Instruction
import StreamLoom.Text.Listing

/-!
# LLVM text

How modules are written. Results are numbered within each function, in the order in which they
appear; instructions without a result have no number.
-/

namespace StreamLoom.Llvm

/-! ### Constants -/

/-- Puts a fraction of zero where a decimal has no point. -/
def withPoint (text : String) : String :=
  if text.toList.any (· = '.') then text
  else
    let digits := text.toList.takeWhile (· ≠ 'e')
    let exponent := text.toList.dropWhile (· ≠ 'e')
    String.ofList digits ++ ".0" ++ String.ofList exponent

/-- The bits of a double in hexadecimal. -/
def bitsText (x : Binary64) : String :=
  "0x" ++ String.ofList ((Nat.toDigits 16 x.bits).map Char.toUpper)

/-- A double is written as a decimal when that is exact, and by its bits otherwise. -/
def realText (x : Binary64) : String :=
  match x with
  | .finite _ m e => if Binary64.isExactDecimal m e then withPoint x.text else bitsText x
  | _ => bitsText x

/-! ### Values -/

/-- The numbers of results, by their identifiers. -/
abbrev Numbering := Array Nat

/-- Numbers the results of a function. -/
def numbering (f : Function) : Numbering :=
  let code := f.blocks.toList.flatMap (·.code.toList)
  let size := code.foldl (fun n c => max n (c.1 + 1)) 0
  let results := (code.filter fun c => c.2.type ≠ .void).map (·.1)
  (results.zipIdx).foldl (fun numbers (id, number) => numbers.setIfInBounds id number)
    (Array.replicate size 0)

namespace Value

def text (numbers : Numbering) : Value → String
  | int _ x => toString x
  | bool x => toString x
  | real x => realText x
  | parameter name _ => "%" ++ name
  | result id _ => "%" ++ toString (numbers.getD id 0)

/-- A value after its type. -/
def typed (numbers : Numbering) (v : Value) : String := v.type.text ++ " " ++ v.text numbers

end Value

/-! ### Instructions -/

def BinaryOp.text : BinaryOp → String
  | add => "add"
  | sub => "sub"
  | mul => "mul"
  | sdiv => "sdiv"
  | srem => "srem"
  | and => "and"
  | or => "or"
  | xor => "xor"
  | fadd => "fadd"
  | fsub => "fsub"
  | fmul => "fmul"
  | fdiv => "fdiv"
  | frem => "frem"

def IntPredicate.text : IntPredicate → String
  | eq => "eq"
  | ne => "ne"
  | slt => "slt"
  | sle => "sle"
  | sgt => "sgt"
  | sge => "sge"

def RealPredicate.text : RealPredicate → String
  | oeq => "oeq"
  | one => "one"
  | olt => "olt"
  | ole => "ole"
  | ogt => "ogt"
  | oge => "oge"

def CastOp.text : CastOp → String
  | zext => "zext"
  | sitofp => "sitofp"
  | fptosi => "fptosi"
  | bitcast => "bitcast"

def Instruction.text (numbers : Numbering) (i : Instruction) : String :=
  let t (v : Value) : String := v.typed numbers
  let v (v : Value) : String := v.text numbers
  match i with
  | alloca type => "alloca " ++ type.text
  | load type pointer => "load " ++ type.text ++ ", " ++ t pointer
  | store value pointer => "store " ++ t value ++ ", " ++ t pointer
  | element type pointer indices =>
    "getelementptr " ++ ", ".intercalate (type.text :: t pointer :: indices.map t)
  | binary op x y => op.text ++ " " ++ t x ++ ", " ++ v y
  | negate x => "fneg " ++ t x
  | compareInt p x y => "icmp " ++ p.text ++ " " ++ t x ++ ", " ++ v y
  | compareReal p x y => "fcmp " ++ p.text ++ " " ++ t x ++ ", " ++ v y
  | select condition x y => "select " ++ t condition ++ ", " ++ t x ++ ", " ++ t y
  | cast op x type => op.text ++ " " ++ t x ++ " to " ++ type.text
  | call f arguments => "call double @" ++ f ++ "(" ++ ", ".intercalate (arguments.map t) ++ ")"

def Terminator.text (numbers : Numbering) : Terminator → String
  | jump label => "br label %" ++ label
  | branch condition first second =>
    "br " ++ condition.typed numbers ++ ", label %" ++ first ++ ", label %" ++ second
  | ret => "ret void"

/-! ### Modules -/

def Block.text (numbers : Numbering) (b : Block) : String :=
  let code := b.code.toList.map fun (id, i) =>
    (if i.type = .void then "" else (Value.result id i.type).text numbers ++ " = ") ++ i.text numbers
  let terminator := b.terminator.toList.map (·.text numbers)
  b.label ++ ":\n" ++ String.join ((code ++ terminator).map fun line => "\t" ++ line ++ "\n")

def Function.text (f : Function) : String :=
  let numbers := numbering f
  "define void @" ++ f.name ++ "(" ++ ", ".intercalate (parameters.map (·.typed #[])) ++ ") \x7b\n" ++
    "\n".intercalate (f.blocks.toList.map (·.text numbers)) ++ "\x7d"

def Item.text : Item → String
  | define f => f.text
  | declare name arity =>
    "declare double @" ++ name ++ "(" ++
      ", ".intercalate ((Text.numbered "%" arity).map (Ty.double.text ++ " " ++ ·)) ++ ")"

def Module.text (m : Module) : String :=
  let fields := ", ".intercalate (Ty.bufferFields.map (·.text))
  let lengths := ", ".intercalate (m.lengths.map fun n => (Value.index n).typed #[])
  "\n\n".intercalate ([
    "%buffer = type \x7b " ++ fields ++ " \x7d",
    "@buffer_lengths = constant [" ++ toString m.lengths.length ++ " x i64] [" ++ lengths ++ "]"] ++
    m.items.map (·.text)) ++ "\n"

end StreamLoom.Llvm
