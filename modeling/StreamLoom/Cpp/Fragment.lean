import StreamLoom.Decimal.Shortest
import StreamLoom.Fault

/-!
# Fragments of C++

A program is built from fragments and written at the end. Statements that are not compound are
closed by a semicolon, and the lines of a nested scope are indented by one tab.
-/

namespace StreamLoom.Cpp

inductive Fragment where
  /-- A name, or anything else which is written as it is. -/
  | text (text : String)
  /-- Whole lines, which are written as they are. -/
  | verbatim (lines : String)
  | blankLine
  | int (value : Int)
  | real (value : Binary64)
  | bool (value : Bool)
  | binary (op : String) (left right : Fragment)
  | unary (op : String) (operand : Fragment)
  | element (array index : Fragment)
  | member (pointer : Fragment) (name : String)
  | commas (parts : List Fragment)
  | sequence (parts : List Fragment)
  | statements (parts : List Fragment)
  | call (function arguments : Fragment)
  | cast (type value : Fragment)
  | declare (type what start : Fragment)
  | assign (left right : Fragment)
  | increment (operand : Fragment)
  | branch (condition : Fragment) (first second : List Fragment)
  | loop (start condition step : Fragment) (body : List Fragment)
  | block (body : List Fragment)
  | parameter (type what : Fragment)
  | function (specifier : String) (type : Fragment) (name : String)
      (parameters body : List Fragment)
  | struct (name : String) (fields : List Fragment)
  | scope (name : String) (body : List Fragment)
  /-- A part that is left out. Only the arguments of a call and the start value of a variable can
  be. -/
  | missing

namespace Fragment

/-- What is written after a statement. -/
def terminator : Fragment → String
  | verbatim _ => ""
  | blankLine | branch .. | loop .. | block _ | function .. | struct .. | scope .. => "\n"
  | _ => ";\n"

/-- The lines of a nested scope. Blank lines stay blank. -/
def indent (body : String) : String :=
  "\n".intercalate ((body.splitOn "\n").map fun line => if line.isEmpty then "" else "\t" ++ line)

/-- A number, in parentheses when it is negative. -/
def literal (text : String) : String := if text.startsWith "-" then "(" ++ text ++ ")" else text

/-- A double is written such that it is not taken for an integer. -/
def realText (x : Binary64) : String :=
  let text := x.text
  literal (if text.toList.any fun c => c = '.' || c = 'e' || c = 'I' || c = 'N' then text
    else text ++ ".0")

def isMissing : Fragment → Bool
  | missing => true
  | _ => false

mutual

/-- The text of a fragment, in which nothing that is needed may be missing. -/
def render : Fragment → Except Fault String
  | text s => .ok s
  | verbatim s => .ok s
  | blankLine => .ok ""
  | int value => .ok (literal (toString value))
  | real value => .ok (realText value)
  | bool value => .ok (toString value)
  | binary op left right => do
    return "(" ++ (← left.render) ++ " " ++ op ++ " " ++ (← right.render) ++ ")"
  | unary op operand => do return "(" ++ op ++ (← operand.render) ++ ")"
  | element array index => do return (← array.render) ++ "[" ++ (← index.render) ++ "]"
  | member pointer name => do return (← pointer.render) ++ "->" ++ name
  | commas parts => do return ", ".intercalate (← renderAll parts)
  | sequence parts => do return String.join (← renderAll parts)
  | statements parts => renderStatements parts
  | call f missing => do return (← f.render) ++ "()"
  | call f arguments => do return (← f.render) ++ "(" ++ (← arguments.render) ++ ")"
  | cast type value => do
    return "static_cast<" ++ (← type.render) ++ ">(" ++ (← value.render) ++ ")"
  | declare type what missing => do return (← type.render) ++ " " ++ (← what.render)
  | declare type what start => do
    return (← type.render) ++ " " ++ (← what.render) ++ " = " ++ (← start.render)
  | assign left right => do return (← left.render) ++ " = " ++ (← right.render)
  | increment operand => do return "++" ++ (← operand.render)
  | branch condition first second => do
    let text := "if (" ++ (← condition.render) ++ ") \x7b\n" ++
      indent (← renderStatements first) ++ "\x7d"
    if second.isEmpty then return text
    else return text ++ " else \x7b\n" ++ indent (← renderStatements second) ++ "\x7d"
  | loop start condition step body => do
    return "for (" ++ (← start.render) ++ "; " ++ (← condition.render) ++ "; " ++
      (← step.render) ++ ") \x7b\n" ++ indent (← renderStatements body) ++ "\x7d"
  | block body => do return "\x7b\n" ++ indent (← renderStatements body) ++ "\x7d"
  | parameter type what => do return (← type.render) ++ " " ++ (← what.render)
  | function specifier type name parameters body => do
    return specifier ++ (← type.render) ++ " " ++ name ++ "(" ++
      ", ".intercalate (← renderAll parameters) ++ ") \x7b\n" ++
      indent (← renderStatements body) ++ "\x7d"
  | struct name fields => do
    return "struct " ++ name ++ " \x7b\n" ++ indent (← renderStatements fields) ++ "\x7d;"
  | scope name body => do
    return "namespace " ++ name ++ " \x7b\n\n" ++ (← renderStatements body) ++
      "\x7d // namespace " ++ name
  | missing => .error .missingPart

def renderAll : List Fragment → Except Fault (List String)
  | [] => .ok []
  | f :: rest => do
    let text ← f.render
    return text :: (← renderAll rest)

/-- The statements one after another, each on lines of its own. -/
def renderStatements : List Fragment → Except Fault String
  | [] => .ok ""
  | f :: rest => do
    let text ← f.render
    return text ++ f.terminator ++ (← renderStatements rest)

end

end Fragment

end StreamLoom.Cpp
