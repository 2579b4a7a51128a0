/-!
# Flags

A command is given flags and arguments in any order. A flag is written with its name after two
dashes or with its letter after one, and its value after an equals sign or as the next argument.
Switches need no value, and several letters may share a dash. Two dashes alone end the flags.
-/

namespace StreamLoom.Command

inductive FlagKind where
  /-- On or off, and on when no value is given. -/
  | switch
  /-- A text, of which the last one given counts. -/
  | text
  /-- Texts, all of which count. -/
  | texts
deriving DecidableEq, Repr

structure Flag where
  name : String
  letter : Option Char := none
  kind : FlagKind := .switch
  purpose : String
  default : String := ""
deriving DecidableEq, Repr

/-- The words for on and off. -/
def truth? (word : String) : Option Bool :=
  if ["1", "t", "T", "TRUE", "true", "True"].contains word then some true
  else if ["0", "f", "F", "FALSE", "false", "False"].contains word then some false
  else none

namespace Flag

def isSwitch (f : Flag) : Bool := f.kind = .switch

def accepts (f : Flag) (value : String) : Bool := !f.isSwitch || (truth? value).isSome

def named? (flags : List Flag) (name : String) : Option Flag := flags.find? (·.name = name)

def lettered? (flags : List Flag) (letter : Char) : Option Flag :=
  flags.find? (·.letter = some letter)

end Flag

/-- The values given to flags, in order. -/
abbrev Settings := List (String × String)

namespace Settings

def texts (s : Settings) (name : String) : List String :=
  (s.filter (·.1 = name)).map (·.2)

def text (s : Settings) (name default : String) : String := ((s.texts name).getLast?).getD default

def isOn (s : Settings) (name : String) : Bool := (truth? (s.text name "false")).getD false

end Settings

/-! ### Reading flags -/

/-- The flags read so far, and the one whose value comes next. -/
structure Usage where
  settings : Settings := []
  arguments : List String := []
  pending : Option Flag := none
  /-- Whether the flags have ended. -/
  closed : Bool := false

namespace Usage

def give (u : Usage) (flag : Flag) (value : String) : Option Usage :=
  if flag.accepts value then
    some { u with settings := u.settings ++ [(flag.name, value)], pending := none }
  else none

/-- Reads a flag by its name. -/
def long (flags : List Flag) (u : Usage) (text : List Char) : Option Usage := do
  let name := text.takeWhile (· ≠ '=')
  let flag ← Flag.named? flags (String.ofList name)
  match text.drop name.length with
  | _ :: value => u.give flag (String.ofList value)
  | [] => if flag.isSwitch then u.give flag "true" else some { u with pending := some flag }

/-- Reads flags by their letters, the last of which may be followed by its value. -/
def short (flags : List Flag) (u : Usage) : List Char → Option Usage
  | [] => some u
  | letter :: rest => do
    let flag ← Flag.lettered? flags letter
    match rest with
    | '=' :: c :: value => u.give flag (String.ofList (c :: value))
    | _ =>
      if flag.isSwitch then
        let u ← u.give flag "true"
        short flags u rest
      else if rest.isEmpty then some { u with pending := some flag }
      else u.give flag (String.ofList rest)

/-- Reads the next argument. -/
def next (flags : List Flag) (u : Usage) (arg : String) : Option Usage :=
  match u.pending with
  | some flag => u.give flag arg
  | none =>
    if u.closed then some { u with arguments := u.arguments ++ [arg] }
    else match arg.toList with
      | ['-', '-'] => some { u with closed := true }
      | '-' :: '-' :: text => u.long flags text
      | '-' :: c :: letters => short flags u (c :: letters)
      | _ => some { u with arguments := u.arguments ++ [arg] }

end Usage

/-- The flags and arguments of a command, unless a flag is not known or has no proper value. -/
def parse (flags : List Flag) (args : List String) : Option (Settings × List String) := do
  let usage ← args.foldlM (Usage.next flags) {}
  if usage.pending.isSome then none else some (usage.settings, usage.arguments)

/-! ### Finding words -/

/-- Whether the value of a flag is the next argument. A flag that is not known is taken to have
one. -/
def takesNext (flags : List Flag) (arg : String) : Bool :=
  if arg.contains '=' then false
  else match arg.toList with
    | '-' :: '-' :: name => !((Flag.named? flags (String.ofList name)).any Flag.isSwitch)
    | ['-', letter] => letter.utf8Size = 1 && !((Flag.lettered? flags letter).any Flag.isSwitch)
    | _ => false

/-- The arguments that are neither flags nor their values. When a value is the last argument or
missing, there are no more. -/
def words (flags : List Flag) : List String → List String
  | [] => []
  | arg :: rest =>
    if arg = "--" then []
    else if takesNext flags arg then
      match rest with
      | _ :: next :: more => words flags (next :: more)
      | _ => []
    else if arg.isEmpty || arg.startsWith "-" then words flags rest
    else arg :: words flags rest
termination_by args => args.length

/-- The arguments without the first one that is the given word. -/
def withoutWord (flags : List Flag) (word : String) : List String → List String
  | [] => []
  | arg :: rest =>
    if arg = "--" then arg :: rest
    else if takesNext flags arg then
      match rest with
      | value :: rest => arg :: value :: withoutWord flags word rest
      | [] => [arg]
    else if arg = word then rest
    else arg :: withoutWord flags word rest

end StreamLoom.Command
