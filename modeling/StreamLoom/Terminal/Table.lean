import StreamLoom.Fault
import StreamLoom.Terminal.Escape
import StreamLoom.Text.Utf8

/-!
# Tables

Tables are printed with their cells to the right of each column, every one followed by a bar. A
column is as wide as its longest cell, unless it is narrowed; cells that do not fit are then cut, and
end with two dots. Widths count the bytes of a cell, while the blanks before it make up for its
characters.
-/

namespace StreamLoom.Terminal

structure Cell where
  text : String := ""
  /-- The escape sequence that stands before the cell, if any. -/
  escape : String := ""
deriving DecidableEq, Repr

structure Table where
  widths : List Nat
  rows : List (List Cell)
  /-- Whether escape sequences are printed. -/
  escapes : Bool := true
deriving DecidableEq, Repr

namespace Table

/-- A table of empty cells. -/
def blank (width height : Nat) : Table :=
  { widths := List.replicate width 0, rows := List.replicate height (List.replicate width {}) }

/-- Changes to a table. What a change has done before a fault remains. -/
abbrev Edit := ExceptT Fault (StateM Table)

def Edit.ofGuarded (x : Except Fault α) : Edit α := ExceptT.mk (pure x)

/-- The cell of a column and a row. -/
def get? (t : Table) (column row : Nat) : Except Fault Cell := do
  elementAt (← elementAt t.rows row) column

/-- Changes a cell. -/
def change (column row : Nat) (f : Cell → Cell) : Edit Unit := do
  let cell ← Edit.ofGuarded ((← get).get? column row)
  modify fun t => { t with rows := t.rows.modify row (·.set column (f cell)) }

/-- Puts a text into a cell, after its column has been made wide enough. -/
def set (column row : Nat) (text : String) : Edit Unit := do
  let width ← Edit.ofGuarded (elementAt (← get).widths column)
  modify fun t => { t with widths := t.widths.set column (max width text.utf8ByteSize) }
  change column row ({ · with text })

def setEscape (column row : Nat) (escape : String) : Edit Unit :=
  change column row ({ · with escape })

/-- Puts texts into all cells of a row. -/
def setRow (row : Nat) (texts : List String) : Edit Unit := do
  Edit.ofGuarded (require (texts.length = (← get).widths.length)
    (.broken "incorrect number of columns"))
  (texts.zipIdx).forM fun (text, column) => set column row text

/-- Narrows a column to the given width. -/
def narrow (column width : Nat) : Edit Unit := do
  let old ← Edit.ofGuarded (elementAt (← get).widths column)
  modify fun t => { t with widths := t.widths.set column (min old width) }

def enableEscapes (enabled : Bool) : Edit Unit := modify ({ · with escapes := enabled })

/-- Blanks before a text, such that it has at least the given number of characters. -/
def padded (width : Nat) (text : String) : String :=
  String.ofList (List.replicate (width - text.length) ' ') ++ text

/-- The start of a text in bytes, where a character that is cut is replaced. -/
def cut (bytes : Nat) (text : String) : String :=
  String.ofList (Text.decode (text.toUTF8.toList.take bytes))

/-- A cell in a column of the given width, which has to have room for two dots if it is cut. -/
def cellText? (width : Nat) (text : String) : Except Fault String :=
  if text.utf8ByteSize ≤ width then .ok (" " ++ padded width text)
  else if width < 2 then .error .partOutOfRange
  else .ok (" " ++ padded (width - 2) (cut (width - 2) text) ++ "..")

def printCell? (escapes : Bool) (width : Nat) (cell : Cell) : Except Fault String := do
  let text ← cellText? width cell.text
  if escapes && !cell.escape.isEmpty then
    return cell.escape ++ text ++ Escape.reset.build ++ " |"
  else return text ++ " |"

/-- The printed table. -/
def print? (t : Table) : Except Fault String := do
  let rows ← t.rows.mapM fun row => do
    let cells ← (t.widths.zip row).mapM fun (width, cell) => printCell? t.escapes width cell
    return String.join cells ++ "\n"
  return String.join rows

/-- A table of the given rows, without escape sequences. -/
def ofRows (width : Nat) (rows : List (List String)) : Except Fault Table :=
  let fill : Edit Unit := do
    enableEscapes false
    (rows.zipIdx).forM fun (texts, row) => setRow row texts
  match StateT.run (ExceptT.run fill) (blank width rows.length) with
  | (.ok (), t) => .ok t
  | (.error fault, _) => .error fault

end Table

end StreamLoom.Terminal
