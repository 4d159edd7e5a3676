import Bareword.Text.Columns

/-! # Tables

Plain text tables with borders. Columns are as wide as their widest cell on a terminal.

* `Table.widths`: the widths of the columns.
* `Table.render`: a table as text; one without columns is empty.
-/

namespace Bareword
set_option autoImplicit false

/-- Where a cell stands in its column. -/
inductive Alignment where
  | left
  | center
  | right
  deriving DecidableEq, Repr

/-- A table. Rows may have different lengths; missing cells are empty, and columns without an
alignment are aligned left. -/
structure Table where
  header : List Text := []
  rows : List (List Text) := []
  headerAlignment : List Alignment := []
  columnAlignment : List Alignment := []

namespace Table

/-- The larger of two widths in every column. -/
def maxWidths : List Nat → List Nat → List Nat
  | [], ws => ws
  | ws, [] => ws
  | v :: vs, w :: ws => max v w :: maxWidths vs ws

def widths (t : Table) : List Nat :=
  (t.header :: t.rows).foldl (fun ws row => maxWidths ws (row.map Text.columns)) []

/-- A cell filled up with spaces to a width. -/
def pad (cell : Text) (width : Nat) (alignment : Alignment) : Text :=
  let gap := width - cell.columns
  match alignment with
  | .left => cell ++ Text.spaces gap
  | .right => Text.spaces gap ++ cell
  | .center => Text.spaces (gap / 2) ++ cell ++ Text.spaces (gap - gap / 2)

/-- The cells of a row, each after its blank and before its border. -/
def cells : List Nat → List Text → List Alignment → Text
  | [], _, _ => []
  | w :: ws, row, alignment =>
    " " ++ pad (row.headD []) w (alignment.headD .left) ++ " |" ++
      cells ws row.tail alignment.tail

def line (ws : List Nat) (alignment : List Alignment) (row : List Text) : Text :=
  "|" ++ cells ws row alignment ++ "\n"

/-- The line between the parts of a table. -/
def border (ws : List Nat) : Text :=
  "+" ++ ws.flatMap (fun w => List.replicate (w + 2) (Text.byte '-') ++ [Text.byte '+']) ++ "\n"

def render (t : Table) : Text :=
  let ws := t.widths
  if ws.isEmpty then []
  else
    let head := if t.header.isEmpty then [] else line ws t.headerAlignment t.header ++ border ws
    let body :=
      if t.rows.isEmpty then [] else t.rows.flatMap (line ws t.columnAlignment) ++ border ws
    border ws ++ head ++ body

end Table
end Bareword
