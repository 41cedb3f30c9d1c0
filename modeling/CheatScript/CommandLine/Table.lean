import CheatScript.Text.Width

/-!
# Tables

Tables of text with ruled lines. Header cells are centred, the odd blank to the right; the cells
below are set left.
-/

namespace CheatScript.Table

/-- Blanks. -/
def blanks (n : Nat) : Bytes := List.replicate n Byte.space

/-- A text set left in a number of columns. -/
def left (width : Nat) (s : Bytes) : Bytes := s ++ blanks (width - Width.ofText s)

/-- A text in the middle of a number of columns. -/
def centre (width : Nat) (s : Bytes) : Bytes :=
  let gap := width - Width.ofText s
  blanks (gap / 2) ++ s ++ blanks (gap - gap / 2)

/-- The widths of the columns of a table. -/
def widths (header : List Bytes) (rows : List (List Bytes)) : List Nat :=
  rows.foldl (fun ws row => ws.zipWith (fun w cell => max w (Width.ofText cell)) row)
    (header.map Width.ofText)

/-- A rule. -/
def rule (ws : List Nat) : Bytes :=
  [Byte.plus] ++ (ws.flatMap fun w => List.replicate (w + 2) Byte.minus ++ [Byte.plus])
    ++ [Byte.newline]

/-- A row of cells. -/
def rowText (align : Nat → Bytes → Bytes) (ws : List Nat) (row : List Bytes) : Bytes :=
  ascii "|" ++ ((ws.zip row).flatMap fun (w, cell) => ascii " " ++ align w cell ++ ascii " |")
    ++ [Byte.newline]

/-- The text of a table. -/
def text (header : List Bytes) (rows : List (List Bytes)) : Bytes :=
  let ws := widths header rows
  rule ws ++ rowText centre ws header ++ rule ws ++ rows.flatMap (rowText left ws) ++ rule ws

end CheatScript.Table
