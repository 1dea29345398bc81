import Cil.Text.Digits

/-! Tables of text in columns.

Every column is as wide as its widest cell, two spaces stand between columns, and
no line ends in a blank. -/
namespace Cil.Text

inductive Align where
  | left
  | right
  deriving DecidableEq, Repr

def pad (align : Align) (width : Nat) (s : String) : String :=
  let blanks := repeated (width - s.length) ' '
  match align with
  | .left => s ++ blanks
  | .right => blanks ++ s

/-- The text without the blanks at its end. -/
def trimEnd (s : String) : String :=
  String.ofList (s.toList.reverse.dropWhile (· == ' ')).reverse

/-- The widths of the columns of these rows. -/
def widths (columns : List Align) (rows : List (List String)) : List Nat :=
  rows.foldl (fun widest row => List.zipWith (fun w cell => max w cell.length) widest row)
    (columns.map fun _ => 0)

/-- The lines of a table. -/
def layout (columns : List Align) (rows : List (List String)) : List String :=
  let widths := widths columns rows
  rows.map fun row =>
    trimEnd (String.intercalate "  "
      (List.zipWith (fun (align, width) cell => pad align width cell) (columns.zip widths) row))

end Cil.Text
