import ThreeAddress.Viewer.Picture

/-!
# Panes

A pane is a list of lines in a box with a title, scrolled down by an offset. The offset is kept so
small that the box is full whenever there are enough lines. A pane without lines shows a message.
-/

namespace ThreeAddress.Viewer

structure Pane where
  title : String
  lines : List Line
  emptyMessage : String
  deriving Repr

namespace Pane

/-- How many lines a pane of the given height has room for. Even the smallest counts one. -/
def page (height : Nat) : Nat :=
  max 1 (height - 2)

/-- The offset nearest to the given one with which a full page is shown if possible. -/
def clamp (offset total page : Nat) : Nat :=
  if page < total then min offset (total - page) else 0

def offsetIn (pane : Pane) (height offset : Nat) : Nat :=
  clamp offset pane.lines.length (page height)

def borderStyle (focused : Bool) : Style :=
  if focused then .strong Palette.focusedBorder else .colored Palette.border

/-- The rows of cells inside the box, as far as they are written, and the cell behind them. -/
def contents (pane : Pane) (height offset : Nat) : List (List Cell) × Cell :=
  if pane.lines.isEmpty then
    let style := Style.colored Palette.faint
    ([Line.cells [⟨pane.emptyMessage, style⟩]], ⟨' ', style⟩)
  else
    let shown := (pane.lines.drop (pane.offsetIn height offset)).take (page height)
    (shown.map fun line => Cell.blank :: line.cells, .blank)

/-- The box of the given size around the contents, with the title on its upper side. -/
def draw (pane : Pane) (width height : Nat) (focused : Bool) (offset : Nat) : Picture :=
  let style := borderStyle focused
  let side (upper middle lower : Char) (row : Nat) : Cell :=
    ⟨if row = 0 then upper else if row + 1 = height then lower else middle, style⟩
  let title := pane.title.toList
  let (rows, background) := pane.contents height offset
  ⟨width, height, fun column row =>
    if column = 0 then side '┌' '│' '└' row
    else if column + 1 = width then side '┐' '│' '┘' row
    else if row = 0 then ⟨title.getD (column - 1) '─', style⟩
    else if row + 1 = height then ⟨'─', style⟩
    else (rows.getD (row - 1) []).getD (column - 1) background⟩

end Pane

end ThreeAddress.Viewer
