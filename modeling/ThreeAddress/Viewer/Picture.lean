import ThreeAddress.Viewer.Style

/-!
# Pictures

A picture is a rectangle of cells, given by the cell at each column and row. Pictures are put
together side by side and one above the other. A line of text is a list of spans, each with a style.
-/

namespace ThreeAddress.Viewer

structure Cell where
  glyph : Char
  style : Style
  deriving DecidableEq, Repr

def Cell.blank : Cell :=
  ⟨' ', .plain⟩

structure Span where
  text : String
  style : Style
  deriving DecidableEq, Repr

abbrev Line := List Span

/-- The characters that take a cell: all but line ends, which are newlines with or without a
carriage return in front. -/
def glyphs : List Char → List Char
  | [] => []
  | '\n' :: rest => glyphs rest
  | '\r' :: '\n' :: rest => glyphs rest
  | c :: rest => c :: glyphs rest

def Span.cells (span : Span) : List Cell :=
  (glyphs span.text.toList).map fun glyph => ⟨glyph, span.style⟩

def Line.cells (line : Line) : List Cell :=
  line.flatMap Span.cells

/-- A rectangle of cells. `cell` takes a column and a row, both from zero. -/
structure Picture where
  width : Nat
  height : Nat
  cell : Nat → Nat → Cell

namespace Picture

/-- The left picture, and to its right the other. The height is that of the left one. -/
def beside (left right : Picture) : Picture :=
  ⟨left.width + right.width, left.height, fun column row =>
    if column < left.width then left.cell column row
    else right.cell (column - left.width) row⟩

/-- The upper picture, and below it the other. The width is that of the upper one. -/
def above (upper lower : Picture) : Picture :=
  ⟨upper.width, upper.height + lower.height, fun column row =>
    if row < upper.height then upper.cell column row
    else lower.cell column (row - upper.height)⟩

def rows (picture : Picture) : List (List Cell) :=
  (List.range picture.height).map fun row =>
    (List.range picture.width).map fun column => picture.cell column row

/-- The characters of each row. -/
def texts (picture : Picture) : List String :=
  picture.rows.map fun row => String.ofList (row.map Cell.glyph)

/-- The styles of each row, as runs of neighbouring cells that share one. -/
def styleRuns (picture : Picture) : List (List (Nat × Style)) :=
  picture.rows.map fun row =>
    ((row.map Cell.style).splitBy (· == ·)).filterMap fun run =>
      run.head?.map fun style => (run.length, style)

end Picture

/-- Splits a length in two at the given percentage, a half rounded up. -/
def splitAt (percent length : Nat) : Nat × Nat :=
  let first := (length * percent + 50) / 100
  (first, length - first)

end ThreeAddress.Viewer
