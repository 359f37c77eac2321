import ThreeAddress.Viewer.Picture

/-!
# The status bar

The left half shows how much there is of everything, and a message; the right half tells the keys,
at its right end if they fit.
-/

namespace ThreeAddress.Viewer.StatusBar

/-- What the bar counts. -/
structure Counts where
  tokens : Nat
  nodes : Nat
  instructions : Nat
  deriving DecidableEq, Repr

def barStyle (color : Color) : Style :=
  ⟨color, Palette.bar, false⟩

def background : Cell :=
  ⟨' ', barStyle .reset⟩

def countsText (counts : Counts) : String :=
  " " ++ toString counts.tokens ++ " tok · " ++ toString counts.nodes ++ " nodes · " ++
    toString counts.instructions ++ " instr "

def message (counts : Counts) (text : String) : Line :=
  [⟨countsText counts, ⟨.black, Palette.counters, true⟩⟩,
   ⟨" | ", barStyle Palette.faint⟩,
   ⟨" " ++ text ++ " ", barStyle Palette.text⟩]

def key (text : String) : Span :=
  ⟨text, ⟨.black, Palette.faint, false⟩⟩

def use (text : String) : Span :=
  ⟨text, barStyle Palette.text⟩

def separator : Span :=
  ⟨"│", barStyle Palette.faint⟩

def keys : Line :=
  [key " ⇥ ", use " focus ", separator, use " ",
   key " ↑/↓ ", use " scroll ", separator, use " ",
   key " Home/End ", use " top/bottom ", separator, use " ",
   key "q", use " quit "]

/-- Cells in the first row from the given column on; the bar's background everywhere else. -/
def strip (width height start : Nat) (cells : List Cell) : Picture :=
  ⟨width, height, fun column row =>
    if row = 0 ∧ start ≤ column then cells.getD (column - start) background else background⟩

def draw (width height : Nat) (counts : Counts) (text : String) : Picture :=
  let (left, right) := splitAt 50 width
  let cells := keys.cells
  (strip left height 0 (message counts text).cells).beside
    (strip right height (right - cells.length) cells)

end ThreeAddress.Viewer.StatusBar
