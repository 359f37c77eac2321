import ThreeAddress.Viewer.Contents
import ThreeAddress.Viewer.PaneName
import ThreeAddress.Viewer.StatusBar

/-!
# Browsing a listing

A session shows a listing in four panes above a status bar. One pane has the focus, and keys scroll
it. A key may leave an offset too large; drawing brings every offset back into range. How large the
panes are is up to a layout, and a screen has a layout of its own for every size.
-/

namespace ThreeAddress.Viewer

/-- The pane with this name for a listing. -/
def PaneName.pane (listing : Listing) : PaneName → Pane
  | .source => .ofSource listing.cleaned
  | .tokens => .ofTokens listing.tokens
  | .tree => .ofTree listing.tree
  | .code => .ofCode listing

/-- A width and a height for each pane. -/
abbrev Layout := PaneName → Nat × Nat

/-- The panes on a screen of the given size, whose last row is the status bar. Source and code stand
on the left, tokens and tree on the right. -/
def paneSize (width height : Nat) : Layout := fun name =>
  let columns := splitAt 55 width
  let left := splitAt 60 (height - 1)
  let right := splitAt 40 (height - 1)
  match name with
  | .source => (columns.1, left.1)
  | .code => (columns.1, left.2)
  | .tokens => (columns.2, right.1)
  | .tree => (columns.2, right.2)

inductive Key where
  | tab
  | backTab
  | up
  | down
  | pageUp
  | pageDown
  | toTop
  | toBottom
  | escape
  | character (c : Char)
  | other
  deriving DecidableEq, Repr

/-- The key with the given name; a single character names its own key. -/
def Key.ofName : String → Key
  | "Tab" => .tab
  | "BackTab" => .backTab
  | "Up" => .up
  | "Down" => .down
  | "PageUp" => .pageUp
  | "PageDown" => .pageDown
  | "Home" => .toTop
  | "End" => .toBottom
  | "Esc" => .escape
  | name =>
      match name.toList with
      | [c] => .character c
      | _ => .other

structure Session where
  panes : PerPane Pane
  counts : StatusBar.Counts
  focus : PaneName
  offsets : PerPane Nat
  quit : Bool
  status : String

namespace Session

def start (listing : Listing) : Session where
  panes := .ofFn fun name => name.pane listing
  counts := ⟨listing.tokens.length, listing.tree.size, listing.code.instructions.size⟩
  focus := .source
  offsets := .ofFn fun _ => 0
  quit := false
  status := "Ready!"

/-- Changes the offset of the pane that has the focus. -/
def scroll (session : Session) (change : Nat → Nat) : Session :=
  { session with offsets := session.offsets.modify session.focus change }

def moveFocus (session : Session) (name : PaneName) : Session :=
  { session with focus := name, status := "Focused " ++ name.description }

/-- How many lines the pane that has the focus holds. -/
def focusedLines (session : Session) : Nat :=
  (session.panes.get session.focus).lines.length

def pageSize : Nat := 10

/-- Takes in a key. There is no greatest offset here: going down always adds, and the bottom is the
offset behind the last line. Offsets that end at a limit, with the limit as the bottom, are brought
back to the same place by the next drawing (`Responds.limited`). -/
def press (session : Session) : Key → Session
  | .escape | .character 'q' | .character 'Q' => { session with quit := true }
  | .tab => session.moveFocus session.focus.next
  | .backTab => session.moveFocus session.focus.previous
  | .up => session.scroll (· - 1)
  | .down => session.scroll (· + 1)
  | .pageUp => session.scroll (· - pageSize)
  | .pageDown => session.scroll (· + pageSize)
  | .toTop => session.scroll fun _ => 0
  | .toBottom => session.scroll fun _ => session.focusedLines
  | .character _ | .other => session

/-- The session with every offset in range for the layout. -/
def settle (session : Session) (layout : Layout) : Session :=
  { session with
    offsets := .ofFn fun name =>
      (session.panes.get name).offsetIn (layout name).2 (session.offsets.get name) }

def drawPane (session : Session) (layout : Layout) (name : PaneName) : Picture :=
  let size := layout name
  (session.panes.get name).draw size.1 size.2 (name = session.focus) (session.offsets.get name)

/-- The whole screen. -/
def draw (session : Session) (width height : Nat) : Picture :=
  let pane := session.drawPane (paneSize width height)
  let panes := ((pane .source).above (pane .code)).beside ((pane .tokens).above (pane .tree))
  panes.above (StatusBar.draw width (min 1 height) session.counts session.status)

/-- The session after its first drawing and after the drawing that follows each key, up to the one
that quits. -/
def runIn (layout : Layout) (session : Session) : List Key → List Session
  | [] => [session.settle layout]
  | key :: keys =>
      let shown := session.settle layout
      if shown.quit then [shown] else shown :: runIn layout (shown.press key) keys

/-- The same on a screen of the given size. -/
def run (width height : Nat) (session : Session) (keys : List Key) : List Session :=
  session.runIn (paneSize width height) keys

end Session

end ThreeAddress.Viewer
