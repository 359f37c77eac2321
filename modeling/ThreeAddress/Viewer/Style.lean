/-!
# Styles

A style is what a screen cell looks like apart from its character. The palette names the colours by
their use.
-/

namespace ThreeAddress.Viewer

inductive Color where
  /-- Whatever the screen has by default. -/
  | reset
  | black
  | rgb (red green blue : UInt8)
  deriving DecidableEq, Repr

namespace Color

def hexDigits : List Char :=
  ['0', '1', '2', '3', '4', '5', '6', '7', '8', '9', 'a', 'b', 'c', 'd', 'e', 'f']

/-- The two hexadecimal digits of a byte. -/
def hexPair (byte : UInt8) : List Char :=
  [hexDigits.getD (byte.toNat / 16) '0', hexDigits.getD (byte.toNat % 16) '0']

def text : Color → String
  | .reset => "reset"
  | .black => "black"
  | .rgb red green blue =>
      String.ofList ('#' :: hexPair red ++ hexPair green ++ hexPair blue)

end Color

structure Style where
  foreground : Color
  background : Color
  bold : Bool
  deriving DecidableEq, Repr

namespace Style

def plain : Style :=
  ⟨.reset, .reset, false⟩

def colored (color : Color) : Style :=
  ⟨color, .reset, false⟩

def strong (color : Color) : Style :=
  ⟨color, .reset, true⟩

def text (style : Style) : String :=
  style.foreground.text ++ " " ++ style.background.text ++ " " ++
    if style.bold then "bold" else "-"

end Style

namespace Palette

def text : Color := .rgb 205 214 244
def structural : Color := .rgb 137 180 250
def operation : Color := .rgb 250 179 135
def faint : Color := .rgb 108 112 134
def counters : Color := .rgb 166 227 161
def fault : Color := .rgb 243 139 168
def keyword : Color := .rgb 137 180 250
def literal : Color := .rgb 250 179 135
def focusedBorder : Color := .rgb 249 226 175
def border : Color := .rgb 108 112 134
def bar : Color := .rgb 50 50 70
def temporary : Color := .rgb 245 194 231
def typeName : Color := .rgb 148 226 213

end Palette

end ThreeAddress.Viewer
