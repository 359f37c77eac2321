import ThreeAddress.Text.Alphanumeric
import ThreeAddress.Token.Scan
import ThreeAddress.Viewer.Picture

/-!
# Highlighting

A source line is cut into quoted segments, words and single other characters, which are then
coloured. A quoted segment runs through the next quote, or to the end of the line if there is none.
-/

namespace ThreeAddress.Viewer

inductive Segment.Kind where
  | quoted
  | word
  | mark
  deriving DecidableEq, Repr

structure Segment where
  kind : Segment.Kind
  chars : List Char
  deriving DecidableEq, Repr

namespace Segment

def isWordChar (c : Char) : Bool :=
  Text.isAlphanumeric c || c == '_' || c == '#'

/-- The segments of a line, in order. -/
def ofLine : List Char → List Segment
  | [] => []
  | c :: rest =>
      if c = '"' then
        match _h : rest.dropWhile (· != '"') with
        | [] => [⟨.quoted, c :: rest⟩]
        | close :: after =>
            ⟨.quoted, c :: rest.takeWhile (· != '"') ++ [close]⟩ :: ofLine after
      else if isWordChar c then
        ⟨.word, c :: rest.takeWhile isWordChar⟩ :: ofLine (rest.dropWhile isWordChar)
      else ⟨.mark, [c]⟩ :: ofLine rest
termination_by chars => chars.length
decreasing_by
  · have := (List.dropWhile_sublist (l := rest) (· != '"')).length_le
    simp [_h] at this ⊢
    omega
  · have := (List.dropWhile_sublist (l := rest) isWordChar).length_le
    simp
    omega
  · simp

def typeNames : List String :=
  ["int", "float", "void"]

def brackets : List Char :=
  ['{', '}', '(', ')', '[', ']']

def styleOfWord (chars : List Char) : Style :=
  let word := String.ofList chars
  if typeNames.contains word then .colored Palette.typeName
  else if Token.reservedWords.contains word then .strong Palette.keyword
  else if chars.all Char.isDigit then .colored Palette.literal
  else .colored Palette.text

def style (segment : Segment) : Style :=
  match segment.kind with
  | .quoted => .colored Palette.literal
  | .word => styleOfWord segment.chars
  | .mark =>
      if segment.chars.all brackets.contains then .colored Palette.structural
      else .colored Palette.text

def span (segment : Segment) : Span :=
  ⟨String.ofList segment.chars, segment.style⟩

end Segment

/-- A source line in colours. -/
def highlight (line : String) : Line :=
  (Segment.ofLine line.toList).map Segment.span

end ThreeAddress.Viewer
