/-!
# Lines and columns of a text

Lines end with a newline, with or without a carriage return before it; neither belongs to the line.
A carriage return elsewhere does. A text that ends with a newline has no empty line after it.
-/

namespace ThreeAddress.Text

/-- Puts a character in front of the first line. -/
def consLine (c : Char) : List (List Char) → List (List Char)
  | [] => [[c]]
  | line :: lines => (c :: line) :: lines

def linesOfChars : List Char → List (List Char)
  | [] => []
  | '\n' :: rest => [] :: linesOfChars rest
  | '\r' :: '\n' :: rest => [] :: linesOfChars rest
  | c :: rest => consLine c (linesOfChars rest)

def lines (text : String) : List String :=
  (linesOfChars text.toList).map String.ofList

/-- The text, filled up with blanks in front to the given number of characters. -/
def alignRight (width : Nat) (text : String) : String :=
  String.ofList (List.replicate (width - text.length) ' ') ++ text

/-- The text, filled up with blanks behind to the given number of characters. -/
def alignLeft (width : Nat) (text : String) : String :=
  text ++ String.ofList (List.replicate (width - text.length) ' ')

/-- The text, written the given number of times. -/
def repeated (count : Nat) (text : String) : String :=
  String.join (List.replicate count text)

end ThreeAddress.Text
