/-!
# Comments

A line comment runs from two slashes up to the end of its line, whose newline stays. A block comment
runs through the first closing mark after its two opening characters, newlines included; block
comments do not nest, and an unclosed one takes the rest of the text. Quotes play no part: two
slashes inside a quoted text open a comment as well.
-/

namespace ThreeAddress.Text

/-- Where a scan for comments stands. -/
inductive Region where
  | code
  | lineComment
  | blockComment
  deriving DecidableEq, Repr

/-- The characters of a text outside its comments, the scan starting in the given region. -/
def outsideComments : Region → List Char → List Char
  | _, [] => []
  | .code, '/' :: '/' :: rest => outsideComments .lineComment rest
  | .code, '/' :: '*' :: rest => outsideComments .blockComment rest
  | .code, c :: rest => c :: outsideComments .code rest
  | .lineComment, c :: rest =>
      if c = '\n' then c :: outsideComments .code rest else outsideComments .lineComment rest
  | .blockComment, '*' :: '/' :: rest => outsideComments .code rest
  | .blockComment, _ :: rest => outsideComments .blockComment rest

/-- The text without its comments. -/
def removeComments (text : String) : String :=
  String.ofList (outsideComments .code text.toList)

end ThreeAddress.Text
