import ThreeAddress.Text.Blank
import ThreeAddress.Token

/-!
# Scanning a text into tokens

A text is first cut into runs: neighbours stay together if both belong to words, or if both are
joining symbols. Blank runs are dropped, runs of joining symbols are cut into pairs, and all other
special characters stand alone. Each piece is then classified by its text; the scanner never fails,
since whatever it does not know is a symbol. Quotes are ordinary word characters here, so a quoted
text with a blank in it becomes several pieces.
-/

namespace ThreeAddress.Token

open Text

/-- Characters that end a word and form pieces of their own. -/
def punctuation : List Char :=
  ['=', '+', '&', '|', '<', '>', '(', ')', '{', '}', '[', ']', ';', ',', '.']

/-- Special characters that pair up with a neighbour of the same set. -/
def joiningMarks : List Char :=
  ['=', '+', '&', '|', '<', '>']

def isWordChar (c : Char) : Bool :=
  !isBlank c && !punctuation.contains c

def isJoining (c : Char) : Bool :=
  joiningMarks.contains c

/-- Whether two neighbouring characters lie in the same run. -/
def sameRun (a b : Char) : Bool :=
  (isWordChar a && isWordChar b) || (isJoining a && isJoining b)

/-- Cuts a list into pairs; an odd last element stands alone. -/
def inPairs {α : Type} : List α → List (List α)
  | a :: b :: rest => [a, b] :: inPairs rest
  | [a] => [[a]]
  | [] => []

/-- The pieces of one run, whose characters are all alike. -/
def piecesOfRun : List Char → List (List Char)
  | [] => []
  | c :: rest =>
      if isBlank c then []
      else if isJoining c then inPairs (c :: rest)
      else [c :: rest]

def piecesOfChars (chars : List Char) : List (List Char) :=
  (chars.splitBy sameRun).flatMap piecesOfRun

/-- The pieces of a text, in order and without the blanks between them. -/
def pieces (text : String) : List String :=
  (piecesOfChars text.toList).map String.ofList

/-- Words, and the stream and logical operators, that are never identifiers. -/
def reservedWords : List String :=
  ["int", "float", "void", "return", "if", "while", "for", "cin", "cout", "continue", "break",
   "#include", "using", "namespace", "std", "main", "endl", "<<", ">>", "&&", "||"]

/-- An ASCII letter or underscore, then ASCII letters, digits and underscores. -/
def isIdentifier : List Char → Bool
  | [] => false
  | first :: rest =>
      (first.isAlpha || first == '_') && rest.all fun c => c.isAlphanum || c == '_'

/-- One ASCII digit or more. -/
def isNumber (chars : List Char) : Bool :=
  !chars.isEmpty && chars.all Char.isDigit

/-- Begins and ends with a quote; a lone quote counts. -/
def isQuoted (chars : List Char) : Bool :=
  chars.head? == some '"' && chars.getLast? == some '"'

/-- The kind of a text: the first of reserved word, identifier, number and string that fits, else
symbol. -/
def Kind.ofText (text : String) : Kind :=
  if reservedWords.contains text then .reservedWord
  else if isIdentifier text.toList then .identifier
  else if isNumber text.toList then .number
  else if isQuoted text.toList then .string
  else .symbol

-- A text with a property that no reserved word has is no reserved word.
theorem not_mem_reservedWords (condition : String → Bool)
    (hwords : ∀ word ∈ reservedWords, condition word = false) {text : String}
    (h : condition text = true) : text ∉ reservedWords := by
  intro hmem
  rw [hwords text hmem] at h
  cases h

theorem Kind.ofText_of_not_mem {text : String} (h : text ∉ reservedWords) :
    ofText text =
      if isIdentifier text.toList then .identifier
      else if isNumber text.toList then .number
      else if isQuoted text.toList then .string
      else .symbol := by
  rw [ofText, List.contains_eq_mem, decide_eq_false h, if_neg Bool.false_ne_true]

def ofText (text : String) : Token :=
  ⟨Kind.ofText text, text⟩

/-- The classified pieces of a text. -/
def scan (text : String) : List Token :=
  (pieces text).map ofText

end ThreeAddress.Token
