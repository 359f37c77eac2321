import ThreeAddress.Operator
import ThreeAddress.Text.Alphanumeric

/-!
# Lexemes of an equation

An equation has a simpler notation than a program: an operand is an unbroken run of letters, digits
and dots, each operator character stands for itself, and everything else only separates. Parentheses
are separators too, so they do not group.
-/

namespace ThreeAddress.Equation

inductive Lexeme where
  | operand (text : String)
  | operator (op : Operator)
  deriving DecidableEq, Repr

def isOperandChar (c : Char) : Bool :=
  Text.isAlphanumeric c || c == '.'

/-- The lexeme of a run of characters, if it is not a separator. -/
def Lexeme.ofRun? : List Char → Option Lexeme
  | [] => none
  | c :: rest =>
      if isOperandChar c then some (.operand (String.ofList (c :: rest)))
      else (Operator.ofChar? c).map .operator

def lexemesOfChars (chars : List Char) : List Lexeme :=
  (chars.splitBy fun a b => isOperandChar a && isOperandChar b).filterMap Lexeme.ofRun?

def lexemes (text : String) : List Lexeme :=
  lexemesOfChars text.toList

end ThreeAddress.Equation
