import ThreeAddress.ParseTree
import ThreeAddress.Token

/-!
# Phrases of a grammar

A phrase describes a stretch of tokens and the parse trees it stands for. At every choice and every
repetition it names the tokens that decide the matter, so a reader never has to try two ways. The
only recursion goes through the two levels of nesting, each of which names a phrase of the grammar.
-/

namespace ThreeAddress

/-- What a token has to be in order to fit a place in a phrase. -/
inductive Pattern where
  | word (kind : Token.Kind) (texts : List String)
  | ofKind (kinds : List Token.Kind)
  | anyBut (kind : Token.Kind) (text : String)
  | any
  deriving DecidableEq, Repr

namespace Pattern

def accepts : Pattern → Token → Bool
  | .word kind texts, token => token.kind == kind && texts.contains token.text
  | .ofKind kinds, token => kinds.contains token.kind
  | .anyBut kind text, token => token.kind != kind || token.text != text
  | .any, _ => true

/-- Whether the tokens begin with one token for each pattern, in order. -/
def acceptAll : List Pattern → List Token → Bool
  | [], _ => true
  | pattern :: patterns, token :: tokens => pattern.accepts token && acceptAll patterns tokens
  | _ :: _, [] => false

end Pattern

/-- What may lie one level deeper: a statement, or the expression inside parentheses. -/
inductive Nesting where
  | statement
  | group
  deriving DecidableEq, Repr

inductive Phrase where
  /-- No token at all. -/
  | empty
  /-- One token, which becomes a terminal; else a message tells what was expected. -/
  | token (pattern : Pattern) (expected : String)
  /-- Nothing fits here. -/
  | fail (expected : String)
  | seq (first second : Phrase)
  /-- The trees of the body become the children of one node. -/
  | node (rule : Rule) (body : Phrase)
  /-- The first phrase if the next tokens fit the patterns, else the second. -/
  | ifNext (patterns : List Pattern) (yes no : Phrase)
  /-- The body again and again, as long as the next token fits. -/
  | whileNext (pattern : Pattern) (body : Phrase)
  | nested (level : Nesting)
  deriving Repr

namespace Phrase

@[simp]
def all : List Phrase → Phrase
  | [] => .empty
  | [phrase] => phrase
  | phrase :: phrases => .seq phrase (all phrases)

/-- The first alternative whose patterns fit the next tokens. -/
def choose (alternatives : List (List Pattern × Phrase)) (otherwise : Phrase) : Phrase :=
  alternatives.foldr (fun alternative rest => .ifNext alternative.1 alternative.2 rest) otherwise

end Phrase

end ThreeAddress
