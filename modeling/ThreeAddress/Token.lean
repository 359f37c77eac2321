/-!
# Tokens

A token is a piece of source text together with its kind. The scanner derives the kind from the text
alone, but a token list may come from elsewhere, so the two are independent.
-/

namespace ThreeAddress

/-- What a token is, as far as the grammar cares. No scanned text has kind `error`. -/
inductive Token.Kind where
  | identifier
  | number
  | reservedWord
  | symbol
  | string
  | error
  deriving DecidableEq, Repr

structure Token where
  kind : Token.Kind
  text : String
  deriving DecidableEq, Repr

namespace Token

def Kind.name : Kind → String
  | .identifier => "IDENTIFIER"
  | .number => "NUMBER"
  | .reservedWord => "RESERVEDWORD"
  | .symbol => "SYMBOL"
  | .string => "STRING"
  | .error => "ERROR"

/-- How messages and listings show a token: its kind, and its text in parentheses. -/
def display (token : Token) : String :=
  token.kind.name ++ " (" ++ token.text ++ ")"

end Token

end ThreeAddress
