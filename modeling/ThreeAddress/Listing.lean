import ThreeAddress.Equation.Expr
import ThreeAddress.Grammar.Reading
import ThreeAddress.Lowering.Program
import ThreeAddress.Text.Comment
import ThreeAddress.Token.Scan

/-!
# Listings

A listing holds everything that is found out about a source text: the text without comments, its
tokens, their parse tree, and three-address code. The code is that of an equation, if one is given,
else that of the program. The program is parsed either way, and its errors come first.
-/

namespace ThreeAddress

/-- Why a file gives no text. -/
inductive FileError where
  | notFound
  | notADirectory
  | isADirectory
  | notText
  | other (reason : String)
  deriving DecidableEq, Repr

def FileError.message : FileError → String
  | .notFound => "No such file or directory (os error 2)"
  | .notADirectory => "Not a directory (os error 20)"
  | .isADirectory => "Is a directory (os error 21)"
  | .notText => "stream did not contain valid UTF-8"
  | .other reason => reason

structure Listing where
  cleaned : String
  tokens : List Token
  tree : ParseTree
  equation : Option Equation.Expr
  code : Code
  deriving Repr

namespace Listing

/-- The first thing that goes wrong on the way to a listing. -/
inductive Error where
  | parsing (error : SyntaxError)
  | equation (error : Equation.Error)
  | lowering (node : Malformed)
  | file (error : FileError)
  deriving DecidableEq, Repr

def Error.message : Error → String
  | .parsing error => error.message
  | .equation error => error.message
  | .lowering node => node.message
  | .file error => "I/O error: " ++ error.message

/-- The code of the equation, if there is one, else of the program. -/
def codeOf? (tree : ParseTree) : Option Equation.Expr → Except Malformed Code
  | some expr => Code.ofTree? expr.toTree
  | none => Code.ofProgram? tree

/-- The listing of a source text, with or without an equation. -/
def ofSource? (source : String) (equation : Option String) : Except Error Listing := do
  let cleaned := Text.removeComments source
  let tokens := Token.scan cleaned
  let tree ← (ParseTree.ofTokens? tokens).mapError .parsing
  let expr ← (equation.mapM Equation.Expr.ofText?).mapError .equation
  let code ← (codeOf? tree expr).mapError .lowering
  return ⟨cleaned, tokens, tree, expr, code⟩

theorem ofSource?_none (source : String) :
    ofSource? source none =
      match ParseTree.ofTokens? (Token.scan (Text.removeComments source)) with
      | .error error => .error (.parsing error)
      | .ok tree =>
          match Code.ofProgram? tree with
          | .error node => .error (.lowering node)
          | .ok code =>
              .ok ⟨Text.removeComments source, Token.scan (Text.removeComments source), tree, none,
                code⟩ := by
  unfold ofSource?
  dsimp only
  cases ParseTree.ofTokens? (Token.scan (Text.removeComments source)) with
  | error error => rfl
  | ok tree =>
    -- without an equation the next stage is the lowering of the program
    dsimp only
    show Except.bind (Except.mapError Error.lowering (Code.ofProgram? tree)) _ = _
    cases Code.ofProgram? tree with
    | error node => rfl
    | ok code => rfl

theorem ofSource?_some (source equation : String) :
    ofSource? source (some equation) =
      match ParseTree.ofTokens? (Token.scan (Text.removeComments source)) with
      | .error error => .error (.parsing error)
      | .ok tree =>
          match Equation.Expr.ofText? equation with
          | .error error => .error (.equation error)
          | .ok expr =>
              match Code.ofTree? expr.toTree with
              | .error node => .error (.lowering node)
              | .ok code =>
                  .ok ⟨Text.removeComments source, Token.scan (Text.removeComments source), tree,
                    some expr, code⟩ := by
  unfold ofSource?
  dsimp only
  cases ParseTree.ofTokens? (Token.scan (Text.removeComments source)) with
  | error error => rfl
  | ok tree =>
    rw [Option.mapM_some]
    cases Equation.Expr.ofText? equation with
    | error error => rfl
    | ok expr =>
      dsimp only
      show Except.bind (Except.mapError Error.lowering (Code.ofTree? expr.toTree)) _ = _
      cases Code.ofTree? expr.toTree with
      | error node => rfl
      | ok code => rfl

/-- The listing of what a file holds. -/
def ofFile? (contents : Except FileError ByteArray) (equation : Option String) :
    Except Error Listing := do
  let bytes ← contents.mapError .file
  match String.fromUTF8? bytes with
  | some source => ofSource? source equation
  | none => throw (.file .notText)

/-- The lines of text of the code. -/
def codeLines (listing : Listing) : List String :=
  listing.code.lines

/-- The lines of the equation's edges, if there is an equation. -/
def edgeLines (listing : Listing) : Option (List String) :=
  listing.equation.map fun expr => expr.toTree.edgeLines

end Listing

end ThreeAddress
