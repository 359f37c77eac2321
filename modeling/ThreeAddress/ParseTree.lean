import ThreeAddress.Text.Lines
import ThreeAddress.Tree

/-!
# Parse trees

A parse tree has a grammar rule at each inner node and the text of a token at each leaf. Its outline
shows one node a line, two blanks deeper for each level.
-/

namespace ThreeAddress

/-- The rules of the grammar that appear in a parse tree. -/
inductive Rule where
  | root
  | statement
  | variableDeclaration
  | mainStatement
  | returnStatement
  | ifStatement
  | whileStatement
  | forStatement
  | inputStatement
  | outputStatement
  | continueStatement
  | breakStatement
  | includeStatement
  | usingNamespaceStatement
  | block
  | assignment
  | callStatement
  | functionCall
  | expression
  | term
  | factor
  deriving DecidableEq, Repr

namespace Rule

def name : Rule → String
  | .root => "root"
  | .statement => "statement"
  | .variableDeclaration => "variableDeclaration"
  | .mainStatement => "mainStatement"
  | .returnStatement => "returnStatement"
  | .ifStatement => "ifStatement"
  | .whileStatement => "whileStatement"
  | .forStatement => "forStatement"
  | .inputStatement => "inputStatement"
  | .outputStatement => "outputStatement"
  | .continueStatement => "continueStatement"
  | .breakStatement => "breakStatement"
  | .includeStatement => "includeStatement"
  | .usingNamespaceStatement => "usingNamespaceStatement"
  | .block => "block"
  | .assignment => "assignment"
  | .callStatement => "callStatement"
  | .functionCall => "functionCall"
  | .expression => "expression"
  | .term => "term"
  | .factor => "factor"

def all : List Rule :=
  [.root, .statement, .variableDeclaration, .mainStatement, .returnStatement, .ifStatement,
   .whileStatement, .forStatement, .inputStatement, .outputStatement, .continueStatement,
   .breakStatement, .includeStatement, .usingNamespaceStatement, .block, .assignment,
   .callStatement, .functionCall, .expression, .term, .factor]

def ofName? (name : String) : Option Rule :=
  all.find? fun rule => rule.name == name

end Rule

/-- What stands at a node of a parse tree: a rule, or a token's text. -/
inductive Label where
  | rule (rule : Rule)
  | terminal (text : String)
  deriving DecidableEq, Repr

namespace Label

def text : Label → String
  | .rule r => r.name
  | .terminal text => text

def isTerminal : Label → Bool
  | .rule _ => false
  | .terminal _ => true

end Label

abbrev ParseTree := Tree Label

namespace ParseTree

def ofRule (rule : Rule) (children : List ParseTree) : ParseTree :=
  .node (.rule rule) children

def terminal (text : String) : ParseTree :=
  .leaf (.terminal text)

/-- One line a node, indented by two blanks for each level below the root. -/
def outline (tree : ParseTree) : List String :=
  (tree.preorder 0).map fun entry => Text.repeated entry.1 "  " ++ entry.2.text

/-- The outline as a text in which every line ends with a newline. -/
def display (tree : ParseTree) : String :=
  String.join (tree.outline.map fun line => line ++ "\n")

end ParseTree

end ThreeAddress
