import ThreeAddress.Listing
import ThreeAddress.Text.Lines
import ThreeAddress.Viewer.Highlight
import ThreeAddress.Viewer.Pane

/-!
# What the panes show

The source without comments, the tokens, the parse tree, and the code. Source lines are numbered
from one, tokens and instructions from zero.
-/

namespace ThreeAddress

open Text Viewer

/-! ## Source -/

/-- A number in front of a line, filled up to the given width. -/
def Viewer.lineNumber (width number : Nat) (behind : String) : Span :=
  ⟨alignRight width (toString number) ++ behind, .colored Palette.faint⟩

def Viewer.Pane.ofSource (text : String) : Pane :=
  ⟨" Source (comments removed) ",
    (Text.lines text).mapIdx fun i line => lineNumber 4 (i + 1) " " :: highlight line,
    "(empty source)"⟩

/-! ## Tokens -/

def Token.Kind.style : Token.Kind → Style
  | .reservedWord => .strong Palette.keyword
  | .identifier => .colored Palette.text
  | .number => .colored Palette.literal
  | .string => .colored Palette.literal
  | .symbol => .colored Palette.structural
  | .error => .colored Palette.fault

/-- The kinds in the order in which a title counts them. -/
def Token.Kind.counted : List Token.Kind :=
  [.reservedWord, .identifier, .number, .string, .symbol, .error]

/-- How many tokens there are of a kind, if any. -/
def Token.Kind.count? (tokens : List Token) (kind : Token.Kind) : Option String :=
  match tokens.countP fun token => token.kind == kind with
  | 0 => none
  | count => some (toString count ++ " " ++ kind.name)

/-- A title that counts the tokens, all together and of each kind that occurs. -/
def Token.census (tokens : List Token) : String :=
  match Kind.counted.filterMap (Kind.count? tokens) with
  | [] => " Tokens "
  | counts => " Tokens: " ++ toString tokens.length ++ " (" ++ ", ".intercalate counts ++ ") "

def Token.line (number : Nat) (token : Token) : Line :=
  [lineNumber 4 number " ", ⟨alignLeft 13 token.kind.name, token.kind.style⟩,
   ⟨token.text, .colored Palette.text⟩]

def Viewer.Pane.ofTokens (tokens : List Token) : Pane :=
  ⟨Token.census tokens, tokens.mapIdx Token.line, "(no tokens)"⟩

/-! ## Parse tree -/

def Label.style (label : Label) : Style :=
  if label.isTerminal then .colored Palette.text else .strong Palette.structural

/-- A node, with a bar for each level above it. -/
def Label.line (depth : Nat) (label : Label) : Line :=
  [⟨repeated depth "│ ", .colored Palette.faint⟩, ⟨label.text, label.style⟩]

def Viewer.Pane.ofTree (tree : ParseTree) : Pane :=
  ⟨" Parse Tree: " ++ toString tree.size ++ " nodes ",
    (tree.preorder 0).map fun entry => Label.line entry.1 entry.2,
    "(empty tree)"⟩

/-! ## Code -/

def Viewer.nameSpan (name : String) : Span :=
  ⟨name, .colored (if isTemporaryName name then Palette.temporary else Palette.text)⟩

def Viewer.signSpan (sign : String) : Span :=
  ⟨" " ++ sign ++ " ", .strong Palette.operation⟩

def Instruction.spans : Instruction → Line
  | .copy target source => [nameSpan target, signSpan "=", nameSpan source]
  | .binary target left op right =>
      [nameSpan target, signSpan "=", nameSpan left, signSpan op.symbol, nameSpan right]

def Instruction.line (number : Nat) (instruction : Instruction) : Line :=
  lineNumber 3 number ": " :: instruction.spans

/-- The edges of the equation, if there is one, with an empty line behind them; then the
instructions. -/
def Viewer.Pane.ofCode (listing : Listing) : Pane :=
  let instructions := listing.code.instructions.toList.mapIdx Instruction.line
  match listing.edgeLines with
  | none => ⟨" Three-Address Code (program) ", instructions, "(no instructions)"⟩
  | some edges =>
      ⟨" Three-Address Code (equation) ",
        edges.map (fun edge => [⟨edge, .colored Palette.faint⟩]) ++ [] :: instructions,
        "(no instructions)"⟩

end ThreeAddress
