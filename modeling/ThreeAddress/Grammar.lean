import ThreeAddress.Grammar.Phrase

/-!
# The grammar of programs

    program        ::= statement*
    statement      ::= declaration | main | return | if | while | for | input | output
                     | "continue" ";" | "break" ";" | include | using | "namespace" | "std"
                     | assignment | call | block
    declaration    ::= ("int" | "float" | "void") declarator ("," declarator)* ";"
    declarator     ::= IDENTIFIER ("=" expression)?
    main           ::= "int"? "main" "(" ")" "{" statement* "}"
    return         ::= "return" expression ";"
    if, while      ::= ("if" | "while") "(" expression ")" statement
    for            ::= "for" "(" statement ";" expression ";" expression ")" statement
    input          ::= "cin" (">>" IDENTIFIER)* ";"
    output         ::= "cout" ("<<" expression)* ";"
    include        ::= "#include" "<" IDENTIFIER ">"
    using          ::= "using" "namespace" "std" ";"
    assignment     ::= IDENTIFIER "=" expression ";"
    call           ::= IDENTIFIER arguments ";"
    arguments      ::= "(" (expression ("," expression)*)? ")"
    block          ::= "{" statement* "}"
    expression     ::= term (("+" | "-") term)*
    term           ::= factor (("*" | "/") factor)*
    factor         ::= NUMBER | IDENTIFIER | STRING | "(" expression ")"

Keywords, `<<` and `>>` are reserved words, all other quoted texts are symbols. The first part of a
`for` header is a whole statement with its own semicolon. Statements and parenthesized expressions
each take one level of nesting.
-/

namespace ThreeAddress.Grammar

/-- The reserved word. -/
def keyword (text : String) : Pattern :=
  .word .reservedWord [text]

/-- The symbol. -/
def sign (text : String) : Pattern :=
  .word .symbol [text]

def name : Pattern :=
  .ofKind [.identifier]

def quote (text : String) : String :=
  "'" ++ text ++ "'"

/-- The reserved word; the context says where it is expected. -/
def word (text context : String) : Phrase :=
  .token (keyword text) (quote text ++ " " ++ context)

/-- The symbol; the context says where it is expected. -/
def symbol (text context : String) : Phrase :=
  .token (sign text) (quote text ++ " " ++ context)

/-- An identifier; the context says where it is expected. -/
def identifier (context : String) : Phrase :=
  .token name ("identifier " ++ context)

/-- A token that a look ahead has already found in its place. -/
def found (pattern : Pattern) : Phrase :=
  .token pattern "the token looked for"

def statement : Phrase :=
  .node .statement (.ifNext [.any] (.nested .statement) (.fail "statement"))

def statements : Phrase :=
  .whileNext (.anyBut .symbol "\x7d") statement

def operand : Pattern :=
  .ofKind [.number, .identifier, .string]

def factor : Phrase :=
  .node .factor <| .choose
    [([operand], found operand),
     ([sign "("], .all [found (sign "("), .nested .group, symbol ")" "after expression"])]
    (.fail "number, identifier, string or '('")

def productSign : Pattern :=
  .word .symbol ["*", "/"]

def term : Phrase :=
  .node .term (.seq factor (.whileNext productSign (.seq (found productSign) factor)))

def sumSign : Pattern :=
  .word .symbol ["+", "-"]

def expression : Phrase :=
  .node .expression (.seq term (.whileNext sumSign (.seq (found sumSign) term)))

def arguments : Phrase :=
  .node .functionCall <| .all
    [symbol "(" "in function call",
     .ifNext [sign ")"] .empty
       (.seq expression (.whileNext (sign ",") (.seq (found (sign ",")) expression))),
     symbol ")" "after function arguments"]

def assignment : Phrase :=
  .node .assignment <| .all
    [identifier "at start of statement", found (sign "="), expression,
     symbol ";" "after assignment"]

def call : Phrase :=
  .node .callStatement <| .all
    [identifier "at start of statement", arguments, symbol ";" "after function call"]

def typeWord : Pattern :=
  .word .reservedWord ["int", "float", "void"]

def declarator (context : String) : Phrase :=
  .seq (identifier context)
    (.ifNext [sign "="] (.seq (found (sign "=")) expression) .empty)

def declaration : Phrase :=
  .node .variableDeclaration <| .all
    [found typeWord, declarator "after type",
     .whileNext (sign ",") (.seq (found (sign ",")) (declarator "after ','")),
     symbol ";" "after variable declaration"]

/-- What follows the return type, if there is one, of the entry point. -/
def entryPoint : List Phrase :=
  [word "main" "as entry point", symbol "(" "after 'main'", symbol ")" "after 'main('",
   symbol "\x7b" "after 'main()'", statements, symbol "\x7d" "to close 'main'"]

def returnStatement : Phrase :=
  .node .returnStatement <| .all
    [found (keyword "return"), expression, symbol ";" "after return statement"]

/-- An `if` or `while` statement. -/
def conditional (rule : Rule) (text : String) : Phrase :=
  .node rule <| .all
    [found (keyword text), symbol "(" ("after " ++ quote text), expression,
     symbol ")" ("after condition in " ++ quote text ++ " statement"), statement]

def forStatement : Phrase :=
  .node .forStatement <| .all
    [found (keyword "for"), symbol "(" "after 'for'", statement,
     symbol ";" "in 'for' statement", expression, symbol ";" "in 'for' statement", expression,
     symbol ")" "after 'for' conditions", statement]

def inputStatement : Phrase :=
  .node .inputStatement <| .all
    [found (keyword "cin"),
     .whileNext (keyword ">>")
       (.seq (found (keyword ">>")) (identifier "after '>>' in 'cin' statement")),
     symbol ";" "after 'cin' statement"]

def outputStatement : Phrase :=
  .node .outputStatement <| .all
    [found (keyword "cout"),
     .whileNext (keyword "<<") (.seq (found (keyword "<<")) expression),
     symbol ";" "after 'cout' statement"]

/-- A `continue` or `break` statement. -/
def jump (rule : Rule) (text : String) : Phrase :=
  .node rule <| .all
    [found (keyword text), symbol ";" ("after " ++ quote text ++ " statement")]

def includeStatement : Phrase :=
  .node .includeStatement <| .all
    [found (keyword "#include"), symbol "<" "after '#include'", identifier "as header name",
     symbol ">" "after header name"]

def usingStatement : Phrase :=
  .node .usingNamespaceStatement <| .all
    [found (keyword "using"), word "namespace" "after 'using'", word "std" "after 'namespace'",
     symbol ";" "after 'using namespace std'"]

def block : Phrase :=
  .node .block <| .all
    [symbol "\x7b" "to open block", statements, symbol "\x7d" "to close block"]

/-- The statement forms, told apart by their first token or their first two. -/
def statementForm : Phrase :=
  .choose
    [([name, sign "="], assignment),
     ([name, sign "("], call),
     ([name], .seq (identifier "at start of statement") (.fail "assignment or function call")),
     ([keyword "int", keyword "main"],
       .node .mainStatement (.all (found (keyword "int") :: entryPoint))),
     ([typeWord], declaration),
     ([keyword "return"], returnStatement),
     ([keyword "if"], conditional .ifStatement "if"),
     ([keyword "while"], conditional .whileStatement "while"),
     ([keyword "for"], forStatement),
     ([keyword "cin"], inputStatement),
     ([keyword "cout"], outputStatement),
     ([keyword "continue"], jump .continueStatement "continue"),
     ([keyword "break"], jump .breakStatement "break"),
     ([keyword "#include"], includeStatement),
     ([keyword "using"], usingStatement),
     ([keyword "namespace"], found (keyword "namespace")),
     ([keyword "std"], found (keyword "std")),
     ([keyword "main"], .node .mainStatement (.all entryPoint)),
     ([sign "\x7b"], block)]
    (.fail "statement")

/-- The phrase that lies one level deeper. -/
def nestedPhrase : Nesting → Phrase
  | .statement => statementForm
  | .group => expression

/-- The statements of a whole program. -/
def program : Phrase :=
  .whileNext .any statement

end ThreeAddress.Grammar
