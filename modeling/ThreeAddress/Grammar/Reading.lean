import ThreeAddress.Grammar

/-!
# Reading tokens by the grammar

A phrase is read from the front of a token list. Reading gives the trees of the phrase and the
tokens behind it, or stops at the first token that does not fit. Nesting is limited: every level is
read with one level less to spare. A `Reading` holds a token list and how much of it is done, and
can go on after a failure, from the token where reading stopped.
-/

namespace ThreeAddress

/-- Why reading stops. -/
inductive Fault where
  | expected (what : String)
  | tooDeep
  deriving DecidableEq, Repr

/-- The cause, and the tokens from the place of the fault on. -/
structure Failure where
  fault : Fault
  rest : List Token
  deriving DecidableEq, Repr

/-- The trees read and the tokens left, or a failure. -/
abbrev Outcome := Except Failure (List ParseTree × List Token)

namespace Phrase

/-- Reads one item after the other as long as the next token fits the pattern. An item that takes no
token ends the run. -/
def readWhile (pattern : Pattern) (readItem : List Token → Outcome) (tokens : List Token) :
    Outcome :=
  if Pattern.acceptAll [pattern] tokens then
    match readItem tokens with
    | .error failure => .error failure
    | .ok (trees, rest) =>
        if rest.length < tokens.length then
          match readWhile pattern readItem rest with
          | .error failure => .error failure
          | .ok (more, final) => .ok (trees ++ more, final)
        else .ok (trees, rest)
  else .ok ([], tokens)
termination_by tokens.length

/-- Reads a phrase, given how to read what is nested in it. -/
def read (readNested : Nesting → List Token → Outcome) : Phrase → List Token → Outcome
  | .empty, tokens => .ok ([], tokens)
  | .token _ expected, [] => .error ⟨.expected expected, []⟩
  | .token pattern expected, next :: rest =>
      if pattern.accepts next then .ok ([ParseTree.terminal next.text], rest)
      else .error ⟨.expected expected, next :: rest⟩
  | .fail expected, tokens => .error ⟨.expected expected, tokens⟩
  | .seq first second, tokens =>
      match first.read readNested tokens with
      | .error failure => .error failure
      | .ok (trees, rest) =>
          match second.read readNested rest with
          | .error failure => .error failure
          | .ok (more, final) => .ok (trees ++ more, final)
  | .node rule body, tokens =>
      match body.read readNested tokens with
      | .error failure => .error failure
      | .ok (trees, rest) => .ok ([ParseTree.ofRule rule trees], rest)
  | .ifNext patterns yes no, tokens =>
      if Pattern.acceptAll patterns tokens then yes.read readNested tokens
      else no.read readNested tokens
  | .whileNext pattern body, tokens => readWhile pattern (body.read readNested) tokens
  | .nested level, tokens => readNested level tokens

end Phrase

namespace Grammar

/-- Statements and parenthesized expressions may be nested this deep, taken together. -/
def nestingLimit : Nat := 128

/-- Reads what is nested, with the given number of levels to spare. -/
def readNested : Nat → Nesting → List Token → Outcome
  | 0, _, tokens => .error ⟨.tooDeep, tokens⟩
  | levels + 1, level, tokens => (nestedPhrase level).read (readNested levels) tokens

/-- Reads as many statements as there are. -/
def readProgram (tokens : List Token) : Outcome :=
  program.read (readNested nestingLimit) tokens

end Grammar

/-- Why a token list is no program. Positions count the tokens in front. -/
inductive SyntaxError where
  | unexpected (position : Nat) (expected : String) (found : Token)
  | unexpectedEnd (expected : String)
  | trailing (position : Nat) (found : Token)
  | tooDeep (position : Nat)
  deriving DecidableEq, Repr

namespace SyntaxError

def message : SyntaxError → String
  | .unexpected position expected found =>
      "Parse error at token " ++ toString position ++ ": expected " ++ expected ++ ", found " ++
        found.display
  | .unexpectedEnd expected => "Parse error: expected " ++ expected ++ ", found end of input"
  | .trailing position found =>
      "Parse error at token " ++ toString position ++
        ": unexpected tokens at the end, starting with " ++ found.display
  | .tooDeep position =>
      "Parse error at token " ++ toString position ++ ": nesting exceeds " ++
        toString Grammar.nestingLimit ++ " levels"

/-- The error for a failure at a position. -/
def ofFailure (position : Nat) : Failure → SyntaxError
  | ⟨.tooDeep, _⟩ => .tooDeep position
  | ⟨.expected what, []⟩ => .unexpectedEnd what
  | ⟨.expected what, found :: _⟩ => .unexpected position what found

end SyntaxError

/-- A token list and the number of its tokens that are done. -/
structure Reading where
  tokens : List Token
  position : Nat
  deriving Repr

namespace Reading

def start (tokens : List Token) : Reading :=
  ⟨tokens, 0⟩

/-- The reading with only the given tokens left. -/
def stopAt (reading : Reading) (rest : List Token) : Reading :=
  ⟨reading.tokens, reading.tokens.length - rest.length⟩

/-- Reads a program from the tokens not yet done. Afterwards all tokens are done, or those before
the place of the error. -/
def next (reading : Reading) : Except SyntaxError ParseTree × Reading :=
  match Grammar.readProgram (reading.tokens.drop reading.position) with
  | .error failure =>
      let stopped := reading.stopAt failure.rest
      (.error (.ofFailure stopped.position failure), stopped)
  | .ok (statements, rest) =>
      let stopped := reading.stopAt rest
      match rest with
      | [] => (.ok (ParseTree.ofRule .root statements), stopped)
      | found :: _ => (.error (.trailing stopped.position found), stopped)

/-- The results of reading a program the given number of times, each from where the one before
stopped. -/
def nextTimes : Nat → Reading → List (Except SyntaxError ParseTree)
  | 0, _ => []
  | times + 1, reading =>
      let (result, stopped) := reading.next
      result :: nextTimes times stopped

end Reading

/-- The parse tree of a token list. -/
def ParseTree.ofTokens? (tokens : List Token) : Except SyntaxError ParseTree :=
  (Reading.start tokens).next.1

end ThreeAddress
