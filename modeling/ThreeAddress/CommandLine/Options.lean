/-!
# Command line options

Arguments are taken in from left to right, and the first failure ends the matter. Short options may
stand together behind one dash, and an option value may follow its option, with or without an equals
sign, or be the next argument. Two dashes alone make all later arguments plain.

An argument that is a value of its own, the file or the text of an equation, is not checked at once.
It waits until the next option or value that is recognised, or the end of the arguments; an argument
that is not recognised is reported before a bad value that waits.
-/

namespace ThreeAddress.CommandLine

/-- Switches without a value. -/
inductive Switch where
  | cleaned
  | tokens
  | tree
  | viewer
  | verbose
  deriving DecidableEq, Repr

/-- What ends the reading of the arguments. -/
inductive Stop where
  | missingFile
  | invalidValue
  | unknownArgument
  | repeatedOption
  | unneededValue
  | help
  | version
  deriving DecidableEq, Repr

structure Options where
  input : String
  equation : Option String
  switches : List Switch
  deriving DecidableEq, Repr

namespace Options

def has (options : Options) (switch : Switch) : Bool :=
  options.switches.contains switch

/-- The least level of log messages that are wanted. -/
def logLevel (options : Options) : String :=
  if options.has .verbose then "debug" else "warn"

end Options

/-- The form of one argument. -/
inductive Argument where
  | plain (text : String)
  | twoDashes
  | long (name : String) (value : Option String)
  | short (letters : List Char)
  deriving DecidableEq, Repr

/-- A name, and the value behind the first equals sign if there is one. -/
def splitValue (chars : List Char) : String × Option String :=
  (String.ofList (chars.takeWhile (· != '=')),
    match chars.dropWhile (· != '=') with
    | [] => none
    | _ :: value => some (String.ofList value))

def Argument.ofText (text : String) : Argument :=
  match text.toList with
  | ['-', '-'] => .twoDashes
  | '-' :: '-' :: rest => .long (splitValue rest).1 (splitValue rest).2
  | '-' :: letter :: letters => .short (letter :: letters)
  | _ => .plain text

/-- The long options: a switch, the equation, or a request to stop. -/
inductive LongOption where
  | switch (switch : Switch)
  | equation
  | stop (stop : Stop)
  deriving DecidableEq, Repr

def LongOption.ofName? : String → Option LongOption
  | "cleaned" => some (.switch .cleaned)
  | "tokens" => some (.switch .tokens)
  | "tree" => some (.switch .tree)
  | "tui" => some (.switch .viewer)
  | "verbose" => some (.switch .verbose)
  | "equation" => some .equation
  | "help" => some (.stop .help)
  | "version" => some (.stop .version)
  | _ => none

/-- A value that is still to be checked. An equation without a text needs the next argument. -/
inductive Waiting where
  | file (path : String)
  | equation (text : Option String)
  deriving DecidableEq, Repr

/-- What the arguments so far have given. -/
structure Draft where
  input : Option String
  equation : Option String
  switches : List Switch
  waiting : Option Waiting
  onlyPlain : Bool
  deriving DecidableEq, Repr

namespace Draft

def empty : Draft :=
  ⟨none, none, [], none, false⟩

def giveEquation (draft : Draft) (text : String) : Except Stop Draft :=
  if draft.equation.isSome then .error .repeatedOption
  else .ok { draft with equation := some text }

def giveSwitch (draft : Draft) (switch : Switch) : Except Stop Draft :=
  if draft.switches.contains switch then .error .repeatedOption
  else .ok { draft with switches := draft.switches ++ [switch] }

/-- Checks the value that waits, if there is one. -/
def settle (draft : Draft) : Except Stop Draft :=
  let settled := { draft with waiting := none }
  match draft.waiting with
  | none => .ok settled
  | some (.file path) =>
      if path.isEmpty then .error .invalidValue else .ok { settled with input := some path }
  | some (.equation none) => .error .invalidValue
  | some (.equation (some text)) => settled.giveEquation text

def wait (draft : Draft) (value : Waiting) : Draft :=
  { draft with waiting := some value }

/-- Whether there is a file already, checked or not. -/
def hasFile (draft : Draft) : Bool :=
  match draft.waiting with
  | some (.file _) => true
  | _ => draft.input.isSome

/-- Takes in the file, of which there is only one. -/
def takeFile (draft : Draft) (path : String) : Except Stop Draft :=
  if draft.hasFile then .error .unknownArgument
  else do
    let draft ← draft.settle
    return draft.wait (.file path)

/-- Takes in a plain argument: the text of an equation that needs one, else the file. -/
def takePlain (draft : Draft) (text : String) : Except Stop Draft :=
  match draft.waiting with
  | some (.equation none) => .ok (draft.wait (.equation (some text)))
  | _ => draft.takeFile text

/-- Takes in the option for an equation, with its text if that is attached. -/
def takeEquation (draft : Draft) (attached : Option String) : Except Stop Draft := do
  let draft ← draft.settle
  match attached with
  | some text => draft.giveEquation text
  | none => return draft.wait (.equation none)

def takeSwitch (draft : Draft) (switch : Switch) : Except Stop Draft := do
  let draft ← draft.settle
  draft.giveSwitch switch

/-- Takes in a request to stop, which is heard only if no bad value waits. -/
def takeStop (draft : Draft) (stop : Stop) : Except Stop Draft := do
  let _ ← draft.settle
  throw stop

/-- Takes in the letters behind one dash. -/
def takeLetters (draft : Draft) : List Char → Except Stop Draft
  | [] => .ok draft
  | ['e'] => draft.takeEquation none
  | 'e' :: '=' :: text => draft.takeEquation (some (String.ofList text))
  | 'e' :: text => draft.takeEquation (some (String.ofList text))
  | 'v' :: letters =>
      match draft.takeSwitch .verbose with
      | .ok draft => takeLetters draft letters
      | .error stop => .error stop
  | 'h' :: _ => draft.takeStop .help
  | 'V' :: _ => draft.takeStop .version
  | _ :: _ => .error .unknownArgument

def takeLong (draft : Draft) (name : String) (value : Option String) : Except Stop Draft :=
  match LongOption.ofName? name, value with
  | none, _ => .error .unknownArgument
  | some .equation, attached => draft.takeEquation attached
  | some _, some _ => .error .unneededValue
  | some (.switch switch), none => draft.takeSwitch switch
  | some (.stop stop), none => draft.takeStop stop

/-- Takes in the next argument. -/
def take (draft : Draft) (text : String) : Except Stop Draft :=
  if draft.onlyPlain then draft.takeFile text
  else
    match Argument.ofText text with
    | .plain text => draft.takePlain text
    | .twoDashes => .ok { draft with onlyPlain := true }
    | .long name value => draft.takeLong name value
    | .short letters => draft.takeLetters letters

/-- The options, once there are no more arguments. -/
def finish (draft : Draft) : Except Stop Options := do
  let draft ← draft.settle
  match draft.input with
  | none => throw .missingFile
  | some input => return ⟨input, draft.equation, draft.switches⟩

end Draft

/-- The options that a list of arguments asks for. -/
def Options.ofArguments? (arguments : List String) : Except Stop Options := do
  let draft ← arguments.foldlM Draft.take Draft.empty
  draft.finish

end ThreeAddress.CommandLine
