import ThreeAddress.CommandLine.Options
import ThreeAddress.Listing

/-!
# Reports

The report of a listing shows the parts that the options ask for, then that parsing went well, the
edges of the equation's tree if there is an equation, and the code. A `Response` is all that a run
of the program shows: an exit code, the standard output, and the lines of the standard error.
-/

namespace ThreeAddress

/-- A heading, then the lines of a part, each two blanks in. -/
def reportPart (heading : String) (lines : List String) : List String :=
  heading :: lines.map fun line => "  " ++ line

namespace Listing

/-- The lines of the report. The parts asked for come first, each with an empty line behind it. -/
def reportLines (listing : Listing) (options : CommandLine.Options) : List String :=
  (if options.has .cleaned then ["Cleaned source:", listing.cleaned, ""] else []) ++
  (if options.has .tokens then
    reportPart "Tokens:" (listing.tokens.map Token.display) ++ [""] else []) ++
  (if options.has .tree then "Parse tree:" :: listing.tree.outline ++ [""] else []) ++
  ["Parsing completed successfully."] ++
  (match listing.edgeLines with
    | some edges => "" :: reportPart "Equation tree:" edges
    | none => []) ++
  "" :: reportPart "Three-address code:" listing.codeLines

/-- The report as one text in which every line ends with a newline. -/
def report (listing : Listing) (options : CommandLine.Options) : String :=
  String.join ((listing.reportLines options).map fun line => line ++ "\n")

end Listing

namespace CommandLine

structure Response where
  code : Nat
  stdout : String
  stderr : List String
  deriving DecidableEq, Repr

def usage : String :=
  "Usage: tacfront [-e TEXT] [--cleaned] [--tokens] [--tree] [--tui] [-v] FILE"

def Stop.message : Stop → String
  | .missingFile => "a FILE is required"
  | .invalidValue => "an argument has no valid value"
  | .unknownArgument => "unexpected argument"
  | .repeatedOption => "an option is given twice"
  | .unneededValue => "an option takes no value"
  | .help => usage
  | .version => "tacfront 0.1.0"

/-- What is shown if the arguments ask for no listing. -/
def Stop.response (stop : Stop) : Response :=
  match stop with
  | .help | .version => ⟨0, stop.message ++ "\n", []⟩
  | _ => ⟨2, "", ["error: " ++ stop.message, usage]⟩

/-- What is shown for options and a listing, or the reason why there is none. -/
def respond (options : Options) : Except Listing.Error Listing → Response
  | .ok listing => ⟨0, listing.report options, []⟩
  | .error error => ⟨1, "", ["Error: " ++ options.input ++ ": " ++ error.message]⟩

end CommandLine

end ThreeAddress
