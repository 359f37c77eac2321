import ThreeAddress.CommandLine.Report
import ThreeAddress.Viewer.Session

/-! The command line program: reads the file, prints the report or starts the viewer. -/

namespace ThreeAddress.CommandLine

/-- A directory is met when its contents are read, a path through a file when it is opened; the
system reports the second with a negated number. -/
def fileError : IO.Error → FileError
  | .noFileOrDirectory .. => .notFound
  | .inappropriateType _ code _ => if code = 21 then .isADirectory else .notADirectory
  | error => .other error.toString

def readContents (path : String) : IO (Except FileError ByteArray) := do
  try
    return .ok (← IO.FS.readBinFile path)
  catch error =>
    return .error (fileError error)

def present (response : Response) : IO UInt32 := do
  (← IO.getStdout).putStr response.stdout
  for line in response.stderr do
    IO.eprintln line
  return UInt32.ofNat response.code

/-- Draws the session and takes in the next key, by its name on a line, until one quits or there are
no more. -/
partial def browse (session : Viewer.Session) : IO Unit := do
  let shown := session.settle (Viewer.paneSize 80 24)
  for row in (shown.draw 80 24).texts do
    IO.println row
  if shown.quit then return
  let line ← (← IO.getStdin).getLine
  if line.isEmpty then return
  browse (shown.press (.ofName line.trimAscii.toString))

def run (arguments : List String) : IO UInt32 := do
  match Options.ofArguments? arguments with
  | .error stop => present stop.response
  | .ok options =>
      let contents ← readContents options.input
      match options.has .viewer, Listing.ofFile? contents options.equation with
      | true, .ok listing => do
          browse (.start listing)
          return 0
      | _, result => present (respond options result)

end ThreeAddress.CommandLine

def main (arguments : List String) : IO UInt32 :=
  ThreeAddress.CommandLine.run arguments
