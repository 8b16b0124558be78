import Polytype.Command.Run

/-!
# The program

Reads the files that the arguments name, runs the command and writes what it produced.
-/

namespace Polytype

/-- The text of a file, if it can be read. A byte that is no part of valid UTF-8 becomes a character
that no document and no configuration may hold. -/
def readText (path : String) : IO (Option String) := do
  try
    let bytes ← IO.FS.readBinFile path
    let source := Text.Source.ofBytes bytes.toList
    return some (String.ofList (source.map (·.getD '\x00')))
  catch _ => return none

/-- The texts of all files that a request may read. -/
def readFiles (args : List String) : IO Command.Files := do
  match Command.Request.ofArgs args with
  | .error _ => return fun _ => none
  | .ok request =>
    let texts ← request.files.mapM fun path => return (path, ← readText path)
    return fun path => (texts.lookup path).join

end Polytype

/-- Runs the command that the arguments ask for. -/
def main (args : List String) : IO UInt32 := do
  let (output, log, error) := Polytype.Command.run (← Polytype.readFiles args) args
  (← IO.getStderr).putStr log
  (← IO.getStdout).putStr output
  match error with
  | none => return 0
  | some message =>
    (← IO.getStderr).putStrLn message
    return 1
