import Propeller.CommandLine

/-!
# The program

Reads the command line, writes the files and tells the user what happened.
-/

open Propeller

/-- How the program is called. -/
def usage : String :=
  "Usage: propeller -o FILE [--clock XIN:CLK] [-g] [-u] [-W] [-v]\n\n" ++
  "  -o FILE          Output image\n" ++
  "  --clock XIN:CLK  Crystal and target frequencies in Hz\n" ++
  "  -g               Compile DEBUG() statements\n" ++
  "  -u               Remove unused methods and variables\n" ++
  "  -W               Warn about unused symbols\n" ++
  "  -v               Log compilation phases\n"

/-- The text of a failure with its number, as the system gives them. -/
def failureText : IO.Error → String
  | .noFileOrDirectory _ code text | .inappropriateType _ code text | .invalidArgument _ code text
  | .permissionDenied _ code text | .resourceExhausted _ code text | .noSuchThing _ code text
  | .alreadyExists _ code text | .otherError code text | .resourceBusy code text
  | .hardwareFault code text | .unsupportedOperation code text => s!"{text} (os error {code})"
  | e => toString e

/-- Write a file of the file system. -/
def writeFile (path : String) (contents : Bytes) : IO (Except String Unit) := do
  try
    IO.FS.writeBinFile path ⟨contents.toArray⟩
    return .ok ()
  catch e => return .error (failureText e)

/-- Run the program: status 0 if all went well, 1 if it failed, and 2 if the arguments are wrong. -/
def main (arguments : List String) : IO UInt32 := do
  match CommandLine.read arguments with
  | .error .information => do
    IO.print usage
    return 0
  | .error .refused => do
    IO.eprint usage
    return 2
  | .ok run => do
    let (text, done) ← (CommandLine.respond run).perform writeFile
    IO.eprint text
    return if done then 0 else 1
