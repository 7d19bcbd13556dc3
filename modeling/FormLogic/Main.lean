import FormLogic.Command.Run

/-!
The program: arguments, files and streams of the system around `Command.runArguments`.
-/
namespace FormLogic

open Command

def fileError : IO.Error → FileError
  | .noFileOrDirectory .. => .notFound
  | .inappropriateType .. => .isDirectory
  | e => .other (toString e).toList

def readFile (path : Text) : IO (Except FileError Text) := do
  try
    let bytes ← IO.FS.readBinFile (String.ofList path)
    match String.fromUTF8? bytes with
    | some text => return .ok text.toList
    | none => return .error .notUtf8
  catch e => return .error (fileError e)

def writeFile (path content : Text) : IO (Except FileError Unit) := do
  try
    IO.FS.writeFile (String.ofList path) (String.ofList content)
    return .ok ()
  catch e => return .error (fileError e)

/-- Runs the program and shows what it says; the answer is the exit code. -/
def runProgram (arguments : List String) : IO UInt32 := do
  let errors ← IO.getStderr
  let result ← Command.runArguments ⟨readFile, writeFile⟩ (← errors.isTty)
    (arguments.map String.toList)
  for line in result.stderr do errors.putStrLn (String.ofList line)
  IO.print (String.ofList result.stdout)
  return result.code.toUInt32

end FormLogic

def main (arguments : List String) : IO UInt32 := FormLogic.runProgram arguments
