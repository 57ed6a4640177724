import ViewTyping.CommandLine

/-!
# The program
-/

set_option autoImplicit false

namespace ViewTyping.CommandLine

def readFile (path : String) : IO (Except ReadFault String) := do
  try
    return textOfBytes (← IO.FS.readBinFile path)
  catch
    | .noFileOrDirectory .. => return .error .missing
    | e => return .error (.other (toString e))

/-- The first fault of a text in words. -/
def describeFault (_ : String) : Json.Fault → String
  | .malformed => "the text is not JSON"
  | .misplaced => "a value has no place where it stands"
  | .mismatch => "a value is not of the form that is due"
  | .unknownKind name => Kind.unknownMessage name

/-- Answers a request: the log and errors go to standard error, layouts to standard output. -/
def Request.answer (request : Request) : IO UInt32 := do
  let out := run describeFault request.path (← readFile request.path) request.json
  for line in out.log do
    IO.eprintln line
  IO.print out.stdout
  IO.eprint out.stderr
  return out.exitCode.toUInt32

end ViewTyping.CommandLine

def main (args : List String) : IO UInt32 :=
  match ViewTyping.CommandLine.Request.ofArgs? args with
  | some request => request.answer
  | none => do
    IO.eprintln "Usage: dcmc layout [--json] <PROGRAM>"
    return 2
