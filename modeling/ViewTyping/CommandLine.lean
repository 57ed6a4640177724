import ViewTyping.Codec.Program
import ViewTyping.Program.Check

/-!
# The command line

`CommandLine.run` is what the command `layout` does with a file: it prints the layout of every
table and view, as text or as JSON, or the reason why there are none.
-/

set_option autoImplicit false

namespace ViewTyping.CommandLine

/-- Why a file has no text. -/
inductive ReadFault where
  | missing
  | notText
  | other (reason : String)
deriving DecidableEq, Repr

def ReadFault.message : ReadFault → String
  | missing => "No such file or directory (os error 2)"
  | notText => "stream did not contain valid UTF-8"
  | other reason => reason

/-- The text that bytes encode. -/
def textOfBytes (bytes : ByteArray) : Except ReadFault String :=
  match String.fromUTF8? bytes with
  | some text => .ok text
  | none => .error .notText

/-- Why a run fails. -/
inductive Failure where
  /-- The file cannot be read, or is not JSON. -/
  | input (message : String)
  /-- The JSON does not describe a program. -/
  | schema (message : String)
  | type (d : Diagnostic)
deriving DecidableEq, Repr

namespace Failure

def code : Failure → String
  | input _ => "C0001"
  | schema _ => "C0002"
  | type d => d.code

def className : Failure → String
  | input _ | schema _ => "input"
  | type d => if d.isInternal then "internal" else "user"

def message : Failure → String
  | input m | schema m => m
  | type d => d.message

/-- The line that reports a failure as text. -/
def render : Failure → String
  | input m | schema m => "error: " ++ m
  | type d => d.className ++ "[" ++ d.code ++ "]: " ++ d.message

/-- A failure as JSON. -/
def encode (f : Failure) : Json :=
  .obj [("class", .str f.className), ("code", .str f.code), ("message", .str f.message)]

end Failure

/-- How many arrays and objects of a program's text may be open at once. -/
def nestingLimit : Nat := 127

/-- The program in a file. What is said about a text and its first fault is left to `faultText`. -/
def load (faultText : String → Json.Fault → String) (path : String)
    (contents : Except ReadFault String) : Except Failure Program :=
  match contents with
  | .error f => .error (.input ("cannot read " ++ path ++ ": " ++ f.message))
  | .ok text =>
    match (Program.decoder .objectOrArray).runText nestingLimit text with
    | .ok p => .ok p
    | .error f =>
      let message := "invalid program " ++ path ++ ": " ++ faultText text f
      match f with
      | .malformed | .misplaced => .error (.input message)
      | .mismatch | .unknownKind _ => .error (.schema message)

/-- What a run writes, and its exit code. -/
structure Output where
  exitCode : Nat
  stdout : String
  stderr : String
  /-- The lines of the log. -/
  log : List String
deriving DecidableEq, Repr

def Attribute.render : String × Attribute → String
  | (name, .count n) => name ++ "=" ++ toString n
  | (name, .text s) => name ++ "=" ++ s

/-- The log line of an event, if it is a warning. -/
def logLine? (e : Event) : Option String :=
  if e.level = .warn then
    some ("WARN dcm_typeck::infer: " ++ " ".intercalate (e.message :: e.attributes.map
      Attribute.render))
  else none

/-- The log line at the start of a check. -/
def startLine (p : Program) : String :=
  "INFO dcmc: typing program tables=" ++ toString p.tables.length ++ " views=" ++
    toString p.views.length

def renderLayouts (json : Bool) (layouts : List Layout) : String :=
  if json then (Json.arr (layouts.map Layout.encode)).pretty ++ "\n"
  else "".intercalate (layouts.map fun l => l.render ++ "\n")

def renderFailure (json : Bool) (f : Failure) : String :=
  (if json then f.encode.compact else f.render) ++ "\n"

def failed (json : Bool) (f : Failure) (log : List String) : Output :=
  ⟨1, "", renderFailure json f, log⟩

/-- What the command line asks for: the file whose layouts are printed, and whether as JSON. -/
structure Request where
  path : String
  json : Bool
deriving DecidableEq, Repr

/-- The request that the arguments `layout FILE` make, with `--json` in any place behind `layout`. -/
def Request.ofArgs? : List String → Option Request
  | "layout" :: args =>
    match args.filter (· != "--json") with
    | [path] => some ⟨path, args.contains "--json"⟩
    | _ => none
  | _ => none

/-- Prints the layouts of the program in the file at `path`. -/
def run (faultText : String → Json.Fault → String) (path : String)
    (contents : Except ReadFault String) (json : Bool) : Output :=
  match load faultText path contents with
  | .error f => failed json f []
  | .ok p =>
    let log := startLine p :: p.run.events.filterMap logLine?
    match p.check with
    | .error d => failed json (.type d) log
    | .ok c => ⟨0, renderLayouts json c.layouts, "", log⟩

end ViewTyping.CommandLine
