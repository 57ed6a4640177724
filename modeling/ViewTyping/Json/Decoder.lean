import ViewTyping.Json.Reading
import ViewTyping.Kind

/-!
# Decoding in the order of the text

A decoder walks a reading from left to right and stops at the first fault. Structures are written
as objects or as arrays of their fields (`Record`), alternatives as an object whose only member
names the alternative, or as the bare name where the alternative has no content
(`Decoder.alternative`).

A decoder is given the number of arrays and objects that it may still open.
-/

set_option autoImplicit false

namespace ViewTyping.Json

/-- The first thing found wrong with a text. -/
inductive Fault where
  /-- The text is not JSON, or nested too deeply. -/
  | malformed
  /-- The value has no place here: it begins none of the alternatives that are due, or stands behind
  the last of what is due. -/
  | misplaced
  /-- The value is not of the form that is due. -/
  | mismatch
  /-- A name that stands for no column kind. -/
  | unknownKind (name : String)
deriving DecidableEq, Repr

abbrev Decoder (α : Type) := Nat → Reading → Except Fault α

/-- What is wrong with a value that stands where a value of another form is due. An array or
object shows at its opening bracket that it is of another form, a number or a string at its end. -/
def Reading.fault : Reading → Fault
  | .broken | .str none => .malformed
  | .num n => if n.inRange then .mismatch else .malformed
  | _ => .mismatch

namespace Decoder

variable {α β : Type}

def map (f : α → β) (d : Decoder α) : Decoder β := fun room r => (d room r).map f

/-- Decodes a value nested to any depth. -/
def run (d : Decoder α) (r : Reading) : Except Fault α := d r.depth r

/-- Decodes a whole text. Only space may follow the value. -/
def runText (d : Decoder α) (room : Nat) (text : String) : Except Fault α := do
  let (r, rest) := Reading.ofText text
  let a ← d room r
  if rest.all isSpace then return a else throw .malformed

/-! ## Values without parts -/

def text : Decoder String
  | _, .str (some s) => .ok s
  | _, r => .error r.fault

def bool : Decoder Bool
  | _, .bool b => .ok b
  | _, r => .error r.fault

/-- A whole number that satisfies `fits`. -/
def whole (fits : Int → Bool) : Decoder Int
  | _, .num n =>
    match n.toInt? with
    | some i => if fits i then .ok i else .error (Reading.num n).fault
    | none => .error (Reading.num n).fault
  | _, r => .error r.fault

def int32 : Decoder Int32 :=
  map Int32.ofInt (whole fun i => Int32.minValue.toInt ≤ i && i ≤ Int32.maxValue.toInt)

def int64 : Decoder Int64 :=
  map Int64.ofInt (whole fun i => Int64.minValue.toInt ≤ i && i ≤ Int64.maxValue.toInt)

def double : Decoder Binary64
  | _, .num n =>
    match n.toBinary64? with
    | some x => .ok x
    | none => .error .malformed
  | _, r => .error r.fault

def kind : Decoder Kind := fun room r => do
  let name ← text room r
  match Kind.ofName? name with
  | some k => return k
  | none => throw (.unknownKind name)

/-- A value that is complete, if nothing stands behind it between brackets that end as given. -/
def alone (a : α) (behind : List β) (ending : Ending) : Except Fault α :=
  if !behind.isEmpty then .error .misplaced
  else if ending = .closed then .ok a
  else .error .malformed

/-! ## Lists -/

def list (item : Decoder α) : Decoder (List α)
  | 0, .arr .. => .error .malformed
  | room + 1, .arr items ending => do
    let as ← items.mapM (item room)
    if ending = .closed then return as else throw .malformed
  | _, r => .error r.fault

end Decoder

/-! ## Records -/

/-- How the fields of an alternative may be written. A text may give them as an array, too; a
document that is at hand as a tree gives them as an object. -/
inductive BodyForm where
  | object
  | objectOrArray
deriving DecidableEq, Repr

/-- How a structure is decoded: `State` holds the fields found so far in an object. -/
structure Record (State α : Type) where
  start : State
  /-- Takes in a member, if its name is that of a field. A field that was found before is a fault
  whatever the value. -/
  take? : Nat → State → String → Reading → Option (Except Fault State)
  /-- Completes the structure at the end of an object. -/
  finish : State → Except Fault α
  /-- Takes the fields from the front of an array that ends as given. -/
  takeItems : Nat → List Reading → Ending → Except Fault (α × List Reading)

namespace Record

variable {State State' α β : Type}

/-- One field. A field with a default may be absent. -/
def field (name : String) (value : Decoder α) (default? : Option α := none) :
    Record (Option α) α where
  start := none
  take? room found key r :=
    if key = name then
      some (if found.isSome then .error .mismatch else (value room r).map some)
    else none
  finish found :=
    match found <|> default? with
    | some a => .ok a
    | none => .error .mismatch
  takeItems room
    | r :: rs, _ => (value room r).map (·, rs)
    | [], .closed =>
      match default? with
      | some a => .ok (a, [])
      | none => .error .mismatch
    | [], _ => .error .malformed

/-- The fields of two structures, those of the first before those of the second. -/
def and (a : Record State α) (b : Record State' β) : Record (State × State') (α × β) where
  start := (a.start, b.start)
  take? room found key r :=
    match a.take? room found.1 key r with
    | some next => some (next.map (·, found.2))
    | none => (b.take? room found.2 key r).map fun next => next.map (found.1, ·)
  finish found := do
    let x ← a.finish found.1
    let y ← b.finish found.2
    return (x, y)
  takeItems room items ending := do
    let (x, items) ← a.takeItems room items ending
    let (y, items) ← b.takeItems room items ending
    return ((x, y), items)

/-- Takes in a member of an object. The value of a member that is no field is skipped, however it
is nested. -/
def takeMember (d : Record State α) (room : Nat) (found : State) :
    Option String × Reading → Except Fault State
  | (none, _) => .error .malformed
  | (some key, r) =>
    match d.take? room found key r with
    | some next => next
    | none => if r.isComplete then .ok found else .error .malformed

/-- The structure from an object, or from an array of the fields in order. -/
def decoder (d : Record State α) : Decoder α
  | 0, .arr .. | 0, .obj .. => .error .malformed
  | room + 1, .arr items ending => do
    let (a, rest) ← d.takeItems room items ending
    Decoder.alone a rest ending
  | room + 1, .obj members ending => do
    let found ← members.foldlM (d.takeMember room) d.start
    if ending = .closed then d.finish found else throw .malformed
  | _, r => .error r.fault

/-- The fields of an alternative, written in the given form. -/
def bodyDecoder (form : BodyForm) (d : Record State α) : Decoder α
  | room, .arr items ending =>
    match form with
    | .object => .error .mismatch
    | .objectOrArray => d.decoder room (.arr items ending)
  | room, r => d.decoder room r

end Record

/-! ## Alternatives -/

/-- What an alternative holds. -/
inductive Content (α : Type) where
  | nothing (a : α)
  | value (d : Decoder α)

/-- The content of an alternative that is written as a member. -/
def Content.decoder {α : Type} : Content α → Decoder α
  | .nothing a => fun _ r =>
    match r with
    | .null => .ok a
    | r => .error r.fault
  | .value d => d

namespace Decoder

variable {α : Type}

/-- One of several alternatives, chosen by name. -/
def alternative (content? : String → Option (Content α)) : Decoder α
  | _, .str (some name) =>
    match content? name with
    | some (.nothing a) => .ok a
    | _ => .error .mismatch
  | room + 1, .obj ((some name, r) :: rest) ending =>
    match content? name with
    | none => .error .mismatch
    | some content => do
      let a ← content.decoder room r
      alone a rest ending
  | _ + 1, .obj [] .closed => .error .misplaced
  | _, .null | _, .bool _ | _, .num _ | _, .arr .. => .error .misplaced
  | _, _ => .error .malformed

/-- One of the listed values, chosen by its name. -/
def named (name : α → String) (values : List α) : Decoder α :=
  alternative fun s => (values.find? (name · == s)).map .nothing

end Decoder

end ViewTyping.Json
