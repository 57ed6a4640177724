import ViewTyping.Json.Numeral

/-!
# Reading JSON texts

`Reading.ofText` reads a text from left to right and keeps what it saw up to the point where the
text stops being JSON, if there is one. So a reading of any text can be walked in the order of the
text, and the first fault met is the first fault of the text, whether it lies in the text's form or
in its meaning.
-/

set_option autoImplicit false

namespace ViewTyping.Json

/-- How an array or an object ends. -/
inductive Ending where
  /-- With its closing bracket. -/
  | closed
  /-- Where the text breaks off or stops being JSON. -/
  | cut
deriving DecidableEq, Repr

/-- What a left-to-right reader sees of a JSON text. A string or a member's name is `none` if it
escapes half a surrogate pair: its form is that of a string, but it is no text. -/
inductive Reading where
  | null
  | bool (b : Bool)
  | num (n : Numeral)
  | str (s : Option String)
  | arr (items : List Reading) (ending : Ending)
  | obj (members : List (Option String × Reading)) (ending : Ending)
  /-- No value, or one that is broken off. -/
  | broken

/-! ## Strings -/

/-- A piece of a string: a character, or the code unit that an escape gives in four digits. -/
inductive Piece where
  | char (c : Char)
  | unit (n : Nat)
deriving DecidableEq, Repr

def hexValue? (c : Char) : Option Nat :=
  if '0' ≤ c ∧ c ≤ '9' then some (c.toNat - '0'.toNat)
  else if 'a' ≤ c ∧ c ≤ 'f' then some (c.toNat - 'a'.toNat + 10)
  else if 'A' ≤ c ∧ c ≤ 'F' then some (c.toNat - 'A'.toNat + 10)
  else none

/-- The code unit that four hexadecimal digits give. -/
def unitOfHex? (a b c d : Char) : Option Nat := do
  let a ← hexValue? a
  let b ← hexValue? b
  let c ← hexValue? c
  let d ← hexValue? d
  return ((a * 16 + b) * 16 + c) * 16 + d

/-- The character that a one-letter escape stands for. -/
def unescape? : Char → Option Char
  | '"' => some '"'
  | '\\' => some '\\'
  | '/' => some '/'
  | 'b' => some '\x08'
  | 'f' => some '\x0c'
  | 'n' => some '\n'
  | 'r' => some '\r'
  | 't' => some '\t'
  | _ => none

/-- The pieces of a string up to its closing quote, in front of those read before, last first, and
the rest of the text. -/
def readPieces (pieces : List Piece) : List Char → Option (List Piece × List Char)
  | [] => none
  | '"' :: cs => some (pieces.reverse, cs)
  | '\\' :: 'u' :: a :: b :: c :: d :: cs =>
    match unitOfHex? a b c d with
    | some n => readPieces (.unit n :: pieces) cs
    | none => none
  | '\\' :: c :: cs =>
    match unescape? c with
    | some c => readPieces (.char c :: pieces) cs
    | none => none
  | c :: cs => if c.toNat < 0x20 then none else readPieces (.char c :: pieces) cs

def isHighSurrogate (n : Nat) : Bool := 0xD800 ≤ n && n ≤ 0xDBFF

def isLowSurrogate (n : Nat) : Bool := 0xDC00 ≤ n && n ≤ 0xDFFF

/-- The text that pieces make up, unless half a surrogate pair stands alone. -/
def assemble : List Piece → Option (List Char)
  | [] => some []
  | .char c :: ps => (assemble ps).map (c :: ·)
  | .unit n :: ps =>
    if isHighSurrogate n then
      match ps with
      | .unit m :: ps =>
        if isLowSurrogate m then
          (assemble ps).map (Char.ofNat (0x10000 + (n - 0xD800) * 0x400 + (m - 0xDC00)) :: ·)
        else none
      | _ => none
    else if isLowSurrogate n then none
    else (assemble ps).map (Char.ofNat n :: ·)

/-- The string that a text holds up to its closing quote, and the rest of the text. -/
def readString (cs : List Char) : Option (Option String × List Char) :=
  (readPieces [] cs).map fun (pieces, rest) => ((assemble pieces).map String.ofList, rest)

/-! ## Values -/

/-- The four characters that may stand between the parts of a text. -/
def isSpace (c : Char) : Bool := c == ' ' || c == '\t' || c == '\n' || c == '\r'

def skipSpace (cs : List Char) : List Char := cs.dropWhile isSpace

namespace Reading

mutual

/-- The value at the start of a text, and the rest. Nothing is left behind a broken value. The
first argument bounds the nesting of calls: a call that takes no character is followed by one that
takes one. -/
def readValue : Nat → List Char → Reading × List Char
  | 0, _ => (.broken, [])
  | fuel + 1, cs =>
    match skipSpace cs with
    | 'n' :: 'u' :: 'l' :: 'l' :: cs => (.null, cs)
    | 't' :: 'r' :: 'u' :: 'e' :: cs => (.bool true, cs)
    | 'f' :: 'a' :: 'l' :: 's' :: 'e' :: cs => (.bool false, cs)
    | '"' :: cs =>
      match readString cs with
      | some (s, cs) => (.str s, cs)
      | none => (.broken, [])
    | '[' :: cs =>
      match skipSpace cs with
      | ']' :: cs => (.arr [] .closed, cs)
      | cs =>
        let (items, ending, cs) := readItems fuel cs
        (.arr items ending, cs)
    | '\x7b' :: cs =>
      match skipSpace cs with
      | '\x7d' :: cs => (.obj [] .closed, cs)
      | cs =>
        let (members, ending, cs) := readMembers fuel cs
        (.obj members ending, cs)
    | cs =>
      match Numeral.read cs with
      | some (n, cs) => (.num n, cs)
      | none => (.broken, [])

/-- The items of an array from the next one on. -/
def readItems : Nat → List Char → List Reading × Ending × List Char
  | 0, _ => ([], .cut, [])
  | fuel + 1, cs =>
    let (item, cs) := readValue fuel cs
    match skipSpace cs with
    | ']' :: cs => ([item], .closed, cs)
    | ',' :: cs =>
      let (items, ending, cs) := readItems fuel cs
      (item :: items, ending, cs)
    | _ => ([item], .cut, [])

/-- The members of an object from the next one on. A name without a colon has a broken value. What
stands in the place of a name and is no string is not kept: it makes the text malformed there,
whatever it is and whatever is due. -/
def readMembers : Nat → List Char → List (Option String × Reading) × Ending × List Char
  | 0, _ => ([], .cut, [])
  | fuel + 1, cs =>
    match skipSpace cs with
    | '"' :: cs =>
      match readString cs with
      | none => ([], .cut, [])
      | some (name, cs) =>
        match skipSpace cs with
        | ':' :: cs =>
          let (value, cs) := readValue fuel cs
          match skipSpace cs with
          | '\x7d' :: cs => ([(name, value)], .closed, cs)
          | ',' :: cs =>
            let (members, ending, cs) := readMembers fuel cs
            ((name, value) :: members, ending, cs)
          | _ => ([(name, value)], .cut, [])
        | _ => ([(name, .broken)], .cut, [])
    | _ => ([], .cut, [])

end

/-- The value at the start of a text, and the rest of the text. -/
def ofText (text : String) : Reading × List Char :=
  readValue (2 * text.length + 2) text.toList

/-! ## Looking at a reading -/

mutual

/-- Whether the text is JSON throughout the value. -/
def isComplete : Reading → Bool
  | .null | .bool _ | .num _ | .str _ => true
  | .arr items ending => itemsComplete items && ending == .closed
  | .obj members ending => membersComplete members && ending == .closed
  | .broken => false

def itemsComplete : List Reading → Bool
  | [] => true
  | r :: rs => r.isComplete && itemsComplete rs

def membersComplete : List (Option String × Reading) → Bool
  | [] => true
  | (_, r) :: ms => r.isComplete && membersComplete ms

end

mutual

/-- The number of arrays and objects that are open at once at the deepest place. -/
def depth : Reading → Nat
  | .null | .bool _ | .num _ | .str _ | .broken => 0
  | .arr items _ => itemsDepth items + 1
  | .obj members _ => membersDepth members + 1

def itemsDepth : List Reading → Nat
  | [] => 0
  | r :: rs => max r.depth (itemsDepth rs)

def membersDepth : List (Option String × Reading) → Nat
  | [] => 0
  | (_, r) :: ms => max r.depth (membersDepth ms)

end

end Reading

end ViewTyping.Json
