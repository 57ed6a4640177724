import ViewTyping.Decimal.Binary64

/-!
# Numbers in JSON texts

A `Numeral` keeps a number as it is written. It stands for a whole number (`toInt?`) if it has
neither fraction nor exponent, and for a double (`toBinary64?`) made of its leading digits.
-/

set_option autoImplicit false

namespace ViewTyping.Json

/-- A number as it is written: `± whole.fraction * 10 ^ exponent`. -/
structure Numeral where
  negative : Bool
  whole : Nat
  /-- The digits behind the point, none if there is no point. -/
  fraction : List Char
  /-- The power of ten, if one is written. -/
  exponent : Option Int
deriving DecidableEq, Repr

namespace Numeral

def ofInt (n : Int) : Numeral := ⟨n < 0, n.natAbs, [], none⟩

/-- Whether the number is written with neither fraction nor exponent. -/
def plain (n : Numeral) : Bool := n.fraction.isEmpty && n.exponent.isNone

/-- The leading digits are below this number. -/
def leadingLimit : Nat := 0x10000000000000000

/-- Appends digits to a number up to the first that would take it to the limit, and counts those
that are left over. -/
def appendDigits (n : Nat) : List Char → Nat × Nat
  | [] => (n, 0)
  | c :: cs =>
    let next := 10 * n + (c.toNat - '0'.toNat)
    if next < leadingLimit then appendDigits next cs else (n, cs.length + 1)

/-- The leading digits of a number and the power of ten that they are multiplied by. Digits left
over before the point count for the power only, those behind it not at all. -/
def leading (n : Numeral) : Nat × Int :=
  let (digits, beyond) := appendDigits 0 (Nat.toDigits 10 n.whole)
  let (digits, dropped) := appendDigits digits n.fraction
  (digits, n.exponent.getD 0 + beyond + dropped - n.fraction.length)

/-- The double that the leading digits and their power of ten stand for, if the number is not beyond
the largest. -/
def toBinary64? (n : Numeral) : Option Binary64 :=
  Binary64.ofDecimal? n.negative n.leading.1 n.leading.2

def inRange (n : Numeral) : Bool := n.toBinary64?.isSome

/-- The whole number that is written, if the number is a plain one. A negative zero is no whole
number. -/
def toInt? (n : Numeral) : Option Int :=
  if !n.plain || (n.negative && n.whole == 0) then none
  else some (if n.negative then -(n.whole : Int) else n.whole)

def render (n : Numeral) : String :=
  (if n.negative then "-" else "") ++ toString n.whole ++
    (if n.fraction.isEmpty then "" else "." ++ String.ofList n.fraction) ++
    match n.exponent with
    | some power => "e" ++ toString power
    | none => ""

/-! ## Reading -/

def ofDigits (digits : List Char) : Nat := Nat.ofDigitChars 10 digits 0

/-- The longest run of digits at the start of a text, and the rest. -/
def digitRun (cs : List Char) : List Char × List Char :=
  (cs.takeWhile Char.isDigit, cs.dropWhile Char.isDigit)

/-- The whole part of a number: one zero, or digits that do not start with a zero. -/
def readWhole (cs : List Char) : Option (List Char × List Char) :=
  match digitRun cs with
  | ([], _) => none
  | ('0' :: _ :: _, _) => none
  | (whole, rest) => some (whole, rest)

/-- The fraction of a number, empty if there is none. A point must be followed by a digit. -/
def readFraction : List Char → Option (List Char × List Char)
  | '.' :: cs =>
    match digitRun cs with
    | ([], _) => none
    | (fraction, rest) => some (fraction, rest)
  | cs => some ([], cs)

/-- The digits of an exponent behind its mark and sign. -/
def readPower (negative : Bool) (cs : List Char) : Option (Option Int × List Char) :=
  match digitRun cs with
  | ([], _) => none
  | (digits, rest) =>
    some (some (if negative then -(ofDigits digits : Int) else ofDigits digits), rest)

/-- The exponent of a number, if it has one. -/
def readExponent : List Char → Option (Option Int × List Char)
  | 'e' :: '-' :: cs | 'E' :: '-' :: cs => readPower true cs
  | 'e' :: '+' :: cs | 'E' :: '+' :: cs => readPower false cs
  | 'e' :: cs | 'E' :: cs => readPower false cs
  | cs => some (none, cs)

def readUnsigned (negative : Bool) (cs : List Char) : Option (Numeral × List Char) := do
  let (whole, cs) ← readWhole cs
  let (fraction, cs) ← readFraction cs
  let (power, cs) ← readExponent cs
  return (⟨negative, ofDigits whole, fraction, power⟩, cs)

/-- The number at the start of a text, and the rest. -/
def read : List Char → Option (Numeral × List Char)
  | '-' :: cs => readUnsigned true cs
  | cs => readUnsigned false cs

end Numeral

end ViewTyping.Json
