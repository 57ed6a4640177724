import ViewTyping.Decimal.Binary64

/-!
# Shortest decimals

The shortest decimal that rounds to a given double, and the text written for it. The reals that
round to `m * 2 ^ q` form an interval. Among the decimal grids, from coarse to fine, the first one
with a point in that interval gives the fewest digits, and the interval's points next to the number
are the only ones that need a look.
-/

set_option autoImplicit false

namespace ViewTyping

/-- The number `digits * 10 ^ exponent`. -/
structure Decimal where
  digits : Nat
  exponent : Int
deriving DecidableEq, Repr

namespace Binary64

/-- The reals that round to a positive number: the number and the two ends of the interval, each
to be multiplied by `num / den`. -/
structure Interval where
  value : Nat
  low : Nat
  high : Nat
  /-- Whether the ends belong to the interval. -/
  closed : Bool
  num : Nat
  den : Nat

/-- The interval around a number. In units of a quarter of its last place the ends are two units
away, except below a power of two, where the numbers stand twice as close. -/
def interval (x : Binary64) : Interval where
  value := 4 * x.significand
  low := 4 * x.significand -
    if x.significand = leastNormal ∧ leastExponent < x.exponent then 1 else 2
  high := 4 * x.significand + 2
  closed := x.significand % 2 == 0
  num := power 2 (x.exponent - 2)
  den := power 2 (2 - x.exponent)

namespace Interval

/-- Whether `c * 10 ^ grid` lies in the interval. -/
def contains (i : Interval) (grid : Int) (c : Nat) : Bool :=
  let point := c * power 10 grid * i.den
  let unit := i.num * power 10 (-grid)
  if i.closed then i.low * unit ≤ point && point ≤ i.high * unit
  else i.low * unit < point && point < i.high * unit

/-- Whether `10 ^ grid` is at most the number. -/
def reaches (i : Interval) (grid : Int) : Bool :=
  power 10 grid * i.den ≤ i.value * i.num * power 10 (-grid)

/-- The point of a grid that lies in the interval and next to the number; of two such points the
nearer one, and the upper one if both are equally near. -/
def nearest? (i : Interval) (grid : Int) : Option Decimal :=
  let num := i.value * i.num * power 10 (-grid)
  let den := power 10 grid * i.den
  let below := num / den
  let above := below + 1
  if i.contains grid below ∧ (i.contains grid above = false ∨ 2 * (num % den) < den) then
    some ⟨below, grid⟩
  else if i.contains grid above then some ⟨above, grid⟩
  else none

end Interval

/-- The grids of doubles, from coarse to fine. -/
def grids : List Int := (List.range 650).map fun n : Nat => 309 - (n : Int)

/-- The shortest decimal that rounds to the number, and among those of its length the nearest, for a
positive number. -/
def shortest (x : Binary64) : Decimal :=
  ((grids.dropWhile fun g => !x.interval.reaches g).findSome? x.interval.nearest?).getD ⟨0, 0⟩

end Binary64

/-- The digits of a decimal without the zeros at their end, and the power of ten of the first. -/
def Decimal.scientific (d : Decimal) : List Char × Int :=
  let digits := Nat.toDigits 10 d.digits
  ((digits.reverse.dropWhile (· == '0')).reverse, d.exponent + digits.length - 1)

namespace Binary64

/-- Digits with a decimal point after the place of `10 ^ 0` and at least one digit behind it. -/
def positional (digits : List Char) (power : Int) : List Char :=
  if power < 0 then
    "0.".toList ++ List.replicate (-power - 1).toNat '0' ++ digits
  else
    let places := power.toNat + 1
    let whole := digits.take places
    let rest := digits.drop places
    whole ++ List.replicate (places - whole.length) '0' ++ '.' ::
      if rest.isEmpty then ['0'] else rest

/-- Digits with a decimal point after the first, if there are more, and an exponent. -/
def exponential (digits : List Char) (power : Int) : List Char :=
  digits.take 1 ++ (if digits.length > 1 then '.' :: digits.drop 1 else []) ++
    'e' :: (toString power).toList

/-- The text of a number: its shortest decimal, with a point from `10 ^ -4` to below `10 ^ 16`
and with an exponent outside that range. -/
def render (x : Binary64) : String :=
  let unsigned :=
    if x.significand = 0 then "0.0".toList
    else
      let (digits, power) := x.shortest.scientific
      if -4 ≤ power ∧ power < 16 then positional digits power else exponential digits power
  String.ofList (if x.negative then '-' :: unsigned else unsigned)

end Binary64

end ViewTyping
