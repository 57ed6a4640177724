/-!
# Double-precision numbers

A finite binary64 number is a sign, a significand below `2 ^ 53` and a power of two. `ofQuotient?`
rounds a quotient to the nearest of them, computing with whole numbers only; products and quotients
of numbers are rounded by it. `ofDecimal?` makes a number of a decimal by such products and
quotients, so its result may be off the nearest number by a place or two.
-/

set_option autoImplicit false

namespace ViewTyping

/-- The number `± significand * 2 ^ exponent`. A positive and a negative zero are told apart. -/
structure Binary64 where
  negative : Bool
  significand : Nat
  exponent : Int
deriving DecidableEq, Repr

namespace Binary64

/-- The power `base ^ n` if `n` is positive, and one otherwise. -/
def power (base : Nat) (n : Int) : Nat := Nat.pow base n.toNat

/-- The significands of all but the smallest numbers are from this one up to twice it. -/
def leastNormal : Nat := 0x10000000000000

/-- The exponent of the smallest numbers. -/
def leastExponent : Int := -1074

/-- The exponent of the largest numbers. -/
def greatestExponent : Int := 971

def zero (negative : Bool) : Binary64 := ⟨negative, 0, leastExponent⟩

/-- The whole number nearest to `num / den`; a half goes to the even neighbour. -/
def roundToEven (num den : Nat) : Nat :=
  let whole := num / den
  let rest := 2 * (num % den)
  if rest > den ∨ (rest = den ∧ whole % 2 = 1) then whole + 1 else whole

/-- The greatest `l` with `2 ^ l ≤ num / den`, for positive `num` and `den`. -/
def floorLog2 (num den : Nat) : Int :=
  let guess : Int := (num.log2 : Int) - den.log2
  if den * power 2 guess ≤ num * power 2 (-guess) then guess else guess - 1

/-- The number nearest to `± num / den`, or nothing if that is beyond the largest. -/
def ofQuotient? (negative : Bool) (num den : Nat) : Option Binary64 :=
  if num = 0 then some (zero negative) else
  let exponent := max (floorLog2 num den - 52) leastExponent
  let significand := roundToEven (num * power 2 (-exponent)) (den * power 2 exponent)
  let rounded : Binary64 :=
    if significand = 2 * leastNormal then ⟨negative, leastNormal, exponent + 1⟩
    else ⟨negative, significand, exponent⟩
  if rounded.exponent > greatestExponent then none else some rounded

/-- The product, rounded, unless it is beyond the largest number. -/
def mul? (x y : Binary64) : Option Binary64 :=
  ofQuotient? (x.negative != y.negative)
    (x.significand * y.significand * power 2 (x.exponent + y.exponent))
    (power 2 (-(x.exponent + y.exponent)))

/-- The quotient by a number other than zero, rounded, unless it is beyond the largest number. -/
def div? (x y : Binary64) : Option Binary64 :=
  ofQuotient? (x.negative != y.negative)
    (x.significand * power 2 (x.exponent - y.exponent))
    (y.significand * power 2 (y.exponent - x.exponent))

/-- The number nearest to `10 ^ n`, for `n` from 0 to 308. -/
def tenTo? (n : Int) : Option Binary64 := ofQuotient? false (power 10 n) 1

def mulTenTo? (x : Binary64) (n : Int) : Option Binary64 := (tenTo? n).bind x.mul?

def divTenTo? (x : Binary64) (n : Int) : Option Binary64 := (tenTo? n).bind x.div?

/-- The number that `± digits * 10 ^ exponent` stands for, for digits below `2 ^ 64`, or nothing if
it is beyond the largest. The digits and the power of ten are each rounded, and so is their product
or quotient. No power above `10 ^ 308` is a number: such a power times any digits is beyond the
largest, and a division by one is a division by `10 ^ 308` and then by what remains. Two divisions
by `10 ^ 308` leave zero of any digits. -/
def ofDecimal? (negative : Bool) (digits : Nat) (exponent : Int) : Option Binary64 :=
  if digits = 0 then some (zero negative)
  else if 308 < exponent then none
  else if exponent < -616 then some (zero negative)
  else do
    let x ← ofQuotient? negative digits 1
    if 0 ≤ exponent then x.mulTenTo? exponent
    else if -308 ≤ exponent then x.divTenTo? (-exponent)
    else (x.divTenTo? 308).bind (·.divTenTo? (-exponent - 308))

end Binary64

end ViewTyping
