import StepSignal.Decimal.Shortest

/-!
# The double nearest to a decimal

A positive number is brought to the form `m * 2 ^ q` in which `m` has 53 bits or, at the smallest
exponent, fewer. The quotient is rounded to a whole `m`, with a half going to the even side. The bits
of a double are then `(q + 1074) * 2 ^ 52 + m`: the hidden bit of `m` adds one to the exponent field,
and so does a carry out of the rounding.
-/

namespace StepSignal.Decimal

/-- The whole number nearest to `num / den`; a half goes to the even side. -/
def roundQuotient (num den : Nat) : Nat :=
  let quotient := num / den
  match compare (2 * (num % den)) den with
  | .lt => quotient
  | .gt => quotient + 1
  | .eq => if quotient % 2 = 0 then quotient else quotient + 1

/-- The quotient `num / den` in units of `2 ^ q`, as a fraction. -/
def inUnits (num den : Nat) (q : Int) : Nat × Nat := (num <<< (-q).toNat, den <<< q.toNat)

/-- The bits of infinity. -/
def infiniteBits : Nat := 0x7FF <<< 52

/-- The exponent at which `num / den` has a significand of 53 bits, or the smallest exponent. The
quotient is above `2 ^ (e - 1)` and below `2 ^ (e + 1)` for the difference `e` of the logarithms. -/
def unitExponent (num den : Nat) : Int :=
  let q := max ((num.log2 : Int) - den.log2 - 53) (-1074)
  let (a, b) := inUnits num den q
  if a / b < 1 <<< 53 then q else q + 1

/-- The bits of the double nearest to `num / den`. -/
def nearestBits (num den : Nat) : Nat :=
  if num = 0 then 0
  else
    let q := unitExponent num den
    let (a, b) := inUnits num den q
    min ((q + 1074).toNat <<< 52 + roundQuotient a b) infiniteBits

/-- The double nearest to a decimal, which is infinite for one that is too large. Exponents that
decide the result by themselves are not expanded. -/
def nearest (negative : Bool) (d : Digits) : Float :=
  let bits :=
    if d.digits = 0 then 0
    else if 400 < d.exponent then infiniteBits
    else if d.exponent + d.digits.log2 / 3 < -400 then 0
    else nearestBits (d.digits * Nat.pow 10 d.exponent.toNat) (Nat.pow 10 (-d.exponent).toNat)
  Float.ofBits (bits + if negative then 1 <<< 63 else 0).toUInt64

end StepSignal.Decimal
