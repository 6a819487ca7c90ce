import StepSignal.Decimal.Shortest

/-!
# Texts of numbers

How the shortest digits of a double are laid out: with or without an exponent, and what a whole
number ends with. Each format of the library has one `Layout`, beside the format.
-/

namespace StepSignal.Decimal

/-- The decisions of a format about the texts of its numbers. -/
structure Layout where
  /-- The decimal exponents, from the first to the last, that are written without an exponent;
  none means all of them. -/
  positional : Option (Int × Int)
  /-- What follows a whole number. -/
  wholeEnd : String
  /-- Which of two equally close decimals is written. -/
  tie : Tie

/-- Decimal digits without an exponent. -/
def positionalText (wholeEnd : String) (digits : String) (exponent : Int) : String :=
  let ds := digits.toList
  if 0 ≤ exponent then
    String.ofList (ds ++ List.replicate exponent.toNat '0') ++ wholeEnd
  else
    let places := (-exponent).toNat
    let padded := List.replicate (places + 1 - ds.length) '0' ++ ds
    let whole := padded.length - places
    String.ofList (padded.take whole ++ '.' :: padded.drop whole)

/-- Decimal digits with one digit before the point and a signed exponent. -/
def scientificText (digits : String) (exponent : Int) : String :=
  let ds := digits.toList
  let power := exponent + (ds.length - 1 : Int)
  let fraction := if ds.length ≤ 1 then [] else '.' :: ds.drop 1
  let sign := if power < 0 then "-" else "+"
  String.ofList (ds.take 1 ++ fraction) ++ "e" ++ sign ++ toString power.natAbs

/-- The text of a number above zero. -/
def Layout.digitsText (layout : Layout) (d : Digits) : String :=
  let digits := toString d.digits
  let power := d.exponent + (digits.length - 1 : Int)
  let plain := layout.positional.all fun (lo, hi) => lo ≤ power && power ≤ hi
  if plain then positionalText layout.wholeEnd digits d.exponent
  else scientificText digits d.exponent

/-- The text of a double. -/
def Layout.text (layout : Layout) (x : Float) : String :=
  if x.isNaN then "NaN"
  else
    let sign := if Binary64.isNegative x then "-" else ""
    if !x.isFinite then sign ++ "inf"
    else
      let (m, q) := Binary64.significand x
      if m = 0 then sign ++ "0" ++ layout.wholeEnd
      else sign ++ layout.digitsText (shortest layout.tie m q)

/-- The text of a number in messages and of a cell: never an exponent, and a whole number has no
point. -/
def plain : Layout := ⟨none, "", .up⟩

end StepSignal.Decimal
