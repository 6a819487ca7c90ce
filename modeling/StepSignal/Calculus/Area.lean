import StepSignal.Calculus.Derivative

/-!
# Areas and means

The area under a series is computed by one of four rules. With samples `y` over `x` they add up

    rectangles, held after     y i * (x (i+1) - x i)
    rectangles, held before    y i * (x i - x (i-1))
    trapezoids                 (x (i+1) - x i) * (y i + y (i+1)) / 2
    Simpson's rule             the area under the parabola through three neighbouring samples

Rectangles with a missing side are passed over. The other rules work on the samples that are there,
so that they bridge what is missing.

Simpson's rule needs an odd number of samples. For an even number one trapezoid closes the area at
either end, and the two results are averaged.
-/

namespace StepSignal

/-! ## Choices -/

/-- Which samples contribute to an area. -/
inductive SignRegion where
  /-- Samples below zero count as zero. -/
  | positive
  /-- Samples above zero count as zero. -/
  | negative
deriving DecidableEq, Repr

namespace SignRegion

/-- The name of a region, in requests and in stored data. -/
def name : SignRegion → String
  | positive => "+"
  | negative => "-"

/-- Both regions. -/
def all : List SignRegion := [positive, negative]

/-- The region of a name. -/
def ofName {α : Type} (text : String) : Outcome α SignRegion :=
  match all.find? (·.name == text) with
  | some region => .ok region
  | none => .error (.unknownName .signRegion text)

end SignRegion

/-- On which side of its time a sample holds. -/
inductive HoldSide where
  /-- A sample holds until the next one. -/
  | post
  /-- A sample holds since the one before. -/
  | pre
deriving DecidableEq, Repr

namespace HoldSide

/-- The name of a side, in requests and in stored data. -/
def name : HoldSide → String
  | post => "post"
  | pre => "pre"

/-- Both sides. -/
def all : List HoldSide := [post, pre]

/-- The side of a name. -/
def ofName {α : Type} (text : String) : Outcome α HoldSide :=
  match all.find? (·.name == text) with
  | some side => .ok side
  | none => .error (.unknownName .holdSide text)

end HoldSide

/-- How an area is computed. -/
inductive Quadrature where
  | rectangles (side : HoldSide)
  | trapezoids
  | simpson
deriving DecidableEq, Repr

namespace Quadrature

/-- The names of the rules in requests. -/
def names : List (String × Quadrature) :=
  [("rect", rectangles .post), ("rect-post", rectangles .post), ("rect-pre", rectangles .pre),
    ("trapz", trapezoids), ("simps", simpson), ("simpson", simpson)]

/-- The rule of a name. -/
def ofName {α : Type} (text : String) : Outcome α Quadrature :=
  match names.lookup text with
  | some rule => .ok rule
  | none => .error (.unknownName .quadrature text)

/-- The rule that is used unless another one is asked for. -/
def standard : Quadrature := rectangles .post

end Quadrature

/-! ## Rules -/

/-- One sample of a curve. -/
structure Point (α : Type) where
  x : α
  y : α
deriving DecidableEq, Repr

variable {α : Type} [Scalar α]

/-- Replaces the samples outside of a region by zero. -/
def SignRegion.clip (region : Option SignRegion) (v : α) : α :=
  match region with
  | some positive => if Scalar.lt v Scalar.zero then Scalar.zero else v
  | some negative => if Scalar.lt Scalar.zero v then Scalar.zero else v
  | none => v

/-- The areas of the rectangles, some of which may be missing. -/
def rectangleAreas (side : HoldSide) (xs ys : List α) : List α :=
  match side with
  | .post => ys.zipWith (· * ·) (gaps xs)
  | .pre => ys.zipWith (· * ·) (differences xs)

/-- The points that miss neither coordinate. -/
def presentPoints (xs ys : List α) : List (Point α) :=
  (xs.zipWith Point.mk ys).filter fun p => !Scalar.isMissing p.x && !Scalar.isMissing p.y

/-- The areas of the trapezoids between neighbouring points. -/
def trapezoidAreas : List (Point α) → List α
  | p :: q :: rest =>
    ((q.x - p.x) * (p.y + q.y) / Scalar.ofInt 2) :: trapezoidAreas (q :: rest)
  | _ => []

/-- The area under the parabola through three points. -/
def parabolaArea (p q r : Point α) : α :=
  let before := q.x - p.x
  let after := r.x - q.x
  let both := before + after
  let ratio := before / after
  both / Scalar.ofInt 6 *
    (p.y * (Scalar.ofInt 2 - Scalar.ofInt 1 / ratio) + q.y * both * both / (before * after) +
      r.y * (Scalar.ofInt 2 - ratio))

/-- The areas under the parabolas through the first three points, the third to the fifth, and so
on. -/
def parabolaAreas : List (Point α) → List α
  | p :: q :: r :: rest => parabolaArea p q r :: parabolaAreas (r :: rest)
  | _ => []

/-- The trapezoid between two points that closes an area. -/
def closingArea (p q : Point α) : α :=
  Scalar.ofInt 1 / Scalar.ofInt 2 * (q.x - p.x) * (q.y + p.y)

/-- The area under an even number of points, the first two of which are given apart: the average of
the two ways to leave one interval to a trapezoid. -/
def evenSimpsonArea (p q : Point α) (rest : List (Point α)) : α :=
  let points := p :: q :: rest
  let opening := closingArea p q
  match rest.getLast? with
  | none => opening
  | some z =>
    let y := points.dropLast.getLastD q
    let head := Scalar.sum (parabolaAreas points.dropLast)
    let tail := Scalar.sum (parabolaAreas (q :: rest))
    (head + closingArea y z + opening + tail) / Scalar.ofInt 2

/-- The area by Simpson's rule; fewer than two points have none. -/
def simpsonArea : List (Point α) → α
  | p :: q :: rest =>
    if rest.length % 2 = 1 then Scalar.sum (parabolaAreas (p :: q :: rest))
    else evenSimpsonArea p q rest
  | _ => Scalar.zero

/-- The area under the samples `ys` over `xs`. -/
def Quadrature.area (rule : Quadrature) (xs ys : List α) : α :=
  match rule with
  | rectangles side => Scalar.sum ((rectangleAreas side xs ys).filter (!Scalar.isMissing ·))
  | trapezoids => Scalar.sum (trapezoidAreas (presentPoints xs ys))
  | simpson => simpsonArea (presentPoints xs ys)

/-! ## Series -/

/-- The area under a series, over its times or over another series. -/
def Series.integral (y : Series α) (x : Option (Series α)) (region : Option SignRegion)
    (rule : Quadrature) : Outcome α α :=
  (y.abscissas x).map fun xs => rule.area xs (y.values.map (SignRegion.clip region))

/-- The distance from the least to the greatest of some values, passing over what is missing. -/
def extent (xs : List α) : α :=
  match xs.filter (!Scalar.isMissing ·) with
  | [] => Scalar.emptyExtent
  | x :: rest => rest.foldl Scalar.max x - rest.foldl Scalar.min x

/-- The mean of a series: its area divided by the extent that it is taken over. -/
def Series.mean (y : Series α) (x : Option (Series α)) (region : Option SignRegion)
    (rule : Quadrature) : Outcome α α := do
  let area ← y.integral x region rule
  let xs ← y.abscissas x
  return area / extent xs

end StepSignal
