import StepSignal.Scalar

/-!
# Cells

A cell of a table holds nothing, a truth value, a 64-bit integer, a number or a text. Cells have a
total order, in which kinds come first and values second, so that they can key groups; the
equality of that order tells an integer from a number of the same value. Filters use the looser
`Cell.agrees`, which compares integers and numbers by value.
-/

namespace StepSignal

/-- One scalar entry of a table. -/
inductive Cell (α : Type) where
  /-- A missing entry. -/
  | null
  | bool (value : Bool)
  | int (value : Int64)
  | num (value : α)
  | text (value : String)
deriving DecidableEq, Repr

namespace Cell

variable {α : Type}

def isNull : Cell α → Bool
  | null => true
  | _ => false

/-- The integer that a cell holds. -/
def int? : Cell α → Option Int64
  | int n => some n
  | _ => none

/-- The text that a cell holds. -/
def text? : Cell α → Option String
  | text s => some s
  | _ => none

/-- The position of a cell's kind in the order of kinds. -/
def rank : Cell α → Nat
  | null => 0
  | bool _ => 1
  | int _ => 2
  | num _ => 3
  | text _ => 4

variable [Scalar α]

/-- The number that a cell holds, with integers converted to the nearest scalar. -/
def number? : Cell α → Option α
  | int n => some (Scalar.ofInt n.toInt)
  | num x => some x
  | _ => none

/-- The total order of cells: kinds by rank, values of one kind by size; texts go by code points. -/
def order : Cell α → Cell α → Ordering
  | bool a, bool b => compare a b
  | int a, int b => compare a b
  | num a, num b => Scalar.order a b
  | text a, text b => compare a b
  | a, b => compare a.rank b.rank

/-- The equality of the total order: both zeros are one value, and so is what is missing. -/
def same (a b : Cell α) : Bool := (order a b).isEq

/-- The equality of filters. Two integers compare exactly, an integer and a number as numbers,
and a missing number matches nothing, not even itself. -/
def agrees : Cell α → Cell α → Bool
  | int a, int b => a == b
  | a, b =>
    match a.number?, b.number? with
    | some x, some y => Scalar.eq x y
    | _, _ => same a b

/-- The order of key lists: the first difference decides, and a proper beginning comes first. -/
def orderAll : List (Cell α) → List (Cell α) → Ordering
  | [], [] => .eq
  | [], _ :: _ => .lt
  | _ :: _, [] => .gt
  | a :: as, b :: bs => (order a b).then (orderAll as bs)

/-- Whether two key lists are equal, cell for cell. -/
def sameAll (as bs : List (Cell α)) : Bool := (orderAll as bs).isEq

end Cell

end StepSignal
