import StepSignal.Scalar

/-!
# Stamped rows

Tables and series are lists of values stamped with a time. A value is in effect from its own time
until the time of the next one, so the times have to be finite and strictly increasing; `Ordered`
says so.
-/

namespace StepSignal

/-- A value and the time from which it is in effect. -/
structure Stamped (α β : Type) where
  time : α
  value : β
deriving DecidableEq, Repr

namespace Stamped

variable {α β : Type}

/-- The times of a list of rows, in order. -/
def times (rows : List (Stamped α β)) : List α := rows.map (·.time)

/-- The rows with their times replaced, as far as both lists go. -/
def retime (rows : List (Stamped α β)) (times : List α) : List (Stamped α β) :=
  rows.zipWith (fun row t => { row with time := t }) times

/-- The rows from position `start` up to and without position `stop`. -/
def extract (rows : List (Stamped α β)) (start stop : Nat) : List (Stamped α β) :=
  (rows.take stop).drop start

@[simp] theorem times_nil : times ([] : List (Stamped α β)) = [] := rfl

@[simp] theorem times_cons (row : Stamped α β) (rows : List (Stamped α β)) :
    times (row :: rows) = row.time :: times rows := rfl

@[simp] theorem length_times (rows : List (Stamped α β)) : (times rows).length = rows.length := by
  simp [times]

theorem times_extract (rows : List (Stamped α β)) (start stop : Nat) :
    times (extract rows start stop) = ((times rows).take stop).drop start := by
  simp [times, extract, List.map_drop, List.map_take]

/-- Rows that are combined with other values keep their times if every one does. -/
theorem times_zipWith {γ δ : Type} {f : Stamped α β → γ → Stamped α δ}
    (hf : ∀ row c, (f row c).time = row.time) {rows : List (Stamped α β)} {cs : List γ}
    (hlen : cs.length = rows.length) : times (rows.zipWith f cs) = times rows := by
  induction rows generalizing cs with
  | nil => rfl
  | cons row rows ih =>
    rcases cs with - | ⟨c, cs⟩
    · cases hlen
    · rw [List.zipWith_cons_cons, times_cons, times_cons, hf, ih (Nat.succ.inj hlen)]

end Stamped

/-- The times of `index` increase strictly. -/
def Increasing {α : Type} [Scalar α] : List α → Prop
  | a :: b :: rest => Scalar.lt a b = true ∧ Increasing (b :: rest)
  | _ => True

/-- The times of `index` are finite and increase strictly: the index of a table or a series. -/
def Ordered {α : Type} [Scalar α] (index : List α) : Prop :=
  (∀ t ∈ index, Scalar.isFinite t = true) ∧ Increasing index

end StepSignal
