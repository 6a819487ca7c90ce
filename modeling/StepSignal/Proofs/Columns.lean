import StepSignal.Proofs.Outcome
import StepSignal.Table

/-!
# Looking up columns

A column is found at the first place that has its name, so names that differ are each found at their
own place.
-/

namespace StepSignal
namespace Table

variable {α : Type} {t : Table α} {name : String} {names : List String} {i : Nat}

theorem position_eq_ok : t.position name = .ok i ↔ t.position? name = some i := by
  unfold position
  split <;> simp_all

/-- Columns that are there are all found. -/
theorem exists_positions (h : ∀ name ∈ names, name ∈ t.names) :
    ∃ positions, t.positions names = .ok positions := by
  have hfound : ∀ name ∈ names, t.position name = .ok ((t.position? name).getD 0) := by
    intro name hname
    obtain ⟨i, hi⟩ := Option.isSome_iff_exists.mp (List.isSome_idxOf?.mpr (h name hname))
    have hi : t.position? name = some i := hi
    rw [position_eq_ok, hi, Option.getD_some]
  exact ⟨_, mapM_ok hfound⟩

/-- All columns are found at their own places if their names differ. -/
theorem positions_names (h : t.names.Nodup) :
    t.positions t.names = .ok (List.range t.names.length) := by
  refine mapM_eq_ok.mpr (List.forall₂_iff_get.mpr ⟨by simp, fun i hi hi' => ?_⟩)
  rw [position_eq_ok, position?, List.idxOf?_eq_some_iff]
  simp only [List.get_eq_getElem, List.getElem_range]
  exact ⟨hi, trivial, fun j hj => List.pairwise_iff_getElem.mp h j i (Nat.lt_trans hj hi) hi hj⟩

end Table
end StepSignal
