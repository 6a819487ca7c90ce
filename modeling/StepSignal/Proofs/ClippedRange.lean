import StepSignal.Proofs.Refit

/-!
# Clipped windows stay on the data

A clipped window opens and closes at rows of the data, wherever its bounds lie. It selects no row
only if it opens after it closes, which only the rule that takes the rows inside can do, between two
neighbouring rows. A window beyond one end of the data selects the row at that end: clipping moves
both bounds there, and a time of the data is found at its own row.
-/

namespace StepSignal

open Scalar

variable {α : Type} [Scalar α] [LawfulScalar α] {index : List α} {w : Window α} {rule : EdgeRule}
  {first last s e : α} {p q : Nat}

namespace Clipped

/-- A window that stops no later than the first time opens and closes at the first row. -/
theorem eq_first (hc : Clipped index w rule first last s e p q) (h : Ordered index) (hw : w.Proper)
    {b : α} (hb : b ∈ w.stop) (hle : toRat b ≤ toRat first) : p = 0 ∧ q = 0 := by
  have hstart : toRat (w.start.getD first) ≤ toRat first := by
    rcases ha : w.start with - | a
    · exact le_rfl
    · exact (hw.le a ha b hb).trans hle
  have hstop : toRat (w.stop.getD last) ≤ toRat first := by
    rwa [Option.mem_def.mp hb]
  exact ⟨hc.opens_first h hw hstart, hc.closes_first h hw hstop⟩

/-- A window that starts no earlier than the last time opens and closes at the last row. -/
theorem eq_last (hc : Clipped index w rule first last s e p q) (h : Ordered index) (hw : w.Proper)
    {a : α} (ha : a ∈ w.start) (hle : toRat last ≤ toRat a) :
    p = index.length - 1 ∧ q = index.length - 1 := by
  have hstart : toRat last ≤ toRat (w.start.getD first) := by
    rwa [Option.mem_def.mp ha]
  have hstop : toRat last ≤ toRat (w.stop.getD last) := by
    rcases hb : w.stop with - | b
    · exact le_rfl
    · exact hle.trans (hw.le a ha b hb)
  exact ⟨hc.opens_last h hw hstart, hc.closes_last h hw hstop⟩

end Clipped

/-- **Clipped windows stay on the data.** Let the bounds of a window be numbers, infinite ones
allowed, and the start not after the stop. Clipped to times that are not none, the window selects a
range of them under every rule. The range is empty exactly when the rule is `exclusive` and both
bounds lie strictly between two neighbouring times. It is the first row when the window stops no
later than there, and the last row when the window starts no earlier than there. -/
theorem clippedRange_on_data (h : Ordered index) (hne : index ≠ [])
    (hstart : ∀ a ∈ w.start, isMissing a = false) (hstop : ∀ b ∈ w.stop, isMissing b = false)
    (hle : ∀ a ∈ w.start, ∀ b ∈ w.stop, le a b = true) (rule : EdgeRule) :
    ∃ first last p q, index.head? = some first ∧ index.getLast? = some last ∧
      windowRange index w rule true = .ok (p, q) ∧ p ≤ q ∧ q ≤ index.length ∧
      (p = q ↔ rule = .exclusive ∧ FallsBetween index w.start w.stop) ∧
      (∀ b ∈ w.stop, le b first = true → p = 0 ∧ q = 1) ∧
      (∀ a ∈ w.start, le last a = true → p = index.length - 1 ∧ q = index.length) := by
  have hw : w.Proper := ⟨hstart, hstop, fun a ha b hb => ((le_iff a b).mp (hle a ha b hb)).2.2⟩
  obtain ⟨first, last, s, e, p, q, hc⟩ := exists_clipped h hne hw rule
  have hlen := (hc.stands_stop h hw).lt_length
  have hfirst : ∀ b ∈ w.stop, le b first = true → p = 0 ∧ q = 0 := fun b hb hle =>
    hc.eq_first h hw hb ((le_iff b first).mp hle).2.2
  have hlast : ∀ a ∈ w.start, le last a = true → p = index.length - 1 ∧ q = index.length - 1 :=
    fun a ha hle => hc.eq_last h hw ha ((le_iff last a).mp hle).2.2
  rcases Nat.lt_or_ge q p with hqp | hpq
  · -- beyond the ends a window does not open after it closes
    refine ⟨first, last, 0, 0, hc.head, hc.getLast, ?_, le_rfl, Nat.zero_le _,
      iff_of_true rfl (fallsBetween_of_lt hc h hw hqp), fun b hb hle => ?_, fun a ha hle => ?_⟩
    · rw [hc.range, if_neg hqp.not_ge]
    · have := hfirst b hb hle
      omega
    · have := hlast a ha hle
      omega
  · refine ⟨first, last, p, q + 1, hc.head, hc.getLast, ?_, by omega, hlen,
      iff_of_false (by omega) ?_, fun b hb hle => ?_, fun a ha hle => ?_⟩
    · rw [hc.range, if_pos hpq]
    · rintro ⟨rfl, hfalls⟩
      exact (lt_of_fallsBetween hc h hw hfalls).not_ge hpq
    · have := hfirst b hb hle
      omega
    · have := hlast a ha hle
      omega

/-- A window without an end that starts at the last of four times, and the rule that takes the rows
inside. -/
theorem clippedRange_on_data_of_four_times :
    let index : List Float := [1, 2, 4, 8]
    let w : Window Float := ⟨some 8, some (1 / 0)⟩
    Ordered index ∧ index ≠ [] ∧ (∀ a ∈ w.start, isMissing a = false) ∧
      (∀ b ∈ w.stop, isMissing b = false) ∧ (∀ a ∈ w.start, ∀ b ∈ w.stop, le a b = true) ∧
      windowRange index w .exclusive true = .ok (3, 4) ∧
      ¬ FallsBetween index w.start w.stop := by
  intro index w
  have h : Ordered index := checkIndex_eq_ok.mp (by decide)
  have hne : index ≠ [] := List.cons_ne_nil _ _
  have hstart : ∀ a ∈ w.start, isMissing a = false := by decide
  have hstop : ∀ b ∈ w.stop, isMissing b = false := by decide
  have hle : ∀ a ∈ w.start, ∀ b ∈ w.stop, le a b = true := by decide
  obtain ⟨first, last, p, q, hfirst, hlast, hrange, -, -, hempty, -, hafter⟩ :=
    clippedRange_on_data h hne hstart hstop hle .exclusive
  obtain rfl : 8 = last := Option.some.inj hlast
  obtain ⟨rfl, rfl⟩ := hafter 8 rfl (by decide)
  have hsome : (3 : Nat) ≠ index.length := by decide
  exact ⟨h, hne, hstart, hstop, hle, hrange, fun hfalls => hsome (hempty.mpr ⟨rfl, hfalls⟩)⟩

end StepSignal
