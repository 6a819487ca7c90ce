import Mathlib.Tactic.Linarith
import Mathlib.Tactic.Ring
import StepSignal.Proofs.Exact
import StepSignal.Squash

/-!
# Stretches of time

A row with a duration is in effect on a stretch of time, half open at its end. Seen as stretches,
the rows of a table without gaps tile the extent of the table, and squashing clips each of them to
the window.

This file has the stretches by themselves: clipping, tilings, and what stretch covers a time.
-/

namespace StepSignal

/-- The times from `opening` up to and without `closing`, and what holds there. -/
structure Stretch (β : Type) where
  opening : Rat
  closing : Rat
  value : β

namespace Stretch

variable {β : Type}

/-- Whether a time lies in a stretch. -/
def covers (time : Rat) (s : Stretch β) : Bool := s.opening ≤ time && time < s.closing

/-- The part of a stretch inside `[start, stop)`, if there is one. -/
def clip (start stop : Rat) (s : Stretch β) : Option (Stretch β) :=
  if max s.opening start < min s.closing stop then
    some ⟨max s.opening start, min s.closing stop, s.value⟩
  else none

/-- Stretches that follow each other without a gap from `start` to `stop`, none of them empty. -/
def Tile : List (Stretch β) → Rat → Rat → Prop
  | [], start, stop => start = stop
  | s :: rest, start, stop => s.opening = start ∧ start < s.closing ∧ Tile rest s.closing stop

/-! ## Clipping -/

theorem clip_eq_none {start stop : Rat} {s : Stretch β}
    (h : min s.closing stop ≤ max s.opening start) : clip start stop s = none := by
  rw [clip, if_neg (not_lt.mpr h)]

theorem clip_eq_self {start stop : Rat} {s : Stretch β} (hs : s.opening < s.closing)
    (hstart : start ≤ s.opening) (hstop : s.closing ≤ stop) : clip start stop s = some s := by
  rw [clip, max_eq_left hstart, min_eq_left hstop, if_pos hs]

/-- Inside the window a clipped stretch covers the times that the whole one covers. -/
theorem any_covers_clip {start stop time : Rat} (hstart : start ≤ time) (hstop : time < stop)
    (s : Stretch β) : (clip start stop s).any (covers time) = s.covers time := by
  unfold clip
  split <;> rename_i h
  · simp [covers, hstart, hstop]
  · have hout : ¬ (s.opening ≤ time ∧ time < s.closing) := by
      rintro ⟨ho, hc⟩
      exact h ((max_le ho hstart).trans_lt (lt_min hc hstop))
    simpa [covers] using hout

/-- Clipping leaves what holds at a time of the window as it is. -/
theorem find?_covers_clip {start stop time : Rat} (hstart : start ≤ time) (hstop : time < stop)
    (ss : List (Stretch β)) :
    ((ss.filterMap (clip start stop)).find? (covers time)).map (·.value)
      = (ss.find? (covers time)).map (·.value) := by
  rw [List.find?_filterMap]
  simp only [any_covers_clip hstart hstop]
  cases h : ss.find? (covers time) with
  | none => rfl
  | some s =>
    -- the stretch covers a time of the window, so a part of it is left
    have hs := any_covers_clip hstart hstop s
    rw [List.find?_some h] at hs
    obtain ⟨piece, hpiece, -⟩ := (Option.any_eq_true _ _).mp hs
    have hvalue : piece.value = s.value := by
      unfold clip at hpiece
      split at hpiece
      · cases hpiece; rfl
      · cases hpiece
    simp [hpiece, hvalue]

/-- Clipping to a window and then to one inside it is clipping to the inner one. -/
theorem clip_clip {start stop outerStart outerStop : Rat} (hstart : outerStart ≤ start)
    (hstop : stop ≤ outerStop) (s : Stretch β) :
    (clip outerStart outerStop s).bind (clip start stop) = clip start stop s := by
  by_cases hlt : max s.opening outerStart < min s.closing outerStop
  · rw [clip, if_pos hlt, Option.bind_some, clip, clip, max_assoc, max_eq_right hstart, min_assoc,
      min_eq_right hstop]
  · have hinner : min s.closing stop ≤ max s.opening start :=
      calc min s.closing stop ≤ min s.closing outerStop := min_le_min_left _ hstop
        _ ≤ max s.opening outerStart := not_lt.mp hlt
        _ ≤ max s.opening start := max_le_max_left _ hstart
    rw [clip, if_neg hlt, Option.bind_none, clip_eq_none hinner]

/-- A clipped stretch is not empty, and it lies in the window. -/
theorem bounds_of_clip {start stop : Rat} {s piece : Stretch β}
    (h : clip start stop s = some piece) :
    start ≤ piece.opening ∧ piece.opening < piece.closing ∧ piece.closing ≤ stop := by
  unfold clip at h
  split at h <;> rename_i hlt
  · obtain rfl := Option.some.inj h
    exact ⟨le_max_right _ _, hlt, min_le_right _ _⟩
  · cases h

/-! ## Tilings -/

theorem Tile.le : ∀ {ss : List (Stretch β)} {start stop : Rat}, Tile ss start stop → start ≤ stop
  | [], _, _, h => le_of_eq h
  | _ :: _, _, _, ⟨_, hlt, hrest⟩ => hlt.le.trans hrest.le

/-- The lengths of a tiling add up to the length of what it tiles. -/
theorem Tile.sum_lengths : ∀ {ss : List (Stretch β)} {start stop : Rat}, Tile ss start stop →
    (ss.map fun s => s.closing - s.opening).sum = stop - start
  | [], start, _, rfl => by simp
  | s :: rest, _, _, ⟨ho, _, hrest⟩ => by
    rw [List.map_cons, List.sum_cons, hrest.sum_lengths, ho]
    ring

/-- Some stretch of a tiling covers every time of what it tiles. -/
theorem Tile.find?_isSome {time : Rat} : ∀ {ss : List (Stretch β)} {start stop : Rat},
    Tile ss start stop → start ≤ time → time < stop → (ss.find? (covers time)).isSome
  | [], _, _, h, hlo, hhi => absurd (hlo.trans_lt hhi) (by simp [show _ = _ from h])
  | s :: rest, _, _, ⟨ho, _, hrest⟩, hlo, hhi => by
    rw [List.find?_cons]
    -- the time is in the first stretch, or in what the others tile
    by_cases hc : time < s.closing
    · simp [covers, ho, hlo, hc]
    · simpa [covers, hc] using hrest.find?_isSome (not_lt.mp hc) hhi

/-- A tiling does not cover the times before it. -/
theorem Tile.countP_covers_eq_zero {time : Rat} : ∀ {ss : List (Stretch β)} {start stop : Rat},
    Tile ss start stop → time < start → ss.countP (covers time) = 0
  | [], _, _, _, _ => rfl
  | s :: rest, _, _, ⟨ho, hlt, hrest⟩, hbefore => by
    rw [List.countP_cons_of_neg (by simp [covers, ho, hbefore])]
    exact hrest.countP_covers_eq_zero (hbefore.trans hlt)

/-- Exactly one stretch of a tiling covers a time of what it tiles. -/
theorem Tile.countP_covers {time : Rat} : ∀ {ss : List (Stretch β)} {start stop : Rat},
    Tile ss start stop → start ≤ time → time < stop → ss.countP (covers time) = 1
  | [], _, _, h, hlo, hhi => absurd (hlo.trans_lt hhi) (by simp [show _ = _ from h])
  | s :: rest, _, _, ⟨ho, _, hrest⟩, hlo, hhi => by
    by_cases hc : time < s.closing
    · -- the others open after the time
      have hnone : rest.countP (covers time) = 0 := hrest.countP_covers_eq_zero hc
      rw [List.countP_cons_of_pos (by simp [covers, ho, hlo, hc]), hnone]
    · rw [List.countP_cons_of_neg (by simp [covers, hc])]
      exact hrest.countP_covers (not_lt.mp hc) hhi

/-- A window that ends before a tiling begins has none of it. -/
theorem Tile.clip_eq_nil {start stop : Rat} : ∀ {ss : List (Stretch β)} {first last : Rat},
    Tile ss first last → stop ≤ first → ss.filterMap (clip start stop) = []
  | [], _, _, _, _ => rfl
  | s :: rest, _, _, ⟨ho, hlt, hrest⟩, hstop => by
    have hs : clip start stop s = none :=
      clip_eq_none ((min_le_right _ _).trans (hstop.trans (ho ▸ le_max_left _ _)))
    rw [List.filterMap_cons, hs]
    exact hrest.clip_eq_nil (hstop.trans hlt.le)

/-- A tiling, clipped to a window that it reaches into, tiles its own part of the window. -/
theorem Tile.clip {start stop : Rat} : ∀ {ss : List (Stretch β)} {first last : Rat},
    Tile ss first last → max start first < stop → stop ≤ last →
      Tile (ss.filterMap (clip start stop)) (max start first) stop
  | [], _, _, h, hlt, hstop =>
    absurd (hlt.trans_le (hstop.trans h.symm.le)) (not_lt.mpr (le_max_right _ _))
  | s :: rest, first, last, ⟨ho, hc, hrest⟩, hlt, hstop => by
    have hmax : max s.opening start = max start first := by rw [ho, max_comm]
    rcases le_or_gt s.closing (max start first) with hle | hgt
    · -- the window opens after this stretch
      have hstart : max start first = max start s.closing := by
        rcases le_max_iff.mp hle with h | h
        · rw [max_eq_left h, max_eq_left (hc.le.trans h)]
        · exact absurd hc (not_lt.mpr h)
      have hs : Stretch.clip start stop s = none :=
        clip_eq_none ((min_le_left _ _).trans (hle.trans_eq hmax.symm))
      rw [List.filterMap_cons, hs]
      rw [hstart] at hlt ⊢
      exact hrest.clip hlt hstop
    · have hs : Stretch.clip start stop s
          = some ⟨max start first, min s.closing stop, s.value⟩ := by
        rw [Stretch.clip, hmax, if_pos (lt_min hgt hlt)]
      rw [List.filterMap_cons, hs]
      refine ⟨rfl, lt_min hgt hlt, ?_⟩
      rcases lt_or_ge s.closing stop with hin | hout
      · -- the next stretch opens inside the window
        have hstart : max start s.closing = s.closing :=
          max_eq_right ((le_max_left _ _).trans hgt.le)
        have hclip := hrest.clip (hstart.trans_lt hin) hstop
        rw [hstart] at hclip
        rwa [show min s.closing stop = s.closing from min_eq_left hin.le]
      · rw [hrest.clip_eq_nil hout]
        exact min_eq_right hout

end Stretch
end StepSignal
