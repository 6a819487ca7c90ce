import StepSignal.Calculus.Rolling
import StepSignal.Proofs.Binary64.Accuracy
import StepSignal.Proofs.Series

/-!
# What rolling windows hold

The search for the start of a window is a selection: of the rows up to its last one, a window holds
those that are later than the rounded difference `t - w`. Rounding keeps the order, so no row is held
that is not within `w` of `t`. Rows are lost when the rounded difference reaches them, which for a
window shorter than the distance of the doubles at `t` includes the row at `t` itself.

A statistic of every window makes a series whenever the labels are an index. Those that are not
centred always are.
-/

namespace StepSignal

open Scalar

/-! ## Selections from ordered rows -/

section Lists

variable {β : Type} {p : β → Bool} {xs : List β}

/-- Leaving out the leading values that satisfy `p` is selecting the others, if none of those comes
first. -/
theorem drop_takeWhile_take (h : xs.Pairwise fun a b => p b = true → p a = true) (n : Nat) :
    (xs.take n).drop (xs.takeWhile p).length = (xs.take n).filter (!p ·) := by
  induction xs generalizing n with
  | nil => simp
  | cons a rest ih =>
    obtain ⟨ha, hrest⟩ := List.pairwise_cons.mp h
    rcases n with - | n
    · simp
    by_cases hpa : p a = true
    · simp [hpa, ih hrest]
    · have hall : ∀ b ∈ rest.take n, p b = false := fun b hb =>
        Bool.eq_false_iff.mpr fun hpb => hpa (ha b (List.mem_of_mem_take hb) hpb)
      simp [hpa, List.filter_eq_self.mpr fun b hb => congrArg Bool.not (hall b hb)]

/-- What is selected is the end of a list, if everything after a selected value is selected. -/
theorem filter_suffix (h : xs.Pairwise fun a b => p a = true → p b = true) : xs.filter p <:+ xs := by
  induction xs with
  | nil => exact List.suffix_rfl
  | cons a rest ih =>
    obtain ⟨ha, hrest⟩ := List.pairwise_cons.mp h
    by_cases hpa : p a = true
    · have hall : ∀ b ∈ a :: rest, p b = true := List.forall_mem_cons.mpr ⟨hpa, fun b hb => ha b hb hpa⟩
      rw [List.filter_eq_self.mpr hall]
    · rw [List.filter_cons_of_neg hpa]
      exact (ih hrest).trans (List.suffix_cons a rest)

end Lists

/-! ## Windows -/

namespace Series

section Window

variable {α : Type} [Scalar α] [LawfulScalar α] {s : Series α} {length t : α}

/-- A window holds the rows up to its last one that are later than the difference. -/
theorem Valid.samples_rollingWindow (hs : s.Valid) (hnumber : isMissing (t - length) = false)
    (row : Nat) :
    (s.rollingWindow length row t).samples
      = (s.samples.take (row + 1)).filter fun sample => lt (t - length) sample.time := by
  have hdown : s.times.Pairwise fun a b => le b (t - length) = true → le a (t - length) = true := by
    refine (Ordered.pairwise hs).imp_of_mem ?_
    intro a b ha _ hab hb
    rw [le_iff] at hb ⊢
    exact ⟨Ordered.isMissing_of_mem hs ha, hnumber, hab.le.trans hb.2.2⟩
  have hstart : partitionPoint (le · (t - length)) s.times
      = (s.samples.takeWhile fun sample => le sample.time (t - length)).length := by
    rw [partitionPoint_eq hdown, times, Stamped.times, List.takeWhile_map, List.length_map]
    rfl
  have hselect : (s.rollingWindow length row t).samples
      = (s.samples.take (row + 1)).filter fun sample => !le sample.time (t - length) := by
    rw [rollingWindow, hstart]
    exact drop_takeWhile_take (List.pairwise_map.mp hdown) (row + 1)
  rw [hselect]
  apply List.filter_congr
  intro sample hsample
  have htime : isMissing sample.time = false :=
    Ordered.isMissing_of_mem hs (List.mem_map_of_mem (List.mem_of_mem_take hsample))
  rw [le_eq htime hnumber, lt_eq hnumber htime, ← decide_not]
  exact decide_eq_decide.mpr not_le

end Window

section Exactly

variable {s : Series Float} {length t : Float}

/-- The rows up to a row that are less than a length before the time `t`, without any rounding. -/
def trailing (s : Series Float) (length : Float) (row : Nat) (t : Float) : Series Float :=
  { s with samples := (s.samples.take (row + 1)).filter fun sample =>
      decide (toRat t - toRat length < toRat sample.time) }

/-- No row is lost in rounding: what is later than the difference is later than the rounded one. -/
def Resolves (s : Series Float) (length t : Float) : Prop :=
  ∀ sample ∈ s.samples, toRat t - toRat length < toRat sample.time →
    toRat (t - length) < toRat sample.time

/-- A window holds what rounding leaves of the rows that it should hold. -/
theorem Valid.samples_rollingWindow_trailing (hs : s.Valid) (ht : t.isFinite = true)
    (hlength : length.isFinite = true) (row : Nat) :
    (s.rollingWindow length row t).samples
      = (s.trailing length row t).samples.filter fun sample => lt (t - length) sample.time := by
  have hnumber : isMissing (t - length) = false := Binary64.isNaN_sub ht hlength
  rw [hs.samples_rollingWindow hnumber, trailing, List.filter_filter]
  apply List.filter_congr
  intro sample hsample
  have hfinite : sample.time.isFinite = true :=
    hs.1 _ (List.mem_map_of_mem (List.mem_of_mem_take hsample))
  -- what is later than the rounded difference is later than the difference
  have hround := mt (Binary64.le_sub ht hlength hfinite)
  rw [lt_eq hnumber (Binary64.isNaN_of_isFinite hfinite), ← Bool.decide_and]
  exact decide_eq_decide.mpr ⟨fun h => ⟨h, not_le.mp (hround h.not_ge)⟩, And.left⟩

/-- A window holds the last ones of the rows that it should hold. -/
theorem Valid.rollingWindow_suffix (hs : s.Valid) (ht : t.isFinite = true)
    (hlength : length.isFinite = true) (row : Nat) :
    (s.rollingWindow length row t).samples <:+ (s.trailing length row t).samples := by
  rw [hs.samples_rollingWindow_trailing ht hlength]
  apply filter_suffix
  have hrows : s.samples.Pairwise fun a b => Before a.time b.time :=
    List.pairwise_map.mp (Ordered.pairwise hs)
  have hkept : (s.trailing length row t).samples.Sublist s.samples :=
    List.filter_sublist.trans (List.take_sublist _ _)
  refine (hrows.sublist hkept).imp_of_mem ?_
  intro a b _ hb hab ha
  rw [LawfulScalar.lt_iff] at ha ⊢
  exact ⟨ha.1, Ordered.isMissing_of_mem hs (List.mem_map_of_mem (hkept.mem hb)), ha.2.2.trans hab⟩

/-- A window that no row is lost from holds exactly the rows that it should hold. -/
theorem Valid.rollingWindow_eq (hs : s.Valid) (ht : t.isFinite = true)
    (hlength : length.isFinite = true) (hresolves : s.Resolves length t) (row : Nat) :
    s.rollingWindow length row t = s.trailing length row t := by
  have hsamples : (s.rollingWindow length row t).samples = (s.trailing length row t).samples := by
    rw [hs.samples_rollingWindow_trailing ht hlength, List.filter_eq_self]
    intro sample hsample
    obtain ⟨htaken, hlater⟩ := List.mem_filter.mp hsample
    have hmem : sample ∈ s.samples := List.mem_of_mem_take htaken
    rw [LawfulScalar.lt_iff]
    exact ⟨Binary64.isNaN_sub ht hlength, Ordered.isMissing_of_mem hs (List.mem_map_of_mem hmem),
      hresolves sample hmem (of_decide_eq_true hlater)⟩
  exact congrArg (Series.mk s.name) hsamples

/-- Without rounding, a row is in its own window, as the last one. -/
theorem getLast?_trailing (hpos : 0 < length) {row : Nat} {sample : Stamped Float Float}
    (hsample : s.samples[row]? = some sample) :
    (s.trailing length row sample.time).samples.getLast? = some sample := by
  have hlt : toRat sample.time - toRat length < toRat sample.time := by
    have hlength := Binary64.toRat_pos hpos
    linarith
  rw [trailing, List.take_add_one, hsample, List.filter_append, Option.toList_some,
    List.filter_singleton, decide_eq_true hlt]
  exact List.getLast?_concat

end Exactly

/-! ## Statistics of all windows -/

section Labels

variable {α : Type} [Scalar α]

/-- The times that windows are labelled with. -/
def rollingLabels (s : Series α) (length : α) (centred : Bool) : List α :=
  if centred then s.times.map (· - length / Scalar.ofInt 2) else s.times

/-- The values of a statistic, one for every window. -/
def rollingValues (s : Series α) (length : α) (f : Series α → α) : List α :=
  s.times.zipIdx.map fun (t, row) => f (s.rollingWindow length row t)

theorem length_rollingLabels (s : Series α) (length : α) (centred : Bool) :
    (s.rollingLabels length centred).length = s.length := by
  cases centred <;> simp [rollingLabels]

theorem length_rollingValues (s : Series α) (length : α) (f : Series α → α) :
    (s.rollingValues length f).length = s.length := by
  simp [rollingValues]

/-- There is a label for every value. -/
theorem length_rollingLabels_eq (s : Series α) (length : α) (centred : Bool) (f : Series α → α) :
    (s.rollingLabels length centred).length = (s.rollingValues length f).length := by
  rw [length_rollingLabels, length_rollingValues]

/-- The value at a row is the statistic of its window. -/
theorem getElem?_rollingValues {s : Series α} (length : α) (f : Series α → α) {row : Nat}
    {sample : Stamped α α} (hsample : s.samples[row]? = some sample) :
    (s.rollingValues length f)[row]? = some (f (s.rollingWindow length row sample.time)) := by
  simp [rollingValues, times, Stamped.times, hsample]

/-- The statistics of all windows are put together with their labels. -/
theorem rolling_eq (s : Series α) {length : α} (hfinite : isFinite length = true)
    (hpos : lt zero length = true) (f : Series α → α) (centred : Bool) :
    s.rolling (fun window => .ok (f window)) length centred
      = ofValues s.name (s.rollingLabels length centred) (s.rollingValues length f) := by
  have hvalues : (s.times.zipIdx.mapM fun (t, row) =>
      (.ok (f (s.rollingWindow length row t)) : Outcome α α)) = .ok (s.rollingValues length f) :=
    mapM_ok fun _ _ => rfl
  rw [rolling, hfinite, hpos, hvalues]
  rfl

end Labels

section Results

variable {s : Series Float} {length : Float}

/-- Labels that are an index make a series of the statistics. -/
theorem exists_rolling (hfinite : length.isFinite = true) (hpos : 0 < length)
    (f : Series Float → Float) {centred : Bool} (hlabels : Ordered (s.rollingLabels length centred)) :
    ∃ out, s.rolling (fun window => .ok (f window)) length centred = .ok out ∧
      out.name = s.name ∧ out.times = s.rollingLabels length centred ∧ out.length = s.length ∧
      ∀ (row : Nat) (sample : Stamped Float Float), s.samples[row]? = some sample →
        out.values[row]? = some (f (s.rollingWindow length row sample.time)) := by
  obtain ⟨out, hout, hname, htimes, hvalues⟩ :=
    exists_ofValues s.name (s.length_rollingLabels_eq length centred f) hlabels
  refine ⟨out, ?_, hname, htimes, ?_, ?_⟩
  · rw [s.rolling_eq hfinite (decide_eq_true hpos), hout]
  · rw [← length_times, htimes, length_rollingLabels]
  · intro row sample hsample
    rw [hvalues, getElem?_rollingValues length f hsample]

/-- What is wrong with the labels is what is wrong with the request. -/
theorem rolling_eq_error (hfinite : length.isFinite = true) (hpos : 0 < length)
    (f : Series Float → Float) {centred : Bool} {fault : Fault Float}
    (hfault : checkIndex (s.rollingLabels length centred) = .error fault) :
    s.rolling (fun window => .ok (f window)) length centred = .error fault := by
  rw [s.rolling_eq hfinite (decide_eq_true hpos),
    ofValues_eq (s.length_rollingLabels_eq length centred f), hfault]
  rfl

/-- **Rolling windows hold the rows before them.** Let a window length be finite and above zero. The
window at a row holds the last ones of the rows that are less than the length before it in exact
numbers, and all of them, the row itself as the last one, unless the difference of time and length is
rounded up to the time of one of them. Statistics that are not centred always make a series, with a
value for every row. Centred ones do when the rounded labels are an index, and otherwise are refused
for what is wrong with the labels. -/
theorem rolling_windows (hs : s.Valid) (hfinite : length.isFinite = true) (hpos : 0 < length) :
    (∀ (row : Nat) (sample : Stamped Float Float), s.samples[row]? = some sample →
      let window := s.rollingWindow length row sample.time
      window.name = s.name ∧
        window.samples <:+ (s.trailing length row sample.time).samples ∧
        (s.Resolves length sample.time → window = s.trailing length row sample.time ∧
          window.samples.getLast? = some sample)) ∧
    ∀ (f : Series Float → Float) (centred : Bool),
      let labels := s.rollingLabels length centred
      (centred = false ∨ Ordered labels →
        ∃ out, s.rolling (fun window => .ok (f window)) length centred = .ok out ∧
          out.name = s.name ∧ out.times = labels ∧ out.length = s.length ∧
          ∀ (row : Nat) (sample : Stamped Float Float), s.samples[row]? = some sample →
            out.values[row]? = some (f (s.rollingWindow length row sample.time))) ∧
      (¬ Ordered labels → ∃ fault, checkIndex labels = .error fault ∧
        s.rolling (fun window => .ok (f window)) length centred = .error fault ∧
          fault.kind = .invalidArgument) := by
  constructor
  · intro row sample hsample
    have htime : sample.time.isFinite = true :=
      hs.1 _ (List.mem_map_of_mem (List.mem_of_getElem? hsample))
    refine ⟨rfl, hs.rollingWindow_suffix htime hfinite row, fun hresolves => ?_⟩
    have hwindow := hs.rollingWindow_eq htime hfinite hresolves row
    rw [hwindow]
    exact ⟨rfl, getLast?_trailing hpos hsample⟩
  · intro f centred labels
    refine ⟨fun hlabels => ?_, fun hlabels => ?_⟩
    · apply exists_rolling hfinite hpos
      rcases hlabels with rfl | hlabels
      · exact hs
      · exact hlabels
    · rcases hcheck : checkIndex labels with fault | u
      · exact ⟨fault, rfl, rolling_eq_error hfinite hpos f hcheck, kind_of_checkIndex hcheck⟩
      · exact absurd (checkIndex_eq_ok.mp hcheck) hlabels

/-- Three rows and a window that reaches past the first of them. -/
theorem rolling_windows_of_three_rows :
    let s : Series Float := ⟨"s", [⟨0, 1⟩, ⟨1, 2⟩, ⟨2.5, 4⟩]⟩
    (s.Valid ∧ (2 : Float).isFinite = true ∧ (0 : Float) < 2 ∧ s.samples[2]? = some ⟨2.5, 4⟩ ∧
        s.Resolves 2 2.5 ∧ Ordered (s.rollingLabels 2 true)) ∧
      s.rollingWindow 2 2 2.5 = s.trailing 2 2 2.5 ∧
      (s.rollingWindow 2 2 2.5).samples.getLast? = some ⟨2.5, 4⟩ ∧
      ∀ f : Series Float → Float,
        ∃ out, s.rolling (fun window => .ok (f window)) 2 true = .ok out ∧
          out.name = s.name ∧ out.times = s.rollingLabels 2 true ∧ out.length = s.length ∧
          out.values[2]? = some (f (s.rollingWindow 2 2 2.5)) := by
  intro s
  have hs : s.Valid := checkIndex_eq_ok.mp (by decide +kernel)
  have hfinite : (2 : Float).isFinite = true := by decide +kernel
  have hpos : (0 : Float) < 2 := by decide +kernel
  have hrow : s.samples[2]? = some ⟨2.5, 4⟩ := rfl
  have hresolves : s.Resolves 2 2.5 := by
    unfold Resolves
    decide +kernel
  have hlabels : Ordered (s.rollingLabels 2 true) := checkIndex_eq_ok.mp (by decide +kernel)
  obtain ⟨hwindows, hseries⟩ := rolling_windows hs hfinite hpos
  obtain ⟨-, -, hexact⟩ := hwindows 2 _ hrow
  refine ⟨⟨hs, hfinite, hpos, hrow, hresolves, hlabels⟩, (hexact hresolves).1, (hexact hresolves).2,
    fun f => ?_⟩
  obtain ⟨out, hout, hname, htimes, hlength, hvalues⟩ := (hseries f true).1 (.inr hlabels)
  exact ⟨out, hout, hname, htimes, hlength, hvalues 2 ⟨2.5, 4⟩ hrow⟩

/-- Where doubles are two apart, labels in the middle of windows of length two fall together, and a
window of length one half does not hold its own row. -/
theorem rolling_windows_beyond_precision :
    let s : Series Float := ⟨"s", [⟨1e16, 1⟩, ⟨10000000000000002, 2⟩]⟩
    s.Valid ∧
      (∀ f : Series Float → Float, s.rolling (fun window => .ok (f window)) 2 true
        = .error (.timesNotIncreasing 1e16 1e16 1)) ∧
      (s.trailing 0.5 0 1e16).samples = [⟨1e16, 1⟩] ∧
      (s.rollingWindow 0.5 0 1e16).samples = [] := by
  intro s
  have hlabels : checkIndex (s.rollingLabels 2 true) = .error (.timesNotIncreasing 1e16 1e16 1) := by
    decide +kernel
  refine ⟨checkIndex_eq_ok.mp (by decide +kernel), fun f => ?_, by decide +kernel, by decide +kernel⟩
  exact rolling_eq_error (by decide +kernel) (by decide +kernel) f hlabels

end Results

end Series
end StepSignal
