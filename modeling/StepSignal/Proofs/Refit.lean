import StepSignal.Proofs.Binary64.Order
import StepSignal.Proofs.Window
import StepSignal.Window.Refit

/-!
# Refitting never collides

Refitting puts the bounds asked for on the outermost rows of a clipped window. Every row after the
first one that the window keeps is later than the start, and every row before the last one is
earlier than the stop, so the new index is ordered again.

Only a window that opens and closes strictly between two neighbouring rows, under the rule that
takes the rows inside, has no row to put the bounds on.
-/

namespace StepSignal

open Scalar

section Relabelling

variable {α β : Type}

/-! ## Relabelling -/

/-- The time of row `i` of `n` rows after relabelling, where `t` is its time before. -/
def labelAt (start stop : Option α) (n i : Nat) (t : α) : α :=
  if i = 0 then start.getD (if i + 1 = n then stop.getD t else t)
  else if i + 1 = n then stop.getD t else t

theorem getElem?_relabel [Scalar α] (index : List α) (start stop : Option α) (i : Nat) :
    (relabel index start stop)[i]? = index[i]?.map (labelAt start stop index.length i) := by
  have hstop : ∀ j t, index[j]? = some t → (j + 1 = index.length ↔ index.length - 1 = j) := by
    intro j t hj
    have := (List.getElem?_eq_some_iff.mp hj).1
    omega
  rcases h : index[i]? with - | t
  · cases start <;> cases stop <;> simp [relabel, List.getElem?_modify, h]
  · have hlast := hstop i t h
    cases start <;> cases stop <;>
      simp only [relabel, labelAt, List.getElem?_modify, h, Option.getD_none, Option.getD_some,
        hlast, Option.map_some, ite_self, eq_comm (a := 0)] <;>
      split <;> simp_all

@[simp] theorem length_relabel [Scalar α] (index : List α) (start stop : Option α) :
    (relabel index start stop).length = index.length := by
  cases start <;> cases stop <;> simp [relabel]

theorem Stamped.times_retime (rows : List (Stamped α β)) (times : List α)
    (h : times.length = rows.length) : Stamped.times (Stamped.retime rows times) = times := by
  induction rows generalizing times with
  | nil =>
    obtain rfl : times = [] := List.length_eq_zero_iff.mp h
    rfl
  | cons row rows ih =>
    rcases times with - | ⟨t, times⟩
    · simp at h
    · simpa [Stamped.times, Stamped.retime] using ih times (by simpa using h)

theorem Stamped.values_retime (rows : List (Stamped α β)) (times : List α)
    (h : times.length = rows.length) :
    (Stamped.retime rows times).map (·.value) = rows.map (·.value) := by
  induction rows generalizing times with
  | nil => rfl
  | cons row rows ih =>
    rcases times with - | ⟨t, times⟩
    · simp at h
    · simpa [Stamped.retime] using ih times (by simpa using h)

/-- Rows with the bounds put on the outermost ones, as far as they are set. -/
def putBounds (start stop : Option α) (rows : List (Stamped α β)) : List (Stamped α β) :=
  Stamped.retime rows (relabel (Stamped.times rows) start stop)

/-- Rows at their own times are the rows. -/
theorem Stamped.retime_times (rows : List (Stamped α β)) :
    Stamped.retime rows (Stamped.times rows) = rows := by
  induction rows with
  | nil => rfl
  | cons row rows ih => exact congrArg (row :: ·) ih

end Relabelling

variable {α β : Type} [Scalar α]

/-- Bounds that refitting accepts: finite ones, in order. -/
structure RefitBounds (start stop : Option α) : Prop where
  finite_start : ∀ a ∈ start, isFinite a = true
  finite_stop : ∀ b ∈ stop, isFinite b = true
  le : ∀ a ∈ start, ∀ b ∈ stop, Scalar.le a b = true

theorem RefitBounds.of_lt {a b : α} (ha : isFinite a = true) (hb : isFinite b = true)
    (hab : lt a b = true) : RefitBounds (some a) (some b) where
  finite_start _ h := Option.some.inj h ▸ ha
  finite_stop _ h := Option.some.inj h ▸ hb
  le x hx y hy := by
    obtain rfl := Option.some.inj hx
    obtain rfl := Option.some.inj hy
    rw [Scalar.le, hab, Bool.true_or]

/-- The rows that stay when both bounds are put on some rows: one row cannot carry two times, so
equal bounds leave the first row only. -/
def keptRows (start stop : Option α) (rows : List (Stamped α β)) : List (Stamped α β) :=
  match start, stop with
  | some a, some b => if Scalar.eq a b then rows.take 1 else rows
  | _, _ => rows

/-- A window that opens and closes strictly between two neighbouring times. -/
def FallsBetween (index : List α) (start stop : Option α) : Prop :=
  ∃ i s t, index[i]? = some s ∧ index[i + 1]? = some t ∧
    ∃ a ∈ start, ∃ b ∈ stop, Scalar.lt s a = true ∧ Scalar.lt b t = true

/-- Rows with the bounds put on the outermost ones. A single row carries the start if both are set.
-/
structure Relabelled (kept result : List (Stamped α β)) (start stop : Option α) : Prop where
  ordered : Ordered (Stamped.times result)
  values : result.map (·.value) = kept.map (·.value)
  first : ∀ a ∈ start, kept ≠ [] → (Stamped.times result).head? = some a
  last : ∀ b ∈ stop, kept ≠ [] → 2 ≤ kept.length ∨ start = none →
    (Stamped.times result).getLast? = some b
  others : ∀ i, (i = 0 → start = none) → (i + 1 = kept.length → stop = none) →
    (Stamped.times result)[i]? = (Stamped.times kept)[i]?

variable {start stop : Option α}

theorem keptRows_sublist (rows : List (Stamped α β)) : (keptRows start stop rows).Sublist rows := by
  unfold keptRows
  split
  · split
    · exact List.take_sublist _ _
    · exact .refl rows
  · exact .refl rows

theorem relabel_nil : relabel ([] : List α) start stop = [] :=
  List.length_eq_zero_iff.mp (length_relabel _ _ _)

theorem keptRows_nil : keptRows start stop ([] : List (Stamped α β)) = [] := by
  cases start <;> cases stop <;> simp [keptRows]

/-- Refitting keeps the rows of a window that can carry the bounds. -/
theorem refitRows_eq (rows : List (Stamped α β)) (rule : EdgeRule) :
    refitRows rows start stop rule
      = keptRows start stop <$> windowRows rows ⟨start, stop⟩ rule true := by
  rw [refitRows]
  rcases windowRows rows ⟨start, stop⟩ rule true with _ | windowed
  · rfl
  · cases start <;> cases stop <;> rfl

theorem refitRows_sublist {rows out : List (Stamped α β)} {rule : EdgeRule}
    (h : refitRows rows start stop rule = .ok out) : out.Sublist rows := by
  rw [refitRows_eq] at h
  rcases hw : windowRows rows ⟨start, stop⟩ rule true with _ | windowed
  · rw [hw] at h
    cases h
  · rw [hw] at h
    obtain rfl := Except.ok.inj h
    exact (keptRows_sublist windowed).trans (windowRows_sublist hw)

theorem Relabelled.eq_nil_iff {kept result : List (Stamped α β)}
    (h : Relabelled kept result start stop) : result = [] ↔ kept = [] := by
  have hlen := congrArg List.length h.values
  rw [List.length_map, List.length_map] at hlen
  rw [← List.length_eq_zero_iff, ← List.length_eq_zero_iff, hlen]

/-- Rows that are relabelled have the new times at both ends, if the index stays ordered. -/
theorem relabelled_retime {kept : List (Stamped α β)}
    (h : Ordered (relabel (Stamped.times kept) start stop)) :
    Relabelled kept (Stamped.retime kept (relabel (Stamped.times kept) start stop)) start stop := by
  have hlen : (relabel (Stamped.times kept) start stop).length = kept.length := by simp
  have htimes := Stamped.times_retime kept _ hlen
  have hrow : ∀ i, (relabel (Stamped.times kept) start stop)[i]?
      = (Stamped.times kept)[i]?.map (labelAt start stop kept.length i) := fun i => by
    rw [getElem?_relabel, Stamped.length_times]
  -- every row has a time, and relabelling changes it row by row
  have hsome : kept ≠ [] → ∀ i < kept.length, ∃ t, (Stamped.times kept)[i]? = some t :=
    fun _ i hi => ⟨_, List.getElem?_eq_getElem (by simpa using hi)⟩
  constructor
  · rwa [htimes]
  · exact Stamped.values_retime kept _ hlen
  · intro a ha hne
    obtain ⟨t, ht⟩ := hsome hne 0 (List.length_pos_iff.mpr hne)
    rw [htimes, List.head?_eq_getElem?, hrow, ht]
    simp [labelAt, Option.mem_def.mp ha]
  · intro b hb hne htwo
    have hpos := List.length_pos_iff.mpr hne
    obtain ⟨t, ht⟩ := hsome hne (kept.length - 1) (by omega)
    rw [htimes, List.getLast?_eq_getElem?, hlen, hrow, ht]
    have hend : kept.length - 1 + 1 = kept.length := by omega
    -- the last row is not the first one, or the first one does not get another time
    rcases htwo with htwo | hnone
    · simp [labelAt, hend, show kept.length - 1 ≠ 0 by omega, Option.mem_def.mp hb]
    · simp [labelAt, hend, hnone, Option.mem_def.mp hb]
  · intro i hfirst hlast
    rw [htimes, hrow]
    -- no bound is put on this row
    have hsame : labelAt start stop kept.length i = id := funext fun t => by
      unfold labelAt
      by_cases h0 : i = 0 <;> by_cases hn : i + 1 = kept.length <;> simp_all
    rw [hsame, Option.map_id]
    rfl

variable [LawfulScalar α]

namespace RefitBounds

theorem proper (h : RefitBounds start stop) : (⟨start, stop⟩ : Window α).Proper where
  start a ha := LawfulScalar.isMissing_of_isFinite a (h.finite_start a ha)
  stop b hb := LawfulScalar.isMissing_of_isFinite b (h.finite_stop b hb)
  le a ha b hb := ((le_iff a b).mp (h.le a ha b hb)).2.2

theorem checkRefit (h : RefitBounds start stop) : StepSignal.checkRefit start stop = .ok () := by
  have hstart : start.all Scalar.isFinite = true := by
    simpa [Option.all_eq_true] using h.finite_start
  have hstop : stop.all Scalar.isFinite = true := by
    simpa [Option.all_eq_true] using h.finite_stop
  have hle : ∀ a ∈ start, ∀ b ∈ stop, Scalar.lt b a = false := fun a ha b hb => by
    have hab := h.proper.le a ha b hb
    simpa [lt_eq (h.proper.stop b hb) (h.proper.start a ha)] using hab
  unfold StepSignal.checkRefit
  rw [hstart, hstop]
  cases start <;> cases stop <;> simp_all <;> rfl

end RefitBounds

/-- Relabelling keeps an index ordered when the bounds come before the second time and after the one
before the last. -/
theorem ordered_relabel {index : List α} (h : Ordered index) (hb : RefitBounds start stop)
    (hstart : ∀ a ∈ start, ∀ i t, index[i]? = some t → 0 < i → toRat a < toRat t)
    (hstop : ∀ b ∈ stop, ∀ i t, index[i]? = some t → i + 1 < index.length → toRat t < toRat b)
    (hboth : ∀ a ∈ start, ∀ b ∈ stop, 1 < index.length → toRat a < toRat b) :
    Ordered (relabel index start stop) := by
  rw [ordered_iff]
  constructor
  · intro t ht
    obtain ⟨i, hi⟩ := List.mem_iff_getElem?.mp ht
    rw [getElem?_relabel, Option.map_eq_some_iff] at hi
    obtain ⟨s, hs, rfl⟩ := hi
    have hs := h.1 s (List.mem_of_getElem? hs)
    have hclosed : isFinite (stop.getD s) = true := by
      cases hstop : stop with
      | none => exact hs
      | some b => exact hb.finite_stop b hstop
    unfold labelAt
    split
    · cases hstart : start with
      | none => rw [Option.getD_none]; split <;> assumption
      | some a => exact hb.finite_start a hstart
    · split <;> assumption
  · rw [List.pairwise_iff_getElem]
    intro i j hi hj hij
    have hi := List.getElem?_eq_getElem hi
    have hj := List.getElem?_eq_getElem hj
    rw [getElem?_relabel, Option.map_eq_some_iff] at hi hj
    obtain ⟨s, hs, hi⟩ := hi
    obtain ⟨t, ht, hj⟩ := hj
    have hlen := (List.getElem?_eq_some_iff.mp ht).1
    rw [← hi, ← hj, labelAt, labelAt, if_neg (show i + 1 ≠ index.length by omega),
      if_neg (show j ≠ 0 by omega)]
    have hst : Before s t := h.before hs ht hij
    -- the first row may have the start, and the last row the stop
    rcases start with - | a <;> rcases stop with - | b <;>
      simp only [Option.getD_none, Option.getD_some, ite_self]
    · exact hst
    · split
      · exact hstop b rfl i s hs (by omega)
      · exact hst
    · split
      · exact hstart a rfl j t ht (by omega)
      · exact hst
    · split <;> split
      · exact hboth a rfl b rfl (by omega)
      · exact hstart a rfl j t ht (by omega)
      · exact hstop b rfl i s hs (by omega)
      · exact hst

/-! ## Refitting rows -/

/-- A bound of a clipped window that misses the index is the one asked for. -/
theorem eq_some_of_misses {index : List α} {bound : Option α} {first last d s : α} {n : Nat}
    (hm : Misses index s n) (hfirst : first ∈ index) (hlast : last ∈ index) (hd : d ∈ index)
    (hs : s ∈ [first, last, bound.getD d]) : bound = some s := by
  -- a bound that was moved would be the first or the last time, which are in the index
  have hne : ∀ t ∈ index, s ≠ t := fun t ht heq => hm.ne ht (congrArg toRat heq)
  rcases bound with - | a
  · simp [hne first hfirst, hne last hlast, hne d hd] at hs
  · simp [hne first hfirst, hne last hlast] at hs
    rw [hs]

variable {index : List α} {rule : EdgeRule} {first last s e : α} {p q : Nat}

/-- A window that opens after it closes takes the rows inside and falls between two rows. -/
theorem fallsBetween_of_lt (hc : Clipped index ⟨start, stop⟩ rule first last s e p q)
    (h : Ordered index) (hw : (⟨start, stop⟩ : Window α).Proper) (hqp : q < p) :
    rule = .exclusive ∧ FallsBetween index start stop := by
  have hsn := hc.isMissing_start h hw
  have hen := hc.isMissing_stop h hw
  have hp := hc.stands_start h hw
  have hq := hc.stands_stop h hw
  have hse := hc.start_le_stop h hw
  -- the two rows are neighbours, and both bounds lie strictly between them
  obtain ⟨hnext, hms, hme⟩ := hp.misses hq hse hqp
  have hbefore := List.getElem?_eq_getElem hq.lt_length
  have hafter := List.getElem?_eq_getElem hp.lt_length
  have hopens := hc.opens
  have hcloses := hc.closes
  -- the other rules never open after they close: they seek alike for both bounds or take the rows
  -- outside
  cases rule with
  | exclusive =>
    refine ⟨rfl, q, _, _, hbefore, (congrArg (index[·]?) hnext).symm.trans hafter,
      s, ?_, e, ?_, ?_, ?_⟩
    · exact eq_some_of_misses hms hc.first_mem hc.last_mem hc.first_mem hc.start_mem
    · exact eq_some_of_misses hme hc.first_mem hc.last_mem hc.last_mem hc.stop_mem
    · exact (LawfulScalar.lt_iff _ _).mpr
        ⟨h.isMissing_of_mem (List.getElem_mem _), hsn, hms.before q _ hbefore hqp⟩
    · exact (LawfulScalar.lt_iff _ _).mpr
        ⟨hen, h.isMissing_of_mem (List.getElem_mem _), hme.after p _ hafter le_rfl⟩
  | inclusive =>
    exact absurd (h.le_locate_backfill hen hcloses hbefore) (hme.before q _ hbefore hqp).not_ge
  | nearest => exact absurd (h.locate_mono hsn hen hse hopens hcloses) hqp.not_ge
  | pre => exact absurd (h.locate_mono hsn hen hse hopens hcloses) hqp.not_ge
  | post => exact absurd (h.locate_mono hsn hen hse hopens hcloses) hqp.not_ge

/-- A window that falls between two rows has none of the rows inside. -/
theorem lt_of_fallsBetween (hc : Clipped index ⟨start, stop⟩ .exclusive first last s e p q)
    (h : Ordered index) (hw : (⟨start, stop⟩ : Window α).Proper)
    (hfalls : FallsBetween index start stop) : q < p := by
  obtain ⟨i, x, y, hx, hy, a, ha, b, hb, hxa, hby⟩ := hfalls
  have hab := hw.le a ha b hb
  have hxa := ((LawfulScalar.lt_iff _ _).mp hxa).2.2
  have hby := ((LawfulScalar.lt_iff _ _).mp hby).2.2
  have hlo := h.first_le hc.head hx
  have hhi := h.le_last hc.getLast hy
  obtain rfl := Option.mem_def.mp ha
  obtain rfl := Option.mem_def.mp hb
  have hs := hc.start_eq
  have he := hc.stop_eq
  rw [Option.getD_some, clamp_of_mem (by linarith) (by linarith)] at hs he
  have hprow := List.getElem?_eq_getElem (hc.stands_start h hw).lt_length
  have hqrow := List.getElem?_eq_getElem (hc.stands_stop h hw).lt_length
  have hsp := h.le_locate_backfill (hc.isMissing_start h hw) hc.opens hprow
  have hqe := h.locate_pad_le (hc.isMissing_stop h hw) hc.closes hqrow
  -- the window opens after the earlier neighbour and closes before the later one
  have hip : i < p := by
    by_contra hle
    have := h.le_of_le hprow hx (not_lt.mp hle)
    linarith
  have hqi : q < i + 1 := by
    by_contra hle
    have := h.le_of_le hy hqrow (not_lt.mp hle)
    linarith
  omega

/-- Equal bounds leave one row, and others leave all rows. -/
theorem keptRows_cases (hb : RefitBounds start stop) (rows : List (Stamped α β)) :
    keptRows start stop rows = rows.take 1 ∨
      keptRows start stop rows = rows ∧
        ∀ a ∈ start, ∀ b ∈ stop, toRat a ≠ toRat b := by
  rcases start with - | a
  · exact .inr ⟨rfl, fun _ ha => nomatch ha⟩
  rcases stop with - | b
  · exact .inr ⟨rfl, fun _ _ _ hb => nomatch hb⟩
  unfold keptRows
  dsimp only
  rw [eq_eq (hb.proper.start a rfl) (hb.proper.stop b rfl)]
  by_cases heq : toRat a = toRat b
  · exact .inl (by simp [heq])
  · refine .inr ⟨by simp [heq], ?_⟩
    rintro _ ⟨⟩ _ ⟨⟩
    exact heq

/-- A single time stays ordered whatever bound is put on it. -/
theorem ordered_relabel_of_length_le_one (h : Ordered index) (hb : RefitBounds start stop)
    (hlen : index.length ≤ 1) : Ordered (relabel index start stop) := by
  refine ordered_relabel h hb ?_ ?_ ?_
  · intro a _ i t hi hpos
    have := (List.getElem?_eq_some_iff.mp hi).1
    omega
  · intro b _ i t _ hlt
    omega
  · intro a _ b _ hlt
    omega

/-- Relabelling keeps the rows of a window ordered. -/
theorem ordered_relabel_extract {rows : List (Stamped α β)}
    (hc : Clipped (Stamped.times rows) ⟨start, stop⟩ rule first last s e p q)
    (h : Ordered (Stamped.times rows)) (hb : RefitBounds start stop) :
    Ordered (relabel (Stamped.times (keptRows start stop (Stamped.extract rows p (q + 1))))
      start stop) := by
  have hextract := h.extract p (q + 1)
  rcases keptRows_cases hb (Stamped.extract rows p (q + 1)) with hone | ⟨hall, hdiffer⟩
  · rw [hone, Stamped.times, List.map_take]
    exact ordered_relabel_of_length_le_one (hextract.sublist (List.take_sublist _ _)) hb (by simp)
  · rw [hall]
    have hq := (hc.stands_stop h hb.proper).lt_length
    rw [Stamped.length_times] at hq
    refine ordered_relabel hextract hb ?_ ?_ ?_
    · intro a ha i t hi hpos
      obtain ⟨hi, hle⟩ := Stamped.getElem?_times_extract hi
      exact hc.start_lt h hb.proper ha hi (by omega)
    · intro b hb' i t hi hlt
      obtain ⟨hi, hle⟩ := Stamped.getElem?_times_extract hi
      rw [Stamped.length_times, Stamped.length_extract hq] at hlt
      exact hc.lt_stop h hb.proper hb' hi (by omega)
    · intro a ha b hb' _
      exact lt_of_le_of_ne (hb.proper.le a ha b hb') (hdiffer a ha b hb')

/-- Refitting selects the rows of the clipped window, which can be relabelled; it selects none
exactly when the rows inside are asked for and the window falls between two rows. -/
theorem refitRows_relabel {rows : List (Stamped α β)} (h : Ordered (Stamped.times rows))
    (hne : rows ≠ []) (hb : RefitBounds start stop) (rule : EdgeRule) :
    ∃ windowed, windowRows rows ⟨start, stop⟩ rule true = .ok windowed ∧
      refitRows rows start stop rule = .ok (keptRows start stop windowed) ∧
      Ordered (relabel (Stamped.times (keptRows start stop windowed)) start stop) ∧
      (keptRows start stop windowed = [] ↔
        rule = .exclusive ∧ FallsBetween (Stamped.times rows) start stop) := by
  have hne' : Stamped.times rows ≠ [] := by simpa [Stamped.times] using hne
  obtain ⟨first, last, s, e, p, q, hc⟩ := exists_clipped h hne' hb.proper rule
  refine ⟨_, hc.windowRows_eq, ?_, ?_⟩
  · rw [refitRows_eq, hc.windowRows_eq, ok_map]
  rcases Nat.lt_or_ge q p with hqp | hpq
  · rw [if_neg hqp.not_ge, keptRows_nil, Stamped.times_nil, relabel_nil]
    exact ⟨⟨by simp, trivial⟩, iff_of_true rfl (fallsBetween_of_lt hc h hb.proper hqp)⟩
  · rw [if_pos hpq]
    refine ⟨ordered_relabel_extract hc h hb, iff_of_false ?_ ?_⟩
    · have hq := (hc.stands_stop h hb.proper).lt_length
      rw [Stamped.length_times] at hq
      have hlen := Stamped.length_extract (p := p) hq
      rcases keptRows_cases hb (Stamped.extract rows p (q + 1)) with heq | ⟨heq, -⟩
      · rw [heq, ← List.length_eq_zero_iff, List.length_take]
        omega
      · rw [heq, ← List.length_eq_zero_iff]
        omega
    · rintro ⟨rfl, hfalls⟩
      exact (lt_of_fallsBetween hc h hb.proper hfalls).not_ge hpq

/-! ## Tables and series -/

/-- A table is refitted to the rows that it keeps, with the bounds put on them. -/
theorem Table.refit_eq {t : Table α} {kept : List (Stamped α (List (Cell α)))}
    (hb : RefitBounds start stop) (hkept : refitRows t.rows start stop rule = .ok kept)
    (h : Ordered (relabel (Stamped.times kept) start stop)) :
    t.refit start stop rule = .ok ⟨t.names, putBounds start stop kept⟩ := by
  rw [Table.refit, hb.checkRefit, ok_bind, hkept, ok_bind, Table.withTimes]
  simp [Table.length, checkIndex_eq_ok.mpr h, putBounds]

/-- A series is refitted to the samples that it keeps, with the bounds put on them. -/
theorem Series.refit_eq {s : Series α} {kept : List (Stamped α α)}
    (hb : RefitBounds start stop) (hkept : refitRows s.samples start stop rule = .ok kept)
    (h : Ordered (relabel (Stamped.times kept) start stop)) :
    s.refit start stop rule = .ok ⟨s.name, putBounds start stop kept⟩ := by
  rw [Series.refit, hb.checkRefit, ok_bind, hkept, ok_bind, Series.withTimes]
  simp [Series.length, checkIndex_eq_ok.mpr h, putBounds]

/-- **Refitting never collides.** For finite bounds in order, a table or a series that has rows can
be refitted under every rule: the result has the rows of the clipped window, only the first of them
when the bounds are equal, with the bounds on the outermost ones. It is empty only where the rows
inside are asked for and the window falls between two rows. -/
theorem refit_relabels_window :
    (∀ (t : Table Float) (start stop : Option Float) (rule : EdgeRule), t.Valid → t.rows ≠ [] →
      RefitBounds start stop →
      ∃ windowed out, t.window ⟨start, stop⟩ rule true = .ok windowed ∧
        t.refit start stop rule = .ok out ∧ out.names = t.names ∧
        Relabelled (keptRows start stop windowed.rows) out.rows start stop ∧
        (out.rows = [] ↔ rule = .exclusive ∧ FallsBetween t.times start stop)) ∧
    (∀ (s : Series Float) (start stop : Option Float) (rule : EdgeRule), s.Valid → s.samples ≠ [] →
      RefitBounds start stop →
      ∃ windowed out, s.window ⟨start, stop⟩ rule true = .ok windowed ∧
        s.refit start stop rule = .ok out ∧ out.name = s.name ∧
        Relabelled (keptRows start stop windowed.samples) out.samples start stop ∧
        (out.samples = [] ↔ rule = .exclusive ∧ FallsBetween s.times start stop)) := by
  constructor
  · intro t start stop rule hvalid hne hb
    obtain ⟨windowed, hwindow, hrefit, hordered, hempty⟩ :=
      refitRows_relabel hvalid.ordered hne hb rule
    have hlabels := relabelled_retime hordered
    refine ⟨⟨t.names, windowed⟩, ⟨t.names, Stamped.retime (keptRows start stop windowed) _⟩,
      ?_, ?_, rfl, hlabels, hlabels.eq_nil_iff.trans hempty⟩
    · rw [Table.window, hwindow]
      rfl
    · rw [Table.refit, hb.checkRefit, ok_bind, hrefit, ok_bind, Table.withTimes]
      simp [Table.length, checkIndex_eq_ok.mpr hordered]
  · intro s start stop rule hvalid hne hb
    obtain ⟨windowed, hwindow, hrefit, hordered, hempty⟩ :=
      refitRows_relabel hvalid hne hb rule
    have hlabels := relabelled_retime hordered
    refine ⟨⟨s.name, windowed⟩, ⟨s.name, Stamped.retime (keptRows start stop windowed) _⟩,
      ?_, ?_, rfl, hlabels, hlabels.eq_nil_iff.trans hempty⟩
    · rw [Series.window, hwindow]
      rfl
    · rw [Series.refit, hb.checkRefit, ok_bind, hrefit, ok_bind, Series.withTimes]
      simp [Series.length, checkIndex_eq_ok.mpr hordered]

/-- Two rows at 0 and 10, refitted to the times from 4 to 12. -/
theorem refit_relabels_window_of_two_rows :
    let t : Table Float := ⟨["v"], [⟨0, [.int 1]⟩, ⟨10, [.int 2]⟩]⟩
    let s : Series Float := ⟨"v", [⟨0, 1⟩, ⟨10, 2⟩]⟩
    t.Valid ∧ s.Valid ∧ RefitBounds (some (4 : Float)) (some 12) ∧
      (∃ windowed out, t.window ⟨some 4, some 12⟩ .inclusive true = .ok windowed ∧
        t.refit (some 4) (some 12) .inclusive = .ok out ∧ out.names = t.names ∧
        Relabelled (keptRows (some 4) (some 12) windowed.rows) out.rows (some 4) (some 12) ∧
        (out.rows = [] ↔ EdgeRule.inclusive = .exclusive ∧
          FallsBetween t.times (some 4) (some 12))) ∧
      (∃ windowed out, s.window ⟨some 4, some 12⟩ .inclusive true = .ok windowed ∧
        s.refit (some 4) (some 12) .inclusive = .ok out ∧ out.name = s.name ∧
        Relabelled (keptRows (some 4) (some 12) windowed.samples) out.samples (some 4) (some 12) ∧
        (out.samples = [] ↔ EdgeRule.inclusive = .exclusive ∧
          FallsBetween s.times (some 4) (some 12))) := by
  intro t s
  have hordered : Ordered [(0 : Float), 10] := checkIndex_eq_ok.mp rfl
  have ht : t.Valid := ⟨hordered, by decide, by decide⟩
  have hb : RefitBounds (some (4 : Float)) (some 12) := by
    refine ⟨?_, ?_, ?_⟩
    · rintro _ ⟨⟩
      decide
    · rintro _ ⟨⟩
      decide
    · rintro _ ⟨⟩ _ ⟨⟩
      decide
  exact ⟨ht, hordered, hb, refit_relabels_window.1 t _ _ _ ht (List.cons_ne_nil _ _) hb,
    refit_relabels_window.2 s _ _ _ hordered (List.cons_ne_nil _ _) hb⟩

/-- The rows strictly between 4 and 6 are none, so refitting two rows at 0 and 10 to these bounds
leaves no row that could be at 4. -/
theorem refit_exclusive_between_rows :
    let t : Table Float := ⟨["v"], [⟨0, [.int 1]⟩, ⟨10, [.int 2]⟩]⟩
    t.Valid ∧ RefitBounds (some (4 : Float)) (some 6) ∧
      ¬ ∃ out, t.refit (some 4) (some 6) .exclusive = .ok out ∧ out.times.head? = some 4 := by
  intro t
  have hordered : Ordered [(0 : Float), 10] := checkIndex_eq_ok.mp rfl
  have hout : t.refit (some 4) (some 6) .exclusive = .ok ⟨["v"], []⟩ := by decide +kernel
  refine ⟨⟨hordered, by decide, by decide⟩, ?_, ?_⟩
  · refine ⟨?_, ?_, ?_⟩
    · rintro _ ⟨⟩
      decide
    · rintro _ ⟨⟩
      decide
    · rintro _ ⟨⟩ _ ⟨⟩
      decide
  · rintro ⟨out, hout', hhead⟩
    rw [hout] at hout'
    obtain rfl := Except.ok.inj hout'
    cases hhead

end StepSignal
