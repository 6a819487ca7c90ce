import StepSignal.Proofs.Window

/-!
# The row in effect

A row is in effect from its own time until the next one, so the row in effect at a time is the last
one at or before it. Seen from the other side, the row awaited at a time is the first one at or
after it. Both are read off a list of rows here; looking a time up in a table or a series finds the
row in effect.
-/

namespace StepSignal

open Scalar

variable {α β : Type} [Scalar α]

/-- The row in effect at a time: the last one at or before it. -/
def inEffect (rows : List (Stamped α β)) (time : α) : Option (Stamped α β) :=
  (rows.filter fun row => le row.time time).getLast?

/-- The row awaited at a time: the first one at or after it. -/
def awaited (rows : List (Stamped α β)) (time : α) : Option (Stamped α β) :=
  (rows.filter fun row => le time row.time).head?

variable [LawfulScalar α] {rows : List (Stamped α β)}

/-- The rows at or before a time come first. -/
theorem Ordered.pairwise_le (h : Ordered (Stamped.times rows)) (time : α) :
    rows.Pairwise fun a b => le b.time time = true → le a.time time = true := by
  have hpairs : rows.Pairwise fun a b => Before a.time b.time := List.pairwise_map.mp h.pairwise
  refine hpairs.imp_of_mem fun {a b} ha _ hab hb => ?_
  rw [le_iff] at hb ⊢
  exact ⟨h.isMissing_of_mem (List.mem_map_of_mem ha), hb.2.1, hab.le.trans hb.2.2⟩

/-- The rows at or after a time come last. -/
theorem Ordered.pairwise_ge (h : Ordered (Stamped.times rows)) (time : α) :
    rows.Pairwise fun a b => le time a.time = true → le time b.time = true := by
  have hpairs : rows.Pairwise fun a b => Before a.time b.time := List.pairwise_map.mp h.pairwise
  refine hpairs.imp_of_mem fun {a b} _ hb hab ha => ?_
  rw [le_iff] at ha ⊢
  exact ⟨ha.1, h.isMissing_of_mem (List.mem_map_of_mem hb), ha.2.2.trans hab.le⟩

/-! ## Looking a time up -/

/-- Padding finds the last of the times that are not later, which are the first `n`. -/
theorem Ordered.exists_locate_pad {index : List α} (h : Ordered index) (target : α) :
    ∃ n ≤ index.length, (∀ i t, index[i]? = some t → (le t target = true ↔ i < n)) ∧
      locate index target .pad = if n = 0 then none else some (n - 1) := by
  rcases htarget : isMissing target with - | -
  case true =>
    -- no time is compared with what is missing
    have hlt : ∀ t, lt t target = false := fun t => lt_of_isMissing (.inr htarget)
    have hzero : partitionPoint (lt · target) index = 0 := by
      rw [partitionPoint_eq (h.pairwise_lt target)]
      cases index <;> simp [hlt]
    refine ⟨0, Nat.zero_le _, fun i t _ => ?_, ?_⟩
    · simp [le_iff, htarget]
    · have heq : ∀ t, eq t target = false := fun t => Bool.eq_false_iff.mpr fun ht => by
        simp [((LawfulScalar.eq_iff t target).mp ht).2.1] at htarget
      unfold locate
      rw [hzero]
      cases index <;> simp [heq]
  have hle : ∀ {i : Nat} {t : α}, index[i]? = some t →
      (le t target = true ↔ toRat t ≤ toRat target) := by
    intro i t hi
    simp [le_iff, htarget, h.isMissing_of_mem (List.mem_of_getElem? hi)]
  rcases h.hits_or_misses htarget with ⟨n, s, hn, heq⟩ | ⟨n, hm⟩
  · have hlt := (List.getElem?_eq_some_iff.mp hn).1
    refine ⟨n + 1, hlt, fun i t hi => ?_, ?_⟩
    · rw [hle hi, ← heq, Nat.lt_succ_iff]
      constructor
      · intro hts
        by_contra hlt
        exact (h.before hn hi (not_le.mp hlt)).not_ge hts
      · exact h.le_of_le hi hn
    · rw [h.locate_hit htarget hn heq, if_neg (Nat.succ_ne_zero n), Nat.add_sub_cancel]
  · refine ⟨n, hm.le_length, fun i t hi => ?_, h.locate_miss htarget hm .pad⟩
    rw [hle hi]
    constructor
    · intro hts
      by_contra hge
      exact (hm.after i t hi (not_lt.mp hge)).not_ge hts
    · exact fun hlt => (hm.before i t hi hlt).le

/-- Padding finds the same row for two times that the same rows are at or before. -/
theorem Ordered.locate_pad_congr {index : List α} (h : Ordered index) {a b : α}
    (heq : ∀ t ∈ index, le t a = le t b) : locate index a .pad = locate index b .pad := by
  obtain ⟨n, hn, hna, hlocate⟩ := h.exists_locate_pad a
  obtain ⟨m, hm, hmb, hlocate'⟩ := h.exists_locate_pad b
  have hiff : ∀ i < index.length, (i < n ↔ i < m) := fun i hi => by
    have hrow := List.getElem?_eq_getElem hi
    rw [← hna i _ hrow, ← hmb i _ hrow, heq _ (List.getElem_mem hi)]
  have hnm : n = m := by
    rcases lt_trichotomy n m with hlt | hnm | hlt
    · exact absurd ((hiff n (by omega)).mpr hlt) (lt_irrefl n)
    · exact hnm
    · exact absurd ((hiff m (by omega)).mp hlt) (lt_irrefl m)
  rw [hlocate, hlocate', hnm]

/-- Padding finds the row in effect. -/
theorem Ordered.locate_inEffect (h : Ordered (Stamped.times rows)) (time : α) :
    (locate (Stamped.times rows) time .pad).bind (rows[·]?) = inEffect rows time := by
  obtain ⟨n, hn, hle, hlocate⟩ := h.exists_locate_pad time
  have hfirst : (rows.filter fun row => le row.time time) = (rows.take n).drop 0 := by
    refine filter_eq_extract fun i row hi => ?_
    rw [hle i row.time (Stamped.getElem?_times hi)]
    omega
  rw [Stamped.length_times] at hn
  rw [hlocate, inEffect, hfirst, List.drop_zero, List.getLast?_take]
  split
  · rfl
  · simp [show n - 1 < rows.length by omega]

/-- A table looked up at a time gives the row in effect then. -/
theorem Table.Valid.rowAt_eq {t : Table α} (ht : t.Valid) (time : α) :
    (t.rowAt time).map (fun row => (row.time, row.cells))
      = (inEffect t.rows time).map fun row => (row.time, t.names.zip row.value) := by
  rw [← ht.ordered.locate_inEffect time, Table.rowAt, Table.times]
  rcases locate (Stamped.times t.rows) time .pad with - | i
  · rfl
  · rcases hi : t.rows[i]? with - | row <;> simp [hi, Table.view]

/-- Where a row is in effect, a table looked up gives its cells. -/
theorem Table.Valid.exists_rowAt {t : Table α} (ht : t.Valid) {time : α}
    {row : Stamped α (List (Cell α))} (hrow : inEffect t.rows time = some row) :
    ∃ found, t.rowAt time = some found ∧ found.time = row.time ∧
      found.cells = t.names.zip row.value := by
  have hfound := ht.rowAt_eq time
  rw [hrow, Option.map_some, Option.map_eq_some_iff] at hfound
  obtain ⟨found, hfound, heq⟩ := hfound
  obtain ⟨htime, hcells⟩ := Prod.mk.inj heq
  exact ⟨found, hfound, htime, hcells⟩

/-- A series looked up at a time gives the value of the sample in effect then. -/
theorem Series.Valid.valueAt_eq {s : Series α} (hs : s.Valid) (time : α) :
    s.valueAt time = (inEffect s.samples time).map (·.value) := by
  rw [← Ordered.locate_inEffect hs time, Series.valueAt, Series.times]
  rcases locate (Stamped.times s.samples) time .pad with - | i
  · rfl
  · rcases hi : s.samples[i]? with - | sample <;> simp [hi]

/-- From its own time until the next one a sample is in effect. -/
theorem Series.Valid.valueAt_between {s : Series α} (hs : s.Valid) {i : Nat} {sample : Stamped α α}
    {time : α} (hi : s.samples[i]? = some sample) (hbegun : le sample.time time = true)
    (hnext : ∀ next, s.samples[i + 1]? = some next → lt time next.time = true) :
    s.valueAt time = some sample.value := by
  obtain ⟨n, hn, hle, hlocate⟩ := Ordered.exists_locate_pad hs time
  have hin : i < n := (hle i _ (Stamped.getElem?_times hi)).mp hbegun
  have hout : n ≤ i + 1 := by
    by_contra hlt
    have hlast : i + 1 < s.samples.length := by
      rw [Series.times, Stamped.length_times] at hn
      omega
    have hrow := List.getElem?_eq_getElem hlast
    have hbegun' := (hle (i + 1) _ (Stamped.getElem?_times hrow)).mpr (by omega)
    rw [le_eq_false_of_lt (hnext _ hrow)] at hbegun'
    cases hbegun'
  rw [Series.valueAt, hlocate, if_neg (by omega), show n - 1 = i by omega]
  simp [hi]

end StepSignal
