import StepSignal.Proofs.Refit

/-!
# Refitting again

Rows that are fitted to bounds lie within them, so a clipped window with these bounds has all of the
rows, whatever the rule, and the outermost rows already are where the bounds would be put.
Refitting gives fitted rows: a second time, under any rule, it leaves them as they are.
-/

namespace StepSignal

open Scalar

variable {α β : Type} [Scalar α] {rows kept : List (Stamped α β)} {start stop : Option α}

/-- Rows that begin at the start and end at the stop, as far as each is set. There may be no rows,
and a single one is at the start if both are set. -/
structure Fitted (rows : List (Stamped α β)) (start stop : Option α) : Prop where
  ordered : Ordered (Stamped.times rows)
  first : ∀ a ∈ start, ∀ t ∈ (Stamped.times rows).head?, t = a
  last : 2 ≤ rows.length ∨ start = none → ∀ b ∈ stop, ∀ t ∈ (Stamped.times rows).getLast?, t = b

/-- Rows that the bounds were put on are fitted to them. -/
theorem Relabelled.fitted {result : List (Stamped α β)} (h : Relabelled kept result start stop) :
    Fitted result start stop := by
  have hlen : result.length = kept.length := by simpa using congrArg List.length h.values
  have hne : ∀ t ∈ Stamped.times result, kept ≠ [] := fun t ht hnil => by
    rw [h.eq_nil_iff.mpr hnil] at ht
    cases ht
  refine ⟨h.ordered, fun a ha t ht => ?_, fun htwo b hb t ht => ?_⟩
  · have hfirst := h.first a ha (hne t (List.mem_of_head? ht))
    exact Option.some.inj (ht.symm.trans hfirst)
  · have hlast := h.last b hb (hne t (List.mem_of_getLast? ht)) (hlen ▸ htwo)
    exact Option.some.inj (ht.symm.trans hlast)

namespace Fitted

/-- No rows are fitted to any bounds. -/
theorem nil : Fitted ([] : List (Stamped α β)) start stop :=
  ⟨⟨by simp, trivial⟩, by simp, by simp⟩

/-- The last of the rows has the stop, unless it is the first one and has the start. -/
theorem getD_stop (h : Fitted rows start stop) {i : Nat} {t : α}
    (hi : (Stamped.times rows)[i]? = some t) (hend : i + 1 = rows.length)
    (htwo : 2 ≤ rows.length ∨ start = none) : stop.getD t = t := by
  rcases stop with - | b
  · rfl
  · refine (h.last htwo b rfl t ?_).symm
    rw [List.getLast?_eq_getElem?, Stamped.length_times, ← hend, Nat.add_sub_cancel]
    exact hi

/-- Fitted rows already have the bounds on the outermost ones. -/
theorem relabel_eq (h : Fitted rows start stop) :
    relabel (Stamped.times rows) start stop = Stamped.times rows := by
  refine List.ext_getElem? fun i => ?_
  rw [getElem?_relabel, Stamped.length_times]
  rcases hi : (Stamped.times rows)[i]? with - | t
  · rfl
  rw [Option.map_some, labelAt]
  by_cases hzero : i = 0
  · subst hzero
    rw [if_pos rfl]
    -- the first row may also be the last one, which has the stop if the start is not set
    rcases start with - | a
    · rw [Option.getD_none]
      split
      · rw [h.getD_stop hi ‹_› (.inr rfl)]
      · rfl
    · rw [Option.getD_some, h.first a rfl t (List.head?_eq_getElem? ▸ hi)]
  · rw [if_neg hzero]
    split
    · rw [h.getD_stop hi ‹_› (.inl (by omega))]
    · rfl

theorem putBounds_eq (h : Fitted rows start stop) : putBounds start stop rows = rows := by
  rw [putBounds, h.relabel_eq, Stamped.retime_times]

variable [LawfulScalar α]

/-- Rows fitted to bounds are all in the window with these bounds. -/
theorem windowRows_eq (h : Fitted rows start stop) (hb : RefitBounds start stop) (rule : EdgeRule) :
    windowRows rows ⟨start, stop⟩ rule true = .ok rows := by
  refine windowRows_all h.ordered hb.proper (fun t ht => ?_) (fun t ht => ?_) rule
  · rcases start with - | a
    · rfl
    · rw [h.first a rfl t ht, Option.getD_some]
  · rcases stop with - | b
    · rfl
    rw [Option.getD_some]
    by_cases htwo : 2 ≤ rows.length ∨ start = none
    · rw [h.last htwo b rfl t ht]
    · -- the last row is the first one, at a start that does not come after the stop
      obtain ⟨hone, hset⟩ := not_or.mp htwo
      obtain ⟨a, rfl⟩ := Option.ne_none_iff_exists'.mp hset
      have hhead : (Stamped.times rows).head? = some t := by
        rw [List.getLast?_eq_getElem?, Stamped.length_times,
          show rows.length - 1 = 0 by omega] at ht
        exact List.head?_eq_getElem? ▸ ht
      rw [h.first a rfl t hhead]
      exact hb.proper.le a rfl b rfl

/-- Rows fitted to bounds can all carry the bounds: two rows are at bounds that differ. -/
theorem keptRows_eq (h : Fitted rows start stop) (hb : RefitBounds start stop) :
    keptRows start stop rows = rows := by
  rcases start with - | a
  · rfl
  rcases stop with - | b
  · rfl
  unfold keptRows
  dsimp only
  by_cases htwo : 2 ≤ rows.length
  · have hlen : 2 ≤ (Stamped.times rows).length := by rwa [Stamped.length_times]
    have hfirst := List.getElem?_eq_getElem (show 0 < (Stamped.times rows).length by omega)
    have hlast := List.getElem?_eq_getElem
      (show (Stamped.times rows).length - 1 < (Stamped.times rows).length by omega)
    have hlt : toRat a < toRat b := by
      rw [← h.first a rfl _ (List.head?_eq_getElem?.trans hfirst),
        ← h.last (.inl htwo) b rfl _ (List.getLast?_eq_getElem?.trans hlast)]
      exact h.ordered.before hfirst hlast (by omega)
    simp [eq_eq (hb.proper.start a rfl) (hb.proper.stop b rfl), hlt.ne]
  · rw [List.take_of_length_le (by omega), ite_self]

/-- Refitting keeps all rows that are fitted to the bounds. -/
theorem refitRows_eq (h : Fitted rows start stop) (hb : RefitBounds start stop) (rule : EdgeRule) :
    refitRows rows start stop rule = .ok rows := by
  rw [StepSignal.refitRows_eq, h.windowRows_eq hb, ok_map, h.keptRows_eq hb]

end Fitted

variable [LawfulScalar α]

/-- Ordered rows, also none, can be refitted, and the rows that stay can carry the bounds. -/
theorem exists_refitRows (h : Ordered (Stamped.times rows)) (hb : RefitBounds start stop)
    (rule : EdgeRule) :
    ∃ kept, refitRows rows start stop rule = .ok kept ∧
      Ordered (relabel (Stamped.times kept) start stop) := by
  by_cases hne : rows = []
  · subst hne
    have hnone : Fitted ([] : List (Stamped α β)) start stop := .nil
    exact ⟨[], hnone.refitRows_eq hb rule, hnone.relabel_eq.symm ▸ hnone.ordered⟩
  · obtain ⟨windowed, -, hrefit, hordered, -⟩ := refitRows_relabel h hne hb rule
    exact ⟨_, hrefit, hordered⟩

/-- A table with fitted rows stays as it is. -/
theorem Fitted.table_refit {t : Table α} (h : Fitted t.rows start stop)
    (hb : RefitBounds start stop) (rule : EdgeRule) : t.refit start stop rule = .ok t := by
  rw [Table.refit_eq hb (h.refitRows_eq hb rule) (h.relabel_eq.symm ▸ h.ordered), h.putBounds_eq]

/-- A series with fitted samples stays as it is. -/
theorem Fitted.series_refit {s : Series α} (h : Fitted s.samples start stop)
    (hb : RefitBounds start stop) (rule : EdgeRule) : s.refit start stop rule = .ok s := by
  rw [Series.refit_eq hb (h.refitRows_eq hb rule) (h.relabel_eq.symm ▸ h.ordered), h.putBounds_eq]

/-- **Refitting is idempotent, whatever the rules.** For finite bounds in order, a table or a series
can be refitted under every rule. The result is fitted to the bounds, and refitting it to the same
bounds, under this rule or another, returns it unchanged. -/
theorem refit_idempotent (hb : RefitBounds start stop) (rule again : EdgeRule) :
    (∀ t : Table α, t.Valid →
      ∃ out, t.refit start stop rule = .ok out ∧ Fitted out.rows start stop ∧
        out.refit start stop again = .ok out) ∧
    (∀ s : Series α, s.Valid →
      ∃ out, s.refit start stop rule = .ok out ∧ Fitted out.samples start stop ∧
        out.refit start stop again = .ok out) := by
  constructor
  · intro t ht
    obtain ⟨kept, hrefit, hordered⟩ := exists_refitRows ht.ordered hb rule
    have hfitted : Fitted (putBounds start stop kept) start stop :=
      (relabelled_retime hordered).fitted
    exact ⟨_, Table.refit_eq hb hrefit hordered, hfitted, hfitted.table_refit hb again⟩
  · intro s hs
    obtain ⟨kept, hrefit, hordered⟩ := exists_refitRows hs hb rule
    have hfitted : Fitted (putBounds start stop kept) start stop :=
      (relabelled_retime hordered).fitted
    exact ⟨_, Series.refit_eq hb hrefit hordered, hfitted, hfitted.series_refit hb again⟩

/-- Of two rows at 0 and 10, only the second is strictly inside 4 and 12, and refitting puts it at 4.
Refitted under `pre` to the same bounds, it stays there. -/
theorem refit_idempotent_of_two_rows :
    let t : Table Float := ⟨["v"], [⟨0, [.int 1]⟩, ⟨10, [.int 2]⟩]⟩
    let s : Series Float := ⟨"v", [⟨0, 1⟩, ⟨10, 2⟩]⟩
    let t' : Table Float := ⟨["v"], [⟨4, [.int 2]⟩]⟩
    let s' : Series Float := ⟨"v", [⟨4, 2⟩]⟩
    RefitBounds (some (4 : Float)) (some 12) ∧ t.Valid ∧ s.Valid ∧
      (t.refit (some 4) (some 12) .exclusive = .ok t' ∧ Fitted t'.rows (some 4) (some 12) ∧
        t'.refit (some 4) (some 12) .pre = .ok t') ∧
      (s.refit (some 4) (some 12) .exclusive = .ok s' ∧ Fitted s'.samples (some 4) (some 12) ∧
        s'.refit (some 4) (some 12) .pre = .ok s') := by
  intro t s t' s'
  have hb : RefitBounds (some (4 : Float)) (some 12) := .of_lt (by decide) (by decide) (by decide)
  have hordered : Ordered [(0 : Float), 10] := checkIndex_eq_ok.mp rfl
  have ht : t.Valid := ⟨hordered, by decide, by decide⟩
  have htable : t.refit (some 4) (some 12) .exclusive = .ok t' := by decide +kernel
  have hseries : s.refit (some 4) (some 12) .exclusive = .ok s' := by decide +kernel
  obtain ⟨out, hout, hfitted, hagain⟩ := (refit_idempotent hb .exclusive .pre).1 t ht
  obtain ⟨out', hout', hfitted', hagain'⟩ := (refit_idempotent hb .exclusive .pre).2 s hordered
  obtain rfl := Except.ok.inj (htable.symm.trans hout)
  obtain rfl := Except.ok.inj (hseries.symm.trans hout')
  exact ⟨hb, ht, hordered, ⟨htable, hfitted, hagain⟩, hseries, hfitted', hagain'⟩

end StepSignal
