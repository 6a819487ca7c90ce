import StepSignal.Archive.Envelope
import StepSignal.Proofs.Signals

/-!
# Every table is valid

A program holds tables that it builds from outside, decodes, or makes from tables it holds. `Step`
has one rule for every operation that gives a table, and `Run` is any sequence of them. Each step
gives a valid table from valid ones, so every table of a run has finite and strictly increasing
times, a cell in every column of every row, and column names that differ.
-/

namespace StepSignal

/-! ## Splitting and decoding -/

theorem Table.Valid.splitSignals {α : Type} [Scalar α] [LawfulScalar α] {t : Table α}
    (ht : t.Valid) {columns : List String} {alignStart : Bool} {signals : List (Signal α)}
    (h : t.splitSignals columns alignStart = .ok signals) {s : Signal α} (hs : s ∈ signals) :
    s.data.Valid := by
  unfold Table.splitSignals at h
  rcases columns with - | ⟨column, columns⟩
  · obtain rfl := Except.ok.inj h
    obtain rfl := List.mem_singleton.mp hs
    exact ht
  simp only [List.isEmpty_cons, Bool.false_eq_true, if_false] at h
  obtain ⟨positions, -, h⟩ := bind_eq_ok.mp h
  obtain ⟨key, -, hkey⟩ := exists_of_mem_mapM h hs
  -- refitting checks the index again, and otherwise the rows are those of the key
  cases alignStart with
  | false =>
    obtain rfl := Except.ok.inj hkey
    exact ht.rowsOfKey positions key
  | true =>
    obtain ⟨data, hdata, hkey⟩ := bind_eq_ok.mp hkey
    obtain rfl := Except.ok.inj hkey
    exact (ht.rowsOfKey positions key).refit hdata

/-- Decoding a table checks it. -/
theorem Table.valid_ofDocument? {dialect : Dialect} {d : Document} {t : Table Float}
    (h : Table.ofDocument? dialect d = some t) : t.Valid := by
  simp only [Table.ofDocument?, Option.bind_eq_bind, Option.bind_eq_some_iff] at h
  obtain ⟨fields, -, index, -, columns, -, h⟩ := h
  rcases hcolumns : Table.ofColumns index columns with _ | out
  · rw [hcolumns] at h
    cases h
  · rw [hcolumns] at h
    obtain rfl := Option.some.inj h
    exact Table.valid_ofColumns hcolumns

/-- A table that is read from an envelope was decoded. -/
theorem Table.valid_ofBytes {e : Encoding} {bytes : List UInt8} {t : Table Float}
    (h : Stored.ofBytes .table e bytes = .ok (.table t)) : t.Valid := by
  obtain ⟨d, -, h⟩ := bind_eq_ok.mp h
  obtain ⟨header, -, h⟩ := bind_eq_ok.mp h
  by_cases hversion : header.version = formatVersion
  case neg =>
    rw [if_neg hversion] at h
    cases h
  rw [if_pos hversion] at h
  by_cases hkind : header.kind = ObjectKind.table.tag
  case neg =>
    rw [if_neg hkind] at h
    cases h
  rw [if_pos hkind] at h
  rcases hobject : envelopedObject? e.dialect .table d with - | object
  · rw [hobject] at h
    cases h
  rw [hobject] at h
  obtain rfl : object = .table t := Except.ok.inj h
  simp only [envelopedObject?, Document.Fields.required, Option.bind_eq_bind,
    Option.bind_eq_some_iff, Stored.ofPayload?, Option.map_eq_some_iff] at hobject
  obtain ⟨fields, -, payload, -, out, hout, heq⟩ := hobject
  obtain rfl : out = t := Stored.table.inj heq
  exact Table.valid_ofDocument? hout

/-! ## Runs -/

/-- What one operation gives that succeeds on tables of a store. -/
inductive Step (store : List (Table Float)) : Table Float → Prop where
  | ofIndex {index out} (h : Table.ofIndex index = .ok out) : Step store out
  | ofColumns {index columns out} (h : Table.ofColumns index columns = .ok out) : Step store out
  | ofDocument {dialect d out} (h : Table.ofDocument? dialect d = some out) : Step store out
  | ofBytes {e bytes out} (h : Stored.ofBytes .table e bytes = .ok (.table out)) : Step store out
  | withColumn {t column out} (ht : t ∈ store) (h : t.withColumn column = .ok out) : Step store out
  | dropColumns {t names out} (ht : t ∈ store) (h : t.dropColumns names = .ok out) : Step store out
  | emptyLike {t} (ht : t ∈ store) : Step store t.emptyLike
  | filterRows {t} (ht : t ∈ store) (accept : Row Float → Bool) : Step store (t.filterRows accept)
  | slice {t start stop out} (ht : t ∈ store) (h : t.slice start stop = .ok out) : Step store out
  | withTimes {t index out} (ht : t ∈ store) (h : t.withTimes index = .ok out) : Step store out
  | window {t w rule clipped out} (ht : t ∈ store) (h : t.window w rule clipped = .ok out) :
      Step store out
  | refit {t start stop rule out} (ht : t ∈ store) (h : t.refit start stop rule = .ok out) :
      Step store out
  | squash {t start stop column out} (ht : t ∈ store)
      (h : t.squash start stop column = .ok out) : Step store out
  | signal {t columns alignStart signals s} (ht : t ∈ store)
      (h : t.splitSignals columns alignStart = .ok signals) (hs : s ∈ signals) : Step store s.data
  | windowSignals {t w columns compress out} (ht : t ∈ store)
      (h : t.windowSignals w columns compress = .ok out) : Step store out
  | withoutRepeats {t keep scope columns allColumns out} (ht : t ∈ store)
      (h : t.withoutRepeats keep scope columns allColumns = .ok out) : Step store out
  | whereCells {t conditions out} (ht : t ∈ store) (h : t.whereCells conditions = .ok out) :
      Step store out
  | selectTasks {t tasks pidColumn commColumn invert nameLength out} (ht : t ∈ store)
      (h : t.selectTasks tasks pidColumn commColumn invert nameLength = .ok out) : Step store out
  | merge {tables preparation out} (htables : ∀ t ∈ tables, t ∈ store)
      (h : mergeAll tables preparation = .ok out) : Step store out

/-- The tables that a program holds after some operations. -/
inductive Run : List (Table Float) → Prop where
  | nil : Run []
  | step {store out} (hrun : Run store) (h : Step store out) : Run (out :: store)

/-- An operation on valid tables gives a valid table. -/
theorem Step.valid {store : List (Table Float)} {out : Table Float} (h : Step store out)
    (hstore : ∀ t ∈ store, t.Valid) : out.Valid := by
  cases h with
  | ofIndex h => exact Table.valid_ofIndex h
  | ofColumns h => exact Table.valid_ofColumns h
  | ofDocument h => exact Table.valid_ofDocument? h
  | ofBytes h => exact Table.valid_ofBytes h
  | withColumn ht h => exact (hstore _ ht).withColumn h
  | dropColumns ht h => exact (hstore _ ht).dropColumns h
  | emptyLike ht => exact (hstore _ ht).emptyLike
  | filterRows ht accept => exact (hstore _ ht).filterRows accept
  | slice ht h => exact (hstore _ ht).slice h
  | withTimes ht h => exact (hstore _ ht).withTimes h
  | window ht h => exact (hstore _ ht).window h
  | refit ht h => exact (hstore _ ht).refit h
  | squash ht h => exact (hstore _ ht).squash h
  | signal ht h hs => exact (hstore _ ht).splitSignals h hs
  | windowSignals ht h => exact (hstore _ ht).windowSignals h
  | withoutRepeats ht h => exact (hstore _ ht).withoutRepeats h
  | whereCells ht h => exact (hstore _ ht).whereCells h
  | selectTasks ht h => exact (hstore _ ht).selectTasks h
  | merge htables h => exact valid_mergeAll (fun t ht => hstore t (htables t ht)) h

/-- **Every table of a run is valid.** -/
theorem run_tables_valid {store : List (Table Float)} (h : Run store) : ∀ t ∈ store, t.Valid := by
  induction h with
  | nil => exact fun _ ht => nomatch ht
  | step _ hstep ih => exact List.forall_mem_cons.mpr ⟨hstep.valid ih, ih⟩

/-- A table of two rows, and its rows from 10 on. -/
theorem run_tables_valid_of_window :
    let t : Table Float := ⟨["v"], [⟨0, [.int 1]⟩, ⟨10, [.int 2]⟩]⟩
    let out : Table Float := ⟨["v"], [⟨10, [.int 2]⟩]⟩
    Run [out, t] ∧ ∀ table ∈ [out, t], table.Valid := by
  intro t out
  have hbuild : Table.ofColumns [0, 10] [⟨"v", [.int 1, .int 2]⟩] = .ok t := by decide
  have hwindow : t.window ⟨some 10, none⟩ .pre true = .ok out := by decide +kernel
  have hrun : Run [out, t] :=
    .step (.step .nil (.ofColumns hbuild)) (.window List.mem_cons_self hwindow)
  exact ⟨hrun, run_tables_valid hrun⟩

end StepSignal
