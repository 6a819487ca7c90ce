import StepSignal.Proofs.Toml.Number

/-!
# Names and values are read as they were written

A name with points is read as the path of its parts, and a value on one line as the value, with its
lists and maps, as long as they are not nested too deep and no name stands twice in a map.
-/

namespace StepSignal.Toml

variable {c : Char} {cs rest : List Char} {size depth : Nat}

/-! ## Names -/

/-- The spelling of a name. -/
def nameText (name : String) : List Char := keyText (.text name)

/-- Whether what comes next cannot belong to a name. -/
def EndsName (rest : List Char) : Prop := ∀ c ∈ rest.head?, isBareKey c = false

theorem isBareKey_of_isBlank (hc : isBlank c = true) : isBareKey c = false := by
  simp only [isBlank, Bool.or_eq_true, decide_eq_true_eq] at hc
  rcases hc with rfl | rfl <;> rfl

/-- A name is written as it is, or in quotes. -/
theorem nameText_cases (name : String) :
    (nameText name = name.toList ∧ name.toList ≠ [] ∧ ∀ c ∈ name.toList, isBareKey c = true) ∨
      nameText name = basic name.toList := by
  rw [nameText, keyText]
  split
  · rename_i hbare
    simp only [Bool.and_eq_true, Bool.not_eq_true', List.all_eq_true] at hbare
    obtain ⟨hne, hall⟩ := hbare
    refine .inl ⟨rfl, fun h => ?_, hall⟩
    rw [String.toList_eq_nil_iff.mp h] at hne
    exact absurd hne (by decide)
  · exact .inr rfl

theorem nameText_eq_cons (name : String) :
    ∃ c more, nameText name = c :: more ∧ (isBareKey c = true ∨ c = '"') := by
  rcases nameText_cases name with ⟨htext, hne, hall⟩ | htext
  · obtain ⟨c, more, hcons⟩ := List.exists_cons_of_ne_nil hne
    exact ⟨c, more, htext.trans hcons, .inl (hall c (hcons ▸ List.mem_cons_self))⟩
  · exact ⟨'"', _, htext, .inr rfl⟩

theorem skipBlanks_cons (hc : isBlank c = false) (cs : List Char) :
    skipBlanks (c :: cs) = c :: cs :=
  List.dropWhile_cons_of_neg (by simp [hc])

theorem skipBlanks_nameText (name : String) (rest : List Char) :
    skipBlanks (nameText name ++ rest) = nameText name ++ rest := by
  obtain ⟨c, more, hname, hc⟩ := nameText_eq_cons name
  rw [hname]
  refine skipBlanks_cons ?_ _
  rw [Bool.eq_false_iff]
  intro hblank
  rcases hc with hbare | rfl
  · rw [isBareKey_of_isBlank hblank] at hbare
    exact absurd hbare (by decide)
  · exact absurd hblank (by decide)

/-- **A name is read as the name**, in quotes or not. -/
theorem name?_nameText (name : String) (hrest : EndsName rest) :
    name? (nameText name ++ rest) = some (name, rest) := by
  rcases nameText_cases name with ⟨htext, hne, hall⟩ | htext
  · have hsplit : (name.toList ++ rest).takeWhile isBareKey = name.toList ∧
        (name.toList ++ rest).dropWhile isBareKey = rest := by
      rw [List.takeWhile_append_of_pos hall, List.dropWhile_append_of_pos hall]
      cases rest with
      | nil => simp
      | cons c rest => simp [hrest c rfl]
    obtain ⟨c, more, hcons⟩ := List.exists_cons_of_ne_nil hne
    have hquote : ∀ q, isBareKey q = false → ∀ after, name.toList ++ rest = q :: after → False := by
      intro q hq after heq
      rw [hcons] at heq
      have hc := hall c (hcons ▸ List.mem_cons_self)
      rw [(List.cons.inj heq).1] at hc
      exact absurd (hc.symm.trans hq) (by decide)
    rw [htext, name?.eq_3 _ (hquote '"' rfl) (hquote '\x27' rfl), hsplit.1, hsplit.2, hcons]
    show some (String.ofList (c :: more), rest) = _
    rw [← hcons, String.ofList_toList]
  · have hsplit : basic name.toList ++ rest =
        '"' :: (escapeText false 0 name.toList ++ '"' :: rest) := by
      simp [basic]
    rw [htext, hsplit, name?, basic?_escapeText]
    show some (String.ofList name.toList, rest) = _
    rw [String.ofList_toList]

/-! ## Paths -/

/-- The spelling of a name with points. -/
def namesText (names : List String) : List Char := pathText (names.map nameText)

theorem namesText_cons_cons (name other : String) (names : List String) :
    namesText (name :: other :: names) = nameText name ++ '.' :: namesText (other :: names) := by
  rw [namesText, pathText, List.map_cons, List.map_cons, List.intercalate_cons_cons,
    List.append_assoc]
  rfl

/-- Names with points between them are read up to what comes after the blanks behind them. -/
theorem names?_namesText {names : List String} (hne : names ≠ []) (hrest : EndsName rest)
    (hpoint : (skipBlanks rest).head? ≠ some '.') (hsize : names.length ≤ size) :
    names? size (namesText names ++ rest) = some (names, skipBlanks rest) := by
  induction names generalizing size with
  | nil => exact absurd rfl hne
  | cons name names ih =>
    obtain ⟨size, rfl⟩ : ∃ k, size = k + 1 := ⟨size - 1, by rw [List.length_cons] at hsize; omega⟩
    cases names with
    | nil =>
      have htext : namesText [name] = nameText name := by
        rw [namesText, pathText, List.map_singleton, List.intercalate_singleton]
      rw [htext, names?, skipBlanks_nameText, name?_nameText name hrest]
      simp only [Option.bind_eq_bind, Option.bind_some]
      split
      · rename_i heq
        exact absurd (heq ▸ rfl) hpoint
      · rfl
    | cons other names =>
      have hdot : EndsName ('.' :: (namesText (other :: names) ++ rest)) := fun c hc =>
        Option.some.inj hc ▸ rfl
      rw [namesText_cons_cons, List.append_assoc, List.cons_append, names?, skipBlanks_nameText,
        name?_nameText name hdot]
      have hcount : (other :: names).length ≤ size := Nat.le_of_succ_le_succ hsize
      have hmore := ih (List.cons_ne_nil other names) hcount
      simp only [Option.bind_eq_bind, Option.bind_some, skipBlanks_cons (c := '.') rfl, hmore]
      rfl

theorem Path.ofNames?_concat (front : List String) (last : String) :
    Path.ofNames? (front ++ [last]) = some ⟨front, last⟩ := by
  obtain ⟨name, more, hcons⟩ : ∃ name more, front ++ [last] = name :: more :=
    List.exists_cons_of_ne_nil (by simp)
  rw [hcons, Path.ofNames?, ← hcons, List.dropLast_concat, List.getLastD_concat]

/-- **A name with points is read as the path of its parts.** -/
theorem path?_namesText (front : List String) (last : String) (hrest : EndsName rest)
    (hpoint : (skipBlanks rest).head? ≠ some '.') (hsize : front.length < size)
    (hdepth : front.length + 1 < nestingLimit) :
    path? size (namesText (front ++ [last]) ++ rest) = some (⟨front, last⟩, skipBlanks rest) := by
  have hlength : (front ++ [last]).length = front.length + 1 := by simp
  have hne : front ++ [last] ≠ [] := by simp
  have hnames := names?_namesText hne hrest hpoint (hlength.trans_le hsize)
  rw [path?, hnames]
  simp only [Option.bind_eq_bind, Option.bind_some, hlength, Path.ofNames?_concat, guard,
    if_pos hdepth]
  rfl

/-! ## Parts -/

/-- The parts behind the first one, each after a comma. -/
def behind (xs : List (List Char)) : List Char := xs.flatMap (", ".toList ++ ·)

theorem intercalate_cons (x : List Char) (xs : List (List Char)) :
    (", ".toList).intercalate (x :: xs) = x ++ behind xs := by
  induction xs generalizing x with
  | nil => simp [behind]
  | cons y xs ih =>
    have hstep : behind (y :: xs) = ", ".toList ++ (y ++ behind xs) := by simp [behind]
    rw [List.intercalate_cons_cons, ih, hstep, List.append_assoc]

theorem length_le_intercalate (xs : List (List Char)) :
    xs.length ≤ ((", ".toList).intercalate xs).length + 1 := by
  have hbehind : ∀ ys, ys.length ≤ (behind ys).length := by
    intro ys
    induction ys with
    | nil => exact le_rfl
    | cons y ys ih =>
      have hstep : (behind (y :: ys)).length = 2 + (y.length + (behind ys).length) := by
        simp [behind]
        omega
      rw [hstep, List.length_cons]
      omega
  cases xs with
  | nil => exact Nat.zero_le _
  | cons x xs =>
    have := hbehind xs
    rw [intercalate_cons, List.length_append, List.length_cons]
    omega

theorem length_le_of_mem {x : List Char} {xs : List (List Char)} (hx : x ∈ xs) :
    x.length ≤ ((", ".toList).intercalate xs).length := by
  obtain ⟨first, xs, rfl⟩ := List.exists_cons_of_ne_nil (List.ne_nil_of_mem hx)
  rw [intercalate_cons, List.length_append]
  rcases List.mem_cons.mp hx with rfl | hx
  · omega
  · obtain ⟨before, after, rfl⟩ := List.append_of_mem hx
    simp only [behind, List.flatMap_append, List.flatMap_cons, List.length_append]
    omega

/-- Whether a value is read where its text stands, and none of the text is skipped before. -/
structure Reads (value : List Char → Option (Document × List Char)) (d : Document) : Prop where
  starts : ∃ c more, valueText d = c :: more ∧ c ∉ [' ', '\t', '\r', '\n', '#', ']']
  reads : ∀ rest, EndsValue rest → value (valueText d ++ rest) = some (d.renumber renumbering, rest)

section Parts

variable {value : List Char → Option (Document × List Char)} {d : Document} {items : List Document}

theorem skipLines?_cons (hc : c ∉ [' ', '\t', '\r', '\n', '#']) (cs : List Char) :
    skipLines? (c :: cs) = some (c :: cs) := by
  simp only [List.mem_cons, List.not_mem_nil, or_false, not_or] at hc
  obtain ⟨hspace, htab, hreturn, hline, hcomment⟩ := hc
  have hskip : ¬(decide (c = '\n') || isBlank c) = true := by simp [isBlank, hspace, htab, hline]
  rw [skipLines?.eq_4 c cs hcomment fun _ h => absurd h hreturn, if_neg hreturn, if_neg hskip]

theorem items?_space (size : Nat) (cs : List Char) :
    items? value size (' ' :: cs) = items? value size cs := by
  have hskip : skipLines? (' ' :: cs) = skipLines? cs := by
    rw [skipLines?.eq_4 ' ' cs (by decide) fun _ h => absurd h (by decide)]
    rfl
  cases size with
  | zero => rfl
  | succ size => rw [items?, items?, hskip]

/-- An item with the closing bracket behind it is the last one; with a comma behind it, more follow. -/
theorem items?_item (hd : Reads value d) (hc : c ∈ [',', ']']) (size : Nat) (rest : List Char) :
    items? value (size + 1) (valueText d ++ c :: rest) =
      if c = ']' then some ([d.renumber renumbering], rest)
      else (items? value size rest).map fun (items, after) =>
        (d.renumber renumbering :: items, after) := by
  obtain ⟨first, more, htext, hfirst⟩ := hd.starts
  have hends : EndsValue (c :: rest) := ⟨c, rest, rfl, by fin_cases hc <;> decide⟩
  have hread := hd.reads _ hends
  rw [htext] at hread ⊢
  simp only [List.mem_cons, List.not_mem_nil, or_false, not_or] at hfirst
  obtain ⟨hspace, htab, hreturn, hline, hcomment, hbracket⟩ := hfirst
  have hskip : skipLines? (first :: more ++ c :: rest) = some (first :: more ++ c :: rest) :=
    skipLines?_cons (by simp [*]) _
  have hnext : skipLines? (c :: rest) = some (c :: rest) :=
    skipLines?_cons (by fin_cases hc <;> decide) rest
  rw [items?, hskip]
  simp only [Option.bind_eq_bind, Option.bind_some]
  split
  · rename_i heq
    exact absurd (List.cons.inj heq).1 hbracket
  · simp only [hread, Option.bind_some, hnext]
    fin_cases hc
    · simp only [Char.reduceEq, if_false]
      cases items? value size rest <;> rfl
    · rfl

/-- **The items of a list are read up to the closing bracket.** -/
theorem items?_intercalate (hitems : ∀ d ∈ items, Reads value d) (hsize : items.length < size)
    (rest : List Char) :
    items? value size ((", ".toList).intercalate (items.map valueText) ++ ']' :: rest) =
      some (items.map (·.renumber renumbering), rest) := by
  cases items with
  | nil =>
    obtain ⟨size, rfl⟩ : ∃ k, size = k + 1 := ⟨size - 1, by rw [List.length_nil] at hsize; omega⟩
    rfl
  | cons d items =>
    rw [List.map_cons, intercalate_cons, List.append_assoc]
    induction items generalizing d size with
    | nil =>
      obtain ⟨size, rfl⟩ : ∃ k, size = k + 1 := ⟨size - 1, by rw [List.length_cons] at hsize; omega⟩
      exact items?_item (hitems d List.mem_cons_self) (by decide) size rest
    | cons e items ih =>
      obtain ⟨size, rfl⟩ : ∃ k, size = k + 1 := ⟨size - 1, by rw [List.length_cons] at hsize; omega⟩
      obtain ⟨hd, htail⟩ := List.forall_mem_cons.mp hitems
      have hbehind : behind ((e :: items).map valueText) ++ ']' :: rest =
          ',' :: ' ' :: (valueText e ++ (behind (items.map valueText) ++ ']' :: rest)) := by
        simp [behind]
      have hcount : (e :: items).length < size := by
        rw [List.length_cons] at hsize
        omega
      rw [hbehind, items?_item hd (by decide), if_neg (by decide), items?_space,
        ih e htail hcount]
      rfl

/-! ## Maps on one line -/

/-- The spelling of a field. -/
def fieldText (f : String × Document) : List Char :=
  nameText f.1 ++ " = ".toList ++ valueText f.2

/-- What fields leave behind in a map. -/
def nodes (fields : List (String × Document)) : Entries :=
  fields.map fun f => (f.1, .value (f.2.renumber renumbering))

theorem entryDocuments_append (es more : Entries) :
    entryDocuments (es ++ more) = entryDocuments es ++ entryDocuments more := by
  induction es with
  | nil => rfl
  | cons e es ih => rw [List.cons_append, entryDocuments, ih, entryDocuments, List.cons_append]

theorem entryDocuments_nodes (fields : List (String × Document)) :
    entryDocuments (nodes fields) =
      fields.map fun f => (.text f.1, f.2.renumber renumbering) := by
  induction fields with
  | nil => rfl
  | cons f fields ih => rw [nodes, List.map_cons, entryDocuments, ← nodes, ih]; rfl

/-- A value is added under a name that the map does not have yet. -/
theorem addValue_root {es : Entries} {name : String} (hname : name ∉ es.map (·.1)) (d : Document) :
    addValue es ⟨[], name⟩ d = some (es ++ [(name, .value d)]) := by
  have habsent : (es.any fun e => e.1 == name) = false := by
    rw [List.any_eq_false]
    intro e he heq
    exact hname (beq_iff_eq.mp heq ▸ List.mem_map_of_mem he)
  have hno : ¬(decide (Origin.own.dotted = ([] : List String).isEmpty) ||
      es.any fun e => e.1 == name) = true := by
    rw [habsent]
    decide
  show (if _ then _ else _) = _
  rw [if_neg hno]

/-- The name of a field and the value behind it. -/
theorem path?_fieldText (f : String × Document) (hsize : 0 < size) (rest : List Char) :
    path? size (fieldText f ++ rest) =
      some (⟨[], f.1⟩, '=' :: ' ' :: (valueText f.2 ++ rest)) := by
  have htext : fieldText f ++ rest =
      namesText ([] ++ [f.1]) ++ ' ' :: '=' :: ' ' :: (valueText f.2 ++ rest) := by
    simp [fieldText, namesText, pathText]
  have hends : EndsName (' ' :: '=' :: ' ' :: (valueText f.2 ++ rest)) :=
    fun c hc => Option.some.inj hc ▸ rfl
  rw [htext]
  exact path?_namesText [] f.1 hends (fun h => absurd (Option.some.inj h) (by decide)) hsize (by decide)

theorem assigned?_valueText (hd : Reads value d) (hrest : EndsValue rest) :
    assigned? value ('=' :: ' ' :: (valueText d ++ rest)) = some (d.renumber renumbering, rest) := by
  obtain ⟨c, more, htext, hc⟩ := hd.starts
  have hblank : isBlank c = false := by
    simp only [List.mem_cons, not_or] at hc
    simp [isBlank, hc.1, hc.2.1]
  have hskip : skipBlanks (' ' :: (valueText d ++ rest)) = valueText d ++ rest := by
    rw [htext]
    exact skipBlanks_cons hblank _
  rw [assigned?, hskip, hd.reads rest hrest]

/-- A field with a closing brace behind it is the last one; with a comma behind it, more follow. -/
theorem braced?_field {es : Entries} {f : String × Document} (hf : Reads value f.2)
    (hname : f.1 ∉ es.map (·.1)) (size : Nat) (rest : List Char) :
    (braced? value es (size + 1) (fieldText f ++ " \x7d".toList ++ rest) =
      some (es ++ nodes [f], rest)) ∧
    (braced? value es (size + 1) (fieldText f ++ ',' :: rest) =
      braced? value (es ++ nodes [f]) size rest) := by
  constructor
  · have hends : EndsValue (" \x7d".toList ++ rest) := ⟨' ', '\x7d' :: rest, rfl, by decide⟩
    rw [List.append_assoc, braced?, path?_fieldText f (Nat.succ_pos size)]
    simp only [Option.bind_eq_bind, Option.bind_some, assigned?_valueText hf hends,
      addValue_root hname]
    rfl
  · have hends : EndsValue (',' :: rest) := ⟨',', rest, rfl, by decide⟩
    rw [braced?, path?_fieldText f (Nat.succ_pos size)]
    simp only [Option.bind_eq_bind, Option.bind_some, assigned?_valueText hf hends,
      addValue_root hname]
    rfl

theorem path?_space (size : Nat) (cs : List Char) : path? size (' ' :: cs) = path? size cs := by
  cases size <;> rfl

theorem braced?_space (es : Entries) (size : Nat) (cs : List Char) :
    braced? value es size (' ' :: cs) = braced? value es size cs := by
  cases size with
  | zero => rfl
  | succ size => rw [braced?, braced?, path?_space]

/-- **The fields of a map are read up to the closing brace.** -/
theorem braced?_intercalate {es : Entries} {f : String × Document}
    {fields : List (String × Document)} (hfields : ∀ g ∈ f :: fields, Reads value g.2)
    (hnames : (es.map (·.1) ++ (f :: fields).map (·.1)).Nodup) (hsize : fields.length < size)
    (rest : List Char) :
    braced? value es size (fieldText f ++ (behind (fields.map fieldText) ++
      (" \x7d".toList ++ rest))) = some (es ++ nodes (f :: fields), rest) := by
  induction fields generalizing es f size with
  | nil =>
    obtain ⟨size, rfl⟩ : ∃ k, size = k + 1 := ⟨size - 1, by omega⟩
    have hname : f.1 ∉ es.map (·.1) := fun h =>
      (List.nodup_append.mp hnames).2.2 _ h _ List.mem_cons_self rfl
    have hlast := (braced?_field (hfields f List.mem_cons_self) hname size rest).1
    rw [List.append_assoc] at hlast
    exact hlast
  | cons g fields ih =>
    obtain ⟨size, rfl⟩ : ∃ k, size = k + 1 := ⟨size - 1, by omega⟩
    obtain ⟨hf, htail⟩ := List.forall_mem_cons.mp hfields
    have hname : f.1 ∉ es.map (·.1) := fun h =>
      (List.nodup_append.mp hnames).2.2 _ h _ List.mem_cons_self rfl
    have hbehind : behind ((g :: fields).map fieldText) ++ (" \x7d".toList ++ rest) =
        ',' :: ' ' :: (fieldText g ++ (behind (fields.map fieldText) ++
          (" \x7d".toList ++ rest))) := by
      simp [behind]
    have hmoved : (es ++ nodes [f]).map (·.1) ++ (g :: fields).map (·.1) =
        es.map (·.1) ++ (f :: g :: fields).map (·.1) := by
      simp [nodes]
    have hjoined : es ++ nodes [f] ++ nodes (g :: fields) = es ++ nodes (f :: g :: fields) := by
      simp [nodes]
    have hcount : fields.length < size := by
      rw [List.length_cons] at hsize
      omega
    rw [hbehind, (braced?_field hf hname size _).2, braced?_space,
      ih htail (hmoved ▸ hnames) hcount, hjoined]

theorem skipBlanks_fieldText (f : String × Document) (cs : List Char) :
    skipBlanks (' ' :: (fieldText f ++ cs)) = fieldText f ++ cs := by
  have hsplit : fieldText f ++ cs = nameText f.1 ++ (" = ".toList ++ valueText f.2 ++ cs) := by
    simp [fieldText]
  rw [hsplit]
  exact skipBlanks_nameText f.1 _

theorem fieldText_ne_brace (f : String × Document) (cs more : List Char) :
    fieldText f ++ cs ≠ '\x7d' :: more := by
  obtain ⟨c, tail, hname, hc⟩ := nameText_eq_cons f.1
  intro heq
  rw [fieldText, hname] at heq
  obtain rfl : c = '\x7d' := (List.cons.inj heq).1
  exact absurd hc (by decide)

end Parts

/-! ## Values -/

/-- The documents that are written on one line and read back: what has a spelling, with lists and maps
nested at most `depth` levels deep and no name twice in a map. -/
inductive Inline : Nat → Document → Prop where
  | bool {depth : Nat} (b : Bool) : Inline depth (.bool b)
  | natural {depth n : Nat} (h : n < 1 <<< 63) : Inline depth (.natural n)
  | integer {depth : Nat} {n : Int} (h : Int64.minValue.toInt ≤ n ∧ n ≤ Int64.maxValue.toInt) :
    Inline depth (.integer n)
  | float {depth : Nat} (x : Float) : Inline depth (.float x)
  | text {depth : Nat} (s : String) : Inline depth (.text s)
  | list {depth : Nat} {items : List Document} (h : ∀ d ∈ items, Inline depth d) :
    Inline (depth + 1) (.list items)
  | record {depth : Nat} {fields : List (String × Document)} (h : ∀ f ∈ fields, Inline depth f.2)
    (hnames : (fields.map (·.1)).Nodup) : Inline (depth + 1) (.record fields)

theorem inlineItems_eq_map (items : List Document) : inlineItems items = items.map valueText := by
  induction items with
  | nil => rfl
  | cons d items ih => rw [inlineItems, ih, List.map_cons]

theorem inlineEntries_record (fields : List (String × Document)) :
    inlineEntries (fields.map fun (name, value) => (.text name, value)) =
      fields.map fieldText := by
  induction fields with
  | nil => rfl
  | cons f fields ih =>
    rw [List.map_cons, inlineEntries, ih, List.map_cons]
    rfl

theorem valueText_list (items : List Document) : valueText (.list items) =
    '[' :: ((", ".toList).intercalate (items.map valueText) ++ [']']) := by
  rw [valueText, inlineItems_eq_map]

theorem valueText_record (f : String × Document) (fields : List (String × Document)) :
    valueText (.record (f :: fields)) = "\x7b ".toList ++
      (", ".toList).intercalate ((f :: fields).map fieldText) ++ " \x7d".toList := by
  rw [Document.record, List.map_cons, valueText, inlineEntries, inlineEntries_record,
    List.map_cons]
  · rfl
  · simp

theorem reads_of_isWord {d d' : Document} (hword : IsWord (valueText d) d')
    (hd : d.renumber renumbering = d') : Reads (value? size (depth + 1)) d := by
  obtain ⟨c, more, htext, hc, hread⟩ := hword
  refine ⟨⟨c, more, htext, fun hmem => hc ?_⟩, fun rest hrest => ?_⟩
  · exact List.mem_append_left ['[', '\x7b'] hmem
  · rw [hd, ← hread rest hrest, htext]
    have hlist : c ≠ '[' := fun h => hc (by rw [h]; decide)
    have hbrace : c ≠ '\x7b' := fun h => hc (by rw [h]; decide)
    exact value?.eq_4 size _ depth (fun _ h => hlist (List.cons.inj h).1)
      fun _ h => hbrace (List.cons.inj h).1

/-- A list is read when its items are, each of which is shorter than it. -/
theorem reads_list {items : List Document} (hsize : (valueText (.list items)).length < size)
    (h : ∀ d ∈ items, (valueText d).length < size → Reads (value? size (depth + 1)) d) :
    Reads (value? size (depth + 2)) (.list items) := by
  have htext := valueText_list items
  have hlength : ((", ".toList).intercalate (items.map valueText)).length + 2 < size := by
    rw [htext] at hsize
    simpa using hsize
  have hitems : ∀ d ∈ items, Reads (value? size (depth + 1)) d := by
    intro d hd
    have hle := length_le_of_mem (List.mem_map_of_mem (f := valueText) hd)
    exact h d hd (by omega)
  have hcount := length_le_intercalate (items.map valueText)
  rw [List.length_map] at hcount
  refine ⟨⟨'[', _, htext, by decide⟩, fun rest _ => ?_⟩
  rw [htext, List.cons_append, List.append_assoc, List.singleton_append, value?,
    if_neg (Nat.succ_ne_zero depth), items?_intercalate hitems (by omega), Document.renumber_list]
  rfl

/-- A map is read when the values of its fields are. -/
theorem reads_record {fields : List (String × Document)} (hnames : (fields.map (·.1)).Nodup)
    (hsize : (valueText (.record fields)).length < size)
    (h : ∀ f ∈ fields, (valueText f.2).length < size → Reads (value? size (depth + 1)) f.2) :
    Reads (value? size (depth + 2)) (.record fields) := by
  cases fields with
  | nil => exact ⟨⟨'\x7b', ['\x7d'], rfl, by decide⟩, fun rest _ => rfl⟩
  | cons f fields =>
    have htext := valueText_record f fields
    have hlength : ((", ".toList).intercalate ((f :: fields).map fieldText)).length + 4 < size := by
      rw [htext] at hsize
      simp only [List.length_append] at hsize
      have hopen : "\x7b ".toList.length = 2 := rfl
      have hclose : " \x7d".toList.length = 2 := rfl
      omega
    have hfields : ∀ g ∈ f :: fields, Reads (value? size (depth + 1)) g.2 := by
      intro g hg
      have hle := length_le_of_mem (List.mem_map_of_mem (f := fieldText) hg)
      have hvalue : (valueText g.2).length ≤ (fieldText g).length := by
        rw [fieldText, List.length_append]
        omega
      exact h g hg (by omega)
    have hcount := length_le_intercalate ((f :: fields).map fieldText)
    rw [List.length_map, List.length_cons] at hcount
    refine ⟨⟨'\x7b', _, htext, by decide⟩, fun rest _ => ?_⟩
    have hchars : valueText (.record (f :: fields)) ++ rest =
        '\x7b' :: ' ' :: (fieldText f ++ (behind (fields.map fieldText) ++
          (" \x7d".toList ++ rest))) := by
      rw [htext, List.map_cons, intercalate_cons]
      simp
    have hall : (([] : Entries).map (·.1) ++ (f :: fields).map (·.1)).Nodup := hnames
    have hfits : fields.length < size := by omega
    have hbraced := braced?_intercalate hfields hall hfits rest
    rw [hchars, value?, if_neg (Nat.succ_ne_zero depth), inlineMap?, skipBlanks_fieldText]
    split
    · rename_i heq
      exact absurd heq (fieldText_ne_brace f _ _)
    · rw [hbraced, List.nil_append, Option.map_some, Document.renumber_record, Document.record,
        List.map_map]
      exact congrArg (fun es => some (Document.map es, rest)) (entryDocuments_nodes (f :: fields))

/-- **A value on one line is read as the value**, with its whole numbers as integers. -/
theorem reads_valueText {d : Document} (hd : Inline depth d) (hsize : (valueText d).length < size) :
    Reads (value? size (depth + 1)) d := by
  induction hd with
  | bool b => exact reads_of_isWord (isWord_bool b) (Document.renumber_bool _ b)
  | natural h => exact reads_of_isWord (isWord_natural h) (Document.renumber_natural _ _)
  | integer h => exact reads_of_isWord (isWord_integer h) (by rw [Document.renumber]; rfl)
  | float x => exact reads_of_isWord (isWord_number x) (Document.renumber_float _ x)
  | text s => exact reads_of_isWord (isWord_quote s) (Document.renumber_text _ s)
  | list _ ih => exact reads_list hsize ih
  | record _ hnames ih => exact reads_record hnames hsize ih

end StepSignal.Toml
