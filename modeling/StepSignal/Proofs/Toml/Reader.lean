import StepSignal.Proofs.Toml.Outline

/-!
# TOML reads back what it wrote

The reader goes through a text line by line. From the text of a section it comes to what follows it,
and the outline has the entries of the section then, where its header says. Sections follow one another
in the order in which the writer goes through the document, so that each part of a document takes the
reader from one outline to the next, and the last outline is the document.
-/

namespace StepSignal.Toml

variable {size : Nat} {o o' o'' : Outline} {cs mid rest : List Char}

/-! ## Going on through lines -/

/-- Whether the reader comes from some text to the rest of it, with an outline before and after. -/
structure Reaches (size : Nat) (o : Outline) (cs : List Char) (o' : Outline) (rest : List Char) :
    Prop where
  shorter : rest.length ≤ cs.length
  /-- There is a line for every character that is left, so the number of lines is no limit. -/
  lines : cs.length < size → ∀ count, cs.length < count →
    ∃ count', rest.length < count' ∧ lines? size o count cs = lines? size o' count' rest

theorem Reaches.refl (size : Nat) (o : Outline) (cs : List Char) : Reaches size o cs o cs :=
  ⟨le_rfl, fun _ count hcount => ⟨count, hcount, rfl⟩⟩

theorem Reaches.trans (h : Reaches size o cs o' mid) (h' : Reaches size o' mid o'' rest) :
    Reaches size o cs o'' rest := by
  refine ⟨h'.shorter.trans h.shorter, fun hsize count hcount => ?_⟩
  obtain ⟨count', hcount', hlines⟩ := h.lines hsize count hcount
  obtain ⟨count'', hcount'', hlines'⟩ := h'.lines (h.shorter.trans_lt hsize) count' hcount'
  exact ⟨count'', hcount'', hlines.trans hlines'⟩

/-- A line that is read takes at least one character. -/
theorem Reaches.step (hshorter : rest.length < cs.length)
    (h : cs.length < size → ∀ count, lines? size o (count + 1) cs = lines? size o' count rest) :
    Reaches size o cs o' rest := by
  refine ⟨hshorter.le, fun hsize count hcount => ?_⟩
  obtain ⟨count, rfl⟩ : ∃ k, count = k + 1 := ⟨count - 1, by omega⟩
  exact ⟨count, by omega, h hsize count⟩

/-- A blank line. -/
theorem reaches_break (size : Nat) (o : Outline) (rest : List Char) :
    Reaches size o ('\n' :: rest) o rest :=
  .step (Nat.lt_succ_self _) fun _ _ => rfl

/-! ## Lines of values -/

/-- A line that starts with a name is a name and its value. -/
theorem lines?_nameText (name : String) (count : Nat) :
    lines? size o (count + 1) (nameText name ++ cs) =
      (entryLine? size o (nameText name ++ cs)).bind fun (o, rest) => lines? size o count rest := by
  obtain ⟨c, more, hname, hc⟩ := nameText_eq_cons name
  have hne : ∀ d ∈ ['#', '\n', '\r', '['], c ≠ d := by
    rintro d hd rfl
    fin_cases hd <;> exact absurd hc (by decide)
  rw [lines?, skipBlanks_nameText, hname]
  split
  · rename_i heq
    exact absurd heq (by simp)
  all_goals rename_i heq
  · exact absurd (List.cons.inj heq).1 (hne _ (by decide))
  · exact absurd (List.cons.inj heq).1 (hne _ (by decide))
  · exact absurd (List.cons.inj heq).1 (hne _ (by decide))
  · exact absurd (List.cons.inj heq).1 (hne _ (by decide))
  · rfl

/-- **The line of a field adds its value.** -/
theorem reaches_field {f : String × Document} (hf : Inline 79 f.2)
    (hname : f.1 ∉ o.current.map (·.1)) (rest : List Char) :
    Reaches size o (fieldText f ++ '\n' :: rest) { o with current := o.current ++ nodes [f] } rest := by
  refine .step (by simp; omega) fun hsize count => ?_
  have hvalue : (valueText f.2).length < size := by
    simp only [fieldText, List.length_append] at hsize
    omega
  have hends : EndsValue ('\n' :: rest) := ⟨'\n', rest, rfl, by decide⟩
  have hassigned : assigned? (value? size nestingLimit) ('=' :: ' ' :: (valueText f.2 ++ '\n' :: rest)) =
      some (f.2.renumber renumbering, '\n' :: rest) :=
    assigned?_valueText (reads_valueText hf hvalue) hends
  have hline : entryLine? size o (fieldText f ++ '\n' :: rest) =
      some ({ o with current := o.current ++ nodes [f] }, rest) := by
    rw [entryLine?, path?_fieldText f (Nat.zero_lt_of_lt hsize)]
    simp only [Option.bind_eq_bind, Option.bind_some, hassigned, Outline.add, addValue_root hname]
    rfl
  have hchars : fieldText f ++ '\n' :: rest =
      nameText f.1 ++ (" = ".toList ++ valueText f.2 ++ '\n' :: rest) := by
    simp [fieldText]
  rw [hchars, lines?_nameText, ← hchars, hline]
  rfl

/-- The lines of fields. -/
def fieldLines (fields : List (String × Document)) : List Char :=
  fields.flatMap fun f => fieldText f ++ ['\n']

theorem reaches_fieldLines {fields : List (String × Document)} (hfields : ∀ f ∈ fields, Inline 79 f.2)
    (hnames : (o.current.map (·.1) ++ fields.map (·.1)).Nodup) (rest : List Char) :
    Reaches size o (fieldLines fields ++ rest) { o with current := o.current ++ nodes fields } rest := by
  induction fields generalizing o with
  | nil =>
    have hsame : o.current ++ nodes [] = o.current := List.append_nil _
    rw [hsame]
    exact .refl size o rest
  | cons f fields ih =>
    obtain ⟨hf, hfields⟩ := List.forall_mem_cons.mp hfields
    have hname : f.1 ∉ o.current.map (·.1) := fun h =>
      (List.nodup_append.mp hnames).2.2 _ h _ List.mem_cons_self rfl
    have hchars : fieldLines (f :: fields) ++ rest =
        fieldText f ++ '\n' :: (fieldLines fields ++ rest) := by
      simp [fieldLines]
    have hmoved : (o.current ++ nodes [f]).map (·.1) ++ fields.map (·.1) =
        o.current.map (·.1) ++ (f :: fields).map (·.1) := by
      simp [nodes]
    have hjoined : o.current ++ nodes [f] ++ nodes fields = o.current ++ nodes (f :: fields) := by
      simp [nodes]
    rw [hchars, ← hjoined]
    exact (reaches_field hf hname _).trans (ih hfields (hmoved ▸ hnames))

/-! ## Headers -/

/-- The header of the section of a frame. -/
def Frame.headerText (f : Frame) (front : List String) : List Char :=
  match f.earlier with
  | none => "\n[".toList ++ namesText (front ++ [f.name]) ++ "]\n".toList
  | some _ => "\n[[".toList ++ namesText (front ++ [f.name]) ++ "]]\n".toList

theorem length_le_namesText (names : List String) : names.length ≤ (namesText names).length := by
  have hone : ∀ name, 1 ≤ (nameText name).length := by
    intro name
    obtain ⟨c, more, hname, -⟩ := nameText_eq_cons name
    rw [hname, List.length_cons]
    omega
  induction names with
  | nil => exact Nat.zero_le _
  | cons name names ih =>
    cases names with
    | nil => simpa [namesText, pathText] using hone name
    | cons other names =>
      have := hone name
      rw [namesText_cons_cons]
      simp only [List.length_append, List.length_cons] at ih ⊢
      omega

/-- The path in a header, up to the closing bracket. -/
theorem path?_header (front : List String) (last : String)
    (hsize : (namesText (front ++ [last])).length ≤ size) (hdepth : front.length + 1 < nestingLimit)
    (rest : List Char) : path? size (namesText (front ++ [last]) ++ ']' :: rest) =
      some (⟨front, last⟩, ']' :: rest) := by
  have hcount := length_le_namesText (front ++ [last])
  rw [List.length_append, List.length_singleton] at hcount
  exact path?_namesText front last (fun c hc => Option.some.inj hc ▸ rfl)
    (fun h => absurd (Option.some.inj h) (by decide)) (by omega) hdepth

/-- No path starts with a bracket. -/
theorem namesText_ne_bracket (front : List String) (last : String) (cs more : List Char) :
    namesText (front ++ [last]) ++ cs ≠ '[' :: more := by
  have hstart : ∃ name tail, namesText (front ++ [last]) = nameText name ++ tail := by
    cases front with
    | nil => exact ⟨last, [], by simp [namesText, pathText]⟩
    | cons name front =>
      obtain ⟨other, names, hcons⟩ : ∃ other names, front ++ [last] = other :: names :=
        List.exists_cons_of_ne_nil (by simp)
      rw [List.cons_append, hcons]
      exact ⟨name, _, namesText_cons_cons name other names⟩
  obtain ⟨name, tail, htext⟩ := hstart
  obtain ⟨c, after, hname, hc⟩ := nameText_eq_cons name
  intro heq
  rw [htext, hname] at heq
  obtain rfl : c = '[' := (List.cons.inj heq).1
  exact absurd hc (by decide)

/-- A blank line and a line in brackets. -/
theorem reaches_bracket (hshorter : rest.length ≤ cs.length)
    (h : cs.length < size → headerLine? size o cs = some (o', rest)) :
    Reaches size o ('\n' :: '[' :: cs) o' rest := by
  refine (reaches_break size o _).trans (.step (Nat.lt_succ_of_le hshorter) fun hsize count => ?_)
  show (headerLine? size o cs).bind _ = _
  rw [h (Nat.lt_of_succ_lt hsize)]
  rfl

variable {ctx : List Frame} {f : Frame}

/-- **A header opens the section of its frame.** -/
theorem reaches_header (hctx : ∀ g ∈ ctx, g.Fresh) (hf : f.Fresh)
    (hdepth : ctx.length + 1 < nestingLimit) (ho : o.close = some (fill ctx f.base))
    (rest : List Char) :
    Reaches size o (f.headerText (namesOf ctx) ++ rest) (opened ctx f []) rest := by
  have hfront : (namesOf ctx).length + 1 < nestingLimit := by
    rwa [namesOf, List.length_map]
  cases hearlier : f.earlier with
  | none =>
    have hchars : f.headerText (namesOf ctx) ++ rest =
        '\n' :: '[' :: (namesText (namesOf ctx ++ [f.name]) ++ ']' :: '\n' :: rest) := by
      rw [Frame.headerText, hearlier]
      simp
    rw [hchars]
    refine reaches_bracket (by simp; omega) fun hsize => ?_
    have hlong : (namesText (namesOf ctx ++ [f.name])).length ≤ size := by
      rw [List.length_append] at hsize
      omega
    rw [headerLine?.eq_2 _ _ _ (namesText_ne_bracket _ _ _), path?_header _ _ hlong hfront]
    simp only [Option.bind_eq_bind, Option.bind_some, openMap_eq hctx hf hearlier ho]
    rfl
  | some earlier =>
    have hchars : f.headerText (namesOf ctx) ++ rest =
        '\n' :: '[' :: '[' :: (namesText (namesOf ctx ++ [f.name]) ++ ']' :: ']' :: '\n' :: rest) := by
      rw [Frame.headerText, hearlier]
      simp
    rw [hchars]
    refine reaches_bracket (by simp; omega) fun hsize => ?_
    have hlong : (namesText (namesOf ctx ++ [f.name])).length ≤ size := by
      rw [List.length_cons, List.length_append] at hsize
      omega
    rw [headerLine?.eq_1, path?_header _ _ hlong hfront]
    simp only [Option.bind_eq_bind, Option.bind_some, openItem_eq hctx hf hearlier ho]
    rfl

/-! ## What is written in sections -/

/-- The entries of a record. -/
def entriesOf (fields : List (String × Document)) : List (Document × Document) :=
  fields.map fun (name, value) => (.text name, value)

/-- The entries that come back. -/
def readEntries (fields : List (String × Document)) : List (Document × Document) :=
  fields.map fun f => (.text f.1, f.2.renumber renumbering)

theorem renumber_record_eq (fields : List (String × Document)) :
    (Document.record fields).renumber renumbering = .map (readEntries fields) := by
  rw [Document.renumber_record, Document.record, List.map_map]
  rfl

/-- A map whose plain values come before those with sections, and which has a plain value if it has
any, so that it gets a header. -/
structure Layered (below : Document → Prop) (fields : List (String × Document)) : Prop where
  nodup : (fields.map (·.1)).Nodup
  layers : ∃ plain more, fields = plain ++ more ∧
    (∀ f ∈ plain, hasSections f.2 = false ∧ Inline 79 f.2) ∧ (∀ f ∈ more, below f.2) ∧
    (plain = [] → more = [])

/-- A value with sections: a map, or a list of maps that is not empty. -/
def Part (inside : List (String × Document) → Prop) (d : Document) : Prop :=
  (∃ fields, d = .record fields ∧ inside fields) ∨
    ∃ items, items ≠ [] ∧ d = .list (items.map .record) ∧ ∀ fields ∈ items, inside fields

/-- The maps that are written in sections at most `depth` levels deep and read back. -/
def Sectioned : Nat → List (String × Document) → Prop
  | 0 => fun _ => False
  | depth + 1 => Layered (Part (Sectioned depth))

theorem hasSections_of_part {inside : List (String × Document) → Prop} {d : Document}
    (h : Part inside d) : hasSections d = true := by
  rcases h with ⟨fields, rfl, -⟩ | ⟨items, hne, rfl, -⟩
  · rfl
  · rw [hasSections, Bool.and_eq_true, Bool.not_eq_true', List.isEmpty_eq_false_iff,
      List.all_map, List.all_eq_true]
    exact ⟨by simpa using hne, fun _ _ => rfl⟩

section Written

variable {plain more : List (String × Document)}

/-- The lines of a map are those of its plain values. -/
theorem plainLines_entriesOf (hplain : ∀ f ∈ plain, hasSections f.2 = false)
    (hmore : ∀ f ∈ more, hasSections f.2 = true) :
    plainLines (entriesOf (plain ++ more)) = fieldLines plain := by
  have hkept : ((plain ++ more).filter fun f => !hasSections f.2) = plain := by
    have hall : (plain.filter fun f => !hasSections f.2) = plain :=
      List.filter_eq_self.mpr fun f hf => by rw [hplain f hf]; rfl
    have hnone : (more.filter fun f => !hasSections f.2) = [] :=
      List.filter_eq_nil_iff.mpr fun f hf => by rw [hmore f hf]; decide
    rw [List.filter_append, hall, hnone, List.append_nil]
  have hentries : ((entriesOf (plain ++ more)).filter fun e => !hasSections e.2) =
      entriesOf plain := by
    rw [entriesOf, List.filter_map]
    exact congrArg entriesOf hkept
  calc plainLines (entriesOf (plain ++ more))
      = ((entriesOf (plain ++ more)).filter fun e => !hasSections e.2).flatMap fun e =>
          keyText e.1 ++ " = ".toList ++ valueText e.2 ++ ['\n'] := rfl
    _ = fieldLines plain := by
      rw [hentries, entriesOf, List.flatMap_map]
      rfl

theorem valueSection_of_plain {d : Document} (hd : hasSections d = false)
    (path : List (List Char)) : valueSection path d = [] := by
  unfold valueSection
  split
  · exact absurd hd (by simp [hasSections])
  · exact if_neg (Bool.eq_false_iff.mp hd)
  · rfl

/-- Plain values have no sections. -/
theorem sections_entriesOf (path : List (List Char)) (hplain : ∀ f ∈ plain, hasSections f.2 = false) :
    sections path (entriesOf (plain ++ more)) = sections path (entriesOf more) := by
  induction plain with
  | nil => rfl
  | cons f plain ih =>
    obtain ⟨hf, hplain⟩ := List.forall_mem_cons.mp hplain
    show valueSection (path ++ [_]) f.2 ++ sections path (entriesOf (plain ++ more)) = _
    rw [valueSection_of_plain hf, ih hplain, List.nil_append]

/-- A map with a plain value, or without any, has a header. -/
theorem header_entriesOf (path : List (List Char)) (hplain : ∀ f ∈ plain, hasSections f.2 = false)
    (hmore : plain = [] → more = []) : header path (entriesOf (plain ++ more)) =
      "\n[".toList ++ pathText path ++ "]\n".toList := by
  refine if_neg ?_
  cases plain with
  | nil =>
    rw [hmore rfl]
    decide
  | cons f plain =>
    have hf := hplain f List.mem_cons_self
    simp [entriesOf, hf]

theorem header_of_sectioned {depth : Nat} {fields : List (String × Document)}
    (h : Sectioned depth fields) (path : List (List Char)) :
    header path (entriesOf fields) = "\n[".toList ++ pathText path ++ "]\n".toList := by
  cases depth with
  | zero => exact h.elim
  | succ depth =>
    obtain ⟨plain, more, rfl, hplain, -, hfirst⟩ := h.layers
    exact header_entriesOf path (fun f hf => (hplain f hf).1) hfirst

end Written

/-! ## Sections are read -/

/-- Whether the fields of a map are read from the section of any frame. -/
def ReadsSection (size depth : Nat) (fields : List (String × Document)) : Prop :=
  ∀ {ctx : List Frame} {f : Frame} {o : Outline}, (∀ g ∈ ctx, g.Fresh) → f.Fresh →
    ctx.length + depth < nestingLimit → o.close = some (fill ctx f.base) → ∀ rest, ∃ o' es,
      Reaches size o (f.headerText (namesOf ctx) ++ plainLines (entriesOf fields) ++
        sections ((namesOf ctx ++ [f.name]).map nameText) (entriesOf fields) ++ rest) o' rest ∧
      o'.close = some (fill (ctx ++ [f]) es) ∧ entryDocuments es = readEntries fields

theorem mapDocuments_append (maps more : List Entries) :
    mapDocuments (maps ++ more) = mapDocuments maps ++ mapDocuments more := by
  induction maps with
  | nil => rfl
  | cons es maps ih => rw [List.cons_append, mapDocuments, ih, mapDocuments, List.cons_append]

section Sections

variable {depth : Nat} (ih : ∀ fields, Sectioned depth fields → ReadsSection size depth fields)
  (hctx : ∀ g ∈ ctx, g.Fresh) (hdepth : ctx.length + depth < nestingLimit)

include ih hctx hdepth

/-- The sections of the maps of a list, which come after those that are there. -/
theorem reaches_items {items : List (List (String × Document))} {es : Entries} {name : String}
    {earlier : List Entries} (hitems : ∀ fields ∈ items, Sectioned depth fields)
    (hname : name ∉ es.map (·.1)) (ho : o.close = some (fill ctx (Frame.base ⟨es, name, some earlier⟩)))
    (rest : List Char) : ∃ o' maps,
      Reaches size o (itemSections ((namesOf ctx ++ [name]).map nameText) (items.map .record) ++ rest)
        o' rest ∧
      o'.close = some (fill ctx (Frame.base ⟨es, name, some (maps ++ earlier)⟩)) ∧
      mapDocuments maps = (items.map fun fields => .map (readEntries fields)).reverse := by
  induction items generalizing o earlier with
  | nil => exact ⟨o, [], .refl size o rest, ho, rfl⟩
  | cons fields items ih' =>
    obtain ⟨hfields, hitems⟩ := List.forall_mem_cons.mp hitems
    let f : Frame := ⟨es, name, some earlier⟩
    let others := itemSections ((namesOf ctx ++ [name]).map nameText) (items.map .record)
    obtain ⟨o₁, last, hreaches, hclose, hlast⟩ :=
      ih fields hfields hctx (f := f) hname hdepth ho (others ++ rest)
    rw [fill_concat] at hclose
    have hbase : o₁.close = some (fill ctx (Frame.base ⟨es, name, some (last :: earlier)⟩)) := hclose
    obtain ⟨o₂, maps, hreaches', hclose', hmaps⟩ := ih' hitems hbase
    refine ⟨o₂, maps ++ [last], ?_, ?_, ?_⟩
    · have hchars : itemSections ((namesOf ctx ++ [name]).map nameText)
          ((fields :: items).map .record) ++ rest = f.headerText (namesOf ctx) ++
            plainLines (entriesOf fields) ++
            sections ((namesOf ctx ++ [f.name]).map nameText) (entriesOf fields) ++
            (others ++ rest) := by
        rw [← List.append_assoc]
        rfl
      rw [hchars]
      exact hreaches.trans hreaches'
    · rw [List.append_assoc]
      exact hclose'
    · rw [mapDocuments_append, hmaps, mapDocuments, mapDocuments, hlast, List.map_cons,
        List.reverse_cons]

/-- **The sections of a value are read as the value.** -/
theorem reaches_part {es : Entries} {name : String} {d : Document} (hd : Part (Sectioned depth) d)
    (hname : name ∉ es.map (·.1)) (ho : o.close = some (fill ctx es)) (rest : List Char) :
    ∃ o' node, Reaches size o
        (valueSection ((namesOf ctx ++ [name]).map nameText) d ++ rest) o' rest ∧
      o'.close = some (fill ctx (es ++ [(name, node)])) ∧
      node.toDocument = d.renumber renumbering := by
  rcases hd with ⟨fields, rfl, hfields⟩ | ⟨items, hne, rfl, hitems⟩
  · let f : Frame := ⟨es, name, none⟩
    obtain ⟨o', es', hreaches, hclose, hes⟩ := ih fields hfields hctx (f := f) hname hdepth ho rest
    rw [fill_concat] at hclose
    refine ⟨o', .map .own es', ?_, hclose, ?_⟩
    · have hchars : valueSection ((namesOf ctx ++ [name]).map nameText) (.record fields) =
          f.headerText (namesOf ctx) ++ plainLines (entriesOf fields) ++
            sections ((namesOf ctx ++ [f.name]).map nameText) (entriesOf fields) := by
        show header _ (entriesOf fields) ++ _ ++ _ = _
        rw [header_of_sectioned hfields]
        rfl
      rw [hchars]
      exact hreaches
    · rw [Node.toDocument, hes, renumber_record_eq]
  · have hbase : o.close = some (fill ctx (Frame.base ⟨es, name, some []⟩)) := ho
    obtain ⟨o', maps, hreaches, hclose, hmaps⟩ := reaches_items ih hctx hdepth hitems hname hbase rest
    have hlist : (Document.list (items.map .record)).renumber renumbering =
        .list (mapDocuments maps).reverse := by
      rw [hmaps, List.reverse_reverse, Document.renumber_list, List.map_map]
      exact congrArg _ (List.map_congr_left fun fields _ => renumber_record_eq fields)
    cases maps with
    | nil =>
      rw [mapDocuments] at hmaps
      exact absurd (List.map_eq_nil_iff.mp (List.reverse_eq_nil_iff.mp hmaps.symm)) hne
    | cons last earlier =>
      rw [List.append_nil] at hclose
      refine ⟨o', .maps last earlier, ?_, hclose, ?_⟩
      · have hchars : valueSection ((namesOf ctx ++ [name]).map nameText)
            (.list (items.map .record)) =
              itemSections ((namesOf ctx ++ [name]).map nameText) (items.map .record) :=
          if_pos (hasSections_of_part (.inr ⟨items, hne, rfl, hitems⟩))
        rw [hchars]
        exact hreaches
      · rw [Node.toDocument, hlist, mapDocuments, List.reverse_cons]

/-- **The sections below a map are read one after the other.** -/
theorem reaches_sections {more : List (String × Document)} {es : Entries}
    (hmore : ∀ f ∈ more, Part (Sectioned depth) f.2) (ho : o.close = some (fill ctx es))
    (hnames : (es.map (·.1) ++ more.map (·.1)).Nodup) (rest : List Char) : ∃ o' es',
      Reaches size o (sections ((namesOf ctx).map nameText) (entriesOf more) ++ rest) o' rest ∧
      o'.close = some (fill ctx (es ++ es')) ∧ entryDocuments es' = readEntries more := by
  induction more generalizing o es with
  | nil =>
    rw [← List.append_nil es] at ho
    exact ⟨o, [], .refl size o rest, ho, rfl⟩
  | cons f more ih' =>
    obtain ⟨hf, hmore⟩ := List.forall_mem_cons.mp hmore
    have hname : f.1 ∉ es.map (·.1) := fun h =>
      (List.nodup_append.mp hnames).2.2 _ h _ List.mem_cons_self rfl
    obtain ⟨o₁, node, hreaches, hclose, hnode⟩ := reaches_part ih hctx hdepth hf hname ho
      (sections ((namesOf ctx).map nameText) (entriesOf more) ++ rest)
    have hmoved : (es ++ [(f.1, node)]).map (·.1) ++ more.map (·.1) =
        es.map (·.1) ++ (f :: more).map (·.1) := by
      simp
    obtain ⟨o₂, es', hreaches', hclose', hes⟩ := ih' hmore hclose (hmoved ▸ hnames)
    refine ⟨o₂, (f.1, node) :: es', ?_, ?_, ?_⟩
    · have hchars : sections ((namesOf ctx).map nameText) (entriesOf (f :: more)) ++ rest =
          valueSection ((namesOf ctx ++ [f.1]).map nameText) f.2 ++
            (sections ((namesOf ctx).map nameText) (entriesOf more) ++ rest) := by
        rw [List.map_append, ← List.append_assoc]
        rfl
      rw [hchars]
      exact hreaches.trans hreaches'
    · rw [List.append_cons]
      exact hclose'
    · rw [entryDocuments, hnode, hes]
      rfl

/-- The lines of a map and the sections below it are read as the map, from where its lines begin. -/
theorem reaches_body {fields : List (String × Document)} (h : Sectioned (depth + 1) fields)
    (hstart : o.current = []) (ho : ∀ es, { o with current := es }.close = some (fill ctx es))
    (rest : List Char) : ∃ o' es,
      Reaches size o (plainLines (entriesOf fields) ++
        (sections ((namesOf ctx).map nameText) (entriesOf fields) ++ rest)) o' rest ∧
      o'.close = some (fill ctx es) ∧ entryDocuments es = readEntries fields := by
  obtain ⟨plain, more, rfl, hplain, hmore, -⟩ := h.layers
  have hplainest : ∀ g ∈ plain, hasSections g.2 = false := fun g hg => (hplain g hg).1
  have hsections : ∀ g ∈ more, hasSections g.2 = true := fun g hg =>
    hasSections_of_part (hmore g hg)
  have hnodup : (plain.map (·.1) ++ more.map (·.1)).Nodup := List.map_append ▸ h.nodup
  have hempty : (o.current.map (·.1) ++ plain.map (·.1)).Nodup := by
    rw [hstart]
    exact hnodup.of_append_left
  have hlines : Reaches size o _ { o with current := o.current ++ nodes plain } _ :=
    reaches_fieldLines (fun g hg => (hplain g hg).2) hempty
      (sections ((namesOf ctx).map nameText) (entriesOf more) ++ rest)
  rw [hstart, List.nil_append] at hlines
  have hnames : ((nodes plain).map (·.1) ++ more.map (·.1)).Nodup := by
    rw [nodes, List.map_map]
    exact hnodup
  obtain ⟨o', es, hreaches, hclose, hes⟩ :=
    reaches_sections ih hctx hdepth hmore (ho (nodes plain)) hnames rest
  refine ⟨o', nodes plain ++ es, ?_, hclose, ?_⟩
  · rw [plainLines_entriesOf hplainest hsections, sections_entriesOf _ hplainest]
    exact hlines.trans hreaches
  · rw [entryDocuments_append, entryDocuments_nodes, hes, readEntries, readEntries, List.map_append]

end Sections

/-- **A map is read from its section.** -/
theorem readsSection_of_sectioned (depth : Nat) (fields : List (String × Document))
    (h : Sectioned depth fields) : ReadsSection size depth fields := by
  induction depth generalizing fields with
  | zero => exact h.elim
  | succ depth ih =>
    intro ctx f o hctx hf hdepth ho rest
    have hall : ∀ g ∈ ctx ++ [f], g.Fresh := by
      intro g hg
      rcases List.mem_append.mp hg with hg | hg
      · exact hctx g hg
      · exact List.mem_singleton.mp hg ▸ hf
    have hbelow : (ctx ++ [f]).length + depth < nestingLimit := by
      rw [List.length_append, List.length_singleton]
      omega
    obtain ⟨o', es, hreaches, hclose, hes⟩ :=
      reaches_body (o := opened ctx f []) ih hall hbelow h rfl (close_opened hctx hf) rest
    have hpath : namesOf (ctx ++ [f]) = namesOf ctx ++ [f.name] := List.map_append
    rw [hpath] at hreaches
    refine ⟨o', es, ?_, hclose, hes⟩
    rw [List.append_assoc, List.append_assoc]
    exact (reaches_header hctx hf (by omega) ho _).trans hreaches

/-! ## Documents -/

/-- The text of a document. -/
def documentText (fields : List (String × Document)) : List Char :=
  plainLines (entriesOf fields) ++ sections [] (entriesOf fields)

/-- The text of a document is empty or starts with a name. -/
theorem documentText_start {depth : Nat} {fields : List (String × Document)}
    (h : Sectioned depth fields) : documentText fields = [] ∨
      ∃ c more, documentText fields = c :: more ∧ (isBareKey c = true ∨ c = '"') := by
  cases depth with
  | zero => exact h.elim
  | succ depth =>
    obtain ⟨plain, more, rfl, hplain, hmore, hfirst⟩ := h.layers
    cases plain with
    | nil =>
      rw [hfirst rfl]
      exact .inl rfl
    | cons f plain =>
      right
      obtain ⟨c, tail, hname, hc⟩ := nameText_eq_cons f.1
      rw [documentText, plainLines_entriesOf (fun g hg => (hplain g hg).1) fun g hg =>
        hasSections_of_part (hmore g hg), fieldLines, List.flatMap_cons, fieldText, hname]
      exact ⟨c, _, rfl, hc⟩

/-- The text of a document has no mark of byte order. -/
theorem skipMark_documentText {depth : Nat} {fields : List (String × Document)}
    (h : Sectioned depth fields) : skipMark (documentText fields) = documentText fields := by
  rcases documentText_start h with hempty | ⟨c, more, htext, hc⟩
  · rw [hempty]
    rfl
  · rw [htext]
    refine skipMark.eq_2 _ fun _ heq => ?_
    rw [(List.cons.inj heq).1] at hc
    exact absurd hc (by decide)

/-- **The text of a document in sections is read as the document.** -/
theorem read?_documentText {depth : Nat} {fields : List (String × Document)}
    (h : Sectioned depth fields) (hdepth : depth ≤ nestingLimit) :
    read? (documentText fields) = some ((Document.record fields).renumber renumbering) := by
  cases depth with
  | zero => exact h.elim
  | succ depth =>
    generalize hsize : (documentText fields).length + 1 = size
    have hread : read? (documentText fields) =
        (lines? size .empty size (documentText fields)).bind Outline.toDocument? := by
      rw [read?, skipMark_documentText h, hsize]
      rfl
    have hnone : ∀ g ∈ ([] : List Frame), g.Fresh := by simp
    have hroot : ([] : List Frame).length + depth < nestingLimit := by
      rw [List.length_nil]
      omega
    have hreads : ∀ fields, Sectioned depth fields → ReadsSection size depth fields :=
      readsSection_of_sectioned depth
    obtain ⟨o', es, hreaches, hclose, hes⟩ :=
      reaches_body (o := .empty) hreads hnone hroot h rfl (fun _ => rfl) []
    have hchars : plainLines (entriesOf fields) ++
        (sections (([] : List String).map nameText) (entriesOf fields) ++ []) = documentText fields := by
      rw [List.append_nil]
      rfl
    rw [namesOf, List.map_nil, hchars] at hreaches
    obtain ⟨count, hcount, hlast⟩ := hreaches.lines (by omega) size (by omega)
    obtain ⟨count, rfl⟩ : ∃ k, count = k + 1 := ⟨count - 1, by rw [List.length_nil] at hcount; omega⟩
    rw [hread, hlast]
    show o'.toDocument? = _
    rw [Outline.toDocument?, hclose, renumber_record_eq, ← hes]
    rfl

end StepSignal.Toml
