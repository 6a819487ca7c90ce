import StepSignal.Json.Reader
import StepSignal.Proofs.Json.Token

/-!
# JSON reads back what it wrote

The words of a document that was written put the document, with its numbers as they are read, where
a value belongs. `run` goes on from some progress through the words of some characters, and each part
of a document takes it from one state to the next: a word in one step, and what stands between
brackets item by item.
-/

namespace StepSignal.Json

open Document (Plain)

variable {p : Progress} {stack : List Frame} {c : Char} {cs : List Char} {rest : List Glyph}
  {style : Style} {depth : Nat}

/-! ## Going on through characters -/

/-- The progress after the words of some characters. -/
def run (p : Progress) (glyphs : List Glyph) : Option Progress :=
  (tokens? glyphs).bind fun tokens => tokens.foldlM step p

theorem run_nil (p : Progress) : run p [] = some p := by
  rw [run, tokens?]
  rfl

theorem run_token {t : Token} {after : List Glyph} (hblank : isBlank c = false)
    (h : token? c rest = some (t, after)) :
    run p (some c :: rest) = (step p t).bind fun q => run q after := by
  have htokens : tokens? (some c :: rest) = (tokens? after).map (t :: ·) := by
    rw [tokens?.eq_3, hblank, if_neg (by decide)]
    split <;> rename_i heq <;> rw [h] at heq
    · cases heq
    · obtain ⟨rfl, rfl⟩ := Prod.mk.inj (Option.some.inj heq)
      rfl
  rw [run, htokens]
  rcases htail : tokens? after with - | tokens
  · simp [run, htail]
  · simp only [run, htail, Option.map_some, Option.bind_some, List.foldlM_cons]
    rfl

theorem run_word {t : Token} (hword : IsWord cs t) (hrest : EndsNumber rest) :
    run p (cs.map some ++ rest) = (step p t).bind fun q => run q rest := by
  obtain ⟨c, more, rfl, hblank, htoken⟩ := hword
  exact run_token hblank (htoken rest hrest)

/-- Blanks change nothing. -/
theorem run_blanks (hcs : ∀ c ∈ cs, isBlank c = true) (rest : List Glyph) :
    run p (cs.map some ++ rest) = run p rest := by
  induction cs with
  | nil => rfl
  | cons c cs ih =>
    obtain ⟨hc, hcs⟩ := List.forall_mem_cons.mp hcs
    rw [List.map_cons, List.cons_append, ← ih hcs, run, tokens?.eq_3, if_pos hc]
    rfl

/-- Blanks and then a separator or a closing bracket end a number. -/
theorem endsNumber_blanks (hcs : ∀ c ∈ cs, isBlank c = true) (hc : c ∈ [',', ']', '\x7d'])
    (rest : List Glyph) : EndsNumber (cs.map some ++ some c :: rest) := by
  intro g hg
  cases cs with
  | nil => exact ⟨c, (Option.some.inj hg).symm, .inr hc⟩
  | cons b bs => exact ⟨b, (Option.some.inj hg).symm, .inl (hcs b List.mem_cons_self)⟩

/-! ## Between brackets -/

/-- A style sets parts apart by blanks and a colon. -/
structure Style.IsBlank (style : Style) : Prop where
  lineStart : ∀ depth, ∀ c ∈ style.lineStart depth, isBlank c = true
  colon : ∃ blanks, style.colon = ':' :: blanks ∧ ∀ c ∈ blanks, isBlank c = true

theorem isBlank_indented : indented.IsBlank where
  lineStart depth c hc := by
    rcases List.mem_cons.mp hc with rfl | hc
    · rfl
    · obtain ⟨-, rfl⟩ := List.mem_replicate.mp hc
      rfl
  colon := ⟨[' '], rfl, by simp [isBlank]⟩

/-- The parts between brackets, as the reader collects them: how the frame of the parts so far looks,
last part first, and what is expected before a first part and before any other. -/
structure Bracketed (β : Type) where
  frame : List β → Frame
  first : Expect
  next : Expect
  opening : Char
  closing : Char
  done : List β → Document

/-- What the reader does with brackets: it opens a frame, goes on behind a comma, and puts the parts
in their place at the end. -/
structure Bracketed.Lawful {β : Type} (b : Bracketed β) : Prop where
  isBlank_opening : isBlank b.opening = false
  isBlank_closing : isBlank b.closing = false
  closing_mem : b.closing ∈ [',', ']', '\x7d']
  opens : ∀ rest, ∃ t, token? b.opening rest = some (t, rest) ∧
    ∀ stack, startValue stack t = some ⟨b.first, b.frame [] :: stack, none⟩ ∧ t ≠ .closeList
  goesOn : ∀ stack parts, afterValue (b.frame parts :: stack) .comma =
    some ⟨b.next, b.frame parts :: stack, none⟩
  closes : ∀ rest, ∃ t, token? b.closing rest = some (t, rest) ∧
    (∀ stack, step ⟨b.first, b.frame [] :: stack, none⟩ t = place stack (b.done [])) ∧
    ∀ stack parts, afterValue (b.frame parts :: stack) t = place stack (b.done parts.reverse)

section Bracketed

variable {β : Type} {b : Bracketed β} {text : β → List Char} {xs : List β} {e : Expect}

/-- Whether the text of a part is read as the part, where `e` is expected. -/
def Bracketed.Reads (b : Bracketed β) (text : β → List Char) (e : Expect) (x : β) : Prop :=
  ∀ stack parts rest, EndsNumber rest →
    run ⟨e, b.frame parts :: stack, none⟩ ((text x).map some ++ rest) =
      run ⟨.separator, b.frame (x :: parts) :: stack, none⟩ rest

/-- What comes behind a part: the parts that follow, each after a comma, and the closing bracket. -/
def Bracketed.remainder (b : Bracketed β) (style : Style) (depth : Nat) (text : β → List Char)
    (xs : List β) (rest : List Glyph) : List Glyph :=
  (xs.flatMap fun x => ',' :: style.lineStart (depth + 1) ++ text x).map some ++
    ((style.lineStart depth).map some ++ some b.closing :: rest)

theorem Bracketed.remainder_cons (b : Bracketed β) (x : β) (xs : List β) (rest : List Glyph) :
    b.remainder style depth text (x :: xs) rest =
      some ',' :: ((style.lineStart (depth + 1)).map some ++ ((text x).map some ++
        b.remainder style depth text xs rest)) := by
  simp [remainder]

theorem Bracketed.Lawful.endsNumber_remainder (hb : b.Lawful) (hstyle : style.IsBlank)
    (rest : List Glyph) : EndsNumber (b.remainder style depth text xs rest) := by
  cases xs with
  | nil => exact endsNumber_blanks (hstyle.lineStart depth) hb.closing_mem rest
  | cons x xs =>
    rw [b.remainder_cons]
    exact fun g hg => ⟨',', (Option.some.inj hg).symm, .inr (by decide)⟩

/-- The parts behind the first one, up to the closing bracket. -/
theorem Bracketed.Lawful.run_remainder (hb : b.Lawful) (hstyle : style.IsBlank)
    (hxs : ∀ x ∈ xs, b.Reads text b.next x) (parts : List β) :
    run ⟨.separator, b.frame parts :: stack, none⟩ (b.remainder style depth text xs rest) =
      (place stack (b.done (parts.reverse ++ xs))).bind fun q => run q rest := by
  induction xs generalizing parts with
  | nil =>
    obtain ⟨t, htoken, -, hclose⟩ := hb.closes rest
    show run _ ((style.lineStart depth).map some ++ some b.closing :: rest) = _
    rw [run_blanks (hstyle.lineStart depth), run_token hb.isBlank_closing htoken, List.append_nil,
      ← hclose]
    rfl
  | cons x xs ih =>
    obtain ⟨hx, hxs⟩ := List.forall_mem_cons.mp hxs
    have hcomma : step ⟨.separator, b.frame parts :: stack, none⟩ .comma =
        some ⟨b.next, b.frame parts :: stack, none⟩ := hb.goesOn stack parts
    rw [b.remainder_cons, run_token (t := .comma) rfl rfl, hcomma, Option.bind_some,
      run_blanks (hstyle.lineStart (depth + 1)), hx _ _ _ (hb.endsNumber_remainder hstyle rest),
      ih hxs, List.reverse_cons, List.append_assoc, List.singleton_append]

/-- **Everything between brackets.** -/
theorem Bracketed.Lawful.run_enclose (hb : b.Lawful) (hstyle : style.IsBlank)
    (hxs : ∀ x ∈ xs, ∀ e, e = b.first ∨ e = b.next → b.Reads text e x)
    (he : e = .value ∨ e = .firstItem) :
    run ⟨e, stack, none⟩ ((enclose style depth b.opening b.closing (xs.map text)).map some ++ rest) =
      (place stack (b.done xs)).bind fun q => run q rest := by
  have hstart : ∀ glyphs, run ⟨e, stack, none⟩ (some b.opening :: glyphs) =
      run ⟨b.first, b.frame [] :: stack, none⟩ glyphs := by
    intro glyphs
    obtain ⟨t, htoken, hopen⟩ := hb.opens glyphs
    obtain ⟨hvalue, hlist⟩ := hopen stack
    have hstep : step ⟨e, stack, none⟩ t = startValue stack t := by
      rcases he with rfl | rfl
      · rfl
      · cases t <;> first | rfl | exact absurd rfl hlist
    rw [run_token hb.isBlank_opening htoken, hstep, hvalue, Option.bind_some]
  cases xs with
  | nil =>
    obtain ⟨t, htoken, hempty, -⟩ := hb.closes rest
    show run _ (some b.opening :: some b.closing :: rest) = _
    rw [hstart, run_token hb.isBlank_closing htoken, hempty]
  | cons x xs =>
    obtain ⟨hx, hxs⟩ := List.forall_mem_cons.mp hxs
    have htext : (enclose style depth b.opening b.closing ((x :: xs).map text)).map some ++ rest =
        some b.opening :: ((style.lineStart (depth + 1)).map some ++ ((text x).map some ++
          b.remainder style depth text xs rest)) := by
      simp [enclose, List.flatMap_map, remainder]
    rw [htext, hstart, run_blanks (hstyle.lineStart (depth + 1)),
      hx _ (.inl rfl) _ _ _ (hb.endsNumber_remainder hstyle rest),
      hb.run_remainder hstyle fun y hy => hxs y hy _ (.inr rfl)]
    rfl

end Bracketed

/-! ## Documents -/

/-- The items of a list. -/
def listParts : Bracketed Document where
  frame items := .list (items.map (·.renumber renumbering))
  first := .firstItem
  next := .value
  opening := '['
  closing := ']'
  done items := .list (items.map (·.renumber renumbering))

theorem lawful_listParts : listParts.Lawful where
  isBlank_opening := rfl
  isBlank_closing := rfl
  closing_mem := by decide
  opens rest := ⟨.openList, rfl, fun _ => ⟨rfl, by simp⟩⟩
  goesOn _ _ := rfl
  closes rest := ⟨.closeList, rfl, fun _ => rfl, fun stack items => by
    show place stack (.list (items.map _).reverse) = place stack (.list (items.reverse.map _))
    rw [List.map_reverse]⟩

/-- The fields of a record. -/
def recordParts : Bracketed (String × Document) where
  frame fields := .map (fields.map fun f => (.text f.1, f.2.renumber renumbering))
  first := .firstKey
  next := .key
  opening := '\x7b'
  closing := '\x7d'
  done fields := .record (fields.map fun f => (f.1, f.2.renumber renumbering))

theorem lawful_recordParts : recordParts.Lawful where
  isBlank_opening := rfl
  isBlank_closing := rfl
  closing_mem := by decide
  opens rest := ⟨.openMap, rfl, fun _ => ⟨rfl, by simp⟩⟩
  goesOn _ _ := rfl
  closes rest := ⟨.closeMap, rfl, fun _ => rfl, fun stack fields => by
    show place stack (.map (fields.map _).reverse) =
      place stack (.map ((fields.reverse.map _).map _))
    rw [List.map_map, List.map_reverse]
    rfl⟩

theorem writeItems_eq_map (style : Style) (depth : Nat) (items : List Document) :
    writeItems style depth items = items.map (write style depth) := by
  induction items with
  | nil => rfl
  | cons d items ih => rw [writeItems, ih, List.map_cons]

/-- The text of a field. -/
def fieldText (style : Style) (depth : Nat) (f : String × Document) : List Char :=
  quote f.1 ++ style.colon ++ write style depth f.2

theorem write_record (style : Style) (depth : Nat) (fields : List (String × Document)) :
    write style depth (.record fields) =
      enclose style depth '\x7b' '\x7d' (fields.map (fieldText style (depth + 1))) := by
  rw [Document.record, write]
  congr 1
  induction fields with
  | nil => rfl
  | cons f fields ih => rw [List.map_cons, writeEntries, ih, List.map_cons, write]; rfl

/-- A word that is a value is put where a value belongs. -/
theorem run_value {d : Document} {t : Token} (ht : t = .value d ∨ t = .quoted d)
    (hword : IsWord cs t) {e : Expect} (he : e = .value ∨ e = .firstItem)
    (hrest : EndsNumber rest) : run ⟨e, stack, none⟩ (cs.map some ++ rest) =
      (place stack d).bind fun q => run q rest := by
  have hstep : step ⟨e, stack, none⟩ t = place stack d := by
    rcases ht with rfl | rfl <;> rcases he with rfl | rfl <;> rfl
  rw [run_word hword hrest, hstep]

/-- The name of a field and the colon behind it. -/
theorem run_name (hstyle : style.IsBlank) (name : String) {e : Expect}
    (he : e = .firstKey ∨ e = .key) (parts : List (String × Document)) (rest : List Glyph) :
    run ⟨e, recordParts.frame parts :: stack, none⟩
        ((quote name ++ style.colon).map some ++ rest) =
      run ⟨.value, .entry (parts.map fun f => (.text f.1, f.2.renumber renumbering))
        (.text name) :: stack, none⟩ rest := by
  obtain ⟨blanks, hcolon, hblanks⟩ := hstyle.colon
  obtain ⟨more, hquote, htoken⟩ := token?_quote name (style.colon.map some ++ rest)
  have hstep : step ⟨e, recordParts.frame parts :: stack, none⟩ (.quoted (.text name)) =
      some ⟨.colon, .entry (parts.map fun f => (.text f.1, f.2.renumber renumbering))
        (.text name) :: stack, none⟩ := by
    rcases he with rfl | rfl <;> rfl
  rw [hquote, List.map_append, List.append_assoc, List.map_cons, List.cons_append,
    run_token rfl htoken, hstep, Option.bind_some, hcolon, List.map_cons, List.cons_append,
    run_token (t := .colon) rfl rfl]
  exact run_blanks hblanks rest

/-- **What was written is read back**, with its numbers as they are read. -/
theorem run_write {d : Document} (hstyle : style.IsBlank) (hd : Plain d) {e : Expect}
    (he : e = .value ∨ e = .firstItem) (hrest : EndsNumber rest) :
    run ⟨e, stack, none⟩ ((write style depth d).map some ++ rest) =
      (place stack (d.renumber renumbering)).bind fun q => run q rest := by
  induction hd generalizing e stack rest depth with
  | null => exact run_value (.inl (by rw [Document.renumber_null])) isWord_null he hrest
  | bool b => exact run_value (.inl (by rw [Document.renumber_bool])) (isWord_bool b) he hrest
  | natural n =>
    exact run_value (.inl (by rw [Document.renumber_natural])) (isWord_natural n) he hrest
  | integer n =>
    exact run_value (.inl (by rw [Document.renumber])) (isWord_integer n) he hrest
  | float x => exact run_value (.inl (by rw [Document.renumber_float])) (isWord_number x) he hrest
  | text s => exact run_value (.inr (by rw [Document.renumber_text])) (isWord_quote s) he hrest
  | @list items _ ih =>
    have hitems : ∀ d ∈ items, ∀ e, e = listParts.first ∨ e = listParts.next →
        listParts.Reads (write style (depth + 1)) e d := by
      intro d hd e he stack parts rest hrest
      exact ih d hd (he.symm) hrest
    rw [write, writeItems_eq_map, Document.renumber_list]
    exact lawful_listParts.run_enclose hstyle hitems he
  | @record fields _ ih =>
    have hfields : ∀ f ∈ fields, ∀ e, e = recordParts.first ∨ e = recordParts.next →
        recordParts.Reads (fieldText style (depth + 1)) e f := by
      intro f hf e he stack parts rest hrest
      rw [fieldText, List.map_append, List.append_assoc, run_name hstyle f.1 he,
        ih f hf (.inl rfl) hrest]
      rfl
    rw [write_record, Document.renumber_record]
    exact lawful_recordParts.run_enclose hstyle hfields he

/-- **The text of a document is read as the document.** -/
theorem read?_write {d : Document} (hd : Plain d) :
    read? ((write indented 0 d).map some) = some (d.renumber renumbering) := by
  have hrun : run .start ((write indented 0 d).map some ++ []) = _ :=
    run_write isBlank_indented hd (.inl rfl) fun _ h => (nomatch h)
  rw [List.append_nil, place, Option.bind_some, run_nil, run, Option.bind_eq_some_iff] at hrun
  obtain ⟨tokens, htokens, hsteps⟩ := hrun
  rw [read?, htokens]
  show (tokens.foldlM step .start).bind _ = _
  rw [hsteps]
  rfl

end StepSignal.Json
