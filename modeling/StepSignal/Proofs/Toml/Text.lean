import Mathlib
import StepSignal.Toml.Reader
import StepSignal.Toml.Writer

/-!
# Texts in quotes are read as they were written

A text is written in the quotes that need the fewest escapes. Whichever they are, it is read back: what
would end it early or could not stand in it was escaped, and quotes without escapes are only used for
texts that hold nothing of the kind.

A few quotes may stand in a text of several lines, and up to two of them right before the three that
close it.
-/

namespace StepSignal.Toml

variable {c : Char} {text rest : List Char} {multiline : Bool} {run : Nat}

/-! ## Escapes -/

/-- The characters that are written by their number. -/
theorem hexChar?_control (hc : isControl c = true) :
    hexChar? ['0', '0', hexDigit (c.toNat / 16), hexDigit (c.toNat % 16)] = some c := by
  have hsmall : c.toNat ∈ List.range 0x20 ++ [0x7F] := by
    simp only [isControl, Bool.or_eq_true, Bool.and_eq_true, decide_eq_true_eq] at hc
    simp only [List.mem_append, List.mem_range, List.mem_singleton]
    exact hc.imp (fun h => h.1.1) id
  have hall : ∀ n ∈ List.range 0x20 ++ [0x7F],
      hexChar? ['0', '0', hexDigit (n / 16), hexDigit (n % 16)] = some (Char.ofNat n) := by
    decide
  rw [hall _ hsmall, Char.ofNat_toNat]

/-- An escape is a letter that stands for the character, or the number of the character. -/
theorem escape_cases (hc : c = '"' ∨ needsEscape multiline c = true) :
    (∃ e, escape c = ['\\', e] ∧ simpleEscape? e = some c ∧
      e ∉ ['u', 'U', ' ', '\t', '\r', '\n']) ∨
    (∃ h l, escape c = ['\\', 'u', '0', '0', h, l] ∧ hexChar? ['0', '0', h, l] = some c) := by
  unfold escape
  split
  · exact .inl ⟨'b', rfl, rfl, by decide⟩
  · exact .inl ⟨'t', rfl, rfl, by decide⟩
  · exact .inl ⟨'n', rfl, rfl, by decide⟩
  · exact .inl ⟨'f', rfl, rfl, by decide⟩
  · exact .inl ⟨'r', rfl, rfl, by decide⟩
  · exact .inl ⟨'"', rfl, rfl, by decide⟩
  · exact .inl ⟨'\\', rfl, rfl, by decide⟩
  · rename_i _ htab hline _ _ hquote hslash
    have hcontrol : isControl c = true := by
      rcases hc with hc | hc
      · exact absurd hc hquote
      · simp only [needsEscape, decide_eq_false htab, decide_eq_false hslash, decide_eq_false hline,
          Bool.false_or, Bool.false_and, Bool.or_false] at hc
        exact hc
    exact .inr ⟨_, _, rfl, hexChar?_control hcontrol⟩

theorem escape_eq_cons (c : Char) : ∃ more, escape c = '\\' :: more := by
  unfold escape
  split <;> exact ⟨_, rfl⟩

/-- What is not escaped can stand in a text as it is. -/
theorem isPrintable_of_isControl (hcontrol : isControl c = false) (hline : c ≠ '\n') :
    isPrintable c = true := by
  simp only [isControl, Bool.or_eq_false_iff, Bool.and_eq_false_iff, decide_eq_false_iff_not] at hcontrol
  simp only [isPrintable, Bool.or_eq_true, Bool.and_eq_true, decide_eq_true_eq]
  obtain ⟨(hlow | htab) | hbreak, hdelete⟩ := hcontrol
  · exact .inr ⟨by omega, hdelete⟩
  · exact .inl (not_not.mp htab)
  · exact absurd (not_not.mp hbreak) hline

theorem needsEscape_eq_false (hc : needsEscape multiline c = false) :
    c ≠ '\t' ∧ c ≠ '\\' ∧ isControl c = false ∧ (multiline = false → c ≠ '\n') := by
  simp only [needsEscape, Bool.or_eq_false_iff, decide_eq_false_iff_not, Bool.and_eq_false_iff,
    Bool.not_eq_false'] at hc
  obtain ⟨⟨⟨htab, hslash⟩, hcontrol⟩, hline⟩ := hc
  exact ⟨htab, hslash, hcontrol, fun h => hline.resolve_right (by simp [h])⟩

/-! ## Between double quotes -/

/-- An escaped character is read as the character. -/
theorem basic?_escape (hc : c = '"' ∨ needsEscape multiline c = true) (rest : List Char) :
    basic? (escape c ++ rest) = (basic? rest).map (prepend c) := by
  rcases escape_cases hc with ⟨e, hescape, he, hmem⟩ | ⟨h, l, hescape, hhex⟩
  · simp only [List.mem_cons, not_or] at hmem
    rw [hescape]
    show basic? ('\\' :: e :: rest) = _
    rw [basic?.eq_5 e rest (fun _ _ _ _ _ h => absurd h hmem.1)
      (fun _ _ _ _ _ _ _ _ _ h => absurd h hmem.2.1), he]
    rfl
  · rw [hescape]
    show basic? ('\\' :: 'u' :: '0' :: '0' :: h :: l :: rest) = _
    rw [basic?, hhex]
    rfl

/-- Any other character is read as itself. -/
theorem basic?_plain (hquote : c ≠ '"') (hc : needsEscape false c = false) (rest : List Char) :
    basic? (c :: rest) = (basic? rest).map (prepend c) := by
  obtain ⟨-, hslash, hcontrol, hline⟩ := needsEscape_eq_false hc
  rw [basic?.eq_6 c rest hquote (fun _ _ _ _ _ h => absurd h hslash)
    (fun _ _ _ _ _ _ _ _ _ h => absurd h hslash) (fun _ _ h => absurd h hslash),
    isPrintable_of_isControl hcontrol (hline rfl), decide_eq_true hslash]
  rfl

theorem escapeText_cons_escaped (hc : c = '"' ∨ needsEscape false c = true) (text : List Char) :
    escapeText false run (c :: text) = escape c ++ escapeText false 0 text := by
  rw [escapeText]
  by_cases hquote : c = '"'
  · rw [if_pos hquote]
    exact if_neg (Nat.not_lt_zero run)
  · rw [if_neg hquote, if_pos (hc.resolve_left hquote)]

/-- A text that is written starts with its first character or with an escape, a quote only where it may
be left as it is. -/
theorem escapeText_cons_cases (multiline : Bool) (run : Nat) (c : Char) (text : List Char) :
    ∃ more, escapeText multiline run (c :: text) = '\\' :: more ∨
      escapeText multiline run (c :: text) = c :: more ∧ needsEscape multiline c = false ∧
        (c = '"' → multiline = true ∧ run < 2) := by
  obtain ⟨tail, hescape⟩ := escape_eq_cons c
  rw [escapeText, hescape]
  by_cases hquote : c = '"'
  · subst hquote
    rw [if_pos rfl]
    cases multiline with
    | false => exact ⟨_, .inl (if_neg (Nat.not_lt_zero run))⟩
    | true =>
      by_cases hrun : run < 2
      · exact ⟨_, .inr ⟨if_pos hrun, rfl, fun _ => ⟨rfl, hrun⟩⟩⟩
      · exact ⟨_, .inl (if_neg hrun)⟩
  · rw [if_neg hquote]
    by_cases hneeds : needsEscape multiline c = true
    · exact ⟨_, .inl (if_pos hneeds)⟩
    · exact ⟨_, .inr ⟨if_neg hneeds, Bool.eq_false_iff.mpr hneeds, fun h => absurd h hquote⟩⟩

theorem escapeText_cons_plain (hquote : c ≠ '"') (hc : needsEscape multiline c = false)
    (text : List Char) :
    escapeText multiline run (c :: text) = c :: escapeText multiline 0 text := by
  rw [escapeText, if_neg hquote, if_neg (by simp [hc])]

/-- **A text between double quotes is read up to the closing one.** -/
theorem basic?_escapeText (text rest : List Char) (run : Nat) :
    basic? (escapeText false run text ++ '"' :: rest) = some (text, rest) := by
  induction text generalizing run with
  | nil => rfl
  | cons c text ih =>
    by_cases hc : c = '"' ∨ needsEscape false c = true
    · rw [escapeText_cons_escaped hc, List.append_assoc, basic?_escape hc, ih]
      rfl
    · obtain ⟨hquote, hplain⟩ := not_or.mp hc
      rw [Bool.not_eq_true] at hplain
      rw [escapeText_cons_plain hquote hplain, List.cons_append, basic?_plain hquote hplain, ih]
      rfl

/-! ## Between single quotes -/

theorem literal?_append (hcontrol : ∀ c ∈ text, isControl c = false) (hline : '\n' ∉ text)
    (hquote : '\x27' ∉ text) (rest : List Char) :
    literal? (text ++ '\x27' :: rest) = some (text, rest) := by
  induction text with
  | nil => rfl
  | cons c text ih =>
    obtain ⟨hc, hcontrol⟩ := List.forall_mem_cons.mp hcontrol
    obtain ⟨hcline, hline⟩ := List.ne_and_not_mem_of_not_mem_cons hline
    obtain ⟨hcquote, hquote⟩ := List.ne_and_not_mem_of_not_mem_cons hquote
    rw [List.cons_append, literal?.eq_3 _ _ hcquote.symm,
      if_pos (isPrintable_of_isControl hc hcline.symm), ih hcontrol hline hquote]
    rfl

/-! ## Between three double quotes -/

section Multiline

theorem multilineBasic?_escape (hc : c = '"' ∨ needsEscape true c = true) (rest : List Char) :
    multilineBasic? .apart (escape c ++ rest) =
      (multilineBasic? .apart rest).map (prepend c) := by
  rcases escape_cases hc with ⟨e, hescape, he, hmem⟩ | ⟨h, l, hescape, hhex⟩
  · simp only [List.mem_cons, List.not_mem_nil, or_false, not_or] at hmem
    obtain ⟨hu, hU, hspace, htab, hreturn, hline⟩ := hmem
    rw [hescape]
    show multilineBasic? .apart ('\\' :: e :: rest) = _
    rw [multilineBasic?.eq_9 _ e rest (fun _ _ _ _ _ h => absurd h hu)
      (fun _ _ _ _ _ _ _ _ _ h => absurd h hU), he]
    simp only [hspace, htab, hreturn, hline, decide_false, Bool.or_self, Bool.false_eq_true,
      if_false]
    rfl
  · rw [hescape]
    show multilineBasic? .apart ('\\' :: 'u' :: '0' :: '0' :: h :: l :: rest) = _
    rw [multilineBasic?.eq_7, hhex]
    rfl

/-- A character that needs no escape is read as itself, a quote where it is not the first of three. -/
theorem multilineBasic?_plain (hc : needsEscape true c = false)
    (hquote : ∀ more, c = '"' → rest ≠ '"' :: '"' :: more) :
    multilineBasic? .apart (c :: rest) = (multilineBasic? .apart rest).map (prepend c) := by
  obtain ⟨htab, hslash, hcontrol, -⟩ := needsEscape_eq_false hc
  by_cases hline : c = '\n'
  · subst hline
    exact multilineBasic?.eq_3 .apart rest
  by_cases hspace : c = ' '
  · subst hspace
    exact multilineBasic?.eq_4 .apart rest
  have hreturn : c ≠ '\r' := by
    rintro rfl
    exact absurd hcontrol (by decide)
  rw [multilineBasic?.eq_10 _ c rest (fun _ h => absurd h hreturn) hline hspace htab
    (fun more h => hquote more h) (fun _ _ _ _ _ h => absurd h hslash)
    (fun _ _ _ _ _ _ _ _ _ h => absurd h hslash) (fun _ _ h => absurd h hslash),
    isPrintable_of_isControl hcontrol hline, decide_eq_true hslash]
  rfl

/-- Three quotes close a text; more quotes right before them belong to it. -/
theorem closing_none {q : Char} (hrest : rest.head? ≠ some q) : closing q rest = ([], rest) := by
  cases rest with
  | nil => rfl
  | cons a rest =>
    have ha : a ≠ q := fun h => hrest (congrArg some h)
    cases rest <;> simp [closing, ha]

theorem closing_one {q : Char} (hrest : rest.head? ≠ some q) :
    closing q (q :: rest) = ([q], rest) := by
  cases rest with
  | nil => simp [closing]
  | cons a rest =>
    have ha : a ≠ q := fun h => hrest (congrArg some h)
    simp [closing, ha]

theorem closing_two (q : Char) (rest : List Char) : closing q (q :: q :: rest) = ([q, q], rest) := by
  simp [closing]

/-- An escaped text starts with a quote only where the text does, and where one more may be left as
it is. -/
theorem head?_escapeText (h : text.head? = some '"' → 2 ≤ run) (hne : text ≠ []) (rest : List Char) :
    (escapeText true run text ++ rest).head? ≠ some '"' := by
  obtain ⟨c, text, rfl⟩ := List.exists_cons_of_ne_nil hne
  intro hhead
  obtain ⟨more, hescaped | ⟨hplain, -, hrun⟩⟩ := escapeText_cons_cases true run c text
  · rw [hescaped] at hhead
    exact absurd hhead (by simp)
  · rw [hplain] at hhead
    have hquote : c = '"' := Option.some.inj hhead
    exact absurd (h hhead) (Nat.not_le.mpr (hrun hquote).2)

/-- A quote that was left as it is, in a text that goes on after it and after the next quote, is not
the first of three. -/
theorem not_three_quotes (hrun : run < 2) (hne : text ≠ []) (htwo : ¬(text = ['"'] ∧ run = 0))
    (rest more : List Char) :
    escapeText true (run + 1) text ++ '"' :: '"' :: '"' :: rest ≠ '"' :: '"' :: more := by
  intro hthree
  obtain ⟨d, text, rfl⟩ := List.exists_cons_of_ne_nil hne
  by_cases hd : d = '"' ∧ run = 0
  · -- two quotes were left, so the next character is another one
    obtain ⟨rfl, rfl⟩ := hd
    have hmore : text ≠ [] := fun h => htwo ⟨by rw [h], rfl⟩
    have hsecond : (escapeText true 2 text ++ '"' :: '"' :: '"' :: rest).head? ≠ some '"' :=
      head?_escapeText (fun _ => le_rfl) hmore _
    apply hsecond
    exact congrArg List.head? (List.cons.inj hthree).2
  · have hfirst : (escapeText true (run + 1) (d :: text) ++ '"' :: '"' :: '"' :: rest).head? ≠
        some '"' := by
      refine head?_escapeText (fun h => ?_) (List.cons_ne_nil d text) _
      have hzero : run ≠ 0 := fun hzero => hd ⟨Option.some.inj h, hzero⟩
      omega
    exact hfirst (congrArg List.head? hthree)

/-- **A text between three double quotes is read up to the closing ones.** -/
theorem multilineBasic?_escapeText (text : List Char) (hrest : rest.head? ≠ some '"') (run : Nat) :
    multilineBasic? .apart (escapeText true run text ++ '"' :: '"' :: '"' :: rest) =
      some (text, rest) := by
  induction text generalizing run with
  | nil =>
    show multilineBasic? .apart ('"' :: '"' :: '"' :: rest) = _
    rw [multilineBasic?.eq_6, closing_none hrest]
    rfl
  | cons c text ih =>
    by_cases hescaped : c = '"' ∧ 2 ≤ run ∨ needsEscape true c = true
    · have hc : c = '"' ∨ needsEscape true c = true := hescaped.imp_left And.left
      have htext : escapeText true run (c :: text) = escape c ++ escapeText true 0 text := by
        rw [escapeText]
        rcases hescaped with ⟨hquote, hrun⟩ | hneeds
        · rw [if_pos hquote, if_pos rfl, if_neg (Nat.not_lt.mpr hrun)]
        · have hquote : c ≠ '"' := by
            rintro rfl
            exact absurd hneeds (by decide)
          rw [if_neg hquote, if_pos hneeds]
      rw [htext, List.append_assoc, multilineBasic?_escape hc, ih]
      rfl
    obtain ⟨hquotes, hplain⟩ := not_or.mp hescaped
    rw [Bool.not_eq_true] at hplain
    by_cases hquote : c = '"'
    · subst hquote
      have hrun : run < 2 := Nat.not_le.mp fun h => hquotes ⟨rfl, h⟩
      have htext : escapeText true run ('"' :: text) = '"' :: escapeText true (run + 1) text := by
        rw [escapeText, if_pos rfl, if_pos rfl, if_pos hrun]
      rw [htext]
      -- the quote is the first of three only when the closing ones follow at once, or after one more
      by_cases hclose : text = [] ∨ text = ['"'] ∧ run = 0
      · rcases hclose with rfl | ⟨rfl, rfl⟩
        · show multilineBasic? .apart ('"' :: '"' :: '"' :: '"' :: rest) = _
          rw [multilineBasic?.eq_6, closing_one hrest]
          rfl
        · show multilineBasic? .apart ('"' :: '"' :: '"' :: '"' :: '"' :: rest) = _
          rw [multilineBasic?.eq_6, closing_two]
          rfl
      · obtain ⟨hne, htwo⟩ := not_or.mp hclose
        rw [List.cons_append, multilineBasic?_plain hplain fun more _ =>
          not_three_quotes hrun hne htwo rest more, ih (run + 1)]
        rfl
    · rw [escapeText_cons_plain hquote hplain, List.cons_append,
        multilineBasic?_plain hplain fun _ h => absurd h hquote, ih]
      rfl

/-! ## Between three single quotes -/

/-- One character more of a run and of the longest one. -/
def countRun (c : Char) (s : Nat × Nat) (d : Char) : Nat × Nat :=
  (if d = c then s.1 + 1 else 0, max (if d = c then s.1 + 1 else 0) s.2)

theorem longestRun_eq (c : Char) (text : List Char) :
    longestRun c text = (text.foldl (countRun c) (0, 0)).2 := rfl

theorem le_foldl_countRun (c : Char) (text : List Char) (s : Nat × Nat) :
    s.2 ≤ (text.foldl (countRun c) s).2 := by
  induction text generalizing s with
  | nil => exact le_rfl
  | cons d text ih => exact (le_max_right _ _).trans (ih (countRun c s d))

/-- A run is no longer than the longest one. -/
theorem run_le_longest (c : Char) (text : List Char) {s : Nat × Nat} (hs : s.1 ≤ s.2) :
    (text.foldl (countRun c) s).1 ≤ (text.foldl (countRun c) s).2 := by
  induction text generalizing s with
  | nil => exact hs
  | cons d text ih => exact ih (le_max_left _ _)

theorem add_le_foldl_replicate (c : Char) (k : Nat) {s : Nat × Nat} (hs : s.1 ≤ s.2) :
    s.1 + k ≤ ((List.replicate k c).foldl (countRun c) s).2 := by
  induction k generalizing s with
  | zero => exact hs
  | succ k ih =>
    have hstep : countRun c s c = (s.1 + 1, max (s.1 + 1) s.2) := by simp [countRun]
    have hnext := ih (s := (s.1 + 1, max (s.1 + 1) s.2)) (le_max_left _ _)
    rw [List.replicate_succ, List.foldl_cons, hstep]
    omega

/-- Characters in a row are no more than the longest run. -/
theorem le_longestRun (c : Char) (k : Nat) (before after : List Char) :
    k ≤ longestRun c (before ++ List.replicate k c ++ after) := by
  rw [longestRun_eq, List.foldl_append, List.foldl_append]
  calc k ≤ (before.foldl (countRun c) (0, 0)).1 + k := Nat.le_add_left _ _
    _ ≤ _ := add_le_foldl_replicate c k (run_le_longest c before le_rfl)
    _ ≤ _ := le_foldl_countRun c after _

/-- Whether no three of a character stand in a row. -/
def NoThree (q : Char) (text : List Char) : Prop := ¬[q, q, q] <:+: text

theorem noThree_of_longestRun {q : Char} (h : longestRun q text ≤ 2) : NoThree q text := by
  rintro ⟨before, after, rfl⟩
  exact absurd ((le_longestRun q 3 before after).trans h) (by decide)

theorem not_mem_of_longestRun {q : Char} (h : longestRun q text = 0) : q ∉ text := by
  intro hmem
  obtain ⟨before, after, rfl⟩ := List.append_of_mem hmem
  have hone := le_longestRun q 1 before after
  rw [List.append_assoc] at hone
  exact absurd (hone.trans_eq h) (by decide)

theorem multilineLiteral?_plain (hcontrol : isControl c = false)
    (hquote : ∀ more, c = '\x27' → rest ≠ '\x27' :: '\x27' :: more) :
    multilineLiteral? (c :: rest) = (multilineLiteral? rest).map (prepend c) := by
  have hreturn : c ≠ '\r' := by
    rintro rfl
    exact absurd hcontrol (by decide)
  have hstands : (decide (c = '\n') || isPrintable c) = true := by
    by_cases hline : c = '\n'
    · rw [decide_eq_true hline, Bool.true_or]
    · rw [isPrintable_of_isControl hcontrol hline, Bool.or_true]
  rw [multilineLiteral?.eq_4 c rest (fun more h => hquote more h) (fun _ h => absurd h hreturn),
    if_pos hstands]

/-- **A text between three single quotes is read up to the closing ones.** -/
theorem multilineLiteral?_append (hcontrol : ∀ c ∈ text, isControl c = false)
    (hthree : NoThree '\x27' text) (hrest : rest.head? ≠ some '\x27') :
    multilineLiteral? (text ++ '\x27' :: '\x27' :: '\x27' :: rest) = some (text, rest) := by
  induction text with
  | nil =>
    show multilineLiteral? ('\x27' :: '\x27' :: '\x27' :: rest) = _
    rw [multilineLiteral?.eq_2, closing_none hrest]
  | cons c text ih =>
    obtain ⟨hc, hcontrol⟩ := List.forall_mem_cons.mp hcontrol
    have htail : NoThree '\x27' text := fun h => hthree (h.trans (List.suffix_cons c text).isInfix)
    by_cases hclose : c = '\x27' ∧ (text = [] ∨ text = ['\x27'])
    · obtain ⟨rfl, rfl | rfl⟩ := hclose
      · show multilineLiteral? ('\x27' :: '\x27' :: '\x27' :: '\x27' :: rest) = _
        rw [multilineLiteral?.eq_2, closing_one hrest]
      · show multilineLiteral? ('\x27' :: '\x27' :: '\x27' :: '\x27' :: '\x27' :: rest) = _
        rw [multilineLiteral?.eq_2, closing_two]
    · rw [List.cons_append, multilineLiteral?_plain hc, ih hcontrol htail]
      · rfl
      rintro more rfl heq
      have hne : text ≠ [] := fun h => hclose ⟨rfl, .inl h⟩
      have hone : text ≠ ['\x27'] := fun h => hclose ⟨rfl, .inr h⟩
      obtain ⟨d, tail, rfl⟩ := List.exists_cons_of_ne_nil hne
      obtain ⟨rfl, hmore⟩ := List.cons.inj heq
      have htail : tail ≠ [] := fun h => hone (congrArg _ h)
      obtain ⟨e, tail, rfl⟩ := List.exists_cons_of_ne_nil htail
      obtain ⟨rfl, -⟩ := List.cons.inj hmore
      exact hthree ⟨[], tail, rfl⟩

/-! ## Line breaks behind opening quotes -/

/-- The line break that was put behind the opening quotes is skipped, and no other. -/
theorem skipLineBreak_openingBreak {body : List Char} (h : '\n' ∉ text →
    body.head? ≠ some '\n' ∧ body.head? ≠ some '\r') :
    skipLineBreak (openingBreak text ++ body) = body := by
  rw [openingBreak]
  by_cases hline : '\n' ∈ text
  · rw [if_pos (by simpa using hline)]
    rfl
  · obtain ⟨hfeed, hreturn⟩ := h hline
    rw [if_neg (by simpa using hline), List.nil_append, skipLineBreak, lineBreak?.eq_3]
    · rfl
    · rintro more rfl
      exact hfeed rfl
    · rintro more rfl
      exact hreturn rfl

/-- An escaped text starts with a line break only if the text has one. -/
theorem escapeText_head_ne_break (hline : '\n' ∉ text) (hrest : rest.head? = some '"') :
    (escapeText true run text ++ rest).head? ≠ some '\n' ∧
      (escapeText true run text ++ rest).head? ≠ some '\r' := by
  cases text with
  | nil =>
    show rest.head? ≠ _ ∧ rest.head? ≠ _
    rw [hrest]
    decide
  | cons c text =>
    obtain ⟨more, hescaped | ⟨hplain, hneeds, -⟩⟩ := escapeText_cons_cases true run c text
    · rw [hescaped]
      simp
    · have hreturn : c ≠ '\r' := by
        rintro rfl
        exact absurd hneeds (by decide)
      have hc := (List.ne_and_not_mem_of_not_mem_cons hline).1.symm
      rw [hplain]
      exact ⟨by simpa using hc, by simpa using hreturn⟩

end Multiline

/-! ## The chosen quotes -/

/-- Whether what comes next can stand behind a value: the end of its line, or what sets it apart from
the next part of a list or map. -/
def EndsValue (rest : List Char) : Prop := ∃ c more, rest = c :: more ∧ c ∈ ['\n', ',', ' ', ']']

theorem EndsValue.head?_ne (h : EndsValue rest) {q : Char} (hq : q ∉ ['\n', ',', ' ', ']']) :
    rest.head? ≠ some q := by
  obtain ⟨c, more, rfl, hc⟩ := h
  exact fun heq => hq (Option.some.inj heq ▸ hc)

theorem text?_basic (text : List Char) (hrest : rest.head? ≠ some '"') :
    text? (basic text ++ rest) = some (text, rest) := by
  have hsplit : basic text ++ rest = '"' :: (escapeText false 0 text ++ '"' :: rest) := by
    simp [basic]
  rw [hsplit, text?.eq_2, basic?_escapeText]
  intro more heq
  cases text with
  | nil => exact hrest (congrArg List.head? (List.cons.inj heq).2)
  | cons c text =>
    obtain ⟨tail, hescaped | ⟨hplain, -, hquote⟩⟩ := escapeText_cons_cases false 0 c text
    · rw [hescaped] at heq
      exact absurd (List.cons.inj heq).1 (by decide)
    · rw [hplain] at heq
      exact absurd (hquote (List.cons.inj heq).1).1 (by decide)

theorem text?_literal (hcontrol : ∀ c ∈ text, isControl c = false) (hline : '\n' ∉ text)
    (hquote : '\x27' ∉ text) (hrest : rest.head? ≠ some '\x27') :
    text? (literal text ++ rest) = some (text, rest) := by
  have hsplit : literal text ++ rest = '\x27' :: (text ++ '\x27' :: rest) := by simp [literal]
  rw [hsplit, text?.eq_4, literal?_append hcontrol hline hquote]
  intro more heq
  cases text with
  | nil => exact hrest (congrArg List.head? (List.cons.inj heq).2)
  | cons c text =>
    rw [List.cons_append] at heq
    exact hquote ((List.cons.inj heq).1 ▸ List.mem_cons_self)

theorem text?_multilineBasic (text : List Char) (hrest : rest.head? ≠ some '"') :
    text? (multilineBasic text ++ rest) = some (text, rest) := by
  have hsplit : multilineBasic text ++ rest = '"' :: '"' :: '"' ::
      (openingBreak text ++ (escapeText true 0 text ++ '"' :: '"' :: '"' :: rest)) := by
    simp [multilineBasic]
  rw [hsplit, text?.eq_1, skipLineBreak_openingBreak, multilineBasic?_escapeText text hrest]
  exact fun hline => escapeText_head_ne_break hline rfl

theorem text?_multilineLiteral (hcontrol : ∀ c ∈ text, isControl c = false)
    (hthree : NoThree '\x27' text) (hrest : rest.head? ≠ some '\x27') :
    text? (multilineLiteral text ++ rest) = some (text, rest) := by
  have hsplit : multilineLiteral text ++ rest = '\x27' :: '\x27' :: '\x27' ::
      (openingBreak text ++ (text ++ '\x27' :: '\x27' :: '\x27' :: rest)) := by
    simp [multilineLiteral]
  rw [hsplit, text?.eq_3, skipLineBreak_openingBreak,
    multilineLiteral?_append hcontrol hthree hrest]
  intro hline
  cases text with
  | nil => exact ⟨by simp, by simp⟩
  | cons c text =>
    have hreturn : c ≠ '\r' := by
      rintro rfl
      exact absurd (hcontrol _ List.mem_cons_self) (by decide)
    exact ⟨by simpa using (List.ne_and_not_mem_of_not_mem_cons hline).1.symm, by simpa using hreturn⟩

/-- **A text in the quotes that were chosen for it is read as the text.** -/
theorem text?_quote (text : List Char) (hrest : EndsValue rest) :
    text? (quote text ++ rest) = some (text, rest) := by
  have hdouble : rest.head? ≠ some '"' := hrest.head?_ne (by decide)
  have hsingle : rest.head? ≠ some '\x27' := hrest.head?_ne (by decide)
  have hcontrols : text.any isControl = false → ∀ c ∈ text, isControl c = false := by
    intro h c hc
    exact Bool.eq_false_iff.mpr (List.any_eq_false.mp h c hc)
  simp only [quote]
  split
  · exact text?_basic text hdouble
  split
  · rename_i h
    simp only [Bool.and_eq_true, Bool.not_eq_true', decide_eq_true_eq] at h
    obtain ⟨⟨hcontrol, hline⟩, hquote⟩ := h
    exact text?_literal (hcontrols hcontrol) (by simpa using hline) (not_mem_of_longestRun hquote)
      hsingle
  split
  · exact text?_multilineBasic text hdouble
  split
  · rename_i h
    simp only [Bool.and_eq_true, Bool.not_eq_true', decide_eq_true_eq] at h
    obtain ⟨hcontrol, hquotes⟩ := h
    exact text?_multilineLiteral (hcontrols hcontrol) (noThree_of_longestRun hquotes) hsingle
  split
  · exact text?_multilineBasic text hdouble
  · exact text?_basic text hdouble

end StepSignal.Toml
