import StepSignal.Json.Token
import StepSignal.Json.Writer
import StepSignal.Proofs.Decimal.Layout
import StepSignal.Proofs.Document

/-!
# The words of JSON are read as they were written

A text in quotes is read as the text, whatever characters it has; a number as the same number, if
what comes next cannot belong to it. A number that is not finite was written as `null`.
-/

namespace StepSignal.Json

open Decimal (Numeral digitValue signChars)

variable {c : Char} {cs : List Char} {rest : List Glyph}

/-! ## Texts -/

/-- The piece that an escaped character is read as. -/
def pieceOf (c : Char) : Piece :=
  if c.toNat < 0x20 ∧ c ∉ ['\x08', '\x0c', '\n', '\r', '\t'] then .unit c.toNat else .char c

/-- The digits of an escape by number give the number. -/
theorem hexUnit?_control {n : Nat} (h : n < 0x20) :
    hexUnit? (some '0') (some '0') (some (hexDigit (n / 16))) (some (hexDigit (n % 16))) =
      some n := by
  interval_cases n <;> rfl

theorem pieces?_simple {e : Char} (he : e ≠ 'u') (hc : simpleEscape? e = some c)
    (rest : List Glyph) : pieces? (some '\\' :: some e :: rest) =
      (pieces? rest).map fun (ps, after) => (.char c :: ps, after) := by
  rw [pieces?.eq_5 e rest fun _ _ _ _ _ _ h => he h, hc]
  cases pieces? rest <;> rfl

/-- A character that was escaped is one piece. -/
theorem pieces?_escapeChar (c : Char) (rest : List Glyph) :
    pieces? ((escapeChar c).map some ++ rest) =
      (pieces? rest).map fun (ps, after) => (pieceOf c :: ps, after) := by
  unfold escapeChar
  split
  · exact pieces?_simple (by decide) rfl rest
  · exact pieces?_simple (by decide) rfl rest
  · exact pieces?_simple (by decide) rfl rest
  · exact pieces?_simple (by decide) rfl rest
  · exact pieces?_simple (by decide) rfl rest
  · exact pieces?_simple (by decide) rfl rest
  · exact pieces?_simple (by decide) rfl rest
  rename_i hquote hslash hback hfeed hline hreturn htab
  split
  · rename_i hcontrol
    have hpiece : pieceOf c = .unit c.toNat := if_pos ⟨hcontrol, by
      simpa using ⟨hback, hfeed, hline, hreturn, htab⟩⟩
    simp only [List.map_cons, List.map_nil, List.cons_append, List.nil_append, pieces?,
      hexUnit?_control hcontrol, hpiece]
    cases pieces? rest <;> rfl
  · rename_i hplain
    have hpiece : pieceOf c = .char c := if_neg fun h => hplain h.1
    rw [hpiece, List.map_singleton, List.singleton_append, pieces?.eq_6 c rest hquote
      (fun _ _ _ _ _ _ h => hslash h) (fun _ _ _ h => hslash h), if_neg (not_or.mpr ⟨hslash, hplain⟩)]

theorem joinPieces?_unit {n : Nat} (h : n < 0xD800) (ps : List Piece) :
    joinPieces? (.unit n :: ps) = (joinPieces? ps).map (Char.ofNat n :: ·) := by
  have hhigh : isHighHalf n = false := by simp [isHighHalf, h]
  have hlow : isLowHalf n = false := by simp [isLowHalf]; omega
  by_cases hunit : ∃ low rest, ps = .unit low :: rest
  · obtain ⟨low, rest, rfl⟩ := hunit
    rw [joinPieces?.eq_3, hhigh, hlow]
    rfl
  · rw [joinPieces?.eq_4 n ps fun low rest h => hunit ⟨low, rest, h⟩, hhigh, hlow]
    rfl

theorem joinPieces?_pieceOf (c : Char) (ps : List Piece) :
    joinPieces? (pieceOf c :: ps) = (joinPieces? ps).map (c :: ·) := by
  unfold pieceOf
  split
  · rename_i h
    rw [joinPieces?_unit (by omega), Char.ofNat_toNat]
  · rw [joinPieces?]

/-- The pieces of a text are those of its characters, up to the closing quote. -/
theorem pieces?_escaped (text : List Char) (rest : List Glyph) :
    pieces? ((text.flatMap escapeChar ++ ['"']).map some ++ rest) =
      some (text.map pieceOf, rest) := by
  induction text with
  | nil => rfl
  | cons c text ih =>
    rw [List.flatMap_cons, List.append_assoc, List.map_append, List.append_assoc,
      pieces?_escapeChar, ih]
    rfl

theorem joinPieces?_map_pieceOf (text : List Char) :
    joinPieces? (text.map pieceOf) = some text := by
  induction text with
  | nil => rfl
  | cons c text ih => rw [List.map_cons, joinPieces?_pieceOf, ih, Option.map_some]

/-- **A text in quotes is read as the text.** -/
theorem token?_quote (s : String) (rest : List Glyph) :
    ∃ more, quote s = '"' :: more ∧
      token? '"' (more.map some ++ rest) = some (.quoted (.text s), rest) := by
  refine ⟨s.toList.flatMap escapeChar ++ ['"'], rfl, ?_⟩
  rw [token?, pieces?_escaped]
  show some (Token.quoted (textDocument _), rest) = _
  rw [textDocument, joinPieces?_map_pieceOf]
  exact congrArg (fun s => some (Token.quoted (.text s), rest)) String.ofList_toList

/-! ## Digits -/

theorem digit?_some (h : c.isDigit = true) : digit? (some c) = some (digitValue c) := if_pos h

/-- Whether what comes next is no digit. -/
def NoDigit (rest : List Glyph) : Prop := ∀ g ∈ rest.head?, digit? g = none

/-- Digits are read up to the first other character. -/
theorem digits_map_append (hcs : ∀ c ∈ cs, c.isDigit = true) (hrest : NoDigit rest) :
    digits (cs.map some ++ rest) = (cs.map digitValue, rest) := by
  induction cs with
  | nil =>
    cases rest with
    | nil => rfl
    | cons g rest =>
      have hg : digit? g = none := hrest g rfl
      simp only [List.map_nil, List.nil_append, digits, hg]
  | cons c cs ih =>
    obtain ⟨hc, hcs⟩ := List.forall_mem_cons.mp hcs
    simp only [List.map_cons, List.cons_append, digits, digit?_some hc, ih hcs]

theorem digits?_map_append (hne : cs ≠ []) (hcs : ∀ c ∈ cs, c.isDigit = true)
    (hrest : NoDigit rest) :
    digits? (cs.map some ++ rest) = some (cs.map digitValue, rest) := by
  obtain ⟨c, cs, rfl⟩ := List.exists_cons_of_ne_nil hne
  rw [digits?, digits_map_append hcs hrest]
  rfl

/-- The digits before the point, which start with no zero unless it is alone. -/
theorem wholePart?_map_append (hfirst : cs = ['0'] ∨ ∃ c ds, cs = c :: ds ∧ c ≠ '0')
    (hcs : ∀ c ∈ cs, c.isDigit = true) (hrest : NoDigit rest) :
    wholePart? (cs.map some ++ rest) = some (cs.map digitValue, rest) := by
  have hne : cs ≠ [] := by
    rcases hfirst with h | ⟨c, ds, h, -⟩ <;> simp [h]
  rw [wholePart?, digits?_map_append hne hcs hrest]
  rcases hfirst with rfl | ⟨c, ds, rfl, hc⟩
  · rfl
  · obtain ⟨k, hk⟩ : ∃ k, digitValue c = k + 1 := by
      have hdigit : '0' ≤ c := by
        have h := hcs c List.mem_cons_self
        simp only [Char.isDigit, Bool.and_eq_true, decide_eq_true_eq] at h
        exact h.1
      have hlt : '0'.toNat < c.toNat := lt_of_le_of_ne hdigit fun h => hc (Char.ext (by
        exact UInt32.toNat_inj.mp h.symm))
      exact ⟨c.toNat - '0'.toNat - 1, by rw [digitValue]; omega⟩
    rw [List.map_cons, hk]
    cases ds.map digitValue <;> rfl

/-- The number of digits that were read. -/
theorem natOfDigits_map (cs : List Char) :
    natOfDigits (cs.map digitValue) = Nat.ofDigitChars 10 cs 0 :=
  Decimal.foldl_digitValue cs

/-! ## Numbers -/

/-- Whether what comes next cannot belong to a number: a blank, a separator, or nothing. -/
def EndsNumber (rest : List Glyph) : Prop :=
  ∀ g ∈ rest.head?, ∃ c, g = some c ∧ (isBlank c = true ∨ c ∈ [',', ']', '\x7d'])

theorem EndsNumber.cases (h : EndsNumber rest) : NoDigit rest ∧ rest.head? ≠ some (some '.') ∧
    ∀ c, rest.head? = some (some c) → ¬(c = 'e' ∨ c = 'E') := by
  cases rest with
  | nil => exact ⟨fun _ h => (nomatch h), by simp, fun _ h => (nomatch h)⟩
  | cons g rest =>
    obtain ⟨c, rfl, hc⟩ := h g rfl
    have hmem : c ∈ [' ', '\t', '\n', '\r', ',', ']', '\x7d'] := by
      simp only [isBlank, Bool.or_eq_true, decide_eq_true_eq, List.mem_cons, List.not_mem_nil,
        or_false] at hc ⊢
      tauto
    refine ⟨?_, ?_, ?_⟩
    · intro g hg
      obtain rfl := Option.some.inj hg
      fin_cases hmem <;> rfl
    · intro hdot
      obtain rfl : c = '.' := Option.some.inj (Option.some.inj hdot)
      revert hmem
      decide
    · intro e he
      obtain rfl : c = e := Option.some.inj (Option.some.inj he)
      fin_cases hmem <;> decide

/-- The fraction of a numeral, where what comes next is neither a point nor a digit. -/
theorem fractionPart?_fractionChars (fraction : Option (List Char)) (hne : fraction ≠ some [])
    (hdigits : ∀ c ∈ fraction.getD [], c.isDigit = true) (hrest : NoDigit rest)
    (hpoint : rest.head? ≠ some (some '.')) :
    fractionPart? ((Numeral.fractionChars fraction).map some ++ rest) =
      some (fraction.map (·.map digitValue), rest) := by
  cases fraction with
  | none =>
    show fractionPart? rest = some (none, rest)
    unfold fractionPart?
    split
    · exact absurd rfl hpoint
    · rfl
  | some cs =>
    show (digits? (cs.map some ++ rest)).map _ = _
    rw [digits?_map_append (fun h => hne (h ▸ rfl)) hdigits hrest]
    rfl

/-- The power of a numeral, where what comes next is no digit and starts no power. -/
theorem exponentPart?_powerChars (power : Option Int) (hrest : NoDigit rest)
    (hpower : ∀ c, rest.head? = some (some c) → ¬(c = 'e' ∨ c = 'E')) :
    exponentPart? ((Numeral.powerChars power).map some ++ rest) = some (power, rest) := by
  cases power with
  | none =>
    show exponentPart? rest = some (none, rest)
    unfold exponentPart?
    split
    · rw [if_neg (hpower _ rfl)]
    · rfl
  | some p =>
    have hdigits : digits? ((Nat.toDigits 10 p.natAbs).map some ++ rest) =
        some ((Nat.toDigits 10 p.natAbs).map digitValue, rest) :=
      digits?_map_append Nat.toDigits_ne_nil (fun c hc => Decimal.isDigit_toDigits hc) hrest
    have hnumber : natOfDigits ((Nat.toDigits 10 p.natAbs).map digitValue) = p.natAbs := by
      rw [natOfDigits_map, Nat.ofDigitChars_ten_toDigits]
    simp only [Numeral.powerChars, List.map_cons, List.cons_append, exponentPart?, true_or,
      if_true]
    by_cases hsign : p < 0
    · have hp : -(p.natAbs : Int) = p := by omega
      simp only [if_pos hsign, exponentSign, hdigits, Option.map_some, hnumber, if_true, hp]
    · have hp : (p.natAbs : Int) = p := by omega
      simp only [if_neg hsign, exponentSign, hdigits, Option.map_some, hnumber,
        Bool.false_eq_true, if_false, hp]

/-- **A numeral is read as its decimal.** -/
theorem number?_numeral {n : Numeral} (hn : n.WellFormed) (negative : Bool)
    (hrest : EndsNumber rest) : number? negative (n.chars.map some ++ rest) =
      some (floatDocument negative n.decimal, rest) := by
  obtain ⟨hdigit, hpoint, hpower⟩ := hrest.cases
  obtain ⟨hwhole, hplaces⟩ := List.forall_mem_append.mp hn.digits
  -- what comes after the fraction is a power or the end, and a fraction comes before it or not
  have htail : NoDigit ((Numeral.powerChars n.power).map some ++ rest) ∧
      ((Numeral.powerChars n.power).map some ++ rest).head? ≠ some (some '.') := by
    cases n.power with
    | none => exact ⟨hdigit, hpoint⟩
    | some p => exact ⟨fun g hg => Option.some.inj hg ▸ rfl, by simp [Numeral.powerChars]⟩
  have hafter : NoDigit ((Numeral.fractionChars n.fraction).map some ++
      ((Numeral.powerChars n.power).map some ++ rest)) := by
    cases n.fraction with
    | none => exact htail.1
    | some ds => exact fun g hg => Option.some.inj hg ▸ rfl
  have hfraction := fractionPart?_fractionChars n.fraction hn.fraction hplaces htail.1 htail.2
  have hexponent := exponentPart?_powerChars n.power hdigit hpower
  have hnumber : natOfDigits (n.whole.map digitValue ++ n.places.map digitValue) =
      Nat.ofDigitChars 10 (n.whole ++ n.places) 0 := by
    rw [← List.map_append, natOfDigits_map]
  rw [Numeral.chars, List.map_append, List.map_append, List.append_assoc, List.append_assoc,
    number?, wholePart?_map_append hn.first hwhole hafter]
  simp only [Option.bind_eq_bind, Option.bind_some, hfraction, hexponent]
  have hinteger := hn.notInteger
  rcases hf : n.fraction with - | ds <;> rcases hp : n.power with - | p
  · rw [hf, hp] at hinteger
    simp at hinteger
  all_goals
    simp only [Numeral.places, hf, Option.getD_some, Option.getD_none, List.map_nil] at hnumber
    simp only [Option.map_some, Option.map_none, Option.getD_some, Option.getD_none, hnumber,
      List.length_map, Numeral.decimal, Numeral.places, hf, hp]
    rfl

/-- **A whole number is read as an integer.** -/
theorem number?_toDigits (negative : Bool) (n : Nat) (hrest : EndsNumber rest) :
    number? negative ((Nat.toDigits 10 n).map some ++ rest) =
      some (integerDocument negative n, rest) := by
  obtain ⟨hdigit, hpoint, hpower⟩ := hrest.cases
  have hfraction : fractionPart? rest = some (none, rest) :=
    fractionPart?_fractionChars none (by simp) (by simp) hdigit hpoint
  have hexponent : exponentPart? rest = some (none, rest) :=
    exponentPart?_powerChars none hdigit hpower
  rw [number?, wholePart?_map_append (Decimal.toDigits_first n)
    (fun c hc => Decimal.isDigit_toDigits hc) hdigit]
  simp only [Option.bind_eq_bind, Option.bind_some, hfraction, hexponent, natOfDigits_map,
    Nat.ofDigitChars_ten_toDigits]
  rfl

/-! ## Words -/

/-- What becomes of the numbers of a document: whole ones are read as integers where there is an
integer type for them, and those that are not finite were written as `null`. -/
def renumbering : Document.Renumbering where
  natural n := integerDocument false n
  integer n := integerDocument (n < 0) n.natAbs
  float x := if x.isFinite then .float x else .null

theorem keeps_renumbering : renumbering.Keeps where
  natural n hn := by
    have hlt : n < 1 <<< 64 := hn
    simp only [renumbering, integerDocument, Bool.false_eq_true, if_false, if_pos hlt]
    rfl
  integer n hlow hneg := by
    have hlimit : -(2 ^ 63 : Int) ≤ n := hlow
    have hn : -(n.natAbs : Int) = n := by omega
    have hsize : 0 < n.natAbs ∧ n.natAbs ≤ 1 <<< 63 := by
      rw [Nat.one_shiftLeft]
      omega
    simp only [renumbering, integerDocument, decide_eq_true hneg, if_true, if_pos hsize, hn]
    rfl
  float x hx := if_pos hx

/-- Whether some characters are read as one word, where no number goes on behind them. -/
def IsWord (chars : List Char) (t : Token) : Prop :=
  ∃ c more, chars = c :: more ∧ isBlank c = false ∧
    ∀ rest, EndsNumber rest → token? c (more.map some ++ rest) = some (t, rest)

theorem isWord_null : IsWord "null".toList (.value .null) :=
  ⟨'n', "ull".toList, rfl, rfl, fun _ _ => rfl⟩

theorem isWord_bool (b : Bool) :
    IsWord (if b then "true" else "false").toList (.value (.bool b)) := by
  cases b
  · exact ⟨'f', "alse".toList, rfl, rfl, fun _ _ => rfl⟩
  · exact ⟨'t', "rue".toList, rfl, rfl, fun _ _ => rfl⟩

theorem isWord_quote (s : String) : IsWord (quote s) (.quoted (.text s)) := by
  refine ⟨'"', s.toList.flatMap escapeChar ++ ['"'], rfl, rfl, fun rest _ => ?_⟩
  obtain ⟨more, hmore, htoken⟩ := token?_quote s rest
  obtain rfl := (List.cons.inj hmore).2
  exact htoken

theorem token?_of_isDigit (hc : c.isDigit = true) (rest : List Glyph) :
    token? c rest = (number? false (some c :: rest)).map fun (d, after) => (.value d, after) := by
  have hnot : c ∉ ['[', ']', '\x7b', '\x7d', ',', ':', '"', 'n', 't', 'f', '-'] := by
    intro hmem
    fin_cases hmem <;> exact absurd hc (by decide)
  simp only [List.mem_cons, List.not_mem_nil, or_false, not_or] at hnot
  unfold token?
  split <;> simp_all

/-- A number is one word when its characters are read as a number. -/
theorem isWord_of_number? {negative : Bool} {cs : List Char} {d : Document}
    (hne : ∃ c more, cs = c :: more ∧ c.isDigit = true)
    (h : ∀ rest, EndsNumber rest → number? negative (cs.map some ++ rest) = some (d, rest)) :
    IsWord (signChars negative ++ cs) (.value d) := by
  obtain ⟨c, more, rfl, hc⟩ := hne
  cases negative with
  | true =>
    refine ⟨'-', c :: more, rfl, rfl, fun rest hrest => ?_⟩
    rw [token?, h rest hrest, Option.map_some]
  | false =>
    refine ⟨c, more, rfl, ?_, fun rest hrest => ?_⟩
    · rw [Bool.eq_false_iff]
      intro hblank
      simp only [isBlank, Bool.or_eq_true, decide_eq_true_eq] at hblank
      rcases hblank with ((rfl | rfl) | rfl) | rfl <;> exact absurd hc (by decide)
    · have hnumber := h rest hrest
      rw [List.map_cons, List.cons_append] at hnumber
      rw [token?_of_isDigit hc, hnumber, Option.map_some]

theorem isWord_toDigits (negative : Bool) (n : Nat) :
    IsWord (signChars negative ++ Nat.toDigits 10 n) (.value (integerDocument negative n)) := by
  refine isWord_of_number? ?_ fun rest hrest => number?_toDigits negative n hrest
  obtain ⟨c, more, h⟩ := List.exists_cons_of_ne_nil (Nat.toDigits_ne_nil (n := n) (b := 10))
  exact ⟨c, more, h, Decimal.isDigit_toDigits (n := n) (h ▸ List.mem_cons_self)⟩

theorem isWord_natural (n : Nat) : IsWord (toString n).toList (.value (renumbering.natural n)) := by
  rw [Decimal.toList_toString]
  exact isWord_toDigits false n

theorem isWord_integer (n : Int) : IsWord (toString n).toList (.value (renumbering.integer n)) := by
  rw [Decimal.toList_toString_int]
  exact isWord_toDigits _ _

/-- **A number is read as itself if it is finite, and else as `null`.** -/
theorem isWord_number (x : Float) : IsWord (number x) (.value (renumbering.float x)) := by
  rw [number]
  by_cases hx : x.isFinite = true
  · obtain ⟨n, htext, hn, hnearest, -⟩ := Decimal.exists_numeral numberLayout rfl hx
    have hdocument : floatDocument (Binary64.isNegative x) n.decimal = renumbering.float x := by
      simp only [floatDocument, hnearest, hx, if_true, renumbering]
    rw [if_pos hx, htext, ← hdocument]
    refine isWord_of_number? ?_ fun rest hrest => number?_numeral hn _ hrest
    have hfirst : ∃ c more, n.whole = c :: more := by
      rcases hn.first with h | ⟨c, more, h, -⟩
      · exact ⟨_, _, h⟩
      · exact ⟨_, _, h⟩
    obtain ⟨c, more, hwhole⟩ := hfirst
    refine ⟨c, more ++ Numeral.fractionChars n.fraction ++ Numeral.powerChars n.power, ?_, ?_⟩
    · rw [Numeral.chars, hwhole]
      rfl
    · exact hn.digits c (by simp [hwhole])
  · rw [if_neg hx]
    have hdocument : renumbering.float x = .null := if_neg hx
    rw [hdocument]
    exact isWord_null

end StepSignal.Json
