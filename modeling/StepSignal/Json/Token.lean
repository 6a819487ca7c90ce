import StepSignal.Decimal.Nearest
import StepSignal.Document

/-!
# The words of JSON

A text is split into words: brackets, separators, and values that are one word, which become documents
right away. Blanks between words are dropped.

Texts come in as characters, where `none` is a byte outside of every character. Such a byte, half of a
pair of escapes, or a number too large for a double makes a word that is well formed and unreadable.
-/

namespace StepSignal.Json

/-- One word. -/
inductive Token where
  | openList
  | closeList
  | openMap
  | closeMap
  | comma
  | colon
  /-- A text in quotes. -/
  | quoted (d : Document)
  /-- Any other value of one word. -/
  | value (d : Document)

/-- A character, or a byte outside of every character. -/
abbrev Glyph := Option Char

/-! ## Texts -/

/-- A part of a quoted text. -/
inductive Piece where
  | char (c : Char)
  /-- An escape by number: a character, or one half of a pair that stands for a character. -/
  | unit (n : Nat)
  | stray

/-- What a one-letter escape stands for. -/
def simpleEscape? : Char → Option Char
  | '"' => some '"'
  | '\\' => some '\\'
  | '/' => some '/'
  | 'b' => some '\x08'
  | 'f' => some '\x0c'
  | 'n' => some '\n'
  | 'r' => some '\r'
  | 't' => some '\t'
  | _ => none

/-- The value of a hexadecimal digit. -/
def hexValue? (c : Char) : Option Nat :=
  if '0' ≤ c ∧ c ≤ '9' then some (c.toNat - '0'.toNat)
  else if 'a' ≤ c ∧ c ≤ 'f' then some (c.toNat - 'a'.toNat + 10)
  else if 'A' ≤ c ∧ c ≤ 'F' then some (c.toNat - 'A'.toNat + 10)
  else none

/-- The value of four hexadecimal digits. -/
def hexUnit? (a b c d : Glyph) : Option Nat := do
  let digits ← [a, b, c, d].mapM fun glyph => glyph.bind hexValue?
  return digits.foldl (fun n digit => n * 16 + digit) 0

/-- The pieces of a quoted text up to its closing quote. -/
def pieces? : List Glyph → Option (List Piece × List Glyph)
  | [] => none
  | none :: rest => (pieces? rest).map fun (ps, after) => (.stray :: ps, after)
  | some '"' :: rest => some ([], rest)
  | some '\\' :: some 'u' :: a :: b :: c :: d :: rest => do
    let n ← hexUnit? a b c d
    let (ps, after) ← pieces? rest
    return (.unit n :: ps, after)
  | some '\\' :: some e :: rest => do
    let c ← simpleEscape? e
    let (ps, after) ← pieces? rest
    return (.char c :: ps, after)
  | some c :: rest =>
    if c = '\\' ∨ c.toNat < 0x20 then none
    else (pieces? rest).map fun (ps, after) => (.char c :: ps, after)

/-- Whether a number is the first half of a pair. -/
def isHighHalf (n : Nat) : Bool := 0xD800 ≤ n && n < 0xDC00

/-- Whether a number is the second half of a pair. -/
def isLowHalf (n : Nat) : Bool := 0xDC00 ≤ n && n < 0xE000

/-- The characters of some pieces, unless a byte or half of a pair is among them. -/
def joinPieces? : List Piece → Option (List Char)
  | [] => some []
  | .char c :: rest => (joinPieces? rest).map (c :: ·)
  | .unit high :: .unit low :: rest =>
    if isHighHalf high && isLowHalf low then
      (joinPieces? rest).map (Char.ofNat (0x10000 + (high - 0xD800) * 0x400 + (low - 0xDC00)) :: ·)
    else if isHighHalf high || isLowHalf high then none
    else (joinPieces? (.unit low :: rest)).map (Char.ofNat high :: ·)
  | .unit n :: rest =>
    if isHighHalf n || isLowHalf n then none else (joinPieces? rest).map (Char.ofNat n :: ·)
  | .stray :: _ => none

/-- The document of a quoted text. -/
def textDocument (pieces : List Piece) : Document :=
  match joinPieces? pieces with
  | some chars => .text (String.ofList chars)
  | none => .unreadable

/-! ## Numbers -/

/-- The value of a decimal digit. -/
def digit? : Glyph → Option Nat
  | some c => if c.isDigit then some (c.toNat - '0'.toNat) else none
  | none => none

/-- The digits at the front. -/
def digits : List Glyph → List Nat × List Glyph
  | [] => ([], [])
  | g :: rest =>
    match digit? g with
    | some d => let (ds, after) := digits rest; (d :: ds, after)
    | none => ([], g :: rest)

/-- One digit or more. -/
def digits? (glyphs : List Glyph) : Option (List Nat × List Glyph) :=
  match digits glyphs with
  | ([], _) => none
  | found => some found

/-- The number that decimal digits write. -/
def natOfDigits (ds : List Nat) : Nat := ds.foldl (fun n d => n * 10 + d) 0

/-- The digits before the point: a zero by itself, or digits that start with no zero. -/
def wholePart? (glyphs : List Glyph) : Option (List Nat × List Glyph) :=
  match digits? glyphs with
  | some (0 :: _ :: _, _) => none
  | found => found

/-- The digits after the point, if there is a point. -/
def fractionPart? : List Glyph → Option (Option (List Nat) × List Glyph)
  | some '.' :: rest => (digits? rest).map fun (ds, after) => (some ds, after)
  | rest => some (none, rest)

/-- Whether an exponent is negative, and what comes after its sign. -/
def exponentSign : List Glyph → Bool × List Glyph
  | some '-' :: rest => (true, rest)
  | some '+' :: rest => (false, rest)
  | rest => (false, rest)

/-- The exponent, if there is one. -/
def exponentPart? : List Glyph → Option (Option Int × List Glyph)
  | some e :: rest =>
    if e = 'e' ∨ e = 'E' then
      (digits? (exponentSign rest).2).map fun (ds, after) =>
        let n : Int := natOfDigits ds
        (some (if (exponentSign rest).1 then -n else n), after)
    else some (none, some e :: rest)
  | rest => some (none, rest)

/-- The document of a number with a fraction or an exponent, and of one that no integer type holds. -/
def floatDocument (negative : Bool) (ds : Decimal.Digits) : Document :=
  let x := Decimal.nearest negative ds
  if x.isFinite then .float x else .unreadable

/-- The document of a number without fraction and exponent. Minus zero is not an integer. -/
def integerDocument (negative : Bool) (n : Nat) : Document :=
  if negative then
    if 0 < n ∧ n ≤ 1 <<< 63 then .integer (-(n : Int)) else floatDocument true ⟨n, 0⟩
  else if n < 1 <<< 64 then .integer n
  else floatDocument false ⟨n, 0⟩

/-- A number, after its sign. -/
def number? (negative : Bool) (glyphs : List Glyph) : Option (Document × List Glyph) := do
  let (whole, rest) ← wholePart? glyphs
  let (fraction, rest) ← fractionPart? rest
  let (exponent, rest) ← exponentPart? rest
  match fraction, exponent with
  | none, none => return (integerDocument negative (natOfDigits whole), rest)
  | fraction, exponent =>
    let places := fraction.getD []
    let ds := natOfDigits (whole ++ places)
    return (floatDocument negative ⟨ds, exponent.getD 0 - places.length⟩, rest)

/-! ## Words -/

/-- What comes after a word that is spelled out. -/
def after? : List Char → List Glyph → Option (List Glyph)
  | [], rest => some rest
  | c :: cs, some g :: rest => if c = g then after? cs rest else none
  | _ :: _, _ => none

/-- The word that starts with the character `c`. -/
def token? (c : Char) (rest : List Glyph) : Option (Token × List Glyph) :=
  match c with
  | '[' => some (.openList, rest)
  | ']' => some (.closeList, rest)
  | '\x7b' => some (.openMap, rest)
  | '\x7d' => some (.closeMap, rest)
  | ',' => some (.comma, rest)
  | ':' => some (.colon, rest)
  | '"' => (pieces? rest).map fun (ps, after) => (.quoted (textDocument ps), after)
  | 'n' => (after? "ull".toList rest).map (.value .null, ·)
  | 't' => (after? "rue".toList rest).map (.value (.bool true), ·)
  | 'f' => (after? "alse".toList rest).map (.value (.bool false), ·)
  | '-' => (number? true rest).map fun (d, after) => (.value d, after)
  | c => (number? false (some c :: rest)).map fun (d, after) => (.value d, after)

/-! ## What a word takes

Every word takes at least its first character, so that reading word after word comes to an end. -/

theorem pieces?_length {glyphs after : List Glyph} {ps : List Piece}
    (h : pieces? glyphs = some (ps, after)) : after.length < glyphs.length := by
  fun_induction pieces? glyphs generalizing ps after with
  | case1 => simp at h
  | case2 rest ih =>
    obtain ⟨⟨qs, a⟩, hq, he⟩ := Option.map_eq_some_iff.1 h
    obtain ⟨-, rfl⟩ := Prod.mk.inj he
    have := ih hq
    simp only [List.length_cons]; omega
  | case3 rest =>
    obtain ⟨-, rfl⟩ := Prod.mk.inj (Option.some.inj h)
    simp
  | case4 a b c d rest ih =>
    simp only [bind, Option.bind_eq_some_iff] at h
    obtain ⟨n, -, ⟨qs, r⟩, hq, he⟩ := h
    obtain ⟨-, rfl⟩ := Prod.mk.inj (Option.some.inj he)
    have := ih hq
    simp only [List.length_cons]; omega
  | case5 e rest _ ih =>
    simp only [bind, Option.bind_eq_some_iff] at h
    obtain ⟨n, -, ⟨qs, r⟩, hq, he⟩ := h
    obtain ⟨-, rfl⟩ := Prod.mk.inj (Option.some.inj he)
    have := ih hq
    simp only [List.length_cons]; omega
  | case6 => simp at h
  | case7 c rest _ _ _ _ ih =>
    obtain ⟨⟨qs, a⟩, hq, he⟩ := Option.map_eq_some_iff.1 h
    obtain ⟨-, rfl⟩ := Prod.mk.inj he
    have := ih hq
    simp only [List.length_cons]; omega

theorem length_digits (glyphs : List Glyph) :
    (digits glyphs).1.length + (digits glyphs).2.length = glyphs.length := by
  fun_induction digits glyphs with
  | case1 => rfl
  | case2 g rest d _ ds after he ih => simp only [he] at ih; simp only [List.length_cons]; omega
  | case3 => simp

theorem digits?_length {glyphs after : List Glyph} {ds : List Nat}
    (h : digits? glyphs = some (ds, after)) : after.length < glyphs.length := by
  have hl := length_digits glyphs
  unfold digits? at h
  split at h
  · simp at h
  · rename_i found hne
    have he := Option.some.inj h
    rw [he] at hl hne
    cases ds with
    | nil => exact absurd rfl (hne after)
    | cons d ds => simp only [List.length_cons] at hl; omega

theorem wholePart?_length {glyphs after : List Glyph} {ds : List Nat}
    (h : wholePart? glyphs = some (ds, after)) : after.length < glyphs.length := by
  unfold wholePart? at h
  split at h
  · simp at h
  · exact digits?_length h

theorem fractionPart?_length {glyphs after : List Glyph} {ds : Option (List Nat)}
    (h : fractionPart? glyphs = some (ds, after)) : after.length ≤ glyphs.length := by
  unfold fractionPart? at h
  split at h
  · obtain ⟨⟨qs, a⟩, hq, he⟩ := Option.map_eq_some_iff.1 h
    obtain ⟨-, rfl⟩ := Prod.mk.inj he
    have := digits?_length hq
    simp only [List.length_cons]; omega
  · obtain ⟨-, rfl⟩ := Prod.mk.inj (Option.some.inj h)
    exact Nat.le_refl _

theorem length_exponentSign (glyphs : List Glyph) :
    (exponentSign glyphs).2.length ≤ glyphs.length := by
  unfold exponentSign
  split <;> simp

theorem exponentPart?_length {glyphs after : List Glyph} {e : Option Int}
    (h : exponentPart? glyphs = some (e, after)) : after.length ≤ glyphs.length := by
  unfold exponentPart? at h
  split at h
  · rename_i c rest
    split at h
    · obtain ⟨⟨qs, a⟩, hq, he⟩ := Option.map_eq_some_iff.1 h
      obtain ⟨-, rfl⟩ := Prod.mk.inj he
      have := digits?_length hq
      have := length_exponentSign rest
      simp only [List.length_cons]; omega
    · obtain ⟨-, rfl⟩ := Prod.mk.inj (Option.some.inj h)
      exact Nat.le_refl _
  · obtain ⟨-, rfl⟩ := Prod.mk.inj (Option.some.inj h)
    exact Nat.le_refl _

theorem number?_length {negative : Bool} {glyphs after : List Glyph} {d : Document}
    (h : number? negative glyphs = some (d, after)) : after.length < glyphs.length := by
  simp only [number?, bind, Option.bind_eq_some_iff] at h
  obtain ⟨⟨ds, a⟩, ha, ⟨f, b⟩, hb, ⟨e, c⟩, hc, h⟩ := h
  have : a.length < glyphs.length := wholePart?_length ha
  have : b.length ≤ a.length := fractionPart?_length hb
  have : c.length ≤ b.length := exponentPart?_length hc
  obtain rfl : after = c := by split at h <;> simp_all [pure]
  omega

theorem after?_length {cs : List Char} {glyphs after : List Glyph}
    (h : after? cs glyphs = some after) : after.length ≤ glyphs.length := by
  fun_induction after? cs glyphs with
  | case1 rest => exact Nat.le_of_eq (congrArg List.length (Option.some.inj h).symm)
  | case2 c cs rest ih => exact Nat.le_succ_of_le (ih h)
  | case3 => simp at h
  | case4 => simp at h

theorem token?_length {c : Char} {rest after : List Glyph} {t : Token}
    (h : token? c rest = some (t, after)) : after.length ≤ rest.length := by
  unfold token? at h
  split at h
  all_goals first
    | (obtain ⟨-, rfl⟩ := Prod.mk.inj (Option.some.inj h); exact Nat.le_refl _)
    | skip
  · obtain ⟨⟨qs, a⟩, hq, he⟩ := Option.map_eq_some_iff.1 h
    obtain ⟨-, rfl⟩ := Prod.mk.inj he
    exact Nat.le_of_lt (pieces?_length hq)
  · obtain ⟨a, hq, he⟩ := Option.map_eq_some_iff.1 h
    obtain ⟨-, rfl⟩ := Prod.mk.inj he
    exact after?_length hq
  · obtain ⟨a, hq, he⟩ := Option.map_eq_some_iff.1 h
    obtain ⟨-, rfl⟩ := Prod.mk.inj he
    exact after?_length hq
  · obtain ⟨a, hq, he⟩ := Option.map_eq_some_iff.1 h
    obtain ⟨-, rfl⟩ := Prod.mk.inj he
    exact after?_length hq
  · obtain ⟨⟨d, a⟩, hq, he⟩ := Option.map_eq_some_iff.1 h
    obtain ⟨-, rfl⟩ := Prod.mk.inj he
    exact Nat.le_of_lt (number?_length hq)
  · obtain ⟨⟨d, a⟩, hq, he⟩ := Option.map_eq_some_iff.1 h
    obtain ⟨-, rfl⟩ := Prod.mk.inj he
    exact Nat.le_of_lt_succ (number?_length hq)

/-! ## All words -/

/-- Whether a character is a blank between words. -/
def isBlank (c : Char) : Bool := c = ' ' || c = '\t' || c = '\n' || c = '\r'

/-- The words of a text. -/
def tokens? : List Glyph → Option (List Token)
  | [] => some []
  | none :: _ => none
  | some c :: rest =>
    if isBlank c then tokens? rest
    else
      match _h : token? c rest with
      | none => none
      | some (token, after) => (tokens? after).map (token :: ·)
termination_by glyphs => glyphs.length
decreasing_by
  · simp
  · have := token?_length _h
    simp only [List.length_cons]; omega

end StepSignal.Json
