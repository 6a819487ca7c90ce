import StepSignal.Proofs.Decimal.Layout
import StepSignal.Proofs.Document
import StepSignal.Proofs.Toml.Text

/-!
# Numbers are read as they were written

Every number of a document is written as a sign, digits and perhaps a fraction, or as one of the words
for what has no digits. It is read back as the same number, and as nothing else: what looks like the
first field of a date or a time is no such thing, because no field ends where the digits do.
-/

namespace StepSignal.Toml

open Decimal (Numeral digitValue signChars)

variable {c : Char} {cs ds rest : List Char}

/-! ## Digits -/

theorem digitBelow?_some (h : c.isDigit = true) : digitBelow? 10 c = some (digitValue c) := by
  have hrange : '0' ≤ c ∧ c ≤ '9' := by
    simp only [Char.isDigit, Bool.and_eq_true, decide_eq_true_eq] at h
    exact h
  have hlow : '0'.toNat ≤ c.toNat := hrange.1
  have hhigh : c.toNat ≤ '9'.toNat := hrange.2
  have hbelow : digitValue c < 10 := by
    have hnine : '9'.toNat = '0'.toNat + 9 := rfl
    rw [digitValue]
    omega
  rw [digitBelow?, hexValue?, if_pos hrange]
  exact if_pos hbelow

/-- Whether what comes next is neither a digit nor an underscore between digits. -/
def NoDigit (rest : List Char) : Prop := ∀ c ∈ rest.head?, digitBelow? 10 c = none ∧ c ≠ '_'

/-- What may stand behind the digits before a point: the point, or the end of the value. -/
theorem noDigit_of_mem (hc : c ∈ ['.', '\n', ',', ' ', ']']) (rest : List Char) :
    NoDigit (c :: rest) := by
  intro d hd
  obtain rfl := Option.some.inj hd
  fin_cases hc <;> exact ⟨rfl, by decide⟩

theorem EndsValue.noDigit (h : EndsValue rest) : NoDigit rest := by
  obtain ⟨c, more, rfl, hc⟩ := h
  exact noDigit_of_mem (List.mem_cons_of_mem _ hc) more

/-- Digits are read up to the first other character. -/
theorem moreDigits?_append (hds : ∀ c ∈ ds, c.isDigit = true) (hrest : NoDigit rest) :
    moreDigits? 10 (ds ++ rest) = some (ds.map digitValue, rest) := by
  induction ds with
  | nil =>
    cases rest with
    | nil => rfl
    | cons c rest =>
      obtain ⟨hc, hline⟩ := hrest c rfl
      rw [List.nil_append, moreDigits?.eq_3 _ _ _ fun _ _ h => absurd h hline, hc, if_neg hline]
      rfl
  | cons c ds ih =>
    obtain ⟨hc, hds⟩ := List.forall_mem_cons.mp hds
    have hline : c ≠ '_' := by
      rintro rfl
      exact absurd hc (by decide)
    rw [List.cons_append, moreDigits?.eq_3 _ _ _ fun _ _ h => absurd h hline, digitBelow?_some hc, ih hds]
    rfl

theorem digits?_append (hne : ds ≠ []) (hds : ∀ c ∈ ds, c.isDigit = true) (hrest : NoDigit rest) :
    digits? 10 (ds ++ rest) = some (ds.map digitValue, rest) := by
  obtain ⟨c, ds, rfl⟩ := List.exists_cons_of_ne_nil hne
  obtain ⟨hc, hds⟩ := List.forall_mem_cons.mp hds
  rw [List.cons_append, digits?, digitBelow?_some hc, moreDigits?_append hds hrest]
  rfl

/-- Digits of which the first is zero only when it is alone. -/
structure IsWhole (ds : List Char) : Prop where
  digits : ∀ c ∈ ds, c.isDigit = true
  first : ds = ['0'] ∨ ∃ c more, ds = c :: more ∧ c ≠ '0'

theorem IsWhole.exists_cons (h : IsWhole ds) : ∃ c more, ds = c :: more ∧ c.isDigit = true := by
  rcases h.first with rfl | ⟨c, more, rfl, -⟩
  · exact ⟨'0', [], rfl, rfl⟩
  · exact ⟨c, more, rfl, h.digits c List.mem_cons_self⟩

theorem isWhole_toDigits (n : Nat) : IsWhole (Nat.toDigits 10 n) :=
  ⟨fun _ hc => Decimal.isDigit_toDigits hc, Decimal.toDigits_first n⟩

/-- The digits before the point. -/
theorem wholePart?_append (hds : IsWhole ds) (hrest : NoDigit rest) :
    wholePart? (ds ++ rest) = some (ds.map digitValue, rest) := by
  rcases hds.first with rfl | ⟨c, more, rfl, hc⟩
  · rfl
  · have hzero : ∀ after, c :: more ++ rest = '0' :: after → False :=
      fun _ h => hc (List.cons.inj h).1
    rw [wholePart?.eq_2 _ hzero, digits?_append (List.cons_ne_nil c more) hds.digits hrest]

theorem ofDigits_map (cs : List Char) :
    ofDigits 10 (cs.map digitValue) = Nat.ofDigitChars 10 cs 0 := Decimal.foldl_digitValue cs

/-! ## Numerals -/

theorem EndsValue.exponentPart? (h : EndsValue rest) : exponentPart? rest = some (none, rest) := by
  obtain ⟨c, more, rfl, hc⟩ := h
  have hno : (decide (c = 'e') || decide (c = 'E')) = false := by
    fin_cases hc <;> rfl
  rw [Toml.exponentPart?, hno]
  rfl

/-- **The digits of a whole number are read as the number.** -/
theorem decimal?_whole (n : Nat) (negative : Bool) (hrest : EndsValue rest) :
    decimal? negative (Nat.toDigits 10 n ++ rest) =
      (integerDocument? (if negative then -n else n)).map fun d => (d, rest) := by
  have hfraction : fractionPart? rest = some (none, rest) :=
    fractionPart?.eq_2 rest fun more h => hrest.head?_ne (q := '.') (by decide) (h ▸ rfl)
  rw [decimal?, wholePart?_append (isWhole_toDigits n) hrest.noDigit]
  simp only [Option.bind_eq_bind, Option.bind_some, hfraction, hrest.exponentPart?, ofDigits_map,
    Nat.ofDigitChars_ten_toDigits]
  cases integerDocument? (if negative then -n else n) <;> rfl

/-- **A numeral without a power of ten is read as its decimal.** -/
theorem decimal?_numeral {n : Numeral} (hn : n.WellFormed) (hpower : n.power = none)
    (negative : Bool) (hrest : EndsValue rest) : decimal? negative (n.chars ++ rest) =
      (floatDocument? negative n.decimal).map fun d => (d, rest) := by
  obtain ⟨whole, fraction, power⟩ := n
  obtain rfl : power = none := hpower
  obtain ⟨ds, rfl⟩ : ∃ ds, fraction = some ds :=
    Option.ne_none_iff_exists'.mp (hn.notInteger.resolve_right (not_not.mpr rfl))
  obtain ⟨hwhole, hplaces⟩ := List.forall_mem_append.mp hn.digits
  have hchars : (⟨whole, some ds, none⟩ : Numeral).chars ++ rest = whole ++ '.' :: (ds ++ rest) := by
    simp [Numeral.chars, Numeral.fractionChars, Numeral.powerChars]
  have hfraction : fractionPart? ('.' :: (ds ++ rest)) = some (some (ds.map digitValue), rest) := by
    rw [fractionPart?, digits?_append (fun h => hn.fraction (congrArg some h)) hplaces hrest.noDigit]
    rfl
  rw [hchars, decimal?, wholePart?_append ⟨hwhole, hn.first⟩ (noDigit_of_mem (by decide) _)]
  simp only [Option.bind_eq_bind, Option.bind_some, hfraction, hrest.exponentPart?,
    Option.getD_some, Option.getD_none, ← List.map_append, ofDigits_map, List.length_map,
    Numeral.decimal, Numeral.places]
  cases floatDocument? negative _ <;> rfl

/-! ## No date and no time -/

theorem mapM_eq_some {β γ : Type} {f : β → Option γ} {xs : List β} {ys : List γ}
    (h : xs.mapM f = some ys) : ys.length = xs.length ∧ ∀ x ∈ xs, f x ≠ none := by
  induction xs generalizing ys with
  | nil =>
    obtain rfl : [] = ys := Option.some.inj h
    exact ⟨rfl, by simp⟩
  | cons x xs ih =>
    simp only [List.mapM_cons, Option.bind_eq_bind, Option.bind_eq_some_iff] at h
    obtain ⟨y, hy, ys, hys, hcons⟩ := h
    obtain rfl := Option.some.inj hcons
    obtain ⟨hlength, hsome⟩ := ih hys
    refine ⟨congrArg (· + 1) hlength, List.forall_mem_cons.mpr ⟨?_, hsome⟩⟩
    rw [hy]
    simp

/-- A field of a date or a time starts with a digit. -/
theorem field?_of_head (hc : digitBelow? 10 c = none) (width least greatest : Nat) :
    field? (width + 1) least greatest (c :: cs) = none := by
  rw [field?, List.take_succ_cons, List.mapM_cons, hc]
  rfl

/-- Behind a field of a number stands no separator that is not right behind all of its digits. -/
theorem after?_of_field? {width least greatest n : Nat} {after : List Char} {separator : Char}
    (hds : ∀ c ∈ ds, c.isDigit = true) (hseparator : separator.isDigit = false)
    (hrest : ∀ c ∈ rest.head?, digitBelow? 10 c = none ∧ c ≠ separator)
    (h : field? width least greatest (ds ++ rest) = some (n, after)) :
    after? separator after = none := by
  simp only [field?, Option.bind_eq_bind, Option.bind_eq_some_iff] at h
  obtain ⟨values, hvalues, _, hlength, _, _, hafter⟩ := h
  have hwhole : values.length = width := by
    by_contra hne
    simp only [guard, if_neg hne] at hlength
    exact absurd hlength (by simp)
  obtain ⟨hcount, hsome⟩ := mapM_eq_some hvalues
  obtain rfl : (ds ++ rest).drop width = after := (Prod.mk.inj (Option.some.inj hafter)).2
  -- the field ends among the digits, or right behind them
  have hwidth : width ≤ ds.length := by
    by_contra! hlt
    cases rest with
    | nil =>
      rw [List.append_nil, List.length_take] at hcount
      omega
    | cons c rest =>
      have hmem : c ∈ (ds ++ c :: rest).take width := by
        refine List.mem_take_iff_getElem.mpr ⟨ds.length, ?_, by simp⟩
        rw [List.length_append, List.length_cons]
        omega
      exact hsome c hmem (hrest c rfl).1
  rw [List.drop_append_of_le_length hwidth]
  cases hdrop : ds.drop width with
  | nil =>
    cases rest with
    | nil => rfl
    | cons c rest => exact if_neg (hrest c rfl).2
  | cons d more =>
    have hd : d.isDigit = true := hds d (List.mem_of_mem_drop (hdrop ▸ List.mem_cons_self))
    refine if_neg ?_
    rintro rfl
    rw [hd] at hseparator
    exact absurd hseparator (by decide)

/-- **Digits with a point or the end of the value behind them are no date and no time.** -/
theorem moment?_of_digits (hds : ∀ c ∈ ds, c.isDigit = true)
    (hc : c ∈ ['.', '\n', ',', ' ', ']']) (rest : List Char) :
    moment? (ds ++ c :: rest) = none := by
  have hafter : ∀ separator ∈ ['-', ':'], ∀ {width least greatest n : Nat} {after : List Char},
      field? width least greatest (ds ++ c :: rest) = some (n, after) →
        after? separator after = none := by
    intro separator hseparator width least greatest n after h
    refine after?_of_field? hds (by fin_cases hseparator <;> rfl) (fun d hd => ?_) h
    obtain rfl := Option.some.inj hd
    exact ⟨(noDigit_of_mem hc rest c rfl).1, by fin_cases hc <;> fin_cases hseparator <;> decide⟩
  have hdate : date? (ds ++ c :: rest) = none := by
    rw [date?]
    rcases hyear : field? 4 0 9999 (ds ++ c :: rest) with - | ⟨year, after⟩
    · rfl
    · simp [hafter '-' (by decide) hyear]
  have htime : time? (ds ++ c :: rest) = none := by
    rw [time?]
    rcases hhour : field? 2 0 23 (ds ++ c :: rest) with - | ⟨hour, after⟩
    · rfl
    · simp [hafter ':' (by decide) hhour]
  rw [moment?, hdate, htime]
  rfl

theorem moment?_of_head (hc : digitBelow? 10 c = none) : moment? (c :: cs) = none := by
  rw [moment?, date?, time?, field?_of_head hc, field?_of_head hc]
  rfl

/-! ## Words -/

/-- What becomes of the numbers of a document: every whole number is read as an integer. -/
def renumbering : Document.Renumbering where
  natural n := .integer n
  integer n := .integer n
  float x := .float x

theorem keeps_renumbering : renumbering.Keeps :=
  ⟨fun _ _ => rfl, fun _ _ _ => rfl, fun _ _ => rfl⟩

/-- The characters that may stand in front of a value or that start one with parts. -/
def frontChars : List Char := [' ', '\t', '\r', '\n', '#', ']', '[', '\x7b']

/-- Whether some characters are read as one value without parts, if what comes next can stand behind
a value. -/
def IsWord (chars : List Char) (d : Document) : Prop :=
  ∃ c more, chars = c :: more ∧ c ∉ frontChars ∧
    ∀ rest, EndsValue rest → simple? (chars ++ rest) = some (d, rest)

theorem isWord_bool (b : Bool) : IsWord (if b then "true" else "false").toList (.bool b) := by
  cases b
  · exact ⟨'f', "alse".toList, rfl, by decide, fun _ _ => rfl⟩
  · exact ⟨'t', "rue".toList, rfl, by decide, fun _ _ => rfl⟩

theorem quote_eq_cons (text : List Char) : ∃ c more, quote text = c :: more ∧ c ∈ ['"', '\x27'] := by
  simp only [quote]
  split
  · exact ⟨'"', _, rfl, by decide⟩
  split
  · exact ⟨'\x27', _, rfl, by decide⟩
  split
  · exact ⟨'"', _, rfl, by decide⟩
  split
  · exact ⟨'\x27', _, rfl, by decide⟩
  split
  · exact ⟨'"', _, rfl, by decide⟩
  · exact ⟨'"', _, rfl, by decide⟩

theorem isWord_quote (s : String) : IsWord (quote s.toList) (.text s) := by
  obtain ⟨c, more, hquote, hc⟩ := quote_eq_cons s.toList
  refine ⟨c, more, hquote, by fin_cases hc <;> decide, fun rest hrest => ?_⟩
  have hnot : c ≠ 't' ∧ c ≠ 'f' := by
    fin_cases hc <;> decide
  rw [simple?.eq_3 _ (fun _ h => hnot.1 ?_) (fun _ h => hnot.2 ?_), text?_quote _ hrest]
  · show some (Document.text (String.ofList s.toList), rest) = _
    rw [String.ofList_toList]
  all_goals
    rw [hquote] at h
    exact (List.cons.inj h).1

/-- What starts like no other value and is no date or time is read as a number. -/
theorem simple?_eq_number? (hc : c ∉ ['t', 'f', '"', '\x27']) (hmoment : moment? (c :: cs) = none) :
    simple? (c :: cs) = number? (c :: cs) := by
  simp only [List.mem_cons, List.not_mem_nil, or_false, not_or] at hc
  obtain ⟨ht, hf, hdouble, hsingle⟩ := hc
  have htext : text? (c :: cs) = none :=
    text?.eq_5 _ (fun _ h => hdouble (List.cons.inj h).1) (fun _ h => hdouble (List.cons.inj h).1)
      (fun _ h => hsingle (List.cons.inj h).1) (fun _ h => hsingle (List.cons.inj h).1)
  rw [simple?.eq_3 _ (fun _ h => ht (List.cons.inj h).1) (fun _ h => hf (List.cons.inj h).1), htext,
    hmoment]
  rfl

/-- A sign and digits are read as a decimal number with the sign. -/
theorem number?_of_digits (hds : IsWhole ds) (hc : c ∈ ['.', '\n', ',', ' ', ']']) (negative : Bool)
    (rest : List Char) : number? (signChars negative ++ (ds ++ c :: rest)) =
      decimal? negative (ds ++ c :: rest) := by
  obtain ⟨d, more, hcons, hd⟩ := hds.exists_cons
  have hne : ∀ e : Char, e.isDigit = false → d ≠ e := by
    rintro e he rfl
    rw [hd] at he
    exact absurd he (by decide)
  have hspecial : special? negative (ds ++ c :: rest) = none := by
    rw [hcons]
    exact special?.eq_3 _ _ (fun _ h => hne 'i' rfl (List.cons.inj h).1)
      (fun _ h => hne 'n' rfl (List.cons.inj h).1)
  cases negative with
  | true =>
    show (special? true (ds ++ c :: rest)).or (decimal? true (ds ++ c :: rest)) = _
    rw [hspecial, Option.none_or]
  | false =>
    -- a zero in front has the point or the end behind it, and not the mark of another base
    have hbase : ∀ b ∈ ['x', 'o', 'b'], ∀ after, ds ++ c :: rest ≠ '0' :: b :: after := by
      intro b hb after heq
      rcases hds.first with rfl | ⟨e, tail, rfl, he⟩
      · obtain rfl : c = b := (List.cons.inj (List.cons.inj heq).2).1
        fin_cases hb <;> exact absurd hc (by decide)
      · exact he (List.cons.inj heq).1
    have hsign : sign (ds ++ c :: rest) = (false, ds ++ c :: rest) := by
      rw [hcons]
      exact sign.eq_3 _ (fun _ h => hne '-' rfl (List.cons.inj h).1)
        (fun _ h => hne '+' rfl (List.cons.inj h).1)
    show number? (ds ++ c :: rest) = _
    rw [number?.eq_4 _ (hbase 'x' (by decide)) (hbase 'o' (by decide)) (hbase 'b' (by decide)),
      hsign]
    show (special? false (ds ++ c :: rest)).or (decimal? false (ds ++ c :: rest)) = _
    rw [hspecial, Option.none_or]

/-- A sign and digits are one word when the digits, with what comes behind them, are read as a decimal
number. -/
theorem isWord_of_decimal? {negative : Bool} {d : Document} {after : List Char} (hds : IsWhole ds)
    (hafter : after = [] ∨ after.head? = some '.')
    (h : ∀ rest, EndsValue rest → decimal? negative (ds ++ after ++ rest) = some (d, rest)) :
    IsWord (signChars negative ++ (ds ++ after)) d := by
  obtain ⟨first, more, hcons, hfirst⟩ := hds.exists_cons
  have hplain : first ∉ frontChars ∧ first ∉ ['t', 'f', '"', '\x27'] := by
    constructor <;> intro hmem <;> fin_cases hmem <;> exact absurd hfirst (by decide)
  have hread : ∀ rest, EndsValue rest →
      moment? (ds ++ after ++ rest) = none ∧
        number? (signChars negative ++ (ds ++ after ++ rest)) = some (d, rest) := by
    intro rest hrest
    obtain ⟨c, tail, htail, hc⟩ : ∃ c tail, after ++ rest = c :: tail ∧
        c ∈ ['.', '\n', ',', ' ', ']'] := by
      rcases hafter with rfl | hpoint
      · obtain ⟨c, tail, rfl, hc⟩ := hrest
        exact ⟨c, tail, rfl, List.mem_cons_of_mem _ hc⟩
      · obtain ⟨tail, rfl⟩ := List.head?_eq_some_iff.mp hpoint
        exact ⟨'.', tail ++ rest, rfl, by decide⟩
    have hdecimal := h rest hrest
    rw [List.append_assoc, htail] at hdecimal ⊢
    exact ⟨moment?_of_digits hds.digits hc tail, (number?_of_digits hds hc negative tail).trans hdecimal⟩
  cases negative with
  | true =>
    refine ⟨'-', ds ++ after, rfl, by decide, fun rest hrest => ?_⟩
    have hnumber := (hread rest hrest).2
    show simple? ('-' :: (ds ++ after ++ rest)) = _
    rw [simple?_eq_number? (by decide) (moment?_of_head rfl)]
    exact hnumber
  | false =>
    refine ⟨first, more ++ after, by rw [hcons]; rfl, hplain.1, fun rest hrest => ?_⟩
    obtain ⟨hmoment, hnumber⟩ := hread rest hrest
    have hchars : ds ++ after ++ rest = first :: (more ++ after ++ rest) := by rw [hcons]; rfl
    show simple? (ds ++ after ++ rest) = _
    rw [hchars] at hmoment ⊢
    rw [simple?_eq_number? hplain.2 hmoment, ← hchars]
    exact hnumber

/-- **A whole number of 64 bits is read as itself.** -/
theorem isWord_integer {n : Int} (hn : Int64.minValue.toInt ≤ n ∧ n ≤ Int64.maxValue.toInt) :
    IsWord (toString n).toList (.integer n) := by
  have hsign : (if decide (n < 0) = true then -(n.natAbs : Int) else n.natAbs) = n := by
    by_cases hneg : n < 0
    · rw [if_pos (decide_eq_true hneg)]
      omega
    · rw [if_neg (by simpa using hneg)]
      omega
  rw [Decimal.toList_toString_int, ← List.append_nil (Nat.toDigits 10 n.natAbs)]
  refine isWord_of_decimal? (isWhole_toDigits n.natAbs) (.inl rfl) fun rest hrest => ?_
  rw [List.append_nil, decimal?_whole _ _ hrest, hsign, integerDocument?, if_pos hn]
  rfl

theorem isWord_natural {n : Nat} (hn : n < 1 <<< 63) : IsWord (toString n).toList (.integer n) := by
  have hlimit : n < 2 ^ 63 := hn
  have hrange : Int64.minValue.toInt ≤ (n : Int) ∧ (n : Int) ≤ Int64.maxValue.toInt := by
    have hmin : Int64.minValue.toInt = -2 ^ 63 := by decide
    have hmax : Int64.maxValue.toInt = 2 ^ 63 - 1 := by decide
    omega
  have htext : toString (n : Int) = toString n := rfl
  rw [← htext]
  exact isWord_integer hrange

/-- A finite number is read as itself. -/
theorem isWord_finite {x : Float} (hx : x.isFinite = true) :
    IsWord (numberLayout.text x).toList (.float x) := by
  obtain ⟨n, htext, hn, hnearest, hpower⟩ := Decimal.exists_numeral numberLayout rfl hx
  have hdocument : floatDocument? (Binary64.isNegative x) n.decimal = some (.float x) := by
    simp only [floatDocument?, hnearest, hx, Bool.true_or, if_true]
  have hchars : n.chars = n.whole ++ Numeral.fractionChars n.fraction := by
    rw [Numeral.chars, hpower rfl]
    exact List.append_nil _
  have hpoint : Numeral.fractionChars n.fraction = [] ∨
      (Numeral.fractionChars n.fraction).head? = some '.' := by
    cases n.fraction with
    | none => exact .inl rfl
    | some ds => exact .inr rfl
  have hwhole : IsWhole n.whole := ⟨(List.forall_mem_append.mp hn.digits).1, hn.first⟩
  rw [htext, hchars]
  refine isWord_of_decimal? hwhole hpoint fun rest hrest => ?_
  rw [← hchars, decimal?_numeral hn (hpower rfl) _ hrest, hdocument]
  rfl

/-- A name without digits is read as the number it stands for. -/
theorem isWord_special {more : List Char} {x : Float} (hfront : c ∉ frontChars)
    (hc : c ∉ ['t', 'f', '"', '\x27']) (hdigit : digitBelow? 10 c = none)
    (hread : ∀ rest, number? (c :: (more ++ rest)) = some (.float x, rest)) :
    IsWord (c :: more) (.float x) := by
  refine ⟨c, more, rfl, hfront, fun rest _ => ?_⟩
  rw [List.cons_append, simple?_eq_number? hc (moment?_of_head hdigit), hread]

/-- A number that is neither finite nor missing is read as itself. -/
theorem isWord_infinity {x : Float} (hnan : x.isNaN = false) (hx : x.isFinite = false) :
    IsWord (numberLayout.text x).toList (.float x) := by
  have hinfinity := Binary64.eq_infinity hnan hx
  have htext : (numberLayout.text x).toList =
      signChars (Binary64.isNegative x) ++ "inf".toList := by
    simp only [Decimal.Layout.text, hnan, hx, Bool.false_eq_true, if_false, Bool.not_false, if_true]
    rw [String.toList_append]
    cases Binary64.isNegative x <;> rfl
  rw [htext]
  generalize Binary64.isNegative x = negative at hinfinity ⊢
  rw [hinfinity]
  cases negative with
  | true => exact isWord_special (by decide) (by decide) (by decide) fun _ => rfl
  | false => exact isWord_special (by decide) (by decide) (by decide) fun _ => rfl

/-- **A number is read as itself**, also one that is not finite. -/
theorem isWord_number (x : Float) : IsWord (number x) (.float x) := by
  rw [number]
  by_cases hnan : x.isNaN = true
  · have hmissing : x = 0.0 / 0.0 := Binary64.eq_of_isNaN hnan (by decide)
    rw [if_pos hnan, hmissing]
    exact isWord_special (by decide) (by decide) (by decide) fun _ => rfl
  · rw [if_neg hnan]
    by_cases hx : x.isFinite = true
    · exact isWord_finite hx
    · exact isWord_infinity (Bool.eq_false_iff.mpr hnan) (Bool.eq_false_iff.mpr hx)

end StepSignal.Toml
