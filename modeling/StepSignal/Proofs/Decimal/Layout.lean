import StepSignal.Decimal.Layout
import StepSignal.Proofs.Decimal.Shortest

/-!
# The text of a double is a numeral that reads back

However a format lays a number out, its text is a sign and a `Numeral`: digits, perhaps a fraction,
perhaps a power of ten. The numeral stands for the shortest decimal, so that the nearest double to it
is the one that was written. Formats that mark whole numbers by `.0` never write a numeral that
could be taken for an integer.
-/

namespace StepSignal.Decimal

open Nat (ofDigitChars toDigits)

/-! ## Digits -/

theorem toList_toString (n : Nat) : (toString n).toList = toDigits 10 n := Nat.toList_repr

theorem isDigit_toDigits {c : Char} {n : Nat} (h : c ∈ toDigits 10 n) : c.isDigit = true :=
  Nat.isDigit_of_mem_toDigits (by decide) le_rfl h

/-- The value of a digit. -/
def digitValue (c : Char) : Nat := c.toNat - '0'.toNat

/-- The number that the values of digits make up. -/
theorem foldl_digitValue (cs : List Char) :
    (cs.map digitValue).foldl (fun n d => n * 10 + d) 0 = ofDigitChars 10 cs 0 := by
  rw [List.foldl_map, Nat.ofDigitChars_eq_foldl]
  simp only [digitValue, Nat.mul_comm]

/-- The digits of a number above zero start with no zero. -/
theorem exists_toDigits_eq_cons {n : Nat} (hn : 0 < n) :
    ∃ c rest, toDigits 10 n = c :: rest ∧ c ≠ '0' := by
  induction n using Nat.strongRecOn with
  | ind n ih =>
    rcases Nat.lt_or_ge n 10 with hlt | hge
    · exact ⟨n.digitChar, [], Nat.toDigits_of_lt_base hlt, by simpa using hn.ne'⟩
    · obtain ⟨c, rest, hdigits, hc⟩ := ih (n / 10) (by omega) (by omega)
      refine ⟨c, rest ++ [(n % 10).digitChar], ?_, hc⟩
      rw [Nat.toDigits_of_base_le (by decide) hge, hdigits, List.cons_append]

theorem toDigits_first (n : Nat) :
    toDigits 10 n = ['0'] ∨ ∃ c cs, toDigits 10 n = c :: cs ∧ c ≠ '0' := by
  rcases Nat.eq_zero_or_pos n with rfl | hn
  · exact .inl (Nat.toDigits_zero 10)
  · exact .inr (exists_toDigits_eq_cons hn)

/-- Zeros behind the digits of a number multiply it. -/
theorem ofDigitChars_append_zeros (cs : List Char) (k : Nat) :
    ofDigitChars 10 (cs ++ List.replicate k '0') 0 = 10 ^ k * ofDigitChars 10 cs 0 := by
  rw [Nat.ofDigitChars_append, Nat.ofDigitChars_replicate_zero]

/-! ## Numerals -/

/-- A number as it is spelled, without its sign. -/
structure Numeral where
  whole : List Char
  /-- The digits behind the point, if there is one. -/
  fraction : Option (List Char)
  /-- The power of ten, if there is one. -/
  power : Option Int

namespace Numeral

/-- The digits behind the point. -/
def places (n : Numeral) : List Char := n.fraction.getD []

/-- The spelling of a fraction. -/
def fractionChars : Option (List Char) → List Char
  | some ds => '.' :: ds
  | none => []

/-- The spelling of a power of ten, which always has a sign. -/
def powerChars : Option Int → List Char
  | some p => 'e' :: (if p < 0 then '-' else '+') :: toDigits 10 p.natAbs
  | none => []

def chars (n : Numeral) : List Char := n.whole ++ fractionChars n.fraction ++ powerChars n.power

/-- The decimal that a numeral stands for. -/
def decimal (n : Numeral) : Digits :=
  ⟨ofDigitChars 10 (n.whole ++ n.places) 0, n.power.getD 0 - n.places.length⟩

/-- What holds of the numerals of doubles: there are digits before the point, the first of them zero
only when it is alone, and behind it; and they have a fraction or a power of ten. -/
structure WellFormed (n : Numeral) : Prop where
  digits : ∀ c ∈ n.whole ++ n.places, c.isDigit = true
  first : n.whole = ['0'] ∨ ∃ c rest, n.whole = c :: rest ∧ c ≠ '0'
  fraction : n.fraction ≠ some []
  notInteger : n.fraction ≠ none ∨ n.power ≠ none

end Numeral

/-! ## Layouts -/

/-- A text that spells a decimal by a well-formed numeral. -/
def Spells (text : List Char) (v : ℚ) (n : Numeral) : Prop :=
  text = n.chars ∧ n.WellFormed ∧ n.decimal.value = v

variable {d : Digits}

/-- A decimal without places behind the point: its digits, zeros up to the point, and one behind. -/
theorem spells_whole (hd : 0 < d.digits) (hsign : 0 ≤ d.exponent) :
    Spells (positionalText ".0" (toString d.digits) d.exponent).toList d.value
      ⟨toDigits 10 d.digits ++ List.replicate d.exponent.toNat '0', some ['0'], none⟩ := by
  obtain ⟨c, rest, hdigits, hc⟩ := exists_toDigits_eq_cons hd
  refine ⟨?_, ⟨?_, ?_, by simp, by simp⟩, ?_⟩
  · simp only [positionalText, toList_toString, if_pos hsign, String.toList_append,
      String.toList_ofList]
    simp [Numeral.chars, Numeral.fractionChars, Numeral.powerChars]
  · intro x hx
    simp only [Numeral.places, Option.getD_some, List.mem_append, List.mem_replicate,
      List.mem_singleton] at hx
    rcases hx with (hx | ⟨-, rfl⟩) | rfl
    · exact isDigit_toDigits hx
    · rfl
    · rfl
  · exact .inr ⟨c, rest ++ List.replicate d.exponent.toNat '0', by rw [hdigits]; rfl, hc⟩
  · have hzeros : List.replicate d.exponent.toNat '0' ++ ['0'] =
        List.replicate (d.exponent.toNat + 1) '0' := List.replicate_succ'.symm
    have hten : (10 : ℚ) ^ d.exponent = 10 ^ d.exponent.toNat := by
      rw [← zpow_natCast, Int.toNat_of_nonneg hsign]
    simp only [Numeral.decimal, Numeral.places, Option.getD_some, List.append_assoc, hzeros,
      ofDigitChars_append_zeros, Nat.ofDigitChars_ten_toDigits, Digits.value, hten]
    push_cast
    rw [pow_succ]
    norm_num
    ring

/-- The digits of a number with zeros in front, so that there are more of them than places. -/
def padded (n places : Nat) : List Char :=
  List.replicate (places + 1 - (toDigits 10 n).length) '0' ++ toDigits 10 n

theorem isDigit_padded {n places : Nat} {c : Char} (h : c ∈ padded n places) :
    c.isDigit = true := by
  rcases List.mem_append.mp h with hc | hc
  · obtain ⟨-, rfl⟩ := List.mem_replicate.mp hc
    rfl
  · exact isDigit_toDigits hc

theorem ofDigitChars_padded (n places : Nat) : ofDigitChars 10 (padded n places) 0 = n := by
  rw [padded, Nat.ofDigitChars_append, Nat.ofDigitChars_replicate_zero, Nat.mul_zero,
    Nat.ofDigitChars_ten_toDigits]

/-- There is one digit before the places, or more of which the first is not zero. -/
theorem exists_padded_eq_cons {n : Nat} (hn : 0 < n) (places : Nat) : ∃ c rest,
    padded n places = c :: rest ∧ places ≤ rest.length ∧ (c = '0' → rest.length = places) := by
  obtain ⟨c, rest, hdigits, hc⟩ := exists_toDigits_eq_cons hn
  have hlength : (toDigits 10 n).length = rest.length + 1 := by rw [hdigits, List.length_cons]
  rcases hzeros : places + 1 - (toDigits 10 n).length with - | k
  · refine ⟨c, rest, ?_, by omega, fun h => absurd h hc⟩
    rw [padded, hzeros, hdigits]
    rfl
  · refine ⟨'0', List.replicate k '0' ++ toDigits 10 n, ?_, ?_⟩
    · rw [padded, hzeros]
      rfl
    · rw [List.length_append, List.length_replicate]
      omega

/-- A decimal with places behind the point. -/
theorem spells_fraction (hd : 0 < d.digits) (hsign : ¬0 ≤ d.exponent) :
    let digits := padded d.digits (-d.exponent).toNat
    let whole := digits.length - (-d.exponent).toNat
    Spells (positionalText ".0" (toString d.digits) d.exponent).toList d.value
      ⟨digits.take whole, some (digits.drop whole), none⟩ := by
  intro digits whole
  obtain ⟨c, rest, hdigits, hlength, hzero⟩ := exists_padded_eq_cons hd (-d.exponent).toNat
  have hwhole : whole = rest.length + 1 - (-d.exponent).toNat := by
    show (padded d.digits (-d.exponent).toNat).length - _ = _
    rw [hdigits, List.length_cons]
  have hsplit : digits.take whole ++ digits.drop whole = digits := List.take_append_drop _ _
  have hdrop : (digits.drop whole).length = (-d.exponent).toNat := by
    rw [List.length_drop]
    show (padded d.digits (-d.exponent).toNat).length - whole = _
    rw [hdigits, List.length_cons]
    omega
  refine ⟨?_, ⟨?_, ?_, ?_, by simp⟩, ?_⟩
  · simp only [positionalText, toList_toString, if_neg hsign, String.toList_ofList]
    simp [Numeral.chars, Numeral.fractionChars, Numeral.powerChars, digits, whole, padded]
  · intro x hx
    simp only [Numeral.places, Option.getD_some, hsplit] at hx
    exact isDigit_padded hx
  · obtain ⟨k, hk⟩ : ∃ k, whole = k + 1 := ⟨whole - 1, by omega⟩
    have htake : digits.take whole = c :: rest.take k := by
      rw [hk]
      exact congrArg (List.take (k + 1)) hdigits
    by_cases hc : c = '0'
    · left
      have hnone : k = 0 := by
        have := hzero hc
        omega
      rw [htake, hc, hnone, List.take_zero]
    · exact .inr ⟨c, rest.take k, htake, hc⟩
  · intro hempty
    rw [Option.some.inj hempty, List.length_nil] at hdrop
    omega
  · have hpower : ((digits.drop whole).length : Int) = -d.exponent := by
      rw [hdrop]
      omega
    simp only [Numeral.decimal, Numeral.places, Option.getD_some, hsplit, Digits.value, hpower,
      Option.getD_none, zero_sub, neg_neg]
    rw [ofDigitChars_padded]

/-- A decimal with one digit before the point and a power of ten. -/
theorem exists_spells_scientific (hd : 0 < d.digits) :
    ∃ n, Spells (scientificText (toString d.digits) d.exponent).toList d.value n := by
  obtain ⟨c, rest, hdigits, hc⟩ := exists_toDigits_eq_cons hd
  have hall : ∀ x ∈ c :: rest, x.isDigit = true := fun x hx => isDigit_toDigits (hdigits ▸ hx)
  have hplaces : (if rest = [] then none else some rest : Option (List Char)).getD [] = rest := by
    split <;> simp_all
  refine ⟨⟨[c], if rest = [] then none else some rest, some (d.exponent + rest.length)⟩,
    ?_, ⟨?_, .inr ⟨c, [], rfl, hc⟩, ?_, by simp⟩, ?_⟩
  · have hpower : d.exponent + ((c :: rest).length - 1 : Int) = d.exponent + rest.length := by
      rw [List.length_cons]
      push_cast
      ring
    simp only [scientificText, toList_toString, hdigits, hpower, String.toList_append,
      String.toList_ofList]
    cases rest <;> simp [Numeral.chars, Numeral.fractionChars, Numeral.powerChars] <;>
      split <;> rfl
  · intro x hx
    simp only [Numeral.places, hplaces] at hx
    exact hall x hx
  · cases rest <;> simp
  · have hnumber : ofDigitChars 10 (c :: rest) 0 = d.digits := by
      rw [← hdigits, Nat.ofDigitChars_ten_toDigits]
    simp only [Numeral.decimal, Numeral.places, hplaces, Option.getD_some, add_sub_cancel_right,
      Digits.value, List.singleton_append, hnumber]

/-- The text of a decimal above zero spells it; a layout that never writes a power of ten writes
none. -/
theorem exists_spells_digitsText {layout : Layout} (hlayout : layout.wholeEnd = ".0")
    (hd : 0 < d.digits) : ∃ n, Spells (layout.digitsText d).toList d.value n ∧
      (layout.positional = none → n.power = none) := by
  have hplain : ∃ n, Spells (positionalText layout.wholeEnd (toString d.digits) d.exponent).toList
      d.value n ∧ n.power = none := by
    rw [hlayout]
    by_cases hsign : 0 ≤ d.exponent
    · exact ⟨_, spells_whole hd hsign, rfl⟩
    · exact ⟨_, spells_fraction hd hsign, rfl⟩
  simp only [Layout.digitsText]
  split
  · obtain ⟨n, hn, hpower⟩ := hplain
    exact ⟨n, hn, fun _ => hpower⟩
  · rename_i hpositional
    obtain ⟨n, hn⟩ := exists_spells_scientific hd
    exact ⟨n, hn, fun hnone => absurd (by rw [hnone]; rfl) hpositional⟩

/-! ## Doubles -/

/-- The spelling of a sign. -/
def signChars (negative : Bool) : List Char := if negative then ['-'] else []

theorem toList_toString_int (n : Int) :
    (toString n).toList = signChars (n < 0) ++ toDigits 10 n.natAbs := by
  cases n with
  | ofNat n =>
    rw [← toList_toString]
    rfl
  | negSucc n =>
    show ("-" ++ toString (n + 1)).toList = _
    rw [String.toList_append, toList_toString, decide_eq_true (Int.negSucc_lt_zero n)]
    rfl

/-- **The text of a finite double is a sign and a numeral, whose nearest double it is.** -/
theorem exists_numeral (layout : Layout) (hlayout : layout.wholeEnd = ".0") {x : Float}
    (hx : x.isFinite = true) : ∃ n : Numeral,
      (layout.text x).toList = signChars (Binary64.isNegative x) ++ n.chars ∧ n.WellFormed ∧
        nearest (Binary64.isNegative x) n.decimal = x ∧
        (layout.positional = none → n.power = none) := by
  have hnumber : x.isNaN = false :=
    Binary64.isNaN_iff_rank.mpr (Binary64.isFinite_iff_rank.mp hx).le
  have hsign : (if Binary64.isNegative x then "-" else "").toList =
      signChars (Binary64.isNegative x) := by
    unfold signChars
    split <;> rfl
  simp only [Layout.text, hnumber, hx, Bool.not_true, Bool.false_eq_true, if_false]
  split
  · rename_i hzero
    refine ⟨⟨['0'], some ['0'], none⟩, ?_, ⟨by simp [Numeral.places], .inl rfl, by simp, by simp⟩, ?_,
      fun _ => rfl⟩
    · rw [String.toList_append, String.toList_append, hsign, hlayout, List.append_assoc]
      rfl
    · refine nearest_of_readsBack hx ?_
      rw [ReadsBack, if_pos hzero, Digits.value_eq_zero_iff]
      rfl
  · rename_i hzero
    have hpos := Nat.pos_of_ne_zero hzero
    have hreads := readsAs_shortest layout.tie hpos (Binary64.significand x).2
    have hdigits : 0 < (shortest layout.tie (Binary64.significand x).1
        (Binary64.significand x).2).digits := by
      rcases significand_cases hx with ⟨h, -⟩ | ⟨hs, -⟩
      · exact absurd h hzero
      · exact Nat.pos_of_ne_zero fun h => (hreads.pos hs).ne' (Digits.value_eq_zero_iff.mpr h)
    obtain ⟨n, ⟨htext, hwell, hvalue⟩, hpower⟩ := exists_spells_digitsText hlayout hdigits
    refine ⟨n, ?_, hwell, ?_, hpower⟩
    · rw [String.toList_append, hsign, htext]
    · refine nearest_of_readsBack hx ?_
      rwa [ReadsBack, if_neg hzero, hvalue]

end StepSignal.Decimal
