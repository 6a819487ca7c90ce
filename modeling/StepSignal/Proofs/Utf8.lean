import Mathlib
import StepSignal.Utf8

/-!
# UTF-8 reads back what it wrote

The bytes of a text are read as the characters of the text, whatever bytes come after them.
-/

namespace StepSignal.Utf8

/-! ## Bytes -/

@[simp] theorem toNat_toUInt8 (n : Nat) : n.toUInt8.toNat = n % 256 := UInt8.toNat_ofNat'

theorem toNat_furtherByte (n : Nat) : (furtherByte n).toNat = 0x80 + n % 0x40 := by
  rw [furtherByte, toNat_toUInt8]
  omega

@[simp] theorem furtherBits?_furtherByte (n : Nat) :
    furtherBits? (furtherByte n) = some (n % 0x40) := by
  have hbyte := toNat_furtherByte n
  have hlow : 0x80 ≤ furtherByte n := UInt8.le_iff_toNat_le.mpr (by rw [hbyte]; simp)
  have hhigh : furtherByte n < 0xC0 := UInt8.lt_iff_toNat_lt.mpr (by
    rw [hbyte]
    show 0x80 + n % 0x40 < 0xC0
    omega)
  rw [furtherBits?, if_pos (by simp [hlow, hhigh]), hbyte, Nat.add_sub_cancel_left]

@[simp] theorem extend?_nil (n : Nat) : extend? n [] = some n := rfl

@[simp] theorem extend?_furtherByte (n m : Nat) (bytes : List UInt8) :
    extend? n (furtherByte m :: bytes) = extend? (n * 0x40 + m % 0x40) bytes := by
  simp [extend?]

/-- The form that a first byte announces, by its number. -/
theorem form?_eq (b : UInt8) : form? b =
    if b.toNat < 0x80 then some (0, b.toNat, 0)
    else if b.toNat < 0xC0 then none
    else if b.toNat < 0xE0 then some (1, b.toNat - 0xC0, 0x80)
    else if b.toNat < 0xF0 then some (2, b.toNat - 0xE0, 0x800)
    else if b.toNat < 0xF8 then some (3, b.toNat - 0xF0, 0x10000)
    else none := by
  simp only [form?, UInt8.lt_iff_toNat_lt]
  rfl

/-! ## Characters -/

/-- A first byte and its further bytes give the character whose bits they carry, if the form is the
shortest. -/
theorem first?_of_form? {b : UInt8} {further : List UInt8} {c : Char} (bits least : Nat)
    (bytes : List UInt8) (hform : form? b = some (further.length, bits, least))
    (hbits : extend? bits further = some c.toNat) (hleast : least ≤ c.toNat) :
    first? b (further ++ bytes) = some (c, further.length) := by
  have hvalid : c.toNat.isValidChar := c.valid
  have hc : Char.ofNatAux c.toNat hvalid = c := Char.ext rfl
  simp [first?, hform, hbits, hleast, hvalid, hc]

/-- The bytes of a character are a first byte and further bytes from which the character is read. -/
theorem first?_encodeChar (c : Char) (bytes : List UInt8) : ∃ b further,
    encodeChar c = b :: further ∧ first? b (further ++ bytes) = some (c, further.length) := by
  have hvalid : c.toNat < 0x110000 := by
    rcases c.valid with h | ⟨-, h⟩
    · exact Nat.lt_trans h (by decide)
    · exact h
  simp only [encodeChar]
  -- one case for each number of bytes; the bits of the bytes add up to the character
  split
  · refine ⟨_, [], rfl, first?_of_form? c.toNat 0 bytes ?_ rfl (Nat.zero_le _)⟩
    rw [form?_eq, toNat_toUInt8, Nat.mod_eq_of_lt (by omega), if_pos (by omega)]
    rfl
  split
  · refine ⟨_, [_], rfl, first?_of_form? (c.toNat / 0x40) 0x80 bytes ?_ ?_ (by omega)⟩
    · rw [form?_eq, toNat_toUInt8, Nat.mod_eq_of_lt (by omega), if_neg (by omega),
        if_neg (by omega), if_pos (by omega), Nat.add_sub_cancel_left]
      rfl
    · simp only [extend?_furtherByte, extend?_nil, Option.some.injEq]
      omega
  split
  · refine ⟨_, [_, _], rfl, first?_of_form? (c.toNat / 0x1000) 0x800 bytes ?_ ?_ (by omega)⟩
    · rw [form?_eq, toNat_toUInt8, Nat.mod_eq_of_lt (by omega), if_neg (by omega),
        if_neg (by omega), if_neg (by omega), if_pos (by omega), Nat.add_sub_cancel_left]
      rfl
    · simp only [extend?_furtherByte, extend?_nil, Option.some.injEq]
      omega
  · refine ⟨_, [_, _, _], rfl,
      first?_of_form? (c.toNat / 0x40000) 0x10000 bytes ?_ ?_ (by omega)⟩
    · rw [form?_eq, toNat_toUInt8, Nat.mod_eq_of_lt (by omega), if_neg (by omega),
        if_neg (by omega), if_neg (by omega), if_neg (by omega), if_pos (by omega),
        Nat.add_sub_cancel_left]
      rfl
    · simp only [extend?_furtherByte, extend?_nil, Option.some.injEq]
      omega

/-- A byte that starts no character is kept apart. -/
theorem decode_of_form?_eq_none {b : UInt8} (hform : form? b = none) (rest : List UInt8) :
    decode (b :: rest) = none :: decode rest := by
  have hfirst : first? b rest = none := by
    rw [first?, hform]
    rfl
  rw [decode, hfirst]

/-- No character starts with a byte that goes on a character. -/
theorem decode_further {b : UInt8} (hlow : 0x80 ≤ b.toNat) (hhigh : b.toNat < 0xC0)
    (rest : List UInt8) : decode (b :: rest) = none :: decode rest := by
  have hform : form? b = none := by
    rw [form?_eq, if_neg (by omega), if_pos hhigh]
  exact decode_of_form?_eq_none hform rest

/-! ## Texts -/

theorem encode_cons (c : Char) (text : List Char) :
    encode (c :: text) = encodeChar c ++ encode text :=
  rfl

theorem decode_encodeChar (c : Char) (bytes : List UInt8) :
    decode (encodeChar c ++ bytes) = some c :: decode bytes := by
  obtain ⟨b, further, hbytes, hfirst⟩ := first?_encodeChar c bytes
  rw [hbytes, List.cons_append, decode, hfirst]
  simp only [List.drop_left]

/-- The bytes of a text are read as its characters. -/
theorem decode_encode_append (text : List Char) (bytes : List UInt8) :
    decode (encode text ++ bytes) = text.map some ++ decode bytes := by
  induction text with
  | nil => rfl
  | cons c text ih =>
    rw [encode_cons, List.append_assoc, decode_encodeChar, ih]
    rfl

theorem decode_encode (text : List Char) : decode (encode text) = text.map some := by
  have h := decode_encode_append text []
  rwa [List.append_nil, decode, List.append_nil] at h

/-- The bytes of a text are a text. -/
@[simp] theorem text?_encode (text : List Char) : text? (encode text) = some text := by
  rw [text?, decode_encode]
  induction text with
  | nil => rfl
  | cons c text ih => simp [ih]

/-- Characters up to the first byte without one are the same when all that is read is. -/
theorem map_some_append_inj {text text' : List Char} {others others' : List (Option Char)}
    (h : text.map some ++ none :: others = text'.map some ++ none :: others') : text = text' := by
  induction text generalizing text' with
  | nil =>
    cases text' with
    | nil => rfl
    | cons c text' => cases h
  | cons c text ih =>
    cases text' with
    | nil => cases h
    | cons c' text' =>
      obtain ⟨hc, hothers⟩ := List.cons.inj h
      rw [Option.some.inj hc, ih hothers]

/-- A text is told apart from what follows it by a byte that starts no character. -/
theorem encode_append_inj {text text' : List Char} {b : UInt8} {rest rest' : List UInt8}
    (hb : form? b = none) (h : encode text ++ b :: rest = encode text' ++ b :: rest') :
    text = text' ∧ rest = rest' := by
  have htext : text = text' := by
    have hdecode := congrArg decode h
    rw [decode_encode_append, decode_encode_append, decode_of_form?_eq_none hb,
      decode_of_form?_eq_none hb] at hdecode
    exact map_some_append_inj hdecode
  subst htext
  exact ⟨rfl, (List.cons.inj (List.append_cancel_left h)).2⟩

end StepSignal.Utf8
