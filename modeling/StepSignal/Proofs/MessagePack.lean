import StepSignal.MessagePack.Reader
import StepSignal.MessagePack.Writer
import StepSignal.Proofs.Utf8

/-!
# MessagePack reads back what it wrote

What stands for a value tells where it ends, so that a value is read whatever bytes come after it.
Each form of a value is read from its first byte and the word behind it; lists and maps follow by
induction on the document.

Sizes are written in four bytes at most, and numbers in eight. `Fits` says that the sizes and the
numbers of a document fit, and that it is not nested too deeply.
-/

namespace StepSignal.MessagePack

open Utf8 (toNat_toUInt8)

variable {width n : Nat} {bytes rest : List UInt8} {d : Document}

/-! ## Words -/

@[simp] theorem length_bigEndian (width n : Nat) : (bigEndian width n).length = width := by
  induction width generalizing n with
  | zero => rfl
  | succ width ih => rw [bigEndian, List.length_append, ih, List.length_singleton]

theorem take?_append (front rest : List UInt8) :
    take? front.length (front ++ rest) = some (front, rest) := by
  rw [take?, if_pos (by simp), List.take_left, List.drop_left]

theorem ofBigEndian_append_singleton (bytes : List UInt8) (b : UInt8) :
    ofBigEndian (bytes ++ [b]) = ofBigEndian bytes * 256 + b.toNat := by
  rw [ofBigEndian, ofBigEndian, List.foldl_append, List.foldl_cons, List.foldl_nil]

/-- A word holds the remainder of a number. -/
theorem ofBigEndian_bigEndian (width n : Nat) :
    ofBigEndian (bigEndian width n) = n % 256 ^ width := by
  induction width generalizing n with
  | zero => rw [Nat.pow_zero, Nat.mod_one]; rfl
  | succ width ih =>
    rw [bigEndian, ofBigEndian_append_singleton, ih, toNat_toUInt8, Nat.pow_succ',
      Nat.mod_mul, Nat.mul_comm, Nat.add_comm]

theorem word?_bigEndian (h : n < 256 ^ width) (rest : List UInt8) :
    word? width (bigEndian width n ++ rest) = some (n, rest) := by
  have htake := take?_append (bigEndian width n) rest
  rw [length_bigEndian] at htake
  rw [word?, htake]
  show some (ofBigEndian (bigEndian width n), rest) = some (n, rest)
  rw [ofBigEndian_bigEndian, Nat.mod_eq_of_lt h]

theorem wordValue?_bigEndian (width : Nat) (h : n < 256 ^ width) (value : Nat → Document)
    (rest : List UInt8) :
    wordValue? width value (bigEndian width n ++ rest) = some (.value (value n), rest) := by
  rw [wordValue?, word?_bigEndian h, Option.map_some]

theorem sized?_bigEndian (width : Nat) (h : n < 256 ^ width) (head : Nat → Head)
    (rest : List UInt8) :
    sized? width head (bigEndian width n ++ rest) = some (head n, rest) := by
  rw [sized?, word?_bigEndian h, Option.map_some]

theorem runOf?_append (head : List UInt8 → Head) (run rest : List UInt8) :
    runOf? run.length head (run ++ rest) = some (head run, rest) := by
  rw [runOf?, take?_append, Option.map_some]

theorem sizedRun?_bigEndian (width : Nat) {run : List UInt8} (h : run.length < 256 ^ width)
    (head : List UInt8 → Head) (rest : List UInt8) :
    sizedRun? width 0 head (bigEndian width run.length ++ (run ++ rest)) =
      some (head run, rest) := by
  rw [sizedRun?, word?_bigEndian h]
  exact runOf?_append head run rest

/-! ## First bytes -/

/-- What a value starts with, by the number of its first byte. -/
theorem head?_cons (first : UInt8) (rest : List UInt8) : head? (first :: rest) =
    if first.toNat < 0x80 then some (.value (.natural first.toNat), rest)
    else if first.toNat < 0x90 then some (.map (first.toNat - 0x80), rest)
    else if first.toNat < 0xA0 then some (.list (first.toNat - 0x90), rest)
    else if first.toNat < 0xC0 then runOf? (first.toNat - 0xA0) textHead rest
    else if first.toNat < 0xE0 then wideHead? first rest
    else some (.value (.integer (signed 1 first.toNat)), rest) := by
  simp only [head?, UInt8.lt_iff_toNat_lt]
  rfl

theorem head?_writeNatural (h : n < UInt64.size) (rest : List UInt8) :
    head? (writeNatural n ++ rest) = some (.value (.natural n), rest) := by
  have hlimit : n < 256 ^ 8 := h
  unfold writeNatural
  split
  · rw [List.singleton_append, head?_cons, toNat_toUInt8, Nat.mod_eq_of_lt (by omega),
      if_pos (by omega)]
  split
  · exact wordValue?_bigEndian 1 (by omega) .natural rest
  split
  · exact wordValue?_bigEndian 2 (by omega) .natural rest
  split
  · exact wordValue?_bigEndian 4 (by omega) .natural rest
  · exact wordValue?_bigEndian 8 hlimit .natural rest

/-- The signed number of the word of a negative number. -/
theorem signed_negative (width : Nat) {n : Int} (hwidth : 0 < width)
    (hlow : -((2 ^ (8 * width - 1) : Nat) : Int) ≤ n) (hneg : n < 0) :
    signed width (n + (1 <<< (8 * width) : Nat)).toNat = n := by
  have hdouble : 2 ^ (8 * width) = 2 * 2 ^ (8 * width - 1) := by
    rw [← Nat.pow_succ']
    congr 1
    omega
  rw [signed, Nat.one_shiftLeft, Nat.one_shiftLeft, hdouble]
  generalize 2 ^ (8 * width - 1) = half at hlow ⊢
  rw [if_neg (by omega)]
  omega

/-- A negative number in a word of `width` bytes. -/
theorem wordValue?_negativeWord (width : Nat) {n : Int} (hwidth : 0 < width)
    (hlow : -((2 ^ (8 * width - 1) : Nat) : Int) ≤ n) (hneg : n < 0) (rest : List UInt8) :
    wordValue? width (.integer <| signed width ·) (negativeWord width n ++ rest) =
      some (.value (.integer n), rest) := by
  have hbound : (n + (1 <<< (8 * width) : Nat)).toNat < 256 ^ width := by
    have hpos : 0 < 256 ^ width := Nat.pow_pos (by decide)
    rw [Nat.one_shiftLeft, Nat.pow_mul]
    generalize (2 ^ 8) ^ width = bound at hpos ⊢
    omega
  rw [negativeWord, wordValue?_bigEndian width hbound, signed_negative width hwidth hlow hneg]

theorem head?_writeInteger {n : Int} (hlow : Int64.minValue.toInt ≤ n) (hneg : n < 0)
    (rest : List UInt8) :
    head? (writeInteger n ++ rest) = some (.value (.integer n), rest) := by
  have hlimit : -((2 ^ (8 * 8 - 1) : Nat) : Int) ≤ n := hlow
  unfold writeInteger
  rw [if_neg (by omega)]
  split
  · -- the lowest bytes stand for the numbers just below zero themselves
    have hbyte : (n + (1 <<< (8 * 1) : Nat)).toNat % 256 = (n + 256).toNat := by omega
    have hsigned := signed_negative 1 Nat.one_pos (by omega) hneg
    show head? ([_] ++ rest) = _
    rw [List.singleton_append, head?_cons, toNat_toUInt8, hbyte, if_neg (by omega),
      if_neg (by omega), if_neg (by omega), if_neg (by omega), if_neg (by omega)]
    exact congrArg (fun k => some (Head.value (.integer k), rest)) hsigned
  split
  · exact wordValue?_negativeWord 1 (by omega) (by omega) hneg rest
  split
  · exact wordValue?_negativeWord 2 (by omega) (by omega) hneg rest
  split
  · exact wordValue?_negativeWord 4 (by omega) (by omega) hneg rest
  · exact wordValue?_negativeWord 8 (by omega) hlimit hneg rest

theorem head?_double (x : Float) (rest : List UInt8) :
    head? (0xCB :: bigEndian 8 x.toBits.toNat ++ rest) = some (.value (.float x), rest) := by
  have hbound : x.toBits.toNat < 256 ^ 8 := x.toBits.toNat_lt
  have hbits : double x.toBits.toNat = .float x := by
    show Document.float (Float.ofBits (UInt64.ofNat x.toBits.toNat)) = _
    rw [UInt64.ofNat_toNat, Float.ofBits_toBits]
  rw [← hbits]
  exact wordValue?_bigEndian 8 hbound double rest

/-- The value of the bytes of a text is the text. -/
@[simp] theorem textHead_encode (s : String) :
    textHead (Utf8.encode s.toList) = .value (.text s) := by
  rw [textHead, Utf8.text?_encode]
  exact congrArg (fun s => Head.value (.text s)) String.ofList_toList

theorem head?_writeText {s : String} (h : (Utf8.encode s.toList).length < UInt32.size)
    (rest : List UInt8) : head? (writeText s ++ rest) = some (.value (.text s), rest) := by
  have hlimit : (Utf8.encode s.toList).length < 256 ^ 4 := h
  have hhead := textHead_encode s
  rw [writeText]
  generalize Utf8.encode s.toList = run at hlimit hhead
  rw [List.append_assoc, ← hhead, writeTextSize]
  split
  · rw [List.singleton_append, head?_cons, toNat_toUInt8, Nat.mod_eq_of_lt (by omega),
      if_neg (by omega), if_neg (by omega), if_neg (by omega), if_pos (by omega),
      Nat.add_sub_cancel_left]
    exact runOf?_append textHead run rest
  split
  · exact sizedRun?_bigEndian 1 (by omega) textHead rest
  split
  · exact sizedRun?_bigEndian 2 (by omega) textHead rest
  · exact sizedRun?_bigEndian 4 hlimit textHead rest

theorem head?_writeListSize (h : n < UInt32.size) (rest : List UInt8) :
    head? (writeListSize n ++ rest) = some (.list n, rest) := by
  have hlimit : n < 256 ^ 4 := h
  rw [writeListSize]
  split
  · rw [List.singleton_append, head?_cons, toNat_toUInt8, Nat.mod_eq_of_lt (by omega),
      if_neg (by omega), if_neg (by omega), if_pos (by omega), Nat.add_sub_cancel_left]
  split
  · exact sized?_bigEndian 2 (by omega) .list rest
  · exact sized?_bigEndian 4 hlimit .list rest

theorem head?_writeMapSize (h : n < UInt32.size) (rest : List UInt8) :
    head? (writeMapSize n ++ rest) = some (.map n, rest) := by
  have hlimit : n < 256 ^ 4 := h
  rw [writeMapSize]
  split
  · rw [List.singleton_append, head?_cons, toNat_toUInt8, Nat.mod_eq_of_lt (by omega),
      if_neg (by omega), if_pos (by omega), Nat.add_sub_cancel_left]
  split
  · exact sized?_bigEndian 2 (by omega) .map rest
  · exact sized?_bigEndian 4 hlimit .map rest

/-! ## Documents -/

/-- Documents whose numbers and sizes the format can hold, nested at most `depth` levels deep. A
whole number at or above zero is a `natural`. -/
inductive Fits : Nat → Document → Prop where
  | null {depth : Nat} : Fits depth .null
  | bool {depth : Nat} (b : Bool) : Fits depth (.bool b)
  | natural {depth n : Nat} (h : n < UInt64.size) : Fits depth (.natural n)
  | integer {depth : Nat} {n : Int} (hlow : Int64.minValue.toInt ≤ n) (hneg : n < 0) :
    Fits depth (.integer n)
  | float {depth : Nat} (x : Float) : Fits depth (.float x)
  | text {depth : Nat} {s : String} (h : (Utf8.encode s.toList).length < UInt32.size) :
    Fits depth (.text s)
  | list {depth : Nat} {items : List Document} (hsize : items.length < UInt32.size)
    (h : ∀ d ∈ items, Fits depth d) : Fits (depth + 1) (.list items)
  | map {depth : Nat} {entries : List (Document × Document)}
    (hsize : entries.length < UInt32.size) (hkeys : ∀ e ∈ entries, Fits depth e.1)
    (hvalues : ∀ e ∈ entries, Fits depth e.2) : Fits (depth + 1) (.map entries)

section Parts

variable {part : List UInt8 → Option (Document × List UInt8)}

theorem items?_writeItems {items : List Document}
    (h : ∀ d ∈ items, ∀ rest, part (write d ++ rest) = some (d, rest)) (rest : List UInt8) :
    items? part items.length (writeItems items ++ rest) = some (items, rest) := by
  induction items with
  | nil => rfl
  | cons d items ih =>
    have hrest := ih fun e he => h e (List.mem_cons_of_mem d he)
    rw [writeItems, List.append_assoc, List.length_cons, items?, h d List.mem_cons_self]
    simp only [Option.bind_eq_bind, Option.bind_some, hrest]
    rfl

theorem entries?_writeEntries {entries : List (Document × Document)}
    (hkeys : ∀ e ∈ entries, ∀ rest, part (write e.1 ++ rest) = some (e.1, rest))
    (hvalues : ∀ e ∈ entries, ∀ rest, part (write e.2 ++ rest) = some (e.2, rest))
    (rest : List UInt8) :
    entries? part entries.length (writeEntries entries ++ rest) = some (entries, rest) := by
  induction entries with
  | nil => rfl
  | cons e entries ih =>
    have hrest := ih (fun f hf => hkeys f (List.mem_cons_of_mem e hf))
      fun f hf => hvalues f (List.mem_cons_of_mem e hf)
    rw [writeEntries, List.append_assoc, List.append_assoc, List.length_cons, entries?,
      hkeys e List.mem_cons_self]
    simp only [Option.bind_eq_bind, Option.bind_some, hvalues e List.mem_cons_self, hrest]
    rfl

end Parts

/-- A value without parts is read at every depth. -/
theorem value?_of_head? (h : head? bytes = some (.value d, rest)) (depth : Nat) :
    value? depth bytes = some (d, rest) := by
  cases depth <;> rw [value?, h]

/-- **What was written is read back**, and what comes after it is left. -/
theorem Fits.value?_write {depth : Nat} {d : Document} (h : Fits depth d) (rest : List UInt8) :
    value? depth (write d ++ rest) = some (d, rest) := by
  induction h generalizing rest with
  | null => exact value?_of_head? rfl _
  | bool b => cases b <;> exact value?_of_head? rfl _
  | natural h => exact value?_of_head? (head?_writeNatural h rest) _
  | integer hlow hneg => exact value?_of_head? (head?_writeInteger hlow hneg rest) _
  | float x => exact value?_of_head? (head?_double x rest) _
  | text h => exact value?_of_head? (head?_writeText h rest) _
  | list hsize _ ih =>
    rw [write, List.append_assoc, value?, head?_writeListSize hsize]
    simp only [items?_writeItems ih, Option.map_some]
  | map hsize _ _ ihkeys ihvalues =>
    rw [write, List.append_assoc, value?, head?_writeMapSize hsize]
    simp only [entries?_writeEntries ihkeys ihvalues, Option.map_some]

end StepSignal.MessagePack
