import Mathlib
import StepSignal.Document

/-!
# Records are read by name

A record is read field by field: the value of a field is found by its name, in whatever order the
entries come and whatever other entries are among them.

The formats give back other documents than were written, in one respect only: a whole number may
come back in another form, and a number that a format cannot spell as something else. `renumber`
replaces the numbers of a document and leaves the rest as it is.
-/

namespace StepSignal

namespace Document

/-! ## Lists -/

/-- A list whose items all come back comes back. -/
theorem mapM_eq_self {β : Type} {f : β → Option β} {xs : List β} (h : ∀ x ∈ xs, f x = some x) :
    xs.mapM f = some xs := by
  induction xs with
  | nil => rfl
  | cons x xs ih =>
    obtain ⟨hx, hxs⟩ := List.forall_mem_cons.mp h
    rw [List.mapM_cons, hx, ih hxs]
    rfl

/-- A whole number below the bound is read. -/
theorem natBelow?_of_int? {d : Document} {n bound : Nat} (h : d.int? = some (n : Int))
    (hn : n < bound) : d.natBelow? bound = some n := by
  have hbound : 0 ≤ (n : Int) ∧ (n : Int) < bound := ⟨Int.natCast_nonneg n, Int.ofNat_lt.mpr hn⟩
  rw [natBelow?, h]
  exact (if_pos hbound).trans (congrArg some (Int.toNat_natCast n))

/-! ## Records -/

section Records

variable {names : List String} {name : String} {value : Document}
  {seen fields : List (String × Document)}

theorem lookup_eq_none {β : Type} {fields : List (String × β)} (h : name ∉ fields.map (·.1)) :
    fields.lookup name = none := by
  rw [List.lookup_eq_none_iff]
  intro field hfield
  rw [bne_iff_ne]
  exact fun heq => h (heq ▸ List.mem_map_of_mem hfield)

theorem lookup_concat (other : String) : (seen ++ [(name, value)]).lookup other =
    (seen.lookup other).or (if other = name then some value else none) := by
  rw [List.lookup_append, List.lookup_cons, List.lookup_nil]
  congr 1
  by_cases h : other = name
  · simp [h]
  · rw [if_neg h, beq_eq_false_iff_ne.mpr h]

/-- Entering one more field makes its value the one that its name stands for. -/
theorem enter_lookup (hnames : names.Nodup) (hseen : name ∉ seen.map (·.1)) {i : Nat}
    (hi : names.idxOf? name = some i) (value : Document) :
    enter (names.map (seen.lookup ·)) i value =
      some (names.map ((seen ++ [(name, value)]).lookup ·)) := by
  obtain ⟨hlt, hname, -⟩ := List.idxOf?_eq_some_iff.mp hi
  have hname : names[i] = name := by simpa using hname
  have hfree : (names.map (seen.lookup ·))[i]? = some none := by
    rw [List.getElem?_map, List.getElem?_eq_getElem hlt, hname, Option.map_some,
      lookup_eq_none hseen]
  rw [enter, hfree]
  refine congrArg some (List.ext_getElem (by simp) fun j hj _ => ?_)
  have hj : j < names.length := by simpa using hj
  rw [List.getElem_set, List.getElem_map, List.getElem_map, lookup_concat]
  by_cases hij : i = j
  · subst hij
    rw [if_pos rfl, hname, lookup_eq_none hseen, Option.none_or, if_pos rfl]
  · have hne : names[j] ≠ name := fun h => hij ((hnames.getElem_inj_iff).mp (hname.trans h.symm))
    rw [if_neg hij, if_neg hne, Option.or_none]

/-- Collecting the fields of a record enters the values by their names; what was entered before
stays. -/
theorem collect_record (hnames : names.Nodup) (hfields : ((seen ++ fields).map (·.1)).Nodup) :
    collect names (names.map (seen.lookup ·))
        (fields.map fun (name, value) => (.text name, value)) =
      some (names.map ((seen ++ fields).lookup ·)) := by
  induction fields generalizing seen with
  | nil => rw [List.map_nil, collect, List.append_nil]
  | cons field fields ih =>
    obtain ⟨name, value⟩ := field
    rw [List.append_cons] at hfields ⊢
    have hname : name ∉ seen.map (·.1) := by
      rw [List.map_append, List.map_append] at hfields
      have hdisjoint := (List.nodup_append.mp hfields.of_append_left).2.2
      exact fun hmem => hdisjoint _ hmem _ (by simp) rfl
    have hplace : (text name).position? names = some (names.idxOf? name) := rfl
    rw [List.map_cons, collect, ← ih hfields, hplace]
    rcases hi : names.idxOf? name with - | i
    · -- a name that no field has leaves the values alone
      have habsent : name ∉ names := by simpa using hi
      have hsame : names.map ((seen ++ [(name, value)]).lookup ·) = names.map (seen.lookup ·) := by
        refine List.map_congr_left fun other hother => ?_
        rw [lookup_concat, if_neg (by rintro rfl; exact habsent hother), Option.or_none]
      rw [hsame]
    · show (enter _ i value).bind _ = _
      rw [enter_lookup hnames hname hi, Option.bind_some]

/-- **A record is read by name.** -/
theorem fields?_record (dialect : Dialect) (hnames : names.Nodup)
    (hfields : (fields.map (·.1)).Nodup) :
    (record fields).fields? dialect names = some ⟨true, names.map (fields.lookup ·)⟩ := by
  have hcollect := collect_record hnames (List.nil_append fields ▸ hfields)
  have hempty : names.map (([] : List (String × Document)).lookup ·) = names.map fun _ => none := rfl
  rw [hempty, List.nil_append] at hcollect
  rw [record, fields?, hcollect, Option.map_some]

theorem lookup_of_mem (hfields : (fields.map (·.1)).Nodup) (h : (name, value) ∈ fields) :
    fields.lookup name = some value := by
  obtain ⟨before, after, rfl⟩ := List.append_of_mem h
  rw [List.map_append, List.map_cons] at hfields
  have hbefore : name ∉ before.map (·.1) := fun hmem =>
    (List.nodup_append.mp hfields).2.2 _ hmem _ List.mem_cons_self rfl
  rw [List.lookup_append, lookup_eq_none hbefore, Option.none_or, List.lookup_cons_self]

/-- **A record gives back the fields that it was made of**, those that were left out as absent. The
values may have been changed on the way. -/
theorem fields?_kept (dialect : Dialect) (keep : String × Document → Bool)
    (change : Document → Document) (hfields : (fields.map (·.1)).Nodup) :
    (record ((fields.filter keep).map fun f => (f.1, change f.2))).fields? dialect
        (fields.map (·.1)) =
      some ⟨true, fields.map fun f => if keep f then some (change f.2) else none⟩ := by
  have hkept : (((fields.filter keep).map fun f => (f.1, change f.2)).map (·.1)).Nodup := by
    rw [List.map_map]
    exact hfields.sublist (List.filter_sublist.map _)
  rw [fields?_record dialect hfields hkept, List.map_map]
  congr 2
  refine List.map_congr_left fun f hf => ?_
  show List.lookup f.1 _ = _
  split
  · have hmem : f ∈ fields.filter keep := List.mem_filter.mpr ⟨hf, ‹_›⟩
    exact lookup_of_mem hkept (List.mem_map_of_mem hmem)
  · refine lookup_eq_none fun hmem => ?_
    rw [List.map_map] at hmem
    obtain ⟨g, hg, hname⟩ := List.mem_map.mp hmem
    have hsame : g = f := List.inj_on_of_nodup_map hfields (List.mem_filter.mp hg).1 hf hname
    exact absurd (List.mem_filter.mp (hsame ▸ hg)).2 ‹_›

end Records

/-! ## Numbers -/

/-- What the numbers of a document are replaced by. -/
structure Renumbering where
  natural : Nat → Document
  integer : Int → Document
  float : Float → Document

/-- Every number stays. -/
def Renumbering.same : Renumbering := ⟨.natural, .integer, .float⟩

mutual

/-- A document with other numbers. The names of entries stay. -/
def renumber (r : Renumbering) : Document → Document
  | .natural n => r.natural n
  | .integer n => r.integer n
  | .float x => r.float x
  | .list items => .list (renumberItems r items)
  | .map entries => .map (renumberEntries r entries)
  | d => d

def renumberItems (r : Renumbering) : List Document → List Document
  | [] => []
  | d :: rest => d.renumber r :: renumberItems r rest

def renumberEntries (r : Renumbering) : List (Document × Document) → List (Document × Document)
  | [] => []
  | (key, value) :: rest => (key, value.renumber r) :: renumberEntries r rest

end

section Renumber

variable (r : Renumbering)

theorem renumberItems_eq_map (items : List Document) :
    renumberItems r items = items.map (renumber r) := by
  induction items with
  | nil => rfl
  | cons d items ih => rw [renumberItems, ih, List.map_cons]

theorem renumberEntries_eq_map (entries : List (Document × Document)) :
    renumberEntries r entries = entries.map fun e => (e.1, e.2.renumber r) := by
  induction entries with
  | nil => rfl
  | cons e entries ih => rw [renumberEntries, ih, List.map_cons]

@[simp] theorem renumber_null : renumber r .null = .null := by rw [renumber] <;> simp

@[simp] theorem renumber_bool (b : Bool) : renumber r (.bool b) = .bool b := by
  rw [renumber] <;> simp

@[simp] theorem renumber_text (s : String) : renumber r (.text s) = .text s := by
  rw [renumber] <;> simp

@[simp] theorem renumber_natural (n : Nat) : renumber r (.natural n) = r.natural n := by
  rw [renumber]

@[simp] theorem renumber_float (x : Float) : renumber r (.float x) = r.float x := by
  rw [renumber]

@[simp] theorem renumber_list (items : List Document) :
    renumber r (.list items) = .list (items.map (renumber r)) := by
  rw [renumber, renumberItems_eq_map]

@[simp] theorem renumber_record (fields : List (String × Document)) :
    renumber r (record fields) = record (fields.map fun f => (f.1, f.2.renumber r)) := by
  rw [record, renumber, renumberEntries_eq_map, record, List.map_map, List.map_map]
  rfl

@[simp] theorem renumber_choice (name : String) (payload : Document) :
    renumber r (choice name payload) = choice name (payload.renumber r) := by
  rw [choice, renumber, renumberEntries, renumberEntries, choice]

end Renumber

mutual

theorem renumber_same (d : Document) : d.renumber .same = d := by
  match d with
  | .list items => rw [renumber, renumberItems_same items]
  | .map entries => rw [renumber, renumberEntries_same entries]
  | .null => rw [renumber_null]
  | .bool b => rw [renumber_bool]
  | .natural n => rw [renumber, Renumbering.same]
  | .integer n => rw [renumber, Renumbering.same]
  | .float x => rw [renumber, Renumbering.same]
  | .text s => rw [renumber_text]
  | .bytes b => rw [renumber] <;> simp
  | .garbled => rw [renumber] <;> simp
  | .unreadable => rw [renumber] <;> simp

theorem renumberItems_same (items : List Document) : renumberItems .same items = items := by
  match items with
  | [] => rw [renumberItems]
  | d :: rest => rw [renumberItems, renumber_same d, renumberItems_same rest]

theorem renumberEntries_same (entries : List (Document × Document)) :
    renumberEntries .same entries = entries := by
  match entries with
  | [] => rw [renumberEntries]
  | (key, value) :: rest => rw [renumberEntries, renumber_same value, renumberEntries_same rest]

end

/-- What every format keeps of the numbers of a document: whole numbers of up to 64 bits stand for
themselves, and finite numbers stay. -/
structure Renumbering.Keeps (r : Renumbering) : Prop where
  natural : ∀ n < UInt64.size, (r.natural n).int? = some n
  integer : ∀ n : Int, Int64.minValue.toInt ≤ n → n < 0 → (r.integer n).int? = some n
  float : ∀ x : Float, x.isFinite = true → r.float x = .float x

theorem Renumbering.keeps_same : Renumbering.same.Keeps :=
  ⟨fun _ _ => rfl, fun _ _ _ => rfl, fun _ _ => rfl⟩

/-- Documents of values, lists and records with named fields. -/
inductive Plain : Document → Prop where
  | null : Plain .null
  | bool (b : Bool) : Plain (.bool b)
  | natural (n : Nat) : Plain (.natural n)
  | integer (n : Int) : Plain (.integer n)
  | float (x : Float) : Plain (.float x)
  | text (s : String) : Plain (.text s)
  | list {items : List Document} (h : ∀ d ∈ items, Plain d) : Plain (.list items)
  | record {fields : List (String × Document)} (h : ∀ f ∈ fields, Plain f.2) :
    Plain (.record fields)

end Document

end StepSignal
