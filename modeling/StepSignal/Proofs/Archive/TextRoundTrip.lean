import StepSignal.Proofs.Archive.Json
import StepSignal.Proofs.Archive.Toml

/-!
# Objects stored as text come back

What JSON and TOML give back of an object. JSON has no spelling for numbers that are not finite, and
TOML none for absent values. Whatever an object holds besides is read back from its text as it was, up
to the last bit of a number and the last character of a text.

TOML refuses to write a list with a missing sample, and whole numbers that need the sign bit.
-/

namespace StepSignal

open Document (Renumbering)

namespace Stored

/-! ## What the formats keep -/

/-- JSON keeps the finite numbers of a table, and all of a series that is finite or missing. -/
def KeptByJson : Stored → Prop
  | .table t => ∀ row ∈ t.rows, ∀ x, .num x ∈ row.value → x.isFinite = true
  | .series s => ∀ x ∈ s.values, x.isNaN = false → x.isFinite = true
  | .settings _ => True

/-- TOML writes every table, a series without missing samples, and settings whose length of names has
63 bits. -/
def WrittenByToml : Stored → Prop
  | .table _ => True
  | .series s => ∀ x ∈ s.values, x.isNaN = false
  | .settings s => s.nameLength < 1 <<< 63

/-- Whether the columns of tasks are set. -/
def ColumnsSet : Stored → Prop
  | .settings s => s.pidColumn ≠ none ∧ s.commColumn ≠ none
  | _ => True

/-- Whether settings pass their own check. -/
def Checked : Stored → Prop
  | .settings s => s.check = .ok ()
  | _ => True

theorem exists_tomlFields {object : Stored} (h : object.WrittenByToml) :
    ∃ fields, object.tomlFields? = some fields := by
  cases object with
  | table t => exact ⟨_, rfl⟩
  | series s =>
    have hnone : ¬s.values.any Float.isNaN = true := fun hany => by
      obtain ⟨x, hx, hnan⟩ := List.any_eq_true.mp hany
      exact absurd ((h x hx).symm.trans hnan) (by decide)
    exact ⟨_, if_neg hnone⟩
  | settings s => exact ⟨_, if_pos h⟩

theorem tomlFields?_eq_none {object : Stored} (h : ¬object.WrittenByToml) :
    object.tomlFields? = none := by
  cases object with
  | table t => exact absurd trivial h
  | series s =>
    have hany : s.values.any Float.isNaN = true := by
      by_contra hnone
      refine h fun x hx => Bool.eq_false_iff.mpr fun hnan => hnone ?_
      exact List.any_eq_true.mpr ⟨x, hx, hnan⟩
    exact if_pos hany
  | settings s => exact if_neg h

/-- The largest shift of settings that pass their check is finite. -/
theorem isFinite_maxShift {s : Settings Float} (h : s.check = .ok ()) :
    ∀ x ∈ s.maxShift, x.isFinite = true := by
  have hshift : checkMaxShift s.maxShift = .ok () := by
    rw [Settings.check] at h
    split at h
    · exact absurd h (by simp)
    · simp only at h
      split at h
      · exact absurd h (by simp)
      · exact h
  intro x hx
  rw [Option.mem_def.mp hx, checkMaxShift] at hshift
  split at hshift
  · rename_i hlimit
    exact (Bool.and_eq_true _ _ ▸ hlimit).1
  · exact absurd hshift (by simp)

/-! ## Reading what was kept -/

/-- JSON gives back what it keeps. -/
theorem ofPayload?_json {object : Stored} (hvalid : object.Valid) (hcheck : object.Checked)
    (hkept : object.KeptByJson) (dialect : Dialect) :
    Stored.ofPayload? dialect object.kind (object.payload.renumber Json.renumbering) =
      some object := by
  have hfloat : ∀ x : Float, x.isFinite = true → Json.renumbering.float x = .float x :=
    Json.keeps_renumbering.float
  cases object with
  | table t =>
    exact congrArg (Option.map table) (Table.ofDocument?_toDocument Json.keeps_renumbering dialect
      hvalid fun row hrow x hx => hfloat x (hkept row hrow x hx))
  | series s =>
    exact congrArg (Option.map series) (Series.ofDocument?_toDocument Json.keeps_renumbering dialect
      hvalid fun x hx hnan => hfloat x (hkept x hx hnan))
  | settings s =>
    have hback := Settings.ofDocument?_writtenDocument Json.keeps_renumbering dialect false hvalid
      fun x hx => hfloat x (isFinite_maxShift hcheck x hx)
    rw [Settings.writtenDocument_false] at hback
    exact congrArg (Option.map settings) hback

/-- What comes back from TOML: settings have the standard columns of tasks where they had none. -/
def comesBack : Stored → Stored
  | .settings s => .settings (s.comesBack true)
  | object => object

theorem comesBack_eq_self {object : Stored} (h : object.ColumnsSet) : object.comesBack = object := by
  cases object with
  | table t => rfl
  | series s => rfl
  | settings s =>
    have hset : ∀ (o absent : Option String), o ≠ none → o.or absent = o := by
      intro o absent ho
      cases o with
      | none => exact absurd rfl ho
      | some name => rfl
    rw [comesBack, Settings.comesBack, if_pos rfl, hset _ _ h.1, hset _ _ h.2]

/-- TOML gives back what it writes. -/
theorem ofPayload?_toml {object : Stored} {fields : List (String × Document)}
    (hvalid : object.Valid) (h : object.tomlFields? = some fields) (dialect : Dialect) :
    Stored.ofPayload? dialect object.kind ((Document.record fields).renumber Toml.renumbering) =
      some object.comesBack := by
  cases object with
  | table t =>
    obtain rfl := Option.some.inj h
    exact congrArg (Option.map table) (Table.ofDocument?_toDocument Toml.keeps_renumbering dialect
      hvalid fun _ _ _ _ => rfl)
  | series s =>
    have hback := Series.ofDocument?_toDocument Toml.keeps_renumbering dialect hvalid
      fun _ _ _ => rfl
    rw [tomlFields?] at h
    split at h
    · exact absurd h (by simp)
    · obtain rfl := Option.some.inj h
      exact congrArg (Option.map series) hback
  | settings s =>
    have hback := Settings.ofDocument?_writtenDocument Toml.keeps_renumbering dialect true hvalid
      fun _ _ => rfl
    rw [tomlFields?] at h
    split at h
    · obtain rfl := Option.some.inj h
      exact congrArg (Option.map settings) hback
    · exact absurd h (by simp)

/-! ## The round trip -/

end Stored

end StepSignal
