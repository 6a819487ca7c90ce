import StepSignal.Archive.Folder
import StepSignal.Proofs.Archive.Misreading
import StepSignal.Proofs.Archive.TextRoundTrip

/-!
# What a save leaves in a folder

Read as a map from names to contents, a folder is changed by a save at one name only. The file is made
before the object is encoded, so that it holds the bytes of the object, or nothing when the encoding
has no spelling for it; what it held before is lost in both cases. After a save that cannot encode its
object, nothing is loaded from the path any more, while all other paths lead to what they led to before.
-/

namespace StepSignal

/-! ## Contents -/

namespace Folder

variable {name other : String}

theorem lookup_filter_ne (files : List (String × List UInt8)) (h : other ≠ name) :
    (files.filter (·.1 ≠ name)).lookup other = files.lookup other := by
  induction files with
  | nil => rfl
  | cons file files ih =>
    obtain ⟨key, held⟩ := file
    by_cases hkey : key = name
    · have hother : (other == key) = false := by simpa [hkey] using h
      rw [List.filter_cons_of_neg (by simpa using hkey), ih, List.lookup_cons, hother]
    · rw [List.filter_cons_of_pos (by simpa using hkey), List.lookup_cons, List.lookup_cons, ih]

/-- Making a file hold some bytes changes no other file. -/
theorem contents?_put (f : Folder) (name : String) (bytes : List UInt8) (other : String) :
    (f.put name bytes).contents? other = if other = name then some bytes else f.contents? other := by
  show ((name, bytes) :: f.files.filter (·.1 ≠ name)).lookup other = _
  rw [List.lookup_cons]
  by_cases h : other = name
  · rw [if_pos h, h, BEq.rfl]
  · rw [if_neg h, show (other == name) = false by simpa using h, lookup_filter_ne _ h]
    rfl

/-- What a file was made to hold before leaves no trace. -/
theorem put_put (f : Folder) (name : String) (bytes bytes' : List UInt8) :
    (f.put name bytes).put name bytes' = f.put name bytes' := by
  simp [put, List.filter_filter]

end Folder

/-! ## Saving -/

namespace Stored

/-- Only TOML refuses an object. -/
theorem toBytes_eq_error_iff {object : Stored} {e : Encoding} {fault : StoreFault} :
    object.toBytes e = .error fault ↔
      fault = .encode object.kind ∧ e = .toml ∧ ¬object.WrittenByToml := by
  cases e with
  | json => exact iff_of_false nofun (by simp)
  | messagePack => exact iff_of_false nofun (by simp)
  | toml =>
    rw [toBytes_toml]
    by_cases h : object.WrittenByToml
    · obtain ⟨fields, hfields⟩ := exists_tomlFields h
      rw [hfields]
      exact iff_of_false nofun fun hfault => hfault.2.2 h
    · rw [tomlFields?_eq_none h]
      simp [h, eq_comm]

/-- An empty file holds no object. -/
theorem ofBytes_nil (kind : ObjectKind) (e : Encoding) : ofBytes kind e [] = .error .decode := by
  apply ofBytes_of_header?_eq_none
  cases e with
  | json =>
    apply Encoding.header?_of_read?_eq_none
    show Json.read? (Utf8.decode []) = none
    rw [Utf8.decode, Json.read?, Json.tokens?.eq_1]
    rfl
  | messagePack => rfl
  | toml =>
    -- an empty text is a document of TOML, but it has no version
    have hread : Encoding.toml.read? [] = some (.record []) := by
      show (Utf8.text? []).bind Toml.read? = _
      rw [Utf8.text?, Utf8.decode]
      rfl
    rw [Encoding.header?, hread]
    rfl

end Stored

namespace Folder

variable {f : Folder} {object : Stored} {path : String} {e : Encoding}

/-- What a file was made to hold is loaded from the paths that lead to it. -/
theorem load_put {name : String} (hplace : placeOf path = .file name) (f : Folder)
    (bytes : List UInt8) (kind : ObjectKind) (e : Encoding) :
    (f.put name bytes).load kind path e = Stored.ofBytes kind e bytes := by
  rw [load, hplace]
  simp only [contents?_put, if_true]

/-- What is loaded depends on the file that the path leads to and on no other. -/
theorem load_congr {g : Folder} (h : ∀ name, placeOf path = .file name →
    f.contents? name = g.contents? name) (kind : ObjectKind) (e : Encoding) :
    f.load kind path e = g.load kind path e := by
  unfold load
  cases hplace : placeOf path with
  | folder => rfl
  | nowhere => rfl
  | file name => simp only [h name hplace]

/-- A save to where no file can be changes nothing. Any other makes the file hold the bytes of the
object, or nothing if there are none. -/
theorem save_cases (f : Folder) (object : Stored) (path : String) (e : Encoding) :
    ((∀ name, placeOf path ≠ .file name) ∧ f.save object path e = (f, .error .io)) ∨
    ∃ name, placeOf path = .file name ∧
      ((∃ bytes, object.toBytes e = .ok bytes ∧
        f.save object path e = (f.put name bytes, .ok ())) ∨
      (object.toBytes e = .error (.encode object.kind) ∧
        f.save object path e = (f.put name [], .error (.encode object.kind)))) := by
  cases hplace : placeOf path with
  | folder => exact .inl ⟨nofun, by rw [save, hplace]⟩
  | nowhere => exact .inl ⟨nofun, by rw [save, hplace]⟩
  | file name =>
    refine .inr ⟨name, rfl, ?_⟩
    cases hbytes : object.toBytes e with
    | ok bytes =>
      refine .inl ⟨bytes, rfl, ?_⟩
      simp only [save, hplace, hbytes, put_put]
    | error fault =>
      obtain ⟨rfl, -⟩ := Stored.toBytes_eq_error_iff.mp hbytes
      refine .inr ⟨rfl, ?_⟩
      simp only [save, hplace, hbytes]

/-- **A save that cannot encode its object empties the file.** That happens in TOML only, to a series
with a missing sample and to settings with a length of names of 64 bits. Whatever the file of the path
held is gone, and no object of any kind is loaded from there in any encoding; the folder is the same
as before only if the file was empty already. All other files, and what is loaded from the paths that
lead to them, are as they were. -/
theorem save_empties {kind : ObjectKind} (h : (f.save object path e).2 = .error (.encode kind)) :
    (kind = object.kind ∧ e = .toml ∧ ¬object.WrittenByToml) ∧
    ∃ name, placeOf path = .file name ∧
      (∀ other, (f.save object path e).1.contents? other =
        if other = name then some [] else f.contents? other) ∧
      ((∀ other, (f.save object path e).1.contents? other = f.contents? other) ↔
        f.contents? name = some []) ∧
      (∀ kind' e', (f.save object path e).1.load kind' path e' = .error .decode) ∧
      ∀ path', placeOf path' ≠ .file name → ∀ kind' e',
        (f.save object path e).1.load kind' path' e' = f.load kind' path' e' := by
  obtain ⟨-, hsave⟩ | ⟨name, hplace, ⟨bytes, -, hsave⟩ | ⟨hbytes, hsave⟩⟩ :=
    save_cases f object path e
  · rw [hsave] at h
    cases h
  · rw [hsave] at h
    cases h
  rw [hsave] at h ⊢
  cases h
  have hcontents : ∀ other, (f.put name []).contents? other =
      if other = name then some [] else f.contents? other := contents?_put f name []
  refine ⟨⟨rfl, (Stored.toBytes_eq_error_iff.mp hbytes).2⟩, name, hplace, hcontents,
    ⟨fun hsame => ?_, fun hempty other => ?_⟩, fun kind' e' => ?_, fun path' hother kind' e' => ?_⟩
  · rw [← hsame, hcontents, if_pos rfl]
  · rw [hcontents]
    split <;> rename_i hname
    · rw [hname, hempty]
    · rfl
  · rw [load_put hplace, Stored.ofBytes_nil]
  · refine load_congr (fun name' hplace' => ?_) kind' e'
    have hne : name' ≠ name := fun heq => hother (heq ▸ hplace')
    rw [hcontents, if_neg hne]

/-- A series with a missing sample is saved as TOML over another file, to a path that takes detours. -/
theorem save_empties_of_series :
    let before : Folder := ⟨[("t.json", [0x7B]), ("../s.toml", [0x66, 0x6F])]⟩
    let missing : Stored := .series ⟨"u", [⟨0, 1⟩, ⟨1, 0 / 0⟩]⟩
    let after := before.save missing "./..//s.toml" .toml
    after.2 = .error (.encode .series) ∧
    after.1.contents? "../s.toml" = some [] ∧ after.1.contents? "t.json" = some [0x7B] ∧
    after.1.load .table "./..//s.toml" .json = .error .decode := by
  intro before missing after
  have hplace : placeOf "./..//s.toml" = .file "../s.toml" := by decide
  have hbytes : missing.toBytes .toml = .error (.encode .series) := by
    rw [Stored.toBytes_toml]
    rfl
  have hfault : after.2 = .error (.encode .series) := by
    simp only [after, save, hplace, hbytes]
  obtain ⟨-, name, hname, hcontents, -, hload, -⟩ := save_empties hfault
  obtain rfl : "../s.toml" = name := Place.file.inj (hplace.symm.trans hname)
  exact ⟨hfault, (hcontents _).trans rfl, (hcontents _).trans rfl, hload .table .json⟩

/-- **A series is lost to a save that fails.** It was saved as TOML and could be loaded. After a save of
another series to its path, which fails on a missing sample, the file has other contents and the first
series is no longer loaded. -/
theorem save_loses_earlier :
    let kept : Stored := .series ⟨"u", [⟨0, 1⟩]⟩
    let missing : Stored := .series ⟨"u", [⟨0, 1⟩, ⟨1, 0 / 0⟩]⟩
    let before := (Folder.empty.save kept "s.toml" .toml).1
    let after := before.save missing "s.toml" .toml
    before.load .series "s.toml" .toml = .ok kept ∧
    after.2 = .error (.encode .series) ∧
    after.1.contents? "s.toml" ≠ before.contents? "s.toml" ∧
    after.1.load .series "s.toml" .toml = .error .decode := by
  intro kept missing before after
  have hplace : placeOf "s.toml" = .file "s.toml" := by decide
  have hvalid : kept.Valid := checkIndex_eq_ok.mp (by decide)
  have hwritten : kept.WrittenByToml := by
    intro x hx
    obtain rfl := List.mem_singleton.mp hx
    decide
  obtain ⟨fields, hfields⟩ := Stored.exists_tomlFields hwritten
  have hsaved : kept.toBytes .toml = .ok (Stored.tomlBytes .series fields) := by
    rw [Stored.toBytes_toml, hfields]
    rfl
  have hrefused : missing.toBytes .toml = .error (.encode .series) := by
    rw [Stored.toBytes_toml]
    rfl
  have hbefore : before = Folder.empty.put "s.toml" (Stored.tomlBytes .series fields) := by
    simp only [before, save, hplace, hsaved, put_put]
  have hafter : after = (before.put "s.toml" [], .error (.encode .series)) := by
    simp only [after, save, hplace, hrefused]
  have hkept : before.load .series "s.toml" .toml = .ok kept := by
    rw [hbefore, load_put hplace]
    refine (Stored.ofBytes_toml hfields .series).trans ((if_pos rfl).trans ?_)
    rw [Stored.ofPayload?_toml hvalid hfields, kept.comesBack_eq_self trivial]
    rfl
  have hlost : after.1.load .series "s.toml" .toml = .error .decode := by
    rw [hafter, load_put hplace, Stored.ofBytes_nil]
  refine ⟨hkept, by rw [hafter], fun hsame => ?_, hlost⟩
  have hload : after.1.load .series "s.toml" .toml = before.load .series "s.toml" .toml :=
    load_congr (fun name hname => Place.file.inj (hplace.symm.trans hname) ▸ hsame) _ _
  rw [hkept, hlost] at hload
  cases hload

end Folder

end StepSignal
