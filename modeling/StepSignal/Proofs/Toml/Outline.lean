import StepSignal.Proofs.Toml.Value

/-!
# Sections are put where their headers say

A writer that goes through a document section by section always works at the end of what is there:
at the last entry of a map, which is the last entry of the map around it or the last map of a list.
A list of frames leads to that place, and `fill` puts entries there. Opening a section of a frame and
closing it again adds nothing but the entries that were read in between.
-/

namespace StepSignal.Toml

/-! ## Entries at the end -/

section Put

variable {es : Entries} {name : String} {node : Node}

theorem put_absent (h : name ∉ es.map (·.1)) (node : Node) :
    es.put name node = es ++ [(name, node)] := by
  have habsent : ¬(es.any fun e => e.1 == name) = true := by
    rw [List.any_eq_true]
    rintro ⟨e, he, heq⟩
    exact h (beq_iff_eq.mp heq ▸ List.mem_map_of_mem he)
  rw [Entries.put, if_neg habsent]

theorem put_concat (h : name ∉ es.map (·.1)) (old node : Node) :
    Entries.put (es ++ [(name, old)]) name node = es ++ [(name, node)] := by
  have hpresent : ((es ++ [(name, old)]).any fun e => e.1 == name) = true := by simp
  have hsame : es.map (fun e => if e.1 == name then (name, node) else e) = es := by
    refine (List.map_congr_left fun e he => ?_).trans (List.map_id es)
    have hne : e.1 ≠ name := fun heq => h (heq ▸ List.mem_map_of_mem he)
    exact if_neg (by simpa using hne)
  rw [Entries.put, if_pos hpresent, List.map_append, hsame]
  simp

theorem lookup_concat (h : name ∉ es.map (·.1)) (node : Node) :
    List.lookup name (es ++ [(name, node)]) = some node := by
  rw [List.lookup_append, Document.lookup_eq_none h, Option.none_or, List.lookup_cons_self]

end Put

/-! ## Frames -/

/-- A map that is the last entry of another one. -/
structure Frame where
  /-- The entries of the map around it. -/
  before : Entries
  name : String
  /-- The maps before it when it is one of a list, the last one first. -/
  earlier : Option (List Entries)

namespace Frame

/-- What the name of a frame stands for when its map has some entries. -/
def node (f : Frame) (es : Entries) : Node :=
  match f.earlier with
  | none => .map .own es
  | some earlier => .maps es earlier

/-- The map around a frame, with the frame as its last entry. -/
def around (f : Frame) (es : Entries) : Entries := f.before ++ [(f.name, f.node es)]

/-- The map around a frame before the frame is there. -/
def base (f : Frame) : Entries :=
  match f.earlier with
  | some (last :: earlier) => f.before ++ [(f.name, .maps last earlier)]
  | _ => f.before

/-- Whether no other entry has the name of a frame. -/
def Fresh (f : Frame) : Prop := f.name ∉ f.before.map (·.1)

/-- The section of a frame below a path. -/
def place (f : Frame) (front : List String) : Section :=
  match f.earlier with
  | none => .map ⟨front, f.name⟩
  | some _ => .item ⟨front, f.name⟩

end Frame

/-- The names that lead through frames. -/
def namesOf (ctx : List Frame) : List String := ctx.map (·.name)

/-- Entries in the map that frames lead to. -/
def fill (ctx : List Frame) (es : Entries) : Entries := ctx.foldr Frame.around es

variable {ctx : List Frame} {f : Frame} {es : Entries}

theorem fill_concat (ctx : List Frame) (f : Frame) (es : Entries) :
    fill (ctx ++ [f]) es = fill ctx (f.around es) := by
  rw [fill, List.foldr_append]
  rfl

/-- The path of some frames leads to the entries that were put there. -/
theorem entriesAt?_fill (hctx : ∀ g ∈ ctx, g.Fresh) (es : Entries) :
    Outline.entriesAt? (fill ctx es) (namesOf ctx) = some es := by
  induction ctx with
  | nil => rfl
  | cons g ctx ih =>
    obtain ⟨hg, hctx⟩ := List.forall_mem_cons.mp hctx
    have hlookup : List.lookup g.name (fill (g :: ctx) es) = some (g.node (fill ctx es)) :=
      lookup_concat hg _
    show Outline.entriesAt? _ (g.name :: namesOf ctx) = _
    rw [Outline.entriesAt?, hlookup]
    cases hearlier : g.earlier with
    | none =>
      rw [Frame.node, hearlier]
      exact ih hctx
    | some earlier =>
      rw [Frame.node, hearlier]
      exact ih hctx

/-- **A change at the end of a path changes the entries that were put there**, and nothing else. -/
theorem edit_fill (hctx : ∀ g ∈ ctx, g.Fresh) (change : Entries → Option Entries) (origin : Origin)
    (es : Entries) :
    edit false origin (fill ctx es) (fun _ es => change es) (namesOf ctx) =
      (change es).map (fill ctx) := by
  induction ctx generalizing origin with
  | nil =>
    show change es = (change es).map id
    rw [Option.map_id, id]
  | cons g ctx ih =>
    obtain ⟨hg, hctx⟩ := List.forall_mem_cons.mp hctx
    have hlookup : List.lookup g.name (fill (g :: ctx) es) = some (g.node (fill ctx es)) :=
      lookup_concat hg _
    have hput : ∀ es', (fill (g :: ctx) es).put g.name (g.node es') = g.around es' := fun es' =>
      put_concat hg _ _
    show edit false origin _ _ (g.name :: namesOf ctx) = _
    rw [edit, hlookup]
    cases hearlier : g.earlier with
    | none =>
      have hnode : ∀ es, g.node es = .map .own es := fun es => by rw [Frame.node, hearlier]
      simp only [hnode, Bool.false_and, Bool.false_eq_true, if_false, ih hctx, Option.map_map]
      refine congrArg (Option.map · (change es)) (funext fun es' => ?_)
      exact (congrArg _ (hnode _).symm).trans (hput _)
    | some earlier =>
      have hnode : ∀ es, g.node es = .maps es earlier := fun es => by rw [Frame.node, hearlier]
      simp only [hnode, ih hctx, Option.map_map]
      refine congrArg (Option.map · (change es)) (funext fun es' => ?_)
      exact (congrArg _ (hnode _).symm).trans (hput _)

/-! ## Sections -/

/-- The outline after the header of a frame and some entries of its section. -/
def opened (ctx : List Frame) (f : Frame) (es : Entries) : Outline :=
  ⟨fill ctx f.base, f.place (namesOf ctx), es⟩

/-- **Closing a section puts its entries in the frame.** -/
theorem close_opened (hctx : ∀ g ∈ ctx, g.Fresh) (hf : f.Fresh) (es : Entries) :
    (opened ctx f es).close = some (fill (ctx ++ [f]) es) := by
  rw [fill_concat]
  have hplace : ∀ place, f.place (namesOf ctx) = place →
      (opened ctx f es).close = Outline.close ⟨fill ctx f.base, place, es⟩ := by
    rintro place rfl
    rfl
  have haround : ∀ node, f.node es = node → f.around es = f.before ++ [(f.name, node)] := by
    rintro node rfl
    rfl
  cases hearlier : f.earlier with
  | none =>
    have hbase : f.base = f.before := by rw [Frame.base, hearlier]
    rw [hplace (.map ⟨namesOf ctx, f.name⟩) (by rw [Frame.place, hearlier]),
      haround (.map .own es) (by rw [Frame.node, hearlier]), hbase]
    refine (edit_fill hctx (fun es' => some (es'.put f.name (.map .own es))) .own f.before).trans ?_
    rw [put_absent hf]
    rfl
  | some earlier =>
    rw [hplace (.item ⟨namesOf ctx, f.name⟩) (by rw [Frame.place, hearlier]),
      haround (.maps es earlier) (by rw [Frame.node, hearlier]), Outline.close]
    refine (edit_fill hctx _ .own f.base).trans ?_
    cases earlier with
    | nil =>
      have hbase : f.base = f.before := by rw [Frame.base, hearlier]
      simp only [hbase, Document.lookup_eq_none hf, put_absent hf]
      rfl
    | cons last earlier =>
      have hbase : f.base = f.before ++ [(f.name, .maps last earlier)] := by
        rw [Frame.base, hearlier]
      simp only [hbase, lookup_concat hf, put_concat hf]
      rfl

/-- A header opens the section of its frame. -/
theorem openMap_eq {o : Outline} (hctx : ∀ g ∈ ctx, g.Fresh) (hf : f.Fresh)
    (hearlier : f.earlier = none) (ho : o.close = some (fill ctx f.base)) :
    o.openMap ⟨namesOf ctx, f.name⟩ = some (opened ctx f []) := by
  have hbase : f.base = f.before := by rw [Frame.base, hearlier]
  have hplace : f.place (namesOf ctx) = .map ⟨namesOf ctx, f.name⟩ := by
    rw [Frame.place, hearlier]
  have hlookup : List.lookup f.name f.base = none := hbase ▸ Document.lookup_eq_none hf
  rw [Outline.openMap, ho, opened, hplace]
  simp only [Option.bind_eq_bind, Option.bind_some, entriesAt?_fill hctx, hlookup]

theorem openItem_eq {o : Outline} {earlier : List Entries} (hctx : ∀ g ∈ ctx, g.Fresh)
    (hf : f.Fresh) (hearlier : f.earlier = some earlier) (ho : o.close = some (fill ctx f.base)) :
    o.openItem ⟨namesOf ctx, f.name⟩ = some (opened ctx f []) := by
  have hplace : f.place (namesOf ctx) = .item ⟨namesOf ctx, f.name⟩ := by
    rw [Frame.place, hearlier]
  rw [Outline.openItem, ho, opened, hplace]
  simp only [Option.bind_eq_bind, Option.bind_some, entriesAt?_fill hctx]
  cases earlier with
  | nil =>
    have hbase : f.base = f.before := by rw [Frame.base, hearlier]
    rw [hbase, Document.lookup_eq_none hf]
  | cons last earlier =>
    have hbase : f.base = f.before ++ [(f.name, .maps last earlier)] := by
      rw [Frame.base, hearlier]
    rw [hbase, lookup_concat hf]

end StepSignal.Toml
