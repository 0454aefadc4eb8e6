import SchemaCompiler.Proofs.CountedArguments
import SchemaCompiler.Proofs.DefinitionChains
import SchemaCompiler.Proofs.Flattening

/-!
# Identifiers of models

Types have names of their own, for a second declaration with the name of a first
is refused.  Nothing of the kind is done for the fields of a struct and for
constants: an exported name forgets underscores and the case of letters after
them, and a constant is a type's name and a field's put together.  Here are the
exact conditions under which these identifiers are distinct.
-/

namespace SchemaCompiler

open Outcome List Naming

variable {t : TypeExpr}

/-! ## Fields with names of their own -/

namespace Resolver

variable {r : Resolver} {p : Projection}

/-- The fields are those of a projected declaration. -/
def TakesFields (r : Resolver) (p : Projection) : Prop :=
  ∃ d env q, r.project d env = .ok q ∧ p.fields = q.fields

theorem TakesFields.names (h : r.TakesFields p) : (p.fields.map (·.name)).Nodup := by
  obtain ⟨_, _, q, hq, hfields⟩ := h
  obtain ⟨x, hx, _, _, _, hexpanded⟩ := exists_of_project_ok hq
  rw [hfields, hexpanded]
  exact (isFlat_of_expand_ok hx).names

theorem takesFields_of_projectType (h : r.projectType t = .ok p) : r.TakesFields p := by
  obtain ⟨_, _, d, env, q, _, _, _, hq, rfl⟩ := exists_of_projectType_ok h
  exact ⟨d, env, q, hq, rfl⟩

end Resolver

namespace Graph

variable {g : Graph} {p : Projection}

theorem takesFields_of_projectOutside {name n : ScopedName}
    (h : g.projectOutside name n t = .ok p) : g.resolver.TakesFields p := by
  rcases projectOutside_eq_ok.mp h with ⟨_, d, q, _, hq, rfl⟩ | ⟨_, q, hq, rfl⟩
  · exact ⟨d, [], q, hq, rfl⟩
  · have hfields : g.resolver.TakesFields q := Resolver.takesFields_of_projectType hq
    exact hfields

/-- A declaration of the graph, or a projection from outside. -/
def Gives (g : Graph) (p : Projection) : Prop :=
  p ∈ g.all ∨ g.resolver.TakesFields p

theorem Gives.names (h : g.Built) (hp : g.Gives p) : (p.fields.map (·.name)).Nodup := by
  rcases hp with hp | hp
  · rcases mem_append.mp hp with hp | hp
    · obtain ⟨d, _, q, hq, rfl⟩ := h.exists_project_of_decl hp
      exact Resolver.TakesFields.names ⟨d, [], q, hq, rfl⟩
    · obtain ⟨i, hi⟩ := h.exists_projectInstance hp
      obtain ⟨_, q, hq, _, hfields⟩ := Tracker.exists_of_projectInstance_ok hi
      rw [hfields]
      exact (Resolver.takesFields_of_projectType hq).names
  · exact hp.names

theorem gives_of_projectedFor {asked : List TypeExpr} {entry : String × Projection}
    (h : g.ProjectedFor asked entry) : g.Gives entry.2 := by
  obtain ⟨_, _, _, _, _, _, _, _, _, hp⟩ := h
  exact .inr (takesFields_of_projectOutside hp)

/-- A lookup keeps and finds what the graph gives. -/
theorem gives_of_shape {shapes : Shapes} (hshapes : ∀ entry ∈ shapes, g.Gives entry.2)
    (t : TypeExpr) :
    (∀ entry ∈ (g.shape shapes t).1, g.Gives entry.2) ∧
      ∀ p, (g.shape shapes t).2 = .ok (some p) → g.Gives p := by
  obtain ⟨hkept, hfound⟩ := shape_rule (t := t) hshapes fun _ => gives_of_projectedFor
  refine ⟨hkept, fun p hp => ?_⟩
  obtain ⟨_, _, _, _, _, hgives | hdecl⟩ := hfound p hp
  · exact hgives
  · exact .inl (mem_all_of_decl? hdecl).1

end Graph

/-! ## What is written of a declaration -/

namespace GoModels

open GoSource

def typeName (p : Projection) : String := naming.name p.name

/-- The type of a declaration: an enumeration has a constant for each field, named by
the type and the field; anything else has the fields themselves. -/
inductive Writes (p : Projection) : TypeDecl → Prop
  | enumeration (doc : String) (henum : p.isEnum = true) :
      Writes p ⟨typeName p, doc, .enumeration (p.fields.map fun f =>
        (typeName p ++ exported f.name, f.field.serializedName))⟩
  | struct (doc : String) (henum : p.isEnum = false) {fields : List StructField}
      (hnames : fields.map (·.name) = p.fields.map (exported ·.name)) :
      Writes p ⟨typeName p, doc, .struct fields⟩

end GoModels

/-! ## A run -/

namespace Worklist

open GoModels

variable {g : Graph} {w w' : Worklist} {written : List Projection}

/-- Names belong to what is written and what waits, in order and once each, and all of it is
what the graph gives. -/
structure Tidy (g : Graph) (written : List Projection) (w : Worklist) : Prop where
  names : w.known = ((written ++ w.pending).map typeName).reverse
  nodup : w.known.Nodup
  gives : ∀ p ∈ written ++ w.pending, g.Gives p
  shapes : ∀ entry ∈ w.shapes, g.Gives entry.2

section Kept

variable (hw : w.Tidy g written) {p : Projection}
include hw

theorem Tidy.add (hp : g.Gives p) (h : w.add naming p = .ok w') : w'.Tidy g written := by
  unfold Worklist.add at h
  dsimp only at h
  split at h
  · split at h
    · cases h
      exact hw
    · cases h
  · rename_i hnone
    cases h
    have hnew : typeName p ∉ w.known := by
      intro hmem
      obtain ⟨entry, hentry, hsame⟩ := mem_map.mp hmem
      have hne := lookup_eq_none_iff.mp hnone entry hentry
      simp [hsame, typeName] at hne
    refine ⟨?_, nodup_cons.mpr ⟨hnew, hw.nodup⟩, ?_, hw.shapes⟩
    · rw [← append_assoc, map_append, reverse_append, ← hw.names]
      rfl
    · rw [← append_assoc]
      exact forall_mem_append.mpr ⟨hw.gives, forall_mem_singleton.mpr hp⟩

theorem Tidy.addAll {ps : List Projection} (hps : ∀ p ∈ ps, g.Gives p)
    (h : w.addAll naming ps = .ok w') : w'.Tidy g written := by
  induction ps generalizing w with
  | nil =>
    cases h
    exact hw
  | cons p ps ih =>
    rw [Worklist.addAll] at h
    split at h
    · cases h
    · rename_i next hnext
      obtain ⟨hp, hps⟩ := forall_mem_cons.mp hps
      exact ih (hw.add hp hnext) hps h

/-- At most the shape of a type joins. -/
theorem Tidy.use {found : Option Projection} (h : w.use naming g t = .ok (found, w')) :
    w'.Tidy g written := by
  obtain ⟨shapes, hshape, hcases⟩ := exists_of_use_ok h
  have hlookup := Graph.gives_of_shape hw.shapes t
  rw [hshape] at hlookup
  have hkept : ({ w with shapes } : Worklist).Tidy g written :=
    ⟨hw.names, hw.nodup, hw.gives, hlookup.1⟩
  rcases hcases with ⟨rfl, _⟩ | ⟨p, rfl, _, hadd⟩
  · exact hkept
  · exact hkept.add (hlookup.2 p rfl) hadd

theorem Tidy.goType {type : GoSource.FieldType} (h : w.goType g t = some (.ok (type, w'))) :
    w'.Tidy g written := by
  refine goType.partial_correctness g (fun w _ result => w.Tidy g written → ∀ type w',
    result = .ok (type, w') → w'.Tidy g written) ?_ w t _ h hw type w' rfl
  clear h hw
  intro rest ih w t result h hw type w' hok
  subst hok
  cases hlayer : g.resolver.classify t with
  | error failure =>
    rw [hlayer] at h
    cases h
  | ok layer =>
    -- the type around an inner one leaves the worklist to that
    have hinner {around : GoSource.FieldType → GoSource.FieldType}
        (h : (rest w layer.inner).bind (fun inner => some (inner.map fun found =>
          (around found.1, found.2))) = some (.ok (type, w'))) : w'.Tidy g written := by
      obtain ⟨inner, hinner, hsome⟩ := Option.bind_eq_some_iff.mp h
      obtain ⟨⟨innerType, after⟩, rfl, hsame⟩ := map_eq_ok.mp (Option.some.inj hsome)
      cases hsame
      exact ih _ _ _ hinner hw innerType after rfl
    cases hkind : layer.kind with
    | optional | list | map => simp only [hlayer, hkind] at h; exact hinner h
    | reference =>
      simp only [hlayer, hkind] at h
      cases h
      exact hw
    | plain =>
      simp only [hlayer, hkind] at h
      split at h
      · split at h
        · cases h
          exact hw
        · cases h
      · cases h
      · split at h
        · cases h
        · rename_i huse
          cases h
          exact hw.use huse
        · rename_i after huse
          split at h
          · cases h
          · exact ih _ _ _ h (hw.use huse) _ _ rfl

theorem Tidy.structFields {isUnion : Bool} {owner : ScopedName} {fields : List ConcreteField}
    {out : List GoSource.StructField}
    (h : GoModels.structFields g isUnion owner w fields = .ok (out, w')) :
    w'.Tidy g written ∧ out.map (·.name) = fields.map (exported ·.name) := by
  induction fields generalizing w out with
  | nil =>
    cases h
    exact ⟨hw, rfl⟩
  | cons f rest ih =>
    rw [GoModels.structFields] at h
    split at h
    · cases h
    · cases h
    · rename_i type after htype
      obtain ⟨⟨more, last⟩, hmore, hpure⟩ := bind_eq_ok.mp h
      cases pure_eq_ok.mp hpure
      obtain ⟨hlast, hnames⟩ := ih (hw.goType (outcome_eq_ok htype)) hmore
      exact ⟨hlast, congrArg (exported f.name :: ·) hnames⟩

theorem Tidy.typeDecl {t : GoSource.TypeDecl} (h : GoModels.typeDecl g w p = .ok (t, w')) :
    w'.Tidy g written ∧ Writes p t := by
  unfold GoModels.typeDecl at h
  dsimp only at h
  split at h
  · rename_i henum
    cases h
    exact ⟨hw, .enumeration _ henum⟩
  · rename_i henum
    obtain ⟨⟨fields, after⟩, hfields, hpure⟩ := bind_eq_ok.mp h
    cases pure_eq_ok.mp hpure
    obtain ⟨hafter, hnames⟩ := hw.structFields hfields
    exact ⟨hafter, .struct _ (by simpa using henum) hnames⟩

/-- A run writes what waits and what joins on the way, in this order. -/
theorem Tidy.goTypes {types : List GoSource.TypeDecl}
    (h : w.goTypes g = some (.ok (types, w'))) :
    ∃ new, ((written ++ new).map typeName).Nodup ∧ (∀ p ∈ written ++ new, g.Gives p) ∧
      Forall₂ Writes new types := by
  refine Worklist.goTypes.partial_correctness g (fun w result => ∀ written, w.Tidy g written →
    ∀ types w', result = .ok (types, w') → ∃ new, ((written ++ new).map typeName).Nodup ∧
      (∀ p ∈ written ++ new, g.Gives p) ∧ Forall₂ Writes new types) ?_
    w _ h written hw types w' rfl
  clear h hw
  intro run ih w result h written hw types w' hok
  subst hok
  cases hpending : w.pending with
  | nil =>
    simp only [hpending] at h
    cases h
    refine ⟨[], ?_, hpending ▸ hw.gives, .nil⟩
    rw [← hpending, ← nodup_reverse, ← hw.names]
    exact hw.nodup
  | cons p rest =>
    simp only [hpending] at h
    -- the next declaration goes over from what waits to what is written
    have hlist : written ++ w.pending = written ++ [p] ++ rest := by simp [hpending]
    have hnext : ({ w with pending := rest } : Worklist).Tidy g (written ++ [p]) :=
      ⟨hlist ▸ hw.names, hw.nodup, hlist ▸ hw.gives, hw.shapes⟩
    split at h
    · cases h
    · rename_i t after htype
      obtain ⟨hafter, hwrites⟩ := hnext.typeDecl htype
      obtain ⟨later, hlater, hsome⟩ := Option.bind_eq_some_iff.mp h
      obtain ⟨⟨more, last⟩, rfl, hsame⟩ := map_eq_ok.mp (Option.some.inj hsome)
      cases hsame
      obtain ⟨new, hnodup, hgives, hnew⟩ := ih _ _ hlater _ hafter more last rfl
      rw [append_assoc] at hnodup hgives
      exact ⟨p :: new, hnodup, hgives, .cons hwrites hnew⟩

end Kept

end Worklist

/-! ## Identifiers of a file -/

namespace GoSource

/-- The name of a type that can stand in a struct without a name. -/
def FieldType.typeName : FieldType → String
  | named name => name
  | json => "RawMessage"
  | pointer inner => inner.typeName
  | _ => ""

/-- The name of a field, which is that of its type where it is embedded. -/
def StructField.identifier (f : StructField) : String :=
  if f.name = "" then f.type.typeName else f.name

def TypeDecl.fields (t : TypeDecl) : List StructField :=
  match t.body with
  | .struct fields => fields
  | .enumeration _ => []

def TypeDecl.constants (t : TypeDecl) : List String :=
  match t.body with
  | .struct _ => []
  | .enumeration constants => constants.map (·.1)

/-- The identifiers that a file declares at its top: types and constants. -/
def File.identifiers (f : File) : List String :=
  f.types.flatMap fun t => t.name :: t.constants

end GoSource

namespace GoModels

open GoSource

variable {g : Graph} {p : Projection} {t : TypeDecl} {written : List Projection}
  {types : List TypeDecl} {file : File}

/-! ## Fields of a struct -/

/-- Nothing in a declaration makes two fields of its struct the same. -/
structure FieldsApart (p : Projection) (t : TypeDecl) : Prop where
  named : ∀ f ∈ p.fields, ∀ f' ∈ p.fields, exported f.name ≠ "" →
    exported f.name = exported f'.name → f.name = f'.name
  embedded : ((t.fields.filter (·.name = "")).map (·.type.typeName)).Nodup
  named_embedded : ∀ f ∈ p.fields, exported f.name ≠ "" →
    ∀ e ∈ t.fields, e.name = "" → exported f.name ≠ e.type.typeName

/-- Named fields and embedded ones, each under its identifier. -/
theorem identifiers_perm (fields : List StructField) :
    (fields.map (·.identifier)).Perm
      ((fields.map (·.name)).filter (· ≠ "") ++
        (fields.filter (·.name = "")).map (·.type.typeName)) := by
  induction fields with
  | nil => exact .nil
  | cons f fields ih =>
    by_cases hname : f.name = ""
    · simpa [StructField.identifier, hname] using
        (ih.cons f.type.typeName).trans perm_middle.symm
    · simpa [StructField.identifier, hname] using ih

theorem nodup_exported_iff {names : List String} (h : names.Nodup) :
    ((names.map exported).filter (· ≠ "")).Nodup ↔
      ∀ a ∈ names, ∀ b ∈ names, exported a ≠ "" →
        exported a = exported b → a = b := by
  rw [filter_map, nodup_map_iff_inj_on (h.filter _)]
  simp only [mem_filter, Function.comp_apply, decide_eq_true_eq]
  constructor
  · intro hinj a ha b hb hsome hsame
    exact hinj a ⟨ha, hsome⟩ b ⟨hb, hsame ▸ hsome⟩ hsame
  · rintro hinj a ⟨ha, hsome⟩ b ⟨hb, _⟩ hsame
    exact hinj a ha b hb hsome hsame

theorem Writes.names_of_struct (h : Writes p t) (henum : p.isEnum = false) :
    t.fields.map (·.name) = (p.fields.map (·.name)).map exported := by
  cases h with
  | enumeration _ henum' => rw [henum] at henum'; cases henum'
  | struct _ _ hnames =>
    rw [map_map]
    exact hnames

/-- The identifiers of a struct are distinct exactly if nothing makes two the same. -/
theorem Writes.nodup_fields_iff (h : Writes p t) (hp : (p.fields.map (·.name)).Nodup)
    (henum : p.isEnum = false) :
    (t.fields.map (·.identifier)).Nodup ↔ FieldsApart p t := by
  rw [(identifiers_perm t.fields).nodup_iff, h.names_of_struct henum, nodup_append,
    nodup_exported_iff hp]
  constructor
  · rintro ⟨hnamed, hembedded, hapart⟩
    refine ⟨fun f hf f' hf' => hnamed _ (mem_map_of_mem hf) _ (mem_map_of_mem hf'),
      hembedded, fun f hf hsome e he hname => hapart _ ?_ _ ?_⟩
    · exact mem_filter.mpr ⟨mem_map_of_mem (mem_map_of_mem hf), decide_eq_true hsome⟩
    · exact mem_map_of_mem (mem_filter.mpr ⟨he, decide_eq_true hname⟩)
  · intro hapart
    refine ⟨?_, hapart.embedded, ?_⟩
    · simp only [forall_mem_map]
      exact hapart.named
    · intro x hx y hy
      obtain ⟨hx, hsome⟩ := mem_filter.mp hx
      rw [map_map] at hx
      obtain ⟨f, hf, rfl⟩ := mem_map.mp hx
      obtain ⟨e, he, rfl⟩ := mem_map.mp hy
      obtain ⟨he, hname⟩ := mem_filter.mp he
      exact hapart.named_embedded f hf (of_decide_eq_true hsome) e he (of_decide_eq_true hname)

/-! ## Constants of a file -/

/-- The constants of a declaration, by type and field. -/
def constantKeys (p : Projection) : List (String × String) :=
  (p.fields.filter fun _ => p.isEnum).map fun f => (typeName p, f.name)

def constantName (key : String × String) : String :=
  key.1 ++ exported key.2

theorem Writes.constants_eq (h : Writes p t) :
    t.constants = (constantKeys p).map constantName := by
  cases h with
  | enumeration _ henum => simp [TypeDecl.constants, constantKeys, henum, constantName]
  | struct _ henum => simp [TypeDecl.constants, constantKeys, henum]

theorem nodup_flatMap_constantKeys (hfields : ∀ p ∈ written, (p.fields.map (·.name)).Nodup)
    (hnames : (written.map typeName).Nodup) :
    (written.flatMap constantKeys).Nodup := by
  rw [nodup_flatMap]
  constructor
  · intro p hp
    refine Nodup.of_map Prod.snd ?_
    rw [constantKeys, map_map]
    exact (hfields p hp).sublist (filter_sublist.map _)
  · refine (pairwise_map.mp hnames).imp fun hne key hkey hkey' => hne ?_
    obtain ⟨_, _, rfl⟩ := mem_map.mp hkey
    obtain ⟨_, _, hsame⟩ := mem_map.mp hkey'
    exact (congrArg Prod.fst hsame).symm

/-- Nothing in declarations makes a constant the same as another or as a type. -/
structure ConstantsApart (written : List Projection) : Prop where
  constants : ∀ key ∈ written.flatMap constantKeys, ∀ key' ∈ written.flatMap constantKeys,
    constantName key = constantName key' → key = key'
  types : ∀ key ∈ written.flatMap constantKeys, ∀ p ∈ written,
    constantName key ≠ typeName p

theorem names_of_writes (h : Forall₂ Writes written types) :
    types.map (·.name) = written.map typeName := by
  induction h with
  | nil => rfl
  | cons hwrites _ ih =>
    rw [map_cons, map_cons, ih]
    cases hwrites with
    | enumeration | struct => rfl

theorem constants_of_writes (h : Forall₂ Writes written types) :
    types.flatMap (·.constants) = (written.flatMap constantKeys).map constantName := by
  induction h with
  | nil => rfl
  | cons hwrites _ ih =>
    rw [flatMap_cons, flatMap_cons, map_append, hwrites.constants_eq, ih]

theorem nodup_identifiers_iff (h : Forall₂ Writes written file.types)
    (hfields : ∀ p ∈ written, (p.fields.map (·.name)).Nodup)
    (hnames : (written.map typeName).Nodup) : file.identifiers.Nodup ↔ ConstantsApart written := by
  have hperm : (file.types.map (·.name) ++ file.types.flatMap (·.constants)).Perm
      file.identifiers := map_append_flatMap_perm _ _ _
  rw [← hperm.nodup_iff, names_of_writes h, constants_of_writes h, nodup_append,
    nodup_map_iff_inj_on (nodup_flatMap_constantKeys hfields hnames)]
  constructor
  · rintro ⟨_, hconstants, hapart⟩
    exact ⟨hconstants, fun key hkey p hp hsame =>
      hapart _ (mem_map_of_mem hp) _ (mem_map_of_mem hkey) hsame.symm⟩
  · intro hapart
    refine ⟨hnames, hapart.constants, ?_⟩
    simp only [forall_mem_map]
    exact fun p hp key hkey hsame => hapart.types key hkey p hp hsame.symm

/-! ## Main result -/

theorem writes_of_build (asked : List TypeExpr) {packageName : String} {shapes : Shapes}
    (h : build packageName g (g.shapesAfter asked) = .ok (file, shapes)) :
    ∃ written, (written.map typeName).Nodup ∧ (∀ p ∈ written, g.Gives p) ∧
      Forall₂ Writes written file.types := by
  obtain ⟨work, hwork, hrest⟩ := bind_eq_ok.mp h
  obtain ⟨⟨types, last⟩, htypes, hpure⟩ := bind_eq_ok.mp hrest
  cases pure_eq_ok.mp hpure
  have hshapes : ∀ entry ∈ g.shapesAfter asked, g.Gives entry.2 := fun entry hentry =>
    Graph.gives_of_projectedFor (g.projectedFor_of_mem_shapesAfter asked entry hentry)
  have hstart : (Worklist.start (g.shapesAfter asked)).Tidy g [] :=
    ⟨rfl, nodup_nil, forall_mem_nil _, hshapes⟩
  have hconcrete : ∀ p ∈ g.concrete, g.Gives p := fun p hp =>
    .inl (mem_of_mem_filter (mem_mergeSort.mp hp))
  exact (hstart.addAll hconcrete hwork).goTypes (Worklist.outcome_eq_ok htypes)

/-- Types are those of declarations that the graph gives, and have names of their own.  The
fields of a struct are distinct exactly if its declaration keeps them apart; types and
constants together exactly if all declarations keep these apart. -/
theorem identifiers_distinct_iff {settings : Settings} {store : Store}
    (h : Graph.build settings store = .ok g) (asked : List TypeExpr) {packageName : String}
    {file : File} {shapes : Shapes}
    (hfile : build packageName g (g.shapesAfter asked) = .ok (file, shapes)) :
    ∃ written, (∀ p ∈ written, g.Gives p) ∧ (file.types.map (·.name)).Nodup ∧
      Forall₂ (fun p t => Writes p t ∧ (p.isEnum = false →
        ((t.fields.map (·.identifier)).Nodup ↔ FieldsApart p t))) written file.types ∧
      (file.identifiers.Nodup ↔ ConstantsApart written) := by
  obtain ⟨written, hnames, hgives, hwrites⟩ := writes_of_build asked hfile
  have hdistinct : ∀ p ∈ written, (p.fields.map (·.name)).Nodup := fun p hp =>
    (hgives p hp).names (Graph.built_of_build_ok h).2.2
  refine ⟨written, hgives, names_of_writes hwrites ▸ hnames, ?_,
    nodup_identifiers_iff hwrites hdistinct hnames⟩
  have hboth := (forall₂_and_left _ _).mpr ⟨hdistinct, hwrites⟩
  exact hboth.imp fun p t hp => ⟨hp.2, hp.2.nodup_fields_iff hp.1⟩

/-- Colours, with one of them in two spellings. -/
def colorStore : Store :=
  ⟨[⟨"app", [], [Standard.unionDecl "Color" [] [Standard.field "red" (.prim "Void"),
    Standard.field "Red" (.prim "Void")]], []⟩]⟩

def colorType : TypeDecl :=
  ⟨"Color", "", .enumeration [("ColorRed", "red"), ("ColorRed", "Red")]⟩

theorem build_colorStore :
    ∃ g shapes, Graph.build .standard colorStore = .ok g ∧
      build "models" g (g.shapesAfter []) = .ok (⟨"models", [colorType]⟩, shapes) := by
  obtain ⟨g, p, hbuild, hp, hwork, htype⟩ :
      ∃ g p, Graph.build .standard colorStore = .ok g ∧ g.all.filter (!·.generic) = [p] ∧
        (Worklist.start (g.shapesAfter [])).addAll naming [p] =
          .ok ⟨[], [("Color", p.name)], [p]⟩ ∧
        ∀ w, typeDecl g w p = .ok (colorType, w) :=
    ⟨_, _, Graph.build_of_sorted rfl rfl rfl rfl rfl rfl (by decide), rfl, rfl,
      fun _ => rfl⟩
  have hconcrete : g.concrete = [p] := by
    rw [Graph.concrete, hp]
    exact mergeSort_singleton p
  refine ⟨g, [], hbuild, ?_⟩
  rw [build, hconcrete, hwork]
  dsimp only [bind, Except.bind]
  rw [Worklist.goTypes]
  dsimp only
  rw [htype]
  dsimp only
  rw [Worklist.goTypes]
  rfl

/-- The two spellings are one constant. -/
theorem identifiers_distinct_iff_colorStore :
    ∃ g file shapes written, Graph.build .standard colorStore = .ok g ∧
      build "models" g (g.shapesAfter []) = .ok (file, shapes) ∧
      file.identifiers = ["Color", "ColorRed", "ColorRed"] ∧
      (∀ p ∈ written, g.Gives p) ∧ ¬ConstantsApart written := by
  obtain ⟨g, shapes, hbuild, hfile⟩ := build_colorStore
  obtain ⟨written, hgives, _, _, hiff⟩ := identifiers_distinct_iff hbuild [] hfile
  refine ⟨g, _, shapes, written, hbuild, hfile, rfl, hgives, fun hapart => ?_⟩
  exact absurd (hiff.mpr hapart) (by decide)

end GoModels

end SchemaCompiler
