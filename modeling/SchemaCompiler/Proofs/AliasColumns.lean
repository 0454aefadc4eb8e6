import SchemaCompiler.Proofs.AliasReferences
import SchemaCompiler.Relational.Schema

/-!
# Columns behind aliases

A column is nullable when its type as written is optional; its type and its
foreign key are found behind aliases.  Two graphs are compared that differ in
the type of one field only: an alias without parameters in the one, and its
definition in the other.  The columns agree, unless the definition is optional:
then the alias hides that from the column.
-/

namespace SchemaCompiler

open Outcome List Column Standard Resolver

/-- No parameter is bound, so none is replaced. -/
theorem TypeExpr.substitute_nil (t : TypeExpr) : t.substitute [] = .ok t := by
  induction t using TypeExpr.inductionOn with
  | hmissing => rfl
  | happ head args ih =>
    refine substitute_app_eq_ok.mpr ⟨args, forall₂_same.mpr ih, ?_⟩
    exact substituteHead_eq_ok.mpr (.inr ⟨fun _ _ => rfl, rfl⟩)

/-- The type is written as an optional value. -/
def Resolver.IsOptional (r : Resolver) (t : TypeExpr) : Prop :=
  t.head?.map r.headKind = some .optional

theorem Resolver.isOptional_iff {r : Resolver} {t : TypeExpr} {w : Wrapped}
    (h : r.classify t = .ok w) : r.IsOptional t ↔ w.kind = .optional := by
  cases t with
  | missing => cases h
  | app head args =>
    rw [(layer_of_classify_ok h).kind_eq]
    simp [IsOptional, TypeExpr.head?]

/-! ## One graph with two types for a field -/

/-- The fields are the same, but where `f` stands the second projection may have
`f'`. -/
structure Projection.Retyped (f f' : ConcreteField) (p p' : Projection) : Prop where
  others : p' = { p with fields := p'.fields }
  fields : Forall₂ (fun x x' => x' = x ∨ x = f ∧ x' = f') p.fields p'.fields

/-- Two graphs of one store whose declarations differ in the type of a field. -/
structure Graph.Retyped (f f' : ConcreteField) (g g' : Graph) : Prop where
  settings : g'.settings = g.settings
  store : g'.store = g.store
  decls : Forall₂ (Projection.Retyped f f') g.decls g'.decls

/-- A field with a type of its own. -/
def ConcreteField.Writes (f f' : ConcreteField) (t : TypeExpr) : Prop :=
  f'.field = { f.field with typeExpr := t }

namespace Relational

variable {g g' : Graph} {profile : Profile} {f f' : ConcreteField} {t : TypeExpr}
  {tables : List Table} {owner : ScopedName} {type : String}

/-! ## Tables before their columns are typed -/

/-- Tables of a graph and of its retyped form, before their columns are typed. -/
structure Matches (f f' : ConcreteField) (known known' : Table) : Prop where
  decl : known.decl.Retyped f f' known'.decl
  name : known'.name = known.name
  primaryKey : known'.primaryKey = known.primaryKey
  columns : known.columns = known.decl.fields.map ofField
  columns' : known'.columns = known'.decl.fields.map ofField

/-- The name and the key of a column do not depend on its type. -/
theorem primaryKey_eq_of_forall₂ (hf : f.Writes f' t) {xs xs' : List ConcreteField}
    (h : Forall₂ (fun x x' => x' = x ∨ x = f ∧ x' = f') xs xs') :
    ((xs'.map ofField).filter (·.primaryKey)).map (·.name) =
      ((xs.map ofField).filter (·.primaryKey)).map (·.name) := by
  have hcolumn : ∀ x x', x' = x ∨ x = f ∧ x' = f' →
      (ofField x').name = (ofField x).name ∧
        (ofField x').primaryKey = (ofField x).primaryKey := by
    rintro x x' (rfl | ⟨rfl, rfl⟩)
    · exact ⟨rfl, rfl⟩
    · unfold ConcreteField.Writes at hf
      simp [ofField, nameFor, ConcreteField.name, hf]
  induction h with
  | nil => rfl
  | @cons x x' xs xs' hx _ ih =>
    obtain ⟨hname, hkey⟩ := hcolumn x x' hx
    simp only [map_cons, filter_cons, hkey]
    split
    · rw [map_cons, map_cons, hname, ih]
    · exact ih

theorem matches_of_tableOf (hf : f.Writes f' t) {p p' : Projection} (h : p.Retyped f f' p')
    {known known' : Table} (hknown : tableOf p = .ok known) (hknown' : tableOf p' = .ok known') :
    Matches f f' known known' := by
  have hothers := h.others
  unfold tableOf at hknown hknown'
  have hannotations : p'.annotations = p.annotations := by rw [hothers]
  have hname : p'.name = p.name := by rw [hothers]
  rw [hannotations, hname] at hknown'
  split at hknown
  · cases hknown
  · rename_i settings hsettings
    rw [hsettings] at hknown'
    cases hknown
    cases hknown'
    exact ⟨h, rfl, primaryKey_eq_of_forall₂ hf h.fields, rfl, rfl⟩

/-! ## The column of a field -/

theorem resolver_eq (h : g.Retyped f f' g') : g'.resolver = g.resolver := by
  rw [Graph.resolver, Graph.resolver, h.store, h.settings]

theorem columnTypeWithin_eq (h : g.Retyped f f' g') (budget : Nat) (t : TypeExpr) :
    columnTypeWithin g' profile budget t = columnTypeWithin g profile budget t := by
  induction budget generalizing t with
  | zero => rfl
  | succ budget ih =>
    simp only [columnTypeWithin, h.store, h.settings, resolver_eq h, ih]

/-- A key is looked for in tables by the name of their declaration. -/
theorem foreignKeyOf_eq (h : g.Retyped f f' g') {tables' : List Table}
    (htables : Forall₂ (Matches f f') tables tables') (owner : ScopedName) (field : String)
    (t : TypeExpr) :
    foreignKeyOf g' tables' owner field t = foreignKeyOf g tables owner field t := by
  have hfind : ∀ target, Option.Rel (Matches f f')
      (tables.reverse.find? (·.decl.name = target))
      (tables'.reverse.find? (·.decl.name = target)) := by
    intro target
    apply find?_of_forall₂ (forall₂_reverse_iff.mpr htables)
    intro known known' hmatches
    have hname : known'.decl.name = known.decl.name := by rw [hmatches.decl.others]
    rw [hname]
  unfold foreignKeyOf
  rw [resolver_eq h]
  split
  · rfl
  · rename_i n target _ _
    split_ifs
    · rfl
    · have hrel := hfind target
      generalize tables.reverse.find? (·.decl.name = target) = found at hrel ⊢
      generalize tables'.reverse.find? (·.decl.name = target) = found' at hrel ⊢
      cases hrel with
      | none => rfl
      | some hmatches => simp only [hmatches.primaryKey, hmatches.name]
  · rfl

/-- A column of a field that was not touched is the same. -/
theorem typedColumn_eq (h : g.Retyped f f' g') {tables' : List Table}
    (htables : Forall₂ (Matches f f') tables tables') (owner : ScopedName) (c : Column) :
    typedColumn g' profile tables' owner c = typedColumn g profile tables owner c := by
  simp only [typedColumn, columnType, resolver_eq h, columnTypeWithin_eq h,
    foreignKeyOf_eq h htables]

/-- The type that a column holds: an optional value without its wrapper. -/
def heldType (w : Wrapped) (t : TypeExpr) : TypeExpr :=
  if w.kind = .optional then w.inner else t

/-- How a column gets its type and key. -/
structure TypedAs (g : Graph) (profile : Profile) (tables : List Table) (owner : ScopedName)
    (c done : Column) (w : Wrapped) : Prop where
  layer : g.resolver.classify c.field.typeExpr = .ok w
  field : done.field = c.field
  name : done.name = c.name
  nullable : done.nullable = decide (w.kind = .optional)
  annotated : ∀ type, c.field.field.annotations.text? columnTypeKey = some type → done.type = type
  type : c.field.field.annotations.text? columnTypeKey = none →
    columnType g profile (heldType w c.field.typeExpr) = .ok done.type
  foreignKey : foreignKeyOf g tables owner c.field.name (heldType w c.field.typeExpr) =
    .ok done.foreignKey

theorem exists_of_typedColumn_ok {c done : Column}
    (h : typedColumn g profile tables owner c = .ok done) :
    ∃ w, TypedAs g profile tables owner c done w := by
  obtain ⟨w, hw, h⟩ := bind_eq_ok.mp h
  have hlayer := mapError_eq_ok.mp hw
  dsimp only at h
  split at h
  · rename_i type hannotated
    obtain ⟨_, ⟨⟩, h⟩ := bind_eq_ok.mp h
    obtain ⟨key, hkey, rfl⟩ := bind_pure_eq_ok.mp h
    refine ⟨w, hlayer, rfl, rfl, rfl, fun other hother => ?_, fun hnone => ?_, hkey⟩
    · exact Option.some.inj (hannotated.symm.trans hother)
    · simp [hannotated] at hnone
  · rename_i hnone
    obtain ⟨type, htype, h⟩ := bind_eq_ok.mp h
    obtain ⟨key, hkey, rfl⟩ := bind_pure_eq_ok.mp h
    refine ⟨w, hlayer, rfl, rfl, rfl, fun other hother => ?_,
      fun _ => mapError_eq_ok.mp htype, hkey⟩
    simp [hnone] at hother

/-- A longer chain of aliases and new types may be followed. -/
theorem columnTypeWithin_succ {budget : Nat} (h : columnTypeWithin g profile budget t = .ok type) :
    columnTypeWithin g profile (budget + 1) t = .ok type := by
  induction budget generalizing t with
  | zero => cases h
  | succ budget ih =>
    rw [columnTypeWithin] at h ⊢
    split at h
    · exact h
    · split at h
      · cases h
      · split at h
        · exact h
        · split_ifs at h ⊢
          · exact h
          · exact h
          · split at h
            · cases h
            · exact h
            · exact ih h

section Alias

variable {n : ScopedName} {d : ScopedDecl} {body : TypeExpr} (hd : g.store.resolve n = .ok d)
  (hbody : d.decl.body = .synonym [] body) {key : Option ForeignKey} {field : String}
include hd hbody

theorem unfolds_of_synonym (hplain : g.settings.wrappers.isReference n = false) :
    g.resolver.Unfolds (.ref n) n body :=
  ⟨rfl, hplain, d, [], body, [], hd, hbody, rfl, TypeExpr.substitute_nil body⟩

theorem columnType_of_synonym (hplain : g.settings.wrappers.isReference n = false)
    (hunmarked : d.decl.annotations.text? columnTypeKey = none)
    (h : columnType g profile (.ref n) = .ok type) : columnType g profile body = .ok type := by
  have henum : d.decl.isEnum = false := by rw [Declaration.isEnum, hbody]
  have hexpand : g.resolver.expandOnce (.ref n) = .ok (some body) := by
    have hresolve : g.resolver.store.resolve n = .ok d := hd
    have htarget : d.decl.body.target? = some body := by rw [hbody]; rfl
    have hparams : d.decl.params = [] := by rw [Declaration.params, hbody]; rfl
    simp [expandOnce, TypeExpr.ref, TypeExpr.reference?, TypeExpr.args, hresolve,
      htarget, hparams, Env.bind, TypeExpr.substitute_nil]
  have hstep : ∀ budget, columnTypeWithin g profile (budget + 1) (.ref n) =
      columnTypeWithin g profile budget body := by
    intro budget
    have hname : (TypeExpr.ref n).reference? = some n := rfl
    simp [columnTypeWithin, hname, hd, hunmarked, hplain, henum, hexpand]
  rw [columnType, maxExpansion, hstep 63] at h
  exact columnTypeWithin_succ h

/-- An alias of a type that is no optional value stands for it. -/
theorem foreignKeyOf_of_synonym (hplain : g.settings.wrappers.isReference n = false)
    (h : foreignKeyOf g tables owner field (.ref n) = .ok key) :
    foreignKeyOf g tables owner field body = .ok key := by
  unfold foreignKeyOf at h ⊢
  cases hexpanded : g.resolver.expandAliases (.ref n) with
  | error failure => simp [hexpanded] at h
  | ok s =>
    rw [expandAliases_of_unfolds (unfolds_of_synonym hd hbody hplain) hexpanded]
    rwa [hexpanded] at h

/-- No other key than the definition has at its head is found. -/
theorem foreignKey_of_atHead (hplain : g.settings.wrappers.isReference n = false)
    (hhead : g.resolver.AtHead body) (hkey : body.reference? ≠ some keyWrapper)
    (h : foreignKeyOf g tables owner field (.ref n) = .ok key) : key = none := by
  have hkeys := foreignKeyOf_of_synonym hd hbody hplain h
  unfold foreignKeyOf at hkeys
  rw [expandAliases, expandWithin_of_atHead hhead] at hkeys
  split at hkeys
  · cases hkeys
  · rename_i m target _ hexpanded
    cases hexpanded
    have hm : m ≠ keyWrapper := fun hm => hkey (by rw [← hm]; rfl)
    rw [if_pos hm] at hkeys
    exact (Except.ok.inj hkeys).symm
  · exact (Except.ok.inj hkeys).symm

end Alias

/-! ## Schemas -/

/-- The column of a field written as an alias, and of the field written as its
definition: they agree unless the definition is optional, and the first is never
nullable and has no key but the one at the head of the definition. -/
structure BehindAlias (g : Graph) (body : TypeExpr) (c c' : Column) : Prop where
  name : c'.name = c.name
  nullable : c.nullable = false
  nullable_iff : c'.nullable = true ↔ g.resolver.IsOptional body
  same_iff : c'.nullable = c.nullable ∧ c'.type = c.type ∧ c'.foreignKey = c.foreignKey ↔
    ¬g.resolver.IsOptional body
  keyless : g.resolver.AtHead body → body.reference? ≠ some keyWrapper → c.foreignKey = none

theorem behindAlias_of_typed {n : ScopedName} {d : ScopedDecl} {body : TypeExpr}
    (hd : g.store.resolve n = .ok d) (hbody : d.decl.body = .synonym [] body)
    (hunmarked : d.decl.annotations.text? columnTypeKey = none) (hf : f.typeExpr = .ref n)
    (hf' : f.Writes f' body) {c c' : Column}
    (hc : typedColumn g profile tables owner (.ofField f) = .ok c)
    (hc' : typedColumn g profile tables owner (.ofField f') = .ok c') :
    BehindAlias g body c c' := by
  obtain ⟨w, hw⟩ := exists_of_typedColumn_ok hc
  obtain ⟨w', hw'⟩ := exists_of_typedColumn_ok hc'
  have hname : f'.name = f.name := by rw [ConcreteField.name, hf', ConcreteField.name]
  have htype' : f'.typeExpr = body := by rw [ConcreteField.typeExpr, hf']
  have hannotations : f'.field.annotations = f.field.annotations := by rw [hf']
  -- An alias without arguments is no wrapper, so the column of the alias is plain.
  have hlayer : Layer g.resolver (.reference n) [] w := by
    have hclassify : g.resolver.classify f.typeExpr = .ok w := hw.layer
    rw [hf] at hclassify
    exact layer_of_classify_ok hclassify
  have hkind : w.kind = .plain := by
    by_contra hkind
    cases hlayer.args_eq hkind
  have hplain : g.settings.wrappers.isReference n = false := by
    have hhead : g.resolver.headKind (.reference n) = .plain := hlayer.kind_eq ▸ hkind
    rw [headKind] at hhead
    split_ifs at hhead with _ hreference
    exact Bool.eq_false_iff.mpr hreference
  have hheld : heldType w f.typeExpr = .ref n := by simp [heldType, hkind, hf]
  have hkey : foreignKeyOf g tables owner f.name (.ref n) = .ok c.foreignKey :=
    hheld ▸ hw.foreignKey
  have hoptional : g.resolver.IsOptional body ↔ w'.kind = .optional :=
    isOptional_iff (htype' ▸ hw'.layer)
  refine ⟨?_, by simp [hw.nullable, hkind], ?_, ?_, ?_⟩
  · rw [hw.name, hw'.name]
    simp [ofField, nameFor, hannotations, hname]
  · rw [hw'.nullable, hoptional, decide_eq_true_iff]
  · rw [hoptional]
    constructor
    · rintro ⟨hnullable, _⟩ hkind'
      simp [hw.nullable, hw'.nullable, hkind, hkind'] at hnullable
    · intro hkind'
      have hheld' : heldType w' f'.typeExpr = body := by simp [heldType, hkind', htype']
      refine ⟨by simp [hw.nullable, hw'.nullable, hkind, hkind'], ?_, ?_⟩
      · cases hcolumn : f.field.annotations.text? columnTypeKey with
        | some type =>
          rw [hw.annotated type hcolumn, hw'.annotated type (hannotations ▸ hcolumn)]
        | none =>
          have htype : columnType g profile (.ref n) = .ok c.type := hheld ▸ hw.type hcolumn
          have hsame : columnType g profile body = .ok c'.type :=
            hheld' ▸ hw'.type (hannotations ▸ hcolumn)
          have hdefinition := columnType_of_synonym hd hbody hplain hunmarked htype
          exact Except.ok.inj (hsame.symm.trans hdefinition)
      · have hsame : foreignKeyOf g tables owner f.name body = .ok c'.foreignKey := by
          rw [← hname]
          exact hheld' ▸ hw'.foreignKey
        exact Except.ok.inj (hsame.symm.trans (foreignKeyOf_of_synonym hd hbody hplain hkey))
  · intro hhead hother
    exact foreignKey_of_atHead hd hbody hplain hhead hother hkey

end Relational

namespace Schema

open Relational

variable {g : Graph}

theorem exists_of_build_ok {profile : Profile} {s : Schema} (h : build g profile = .ok s) :
    ∃ known, ((g.annotated tableKey).filter (!·.generic)).mapM tableOf = .ok known ∧
      ((known.filter (!·.decl.external)).mergeSort fun a b => Text.le a.name b.name).mapM
        (typedTable g profile known) = .ok s.tables := by
  obtain ⟨known, hknown, h⟩ := bind_eq_ok.mp h
  obtain ⟨tables, htables, h⟩ := bind_eq_ok.mp h
  obtain ⟨views, _, rfl⟩ := bind_pure_eq_ok.mp h
  exact ⟨known, hknown, htables⟩

/-- A field is written as an alias without parameters in one graph, and as the
definition of the alias in another.  Table by table and column by column the schemas
have the same columns, but for those of this field; and these agree in their type, in
being nullable and in their key exactly when the definition is no optional value. -/
theorem columns_behind_alias {g g' : Graph} {profile : Profile} {f f' : ConcreteField}
    {n : ScopedName} {d : ScopedDecl} {body : TypeExpr} {s s' : Schema}
    (hgraph : g.Retyped f f' g') (hf : f.typeExpr = .ref n) (hf' : f.Writes f' body)
    (hd : g.store.resolve n = .ok d) (hbody : d.decl.body = .synonym [] body)
    (hunmarked : d.decl.annotations.text? columnTypeKey = none)
    (hs : build g profile = .ok s) (hs' : build g' profile = .ok s') :
    Forall₂ (fun t t' => t'.name = t.name ∧ Forall₂ (fun c c' => c' = c ∨
      c.field = f ∧ c'.field = f' ∧ BehindAlias g body c c') t.columns t'.columns)
      s.tables s'.tables := by
  obtain ⟨known, hknown, htables⟩ := exists_of_build_ok hs
  obtain ⟨known', hknown', htables'⟩ := exists_of_build_ok hs'
  have hmatches : Forall₂ (Matches f f') known known' := by
    have hdecls : Forall₂ (Projection.Retyped f f')
        ((g.annotated tableKey).filter (!·.generic))
        ((g'.annotated tableKey).filter (!·.generic)) := by
      apply Outcome.forall₂_filter
      · apply Outcome.forall₂_filter hgraph.decls
        intro p p' hp
        rw [hp.others]
      · intro p p' hp
        rw [hp.others]
    apply Outcome.forall₂_of_mapM hdecls hknown hknown'
    intro p p' _ _ hp hknown hknown'
    exact matches_of_tableOf hf' hp hknown hknown'
  have hfocus : Forall₂ (Matches f f') (known.filter (!·.decl.external))
      (known'.filter (!·.decl.external)) := by
    apply Outcome.forall₂_filter hmatches
    intro t t' ht
    rw [ht.decl.others]
  have hsorted : Forall₂ (Matches f f')
      ((known.filter (!·.decl.external)).mergeSort fun a b => Text.le a.name b.name)
      ((known'.filter (!·.decl.external)).mergeSort fun a b => Text.le a.name b.name) := by
    apply Outcome.forall₂_mergeSort hfocus
    intro a b c d hab hcd
    rw [hab.name, hcd.name]
  apply Outcome.forall₂_of_mapM hsorted htables htables'
  intro t t' done done' ht hdone hdone'
  obtain ⟨columns, hcolumns, hdone⟩ := Outcome.bind_eq_ok.mp hdone
  obtain ⟨columns', hcolumns', hdone'⟩ := Outcome.bind_eq_ok.mp hdone'
  obtain rfl := Outcome.pure_eq_ok.mp hdone
  obtain rfl := Outcome.pure_eq_ok.mp hdone'
  refine ⟨ht.name, ?_⟩
  have howner : t'.decl.name = t.decl.name := by rw [ht.decl.others]
  rw [ht.columns] at hcolumns
  rw [ht.columns', howner] at hcolumns'
  have hfields : Forall₂ (fun c c' => c' = c ∨ c = .ofField f ∧ c' = .ofField f')
      (t.decl.fields.map Column.ofField) (t'.decl.fields.map Column.ofField) := by
    rw [forall₂_map_left_iff, forall₂_map_right_iff]
    apply ht.decl.fields.imp
    rintro x x' (rfl | ⟨rfl, rfl⟩)
    · exact .inl rfl
    · exact .inr ⟨rfl, rfl⟩
  apply Outcome.forall₂_of_mapM hfields hcolumns hcolumns'
  rintro a b c c' hab hc hc'
  rw [typedColumn_eq hgraph hmatches] at hc'
  rcases hab with rfl | ⟨rfl, rfl⟩
  · exact .inl (Except.ok.inj (hc'.symm.trans hc))
  · obtain ⟨_, hw⟩ := exists_of_typedColumn_ok hc
    obtain ⟨_, hw'⟩ := exists_of_typedColumn_ok hc'
    exact .inr ⟨hw.field, hw'.field,
      behindAlias_of_typed hd hbody hunmarked hf hf' hc hc'⟩

/-! ## An optional key -/

/-- The schema of a graph without views, where one table is in focus. -/
theorem build_of_single {profile : Profile} {known : List Table} {t done : Table}
    (hknown : ((g.annotated tableKey).filter (!·.generic)).mapM tableOf = .ok known)
    (hfocus : known.filter (!·.decl.external) = [t])
    (hdone : typedTable g profile known t = .ok done)
    (hviews : (g.annotated viewKey).filter (fun p => !p.generic && !p.external) = []) :
    build g profile = .ok ⟨profile, [done.decl.name.moduleName], [done], []⟩ := by
  refine bind_eq_ok.mpr ⟨known, hknown, bind_eq_ok.mpr ⟨[done], ?_, ?_⟩⟩
  · rw [hfocus, mergeSort_singleton]
    exact mapM_eq_ok.mpr (.cons hdone .nil)
  · refine bind_eq_ok.mpr ⟨[], by rw [hviews]; rfl, pure_eq_ok.mpr ?_⟩
    rw [mergeSort_nil]
    rfl

def soldItem : ScopedDecl :=
  ⟨"app", ⟨"Item", none, .struct [] [field "id" text], [⟨tableKey, .absent⟩]⟩⟩

def soldKey : TypeExpr := .prim "Nullable" [.ref keyWrapper [.ref soldItem.name]]

def maybeItem : ScopedDecl := ⟨"app", ⟨"MaybeItem", none, .synonym [] soldKey, []⟩⟩

def itemSale : ScopedDecl :=
  ⟨"app", ⟨"Sale", none, .struct [] [field "item" (.ref maybeItem.name)],
    [⟨tableKey, .absent⟩]⟩⟩

/-- A struct with its own fields. -/
def rowOf (d : ScopedDecl) (fields : List ConcreteField) (external : Bool) : Projection :=
  ⟨d.name, d, .struct, d.name, fields, d.decl.annotations, false, external, false, .missing, []⟩

def soldId : ConcreteField :=
  ⟨{ field "id" text with annotations := [⟨primaryKeyKey, .absent⟩] },
    .one, true, false, none, [], soldItem.name⟩

/-- The item of a sale, by a type. -/
def soldField (type : TypeExpr) (cardinality : Cardinality) : ConcreteField :=
  ⟨field "item" type, cardinality, true, false, some soldItem.name, [soldItem.name],
    itemSale.name⟩

/-- Sales are in focus and items are not. -/
def soldGraph (f : ConcreteField) : Graph where
  settings := .standard
  store := ⟨[⟨"app", [], [soldItem, maybeItem, itemSale].map fun d => (d.decl.name, d.decl), []⟩,
    ⟨"common.db", [], [newtypeDecl "DbKey" ["T"] text], []⟩]⟩
  decls := [rowOf soldItem [soldId] true, rowOf itemSale [f] false]
  instances := []
  metadata := ⟨[], []⟩
  tracker := .empty

theorem retyped_soldGraph (f f' : ConcreteField) :
    (soldGraph f).Retyped f f' (soldGraph f') where
  settings := rfl
  store := rfl
  decls := by
    refine .cons ⟨rfl, .cons (.inl rfl) .nil⟩ (.cons ⟨rfl, ?_⟩ .nil)
    exact .cons (.inr ⟨rfl, rfl⟩) .nil

def byAlias : ConcreteField := soldField (.ref maybeItem.name) .one

def byKey : ConcreteField := soldField soldKey .optional

/-- A sale may be without an item.  Behind the alias the column is not nullable and
refers to no table. -/
theorem columns_behind_alias_maybeItem :
    ∃ s s' c c', build (soldGraph byAlias) .postgresql2 = .ok s ∧
      build (soldGraph byKey) .postgresql2 = .ok s' ∧
      s.tables.map (·.columns) = [[c]] ∧ s'.tables.map (·.columns) = [[c']] ∧
      BehindAlias (soldGraph byAlias) soldKey c c' ∧ c.foreignKey = none ∧
      c'.foreignKey.map (·.target) = some soldItem.name := by
  have hs : build (soldGraph byAlias) .postgresql2 = .ok _ := build_of_single rfl rfl rfl rfl
  have hs' : build (soldGraph byKey) .postgresql2 = .ok _ := build_of_single rfl rfl rfl rfl
  have htables := columns_behind_alias (retyped_soldGraph byAlias byKey) (n := maybeItem.name)
    (d := maybeItem) rfl rfl rfl rfl rfl hs hs'
  obtain ⟨⟨_, hcolumns⟩, _⟩ := forall₂_cons.mp htables
  obtain ⟨hcolumn, _⟩ := forall₂_cons.mp hcolumns
  refine ⟨_, _, _, _, hs, hs', rfl, rfl, ?_, rfl, rfl⟩
  rcases hcolumn with hsame | ⟨_, _, hbehind⟩
  · exact absurd (congrArg Column.nullable hsame) nofun
  · exact hbehind

end Schema

end SchemaCompiler
