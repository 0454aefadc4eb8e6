import SchemaCompiler.Proofs.Augmented
import SchemaCompiler.Proofs.SuppliedArguments

/-!
# Metadata for all of a graph

The table of metadata has an entry for every declaration and instance of a graph
and for each of their fields, and for nothing else.  The uses of a declaration are
listed field by field in the order of the graph.  So a graph can be augmented
always: each projection finds its metadata, and the module it belongs to is
loaded.
-/

namespace SchemaCompiler

open Outcome Metadata Tracker Keyed

/-! ## Tables whose last entry counts -/

section Tables

variable {α β : Type} [BEq α] [LawfulBEq α] {entries : List (α × β)} {key : α} {value : β}

theorem mem_of_lookup_reverse (h : entries.reverse.lookup key = some value) :
    (key, value) ∈ entries := by
  obtain ⟨before, after, heq, _⟩ := List.lookup_eq_some_iff.mp h
  rw [← List.mem_reverse, heq]
  exact List.mem_append_right before List.mem_cons_self

theorem exists_lookup_reverse (h : (key, value) ∈ entries) :
    ∃ found, entries.reverse.lookup key = some found := by
  rw [← Option.isSome_iff_exists, List.lookup_isSome_iff]
  exact ⟨(key, value), List.mem_reverse.mpr h, BEq.rfl⟩

end Tables

namespace Metadata

variable {r : Resolver} {ps : List Projection} {tracker : Option Tracker} {m : Metadata}
  {p : Projection} {n : ScopedName} {entry : (ScopedName × String) × FieldMeta} {f : ConcreteField}
  {name : String} {d : DeclMeta}

theorem decl_eq_ok : m.decl n = .ok d ↔ m.decls.reverse.lookup n = some d := by
  rw [decl, decl?]
  cases m.decls.reverse.lookup n <;> simp

theorem field_eq_ok {f : FieldMeta} :
    m.field n name = .ok f ↔ m.fields.reverse.lookup (n, name) = some f := by
  rw [field]
  cases m.fields.reverse.lookup (n, name) <;> simp

theorem usesOf_eq (ps : List Projection) (target : ScopedName) :
    usesOf ps target = ps.flatMap fun p => p.fields.flatMap fun f =>
      List.replicate (f.references.count target) (p.name.name ++ "::" ++ f.name) := by
  unfold usesOf
  simp only [List.map_const', List.count_eq_length_filter, beq_eq_decide]

/-- What the metadata of a field says. -/
structure Describes (m : FieldMeta) (f : ConcreteField) : Prop where
  cardinality : m.cardinality = f.cardinality
  concrete : m.concrete = f.concrete
  monomorphized : m.monomorphized = f.monomorphized
  link : m.link = f.link

theorem describes_of_fieldMeta_ok (h : fieldMeta r tracker p f = .ok entry) :
    entry.1 = (p.name, f.name) ∧ Describes entry.2 f := by
  obtain ⟨name, _, rfl⟩ := bind_pure_eq_ok.mp h
  exact ⟨rfl, rfl, rfl, rfl, rfl⟩

/-! ## Derived tables -/

section Derived

variable (h : derive r ps tracker = .ok m)
include h

theorem decls_of_derive_ok : m.decls = ps.map fun p => (p.name, declMeta ps tracker p) := by
  obtain ⟨fields, _, rfl⟩ := bind_pure_eq_ok.mp h
  rfl

theorem mem_fields_of_derive_ok :
    entry ∈ m.fields ↔ ∃ p ∈ ps, ∃ f ∈ p.fields, fieldMeta r tracker p f = .ok entry := by
  obtain ⟨parts, hparts, rfl⟩ := bind_pure_eq_ok.mp h
  rw [List.mem_flatten]
  have hparts := mapM_eq_ok.mp hparts
  constructor
  · rintro ⟨part, hpart, hentry⟩
    obtain ⟨p, hp, hfields⟩ := forall₂_exists_left hparts hpart
    obtain ⟨f, hf, hmeta⟩ := forall₂_exists_left (mapM_eq_ok.mp hfields) hentry
    exact ⟨p, hp, f, hf, hmeta⟩
  · rintro ⟨p, hp, f, hf, hmeta⟩
    obtain ⟨part, hpart, hfields⟩ := forall₂_exists_right hparts hp
    obtain ⟨other, hother, hfound⟩ :=
      forall₂_exists_right (mapM_eq_ok.mp hfields) hf
    obtain rfl := Except.ok.inj (hmeta.symm.trans hfound)
    exact ⟨part, hpart, hother⟩

theorem exists_of_decl_ok (hd : m.decl n = .ok d) :
    ∃ p ∈ ps, p.name = n ∧ d = declMeta ps tracker p := by
  have hmem := mem_of_lookup_reverse (decl_eq_ok.mp hd)
  rw [decls_of_derive_ok h] at hmem
  obtain ⟨p, hp, heq⟩ := List.mem_map.mp hmem
  cases heq
  exact ⟨p, hp, rfl, rfl⟩

theorem exists_decl_of_mem (hp : p ∈ ps) : ∃ d, m.decl p.name = .ok d := by
  have hmem : (p.name, declMeta ps tracker p) ∈ m.decls := by
    rw [decls_of_derive_ok h]
    exact List.mem_map_of_mem hp
  obtain ⟨d, hd⟩ := exists_lookup_reverse hmem
  exact ⟨d, decl_eq_ok.mpr hd⟩

theorem exists_of_field_ok {fm : FieldMeta} (hfm : m.field n name = .ok fm) :
    ∃ p ∈ ps, p.name = n ∧ ∃ f ∈ p.fields, f.name = name ∧ Describes fm f := by
  have hmem := mem_of_lookup_reverse (field_eq_ok.mp hfm)
  obtain ⟨p, hp, f, hf, hmeta⟩ := (mem_fields_of_derive_ok h).mp hmem
  obtain ⟨hkey, hdescribes⟩ := describes_of_fieldMeta_ok hmeta
  cases hkey
  exact ⟨p, hp, rfl, f, hf, rfl, hdescribes⟩

/-- Every field has metadata: what was computed for it stands in the table. -/
theorem exists_field_of_mem (hp : p ∈ ps) (hf : f ∈ p.fields) :
    ∃ fm, m.field p.name f.name = .ok fm := by
  obtain ⟨parts, hparts, _⟩ := bind_eq_ok.mp h
  obtain ⟨part, _, hfields⟩ := forall₂_exists_right (mapM_eq_ok.mp hparts) hp
  obtain ⟨entry, _, hmeta⟩ := forall₂_exists_right (mapM_eq_ok.mp hfields) hf
  have hmem := (mem_fields_of_derive_ok h).mpr ⟨p, hp, f, hf, hmeta⟩
  obtain ⟨hkey, _⟩ := describes_of_fieldMeta_ok hmeta
  obtain ⟨key, fm⟩ := entry
  obtain rfl : key = (p.name, f.name) := hkey
  obtain ⟨found, hfound⟩ := exists_lookup_reverse hmem
  exact ⟨found, field_eq_ok.mpr hfound⟩

theorem exists_annotations_of_mem (hp : p ∈ ps) : ∃ as, m.annotations p.name = .ok as := by
  obtain ⟨d, hd⟩ := exists_decl_of_mem h hp
  exact ⟨_, bind_eq_ok.mpr ⟨d, hd, rfl⟩⟩

theorem exists_fieldAnnotations_of_mem (hp : p ∈ ps) (hf : f ∈ p.fields) :
    ∃ as, m.fieldAnnotations p.name f.name = .ok as := by
  obtain ⟨fm, hfm⟩ := exists_field_of_mem h hp hf
  exact ⟨_, bind_eq_ok.mpr ⟨fm, hfm, rfl⟩⟩

/-- A projection can be augmented if the table knows its name and its fields,
whatever annotations it has. -/
theorem exists_augment {known : Projection} (hknown : known ∈ ps) (hname : p.name = known.name)
    (hfields : ∀ c ∈ p.fields, ∃ c' ∈ known.fields, c'.name = c.name) :
    ∃ q, m.augment p = .ok q := by
  obtain ⟨as, has⟩ := exists_annotations_of_mem h hknown
  have haugment : ∀ c ∈ p.fields, ∃ c' : ConcreteField, (do
      let derived ← m.fieldAnnotations p.name c.name
      return overlaid c derived) = (.ok c' : Outcome _) := by
    intro c hc
    obtain ⟨c', hc', hname'⟩ := hfields c hc
    obtain ⟨derived, hderived⟩ := exists_fieldAnnotations_of_mem h hknown hc'
    rw [hname', ← hname] at hderived
    exact ⟨_, bind_eq_ok.mpr ⟨derived, hderived, rfl⟩⟩
  obtain ⟨fields, haugmented⟩ := exists_mapM_ok haugment
  rw [← hname] at has
  exact ⟨_, bind_eq_ok.mpr ⟨as, has, bind_eq_ok.mpr ⟨fields, haugmented, rfl⟩⟩⟩

theorem exists_augment_of_mem (hp : p ∈ ps) : ∃ q, m.augment p = .ok q :=
  exists_augment h hp rfl fun c hc => ⟨c, hc, rfl⟩

end Derived

end Metadata

namespace Graph

variable {g : Graph} {p : Projection}

/-! ## Modules of a graph -/

theorem derive_of_build_ok {settings : Settings} {store : Store}
    (h : build settings store = .ok g) :
    derive g.resolver g.all (some g.tracker) = .ok g.metadata := by
  obtain ⟨_, _, h⟩ := bind_eq_ok.mp h
  obtain ⟨decls, _, h⟩ := bind_eq_ok.mp h
  obtain ⟨instances, _, h⟩ := bind_eq_ok.mp h
  obtain ⟨metadata, hmetadata, rfl⟩ := bind_pure_eq_ok.mp h
  exact hmetadata

theorem isSome_module?_of_mem_allDecls {s : Store} {d : ScopedDecl} (hd : d ∈ s.allDecls) :
    (s.module? d.moduleName).isSome := by
  obtain ⟨m, hm, hd⟩ := List.mem_flatMap.mp hd
  obtain ⟨entry, _, rfl⟩ := List.mem_map.mp hd
  rw [Store.module?, List.find?_isSome]
  exact ⟨m, hm, by simp⟩

/-- An instance is that of a declaration in the store. -/
theorem Built.exists_resolve_of_instance (h : g.Built) (hp : p ∈ g.instances) :
    ∃ n d, g.store.resolve n = .ok d ∧ p.name.moduleName = n.moduleName := by
  obtain ⟨hout, all, hcompletes⟩ := completes_of_run consistent_empty h.run
  rw [hout, instanceProjections, Projection.sort, List.mem_mergeSort] at hp
  obtain ⟨i, hi, hproject⟩ := hcompletes.exists_of_mem_projections hp
  obtain ⟨hname, q, hq, _⟩ := exists_of_projectInstance_ok hproject
  obtain ⟨n, args, d, _, _, htype, hd, _⟩ := Resolver.exists_of_projectType_ok hq
  -- What a run creates is filed under the declaration that it applies.
  have hface : i.face ∈ g.tracker.faces := by
    refine (hcompletes.advance.faces_perm consistent_empty).mem_iff.mpr ?_
    exact List.mem_append_right _ (List.mem_map_of_mem hi)
  have hgeneric : i.generic = i.typeExpr.applied :=
    (hcompletes.advance.consistent consistent_empty).generic_eq i.face hface
  refine ⟨n, d, hd, ?_⟩
  rw [hname, Instance.scopedName, hgeneric, htype]
  rfl

theorem Built.isSome_module? (h : g.Built) (hp : p ∈ g.all) :
    (g.store.module? p.name.moduleName).isSome := by
  rcases List.mem_append.mp hp with hp | hp
  · obtain ⟨d, hd, q, hq, rfl⟩ := h.exists_project_of_decl hp
    have hname : q.name = d.name := Resolver.project_name hq
    rw [Projection.marked_name, hname]
    exact isSome_module?_of_mem_allDecls hd
  · obtain ⟨n, d, hd, hmodule⟩ := h.exists_resolve_of_instance hp
    obtain ⟨m, hm, hname, _⟩ := Store.exists_of_resolve_ok hd
    rw [hmodule, ← hname, Store.module?, List.find?_isSome]
    exact ⟨m, hm, by simp⟩

/-- Placing a projection in its module takes no module away. -/
theorem exists_place {modules : List (String × AugmentedModule)}
    (h : (find? p.name.moduleName modules).isSome) :
    ∃ modules', place modules p = .ok modules' ∧
      ∀ name, (find? name modules').isSome = (find? name modules).isSome := by
  obtain ⟨m, hm⟩ := Option.isSome_iff_exists.mp h
  have hplace : place modules p =
      .ok (insert p.name.moduleName (placeIn p m) modules) := by
    rw [place, hm]
  refine ⟨_, hplace, fun name => ?_⟩
  simpa using congrArg Option.isSome (header_of_place_ok hplace name)

/-- A graph is augmented projection by projection; all loaded modules stay. -/
theorem Built.exists_augmented (h : g.Built)
    (hmetadata : derive g.resolver g.all (some g.tracker) = .ok g.metadata) :
    ∃ modules, g.augmented = .ok modules := by
  refine exists_foldlM_ok_of (P := fun modules => ∀ name,
    (find? name modules).isSome = (g.store.module? name).isSome) ?_ ?_
  · intro p hp modules hmodules
    obtain ⟨q, hq⟩ := exists_augment_of_mem hmetadata hp
    have hname := (augments_of_augment_ok hq).name
    have hsome : (find? q.name.moduleName modules).isSome := by
      rw [hmodules, hname]
      exact h.isSome_module? hp
    obtain ⟨modules', hplace, hkept⟩ := exists_place hsome
    refine ⟨modules', bind_eq_ok.mpr ⟨q, hq, hplace⟩, fun name => ?_⟩
    rw [hkept, hmodules]
  · intro name
    rw [find?_loaded, Option.isSome_map]

/-- The metadata of a graph is complete.  Every declaration and instance has its
metadata and annotations and can be augmented, and every field has its metadata
and annotations; no other name has any.  The uses of a declaration are the fields
with a reference to it, in order and as often as they have it, and it counts as
referenced when there are any.  The whole graph can be augmented. -/
theorem metadata_complete {settings : Settings} {store : Store}
    (h : build settings store = .ok g) :
    (∀ p ∈ g.all,
      (∃ d, g.metadata.decl p.name = .ok d) ∧
      (∃ as, g.metadata.annotations p.name = .ok as) ∧
      (∃ q, g.metadata.augment p = .ok q) ∧
      ∀ f ∈ p.fields, (∃ fm, g.metadata.field p.name f.name = .ok fm) ∧
        ∃ as, g.metadata.fieldAnnotations p.name f.name = .ok as) ∧
    (∀ n d, g.metadata.decl n = .ok d →
      (∃ p ∈ g.all, p.name = n) ∧
      (d.referencedBy = g.all.flatMap fun q => q.fields.flatMap fun f =>
        List.replicate (f.references.count n) (q.name.name ++ "::" ++ f.name)) ∧
      (d.referenced = true ↔ d.referencedBy ≠ [])) ∧
    (∀ n name fm, g.metadata.field n name = .ok fm →
      ∃ p ∈ g.all, p.name = n ∧ ∃ f ∈ p.fields, f.name = name ∧ Describes fm f) ∧
    ∃ modules, g.augmented = .ok modules := by
  have hmetadata := derive_of_build_ok h
  obtain ⟨_, _, hbuilt⟩ := built_of_build_ok h
  refine ⟨fun p hp => ⟨?_, ?_, ?_, fun f hf => ⟨?_, ?_⟩⟩, fun n d hd => ?_,
    fun n name fm hfm => ?_, hbuilt.exists_augmented hmetadata⟩
  · exact exists_decl_of_mem hmetadata hp
  · exact exists_annotations_of_mem hmetadata hp
  · exact exists_augment_of_mem hmetadata hp
  · exact exists_field_of_mem hmetadata hp hf
  · exact exists_fieldAnnotations_of_mem hmetadata hp hf
  · obtain ⟨p, hp, rfl, rfl⟩ := exists_of_decl_ok hmetadata hd
    refine ⟨⟨p, hp, rfl⟩, usesOf_eq g.all p.name, ?_⟩
    simp [declMeta]
  · exact exists_of_field_ok hmetadata hfm

/-- The box of things is the one that refers to the thing. -/
theorem metadata_complete_things :
    ∃ g d, build .standard things = .ok g ∧ g.metadata.decl thing.name = .ok d ∧
      d.referencedBy = ["_Box_Thing::ref"] ∧ d.referenced = true ∧
      ∃ modules, g.augmented = .ok modules := by
  have hbuild : build .standard things = .ok _ :=
    build_of_sorted rfl rfl rfl rfl rfl rfl (by decide)
  obtain ⟨hcomplete, huses, _, haugmented⟩ := metadata_complete hbuild
  obtain ⟨d, hd⟩ := (hcomplete _ (.tail _ (.tail _ (.head _)))).1
  obtain ⟨_, hreferencedBy, hreferenced⟩ := huses _ d hd
  have hnames : d.referencedBy = ["_Box_Thing::ref"] := hreferencedBy
  exact ⟨_, d, hbuild, hd, hnames, hreferenced.mpr (hnames ▸ List.cons_ne_nil _ _), haugmented⟩

end Graph

end SchemaCompiler
