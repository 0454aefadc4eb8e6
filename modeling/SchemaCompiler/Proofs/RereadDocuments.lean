import SchemaCompiler.Output.AugmentedDocument
import SchemaCompiler.Proofs.Augmented
import SchemaCompiler.Proofs.StoreNames
import SchemaCompiler.Proofs.SuppliedArguments

/-!
# Reading augmented documents

Augmented modules are fit to be written and read again: their declarations
stand in order, carry names, and hold values that a text can hold.  The
document of such modules is read back as these modules in normal form, unless
one of them is called `decls`: then the document is taken for a single module
and refused.
-/

namespace SchemaCompiler

open List RawValue Json Keyed SchemaModule AugmentedModule Standard Annotations Store

open Json (Reading)
open Json.Reading Outcome
open RawValue (AllSound)

variable {p : Projection} {g : Graph} {as : Annotations} {m : SchemaModule} {d : Declaration}
  {j : Json} {f : Field} {b : Body}

/-! ## Derived values -/

namespace Json

theorem sound_bool (value : Bool) : (bool value).Sound :=
  ⟨.bool value, Nat.zero_le _⟩

theorem sound_text (meaning : String) : (text meaning).Sound :=
  ⟨spelled_text meaning, Nat.zero_le _⟩

theorem sound_texts (meanings : List String) : (arr (meanings.map text)).Sound := by
  have hdepth : depthItems (meanings.map text) = 0 := by
    induction meanings with
    | nil => rfl
    | cons meaning meanings ih => simp [depthItems, ih, text, depth]
  refine ⟨.arr ?_, ?_⟩
  · intro item hitem
    obtain ⟨meaning, _, rfl⟩ := mem_map.mp hitem
    exact spelled_text meaning
  · rw [depth, hdepth]
    decide

end Json

theorem Annotations.sound_put {key : ScopedName} {value : RawValue} (has : AllSound as.rawValues)
    (hvalue : value.Sound) : AllSound (as.put key value).rawValues := by
  rw [allSound_rawValues] at has ⊢
  rw [put]
  split_ifs
  · intro a ha
    obtain ⟨old, hold, rfl⟩ := mem_map.mp ha
    split_ifs
    · exact hvalue
    · exact has old hold
  · intro a ha
    rcases mem_append.mp ha with ha | ha
    · exact has a ha
    · obtain rfl := mem_singleton.mp ha
      exact hvalue

/-- The values that a projection brings along. -/
def Projection.rawValues (p : Projection) : List RawValue :=
  p.fields.flatMap (·.field.rawValues) ++ p.annotations.rawValues

namespace Metadata

variable {m : Metadata} {n : ScopedName}

theorem sound_merge {base derived : Annotations} (hbase : AllSound base.rawValues)
    (hderived : AllSound derived.rawValues) : AllSound (merge base derived).rawValues := by
  rw [allSound_rawValues] at hderived
  induction derived generalizing base with
  | nil => exact hbase
  | cons a rest ih =>
    obtain ⟨ha, hrest⟩ := forall_mem_cons.mp hderived
    exact ih (sound_put hbase ha) hrest

theorem sound_of_annotations_ok (h : m.annotations n = .ok as) : AllSound as.rawValues := by
  obtain ⟨d, _, rfl⟩ := bind_pure_eq_ok.mp h
  have hinstances : (Json.arr (d.instances.map fun i => .text i.name)).Sound := by
    have htexts := Json.sound_texts (d.instances.map (·.name))
    rwa [map_map] at htexts
  rw [allSound_rawValues]
  by_cases hempty : d.instances.isEmpty = true
  · simp [hempty, RawValue.Sound, RawValue.Holds, Json.sound_bool]
  · simp [hempty, RawValue.Sound, RawValue.Holds, Json.sound_bool, hinstances]

theorem sound_of_fieldAnnotations_ok {name : String} (h : m.fieldAnnotations n name = .ok as) :
    AllSound as.rawValues := by
  obtain ⟨f, _, rfl⟩ := bind_pure_eq_ok.mp h
  rw [allSound_rawValues]
  simp [RawValue.Sound, RawValue.Holds, Json.sound_bool, Json.sound_text]

/-- Derived annotations leave a projection with values that can be written. -/
theorem sound_of_augment_ok {q : Projection} (hp : AllSound p.rawValues) (h : m.augment p = .ok q) :
    AllSound q.rawValues := by
  obtain ⟨hfields, hannotations⟩ := allSound_append.mp hp
  rw [allSound_flatMap] at hfields
  obtain ⟨derived, fields, hderived, haugmented, rfl⟩ := augment_eq_ok.mp h
  refine allSound_append.mpr ⟨?_, sound_merge hannotations (sound_of_annotations_ok hderived)⟩
  refine allSound_flatMap.mpr fun c' hc' => ?_
  obtain ⟨c, hc, added, hadded, rfl⟩ := forall₂_exists_left haugmented hc'
  obtain ⟨hdefault, hown⟩ := allSound_append.mp (hfields c hc)
  exact allSound_append.mpr ⟨hdefault, sound_merge hown (sound_of_fieldAnnotations_ok hadded)⟩

end Metadata

/-! ## Values of projections -/

theorem Body.sound_of_mem_fields (hb : AllSound b.rawValues) (hf : f ∈ b.fields) :
    AllSound f.rawValues := by
  cases b with
  | struct params fields | union params fields => exact allSound_flatMap.mp hb f hf
  | synonym params target | newtype params target default => cases hf

theorem Declaration.allSound_rawValues :
    AllSound d.rawValues ↔ AllSound d.version.toList ∧ AllSound d.body.rawValues ∧
      AllSound d.annotations.rawValues := by
  rw [rawValues, allSound_append, allSound_append]

/-- Projected fields are declared somewhere in the store, and keep their values. -/
theorem Resolver.sound_of_project_ok {r : Resolver}
    (hstore : ∀ e ∈ r.store.allDecls, AllSound e.decl.rawValues) {d : ScopedDecl} {env : Env}
    (hd : d ∈ r.store.allDecls) (h : r.project d env = .ok p) : AllSound p.rawValues := by
  have hannotations := (annotations_of_project_ok h).1
  refine allSound_append.mpr ⟨allSound_flatMap.mpr fun c hc => ?_, ?_⟩
  · have hentered : ∀ d env e env', d ∈ r.store.allDecls → r.Enters d env e env' →
        e ∈ r.store.allDecls := by
      rintro _ _ e _ _ ⟨_, _, n, _, _, he, _⟩
      exact mem_allDecls_of_resolve_ok he
    obtain ⟨e, _, f, t, he, hf, _, _, hfield⟩ :=
      declared_of_mem_project (P := fun d _ => d ∈ r.store.allDecls) hentered hd h hc
    have hsound : AllSound f.rawValues :=
      Body.sound_of_mem_fields (Declaration.allSound_rawValues.mp (hstore e he)).2.1 hf
    rw [(exists_of_concreteField_ok hfield).1]
    exact hsound
  · rw [hannotations]
    exact (Declaration.allSound_rawValues.mp (hstore d hd)).2.2

namespace Graph

theorem Built.sound_of_mem_all (h : g.Built)
    (hstore : ∀ d ∈ g.store.allDecls, AllSound d.decl.rawValues) {p : Projection} (hp : p ∈ g.all) :
    AllSound p.rawValues := by
  rcases mem_append.mp hp with hp | hp
  · obtain ⟨d, hd, q, hq, rfl⟩ := h.exists_project_of_decl hp
    have hsound := Resolver.sound_of_project_ok hstore hd hq
    exact hsound
  · obtain ⟨i, hi⟩ := h.exists_projectInstance hp
    obtain ⟨q, hq, rfl⟩ := bind_pure_eq_ok.mp hi
    obtain ⟨n, args, d, env, o, _, hd, _, ho, rfl⟩ := Resolver.exists_of_projectType_ok hq
    have hsound :=
      Resolver.sound_of_project_ok hstore (mem_allDecls_of_resolve_ok hd) ho
    exact hsound

/-! ## Placed declarations -/

variable {p : Projection}

theorem sound_instanceDecl (hp : AllSound p.rawValues) :
    AllSound (instanceDecl p).rawValues := by
  obtain ⟨hfields, hannotations⟩ := allSound_append.mp hp
  have hbody : AllSound ((p.fields.map (·.field)).flatMap Field.rawValues) := by
    rwa [flatMap_map]
  refine Declaration.allSound_rawValues.mpr ⟨allSound_nil, ?_, hannotations⟩
  rw [instanceDecl]
  split_ifs
  · exact hbody
  · exact hbody

theorem sound_annotated? (hp : AllSound p.rawValues) (hf : AllSound f.rawValues) :
    AllSound (annotated? p f).rawValues := by
  rw [annotated?]
  split
  · rename_i projected hprojected
    have hmem : projected ∈ p.fields := mem_of_find?_eq_some hprojected
    have hsound := allSound_flatMap.mp (allSound_append.mp hp).1 projected hmem
    exact allSound_append.mpr ⟨(allSound_append.mp hf).1, (allSound_append.mp hsound).2⟩
  · exact hf

theorem sound_annotateBody (hp : AllSound p.rawValues) (hb : AllSound b.rawValues) :
    AllSound (annotateBody p b).rawValues := by
  have hfields : ∀ fields : List Field, AllSound (fields.flatMap Field.rawValues) →
      AllSound ((annotateFields p fields).flatMap Field.rawValues) := by
    intro fields hsound
    rw [annotateFields_eq_map, flatMap_map, allSound_flatMap]
    exact fun f hf => sound_annotated? hp (allSound_flatMap.mp hsound f hf)
  cases b with
  | struct params fields | union params fields => exact hfields fields hb
  | synonym params target | newtype params target default => exact hb

theorem sound_annotateDecl (hp : AllSound p.rawValues) (hd : AllSound d.rawValues) :
    AllSound (annotateDecl p d).rawValues := by
  obtain ⟨hversion, hbody, _⟩ := Declaration.allSound_rawValues.mp hd
  refine Declaration.allSound_rawValues.mpr ⟨hversion, ?_, (allSound_append.mp hp).2⟩
  rw [annotateDecl]
  split_ifs
  · exact sound_annotateBody hp hbody
  · exact hbody

end Graph

namespace SchemaModule

/-- A declaration can be written under its key: it is not without a name, and
its values are fit for a text. -/
structure Fits (key : String) (d : Declaration) : Prop where
  named : nameByKey (key, d) = (key, d)
  sound : AllSound d.rawValues

theorem Fits.instanceDecl (hp : AllSound p.rawValues) :
    Fits p.name.name (Graph.instanceDecl p) := by
  refine ⟨?_, Graph.sound_instanceDecl hp⟩
  rw [nameByKey]
  split_ifs <;> rfl

theorem Fits.annotateDecl (hp : AllSound p.rawValues) {key : String} (hd : Fits key d) :
    Fits key (Graph.annotateDecl p d) := by
  refine ⟨?_, Graph.sound_annotateDecl hp hd.sound⟩
  have hname : (Graph.annotateDecl p d).name = d.name := rfl
  have hnamed := hd.named
  by_cases hempty : d.name = ""
  · have hkey : key = d.name := by simpa [nameByKey, hempty] using congrArg (·.2.name) hnamed
    rw [nameByKey, hkey, hname]
    split_ifs
    rfl
  · rw [nameByKey, hname, if_neg hempty]

end SchemaModule

/-! ## Modules that can be written -/

namespace AugmentedModule

variable {m : AugmentedModule}

/-- What there is of the module can be written and read again. -/
structure WellFormed (m : AugmentedModule) : Prop where
  ordered : Keyed.Ordered m.decls
  decls : ∀ key d, (key, some d) ∈ m.decls → Fits key d
  annotations : AllSound m.annotations.rawValues

theorem wellFormed_ofModule {m : SchemaModule} :
    (ofModule m).WellFormed ↔ m.WellFormed := by
  constructor
  · intro h
    have hfits : ∀ entry ∈ m.decls, Fits entry.1 entry.2 := fun entry hentry =>
      h.decls entry.1 entry.2 (mem_map.mpr ⟨entry, hentry, rfl⟩)
    have hkeys : (m.decls.map fun entry => (entry.1, some entry.2)).Pairwise
        fun a b => a.1 < b.1 := h.ordered
    have hordered := pairwise_map.mp hkeys
    refine ⟨allSound_append.mpr ⟨?_, h.annotations⟩, hordered,
      fun entry hentry => (hfits entry hentry).named⟩
    exact allSound_flatMap.mpr fun entry hentry => (hfits entry hentry).sound
  · intro h
    obtain ⟨hdecls, hannotations⟩ := allSound_append.mp h.sound
    refine ⟨pairwise_map.mpr h.ordered, fun key d hd => ?_, hannotations⟩
    obtain ⟨entry, hentry, heq⟩ := mem_map.mp hd
    cases heq
    exact ⟨h.named entry hentry, allSound_flatMap.mp hdecls entry hentry⟩

theorem WellFormed.placeIn (hm : m.WellFormed) (hp : AllSound p.rawValues) :
    (Graph.placeIn p m).WellFormed := by
  refine ⟨hm.ordered.insert, fun key d hd => ?_, hm.annotations⟩
  rcases mem_insert hd with heq | hd
  · obtain ⟨rfl, hplaced⟩ := Prod.mk.inj heq
    split_ifs at hplaced
    · cases hplaced
      exact .instanceDecl hp
    · obtain ⟨old, hold, rfl⟩ := Option.map_eq_some_iff.mp hplaced.symm
      have hfound : find? p.name.name m.decls = some (some old) :=
        Option.join_eq_some_iff.mp hold
      exact (hm.decls _ old (mem_of_find?_eq_some hfound)).annotateDecl hp
  · exact hm.decls key d hd

/-- A module that lacks nothing is a module as it is loaded. -/
theorem eq_ofModule_of_toModule? {whole : SchemaModule} (h : m.toModule? = some whole) :
    m = ofModule whole := by
  obtain ⟨decls, hdecls, h⟩ := Option.bind_eq_some_iff.mp h
  cases h
  have hsame : m.decls = mapValues some decls := by
    refine forall₂_eq_eq_eq ▸ forall₂_map_right_iff.mpr ?_
    refine (mapM_eq_some.mp hdecls).imp ?_
    rintro ⟨key, found⟩ entry hentry
    obtain ⟨d, rfl, rfl⟩ := Option.map_eq_some_iff.mp hentry
    rfl
  rw [ofModule, ← hsame]

theorem exists_of_toJson_ok (h : m.toJson = .ok j) :
    ∃ whole, m = ofModule whole ∧ whole.toJson = .ok j := by
  rw [toJson] at h
  split at h
  · rename_i whole hwhole
    exact ⟨whole, eq_ofModule_of_toModule? hwhole, h⟩
  · cases h

end AugmentedModule

namespace Graph

/-- Modules under their names, as they are fit to be written. -/
structure Laid (names : List String) (modules : List (String × AugmentedModule)) : Prop where
  keys : Keyed.keys modules = names
  named : ∀ entry ∈ modules, entry.2.name = entry.1
  wellFormed : ∀ entry ∈ modules, entry.2.WellFormed

variable {names : List String} {modules modules' : List (String × AugmentedModule)}
  {p : Projection}

theorem Laid.ordered (h : Laid names modules) (hnames : names.Pairwise (· < ·)) :
    Keyed.Ordered modules := by
  rw [← h.keys, Keyed.keys, pairwise_map] at hnames
  exact hnames

theorem Laid.filter (h : Laid names modules) (keep : String → Bool) :
    Laid (names.filter keep) (modules.filter fun entry => keep entry.1) where
  keys := by
    rw [← h.keys, Keyed.keys, Keyed.keys, filter_map]
    rfl
  named := fun entry hentry => h.named entry (mem_of_mem_filter hentry)
  wellFormed := fun entry hentry => h.wellFormed entry (mem_of_mem_filter hentry)

theorem Laid.place (h : Laid names modules) (hnames : names.Pairwise (· < ·))
    (hp : AllSound p.rawValues) (hplace : place modules p = .ok modules') :
    Laid names modules' := by
  rw [Graph.place] at hplace
  split at hplace
  · cases hplace
  · rename_i m hfound
    obtain rfl := Except.ok.inj hplace
    have hm := mem_of_find?_eq_some hfound
    have hkey : p.name.moduleName ∈ Keyed.keys modules := mem_map.mpr ⟨_, hm, rfl⟩
    refine ⟨((h.ordered hnames).keys_insert hkey).trans h.keys, ?_, ?_⟩
    · intro entry hentry
      rcases mem_insert hentry with rfl | hentry
      · exact h.named (p.name.moduleName, m) hm
      · exact h.named entry hentry
    · intro entry hentry
      rcases mem_insert hentry with rfl | hentry
      · exact (h.wellFormed (p.name.moduleName, m) hm).placeIn hp
      · exact h.wellFormed entry hentry

theorem laid_loaded {s : Store} (hs : ∀ m ∈ s.modules, m.WellFormed) :
    Laid s.moduleNames (s.modules.map fun m => (m.name, .ofModule m)) := by
  refine ⟨by rw [Keyed.keys, map_map]; rfl, fun entry hentry => ?_, fun entry hentry => ?_⟩
  · obtain ⟨m, _, rfl⟩ := mem_map.mp hentry
    rfl
  · obtain ⟨m, hm, rfl⟩ := mem_map.mp hentry
    exact wellFormed_ofModule.mpr (hs m hm)

/-- The augmented modules have the names of the loaded ones and are fit to be written. -/
theorem Built.laid_of_augmented_ok (h : g.Built) (hstore : g.store.Ordered)
    (hmodules : ∀ m ∈ g.store.modules, m.WellFormed) (haugmented : g.augmented = .ok modules) :
    Laid g.store.moduleNames modules := by
  have hnames : g.store.moduleNames.Pairwise (· < ·) := pairwise_map.mpr hstore.modules
  have hdecls : ∀ d ∈ g.store.allDecls, AllSound d.decl.rawValues := by
    intro d hd
    obtain ⟨m, hm, hdecl⟩ := mem_flatMap.mp hd
    obtain ⟨entry, hentry, rfl⟩ := mem_map.mp hdecl
    have hsound := (allSound_append.mp (hmodules m hm).sound).1
    exact allSound_flatMap.mp hsound entry hentry
  obtain ⟨qs, hqs, hplaced⟩ := exists_augments_of_augmented_ok haugmented
  refine of_foldlM_ok ?_ (laid_loaded hmodules) hplaced
  intro placed q next hq hlaid hplace
  obtain ⟨p, hp, haugment⟩ := forall₂_exists_left hqs hq
  exact hlaid.place hnames
    (Metadata.sound_of_augment_ok (h.sound_of_mem_all hdecls hp) haugment) hplace

end Graph

/-! ## Documents of several modules -/

namespace SchemaModule

/-- The members of a document: modules under their names. -/
def Written (modules : List SchemaModule) (members : List (String × Json)) : Prop :=
  Forall₂ (fun m member => member.1 = m.name ∧ m.toJson = .ok member.2) modules members

variable {modules : List SchemaModule} {members : List (String × Json)}

theorem Written.keys (h : Written modules members) :
    Keyed.keys members = modules.map (·.name) := by
  refine forall₂_eq_eq_eq ▸ ?_
  refine forall₂_map_left_iff.mpr (forall₂_map_right_iff.mpr (h.flip.imp ?_))
  exact fun member m hmember => hmember.1

theorem Written.spelled (h : Written modules members)
    (hmodules : ∀ m ∈ modules, m.WellFormed) : (object members).Spelled := by
  refine .obj ?_ ?_
  · intro member hmember
    obtain ⟨unescaped, _, rfl⟩ := mem_map.mp hmember
    exact spelling_escape unescaped.1
  · intro member hmember
    obtain ⟨unescaped, hunescaped, rfl⟩ := mem_map.mp hmember
    obtain ⟨m, hm, _, hwritten⟩ := forall₂_exists_left h hunescaped
    exact ((hmodules m hm).ofJson_of_toJson_ok hwritten).2

/-- The keys of a document are read as they are meant, in their order. -/
theorem Written.ofList_members (h : Written modules members)
    (hnames : (modules.map (·.name)).Pairwise (· < ·)) :
    ofList ((members.map fun (key, value) => (escape key, value)).map
      fun (key, value) => (unescape key, value)) = members := by
  have hsame : ((members.map fun (key, value) => (escape key, value)).map
      fun (key, value) => (unescape key, value)) = members := by
    simp [map_map, Function.comp_def, unescape_escape]
  have hordered : Keyed.Ordered ([] ++ members) := by
    rw [← h.keys, Keyed.keys, pairwise_map] at hnames
    exact hnames
  rw [hsame]
  exact insertAll_eq_append hordered

theorem ofEntry_of_toJson_ok (hm : m.WellFormed) (hname : m.name ≠ "") (hj : m.toJson = .ok j) :
    ofEntry m.name j = .ok m.normal := by
  have hnormal : m.normal.name ≠ "" := hname
  rw [ofEntry, (hm.ofJson_of_toJson_ok hj).1]
  simp only [if_neg hnormal]

/-- A document of modules is read back as their normal forms. -/
theorem Written.ofDocument_object (h : Written modules members)
    (hmodules : ∀ m ∈ modules, m.WellFormed) (hnamed : ∀ m ∈ modules, m.name ≠ "")
    (hnames : (modules.map (·.name)).Pairwise (· < ·)) (hdecls : "decls" ∉ modules.map (·.name)) :
    ofDocument (.object members) = .ok (modules.map normal) := by
  have hcontains : ¬contains "decls" members = true := by
    rwa [contains_iff, h.keys]
  rw [object, ofDocument, h.ofList_members hnames, if_neg hcontains]
  refine mapM_eq_ok.mpr (forall₂_map_right_iff.mpr ?_)
  refine forall₂_imp_of_mem h.flip fun member hmember m hm hwritten => ?_
  have hentry := ofEntry_of_toJson_ok (hmodules m hm) (hnamed m hm) hwritten.2
  rw [← hwritten.1] at hentry
  exact hentry

/-- What is written of a module is no object of declarations: its name is not one. -/
theorem refuses_readPart_of_toJson_ok (hj : m.toJson = .ok j) (old : SchemaModule) :
    (old.readPart "decls" j).Refuses := by
  obtain ⟨decls, _, h⟩ := bind_eq_ok.mp (encoding_eq_ok.mp hj)
  obtain ⟨annotations, _, rfl⟩ := bind_pure_eq_ok.mp h
  have hname : (ofOutcome (Declaration.ofJson (.text m.name))).Refuses := ⟨_, rfl⟩
  exact (hname.bind _).bind _

/-- A document with a module `decls` is taken for one module, which it is not. -/
theorem Written.ofDocument_refuses (h : Written modules members)
    (hnames : (modules.map (·.name)).Pairwise (· < ·)) (hdecls : "decls" ∈ modules.map (·.name)) :
    ∃ failure, ofDocument (.object members) = .error failure := by
  have hcontains : contains "decls" members = true := by
    rwa [contains_iff, h.keys]
  obtain ⟨m, hm, hname⟩ := mem_map.mp hdecls
  obtain ⟨member, hmember, hkey, hwritten⟩ := forall₂_exists_right h hm
  have hread : nameOf? ["name", "imports", "decls", "annotations"]
      (unescape (escape member.1)) = some "decls" := by
    rw [unescape_escape, hkey, hname]
    decide
  have hescaped : (escape member.1, member.2) ∈
      members.map fun (key, value) => (escape key, value) :=
    mem_map.mpr ⟨member, hmember, rfl⟩
  obtain ⟨failure, hfailure⟩ := (refuses_readMembers hescaped hread
    (refuses_readPart_of_toJson_ok hwritten) .empty).finish
  refine ⟨failure, ?_⟩
  rw [object, ofDocument, h.ofList_members hnames, if_pos hcontains]
  have hmodule : ofJson (.obj (members.map fun (key, value) =>
      (escape key, value))) = .error failure :=
    bind_eq_error.mpr (.inl hfailure)
  exact bind_eq_error.mpr (.inl hmodule)

end SchemaModule

namespace Graph

variable {modules : List (String × AugmentedModule)}

theorem exists_written_of_forall₂ {members : List (String × Json)}
    (h : Forall₂ (fun entry member => member.1 = entry.1 ∧ entry.2.toJson = .ok member.2)
      modules members)
    (hnamed : ∀ entry ∈ modules, entry.2.name = entry.1) :
    ∃ picked, modules = picked.map (fun m => (m.name, .ofModule m)) ∧
      Written picked members := by
  induction h with
  | nil => exact ⟨[], rfl, .nil⟩
  | @cons entry member entries members hentry _ ih =>
    obtain ⟨hname, hnamed⟩ := forall_mem_cons.mp hnamed
    obtain ⟨picked, rfl, hpicked⟩ := ih hnamed
    obtain ⟨whole, hwhole, hj⟩ := exists_of_toJson_ok hentry.2
    have hkey : entry.1 = whole.name := by
      rw [← hname, hwhole]
      rfl
    refine ⟨whole :: picked, ?_, .cons ⟨hentry.1.trans hkey, hj⟩ hpicked⟩
    rw [map_cons, ← hwhole, ← hkey]

/-- A document is written only of modules that lack nothing. -/
theorem exists_written_of_documentJson_ok {document : Json}
    (hnamed : ∀ entry ∈ modules, entry.2.name = entry.1)
    (h : documentJson modules = .ok document) :
    ∃ picked members, modules = picked.map (fun m => (m.name, .ofModule m)) ∧
      Written picked members ∧ document = .object members := by
  obtain ⟨members, hmembers, rfl⟩ := bind_pure_eq_ok.mp h
  have hentries : Forall₂ (fun entry member => member.1 = entry.1 ∧
      entry.2.toJson = .ok member.2) modules members := by
    refine (mapM_eq_ok.mp hmembers).imp fun entry member hentry => ?_
    obtain ⟨j, hj, rfl⟩ := bind_pure_eq_ok.mp hentry
    exact ⟨rfl, hj⟩
  obtain ⟨picked, hpicked, hwritten⟩ := exists_written_of_forall₂ hentries hnamed
  exact ⟨picked, members, hpicked, hwritten, rfl⟩

end Graph

/-! ## Reading back -/

namespace AugmentedDocument

variable {o : Options}

theorem selected_eq_filter (o : Options) (modules : List (String × AugmentedModule)) :
    selected o modules =
      modules.filter fun entry => o.modules.isEmpty || o.modules.contains entry.1 := by
  rw [selected]
  split_ifs with hall
  · simp [hall]
  · simp [hall]

theorem text_eq_ok {content : String} :
    text o g = .ok content ↔ ∃ augmented document, g.augmented = .ok augmented ∧
      Graph.documentJson (selected o augmented) = .ok document ∧
      document.depth ≤ maxDepth ∧ document.indent ++ "\n" = content := by
  constructor
  · intro h
    obtain ⟨augmented, haugmented, h⟩ := bind_eq_ok.mp h
    obtain ⟨document, hdocument, h⟩ := bind_eq_ok.mp h
    obtain ⟨written, hwritten, h⟩ := bind_eq_ok.mp h
    rw [writable] at hwritten
    split_ifs at hwritten with hdepth
    cases hwritten
    exact ⟨augmented, document, haugmented, hdocument, hdepth, pure_eq_ok.mp h⟩
  · rintro ⟨augmented, document, haugmented, hdocument, hdepth, rfl⟩
    have hwritten : document.writable = .ok document := by rw [writable, if_pos hdepth]
    exact bind_eq_ok.mpr ⟨augmented, haugmented, bind_eq_ok.mpr
      ⟨document, hdocument, bind_eq_ok.mpr ⟨document, hwritten, rfl⟩⟩⟩

theorem files_render_eq_ok {files : FileTree} {shapes : Shapes} {out : List OutputFile} :
    ((target o).render g files shapes).files = .ok out ↔
      ∃ content, text o g = .ok content ∧ out = [⟨o.file, .text content⟩] := by
  simp only [target, Target.plain]
  cases htext : text o g with
  | error failure => simp
  | ok content => simp [eq_comm]

/-- Over modules as they are read, the file holds the selected modules of the
graph under their names and in order, and they lack nothing.  It is read back
as their normal forms, unless a module is called `decls`: then it cannot be
read. -/
theorem reread_augmented {modules : List SchemaModule} {settings : Settings} {store : Store}
    {g : Graph} {o : Options} {files : FileTree} {shapes : Shapes} {out : List OutputFile}
    (hmodules : ∀ m ∈ modules, m.WellFormed) (hstore : ofModules modules = .ok store)
    (hbuild : Graph.build settings store = .ok g)
    (hout : ((target o).render g files shapes).files = .ok out) :
    ∃ (augmented : List (String × AugmentedModule)) (picked : List SchemaModule)
        (content : String), g.augmented = .ok augmented ∧
      selected o augmented = picked.map (fun m => (m.name, .ofModule m)) ∧
      picked.map (·.name) = store.moduleNames.filter
        (fun name => o.modules.isEmpty || o.modules.contains name) ∧
      (picked.map (·.name)).Pairwise (· < ·) ∧
      out = [⟨o.file, .text content⟩] ∧
      ("decls" ∉ picked.map (·.name) → ∀ source,
        decode source content = .ok (picked.map normal)) ∧
      ("decls" ∈ picked.map (·.name) → ∀ source, ∃ cause,
        decode source content = .error (.decode source (some cause))) := by
  obtain ⟨_, rfl, hbuilt⟩ := Graph.built_of_build_ok hbuild
  have hordered := ordered_of_ofModules_ok hmodules hstore
  obtain ⟨_, htext, rfl⟩ := files_render_eq_ok.mp hout
  obtain ⟨augmented, document, haugmented, hdocument, hdepth, rfl⟩ := text_eq_ok.mp htext
  have hlaid := (hbuilt.laid_of_augmented_ok hordered
    (fun m hm => hmodules m (mem_of_ofModules_ok hstore hm)) haugmented).filter
    fun name => o.modules.isEmpty || o.modules.contains name
  rw [← selected_eq_filter] at hlaid
  obtain ⟨picked, members, hpicked, hwritten, rfl⟩ :=
    Graph.exists_written_of_documentJson_ok hlaid.named hdocument
  have hnames : picked.map (·.name) = g.store.moduleNames.filter
      (fun name => o.modules.isEmpty || o.modules.contains name) := by
    rw [← hlaid.keys, hpicked, Keyed.keys, map_map]
    rfl
  have hascending : (picked.map (·.name)).Pairwise (· < ·) := by
    rw [hnames]
    exact (pairwise_map.mpr hordered.modules).filter _
  have hwell : ∀ m ∈ picked, m.WellFormed := by
    intro m hm
    have hmem : (m.name, ofModule m) ∈ selected o augmented := by
      rw [hpicked]
      exact mem_map.mpr ⟨m, hm, rfl⟩
    exact wellFormed_ofModule.mp (hlaid.wellFormed _ hmem)
  have hnamed : ∀ m ∈ picked, m.name ≠ "" := by
    intro m hm
    have hname : m.name ∈ g.store.moduleNames :=
      mem_of_mem_filter (hnames ▸ mem_map.mpr ⟨m, hm, rfl⟩)
    obtain ⟨loaded, hloaded, hsame⟩ := mem_map.mp hname
    exact hsame ▸ hordered.named loaded hloaded
  have hsound : (Json.object members).Sound := ⟨hwritten.spelled hwell, hdepth⟩
  refine ⟨augmented, picked, _, haugmented, hpicked, hnames, hascending, rfl, ?_, ?_⟩
  · intro hdecls source
    exact (decode_eq_ok_iff hsound.parse_indent).mpr
      (hwritten.ofDocument_object hwell hnamed hascending hdecls)
  · intro hdecls source
    obtain ⟨cause, hcause⟩ := hwritten.ofDocument_refuses hascending hdecls
    exact ⟨cause, decode_of_ofDocument_error hsound.parse_indent hcause⟩

/-- A sale has a box of things; the things stand in a module `decls`. -/
def boxedModules : List SchemaModule :=
  [⟨"app", [], [structDecl "Box" ["T"] [field "content" (.param "T")],
      structDecl "Sale" []
        [field "box" (.ref ⟨"app", "Box"⟩ [.ref ⟨"decls", "Thing"⟩])]], []⟩,
    ⟨"decls", [], [structDecl "Thing" [] []], []⟩]

def only (moduleName : String) : Options := { standard with modules := [moduleName] }

theorem wellFormed_boxedModules : ∀ m ∈ boxedModules, m.WellFormed := by
  have hsound : ∀ m ∈ boxedModules, m.rawValues = [] := by
    rw [boxedModules]
    simp only [forall_mem_cons]
    exact ⟨rfl, rfl, forall_mem_nil _⟩
  have hordered : ∀ m ∈ boxedModules, (m.decls.map (·.1)).Pairwise (· < ·) := by decide
  have hnamed : ∀ m ∈ boxedModules, ∀ entry ∈ m.decls, entry.2.name ≠ "" := by decide
  intro m hm
  refine ⟨by simp [hsound m hm], pairwise_map.mp (hordered m hm), fun entry hentry => ?_⟩
  rw [nameByKey, if_neg (hnamed m hm entry hentry)]

theorem exists_rendered_boxed :
    ∃ g augmented, Graph.build .standard ⟨boxedModules⟩ = .ok g ∧ g.augmented = .ok augmented ∧
      (selected (only "app") augmented).map (fun entry => Keyed.keys entry.2.decls) =
        [["Box", "Sale", "_Box_Thing"]] ∧
      (text (only "app") g).isOk = true ∧ (text (only "decls") g).isOk = true :=
  ⟨_, _, Graph.build_of_sorted rfl rfl rfl rfl rfl rfl (by decide), rfl, rfl,
    by decide +kernel, by decide +kernel⟩

theorem exists_files_of_isOk (h : (text o g).isOk = true) :
    ∃ out, ((target o).render g .empty []).files = .ok out := by
  cases htext : text o g with
  | error failure =>
    rw [htext] at h
    cases h
  | ok content => exact ⟨_, files_render_eq_ok.mpr ⟨content, htext, rfl⟩⟩

/-- The module with the instance is read back; the module `decls` is not. -/
theorem reread_augmented_boxed :
    ∃ g, Graph.build .standard ⟨boxedModules⟩ = .ok g ∧
      (∃ content m, ((target (only "app")).render g .empty []).files =
          .ok [⟨"ast.json", .text content⟩] ∧
        Keyed.keys m.decls = ["Box", "Sale", "_Box_Thing"] ∧
        decode "ast.json" content = .ok [normal m]) ∧
      ∃ content cause, ((target (only "decls")).render g .empty []).files =
          .ok [⟨"ast.json", .text content⟩] ∧
        decode "ast.json" content = .error (.decode "ast.json" (some cause)) := by
  obtain ⟨g, augmented, hbuild, haugmented, hkeys, happ, hdecls⟩ := exists_rendered_boxed
  obtain ⟨_, happ⟩ := exists_files_of_isOk happ
  obtain ⟨_, hdecls⟩ := exists_files_of_isOk hdecls
  have hstore : ofModules boxedModules = .ok ⟨boxedModules⟩ := rfl
  refine ⟨g, hbuild, ?_, ?_⟩
  · obtain ⟨found, picked, content, hfound, hpicked, hnames, _, rfl, hread, _⟩ :=
      reread_augmented wellFormed_boxedModules hstore hbuild happ
    obtain rfl := Except.ok.inj (haugmented.symm.trans hfound)
    have hsingle : picked.map (·.name) = ["app"] := hnames
    obtain ⟨m, rfl, hname⟩ : ∃ m : SchemaModule, picked = [m] ∧ m.name = "app" := by
      simpa [map_eq_cons_iff] using hsingle
    refine ⟨content, m, happ, ?_, hread (by simp [hname]) _⟩
    rw [hpicked] at hkeys
    simpa [ofModule, Keyed.keys, Keyed.mapValues, Function.comp_def] using hkeys
  · obtain ⟨_, picked, content, _, _, hnames, _, rfl, _, hrefused⟩ :=
      reread_augmented wellFormed_boxedModules hstore hbuild hdecls
    have hsingle : picked.map (·.name) = ["decls"] := hnames
    obtain ⟨cause, hcause⟩ := hrefused (by simp [hsingle]) "ast.json"
    exact ⟨content, cause, hdecls, hcause⟩

end AugmentedDocument

end SchemaCompiler
