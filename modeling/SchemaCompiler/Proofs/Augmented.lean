import SchemaCompiler.Graph.Augmented
import SchemaCompiler.Proofs.GraphClosure

/-!
# What augmenting keeps

Augmented modules are the loaded modules with derived annotations.  Modules
keep what they are, and declarations keep all but annotations.  Annotations are
copied back from the projection of a declaration, field by field by name, so a
field that is replaced by the fields of its type gets the annotations of one of
these when they share a name.
-/

namespace SchemaCompiler

open Outcome List Declaration Resolver AugmentedModule

variable {d : ScopedDecl} {as : Annotations} {p : Projection} {n : ScopedName}

/-! ## Annotations that are not derived -/

/-- Writing a key keeps what another choice of annotations finds. -/
theorem Annotations.filter_put {key : ScopedName} {value : RawValue} {p : Annotation → Bool}
    (hp : ∀ a, a.key = key → p a = false) : (as.put key value).filter p = as.filter p := by
  rw [put]
  split
  · have hkept : ∀ a ∈ as, (p ∘ fun a => if a.key = key then ⟨key, value⟩ else a) a = p a := by
      intro a _
      by_cases ha : a.key = key
      · simp [ha, hp]
      · simp [ha]
    rw [filter_map, filter_congr hkept]
    refine (map_congr_left fun a ha => if_neg fun hkey => ?_).trans (map_id' _)
    simp [hp a hkey] at ha
  · simp [hp]

/-- The annotations that come from the author. -/
def Annotations.own (as : Annotations) : Annotations :=
  as.filter (·.key.moduleName ≠ Metadata.derivedModule)

namespace Metadata

open Annotations

/-- A choice of annotations without any derived key finds the same after merging. -/
theorem filter_merge {base derived : Annotations} {p : Annotation → Bool}
    (hp : ∀ a ∈ derived, ∀ b, b.key = a.key → p b = false) :
    (merge base derived).filter p = base.filter p := by
  induction derived generalizing base with
  | nil => rfl
  | cons a rest ih =>
    obtain ⟨ha, hrest⟩ := forall_mem_cons.mp hp
    calc
      (merge base (a :: rest)).filter p = (merge (base.put a.key a.value) rest).filter p := rfl
      _ = (base.put a.key a.value).filter p := ih hrest
      _ = base.filter p := filter_put ha

theorem own_merge {base derived : Annotations}
    (hderived : ∀ a ∈ derived, a.key.moduleName = derivedModule) :
    (merge base derived).own = base.own :=
  filter_merge fun a ha b hb => by simp [hb, hderived a ha]

variable {m : Metadata} {n : ScopedName}

theorem derived_of_annotations_ok (h : m.annotations n = .ok as) :
    ∀ a ∈ as, a.key.moduleName = derivedModule := by
  obtain ⟨d, _, rfl⟩ := bind_pure_eq_ok.mp h
  by_cases hinstances : d.instances.isEmpty = true
  · simp [hinstances, concreteKey, referencedKey]
  · simp [hinstances, concreteKey, referencedKey, instancesKey]

theorem derived_of_fieldAnnotations_ok {name : String} (h : m.fieldAnnotations n name = .ok as) :
    ∀ a ∈ as, a.key.moduleName = derivedModule := by
  obtain ⟨f, _, rfl⟩ := bind_pure_eq_ok.mp h
  simp [cardinalityKey, monomorphizedKey, concreteKey]

/-- An augmented projection: the same but for derived annotations. -/
structure Augments (p q : Projection) : Prop where
  name : q.name = p.name
  shape : q.shape = p.shape
  isInstance : q.isInstance = p.isInstance
  own : q.annotations.own = p.annotations.own
  fields : Forall₂ (fun c c' => c'.name = c.name ∧
    c'.field.annotations.own = c.field.annotations.own) p.fields q.fields

def overlaid (c : ConcreteField) (derived : Annotations) : ConcreteField :=
  { c with field := { c.field with annotations := merge c.field.annotations derived } }

/-- Augmenting writes what is derived over the annotations of a projection and
over those of each field. -/
theorem augment_eq_ok {q : Projection} :
    m.augment p = .ok q ↔ ∃ derived fields, m.annotations p.name = .ok derived ∧
      Forall₂ (fun c c' => ∃ added, m.fieldAnnotations p.name c.name = .ok added ∧
        c' = overlaid c added) p.fields fields ∧
      q = { p with annotations := merge p.annotations derived, fields } := by
  constructor
  · intro h
    obtain ⟨derived, hderived, h⟩ := bind_eq_ok.mp h
    obtain ⟨fields, hfields, h⟩ := bind_eq_ok.mp h
    refine ⟨derived, fields, hderived, ?_, (pure_eq_ok.mp h).symm⟩
    refine (mapM_eq_ok.mp hfields).imp fun c c' hc => ?_
    obtain ⟨added, hadded, hc⟩ := bind_eq_ok.mp hc
    exact ⟨added, hadded, (pure_eq_ok.mp hc).symm⟩
  · rintro ⟨derived, fields, hderived, hfields, rfl⟩
    refine bind_eq_ok.mpr ⟨derived, hderived, bind_eq_ok.mpr ⟨fields, ?_, rfl⟩⟩
    refine mapM_eq_ok.mpr (hfields.imp ?_)
    rintro c _ ⟨added, hadded, rfl⟩
    exact bind_eq_ok.mpr ⟨added, hadded, rfl⟩

theorem augments_of_augment_ok {q : Projection} (h : m.augment p = .ok q) : Augments p q := by
  obtain ⟨derived, fields, hderived, hfields, rfl⟩ := augment_eq_ok.mp h
  refine ⟨rfl, rfl, rfl, own_merge (derived_of_annotations_ok hderived), hfields.imp ?_⟩
  rintro c c' ⟨added, hadded, rfl⟩
  exact ⟨rfl, own_merge (derived_of_fieldAnnotations_ok hadded)⟩

end Metadata

/-! ## Declarations without annotations -/

/-- All of a field but its annotations. -/
def Field.bare (f : Field) : Field := { f with annotations := [] }

def Body.bare : Body → Body
  | .struct params fields => .struct params (fields.map Field.bare)
  | .union params fields => .union params (fields.map Field.bare)
  | body => body

/-- All of a declaration but the annotations: name, version, kind, parameters,
definition, and the names, types and defaults of its fields. -/
def Declaration.bare (d : Declaration) : Declaration :=
  { d with body := d.body.bare, annotations := [] }

namespace Graph

variable {ps : List Projection}

/-- A declared field with the annotations of the projected field of its name. -/
def annotated? (p : Projection) (f : Field) : Field :=
  match p.field? f.name with
  | some projected => { f with annotations := projected.field.annotations }
  | none => f

theorem annotateFields_eq_map (p : Projection) (fields : List Field) :
    annotateFields p fields = fields.map (annotated? p) := rfl

theorem bare_annotated? (p : Projection) (f : Field) : (annotated? p f).bare = f.bare := by
  rw [annotated?]
  split <;> rfl

theorem annotated?_annotated? (p : Projection) (f : Field) :
    annotated? p (annotated? p f) = annotated? p f := by
  cases hfound : p.field? f.name with
  | none | some projected => simp [annotated?, hfound]

theorem bare_annotateBody (p : Projection) (b : Body) : (annotateBody p b).bare = b.bare := by
  have hfields : ∀ fields : List Field,
      (annotateFields p fields).map Field.bare = fields.map Field.bare := by
    intro fields
    rw [annotateFields_eq_map, map_map]
    apply map_congr_left
    intro f _
    exact bare_annotated? p f
  cases b with
  | struct params fields | union params fields => rw [annotateBody, Body.bare, Body.bare, hfields]
  | synonym params target | newtype params target default => rfl

theorem annotateBody_annotateBody (p : Projection) (b : Body) :
    annotateBody p (annotateBody p b) = annotateBody p b := by
  have hfields : ∀ fields : List Field,
      annotateFields p (annotateFields p fields) = annotateFields p fields := by
    intro fields
    rw [annotateFields_eq_map, annotateFields_eq_map, map_map]
    apply map_congr_left
    intro f _
    exact annotated?_annotated? p f
  cases b with
  | struct params fields | union params fields => rw [annotateBody, annotateBody, hfields]
  | synonym params target | newtype params target default => rfl

theorem bare_annotateDecl (p : Projection) (d : Declaration) :
    (annotateDecl p d).bare = d.bare := by
  rw [annotateDecl, bare, bare]
  by_cases hshape : p.shape = p.name
  · simp [hshape, bare_annotateBody]
  · simp [hshape]

/-- Annotating once more changes nothing. -/
theorem annotateDecl_annotateDecl (p : Projection) (d : Declaration) :
    annotateDecl p (annotateDecl p d) = annotateDecl p d := by
  rw [annotateDecl, annotateDecl]
  by_cases hshape : p.shape = p.name
  · simp [hshape, annotateBody_annotateBody]
  · simp [hshape]

/-! ## Placing projections -/

/-- The declaration under a name, which may lack a definition. -/
def declAt (modules : List (String × AugmentedModule)) (n : ScopedName) :
    Option (Option Declaration) :=
  (Keyed.find? n.moduleName modules).bind fun m => Keyed.find? n.name m.decls

/-- What a module is apart from its declarations. -/
def headerOf (m : AugmentedModule) : String × List Import × Annotations :=
  (m.name, m.imports, m.annotations)

variable {modules modules' : List (String × AugmentedModule)} {p : Projection}

theorem header_of_place_ok (h : place modules p = .ok modules') (name : String) :
    (Keyed.find? name modules').map headerOf = (Keyed.find? name modules).map headerOf := by
  rw [place] at h
  split at h
  · cases h
  · rename_i m hm
    obtain rfl := Except.ok.inj h
    rw [Keyed.find?_insert]
    split_ifs with hname
    · rw [hname, hm]
      rfl
    · rfl

/-- A projection is seen under its name and nowhere else. -/
theorem declAt_of_place_ok (h : place modules p = .ok modules') (n : ScopedName) :
    declAt modules' n = if n = p.name then
        some (if p.isInstance then some (instanceDecl p)
          else (declAt modules n).join.map (annotateDecl p))
      else declAt modules n := by
  rw [place] at h
  split at h
  · cases h
  · rename_i m hm
    obtain rfl := Except.ok.inj h
    rw [declAt, declAt, Keyed.find?_insert]
    by_cases hmodule : n.moduleName = p.name.moduleName
    · rw [if_pos hmodule, hmodule, hm]
      simp only [Option.bind_some, placeIn, Keyed.find?_insert]
      by_cases hname : n.name = p.name.name
      · have hn : n = p.name := ScopedName.ext hmodule hname
        rw [if_pos hname, if_pos hn, hname]
      · have hn : n ≠ p.name := fun hn => hname (by rw [hn])
        rw [if_neg hname, if_neg hn]
    · have hn : n ≠ p.name := fun hn => hmodule (by rw [hn])
      rw [if_neg hmodule, if_neg hn]

theorem header_of_placed (h : ps.foldlM place modules = .ok modules') (name : String) :
    (Keyed.find? name modules').map headerOf = (Keyed.find? name modules).map headerOf := by
  induction ps generalizing modules with
  | nil =>
    obtain rfl := pure_eq_ok.mp h
    rfl
  | cons p ps ih =>
    rw [foldlM_cons] at h
    obtain ⟨next, hnext, h⟩ := bind_eq_ok.mp h
    rw [ih h, header_of_place_ok hnext]

theorem declAt_of_placed (h : ps.foldlM place modules = .ok modules')
    (hn : ∀ p ∈ ps, p.name = n → p.isInstance = false) {d : Declaration}
    (hd : declAt modules n = some (some d)) :
    declAt modules' n =
      some (some ((ps.filter (·.name = n)).foldl (fun d p => annotateDecl p d) d)) := by
  induction ps generalizing modules d with
  | nil =>
    obtain rfl := pure_eq_ok.mp h
    exact hd
  | cons p ps ih =>
    rw [foldlM_cons] at h
    obtain ⟨next, hnext, h⟩ := bind_eq_ok.mp h
    obtain ⟨hp, hps⟩ := forall_mem_cons.mp hn
    have hstep := declAt_of_place_ok hnext n
    by_cases hname : p.name = n
    · rw [if_pos hname.symm, hp hname, hd] at hstep
      rw [ih h hps hstep, filter_cons_of_pos (by simpa using hname)]
      rfl
    · rw [if_neg (Ne.symm hname), hd] at hstep
      rw [ih h hps hstep, filter_cons_of_neg (by simpa using hname)]

theorem bare_foldl_annotateDecl (ps : List Projection) (d : Declaration) :
    (ps.foldl (fun d p => annotateDecl p d) d).bare = d.bare := by
  induction ps generalizing d with
  | nil => rfl
  | cons p ps ih => rw [foldl_cons, ih, bare_annotateDecl]

theorem foldl_annotateDecl (hne : ps ≠ []) (hsame : ∀ q ∈ ps, q = p) (d : Declaration) :
    ps.foldl (fun d p => annotateDecl p d) d = annotateDecl p d := by
  induction ps generalizing d with
  | nil => exact absurd rfl hne
  | cons q ps ih =>
    obtain ⟨rfl, hps⟩ := forall_mem_cons.mp hsame
    rw [foldl_cons]
    by_cases hnil : ps = []
    · rw [hnil, foldl_nil]
    · rw [ih hnil hps, annotateDecl_annotateDecl]

end Graph

/-! ## Declared and projected fields -/

namespace Resolver

variable {r : Resolver} {env : Env}

structure ProjectsFields (d : ScopedDecl) (p : Projection) : Prop where
  shape : p.shape = p.name
  names : (p.fields.map (·.name)).Nodup
  /-- A field that is not spread is projected under its name. -/
  kept : ∀ f ∈ d.decl.fields, f.annotations.has spreadKey = false →
    ∃ c ∈ p.fields, c.name = f.name ∧ c.field.annotations = f.annotations

theorem ProjectsFields.marked (h : ProjectsFields d p) {inFocus : ScopedName → Bool} :
    ProjectsFields d (p.marked inFocus) :=
  ⟨h.shape, h.names, h.kept⟩

theorem projectsFields_of_project_ok (h : r.project d env = .ok p)
    (hbody : d.decl.body.target? = none) : ProjectsFields d p := by
  obtain ⟨x, hx, hname, _, hshape, hfields⟩ := exists_of_project_ok h
  obtain ⟨rest, _, ⟨_, out, hout, rfl⟩ | ⟨target, htarget, _⟩⟩ := exists_of_expand_ok hx
  · refine ⟨hshape.trans hname.symm, hfields ▸ names_of_shapeFields_ok hout, ?_⟩
    intro f hf hspread
    obtain ⟨parts, hparts, rfl⟩ := exists_of_expandFields_ok (expandFields_of_shapeFields_ok hout)
    obtain ⟨part, hpart, hfield⟩ := forall₂_exists_right hparts hf
    obtain ⟨t, _, _, ⟨htrue, _⟩ | ⟨_, c, hc, rfl⟩⟩ := exists_of_expandField_ok hfield
    · simp [hspread] at htrue
    · obtain ⟨hdeclared, _⟩ := exists_of_concreteField_ok hc
      refine ⟨c, ?_, by rw [ConcreteField.name, hdeclared], by rw [hdeclared]⟩
      rw [hfields]
      exact mem_flatten.mpr ⟨[c], hpart, mem_singleton_self c⟩
  · simp [hbody] at htarget

theorem annotations_of_project_ok (h : r.project d env = .ok p) :
    p.annotations = d.decl.annotations ∧ p.isInstance = false := by
  obtain ⟨x, _, rfl⟩ := bind_pure_eq_ok.mp h
  exact ⟨rfl, rfl⟩

end Resolver

namespace Graph

variable {p q : Projection} {g : Graph}

/-- A field takes over what the projected field of its name has, if there is one. -/
theorem own_annotated? (hq : Metadata.Augments p q) (hnames : (p.fields.map (·.name)).Nodup)
    (f : Field) :
    (∀ c ∈ p.fields, c.name = f.name →
      (annotated? q f).annotations.own = c.field.annotations.own) ∧
      ((∀ c ∈ p.fields, c.name ≠ f.name) → annotated? q f = f) := by
  have hfound : Option.Rel (fun c c' : ConcreteField => c'.name = c.name ∧
      c'.field.annotations.own = c.field.annotations.own) (p.field? f.name) (q.field? f.name) := by
    apply find?_of_forall₂ hq.fields
    intro c c' hc
    rw [hc.1]
  rw [annotated?]
  cases hp : p.field? f.name with
  | none =>
    rw [hp] at hfound
    cases hq' : q.field? f.name with
    | some c' => rw [hq'] at hfound; cases hfound
    | none =>
      have hnone : ∀ c ∈ p.fields, c.name ≠ f.name := by
        simpa using find?_eq_none.mp hp
      exact ⟨fun c hc hname => absurd hname (hnone c hc), fun _ => rfl⟩
  | some first =>
    rw [hp] at hfound
    have hfirst : first ∈ p.fields := mem_of_find?_eq_some hp
    have hname : first.name = f.name := by simpa using find?_some hp
    cases hq' : q.field? f.name with
    | none => rw [hq'] at hfound; cases hfound
    | some c' =>
      rw [hq'] at hfound
      cases hfound with
      | some hrel =>
        refine ⟨fun c hc hc' => ?_, fun hnone => absurd hname (hnone first hfirst)⟩
        have hsame : c = first :=
          inj_on_of_nodup_map hnames hc hfirst (hc'.trans hname.symm)
        rw [hsame]
        exact hrel.2

/-! ## The augmented modules of a graph -/

theorem find?_loaded (store : Store) (name : String) :
    Keyed.find? name (store.modules.map fun m => (m.name, ofModule m)) =
      (store.module? name).map .ofModule := by
  rw [Store.module?]
  induction store.modules with
  | nil => rfl
  | cons m rest ih =>
    rw [map_cons, Keyed.find?_cons, find?_cons]
    by_cases hname : m.name = name
    · simp [hname]
    · simp [hname, Ne.symm hname, ih]

theorem find?_mapValues {α β : Type} (f : α → β) (key : String) (entries : List (String × α)) :
    Keyed.find? key (Keyed.mapValues f entries) = (Keyed.find? key entries).map f := by
  induction entries with
  | nil => rfl
  | cons entry rest ih =>
    rw [Keyed.mapValues, map_cons, Keyed.find?_cons, Keyed.find?_cons]
    split_ifs
    · rfl
    · exact ih

theorem declAt_loaded {store : Store} {m : SchemaModule} {d : Declaration}
    (hm : store.module? n.moduleName = some m) (hd : m.find? n.name = some d) :
    declAt (store.modules.map fun m => (m.name, .ofModule m)) n = some (some d) := by
  rw [declAt, find?_loaded, hm, Option.map_some, Option.bind_some, ofModule,
    find?_mapValues]
  rw [SchemaModule.find?] at hd
  rw [hd, Option.map_some]

/-- The projections of a graph with their derived annotations, put into the loaded
modules one after the other. -/
theorem exists_augments_of_augmented_ok {modules : List (String × AugmentedModule)}
    (h : g.augmented = .ok modules) :
    ∃ qs, Forall₂ (fun p q => g.metadata.augment p = .ok q) g.all qs ∧
      qs.foldlM place (g.store.modules.map fun m => (m.name, .ofModule m)) = .ok modules := by
  obtain ⟨qs, hqs, hplaced⟩ := exists_mapM_of_foldlM_bind h
  exact ⟨qs, mapM_eq_ok.mp hqs, hplaced⟩

theorem Built.isInstance_of_decl (h : g.Built) (hp : p ∈ g.decls) : p.isInstance = false := by
  have hroots : ∀ d ∈ g.roots, d ∈ g.resolver.store.allDecls := fun d hd =>
    mem_of_mem_filter (mem_of_mem_filter hd)
  obtain ⟨d, _, q, hq, rfl⟩ := exists_project_of_mem_closure hroots h.closure hp
  exact (annotations_of_project_ok hq).2

theorem fields_annotateBody (p : Projection) (b : Body) :
    (annotateBody p b).fields = b.fields.map (annotated? p) := by
  cases b <;> rfl

/-- A field is replaced by the fields of its type, and a projected field of its
declaration has its name. -/
def Overlays (g : Graph) (n : ScopedName) (f : Field) (c : ConcreteField) : Prop :=
  f.annotations.has spreadKey = true ∧
    ∃ p ∈ g.decls, p.name = n ∧ c ∈ p.fields ∧ c.name = f.name

/-- A declaration keeps its own annotations, and so do its fields, but for those that
are overlaid: these have the annotations of the field that overlays them. -/
structure KeepsOwn (g : Graph) (n : ScopedName) (d d' : Declaration) : Prop where
  own : d'.annotations.own = d.annotations.own
  fields : Forall₂ (fun f f' =>
    ((∀ c, ¬g.Overlays n f c) → f'.annotations.own = f.annotations.own) ∧
      ∀ c, g.Overlays n f c → f'.annotations.own = c.field.annotations.own) d.fields d'.fields

theorem keepsOwn_annotateDecl {o : Projection} (ho : g.resolver.project d [] = .ok o)
    (hp : p ∈ g.decls) (hmarked : p = o.marked g.settings.inFocus)
    (hunique : ∀ p' ∈ g.decls, p'.name = p.name → p' = p) (hq : Metadata.Augments p q) :
    g.KeepsOwn p.name d.decl (annotateDecl q d.decl) := by
  have hown : p.annotations = d.decl.annotations := by
    rw [hmarked, ← (annotations_of_project_ok ho).1]
    rfl
  refine ⟨hq.own.trans (by rw [hown]), ?_⟩
  cases hbody : d.decl.body.target? with
  | some target =>
    have hnone : d.decl.body.fields = [] := by
      cases hkind : d.decl.body <;> simp_all [Body.target?, Body.fields]
    have hnone' : (annotateDecl q d.decl).body.fields = [] := by
      rw [annotateDecl]
      by_cases hshape : q.shape = q.name
      · simp [hshape, fields_annotateBody, hnone]
      · simp [hshape, hnone]
    rw [fields, fields, hnone, hnone']
    exact .nil
  | none =>
    have hfields : ProjectsFields d p :=
      hmarked ▸ (projectsFields_of_project_ok ho hbody).marked
    have hshape : q.shape = q.name := by rw [hq.shape, hq.name, hfields.shape]
    have hannotated : (annotateDecl q d.decl).fields = d.decl.fields.map (annotated? q) := by
      rw [annotateDecl, fields, if_pos hshape, fields_annotateBody, fields]
    rw [hannotated, forall₂_map_right_iff, forall₂_same]
    intro f hf
    obtain ⟨htaken, hleft⟩ := own_annotated? hq hfields.names f
    constructor
    · intro hfree
      cases hspread : f.annotations.has spreadKey with
      | false =>
        obtain ⟨c, hc, hname, hsame⟩ := hfields.kept f hf hspread
        rw [htaken c hc hname, hsame]
      | true =>
        rw [hleft]
        intro c hc hname
        exact hfree c ⟨hspread, p, hp, rfl, hc, hname⟩
    · rintro c ⟨_, p', hp', hpname, hc, hname⟩
      rw [hunique p' hp' hpname] at hc
      exact htaken c hc hname

section Placed

variable {g : Graph} {qs : List Projection} {n : ScopedName}
  (hqs : Forall₂ (fun p q => g.metadata.augment p = .ok q) g.all qs)
  (hn : ∀ p ∈ g.instances, p.name ≠ n)
include hqs hn

/-- What is placed under a name that no instance has comes from the closure. -/
theorem exists_decl_of_placed (hq : q ∈ qs) (hname : q.name = n) :
    ∃ p ∈ g.decls, p.name = n ∧ g.metadata.augment p = .ok q := by
  obtain ⟨p, hp, hpq⟩ := forall₂_exists_left hqs hq
  have hpname : p.name = n := by rw [← hname, (Metadata.augments_of_augment_ok hpq).name]
  rcases mem_append.mp hp with hp | hp
  · exact ⟨p, hp, hpname, hpq⟩
  · exact absurd hpname (hn p hp)

/-- In the closure a name has one projection at most, so the declaration is left alone or
annotated with that one. -/
theorem Built.keepsOwn_placed (h : g.Built) (hstore : g.store.Indexed)
    (hd : g.store.resolve n = .ok d) :
    g.KeepsOwn n d.decl ((qs.filter (·.name = n)).foldl (fun d p => annotateDecl p d) d.decl) := by
  have hproject : ∀ p ∈ g.decls, p.name = n →
      ∃ o, g.resolver.project d [] = .ok o ∧ p = o.marked g.settings.inFocus := by
    intro p hp hpname
    obtain ⟨e, o, he, ho, hmarked, _⟩ := h.exists_project hstore hp
    rw [hpname] at he
    obtain rfl := Except.ok.inj (he.symm.trans hd)
    exact ⟨o, ho, hmarked⟩
  have hunique : ∀ p ∈ g.decls, p.name = n → ∀ p' ∈ g.decls, p'.name = n → p' = p := by
    intro p hp hpname p' hp' hpname'
    obtain ⟨o, ho, rfl⟩ := hproject p hp hpname
    obtain ⟨o', ho', rfl⟩ := hproject p' hp' hpname'
    rw [Except.ok.inj (ho.symm.trans ho')]
  have hplaced : ∀ q ∈ qs.filter (·.name = n),
      ∃ p ∈ g.decls, p.name = n ∧ g.metadata.augment p = .ok q := by
    intro q hq
    obtain ⟨hmem, hname⟩ := mem_filter.mp hq
    exact exists_decl_of_placed hqs hn hmem (by simpa using hname)
  by_cases hnone : qs.filter (·.name = n) = []
  · have hfree : ∀ f c, ¬g.Overlays n f c := by
      rintro f c ⟨_, p, hp, hpname, _⟩
      obtain ⟨q, hq, hpq⟩ := forall₂_exists_right hqs (mem_append_left g.instances hp)
      have hqname : q.name = n := by rw [(Metadata.augments_of_augment_ok hpq).name, hpname]
      have hmem : q ∈ qs.filter (·.name = n) := mem_filter.mpr ⟨hq, by simpa using hqname⟩
      rw [hnone] at hmem
      cases hmem
    rw [hnone, foldl_nil]
    refine ⟨rfl, forall₂_same.mpr fun f _ => ⟨fun _ => rfl, fun c hc => ?_⟩⟩
    exact absurd hc (hfree f c)
  · obtain ⟨q, hq⟩ := exists_mem_of_ne_nil _ hnone
    obtain ⟨p, hp, hpname, hpq⟩ := hplaced q hq
    have hsingle : ∀ q' ∈ qs.filter (·.name = n), q' = q := by
      intro q' hq'
      obtain ⟨p', hp', hpname', hpq'⟩ := hplaced q' hq'
      rw [hunique p hp hpname p' hp' hpname'] at hpq'
      exact Except.ok.inj (hpq'.symm.trans hpq)
    obtain ⟨o, ho, hmarked⟩ := hproject p hp hpname
    rw [foldl_annotateDecl hnone hsingle, ← hpname]
    apply keepsOwn_annotateDecl ho hp hmarked _ (Metadata.augments_of_augment_ok hpq)
    intro p' hp' hsame
    exact hunique p hp hpname p' hp' (hsame.trans hpname)

end Placed

/-- Augmenting only adds derived annotations, with two exceptions.  Modules stay what
they are, and declarations that no instance is named after stay what they are but for
annotations.  Where every declaration carries the name it stands under, these keep their
own annotations; only a field that is spread, and whose declaration has a projected field
of the same name, has the annotations of that one instead. -/
theorem augmented_keeps {settings : Settings} {store : Store} {g : Graph}
    {modules : List (String × AugmentedModule)} (hbuild : build settings store = .ok g)
    (haugmented : g.augmented = .ok modules) {name : String} {m : SchemaModule}
    (hm : store.module? name = some m) :
    ∃ m', Keyed.find? name modules = some m' ∧ m'.name = m.name ∧ m'.imports = m.imports ∧
      m'.annotations = m.annotations ∧
      ∀ key d, m.find? key = some d → (∀ p ∈ g.instances, p.name ≠ ⟨name, key⟩) →
        ∃ d', Keyed.find? key m'.decls = some (some d') ∧ d'.bare = d.bare ∧
          (store.Indexed → g.KeepsOwn ⟨name, key⟩ d d') := by
  obtain ⟨_, rfl, hbuilt⟩ := built_of_build_ok hbuild
  obtain ⟨qs, hqs, hplaced⟩ := exists_augments_of_augmented_ok haugmented
  have hheader := header_of_placed hplaced name
  rw [find?_loaded, hm, Option.map_some, Option.map_some] at hheader
  obtain ⟨m', hm', hsame⟩ := Option.map_eq_some_iff.mp hheader
  obtain ⟨hname, himports, hannotations⟩ : m'.name = m.name ∧ m'.imports = m.imports ∧
      m'.annotations = m.annotations := by simpa [headerOf, ofModule] using hsame
  refine ⟨m', hm', hname, himports, hannotations, ?_⟩
  intro key d hd hinstances
  have hplain : ∀ q ∈ qs, q.name = ⟨name, key⟩ → q.isInstance = false := by
    intro q hq hqname
    obtain ⟨p, hp, _, hpq⟩ := exists_decl_of_placed hqs hinstances hq hqname
    rw [(Metadata.augments_of_augment_ok hpq).isInstance, hbuilt.isInstance_of_decl hp]
  have hfinal := declAt_of_placed hplaced hplain (declAt_loaded hm hd)
  rw [declAt, hm', Option.bind_some] at hfinal
  refine ⟨_, hfinal, bare_foldl_annotateDecl _ d, ?_⟩
  intro hstore
  have hresolve : g.store.resolve ⟨name, key⟩ = .ok ⟨m.name, d⟩ := by
    rw [Store.resolve, Store.lookup?, hm]
    simp [hd]
  exact hbuilt.keepsOwn_placed hqs hinstances hstore hresolve

/-! ## A spread field that shares its name -/

def innerNote : Annotation := ⟨⟨"sys.annotations", "Doc"⟩, .json (.text "inner")⟩

def info : ScopedDecl :=
  ⟨"app", ⟨"Info", none, .struct []
    [{ Standard.field "info" Standard.text with annotations := [innerNote] }], []⟩⟩

def spreadInfo : Field :=
  { Standard.field "info" (.ref info.name) with annotations := [⟨spreadKey, .absent⟩] }

def infoSale : ScopedDecl := ⟨"app", ⟨"Sale", none, .struct [] [spreadInfo], []⟩⟩

def infos : Store := ⟨[⟨"app", [], [info, infoSale].map fun d => (d.decl.name, d.decl), []⟩]⟩

theorem exists_augmented_infos :
    ∃ g, build .standard infos = .ok g ∧ (∃ modules, g.augmented = .ok modules) ∧
      g.instances = [] ∧ ∃ c, g.Overlays infoSale.name spreadInfo c ∧
        c.field.annotations = [innerNote] :=
  ⟨_, build_of_sorted rfl rfl rfl rfl rfl rfl (by decide), ⟨_, rfl⟩, rfl, _,
    ⟨rfl, _, .tail _ (.head _), rfl, .head _, rfl⟩, rfl⟩

/-- The field is documented now and no longer marked as spread. -/
theorem augmented_keeps_infos :
    ∃ g modules m d f, build .standard infos = .ok g ∧ g.augmented = .ok modules ∧
      Keyed.find? "app" modules = some m ∧ Keyed.find? "Sale" m.decls = some (some d) ∧
      d.fields = [f] ∧ f.annotations.own = [innerNote] ∧
      spreadInfo.annotations.own = [⟨spreadKey, .absent⟩] := by
  obtain ⟨g, hbuild, ⟨modules, haugmented⟩, hinstances, c, hoverlays, hc⟩ := exists_augmented_infos
  have hmodule : infos.module? "app" = some _ := rfl
  obtain ⟨m, hm, _, _, _, hdecls⟩ := augmented_keeps hbuild haugmented hmodule
  obtain ⟨d, hd, _, hkeeps⟩ := hdecls "Sale" infoSale.decl rfl (by simp [hinstances])
  obtain ⟨f, rest, hf, hrest, hfields⟩ :=
    forall₂_cons_left_iff.mp (hkeeps (by decide)).fields
  cases forall₂_nil_left_iff.mp hrest
  have hown : f.annotations.own = [innerNote] := by
    rw [hf.2 c hoverlays, hc]
    rfl
  exact ⟨g, modules, m, d, f, hbuild, haugmented, hm, hd, hfields, hown, rfl⟩

end Graph

end SchemaCompiler
