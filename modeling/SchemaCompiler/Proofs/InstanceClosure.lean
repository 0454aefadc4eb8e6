import SchemaCompiler.Proofs.InstanceRun
import SchemaCompiler.Proofs.QualifiedText
import SchemaCompiler.Proofs.Store
import SchemaCompiler.StandardModules

/-!
# What a run records

Where all names are plain, the qualified text tells applications apart, and a
successful run records the least set of applications that has those of the
given projections and, with each application, those of its projection.  Each
instance knows all places that use it, each of them once.
-/

namespace SchemaCompiler

open List Standard

variable {a t u : TypeExpr} {p : Projection} {env : Env}

/-! ## Plain names -/

/-- The primitives inside the expression have plain names. -/
def TypeExpr.PlainPrimitives (t : TypeExpr) : Prop :=
  ∀ name ∈ t.primitiveNames, PlainName name

instance (t : TypeExpr) : Decidable t.PlainPrimitives :=
  inferInstanceAs (Decidable (∀ name ∈ t.primitiveNames, PlainName name))

def Env.PlainPrimitives (env : Env) : Prop :=
  ∀ b ∈ env, b.value.PlainPrimitives

/-- Modules, declarations and the primitives in their bodies have plain
names. -/
structure Store.PlainlyNamed (s : Store) : Prop where
  keys : ∀ n ∈ s.keys, PlainModule n.moduleName ∧ PlainName n.name
  primitives : ∀ d ∈ s.allDecls, ∀ t ∈ d.decl.body.typeExprs, t.PlainPrimitives

namespace TypeExpr

theorem PlainPrimitives.of_mem_walk {s : TypeExpr} (ht : t.PlainPrimitives) (hs : s ∈ t.walk) :
    s.PlainPrimitives := fun name hname =>
  ht name (filterMap_subset primitive? (walk_subset hs) hname)

theorem PlainPrimitives.substitute (ht : t.PlainPrimitives) (henv : env.PlainPrimitives)
    (hu : t.substitute env = .ok u) : u.PlainPrimitives := by
  intro name hname
  obtain ⟨x, hx, hprimitive⟩ := mem_filterMap.mp hname
  rcases mem_walk_substitute hu hx with ⟨y, hy, hhead, -⟩ | ⟨b, hb, -, -, hx⟩
  · rw [← (names_of_head?_eq hhead).1] at hprimitive
    exact ht name (mem_filterMap.mpr ⟨y, hy, hprimitive⟩)
  · exact henv b hb name (mem_filterMap.mpr ⟨x, hx, hprimitive⟩)

theorem plainPrimitives_of_heads
    (h : ∀ x ∈ t.walk, ∀ name, x.head? = some (.primitive name) → PlainName name) :
    t.PlainPrimitives := by
  intro name hname
  obtain ⟨x, hx, hprimitive⟩ := mem_filterMap.mp hname
  cases x with
  | missing => cases hprimitive
  | app head args =>
    cases head with
    | primitive other =>
      obtain rfl : other = name := by simpa [primitive?] using hprimitive
      exact h _ hx _ rfl
    | reference n | param other => cases hprimitive

theorem Plain.plainPrimitives (h : t.Plain) : t.PlainPrimitives :=
  plainPrimitives_of_heads fun x hx _ hname => h x hx _ hname

end TypeExpr

theorem Env.plainPrimitives_of_bind_ok {n : ScopedName} {params : List String}
    {args : List TypeExpr} (h : Env.bind n params args = .ok env)
    (hargs : ∀ a ∈ args, a.PlainPrimitives) : env.PlainPrimitives :=
  fun _ hb => hargs _ (Env.value_mem_of_bind_ok h hb)

namespace Resolver

variable {r : Resolver}

/-- A declaration of the store under bindings with plain primitives. -/
def PlainUse (r : Resolver) (d : ScopedDecl) (env : Env) : Prop :=
  d ∈ r.store.allDecls ∧ env.PlainPrimitives

theorem plainUse_of_enters (hstore : r.store.PlainlyNamed) {d e : ScopedDecl} {env' : Env}
    (h : r.PlainUse d env) (henter : r.Enters d env e env') : r.PlainUse e env' := by
  obtain ⟨s, hs, n, args, hsubst, hresolve, hbind⟩ := henter
  have happ := (hstore.primitives d h.1 s hs).substitute h.2 hsubst
  refine ⟨Store.mem_allDecls_of_resolve_ok hresolve, Env.plainPrimitives_of_bind_ok hbind ?_⟩
  intro a ha
  exact happ.of_mem_walk (TypeExpr.walk_arg_subset ha (TypeExpr.self_mem_walk a))

/-- A closed expression is plain when its primitives are and its declarations
can be found. -/
theorem plain_of_checkArity_ok (hstore : r.store.PlainlyNamed) (hprimitives : t.PlainPrimitives)
    (hclosed : t.hasParams = false) (harity : r.checkArity t = .ok ()) : t.Plain := by
  intro s hs head hhead
  cases s with
  | missing => cases hhead
  | app other args =>
    obtain rfl : other = head := by simpa [TypeExpr.head?] using hhead
    cases other with
    | primitive name => exact hprimitives name (mem_filterMap.mpr ⟨_, hs, rfl⟩)
    | param name => exact TypeExpr.head?_ne_param_of_hasParams hclosed hs name rfl
    | reference n =>
      obtain ⟨d, hd⟩ := exists_resolve_of_checkArity_ok harity hs rfl
      exact hstore.keys n (Store.mem_keys_of_resolve_ok hd)

theorem plain_of_declared (hstore : r.store.PlainlyNamed) {c : ConcreteField}
    (hc : r.Declared r.PlainUse c) (ha : r.application? c = some a) : a.Plain := by
  obtain ⟨e, env, f, t, ⟨he, henv⟩, hf, hsubst, harity, hconcrete⟩ := hc
  obtain ⟨hfield, _, core, hcore, hmono⟩ := exists_of_concreteField_ok hconcrete
  have htype : c.typeExpr = t := by rw [ConcreteField.typeExpr, hfield]
  have hprimitives : t.PlainPrimitives :=
    (hstore.primitives e he _ (Body.typeExpr_mem_typeExprs hf)).substitute henv hsubst
  rw [application?, htype, hcore, hmono] at ha
  split at ha
  · rename_i hcond
    obtain rfl : core = a := by simpa [Except.toOption] using ha
    have hclosed : t.hasParams = false := by simpa using (Bool.and_eq_true_iff.mp hcond).1
    have hplain := plain_of_checkArity_ok hstore hprimitives hclosed harity
    exact fun s hs => hplain s (TypeExpr.walk_subset (core_mem_walk hcore) hs)
  · cases ha

/-- The fields are those of a declaration of the store, projected under bindings
with plain primitives. -/
def Projects (r : Resolver) (p : Projection) : Prop :=
  ∃ d env q, r.PlainUse d env ∧ r.project d env = .ok q ∧ p.fields = q.fields

theorem plain_of_projects (hstore : r.store.PlainlyNamed) (hp : r.Projects p) {f : ConcreteField}
    (hf : f ∈ p.fields) (ha : r.application? f = some a) : a.Plain := by
  obtain ⟨d, env, q, huse, hproject, hfields⟩ := hp
  exact plain_of_declared hstore (declared_of_mem_project
    (fun _ _ _ _ h henter => plainUse_of_enters hstore h henter) huse hproject (hfields ▸ hf)) ha

theorem projects_of_projectType_ok (ht : t.Plain) (h : r.projectType t = .ok p) : r.Projects p := by
  obtain ⟨n, args, d, env, q, rfl, hd, henv, hq, rfl⟩ := exists_of_projectType_ok h
  refine ⟨d, env, q, ⟨Store.mem_allDecls_of_resolve_ok hd, ?_⟩, hq, rfl⟩
  refine Env.plainPrimitives_of_bind_ok henv fun a ha => ?_
  exact ht.plainPrimitives.of_mem_walk (TypeExpr.walk_arg_subset ha (TypeExpr.self_mem_walk a))

end Resolver

namespace Tracker

variable {r : Resolver} {t t' : Tracker} {uses : List (TypeExpr × String)} {ps : List Projection}
  {use : TypeExpr × String} {all : List Instance} {i : Instance} {name : String} {v : TypeExpr}

theorem plain_of_leads (hstore : r.store.PlainlyNamed) (hu : u.Plain) (h : Leads r u v) :
    v.Plain := by
  obtain ⟨p, hp, f, hf, hv⟩ := h
  exact Resolver.plain_of_projects hstore (Resolver.projects_of_projectType_ok hu hp) hf hv

/-! ## Keeping the books -/

/-- The places that use an application. -/
def placesOf (u : TypeExpr) (uses : List (TypeExpr × String)) : List String :=
  (uses.filter (·.1 = u)).map (·.2)

theorem placesOf_append (u : TypeExpr) (uses more : List (TypeExpr × String)) :
    placesOf u (uses ++ more) = placesOf u uses ++ placesOf u more := by
  rw [placesOf, filter_append, map_append]
  rfl

theorem placesOf_single (u v : TypeExpr) (place : String) :
    placesOf u [(v, place)] = if v = u then [place] else [] := by
  unfold placesOf
  split <;> simp_all

/-- The recorded instances are those of the uses so far, each with its
places. -/
structure Books (t : Tracker) (uses : List (TypeExpr × String)) : Prop where
  consistent : t.Consistent
  plain : ∀ use ∈ uses, use.1.Plain
  recorded_iff : ∀ u, (∃ i ∈ t.recorded, i.typeExpr = u) ↔ u ∈ uses.map (·.1)
  places : ∀ i ∈ t.recorded, i.referencedBy = placesOf i.typeExpr uses

theorem books_empty : Books .empty [] :=
  ⟨consistent_empty, by simp, by simp [recorded, empty], by simp [recorded, empty]⟩

/-- The index of names leads to the instance of the application itself. -/
theorem Books.exists_of_lookup (h : Books t uses) (ha : a.Plain)
    (hname : t.names.lookup a.scopedText = some name) :
    ∃ i ∈ t.recorded, i.typeExpr = a ∧ i.name = name := by
  obtain ⟨_, hface, htext, hname⟩ := (h.consistent.lookup_iff _ _).mp hname
  obtain ⟨i, hi, rfl⟩ := mem_map.mp hface
  obtain ⟨use, huse, htype⟩ := mem_map.mp ((h.recorded_iff i.typeExpr).mp ⟨i, hi, rfl⟩)
  have hplain : i.typeExpr.Plain := htype ▸ h.plain use huse
  exact ⟨i, hi, TypeExpr.eq_of_scopedText_eq hplain ha htext, hname⟩

theorem Books.passed (h : Books t uses) (ht' : t'.Consistent)
    (hrecorded : t'.recorded.Perm t.recorded) : Books t' uses where
  consistent := ht'
  plain := h.plain
  recorded_iff := by simpa only [hrecorded.mem_iff] using h.recorded_iff
  places := fun i hi => h.places i (hrecorded.mem_iff.mp hi)

/-- A further use reaches the instance of its application and no other. -/
theorem Books.again (h : Books t uses) (ht' : t'.Consistent) (ha : a.Plain) (hi : i ∈ t.recorded)
    (hgeneric : i.generic = a.applied) (hname : t.names.lookup a.scopedText = some i.name)
    {use : String}
    (hrecorded : t'.recorded.Perm (t.recorded.map (Instance.addUse i.generic i.name use))) :
    Books t' (uses ++ [(a, use)]) := by
  have htype : i.typeExpr = a := by
    obtain ⟨k, hk, hktype, hkname⟩ := h.exists_of_lookup ha hname
    have hkgeneric : k.generic = a.applied := hktype ▸ h.consistent.generic_of_mem hk
    exact h.consistent.eq_of_name_eq hk hi (hkgeneric.trans hgeneric.symm) hkname ▸ hktype
  refine ⟨ht', ?_, ?_, ?_⟩
  · exact forall_mem_append.mpr ⟨h.plain, by simpa using ha⟩
  · intro u
    have hsame : u = a → u ∈ uses.map (·.1) := by
      rintro rfl
      exact (h.recorded_iff u).mp ⟨i, hi, htype⟩
    rw [map_append, mem_append, map_singleton, mem_singleton,
      or_iff_left_of_imp hsame, ← h.recorded_iff u]
    simp only [hrecorded.mem_iff, mem_map, exists_exists_and_eq_and, Instance.typeExpr_addUse]
  · intro j hj
    obtain ⟨k, hk, rfl⟩ := mem_map.mp (hrecorded.mem_iff.mp hj)
    rw [placesOf_append, placesOf_single, Instance.typeExpr_addUse, Instance.addUse]
    by_cases hsame : k.typeExpr = a
    · obtain rfl := h.consistent.eq_of_typeExpr_eq hk hi (hsame.trans htype.symm)
      rw [if_pos ⟨rfl, rfl⟩, if_pos hsame.symm, ← h.places k hk]
    · have hother : ¬ (k.generic = i.generic ∧ k.name = i.name) := fun hkey =>
        hsame (h.consistent.eq_of_name_eq hk hi hkey.1 hkey.2 ▸ htype)
      rw [if_neg hother, if_neg (Ne.symm hsame), append_nil, h.places k hk]

/-- The first use of an application enters its instance. -/
theorem Books.new (h : Books t uses) (ht' : t'.Consistent) (ha : a.Plain)
    (hunknown : t.names.lookup a.scopedText = none) {use : String}
    (hrecorded : t'.recorded.Perm (t.recorded ++ [⟨name, a.applied, a, [use]⟩])) :
    Books t' (uses ++ [(a, use)]) := by
  have hfresh : ∀ i ∈ t.recorded, i.typeExpr ≠ a := by
    rintro i hi rfl
    simp [h.consistent.lookup_of_mem hi] at hunknown
  have hunused : placesOf a uses = [] := by
    rw [placesOf, map_eq_nil_iff, filter_eq_nil_iff]
    intro use huse heq
    obtain ⟨i, hi, htype⟩ := (h.recorded_iff use.1).mpr (mem_map_of_mem huse)
    exact hfresh i hi (htype.trans (of_decide_eq_true heq))
  refine ⟨ht', ?_, ?_, ?_⟩
  · exact forall_mem_append.mpr ⟨h.plain, by simpa using ha⟩
  · intro u
    rw [map_append, mem_append, map_singleton, mem_singleton, ← h.recorded_iff u]
    simp only [hrecorded.mem_iff, mem_append, mem_singleton, or_and_right, exists_or,
      exists_eq_left, eq_comm]
  · intro i hi
    rw [placesOf_append, placesOf_single]
    rcases mem_append.mp (hrecorded.mem_iff.mp hi) with hi | hi
    · rw [if_neg (hfresh i hi).symm, append_nil, h.places i hi]
    · rw [mem_singleton.mp hi]
      simp [hunused]

theorem Books.recorded (h : Books t uses) {use : String} {application : Option TypeExpr}
    {found : Option (Instance × Bool)} (hrecord : Recorded t use application (t', .ok found))
    (hplain : ∀ a ∈ application, a.Plain) :
    Books t' (uses ++ (application.map (·, use)).toList) := by
  have ht' := hrecord.consistent h.consistent
  obtain ⟨_, _, heffect⟩ := hrecord
  cases heffect with
  | passed _ hrecorded => simpa using h.passed ht' hrecorded
  | again hi hgeneric hname _ hrecorded =>
    exact h.again ht' (hplain _ rfl) hi hgeneric hname hrecorded
  | new hunknown _ _ _ hrecorded => exact h.new ht' (hplain _ rfl) hunknown hrecorded

theorem Advance.books {events : List Event} {new : List Instance} (h : Advance r t events t' new)
    (hbooks : Books t uses) (hplain : ∀ use ∈ events.filterMap (Event.use? r), use.1.Plain) :
    Books t' (uses ++ events.filterMap (Event.use? r)) := by
  induction h generalizing uses with
  | refl t => simpa using hbooks
  | @use t s t' owner f found events new hrecord _ ih =>
    rw [filterMap_use_cons, forall_mem_append] at hplain
    rw [filterMap_use_cons, ← append_assoc]
    refine ih (hbooks.recorded (recorded_of_record hbooks.consistent hrecord) ?_) hplain.2
    intro a ha
    exact hplain.1 (a, owner ++ "::" ++ f.name) (by simp [Option.mem_def.mp ha])
  | keep _ ih => exact ih (hbooks.passed (hbooks.consistent.keep _) (.refl _)) hplain

/-! ## The least set -/

/-- The least set that has the applications of the given projections and, with
each application, those that its projection uses. -/
inductive Needed (r : Resolver) (ps : List Projection) : TypeExpr → Prop where
  | root {p : Projection} {f : ConcreteField} {u : TypeExpr} (hp : p ∈ ps)
      (hgeneric : p.generic = false) (hf : f ∈ p.fields) (hu : r.application? f = some u) :
      Needed r ps u
  | step {u v : TypeExpr} (hu : Needed r ps u) (hlead : Leads r u v) : Needed r ps v

theorem mem_fieldUses {owner : String} {fs : List ConcreteField} :
    use ∈ fieldUses r owner fs ↔
      ∃ f ∈ fs, r.application? f = some use.1 ∧ owner ++ "::" ++ f.name = use.2 := by
  obtain ⟨u, place⟩ := use
  simp [fieldUses, mem_filterMap]

theorem mem_rootUses :
    use ∈ rootUses r p ↔ p.generic = false ∧ use ∈ fieldUses r p.name.name p.fields := by
  unfold rootUses
  split <;> simp_all

theorem leads_iff_mem_instanceUses :
    Leads r i.typeExpr v ↔ ∃ place, (v, place) ∈ instanceUses r i := by
  unfold instanceUses Leads
  split
  · rename_i p hp
    simp [hp, mem_fieldUses]
  · rename_i failure hfailure
    simp [hfailure]

theorem needed_of_mem_rootUses (h : use ∈ ps.flatMap (rootUses r)) : Needed r ps use.1 := by
  obtain ⟨p, hp, huse⟩ := mem_flatMap.mp h
  obtain ⟨hgeneric, huse⟩ := mem_rootUses.mp huse
  obtain ⟨f, hf, hu, _⟩ := mem_fieldUses.mp huse
  exact .root hp hgeneric hf hu

theorem plain_of_needed (hstore : r.store.PlainlyNamed) (hps : ∀ p ∈ ps, r.Projects p)
    (h : Needed r ps u) : u.Plain := by
  induction h with
  | root hp _ hf hu => exact Resolver.plain_of_projects hstore (hps _ hp) hf hu
  | step _ hlead ih => exact plain_of_leads hstore ih hlead

/-- Only needed applications come up. -/
theorem Completes.needed (h : Completes r t ps t' all) (hi : i ∈ all) : Needed r ps i.typeExpr := by
  obtain ⟨u, hu, hleads⟩ := h.led_to i hi
  obtain ⟨use, huse, rfl⟩ := mem_map.mp hu
  generalize i.typeExpr = v at hleads ⊢
  induction hleads with
  | refl => exact needed_of_mem_rootUses huse
  | tail _ hlead ih => exact .step ih hlead

theorem Completes.books (hstore : r.store.PlainlyNamed) (hps : ∀ p ∈ ps, r.Projects p)
    (h : Completes r .empty ps t all) :
    Books t (ps.flatMap (rootUses r) ++ all.flatMap (instanceUses r)) := by
  have huses : (ps.flatMap rootEvents ++ all.flatMap (instanceEvents r)).filterMap
      (Event.use? r) = ps.flatMap (rootUses r) ++ all.flatMap (instanceUses r) := by
    rw [filterMap_append, filterMap_use_roots, filterMap_use_instances h.projected]
  have hneeded : ∀ use ∈ ps.flatMap (rootUses r) ++ all.flatMap (instanceUses r),
      Needed r ps use.1 := by
    refine forall_mem_append.mpr ⟨fun use huse => needed_of_mem_rootUses huse, ?_⟩
    intro use huse
    obtain ⟨i, hi, huse⟩ := mem_flatMap.mp huse
    exact .step (h.needed hi) (leads_iff_mem_instanceUses.mpr ⟨use.2, huse⟩)
  have hbooks := h.advance.books books_empty (by
    rw [huses]
    exact fun use huse => plain_of_needed hstore hps (hneeded use huse))
  rwa [huses, nil_append] at hbooks

theorem Consistent.nodup_typeExprs (h : t.Consistent) :
    (t.recorded.map (·.typeExpr)).Nodup := by
  have hnodup := h.distinct
  rw [faces, map_map] at hnodup
  exact hnodup.of_map.map_on fun i hi j hj => h.eq_of_typeExpr_eq hi hj

theorem Completes.uses_perm (h : Completes r .empty ps t all) :
    (ps.flatMap (rootUses r) ++ all.flatMap (instanceUses r)).Perm
      (ps.flatMap (rootUses r) ++ t.recorded.flatMap (instanceUses r)) := by
  refine .append_left _ ?_
  rw [flatMap_def, flatMap_def]
  exact (h.map_recorded_perm fun _ => rfl).symm.flatten

theorem recorded_of_needed
    (hused : ∀ use ∈ ps.flatMap (rootUses r) ++ t.recorded.flatMap (instanceUses r),
      ∃ i ∈ t.recorded, i.typeExpr = use.1) (hu : Needed r ps u) :
    ∃ i ∈ t.recorded, i.typeExpr = u := by
  induction hu with
  | @root p f u hp hgeneric hf hu =>
    have huse : (u, p.name.name ++ "::" ++ f.name) ∈ rootUses r p :=
      mem_rootUses.mpr ⟨hgeneric, mem_fieldUses.mpr ⟨f, hf, hu, rfl⟩⟩
    exact hused _ (mem_append_left _ (mem_flatMap.mpr ⟨p, hp, huse⟩))
  | step _ hlead ih =>
    obtain ⟨i, hi, rfl⟩ := ih
    obtain ⟨place, huse⟩ := leads_iff_mem_instanceUses.mp hlead
    exact hused _ (mem_append_right _ (mem_flatMap.mpr ⟨i, hi, huse⟩))

/-- A successful run records the least set of applications, each once and with
all places that use it. -/
theorem run_records_needed {ps out : List Projection} (hstore : r.store.PlainlyNamed)
    (hps : ∀ p ∈ ps, r.Projects p) (hrun : run r .empty ps = (t, .ok out)) :
    (∀ u, (∃ i ∈ t.recorded, i.typeExpr = u) ↔ Needed r ps u) ∧
      (t.recorded.map (·.typeExpr)).Nodup ∧
      ∀ i ∈ t.recorded, i.referencedBy.Perm (placesOf i.typeExpr
        (ps.flatMap (rootUses r) ++ t.recorded.flatMap (instanceUses r))) := by
  obtain ⟨_, all, hcompletes⟩ := completes_of_run consistent_empty hrun
  have hbooks := hcompletes.books hstore hps
  refine ⟨fun u => ⟨?_, ?_⟩, hbooks.consistent.nodup_typeExprs, ?_⟩
  · rintro ⟨i, hi, rfl⟩
    have htypes : (t.recorded.map (·.typeExpr)).Perm (all.map (·.typeExpr)) :=
      hcompletes.map_recorded_perm fun _ => rfl
    obtain ⟨j, hj, htype⟩ := mem_map.mp (htypes.mem_iff.mp (mem_map_of_mem hi))
    exact htype ▸ hcompletes.needed hj
  · refine recorded_of_needed fun use huse => (hbooks.recorded_iff use.1).mpr ?_
    exact mem_map_of_mem (hcompletes.uses_perm.mem_iff.mpr huse)
  · intro i hi
    rw [hbooks.places i hi]
    exact (hcompletes.uses_perm.filter _).map _

def crateBox : ScopedDecl :=
  ⟨"app", ⟨"Box", none, .struct ["T"] [field "value" (.param "T")], []⟩⟩

def box (t : TypeExpr) : TypeExpr := .ref crateBox.name [t]

def crate : ScopedDecl :=
  ⟨"app", ⟨"Crate", none, .struct []
    [field "outer" (box (box text)),
      field "spare" (.prim "Vector" [box text])], []⟩⟩

def crates : Resolver :=
  ⟨⟨[⟨"app", [], [crateBox, crate].map fun d => (d.decl.name, d.decl), []⟩]⟩, .standard⟩

/-- A box in a box and the boxes of a list: the inner box is used in both. -/
theorem run_records_needed_crates :
    ∃ p t out, crates.project crate [] = .ok p ∧ run crates .empty [p] = (t, .ok out) ∧
      t.recorded.map (fun i => (i.typeExpr, i.referencedBy)) =
        [(box (box text), ["Crate::outer"]),
          (box text, ["Crate::spare", "_Box__Box_String::value"])] ∧
      (∀ u, (∃ i ∈ t.recorded, i.typeExpr = u) ↔ Needed crates [p] u) ∧
      (t.recorded.map (·.typeExpr)).Nodup ∧
      ∀ i ∈ t.recorded, i.referencedBy.Perm (placesOf i.typeExpr
        ([p].flatMap (rootUses crates) ++ t.recorded.flatMap (instanceUses crates))) := by
  have hstore : crates.store.PlainlyNamed := ⟨by decide, by decide⟩
  have hcrate : crate ∈ crates.store.allDecls := .tail _ (.head _)
  refine ⟨_, _, _, rfl, rfl, rfl, run_records_needed hstore ?_ rfl⟩
  intro p hp
  rw [mem_singleton.mp hp]
  exact ⟨crate, [], _, ⟨hcrate, by simp [Env.PlainPrimitives]⟩, rfl, rfl⟩

end Tracker

end SchemaCompiler
