import SchemaCompiler.Graph
import SchemaCompiler.Proofs.Closure
import SchemaCompiler.Proofs.InstanceClosure
import SchemaCompiler.Proofs.InstanceNames
import SchemaCompiler.Proofs.Targets

/-!
# How far a graph is closed

The targets of the declarations of a graph lie in the focus or are in the graph
themselves.  Its instances are projected when the closure is complete, and their
targets are not followed.  Most of them are there all the same: those of the
generic declaration, if it is in the graph, and those that the arguments refer
to.  What may be missing was introduced by an application.
-/

namespace SchemaCompiler

open Outcome List Resolver Standard Tracker Projection

variable {p : Projection}

namespace Tracker

variable {r : Resolver} {t : Tracker}

/-- What a run keeps are the projections of the instances that came up. -/
theorem Completes.exists_of_mem_projections {ps : List Projection} {all : List Instance}
    (h : Completes r .empty ps t all) (hp : p ∈ t.projections.map (·.2)) :
    ∃ i ∈ all, projectInstance r i = .ok p := by
  rw [h.advance.projections_eq consistent_empty, filterMap_append, filterMap_kept_roots,
    nil_append] at hp
  obtain ⟨entry, hentry, rfl⟩ := mem_map.mp hp
  rcases Keyed.mem_insertAll hentry with hentry | hentry
  · cases hentry
  · have hkept := mem_map_of_mem (f := (·.2)) hentry
    rw [Keyed.values_keyed] at hkept
    obtain ⟨event, hevent, hkeep⟩ := mem_filterMap.mp hkept
    obtain ⟨i, hi, hevent⟩ := mem_flatMap.mp hevent
    refine ⟨i, hi, ?_⟩
    unfold instanceEvents at hevent
    split at hevent
    · rename_i q hq
      rcases mem_cons.mp hevent with rfl | hevent
      · rwa [← Option.some.inj hkeep]
      · obtain ⟨f, _, rfl⟩ := mem_map.mp hevent
        cases hkeep
    · cases hevent

end Tracker

namespace Graph

variable {n : ScopedName}

/-! ## Built graphs -/

/-- The declarations that the graph grows from. -/
def roots (g : Graph) : List ScopedDecl :=
  (g.store.allDecls.filter g.settings.accepts).filter (isRoot g.settings.tableKeys)

/-- The graph has the closure of its roots and the instances that this uses. -/
structure Built (g : Graph) : Prop where
  closure : g.resolver.closure g.roots g.settings.inFocus = .ok g.decls
  run : empty.run g.resolver g.decls = (g.tracker, .ok g.instances)

theorem built_of_build_ok {settings : Settings} {store : Store} {g : Graph}
    (h : build settings store = .ok g) : g.settings = settings ∧ g.store = store ∧ g.Built := by
  obtain ⟨_, _, h⟩ := bind_eq_ok.mp h
  obtain ⟨decls, hclosure, h⟩ := bind_eq_ok.mp h
  obtain ⟨instances, houtcome, h⟩ := bind_eq_ok.mp h
  obtain ⟨metadata, _, rfl⟩ := bind_pure_eq_ok.mp h
  exact ⟨rfl, rfl, hclosure, Prod.ext rfl houtcome⟩

/-- A graph from its parts, where these come in order already. -/
theorem build_of_sorted {settings : Settings} {store : Store} {roots : List ScopedDecl}
    {decls instances : List Projection} {tracker : Tracker} {metadata : Metadata}
    (hmodules : checkModules store settings.modules = .ok ())
    (hroots : distinctRoots [] ((store.allDecls.filter settings.accepts).filter
      (isRoot settings.tableKeys)) = roots)
    (hclose : closeWithin ⟨store, settings.wrappers⟩ settings.inFocus
      (store.keys.length + 2) (roots.map (·.name)) roots = .ok decls)
    (hrun : empty.run ⟨store, settings.wrappers⟩ decls =
      (tracker, .ok tracker.instanceProjections))
    (hvalues : tracker.projections.map (·.2) = instances)
    (hmetadata : Metadata.derive ⟨store, settings.wrappers⟩ (decls ++ instances) (some tracker) =
      .ok metadata)
    (hsorted : (decls.Pairwise fun p q => p.le q = true) ∧
      instances.Pairwise fun p q => p.le q = true) :
    build settings store = .ok { settings, store, decls, instances, metadata, tracker } := by
  have hclosure : Resolver.closure ⟨store, settings.wrappers⟩
      ((store.allDecls.filter settings.accepts).filter (isRoot settings.tableKeys))
      settings.inFocus = .ok decls := by
    rw [← hroots] at hclose
    refine bind_eq_ok.mpr ⟨decls, hclose, ?_⟩
    rw [sort, mergeSort_of_pairwise hsorted.1]
    rfl
  have hall : tracker.instanceProjections = instances := by
    rw [instanceProjections, hvalues, sort, mergeSort_of_pairwise hsorted.2]
  refine bind_eq_ok.mpr ⟨(), hmodules, bind_eq_ok.mpr ⟨decls, hclosure, ?_⟩⟩
  rw [hrun, hall]
  exact bind_eq_ok.mpr ⟨instances, rfl, bind_eq_ok.mpr ⟨metadata, hmetadata, rfl⟩⟩

theorem isSome_decl? {g : Graph} : (g.decl? n).isSome ↔ ∃ p ∈ g.all, p.name = n := by
  simp [decl?]

variable {g : Graph}

theorem Built.isClosure (h : g.Built) (hstore : g.store.Indexed) :
    g.resolver.IsClosure g.settings.inFocus g.roots g.decls := by
  refine isClosure_of_closure_ok hstore.named (fun d hd => ⟨d.name, ?_⟩) h.closure
  exact hstore.resolve_name (mem_of_mem_filter (mem_of_mem_filter hd))

/-- The name lies in the focus or belongs to a declaration of the graph. -/
def Covers (g : Graph) (n : ScopedName) : Prop :=
  g.settings.inFocus n = true ∨ ∃ p ∈ g.decls, p.name = n

theorem Covers.focus_or_isSome (h : g.Covers n) :
    g.settings.inFocus n = true ∨ (g.decl? n).isSome := by
  refine h.imp_right fun ⟨p, hp, hname⟩ => isSome_decl?.mpr ⟨p, ?_, hname⟩
  exact mem_append_left _ hp

section Decls

variable (h : g.Built) (hstore : g.store.Indexed)
include h hstore

/-- A name in the closure has its open projection there, with targets that are
covered. -/
theorem Built.exists_project (hp : p ∈ g.decls) :
    ∃ d q, g.store.resolve p.name = .ok d ∧ g.resolver.project d [] = .ok q ∧
      p = q.marked g.settings.inFocus ∧ ∀ n ∈ q.targets, g.Covers n := by
  have hclosure := h.isClosure hstore
  obtain ⟨m, d, q, hreached, hd, hq, rfl⟩ := (hclosure.mem_iff p).mp hp
  have hname : q.name = m := by
    rw [project_name hq, Store.name_eq_of_resolve_ok hstore.named hd]
  refine ⟨d, q, hname ▸ hd, hq, by rw [marked, hname], fun n hn => ?_⟩
  cases hfocus : g.settings.inFocus n with
  | true => exact .inl hfocus
  | false => exact .inr (hclosure.complete n (hreached.target hd hq hn hfocus))

theorem Built.covers_of_decl (hp : p ∈ g.decls) (hn : n ∈ p.targets) : g.Covers n := by
  obtain ⟨_, q, _, _, rfl, hcovers⟩ := h.exists_project hstore hp
  exact hcovers n hn

end Decls

/-! ## Instances -/

/-- The application brings in a target that it does not have from the graph: its
declaration is not in the graph, or an argument applies the target or links to
it. -/
def Introduces (g : Graph) (u : TypeExpr) (n : ScopedName) : Prop :=
  ((∀ p ∈ g.decls, p.name ≠ u.applied) ∧
    ∃ q, g.resolver.projectType u = .ok q ∧ n ∈ q.targets) ∨
  ∃ a ∈ u.args, a.reference? = some n ∨ g.resolver.link a = .ok (some n)

/-- The name is covered, or an application that the graph needs introduces it. -/
def Accounts (g : Graph) (n : ScopedName) : Prop :=
  g.Covers n ∨ ∃ u, Needed g.resolver g.decls u ∧ g.Introduces u n

section Instances

variable (h : g.Built) (hstore : g.store.Indexed) (hscoped : g.store.WellScoped) {u : TypeExpr}
include h hstore hscoped

/-- The targets of an application whose arguments refer to accounted names
only. -/
theorem Built.accounts_of_projectType (hu : Needed g.resolver g.decls u)
    (hargs : ∀ a ∈ u.args, ∀ found, g.resolver.references a = .ok found → ∀ n ∈ found, g.Accounts n)
    {q : Projection} (hq : g.resolver.projectType u = .ok q) (hn : n ∈ q.targets) :
    g.Accounts n := by
  by_cases hgeneric : ∀ p ∈ g.decls, p.name ≠ u.applied
  · exact .inr ⟨u, hu, .inl ⟨hgeneric, q, hq, hn⟩⟩
  · simp only [not_forall, not_not] at hgeneric
    obtain ⟨p, hp, hname⟩ := hgeneric
    obtain ⟨d, o, hd, ho, _, hcovers⟩ := h.exists_project hstore hp
    obtain ⟨m, args, e, env, q', rfl, he, henv, hq', rfl⟩ := exists_of_projectType_ok hq
    rw [hname] at hd
    obtain rfl := Except.ok.inj (hd.symm.trans he)
    obtain ⟨c, hc, hn⟩ := mem_flatMap.mp hn
    rcases mem_targets_of_project hscoped (Store.mem_allDecls_of_resolve_ok he) ho hq' hc
      hn with ⟨f, hf, hn⟩ | ⟨b, hb, hcarries⟩
    · exact .inl (hcovers n (mem_flatMap.mpr ⟨f, hf, hn⟩))
    · have hvalue : b.value ∈ args := Env.value_mem_of_bind_ok henv hb
      rcases hcarries with hhead | ⟨found, hfound, hn⟩ | hlink
      · exact .inr ⟨_, hu, .inr ⟨b.value, hvalue, .inl hhead⟩⟩
      · exact hargs b.value hvalue found hfound n hn
      · exact .inr ⟨_, hu, .inr ⟨b.value, hvalue, .inr hlink⟩⟩

/-- Along the uses that lead to an application: what its arguments refer to is
referred to where it is used. -/
theorem Built.accounts_of_args (hu : Needed g.resolver g.decls u) :
    ∀ a ∈ u.args, ∀ found, g.resolver.references a = .ok found → ∀ n ∈ found, g.Accounts n := by
  induction hu with
  | @root p f u hp _ hf hu =>
    intro a ha found hfound n hn
    obtain ⟨d, q, _, hq, rfl, hcovers⟩ := h.exists_project hstore hp
    obtain ⟨_, _, hconcrete⟩ := exists_concreteField_of_mem_project hq hf
    have hmem := mem_references_of_application hconcrete hu ha hfound hn
    exact .inl (hcovers n (mem_flatMap.mpr ⟨f, hf, hmem⟩))
  | @step u v hu hlead ih =>
    intro a ha found hfound n hn
    obtain ⟨q, hq, f, hf, hv⟩ := hlead
    obtain ⟨_, _, _, _, q', _, _, _, hq', rfl⟩ := exists_of_projectType_ok hq
    obtain ⟨_, _, hconcrete⟩ := exists_concreteField_of_mem_project hq' hf
    have hmem := mem_references_of_application hconcrete hv ha hfound hn
    exact h.accounts_of_projectType hstore hscoped hu ih hq (mem_flatMap.mpr ⟨f, hf, hmem⟩)

theorem Built.accounts_of_instance (hp : p ∈ g.instances) (hn : n ∈ p.targets) : g.Accounts n := by
  obtain ⟨hout, all, hcompletes⟩ := completes_of_run consistent_empty h.run
  rw [hout, instanceProjections, sort, mem_mergeSort] at hp
  obtain ⟨i, hi, hproject⟩ := hcompletes.exists_of_mem_projections hp
  obtain ⟨_, q, hq, _, hfields⟩ := exists_of_projectInstance_ok hproject
  have hneeded := hcompletes.needed hi
  rw [targets, hfields] at hn
  exact h.accounts_of_projectType hstore hscoped hneeded
    (h.accounts_of_args hstore hscoped hneeded) hq hn

end Instances

/-- How far a graph is closed.  Every target of a declaration lies in the focus
or is in the graph; so does every target of an instance that is not introduced
by an application the graph needs. -/
theorem build_closed {settings : Settings} {store : Store} {g : Graph}
    (hbuild : build settings store = .ok g) (hstore : store.Indexed) :
    (∀ p ∈ g.decls, ∀ n ∈ p.targets, settings.inFocus n = true ∨ (g.decl? n).isSome) ∧
    (store.WellScoped → ∀ p ∈ g.instances, ∀ n ∈ p.targets,
      settings.inFocus n = true ∨ (g.decl? n).isSome ∨
        ∃ u, Needed g.resolver g.decls u ∧ g.Introduces u n) := by
  obtain ⟨rfl, rfl, hbuilt⟩ := built_of_build_ok hbuild
  constructor
  · intro p hp n hn
    exact (hbuilt.covers_of_decl hstore hp hn).focus_or_isSome
  · intro hscoped p hp n hn
    rcases hbuilt.accounts_of_instance hstore hscoped hp hn with hcovers | hintroduced
    · exact hcovers.focus_or_isSome.imp_right .inl
    · exact .inr (.inr hintroduced)

/-- A box holds a reference to whatever it is a box of; a sale has a box of
things, which lie outside the focus. -/
def thing : ScopedDecl :=
  ⟨"other", ⟨"Thing", none, .struct [] [field "label" text], []⟩⟩

def thingBox : ScopedDecl :=
  ⟨"app", ⟨"Box", none, .struct ["T"]
    [field "ref" (.ref ⟨"common.db", "DbKey"⟩ [.param "T"])], []⟩⟩

def thingSale : ScopedDecl :=
  ⟨"app", ⟨"Sale", none, .struct []
    [field "box" (.ref thingBox.name [.ref thing.name])], []⟩⟩

def things : Store :=
  ⟨[⟨"app", [], [("Box", thingBox.decl), ("Sale", thingSale.decl)], []⟩,
    ⟨"common.db", [], [newtypeDecl "DbKey" ["T"] text], []⟩,
    ⟨"other", [], [("Thing", thing.decl)], []⟩]⟩

def onlyApp : Settings := { Settings.standard with focus := ["app"] }

/-- The instance of the box refers to the thing, which is not in the graph. -/
theorem build_closed_things :
    ∃ g p, build onlyApp things = .ok g ∧ p ∈ g.instances ∧ thing.name ∈ p.targets ∧
      onlyApp.inFocus thing.name = false ∧ g.decl? thing.name = none ∧
      ∃ u, Needed g.resolver g.decls u ∧ g.Introduces u thing.name := by
  have hbuild : build onlyApp things = .ok _ :=
    build_of_sorted rfl rfl rfl rfl rfl rfl (by decide)
  refine ⟨_, _, hbuild, .head _, .head _, rfl, rfl, ?_⟩
  have hclosed := (build_closed hbuild (by decide)).2 (by decide) _ (.head _) thing.name (.head _)
  rcases hclosed with hfocus | hpresent | hintroduced
  · cases hfocus
  · cases hpresent
  · exact hintroduced

end Graph

end SchemaCompiler
