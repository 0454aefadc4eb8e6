import SchemaCompiler.Proofs.ShapeLookup

/-!
# Supplied arguments

A type supplies its arguments when every reference in it has as many as its
declaration takes.  The fields of a projection do, for that is checked when they
are projected.  Where the bodies of a store do, expanding an alias or a new type
keeps it.  What a graph then finds under a reference without arguments has no
open parameters, unless the name stands for more than one declaration.
-/

namespace SchemaCompiler

open Outcome List TypeExpr Resolver Tracker

variable {p : Projection} {f : ConcreteField} {s : Store} {n : ScopedName} {args : List TypeExpr}
  {t : TypeExpr} {d : ScopedDecl} {env : Env}

/-- Every reference in the type has as many arguments as its declaration takes. -/
def Store.Supplies (s : Store) (t : TypeExpr) : Prop :=
  ∀ x ∈ t.walk, ∀ n ∈ x.reference?, ∀ d ∈ (s.resolve n).toOption,
    d.decl.params.length = x.args.length

instance (s : Store) (t : TypeExpr) : Decidable (s.Supplies t) :=
  inferInstanceAs (Decidable (∀ x ∈ t.walk, ∀ n ∈ x.reference?, ∀ d ∈ (s.resolve n).toOption,
    d.decl.params.length = x.args.length))

/-- The bodies of all declarations supply their arguments. -/
def Store.Supplied (s : Store) : Prop :=
  ∀ d ∈ s.allDecls, ∀ t ∈ d.decl.body.typeExprs, s.Supplies t

instance (s : Store) : Decidable s.Supplied :=
  inferInstanceAs (Decidable (∀ d ∈ s.allDecls, ∀ t ∈ d.decl.body.typeExprs, s.Supplies t))

theorem Store.supplies_iff :
    s.Supplies t ↔ ∀ n args, .app (.reference n) args ∈ t.walk → ∀ d, s.resolve n = .ok d →
      d.decl.params.length = args.length := by
  constructor
  · intro h n args hmem d hd
    exact h _ hmem n rfl d (by rw [hd]; rfl)
  · intro h x hx n hn d hd
    refine h n x.args (eq_app_of_reference? hn ▸ hx) d ?_
    cases hfound : s.resolve n with
    | error failure =>
      rw [hfound] at hd
      cases hd
    | ok found =>
      rw [hfound] at hd
      rw [Option.some.inj hd]

theorem Store.Supplies.of_mem_walk {u : TypeExpr} (h : s.Supplies t) (hu : u ∈ t.walk) :
    s.Supplies u :=
  fun x hx => h x (walk_subset hu hx)

theorem Store.Supplies.arg {a : TypeExpr} (h : s.Supplies t) (ha : a ∈ t.args) : s.Supplies a := by
  cases t with
  | missing => cases ha
  | app head args => exact h.of_mem_walk (walk_arg_subset ha (self_mem_walk a))

/-- A substitution into what supplies its arguments does so if the values do. -/
theorem Store.Supplies.substitute {u : TypeExpr} (h : s.Supplies t)
    (henv : ∀ b ∈ env, s.Supplies b.value) (hu : t.substitute env = .ok u) : s.Supplies u := by
  intro x hx n hn d hd
  rcases mem_walk_substitute hu hx with ⟨y, hy, hhead, hcount, -⟩ | ⟨b, hb, -, -, hvalue⟩
  · rw [← hcount]
    exact h y hy n ((names_of_head?_eq hhead).2 ▸ hn) d hd
  · exact henv b hb x hvalue n hn d hd

namespace Resolver

variable {r : Resolver} {t u : TypeExpr} {steps : Nat}

theorem supplies_of_checkArity_ok (h : r.checkArity t = .ok ()) : r.store.Supplies t := by
  refine Store.supplies_iff.mpr fun n args hmem d hd => ?_
  have hhead := checkHead_of_checkHeads_ok h hmem
  rw [checkHead, hd] at hhead
  dsimp only at hhead
  split at hhead
  · assumption
  · cases hhead

theorem supplies_of_expandOnce (hstore : r.store.Supplied) (ht : r.store.Supplies t)
    (h : r.expandOnce t = .ok (some u)) : r.store.Supplies u := by
  obtain ⟨n, d, target, env, _, hd, htarget, henv, hu⟩ := exists_of_expandOnce_ok h
  have hbody := hstore d (Store.mem_allDecls_of_resolve_ok hd) target
    (Body.target_mem_typeExprs htarget)
  exact hbody.substitute (fun b hb => ht.arg (Env.value_mem_of_bind_ok henv hb)) hu

theorem supplies_of_classify (ht : r.store.Supplies t) {w : Wrapped}
    (h : r.classify t = .ok w) : r.store.Supplies w.inner := by
  rcases inner_of_classify_ok h with ⟨_, hinner⟩ | ⟨_, hargs⟩
  · rwa [hinner]
  · exact ht.arg (hargs ▸ mem_cons_self)

theorem Expands.supplies (hstore : r.store.Supplied) (h : r.Expands steps t u)
    (ht : r.store.Supplies t) : r.store.Supplies u := by
  induction h with
  | done => exact ht
  | step _ _ _ hnext _ ih => exact ih (supplies_of_expandOnce hstore ht hnext)

/-- The end of an expansion is a declaration of the store. -/
theorem Expands.exists_resolve (h : r.Expands steps t (.app (.reference n) args)) :
    ∃ d, r.store.resolve n = .ok d := by
  generalize hu : TypeExpr.app (.reference n) args = u at h
  induction h with
  | done hname _ _ hend =>
    subst hu
    rw [expandOnce] at hend
    dsimp only [reference?] at hend
    split at hend
    · cases hend
    · exact ⟨_, by assumption⟩
  | step _ _ _ _ _ ih => exact ih hu

/-- The types of projected fields supply their arguments. -/
theorem supplies_of_mem_project (h : r.project d env = .ok p) (hf : f ∈ p.fields) :
    r.store.Supplies f.typeExpr := by
  obtain ⟨_, _, field, s, _, _, _, harity, hfield⟩ :=
    declared_of_mem_project (P := fun _ _ => True) (fun _ _ _ _ _ _ => trivial) trivial h hf
  rw [ConcreteField.typeExpr, (exists_of_concreteField_ok hfield).1]
  exact supplies_of_checkArity_ok harity

theorem supplies_of_mem_projectType (h : r.projectType t = .ok p) (hf : f ∈ p.fields) :
    r.store.Supplies f.typeExpr := by
  obtain ⟨_, _, _, _, _, _, _, _, hq, rfl⟩ := exists_of_projectType_ok h
  exact supplies_of_mem_project hq hf

end Resolver

namespace Graph

variable {g : Graph} {shapes : Shapes}

/-! ## Generic declarations of a graph -/

/-- The ways in which the name of a declaration of a graph stands for something
else too. -/
inductive Overlaid (g : Graph) (p : Projection) : Prop
  /-- An application has the name. -/
  | applied {m : ScopedName} {d : ScopedDecl} {args : List TypeExpr}
      (hd : g.store.resolve m = .ok d) (hargs : args ≠ [])
      (hlength : d.decl.params.length = args.length)
      (hname : g.Emits (.app (.reference m) args) p.name) : Overlaid g p
  /-- The name finds another declaration. -/
  | shadowed (hname : g.store.resolve p.name ≠ .ok p.decl) : Overlaid g p
  /-- A declaration of the name stands under another one. -/
  | misplaced {n : ScopedName} {d : ScopedDecl} (hd : g.store.resolve n = .ok d)
      (hname : d.name = p.name) (hn : n ≠ p.name) : Overlaid g p

/-- A generic declaration of the graph has the simple name, and stands under an
overlaid one. -/
def OverlaidAt (g : Graph) (x : String) : Prop :=
  ∃ p ∈ g.decls, p.generic = true ∧ p.name.name = x ∧ g.Overlaid p

theorem mem_all_of_decl? (h : g.decl? n = some p) : p ∈ g.all ∧ p.name = n :=
  ⟨mem_reverse.mp (mem_of_find?_eq_some h), by simpa using find?_some h⟩

section Built

variable (h : g.Built)
include h

theorem Built.exists_project_of_decl (hp : p ∈ g.decls) :
    ∃ d ∈ g.store.allDecls, ∃ q, g.resolver.project d [] = .ok q ∧
      p = q.marked g.settings.inFocus := by
  refine exists_project_of_mem_closure (fun d hd => ?_) h.closure hp
  exact mem_of_mem_filter (mem_of_mem_filter hd)

theorem Built.exists_projectInstance (hp : p ∈ g.instances) :
    ∃ i, projectInstance g.resolver i = .ok p := by
  obtain ⟨hout, all, hcompletes⟩ := completes_of_run consistent_empty h.run
  rw [hout, instanceProjections, Projection.sort, mem_mergeSort] at hp
  obtain ⟨i, _, hproject⟩ := hcompletes.exists_of_mem_projections hp
  exact ⟨i, hproject⟩

/-- The fields of a graph supply their arguments. -/
theorem Built.supplies (hp : p ∈ g.all) (hf : f ∈ p.fields) : g.store.Supplies f.typeExpr := by
  rcases mem_append.mp hp with hp | hp
  · obtain ⟨d, _, q, hq, rfl⟩ := h.exists_project_of_decl hp
    exact supplies_of_mem_project hq hf
  · obtain ⟨i, hi⟩ := h.exists_projectInstance hp
    obtain ⟨_, q, hq, _, hfields⟩ := exists_of_projectInstance_ok hi
    exact supplies_of_mem_projectType hq (hfields ▸ hf)

theorem Built.params_of_generic (hp : p ∈ g.all) (hgeneric : p.generic = true) :
    p ∈ g.decls ∧ p.decl.decl.params ≠ [] := by
  rcases mem_append.mp hp with hp | hp
  · refine ⟨hp, fun hparams => ?_⟩
    obtain ⟨d, _, q, hq, rfl⟩ := h.exists_project_of_decl hp
    obtain ⟨x, _, rfl⟩ := bind_pure_eq_ok.mp hq
    have hparams : d.decl.params = [] := hparams
    have hgeneric : (!d.decl.params.isEmpty && true) = true := hgeneric
    rw [hparams] at hgeneric
    cases hgeneric
  · obtain ⟨i, hi⟩ := h.exists_projectInstance hp
    obtain ⟨q, _, rfl⟩ := bind_pure_eq_ok.mp hi
    cases hgeneric

/-- Where every declaration is found under its own name alone, only applications
overlay a name. -/
theorem Built.exists_emits_of_overlaid (hstore : g.store.Indexed) (hp : p ∈ g.decls)
    (hoverlaid : g.Overlaid p) :
    ∃ m d args, g.store.resolve m = .ok d ∧ args ≠ [] ∧ d.decl.params.length = args.length ∧
      g.Emits (.app (.reference m) args) p.name := by
  cases hoverlaid with
  | applied hd hargs hlength hname => exact ⟨_, _, _, hd, hargs, hlength, hname⟩
  | shadowed hname =>
    obtain ⟨d, hd, q, hq, rfl⟩ := h.exists_project_of_decl hp
    obtain ⟨x, _, rfl⟩ := bind_pure_eq_ok.mp hq
    exact absurd (hstore.resolve_name hd) hname
  | misplaced hd hname hn =>
    exact absurd ((Store.name_eq_of_resolve_ok hstore.named hd).symm.trans hname) hn

/-- Where a reference without arguments finds a generic declaration although it
supplies its arguments, the name finds another one too. -/
theorem Built.overlaid_of_declared (hsupplies : g.store.Supplies (.app (.reference n) []))
    (hd : g.store.resolve n = .ok d) (hp : g.decl? n = some p) (hgeneric : p.generic = true) :
    g.Overlaid p := by
  obtain ⟨hmem, rfl⟩ := mem_all_of_decl? hp
  refine .shadowed fun hfound => (h.params_of_generic hmem hgeneric).2 ?_
  rw [hfound] at hd
  obtain rfl := Except.ok.inj hd
  exact length_eq_zero_iff.mp (Store.supplies_iff.mp hsupplies p.name [] (self_mem_walk _) _ hfound)

end Built

/-! ## Shapes outside a graph -/

/-- The fields of a shape supply their arguments; what the graph has under its
name is overlaid. -/
structure Outside (g : Graph) (p : Projection) : Prop where
  fields : ∀ f ∈ p.fields, g.store.Supplies f.typeExpr
  overlaid : ∀ q, g.decl? p.name = some q → g.Overlaid q

theorem outside_of_projectOutside {name : ScopedName}
    (hname : g.Emits (.app (.reference n) args) name) (hnone : g.decl? name = none)
    (h : g.projectOutside name n (.app (.reference n) args) = .ok p) : g.Outside p := by
  rcases projectOutside_eq_ok.mp h with ⟨hempty, d, q, hd, hq, rfl⟩ | ⟨hargs, q, hq, rfl⟩
  · obtain rfl : args = [] := hempty
    obtain rfl : name = n := by
      cases hname with
      | declared => rfl
      | applied hargs => exact absurd rfl hargs
    refine ⟨fun f hf => supplies_of_mem_project hq hf, fun found hfound => ?_⟩
    have hsame : found.name = q.name := (mem_all_of_decl? hfound).2
    have hd' : d.name = found.name := (hsame.trans (project_name hq)).symm
    refine .misplaced hd hd' fun hn => ?_
    have hfound : g.decl? q.name = some found := hfound
    rw [← hsame, ← hn, hnone] at hfound
    cases hfound
  · refine ⟨fun f hf => supplies_of_mem_projectType hq hf, fun found hfound => ?_⟩
    obtain ⟨_, _, d, env, _, hsame, hd, henv, _⟩ := exists_of_projectType_ok hq
    cases hsame
    obtain rfl : found.name = name := (mem_all_of_decl? hfound).2
    exact .applied hd hargs (Env.bind_eq_ok.mp henv).1 hname

theorem outside_of_projectedFor {asked : List TypeExpr} {entry : String × Projection}
    (h : g.ProjectedFor asked entry) : g.Outside entry.2 := by
  obtain ⟨_, _, _, _, _, _, _, hname, hnone, hp⟩ := h
  exact outside_of_projectOutside hname hnone hp

/-- What a lookup leaves, and what it finds: a shape outside the graph, or what
the graph has under the name of the application that the type expands to. -/
theorem outside_of_shape (hshapes : ∀ entry ∈ shapes, g.Outside entry.2) (t : TypeExpr) :
    (∀ entry ∈ (g.shape shapes t).1, g.Outside entry.2) ∧
      ∀ p, (g.shape shapes t).2 = .ok (some p) → ∃ n args name,
        g.resolver.ExpandsTo t (.app (.reference n) args) ∧
        g.Emits (.app (.reference n) args) name ∧ (g.Outside p ∨ g.decl? name = some p) :=
  shape_rule hshapes fun _ => outside_of_projectedFor

/-- A type that supplies its arguments denotes a shape of which the graph has
nothing generic under its name, unless that is overlaid. -/
theorem Built.overlaid_of_shape (h : g.Built) (hstore : g.store.Supplied)
    (hshapes : ∀ entry ∈ shapes, g.Outside entry.2) (ht : g.store.Supplies t) {q : Projection}
    (hp : (g.shape shapes t).2 = .ok (some p)) (hq : g.decl? p.name = some q)
    (hgeneric : q.generic = true) : g.Overlaid q := by
  obtain ⟨n, args, name, ⟨_, _, hexpands⟩, hname, houtside | hdecl⟩ :=
    (outside_of_shape hshapes t).2 p hp
  · exact houtside.overlaid q hq
  · obtain ⟨_, rfl⟩ := mem_all_of_decl? hdecl
    obtain rfl : p = q := Option.some.inj (hdecl.symm.trans hq)
    obtain ⟨d, hd⟩ := hexpands.exists_resolve
    have hsupplies := hexpands.supplies hstore ht
    cases hname with
    | declared => exact h.overlaid_of_declared hsupplies hd hdecl hgeneric
    | applied hargs hmodule htext =>
      have hlength := Store.supplies_iff.mp hsupplies n args (self_mem_walk _) d hd
      exact .applied hd hargs hlength (.applied hargs hmodule htext)

end Graph

end SchemaCompiler
