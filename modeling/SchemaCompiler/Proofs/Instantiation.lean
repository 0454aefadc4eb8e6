import SchemaCompiler.Proofs.Projection
import SchemaCompiler.Proofs.Store
import SchemaCompiler.StandardModules

/-!
# Projection and instantiation

A generic declaration can be projected with its parameters open, or with
bindings for them.  Where both succeed, the second projection is the first with
the bindings substituted into its fields.  The two expansions run in step: they
visit the same declarations, and the bindings of each visit on the closed side
are those of the open side with the outer bindings substituted.
-/

namespace SchemaCompiler

open TypeExpr Env

/-- Every declaration is written with its own type parameters only. -/
def Store.WellScoped (s : Store) : Prop :=
  ∀ d ∈ s.allDecls, ∀ t ∈ d.decl.body.typeExprs, t.paramNames ⊆ d.decl.params

instance (s : Store) : Decidable s.WellScoped :=
  inferInstanceAs (Decidable (∀ d ∈ s.allDecls, ∀ t ∈ d.decl.body.typeExprs,
    t.paramNames ⊆ d.decl.params))

/-- `closed` is `generic` with bindings substituted into its type. -/
structure ConcreteField.InstantiatesTo (env : Env) (generic closed : ConcreteField) :
    Prop where
  name : generic.name = closed.name
  serializedName : generic.field.serializedName = closed.field.serializedName
  default : generic.field.default = closed.field.default
  annotations : generic.field.annotations = closed.field.annotations
  origin : generic.origin = closed.origin
  typeExpr : generic.typeExpr.substitute env = .ok closed.typeExpr

namespace Env

variable {params : List String} {env : Env}

/-- On expressions over `params`, `closed` does what `generic` and then `env`
do. -/
def Refines (env : Env) (params : List String) (generic closed : Env) : Prop :=
  ∀ t s u : TypeExpr, t.paramNames ⊆ params → t.substitute generic = .ok s →
    t.substitute closed = .ok u → s.substitute env = .ok u

theorem refines_open (env : Env) (params : List String) : Refines env params [] env := by
  intro t s u _ hs hu
  have hcomposes : Composes env [] [] := .nil
  exact substitute_of_composes hcomposes hs hu

theorem exists_find?_of_mem_params {args : List TypeExpr} (hlength : params.length = args.length)
    {name : String} (hname : name ∈ params) :
    ∃ value, find? (params.zipWith Binding.mk args) name = some value := by
  induction params generalizing args with
  | nil => cases hname
  | cons p params ih =>
    cases args with
    | nil => cases hlength
    | cons a args =>
      by_cases hp : p = name
      · exact ⟨a, by simp [find?, hp]⟩
      · obtain ⟨value, hvalue⟩ := ih (Nat.succ.inj hlength)
          ((List.mem_cons.mp hname).resolve_left (Ne.symm hp))
        refine ⟨value, ?_⟩
        simpa [find?, hp] using hvalue

theorem composes_zipWith {as bs : List TypeExpr}
    (h : List.Forall₂ (fun a b => a.substitute env = .ok b) as bs) :
    Composes env (params.zipWith Binding.mk as) (params.zipWith Binding.mk bs) := by
  induction h generalizing params with
  | nil =>
    cases params <;> exact .nil
  | cons hab _ ih =>
    cases params with
    | nil => exact .nil
    | cons p params => exact .cons ⟨rfl, hab⟩ ih

/-- Binding all parameters before and after a substitution of the arguments. -/
theorem refines_bind {generic closed : Env} {n : ScopedName} {as bs : List TypeExpr}
    (hargs : List.Forall₂ (fun a b => a.substitute env = .ok b) as bs)
    (hgeneric : bind n params as = .ok generic) (hclosed : bind n params bs = .ok closed) :
    Refines env params generic closed := by
  obtain ⟨_, rfl⟩ := bind_eq_ok.mp hgeneric
  obtain ⟨hlength, rfl⟩ := bind_eq_ok.mp hclosed
  intro t s u hparams hs hu
  refine substitute_of_composes (composes_zipWith hargs) hs ?_
  -- no parameter of `t` is left for `env` to bind
  rw [← hu]
  apply substitute_congr
  intro name hname
  obtain ⟨value, hvalue⟩ := exists_find?_of_mem_params hlength (hparams hname)
  rw [find?_append_of_some env hvalue, hvalue]

end Env

namespace Resolver

variable {r : Resolver} {env : Env} {f : Field}

/-- Two expansions of one declaration, open and closed. -/
def Expansion.InstantiatesTo (env : Env) (generic closed : Expansion) : Prop :=
  generic.shape = closed.shape ∧
    List.Forall₂ (ConcreteField.InstantiatesTo env) generic.fields closed.fields

/-- Entering a declaration respects instantiation. -/
def Enter.Instantiates (r : Resolver) (env : Env) (enter : Enter) : Prop :=
  ∀ d ∈ r.store.allDecls, ∀ trail generic closed x y,
    Refines env d.decl.params generic closed → enter trail d generic = .ok x →
    enter trail d closed = .ok y → x.InstantiatesTo env y

theorem concreteField_instantiates {owner : ScopedName} {s u : TypeExpr} {c e : ConcreteField}
    (hsubstitute : s.substitute env = .ok u) (hc : r.concreteField owner f s = .ok c)
    (he : r.concreteField owner f u = .ok e) : c.InstantiatesTo env e := by
  obtain ⟨hfield, horigin, _⟩ := exists_of_concreteField_ok hc
  obtain ⟨hfield', horigin', _⟩ := exists_of_concreteField_ok he
  constructor
  all_goals
    simp only [ConcreteField.name, ConcreteField.typeExpr, hfield, hfield', horigin, horigin']
  exact hsubstitute

section

variable {enter : Enter} (henter : enter.Instantiates r env) {trail : Trail}
  {owner : ScopedName} {params : List String} {generic closed : Env}
  (hrefines : Refines env params generic closed)
include henter

theorem expandType_instantiates {s u : TypeExpr} {x y : Expansion}
    (hsubstitute : s.substitute env = .ok u)
    (hx : r.expandType enter trail s = .ok x) (hy : r.expandType enter trail u = .ok y) :
    x.InstantiatesTo env y := by
  obtain ⟨n, as, target, generic, rfl, htarget, hgeneric, hx⟩ := exists_of_expandType_ok hx
  obtain ⟨bs, hargs, rfl⟩ := substitute_reference_eq_ok.mp hsubstitute
  obtain ⟨m, cs, target', closed, heq, htarget', hclosed, hy⟩ := exists_of_expandType_ok hy
  obtain ⟨rfl, rfl⟩ : n = m ∧ bs = cs := by simpa using heq
  obtain rfl : target = target' := by simpa using htarget.symm.trans htarget'
  exact henter target (Store.mem_allDecls_of_resolve_ok htarget) trail generic closed x y
    (refines_bind hargs hgeneric hclosed) hx hy

include hrefines

theorem expandField_instantiates (hparams : f.typeExpr.paramNames ⊆ params)
    {part part' : List ConcreteField} (hpart : r.expandField enter trail owner generic f = .ok part)
    (hpart' : r.expandField enter trail owner closed f = .ok part') :
    List.Forall₂ (ConcreteField.InstantiatesTo env) part part' := by
  obtain ⟨s, hs, _, hpart⟩ := exists_of_expandField_ok hpart
  obtain ⟨u, hu, _, hpart'⟩ := exists_of_expandField_ok hpart'
  have hsubstitute : s.substitute env = .ok u := hrefines f.typeExpr s u hparams hs hu
  rcases hpart with ⟨hspread, x, hx, rfl⟩ | ⟨hspread, c, hc, rfl⟩
  · rcases hpart' with ⟨_, y, hy, rfl⟩ | ⟨hkept, _⟩
    · exact (expandType_instantiates henter hsubstitute hx hy).2
    · exact absurd hspread (by simp [hkept])
  · rcases hpart' with ⟨hspread', _⟩ | ⟨_, e, he, rfl⟩
    · exact absurd hspread' (by simp [hspread])
    · exact .cons (concreteField_instantiates hsubstitute hc he) .nil

theorem shapeFields_instantiates {fields : List Field}
    (hparams : ∀ f ∈ fields, f.typeExpr.paramNames ⊆ params)
    {out out' : List ConcreteField}
    (hout : r.shapeFields enter trail owner generic fields = .ok out)
    (hout' : r.shapeFields enter trail owner closed fields = .ok out') :
    List.Forall₂ (ConcreteField.InstantiatesTo env) out out' := by
  obtain ⟨parts, hparts, rfl⟩ :=
    exists_of_expandFields_ok (expandFields_of_shapeFields_ok hout)
  obtain ⟨parts', hparts', rfl⟩ :=
    exists_of_expandFields_ok (expandFields_of_shapeFields_ok hout')
  apply List.rel_flatten
  exact Outcome.forall₂_of_common hparts hparts' fun f hf part part' hpart hpart' =>
    expandField_instantiates henter hrefines (hparams f hf) hpart hpart'

theorem expandTarget_instantiates {target : TypeExpr} (hparams : target.paramNames ⊆ params)
    {x y : Expansion} (hx : r.expandTarget enter trail owner generic target = .ok x)
    (hy : r.expandTarget enter trail owner closed target = .ok y) :
    x.InstantiatesTo env y := by
  obtain ⟨s, hs, hx⟩ := exists_of_expandTarget_ok hx
  obtain ⟨u, hu, hy⟩ := exists_of_expandTarget_ok hy
  exact expandType_instantiates henter (hrefines target s u hparams hs hu) hx hy

end

/-- By induction on the visits left: every visit on the way down is one visit
on both sides. -/
theorem expand_instantiates (hscoped : r.store.WellScoped) (env : Env) (budget : Nat) :
    Enter.Instantiates r env (r.expand budget) := by
  induction budget with
  | zero =>
    intro d _ trail generic closed x y _ hx _
    obtain ⟨rest, hrest, _⟩ := exists_of_expand_ok hx
    cases hrest
  | succ budget ih =>
    intro d hd trail generic closed x y hrefines hx hy
    obtain ⟨rest, hrest, hx⟩ := exists_of_expand_ok hx
    obtain rfl : budget = rest := Nat.succ.inj hrest
    obtain ⟨rest', hrest', hy⟩ := exists_of_expand_ok hy
    obtain rfl : budget = rest' := Nat.succ.inj hrest'
    rcases hx with ⟨hshape, out, hout, rfl⟩ | ⟨target, htarget, hx⟩
    · rcases hy with ⟨_, out', hout', rfl⟩ | ⟨target, htarget, _⟩
      · exact ⟨rfl, shapeFields_instantiates ih hrefines
          (fun f hf => hscoped d hd _ (Body.typeExpr_mem_typeExprs hf)) hout hout'⟩
      · exact absurd htarget (by simp [hshape])
    · rcases hy with ⟨hshape, _⟩ | ⟨target', htarget', hy⟩
      · exact absurd htarget (by simp [hshape])
      · obtain rfl : target = target' := Option.some.inj (htarget.symm.trans htarget')
        exact expandTarget_instantiates ih hrefines
          (hscoped d hd _ (Body.target_mem_typeExprs htarget)) hx hy

/-- Projection commutes with instantiation: under any bindings, in particular
those of all its parameters, a declaration has the shape and the fields of its
open projection, with the bindings substituted into the types of the fields. -/
theorem project_instantiates (hscoped : r.store.WellScoped) {d : ScopedDecl}
    (hd : d ∈ r.store.allDecls) {p q : Projection} (hp : r.project d [] = .ok p)
    (hq : r.project d env = .ok q) :
    p.shape = q.shape ∧ p.kind = q.kind ∧ p.fields.length = q.fields.length ∧
      List.Forall₂ (ConcreteField.InstantiatesTo env) p.fields q.fields := by
  obtain ⟨x, hx, _, hpkind, hpshape, hpfields⟩ := exists_of_project_ok hp
  obtain ⟨y, hy, _, hqkind, hqshape, hqfields⟩ := exists_of_project_ok hq
  obtain ⟨hshape, hfields⟩ := expand_instantiates hscoped env r.expansionBudget d hd
    ⟨[], []⟩ [] env x y (refines_open env d.decl.params) hx hy
  rw [hpkind, hqkind, hpshape, hqshape, hpfields, hqfields, hshape]
  exact ⟨rfl, rfl, hfields.length_eq, hfields⟩

/-- A page spreads a pair whose parameters trade places on the way: `T` stands
for another type in each of the three declarations. -/
def pagePair : ScopedDecl :=
  ⟨"app", ⟨"Pair", none, .struct ["T", "U"]
    [Standard.field "first" (.param "T"),
      Standard.field "rest" (.prim "Vector" [.param "U"])], []⟩⟩

def pageSwap : ScopedDecl :=
  ⟨"app", ⟨"Swap", none, .synonym ["T", "U"]
    (.ref pagePair.name [.param "U", .param "T"]), []⟩⟩

def page : ScopedDecl :=
  ⟨"app", ⟨"Page", none, .struct ["T"]
    [⟨"body", "body", .ref pageSwap.name [.param "T", .prim "Nullable" [.param "T"]], none,
      [⟨spreadKey, .absent⟩]⟩,
      Standard.field "last" (.param "T")], []⟩⟩

def pages : Resolver :=
  ⟨⟨[⟨"app", [], [pagePair, page, pageSwap].map fun d => (d.decl.name, d.decl), []⟩]⟩,
    .standard⟩

/-- The page of texts: `first`, `rest` and `last` are an optional text, a list
of texts and a text. -/
theorem project_instantiates_page :
    ∃ p q, pages.project page [] = .ok p ∧
      pages.project page [⟨"T", .prim "String"⟩] = .ok q ∧
      q.fields.map (·.typeExpr) =
        [.prim "Nullable" [.prim "String"], .prim "Vector" [.prim "String"],
          .prim "String"] ∧
      p.shape = q.shape ∧ p.kind = q.kind ∧ p.fields.length = q.fields.length ∧
      List.Forall₂ (ConcreteField.InstantiatesTo [⟨"T", .prim "String"⟩])
        p.fields q.fields :=
  ⟨_, _, rfl, rfl, rfl, project_instantiates (r := pages) (by decide)
    (Store.mem_allDecls_of_resolve_ok (n := page.name) rfl) rfl rfl⟩

end Resolver

end SchemaCompiler
