import SchemaCompiler.Proofs.AliasReferences
import SchemaCompiler.Proofs.SubstitutionLaws
import SchemaCompiler.Proofs.SuppliedArguments

/-!
# Arguments behind aliases

The arguments of references are counted in the types of fields, as they are after
substitution.  What aliases and new types stand for is not looked at, beyond the
aliases at the head that the link of a field follows.  So a reference that is met
later, through wrappers and definitions, has the arguments its declaration takes,
unless a definition on the way is written with a different number of them; then
the type of a field can denote a generic declaration with open parameters.
-/

namespace SchemaCompiler

open Outcome List TypeExpr Resolver Store

variable {p : Projection} {t : TypeExpr}

namespace TypeExpr

variable {env : Env} {t u : TypeExpr} {n : ScopedName} {count : Nat}

/-- A reference with so many arguments stands in the type. -/
def Mentions (t : TypeExpr) (n : ScopedName) (count : Nat) : Prop :=
  ∃ args, app (.reference n) args ∈ t.walk ∧ args.length = count

theorem Mentions.of_arg (ha : u ∈ t.args) (h : u.Mentions n count) : t.Mentions n count := by
  obtain ⟨args, hmem, hcount⟩ := h
  cases t with
  | missing => cases ha
  | app head as => exact ⟨args, walk_arg_subset ha hmem, hcount⟩

theorem mentions_self (n : ScopedName) (args : List TypeExpr) :
    (app (.reference n) args).Mentions n args.length :=
  ⟨args, self_mem_walk _, rfl⟩

/-- What a substituted type mentions stands in the type or in a value. -/
theorem mentions_of_substitute (hu : t.substitute env = .ok u) (h : u.Mentions n count) :
    t.Mentions n count ∨ ∃ b ∈ env, b.value.Mentions n count := by
  obtain ⟨as, hmem, rfl⟩ := h
  rcases mem_walk_substitute hu hmem with ⟨y, hy, hhead, hcount, -⟩ | ⟨b, hb, -, -, hvalue⟩
  · cases y with
    | missing => cases hhead
    | app head args =>
      cases hhead
      exact .inl ⟨args, hy, hcount⟩
  · exact .inr ⟨b, hb, as, hvalue, rfl⟩

theorem Mentions.substitute (h : t.Mentions n count) (hu : t.substitute env = .ok u) :
    u.Mentions n count := by
  obtain ⟨args, hmem, rfl⟩ := h
  obtain ⟨y, hy, hmem⟩ := exists_substitute_mem_walk hu hmem
  obtain ⟨bs, hbs, hhead⟩ := substitute_app_eq_ok.mp hy
  rcases substituteHead_eq_ok.mp hhead with ⟨name, hname, _⟩ | ⟨_, rfl⟩
  · cases hname
  · exact ⟨bs, hmem, hbs.length_eq.symm⟩

end TypeExpr

theorem Store.supplies_iff_mentions {s : Store} :
    s.Supplies t ↔ ∀ n count, t.Mentions n count → ∀ d, s.resolve n = .ok d →
      d.decl.params.length = count := by
  rw [supplies_iff]
  constructor
  · rintro h n count ⟨args, hmem, rfl⟩ d hd
    exact h n args hmem d hd
  · intro h n args hmem d hd
    exact h n args.length ⟨args, hmem, rfl⟩ d hd

/-- What an alias or a new type stands for mentions a declaration with so many
arguments. -/
def ScopedDecl.Writes (d : ScopedDecl) (n : ScopedName) (count : Nat) : Prop :=
  ∃ target, d.decl.body.target? = some target ∧ target.Mentions n count

/-- What an alias or a new type stands for has a parameter that it does not
declare. -/
def ScopedDecl.LeavesOpen (d : ScopedDecl) : Prop :=
  ∃ target, d.decl.body.target? = some target ∧ ¬ target.paramNames ⊆ d.decl.params

namespace Resolver

variable {r : Resolver} {t u : TypeExpr} {ds : List ScopedDecl} {n : ScopedName} {count : Nat}
  {d : ScopedDecl}

/-! ## Through wrappers and definitions -/

/-- Taking wrappers off and putting definitions in the place of aliases and new
types, with the declarations that are expanded on the way. -/
inductive Reaches (r : Resolver) : TypeExpr → List ScopedDecl → TypeExpr → Prop
  | here (t : TypeExpr) : Reaches r t [] t
  | layer {t u : TypeExpr} {ds : List ScopedDecl} {w : Wrapped} (hw : r.classify t = .ok w)
      (hkind : w.kind ≠ .plain) (hrest : Reaches r w.inner ds u) : Reaches r t ds u
  | expand {t next u : TypeExpr} {ds : List ScopedDecl} {n : ScopedName} {d : ScopedDecl}
      (hname : t.reference? = some n) (hd : r.store.resolve n = .ok d)
      (hnext : r.expandOnce t = .ok (some next)) (hrest : Reaches r next ds u) :
      Reaches r t (d :: ds) u

/-- The definition that replaces an alias or a new type. -/
theorem definition_of_expandOnce {next : TypeExpr} (hname : t.reference? = some n)
    (hd : r.store.resolve n = .ok d) (hnext : r.expandOnce t = .ok (some next)) :
    ∃ target env, d.decl.body.target? = some target ∧ target.substitute env = .ok next ∧
      Env.bind n d.decl.params t.args = .ok env := by
  obtain ⟨m, e, target, env, hm, he, htarget, henv, hsubst⟩ := exists_of_expandOnce_ok hnext
  obtain rfl := Option.some.inj (hname.symm.trans hm)
  obtain rfl := Except.ok.inj (hd.symm.trans he)
  exact ⟨target, env, htarget, hsubst, henv⟩

theorem inner_mem_args {w : Wrapped} (hw : r.classify t = .ok w) (hkind : w.kind ≠ .plain) :
    w.inner ∈ t.args := by
  rcases inner_of_classify_ok hw with ⟨hplain, _⟩ | ⟨_, hargs⟩
  · exact absurd hplain hkind
  · exact hargs ▸ mem_cons_self

/-- What is mentioned on the way was mentioned before, or a definition mentions
it. -/
theorem Reaches.mentions (h : r.Reaches t ds u) (hn : u.Mentions n count) :
    t.Mentions n count ∨ ∃ d ∈ ds, d.Writes n count := by
  induction h with
  | here => exact .inl hn
  | layer hw hkind _ ih => exact (ih hn).imp_left (.of_arg (inner_mem_args hw hkind))
  | @expand t next u ds m d hname hd hnext _ ih =>
    rcases ih hn with hnextn | ⟨e, he, hwrites⟩
    · obtain ⟨target, env, htarget, hsubst, henv⟩ := definition_of_expandOnce hname hd hnext
      rcases TypeExpr.mentions_of_substitute hsubst hnextn with hwritten | ⟨b, hb, hvalue⟩
      · exact .inr ⟨d, mem_cons_self, target, htarget, hwritten⟩
      · exact .inl (hvalue.of_arg (Env.value_mem_of_bind_ok henv hb))
    · exact .inr ⟨e, mem_cons_of_mem d he, hwrites⟩

/-- What a definition on the way mentions is met. -/
theorem Reaches.exists_mentions (h : r.Reaches t ds u) (hd : d ∈ ds) (hn : d.Writes n count) :
    ∃ es v, r.Reaches t es v ∧ v.Mentions n count := by
  induction h with
  | here => cases hd
  | layer hw hkind _ ih =>
    obtain ⟨es, v, hv, hmentions⟩ := ih hd
    exact ⟨es, v, .layer hw hkind hv, hmentions⟩
  | @expand t next u ds m e hname he hnext _ ih =>
    rcases mem_cons.mp hd with rfl | hd
    · obtain ⟨target, htarget, hmentions⟩ := hn
      obtain ⟨target', env, htarget', hsubst, _⟩ := definition_of_expandOnce hname he hnext
      obtain rfl := Option.some.inj (htarget.symm.trans htarget')
      exact ⟨[d], next, .expand hname he hnext (.here next), hmentions.substitute hsubst⟩
    · obtain ⟨es, v, hv, hmentions⟩ := ih hd
      exact ⟨e :: es, v, .expand hname he hnext hv, hmentions⟩

/-- Open parameters on the way were open before, or a definition leaves them
open. -/
theorem Reaches.hasParams (h : r.Reaches t ds u) (hu : u.hasParams = true) :
    t.hasParams = true ∨ ∃ d ∈ ds, d.LeavesOpen := by
  have hofArg {s a : TypeExpr} (ha : a ∈ s.args) (hopen : a.hasParams = true) :
      s.hasParams = true := by
    rw [hasParams_iff] at hopen ⊢
    obtain ⟨name, hname⟩ := hopen
    cases s with
    | missing => cases ha
    | app head as => exact ⟨name, paramNames_arg_subset ha hname⟩
  induction h with
  | here => exact .inl hu
  | layer hw hkind _ ih => exact (ih hu).imp_left (hofArg (inner_mem_args hw hkind))
  | @expand t next u ds m d hname hd hnext _ ih =>
    rcases ih hu with hopen | ⟨e, he, hleaves⟩
    · obtain ⟨target, env, htarget, hsubst, henv⟩ := definition_of_expandOnce hname hd hnext
      obtain ⟨name, hopen⟩ := hasParams_iff.mp hopen
      rcases (mem_paramNames_substitute hsubst).mp hopen with
        ⟨hwritten, hfree⟩ | ⟨param, _, value, hfind, hvalue⟩
      · refine .inr ⟨d, mem_cons_self, target, htarget, fun hdeclared => ?_⟩
        obtain ⟨hlength, rfl⟩ := Env.bind_eq_ok.mp henv
        obtain ⟨value, hvalue⟩ := Env.exists_find?_of_mem_params hlength (hdeclared hwritten)
        rw [hfree] at hvalue
        cases hvalue
      · obtain ⟨b, hb, rfl⟩ := Option.map_eq_some_iff.mp hfind
        exact .inl (hofArg (Env.value_mem_of_bind_ok henv (mem_of_find?_eq_some hb))
          (hasParams_iff.mpr ⟨name, hvalue⟩))
    · exact .inr ⟨e, mem_cons_of_mem d he, hleaves⟩

theorem Expands.exists_reaches {steps : Nat} (h : r.Expands steps t u) :
    ∃ ds, r.Reaches t ds u := by
  induction h with
  | done => exact ⟨[], .here _⟩
  | step hname _ _ hnext _ ih =>
    obtain ⟨ds, hrest⟩ := ih
    obtain ⟨m, d, _, _, hm, hd, _⟩ := exists_of_expandOnce_ok hnext
    exact ⟨d :: ds, .expand hm hd hnext hrest⟩

/-- How far the arguments of references behind a type are counted. -/
structure Counted (r : Resolver) (t : TypeExpr) : Prop where
  /-- All that stand in the type itself are. -/
  own : r.store.Supplies t
  /-- So are those of aliases that come to the head. -/
  aliases : ∀ u n d params target, r.UnfoldsTo t u → u.reference? = some n →
    r.wrappers.isReference n = false → r.store.resolve n = .ok d →
    d.decl.body = .synonym params target → params.length = u.args.length
  /-- A wrong number is written in a definition on the way. -/
  written : ∀ ds u n count d, r.Reaches t ds u → u.Mentions n count →
    r.store.resolve n = .ok d → d.decl.params.length ≠ count → ∃ e ∈ ds, e.Writes n count
  /-- All are right exactly if the definitions on the way are. -/
  counted_iff : (∀ ds u, r.Reaches t ds u → r.store.Supplies u) ↔
    ∀ ds u, r.Reaches t ds u → ∀ e ∈ ds, ∀ target, e.decl.body.target? = some target →
      r.store.Supplies target

theorem counted_of_link_ok {link : Option ScopedName} (ht : r.store.Supplies t)
    (hlink : r.link t = .ok link) : r.Counted t := by
  have hwritten : ∀ ds u n count d, r.Reaches t ds u → u.Mentions n count →
      r.store.resolve n = .ok d → d.decl.params.length ≠ count → ∃ e ∈ ds, e.Writes n count := by
    intro ds u n count d hu hn hd hcount
    rcases hu.mentions hn with hown | hwrites
    · exact absurd (supplies_iff_mentions.mp ht n count hown d hd) hcount
    · exact hwrites
  refine ⟨ht, ?_, hwritten, ⟨?_, ?_⟩⟩
  · intro u n d params target hu hname hreference hd hbody
    obtain ⟨w, hw, _⟩ := link_eq_ok.mp hlink
    obtain ⟨s, hs, _⟩ := classifyExpanded_eq_ok.mp hw
    rcases expandWithin_cases (expandAliases_of_unfoldsTo hu hs) with ⟨hhead, _⟩ |
      ⟨m, next, _, hunfolds, _⟩
    · rcases hhead n hname with hwrapper | ⟨e, he, hnot⟩
      · simp [hreference] at hwrapper
      · obtain rfl := Except.ok.inj (hd.symm.trans he)
        exact absurd hbody (hnot params target)
    · obtain ⟨hm, _, e, params', target', env, he, hbody', henv, _⟩ := hunfolds
      obtain rfl := Option.some.inj (hname.symm.trans hm)
      obtain rfl := Except.ok.inj (hd.symm.trans he)
      obtain ⟨rfl, rfl⟩ : params = params' ∧ target = target' := by simpa [hbody] using hbody'
      exact (Env.bind_eq_ok.mp henv).1
  · intro hall ds u hu e he target htarget
    refine supplies_iff_mentions.mpr fun n count hn d hd => ?_
    obtain ⟨es, v, hv, hmentions⟩ := hu.exists_mentions he ⟨target, htarget, hn⟩
    exact supplies_iff_mentions.mp (hall es v hv) n count hmentions d hd
  · intro hdefinitions ds u hu
    refine supplies_iff_mentions.mpr fun n count hn d hd => ?_
    by_contra hcount
    obtain ⟨e, he, target, htarget, hmentions⟩ := hwritten ds u n count d hu hn hd hcount
    exact hcount (supplies_iff_mentions.mp (hdefinitions ds u hu e he target htarget)
      n count hmentions d hd)

theorem counted_of_mem_project {env : Env} (h : r.project d env = .ok p) {f : ConcreteField}
    (hf : f ∈ p.fields) : r.Counted f.typeExpr := by
  obtain ⟨owner, field, hconcrete⟩ := exists_concreteField_of_mem_project h hf
  exact counted_of_link_ok (supplies_of_mem_project h hf) (link_of_concreteField_ok hconcrete)

end Resolver

namespace Graph

variable {g : Graph} {asked : List TypeExpr}

/-! ## Shapes with open parameters -/

/-- A projection outside the graph is open where its declaration is applied to
nothing, or to something open. -/
theorem open_of_projectOutside {n name : ScopedName} {args : List TypeExpr}
    (h : g.projectOutside name n (.app (.reference n) args) = .ok p) (hgeneric : p.generic = true) :
    (∃ d, g.store.resolve n = .ok d ∧ d.decl.params.length ≠ args.length) ∨
      (TypeExpr.app (.reference n) args).hasParams = true := by
  rcases projectOutside_eq_ok.mp h with ⟨hempty, d, q, hd, hq, rfl⟩ | ⟨_, q, hq, rfl⟩
  · obtain rfl : args = [] := hempty
    obtain ⟨x, _, rfl⟩ := bind_pure_eq_ok.mp hq
    have hparams : (!d.decl.params.isEmpty && true) = true := hgeneric
    refine .inl ⟨d, hd, fun hnone => ?_⟩
    rw [length_eq_zero_iff.mp hnone] at hparams
    cases hparams
  · obtain ⟨_, _, _, _, _, _, _, _, _, rfl⟩ := exists_of_projectType_ok hq
    exact .inr hgeneric

/-- The ways in which a type denotes a declaration with open parameters. -/
inductive OpenShape (g : Graph) (asked : List TypeExpr) (t : TypeExpr) (q : Projection) : Prop
  /-- A definition on the way has a wrong number of arguments for the reference
  that the type leads to. -/
  | miscounted {ds : List ScopedDecl} {n : ScopedName} {args : List TypeExpr} {d e : ScopedDecl}
      (hreaches : g.resolver.Reaches t ds (.app (.reference n) args))
      (hd : g.store.resolve n = .ok d) (hcount : d.decl.params.length ≠ args.length)
      (he : e ∈ ds) (hwrites : e.Writes n args.length) : OpenShape g asked t q
  /-- The type is open, or a definition on the way has a parameter that it does
  not declare. -/
  | parameter {ds : List ScopedDecl} {u : TypeExpr} (hreaches : g.resolver.Reaches t ds u)
      (hopen : t.hasParams = true ∨ ∃ d ∈ ds, d.LeavesOpen) : OpenShape g asked t q
  /-- The name stands for something else too. -/
  | overlaid (hoverlaid : g.Overlaid q) : OpenShape g asked t q
  /-- What was asked for before is written like what the type leads to. -/
  | mistaken {s u v : TypeExpr} (hs : s ∈ asked) (hu : g.resolver.ExpandsTo s u)
      (hv : g.resolver.ExpandsTo t v) (hne : u ≠ v) (htext : u.scopedText = v.scopedText) :
      OpenShape g asked t q

theorem Built.openShape (h : g.Built) (ht : g.store.Supplies t) {q : Projection}
    (hq : g.Returns asked t q) (hgeneric : q.generic = true) : g.OpenShape asked t q := by
  obtain ⟨n, args, name, hx, hname, hfound⟩ := hq.cases
  obtain ⟨steps, _, hexpands⟩ := id hx
  obtain ⟨ds, hreaches⟩ := hexpands.exists_reaches
  have hmiscounted {d : ScopedDecl} (hd : g.store.resolve n = .ok d)
      (hcount : d.decl.params.length ≠ args.length) : g.OpenShape asked t q := by
    rcases hreaches.mentions (TypeExpr.mentions_self n args) with hown | ⟨e, he, hwrites⟩
    · exact absurd (supplies_iff_mentions.mp ht n _ hown d hd) hcount
    · exact .miscounted hreaches hd hcount he hwrites
  rcases hfound with ⟨s, hs, m, as, _, hu, htext, _, _, hproject⟩ | hdecl
  · by_cases hsame : TypeExpr.app (.reference m) as = .app (.reference n) args
    · injection hsame with hhead hargs
      injection hhead with hhead
      subst hhead hargs
      rcases open_of_projectOutside hproject hgeneric with ⟨d, hd, hcount⟩ | hopen
      · exact hmiscounted hd hcount
      · exact .parameter hreaches (hreaches.hasParams hopen)
    · rcases mem_append.mp hs with hs | hs
      · exact .mistaken hs hu hx hsame htext
      · obtain rfl := mem_singleton.mp hs
        exact absurd (hu.unique hx) hsame
  · obtain ⟨d, hd⟩ := hexpands.exists_resolve
    by_cases hcount : d.decl.params.length = args.length
    · refine .overlaid ?_
      cases hname with
      | declared =>
        refine h.overlaid_of_declared (supplies_iff.mpr ?_) hd hdecl hgeneric
        intro m as hmem e he
        obtain ⟨rfl, rfl⟩ : m = n ∧ as = [] := by
          simpa [walk, walkAll] using hmem
        obtain rfl := Except.ok.inj (hd.symm.trans he)
        exact hcount
      | applied hargs hmodule htext =>
        obtain ⟨_, rfl⟩ := mem_all_of_decl? hdecl
        exact .applied hd hargs hcount (.applied hargs hmodule htext)
    · exact hmiscounted hd hcount

/-- The arguments of the references behind the fields of a projection are those
that their declarations take, unless a definition on the way has a different
number of them; and only then, or where parameters or names are not what they
seem, does a field of a graph denote a generic declaration. -/
theorem counted_arguments (store : Store) :
    (∀ wrappers d env p, project ⟨store, wrappers⟩ d env = .ok p →
      ∀ f ∈ p.fields, Counted ⟨store, wrappers⟩ f.typeExpr) ∧
    ∀ settings g, build settings store = .ok g → ∀ p ∈ g.all, ∀ f ∈ p.fields,
      ∀ asked q, g.Returns asked f.typeExpr q → q.generic = true →
        g.OpenShape asked f.typeExpr q := by
  refine ⟨fun wrappers d env p hp f hf => counted_of_mem_project hp hf, ?_⟩
  intro settings g hbuild p hp f hf asked q hq hgeneric
  obtain ⟨_, _, hbuilt⟩ := built_of_build_ok hbuild
  exact hbuilt.openShape (hbuilt.supplies hp hf) hq hgeneric

/-! ## An alias for a box of nothing -/

def openBox : ScopedDecl :=
  ⟨"app", (Standard.aliasDecl "Open" (.ref boxed.name)).2⟩

def boxSale : ScopedDecl :=
  ⟨"app", (Standard.structDecl "Sale" [] [Standard.field "box" (.ref openBox.name)]).2⟩

def openBoxes : Store :=
  ⟨[⟨"app", [], [boxed, openBox, boxSale].map fun d => (d.decl.name, d.decl), []⟩]⟩

theorem openBoxes_returned :
    ∃ g p f q, build .standard openBoxes = .ok g ∧ p ∈ g.all ∧ f ∈ p.fields ∧
      p.generic = false ∧ g.Returns [] f.typeExpr q ∧ q.name = boxed.name ∧
      q.generic = true := by
  have hbuild : build .standard openBoxes = .ok _ :=
    build_of_sorted rfl rfl rfl rfl rfl rfl (by decide)
  exact ⟨_, _, _, _, hbuild, mem_cons_of_mem _ mem_cons_self, mem_cons_self,
    rfl, rfl, rfl, rfl⟩

/-- The field of a sale is projected, and denotes the open box. -/
theorem counted_arguments_open :
    (∃ p f ds, project ⟨openBoxes, .standard⟩ boxSale [] = .ok p ∧ f ∈ p.fields ∧
      Reaches ⟨openBoxes, .standard⟩ f.typeExpr ds (.ref boxed.name) ∧
      boxed.decl.params.length ≠ 0 ∧ ∃ e ∈ ds, e.Writes boxed.name 0) ∧
    ∃ g p f q, build .standard openBoxes = .ok g ∧ p ∈ g.all ∧ f ∈ p.fields ∧
      p.generic = false ∧ g.Returns [] f.typeExpr q ∧ q.name = boxed.name ∧ q.generic = true ∧
      g.OpenShape [] f.typeExpr q := by
  constructor
  · obtain ⟨p, hp⟩ : ∃ p, project ⟨openBoxes, .standard⟩ boxSale [] = .ok p := ⟨_, rfl⟩
    have hfields : p.fields.map (·.typeExpr) = [.ref openBox.name] := by
      obtain rfl := Except.ok.inj (show Except.ok _ = Except.ok p from hp)
      rfl
    obtain ⟨f, hf, htype⟩ : ∃ f ∈ p.fields, f.typeExpr = .ref openBox.name := by
      rw [← mem_map, hfields]
      exact mem_cons_self
    have hreaches : Reaches ⟨openBoxes, .standard⟩ f.typeExpr [openBox]
        (.ref boxed.name) := by
      rw [htype]
      exact .expand rfl rfl rfl (.here _)
    have hcounted := (counted_arguments openBoxes).1 .standard boxSale [] p hp f hf
    exact ⟨p, f, [openBox], hp, hf, hreaches, by decide, hcounted.written [openBox] _ boxed.name 0
      boxed hreaches (TypeExpr.mentions_self _ []) rfl (by decide)⟩
  · obtain ⟨g, p, f, q, hbuild, hp, hf, hconcrete, hq, hname, hgeneric⟩ := openBoxes_returned
    exact ⟨g, p, f, q, hbuild, hp, hf, hconcrete, hq, hname, hgeneric,
      (counted_arguments openBoxes).2 .standard g hbuild p hp f hf [] q hq hgeneric⟩

end Graph

end SchemaCompiler
